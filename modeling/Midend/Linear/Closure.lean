import Midend.Name.Derived
import Midend.Tree.Basic
/-!
# Functions as classes

A function is turned into a class with a method `apply`, and so is every function nested in it.  The
name of a function becomes a variable that holds an object of its class; the body of `apply` starts
by making that object, for the function itself and for each function directly nested in it.
-/

namespace Midend.Linear

open Midend.Tree (Function)

/-- The class of a function.  Its constructor does nothing, so only `apply` is kept. -/
structure Closure where
  name : String
  /-- The parameters of `apply`, the receiver included. -/
  params : List Parameter
  ret : Ty
  decls : List Tree.Decl
  body : List Tree.Stmt
deriving Repr, Inhabited

namespace Closure

def receiver (className : String) : Parameter := ⟨selfName, .object className⟩

def binding (enclosing : List String) (f : Function) : Tree.Decl :=
  ⟨f.name, .object (closureClassName f.name enclosing), .none⟩

def construction (enclosing : List String) (f : Function) : Tree.Stmt :=
  let className := closureClassName f.name enclosing
  .assign f.loc f.name (.construct ⟨.object className, f.loc⟩ className)

mutual
/-- The class of a function in some enclosing functions, and the classes of all functions nested in
it. -/
def ofFunction (enclosing : List String) : Function → List Closure
  | ⟨name, params, ret, decls, body, children, loc⟩ =>
    let f : Function := ⟨name, params, ret, decls, body, children, loc⟩
    let path := enclosing ++ [name]
    { name := closureClassName name enclosing
      params := receiver (closureClassName name enclosing) :: params
      ret := ret
      decls := binding enclosing f :: children.map (binding path) ++ decls
      body := construction enclosing f :: children.map (construction path) ++ body } ::
      ofFunctions path children

def ofFunctions (enclosing : List String) : List Function → List Closure
  | [] => []
  | f :: fs => ofFunction enclosing f ++ ofFunctions enclosing fs
end

mutual
/-- The dotted paths of a function and of all functions nested in it, with the names of their
classes. -/
def paths (enclosing : List String) : Function → List (String × String)
  | ⟨name, _, _, _, _, children, _⟩ =>
    (dottedPath name enclosing, closureClassName name enclosing) ::
      allPaths (enclosing ++ [name]) children

def allPaths (enclosing : List String) : List Function → List (String × String)
  | [] => []
  | f :: fs => paths enclosing f ++ allPaths enclosing fs
end

end Closure

end Midend.Linear
