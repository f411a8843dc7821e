import Midend.Linear.Program
import Midend.Proofs.Tree.Nodes
/-!
# Scopes

The bodies of a typed tree: its top level, its methods, and its functions and lambdas at any
depth.  A scope binds names of its own, and finds those of the scopes around it bound already.
-/

namespace Midend.Linear

open Midend.Tree (Function Program)

/-- What a scope becomes: the top-level body, a method, or the method `apply` of a closure. -/
inductive ScopeKind where
  | topLevel
  | method
  | closure
deriving DecidableEq

structure Scope where
  kind : ScopeKind
  params : List Parameter
  /-- The declared variables, with the names of functions in front. -/
  decls : List Tree.Decl
  /-- The statements that make the objects of these functions. -/
  start : List Tree.Stmt
  body : List Tree.Stmt
  /-- The names that the scopes around this one bind, the top level aside. -/
  outer : List String

namespace Scope

def names (sc : Scope) : List String := sc.params.map (·.name) ++ sc.decls.map (·.name)

def sources (sc : Scope) : List Tree.Stmt := sc.start ++ sc.body

def nodes (sc : Scope) : List Tree.Node := Tree.Stmt.nodesOf sc.sources

/-- The names that a scope inside this one finds bound around it.  The names of the top level are
known everywhere. -/
def inside (sc : Scope) : List String :=
  match sc.kind with
  | .topLevel => []
  | .method | .closure => sc.names ++ sc.outer

def ofProgram (p : Program) : Scope where
  kind := .topLevel
  params := []
  decls := p.functions.map (Closure.binding []) ++ p.decls
  start := p.functions.map (Closure.construction [])
  body := p.stmts
  outer := []

def ofMethod (className : String) (f : Function) : Scope where
  kind := .method
  params := f.params
  decls := f.children.map (Closure.binding [className, f.name]) ++ f.decls
  start := f.children.map (Closure.construction [className, f.name])
  body := f.body
  outer := []

def ofFunction (outer enclosing : List String) (f : Function) : Scope where
  kind := .closure
  params := f.params
  decls := Closure.binding enclosing f ::
    (f.children.map (Closure.binding (enclosing ++ [f.name])) ++ f.decls)
  start := Closure.construction enclosing f ::
    f.children.map (Closure.construction (enclosing ++ [f.name]))
  body := f.body
  outer

def lambdaParams (params : List String) : Ty → List Parameter
  | .callable types _ => List.zipWith Parameter.mk params types
  | _ => []

def ofLambda (outer params : List String) (ty : Ty) (body : Tree.Expr) : Scope where
  kind := .closure
  params := lambdaParams params ty
  decls := []
  start := []
  body := [.ret body.loc body]
  outer

structure Matches (sc : Scope) (c : Closure) : Prop where
  kind : sc.kind = .closure
  params : c.params = Closure.receiver c.name :: sc.params
  decls : c.decls = sc.decls
  body : c.body = sc.sources

end Scope

inductive FunctionScope : List String → List String → Function → Scope → Prop
  | self (outer enclosing : List String) (f : Function) :
      FunctionScope outer enclosing f (.ofFunction outer enclosing f)
  | nested {outer enclosing : List String} {f child : Function} {sc : Scope}
      (hchild : child ∈ f.children)
      (h : FunctionScope (Scope.ofFunction outer enclosing f).inside (enclosing ++ [f.name]) child
        sc) : FunctionScope outer enclosing f sc

inductive ScopeOf (p : Program) : Scope → Prop
  | topLevel : ScopeOf p (.ofProgram p)
  | function {f : Function} {sc : Scope} (hf : f ∈ p.functions) (h : FunctionScope [] [] f sc) :
      ScopeOf p sc
  | method {c : Tree.Class} {m : Function} (hc : c ∈ p.classes) (hm : m ∈ c.methods) :
      ScopeOf p (.ofMethod c.name m)
  | methodFunction {c : Tree.Class} {m f : Function} {sc : Scope} (hc : c ∈ p.classes)
      (hm : m ∈ c.methods) (hf : f ∈ m.children)
      (h : FunctionScope (Scope.ofMethod c.name m).inside [c.name, m.name] f sc) : ScopeOf p sc
  | lambda {sc : Scope} {n : Tree.Note} {params : List String} {body : Tree.Expr}
      (h : ScopeOf p sc) (hnode : .expr (.lambda n params body) ∈ sc.nodes) :
      ScopeOf p (.ofLambda sc.inside params n.ty body)

theorem Closure.mem_ofFunctions {enclosing : List String} {fs : List Function} {c : Closure} :
    c ∈ Closure.ofFunctions enclosing fs ↔ ∃ f ∈ fs, c ∈ Closure.ofFunction enclosing f := by
  induction fs with
  | nil => simp [Closure.ofFunctions]
  | cons f fs ih => simp [Closure.ofFunctions, ih]

theorem Closure.mem_of_child {enclosing : List String} {f child : Function} {c : Closure}
    (hchild : child ∈ f.children) (hc : c ∈ Closure.ofFunction (enclosing ++ [f.name]) child) :
    c ∈ Closure.ofFunction enclosing f := by
  obtain ⟨name, params, ret, decls, body, children, loc⟩ := f
  rw [Closure.ofFunction]
  exact List.mem_cons_of_mem _ (mem_ofFunctions.2 ⟨child, hchild, hc⟩)

theorem FunctionScope.closure {outer enclosing : List String} {f : Function} {sc : Scope}
    (h : FunctionScope outer enclosing f sc) :
    ∃ c ∈ Closure.ofFunction enclosing f, sc.Matches c := by
  induction h with
  | self outer enclosing f =>
      obtain ⟨name, params, ret, decls, body, children, loc⟩ := f
      rw [Closure.ofFunction]
      exact ⟨_, List.mem_cons_self, rfl, rfl, rfl, rfl⟩
  | nested hchild _ ih =>
      obtain ⟨c, hc, hmatches⟩ := ih
      exact ⟨c, Closure.mem_of_child hchild hc, hmatches⟩

mutual
theorem functionScope_of_closure (outer enclosing : List String) (f : Function) :
    ∀ c ∈ Closure.ofFunction enclosing f,
      ∃ sc, FunctionScope outer enclosing f sc ∧ sc.Matches c := by
  match f with
  | ⟨name, params, ret, decls, body, children, loc⟩ =>
      let f : Function := ⟨name, params, ret, decls, body, children, loc⟩
      rw [Closure.ofFunction]
      refine List.forall_mem_cons.2 ⟨⟨_, .self outer enclosing f, rfl, rfl, rfl, rfl⟩, ?_⟩
      intro c hc
      obtain ⟨child, hchild, sc, hscope, hmatches⟩ := functionScopes_of_closures
        (Scope.ofFunction outer enclosing f).inside (enclosing ++ [name]) children c hc
      exact ⟨sc, .nested hchild hscope, hmatches⟩

theorem functionScopes_of_closures (outer enclosing : List String) (fs : List Function) :
    ∀ c ∈ Closure.ofFunctions enclosing fs,
      ∃ f ∈ fs, ∃ sc, FunctionScope outer enclosing f sc ∧ sc.Matches c := by
  match fs with
  | [] => exact fun c hc => absurd hc List.not_mem_nil
  | f :: fs =>
      rw [Closure.ofFunctions]
      refine List.forall_mem_append.2 ⟨fun c hc => ?_, fun c hc => ?_⟩
      · exact ⟨f, List.mem_cons_self, functionScope_of_closure outer enclosing f c hc⟩
      · obtain ⟨f', hf, hscope⟩ := functionScopes_of_closures outer enclosing fs c hc
        exact ⟨f', List.mem_cons_of_mem _ hf, hscope⟩
end

end Midend.Linear
