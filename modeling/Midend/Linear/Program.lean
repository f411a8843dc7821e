import Midend.Flow.Labels
import Midend.Linear.Body
/-!
# Flattening programs

The block program of a typed tree.  All classes are entered into the catalog before any body is
flattened, since bodies make objects of them.
-/

namespace Midend.Linear

open Build

def decl (v : Tree.Decl) : Flow.Decl := ⟨v.name, v.ty, Flow.Value.ofLiteral v.value⟩

def closure (c : Closure) : Build Flow.Class :=
  closureClass c.name c.params c.ret (c.decls.map decl) (stmts none c.body)

/-- Enters the classes of functions nested in a method into the catalog, then flattens them. -/
def generate (closures : List Closure) : Build Unit := do
  closures.forM fun c => enterClosure c.name c.params
  closures.forM fun c => do keep (← closure c)

def recordPaths (enclosing : List String) (f : Tree.Function) : Build Unit :=
  update fun c => (Closure.paths enclosing f).foldl (fun c (path, name) => c.setClosure path name) c

/-- The code that a method starts with for the functions nested in it: each name is bound to an
object of the class that stands for the function. -/
def prologue (enclosing : List String) : List Tree.Function → Build Code
  | [] => return []
  | f :: fs => do
    recordPaths enclosing f
    generate (Closure.ofFunction enclosing f)
    let c ← stmt none (Closure.construction enclosing f)
    return c ++ (← prologue enclosing fs)

def method (className : String) (f : Tree.Function) : Build Flow.Method := do
  let label ← fresh "$startFun"
  let enclosing := [className, f.name]
  let start ← prologue enclosing f.children
  let code := start ++ (← stmts none f.body)
  let bindings := f.children.map (Closure.binding enclosing)
  return {
    name := methodName className f.name
    params := f.params
    ret := f.ret
    decls := code.temporaries ++ (bindings ++ f.decls).map decl
    body := code.blocks label }

def classDecl (c : Tree.Class) : Build Flow.Class := do
  return ⟨c.name, c.fields.map decl, ← c.methods.mapM (method c.name)⟩

def enterClass (c : Tree.Class) : Build Unit :=
  enter c.name c.fields (c.methods.map fun m => (m.name, m.params.length))

def program (p : Tree.Program) : Build Flow.Program := do
  let label ← fresh "$startProg"
  p.functions.forM (recordPaths [])
  let closures := Closure.ofFunctions [] p.functions
  closures.forM fun c => enterClosure c.name c.params
  p.classes.forM enterClass
  let closureClasses ← closures.mapM closure
  let classes ← p.classes.mapM classDecl
  let code ← stmts none (p.functions.map (Closure.construction []) ++ p.stmts)
  let bindings := p.functions.map (Closure.binding [])
  update fun c => (p.decls.map (·.name) ++ p.functions.map (·.name)).foldl Catalog.addGlobal c
  return {
    decls := code.temporaries ++ (bindings ++ p.decls).map decl
    classes := closureClasses ++ classes ++ (← get).generated
    body := code.blocks label }

/-- The block program of a typed tree, with its labels checked, and the catalog after it. -/
def flatten (catalog : Catalog) (p : Tree.Program) : Except Fault Flow.Program × Catalog :=
  let (result, state) := (program p).run.run ⟨catalog, .empty, []⟩
  (do
    let flow ← result
    flow.checkLabels
    return flow, state.catalog)

end Midend.Linear
