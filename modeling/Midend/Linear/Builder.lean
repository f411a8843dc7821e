import Midend.Catalog
import Midend.Linear.Code
import Midend.Name.Supply
/-!
# Building code

What building code keeps track of: the catalog, the fresh names, and the classes that turn up in the
middle of a body.  When building fails, the catalog keeps what was put into it.
-/

namespace Midend.Linear

open Midend.Flow (Label Value)

structure State where
  catalog : Catalog
  names : NameSupply
  /-- The classes that turned up in the middle of a body, in order. -/
  generated : List Flow.Class

abbrev Build (α : Type) := ExceptT Fault (StateM State) α

namespace Build

def fresh (base : String) : Build String :=
  modifyGet fun s => ((s.names.fresh base).1, { s with names := (s.names.fresh base).2 })

def ask {α : Type} (look : Catalog → Except Fault α) : Build α :=
  ExceptT.mk do return look (← get).catalog

def update (change : Catalog → Catalog) : Build Unit :=
  modify fun s => { s with catalog := change s.catalog }

def keep (c : Flow.Class) : Build Unit := modify fun s => { s with generated := s.generated ++ [c] }

def classOf (use : ObjectUse) (ty : Ty) (loc : Location) : Build String :=
  match ty with
  | .object name => return name
  | found => throw (.objectNeeded use found loc)

/-- Code that ends in an expression, made to end in a value: an expression that is more than a value
goes into a temporary. -/
def toValue (ty : Ty) (code : Code) (e : Flow.Expr) : Build (Code × Value) :=
  match e with
  | .value v => return (code, v)
  | e => do
    let name ← fresh "valname"
    return (code ++ [.declare name ty, .emit (.assign name e)], .id name)

/-- Enters a class into the catalog.  The first layout of a class stays. -/
def enter (name : String) (fields : List Tree.Decl) (methods : List (String × Nat)) :
    Build Unit :=
  update fun c =>
    (if c.hasLayout name then c else c.addLayout name fields).addMethods name methods

/-- The code that makes an object: memory, dispatch slot, initial values and constructor. -/
def make (className : String) (ty : Ty) : Build (Code × Value) := do
  let slot ← ask (·.startOf className)
  let bitmap ← ask (·.bitmapOf className)
  let layout ← ask (·.layoutOf className)
  let name ← fresh "newObj"
  let stores := layout.map fun (_, field) =>
    Item.emit (.store (.id name) field.offset (Value.ofLiteral field.initial))
  return (
    .declare name ty ::
    .emit (.assign name (.alloc (layout.length + 1) bitmap)) ::
    .emit (.store (.id name) 0 (.word (UInt32.ofNat slot))) ::
    stores ++
    [.emit (.expr (.call (methodName className initName) [.id name]))], .id name)

def checkedCall (receiver : Value) (ty : Ty) (method : String) (loc : Location) :
    Build (Code × Flow.Expr) := do
  let className ← classOf .iteration ty loc
  return ([Code.guardObject receiver loc], .call (methodName className method) [receiver])

/-- The code that leaves the current block by `s`; what follows belongs to a block that nothing goes
on to. -/
def leave (s : Flow.Stmt) : Build Code := do
  return [.emit s, .mark (← fresh "$unreachable")]

def closureClass (name : String) (params : List Parameter) (ret : Ty) (decls : List Flow.Decl)
    (body : Build Code) : Build Flow.Class := do
  let initLabel ← fresh "$startFun"
  let applyLabel ← fresh "$startFun"
  let code ← body
  return {
    name
    fields := []
    methods := [
      ⟨methodName name initName, [⟨selfName, .object name⟩], .none, [], Code.blocks initLabel []⟩,
      ⟨methodName name applyName, params, ret, code.temporaries ++ decls, code.blocks applyLabel⟩] }

def enterClosure (name : String) (params : List Parameter) : Build Unit :=
  enter name [] [(initName, 1), (applyName, params.length)]

end Build

end Midend.Linear
