import Midend.Fault
import Midend.Name.Map
import Midend.Name.Derived
import Midend.Tree.Basic
/-!
# The catalog

What one compilation leaves for the next: the global variables, the layouts of the classes, the
classes that stand for functions, and the dispatch table, in which the methods of a class lie side
by side.
-/

namespace Midend

/-- Where a field lies in an object and what it holds at first. -/
structure Field where
  /-- Offset 0 is the dispatch slot.  The offset is a word of 32 bits; as a number it stands for
  that word in classes of fewer than `2 ^ 32 - 1` fields. -/
  offset : Nat
  ty : Ty
  initial : Literal
deriving Repr, Inhabited

/-- The fields of a class in order; no name is there twice. -/
abbrev Layout := List (String × Field)

namespace Layout

/-- The layout with another entry for a field: in place of its old one, or behind all others. -/
def put (layout : Layout) (field : String) (entry : Field) : Layout :=
  match layout with
  | [] => [(field, entry)]
  | (name, old) :: rest =>
    if name = field then (name, entry) :: rest else (name, old) :: put rest field entry

/-- The layout of some declarations: the `i`-th has the offset `i`, counted from 1. -/
def ofFields (fields : List Tree.Decl) : Layout :=
  fields.zipIdx.foldl (fun layout (v, i) => layout.put v.name ⟨i + 1, v.ty, v.value⟩) []

/-- The bitmap with bit `i` set when the word at offset `i` is a reference.  Words from 32 on have
no bit. -/
def bitmap (layout : Layout) : UInt32 :=
  layout.foldl (fun bits (_, field) =>
    if field.ty.isReference && field.offset < 32 then bits ||| (1 <<< UInt32.ofNat field.offset)
    else bits) 0

end Layout

structure DispatchEntry where
  /-- The name of the method outside its class. -/
  name : String
  /-- The number of parameters, the receiver included. -/
  arity : Nat
deriving DecidableEq, Repr, Inhabited

structure Catalog where
  globals : NameSet
  layouts : NameMap Layout
  /-- The slot of the first method of each class. -/
  starts : NameMap Nat
  /-- The class that stands for the function of each dotted path. -/
  closures : NameMap String
  dispatch : List DispatchEntry
deriving Inhabited

namespace Catalog

def empty : Catalog := ⟨∅, ∅, ∅, ∅, []⟩

def addLayout (c : Catalog) (name : String) (fields : List Tree.Decl) : Catalog :=
  { c with layouts := c.layouts.insert name (Layout.ofFields fields) }

def hasLayout (c : Catalog) (name : String) : Bool := c.layouts.contains name

def layoutOf (c : Catalog) (className : String) : Except Fault Layout :=
  match c.layouts.get? className with
  | some layout => .ok layout
  | none => .error (.missingClass className)

def fieldOf (c : Catalog) (className field : String) : Except Fault Field := do
  match (← c.layoutOf className).lookup field with
  | some entry => return entry
  | none => throw (.missingField className field)

def bitmapOf (c : Catalog) (className : String) : Except Fault UInt32 :=
  Layout.bitmap <$> c.layoutOf className

/-- The entries of the methods of a class; its constructor has none. -/
def entriesOf (className : String) (methods : List (String × Nat)) : List DispatchEntry :=
  (methods.filter fun m => m.1 ≠ initName).map fun m => ⟨methodName className m.1, m.2⟩

/-- The catalog with the methods of a class, given by name and number of parameters.  A class that
is there already keeps the entries it has. -/
def addMethods (c : Catalog) (className : String) (methods : List (String × Nat)) : Catalog :=
  if c.starts.contains className then c
  else
    { c with
      starts := c.starts.insert className c.dispatch.length
      dispatch := c.dispatch ++ entriesOf className methods }

def startOf (c : Catalog) (className : String) : Except Fault Nat :=
  match c.starts.get? className with
  | some slot => .ok slot
  | none => .error (.missingClass className)

def dispatchSlot (c : Catalog) (className method : String) : Except Fault Nat := do
  let first ← c.startOf className
  match (c.dispatch.drop first).findIdx? fun entry => entry.name = methodName className method with
  | some i => return first + i
  | none => throw (.noDispatchSlot (methodName className method))

def addGlobal (c : Catalog) (name : String) : Catalog := { c with globals := c.globals.add name }

def isGlobal (c : Catalog) (name : String) : Bool := c.globals.contains name

def setClosure (c : Catalog) (path className : String) : Catalog :=
  { c with closures := c.closures.insert path className }

def closure? (c : Catalog) (path : String) : Option String := c.closures.get? path

end Catalog

end Midend
