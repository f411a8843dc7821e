import Midend.Json.Record
/-!
# Types

The resolved types of the source language, and their display.
-/

namespace Midend

inductive Ty where
  | int
  | bool
  | none
  | object (className : String)
  | callable (params : List Ty) (ret : Ty)
deriving Repr, Inhabited

namespace Ty

def className? : Ty → Option String
  | object name => some name
  | _ => Option.none

/-- Whether values of the type live on the heap and are traced. -/
def isReference : Ty → Bool
  | object _ | callable _ _ => true
  | _ => false

mutual
def display : Ty → String
  | int => "int"
  | bool => "bool"
  | none => "<None>"
  | object name => name
  | callable params ret =>
    "Callable[[" ++ ", ".intercalate (displays params) ++ "], " ++ ret.display ++ "]"

def displays : List Ty → List String
  | [] => []
  | t :: ts => t.display :: displays ts
end

mutual
def encode : Ty → Json
  | int => .obj [("tag", .str "int")]
  | bool => .obj [("tag", .str "bool")]
  | none => .obj [("tag", .str "none")]
  | object name => .obj [("tag", .str "class"), ("name", .str name)]
  | callable params ret =>
    .obj [("tag", .str "callable"), ("params", .arr (encodes params)), ("ret", ret.encode)]

def encodes : List Ty → List Json
  | [] => []
  | t :: ts => t.encode :: encodes ts
end

def tags : List String := ["int", "bool", "none", "class", "callable"]

/-- Reads a type nested at most to the given depth.  The types inside it are spelled loosely. -/
def decodeTo : Nat → Json.Spelling → Json → Option Ty
  | 0, _, _ => Option.none
  | depth + 1, spelling, j => do
    let (tag, rest) ← j.variant? tags spelling
    match tag with
    | "int" => (rest.record? []).map fun _ => int
    | "bool" => (rest.record? []).map fun _ => bool
    | "none" => (rest.record? []).map fun _ => none
    | "class" =>
      let r ← rest.record? ["name"]
      return object (← r.required "name" Json.text?)
    | "callable" =>
      let r ← rest.record? ["params", "ret"]
      return callable (← r.required "params" (Json.list? (decodeTo depth .loose)))
        (← r.required "ret" (decodeTo depth .loose))
    | _ => Option.none

def decode (spelling : Json.Spelling) (j : Json) : Option Ty := decodeTo j.depth spelling j

end Ty

structure Parameter where
  name : String
  ty : Ty
deriving Repr, Inhabited

namespace Parameter

def encode (p : Parameter) : Json := .obj [("name", .str p.name), ("ty", p.ty.encode)]

def decode (j : Json) : Option Parameter := do
  let r ← j.record? ["name", "ty"]
  return ⟨← r.required "name" Json.text?, ← r.required "ty" (Ty.decode .strict)⟩

end Parameter

end Midend
