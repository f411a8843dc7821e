import Midend.Json.Record
/-!
# Literals
-/

namespace Midend

/-- A literal of the source language; integers are unbounded. -/
inductive Literal where
  | num (n : Int)
  | bool (b : Bool)
  | none
deriving DecidableEq, Repr, Inhabited

namespace Literal

def display : Literal → String
  | num n => Decimal.render n
  | bool true => "True"
  | bool false => "False"
  | none => "None"

def encode : Literal → Json
  | num n => .obj [("tag", .str "num"), ("value", .str (Decimal.render n))]
  | bool b => .obj [("tag", .str "bool"), ("value", .bool b)]
  | none => .obj [("tag", .str "none")]

/-- Reads the literal of a tag from its value, which only `none` can do without. -/
def ofTag? (tag : String) (value : Option Json) : Option Literal :=
  match tag, value with
  | "num", some (.str text) => (Decimal.parse? text).map num
  | "bool", some (.bool b) => some (bool b)
  | "none", Option.none | "none", some .null => some none
  | _, _ => Option.none

def tags : List String := ["num", "bool", "none"]

/-- Reads a literal.  In an object its tag is written as a choice.  An array has both the tag and
the value. -/
def decode (spelling : Json.Spelling) : Json → Option Literal
  | .obj fields => do
    let r := Json.valuesOf fields
    ofTag? (← r.required "tag" (Json.choice? spelling))
      (← r.withDefault "value" Option.none fun value => some (some value))
  | .arr [tag, value] => do ofTag? (← tag.tag? tags spelling) (some value)
  | _ => Option.none

end Literal

end Midend
