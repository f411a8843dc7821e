import Midend.Json.Basic
/-!
# Records

A record is written as an object, or as the array of its fields in order; then the last fields may
be missing, and none may follow.  A variant is a record that starts with its `tag`.  A field that no
declaration knows is passed over; one that is read must not be there twice.

Tags and choices come from a list of names.  How they may be written depends on the place: `strict`
for declarations, `loose` for what is inside a type, an expression or a statement.
-/

namespace Midend.Json

/-- How freely a tag or a choice may be written. -/
inductive Spelling where
  /-- A tag is a name; a choice is a name, or an object with `null` under that name only. -/
  | strict
  /-- A tag may also be a number, its place in the list of tags from 0 on, and the object of a
  choice may also hold an empty object. -/
  | loose
deriving DecidableEq, Repr, Inhabited

/-- The tag that a value stands for, where `tags` are the tags in their order. -/
def tag? (tags : List String) : Spelling → Json → Option String
  | _, str tag => some tag
  | .loose, num (.ofNat n) => tags[n]?
  | _, _ => none

/-- The choice that a value stands for. -/
def choice? : Spelling → Json → Option String
  | _, str name => some name
  | _, obj [(name, null)] => some name
  | .loose, obj [(name, obj [])] => some name
  | _, _ => none

/-- The values of the fields of a record, by name. -/
abbrev Record := String → List Json

def valuesOf (fields : List (String × Json)) : Record := fun name =>
  fields.filterMap fun field => if field.1 = name then some field.2 else none

namespace Record

def required {α : Type} (r : Record) (name : String) (read : Json → Option α) : Option α :=
  match r name with
  | [j] => read j
  | _ => none

def withDefault {α : Type} (r : Record) (name : String) (default : α) (read : Json → Option α) :
    Option α :=
  match r name with
  | [] => some default
  | [j] => read j
  | _ => none

end Record

def record? (names : List String) : Json → Option Record
  | obj fields => some (valuesOf fields)
  | arr items => if items.length ≤ names.length then some (valuesOf (names.zip items)) else none
  | _ => none

/-- The tag of a variant, and the value that holds its fields. -/
def variant? (tags : List String) (spelling : Spelling) : Json → Option (String × Json)
  | obj fields => do
    return (← (valuesOf fields).required "tag" (tag? tags spelling), obj fields)
  | arr (tag :: items) => do return (← tag.tag? tags spelling, arr items)
  | _ => none

end Midend.Json
