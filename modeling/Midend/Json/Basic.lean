import Midend.Text.Decimal
import Midend.Text.Quoted
/-!
# JSON

JSON values with integers as their only numbers.  An object keeps its fields in order, also those
that are there twice.
-/

namespace Midend

inductive Json where
  | null
  | bool (b : Bool)
  | num (n : Int)
  | str (text : String)
  | arr (items : List Json)
  | obj (fields : List (String × Json))
deriving Repr, Inhabited

namespace Json

mutual
/-- How deeply the value is nested: 1 for a value without parts. -/
def depth : Json → Nat
  | arr items => depths items + 1
  | obj fields => fieldDepths fields + 1
  | _ => 1

def depths : List Json → Nat
  | [] => 0
  | j :: js => max j.depth (depths js)

def fieldDepths : List (String × Json) → Nat
  | [] => 0
  | (_, j) :: fs => max j.depth (fieldDepths fs)
end

mutual
/-- The value on one line without blanks. -/
def compress : Json → String
  | null => "null"
  | bool true => "true"
  | bool false => "false"
  | num n => Decimal.render n
  | str text => Quoted.quote text
  | arr items => "[" ++ ",".intercalate (compresses items) ++ "]"
  | obj fields => "\x7b" ++ ",".intercalate (compressFields fields) ++ "\x7d"

def compresses : List Json → List String
  | [] => []
  | j :: js => j.compress :: compresses js

def compressFields : List (String × Json) → List String
  | [] => []
  | (name, j) :: fs => (Quoted.quote name ++ ":" ++ j.compress) :: compressFields fs
end

def text? : Json → Option String
  | str text => some text
  | _ => none

def bool? : Json → Option Bool
  | bool b => some b
  | _ => none

def below? (bound : Nat) : Json → Option Nat
  | num n => if 0 ≤ n ∧ n < bound then some n.toNat else none
  | _ => none

def word? (j : Json) : Option UInt32 := (j.below? UInt32.size).map UInt32.ofNat

def items? : Json → Option (List Json)
  | arr items => some items
  | _ => none

def fields? : Json → Option (List (String × Json))
  | obj fields => some fields
  | _ => none

/-- Nothing for `null`, and what `read` makes of any other value. -/
def optional? {α : Type} (read : Json → Option α) : Json → Option (Option α)
  | null => some none
  | j => (read j).map some

def list? {α : Type} (read : Json → Option α) (j : Json) : Option (List α) := do
  (← j.items?).mapM read

def ofNat (n : Nat) : Json := num (Int.ofNat n)

def ofWord (w : UInt32) : Json := ofNat w.toNat

end Json

end Midend
