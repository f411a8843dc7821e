import Midend.Json.Record
import Midend.Text.Blank
/-!
# Options

How hard a program is optimized and how much memory its heap has: the defaults, and what data or a
setting of the environment puts in their place.
-/

namespace Midend

inductive Level where
  | none
  /-- Constants only. -/
  | basic
  /-- Constants, then copies. -/
  | aggressive
deriving DecidableEq, Repr, Inhabited

namespace Level

def name : Level → String
  | none => "none"
  | basic => "basic"
  | aggressive => "aggressive"

def ofName? : String → Option Level
  | "none" => some none
  | "basic" => some basic
  | "aggressive" => some aggressive
  | _ => Option.none

/-- The level that a user asks for, by name or by number.  Blanks around it and the case of its
letters do not matter; no letter outside ASCII has one of these letters as its lower case. -/
def parse? (text : String) : Option Level :=
  match (Blank.trim text).map Char.toLower with
  | "none" | "0" => some none
  | "basic" | "1" => some basic
  | "aggressive" | "full" | "2" => some aggressive
  | _ => Option.none

def decode (j : Json) : Option Level := (j.choice? .strict).bind ofName?

end Level

structure Options where
  level : Level := .aggressive
  /-- The greatest number of rounds over the whole program. -/
  maxRounds : Nat := 64
deriving DecidableEq, Repr, Inhabited

namespace Options

def standard : Options := {}

def withLevel (options : Options) (level : Level) : Options := { options with level }

/-- The default options, with the level that a setting asks for if it names one. -/
def ofSetting (setting : Option String) : Options :=
  match setting.bind Level.parse? with
  | some level => standard.withLevel level
  | none => standard

def decode (j : Json) : Option Options := do
  let r ← j.record? ["opt_level", "max_rounds"]
  return ⟨← r.withDefault "opt_level" standard.level Level.decode,
    ← r.withDefault "max_rounds" standard.maxRounds (Json.below? UInt64.size)⟩

def encode (options : Options) : Json :=
  .obj [("opt_level", .str options.level.name), ("max_rounds", .ofNat options.maxRounds)]

end Options

structure HeapLimits where
  /-- The number of words. -/
  capacity : Nat := 65536
  /-- The greatest reference number that is ever handed out. -/
  maxRef : UInt32 := 2147483647
deriving DecidableEq, Repr, Inhabited

namespace HeapLimits

def standard : HeapLimits := {}

def withCapacity (capacity : Nat) : HeapLimits := { standard with capacity }

/-- The default limits, with the number of words that a setting gives if it is a positive number. -/
def ofSetting (setting : Option String) : HeapLimits :=
  match setting.bind fun text => Decimal.below? UInt64.size (Blank.trim text) with
  | some (n + 1) => withCapacity (n + 1)
  | _ => standard

def decode (j : Json) : Option HeapLimits := do
  let r ← j.record? ["capacity_words", "max_references"]
  return ⟨← r.withDefault "capacity_words" standard.capacity (Json.below? UInt64.size),
    ← r.withDefault "max_references" standard.maxRef Json.word?⟩

def encode (limits : HeapLimits) : Json :=
  .obj [("capacity_words", .ofNat limits.capacity), ("max_references", .ofWord limits.maxRef)]

end HeapLimits

end Midend
