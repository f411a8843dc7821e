import Midend.Fault
import Midend.Heap.Fault
/-!
# Diagnostics

What a front end shows of a fault: a stable code, a text and perhaps a position.
-/

namespace Midend

inductive FaultCode where
  /-- An invariant of flattening. -/
  | e100
  | e101 | e102 | e103
  | e200 | e201
  | e300
  | h001 | h002 | h003 | h004 | h005 | h006
deriving DecidableEq, Repr, Inhabited

namespace FaultCode

def all : List FaultCode :=
  [e100, e101, e102, e103, e200, e201, e300, h001, h002, h003, h004, h005, h006]

def text : FaultCode → String
  | e100 => "E100"
  | e101 => "E101"
  | e102 => "E102"
  | e103 => "E103"
  | e200 => "E200"
  | e201 => "E201"
  | e300 => "E300"
  | h001 => "H001"
  | h002 => "H002"
  | h003 => "H003"
  | h004 => "H004"
  | h005 => "H005"
  | h006 => "H006"

def ofText? (text : String) : Option FaultCode := all.find? fun code => code.text = text

def category : FaultCode → String
  | e100 | e101 | e102 | e103 => "lowering error"
  | e200 | e201 => "ir error"
  | e300 => "optimization error"
  | h001 | h002 | h003 | h004 | h005 | h006 => "heap error"

end FaultCode

namespace Fault

def code : Fault → FaultCode
  | internal _ | noDispatchSlot _ | lambdaType _ | lambdaArity _ _ | unknownBlock _ => .e100
  | missingClass _ => .e101
  | missingField _ _ => .e102
  | objectNeeded _ _ _ => .e103
  | missingLabel _ _ => .e200
  | repeatedLabel _ _ => .e201
  | noValue _ _ _ => .e300

end Fault

namespace HeapFault

def code : HeapFault → FaultCode
  | numbersExhausted _ => .h001
  | noRoom _ _ => .h002
  | unknownReference _ => .h003
  | noField _ _ _ => .h004
  | bitmapTooWide _ _ => .h005
  | onlyBaseScope => .h006

end HeapFault

structure Diagnostic where
  code : FaultCode
  message : String
  location : Option Location
deriving Repr, Inhabited

namespace Diagnostic

def ofFault (e : Fault) : Diagnostic := ⟨e.code, e.message, e.location?⟩

def ofHeapFault (e : HeapFault) : Diagnostic := ⟨e.code, e.message, none⟩

def display (d : Diagnostic) : String :=
  let place := match d.location with
    | some loc => " at " ++ loc.display
    | none => ""
  "error[" ++ d.code.text ++ "]" ++ place ++ ": " ++ d.message

/-- The JSON form of a report; a position that is not known is left out. -/
def encode (d : Diagnostic) : Json :=
  let place := match d.location with
    | some loc => [("location", loc.encode)]
    | none => []
  .obj ([("code", .str d.code.text), ("message", .str d.message)] ++ place)

/-- Reads a report.  As an array it has all three fields. -/
def decode (j : Json) : Option Diagnostic := do
  let r ← j.record? ["code", "message", "location"]
  let location ← match j with
    | .arr _ => r.required "location" (Json.optional? Location.decode)
    | _ => r.withDefault "location" none (Json.optional? Location.decode)
  return ⟨← r.required "code" fun c => (c.choice? .strict).bind FaultCode.ofText?,
    ← r.required "message" Json.text?, location⟩

end Diagnostic

end Midend
