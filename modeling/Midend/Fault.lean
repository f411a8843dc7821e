import Midend.Location
import Midend.Ty
/-!
# Faults of a compilation

Every fault means that the typed tree, the catalog or a block program disagrees with itself.  A
fault is kept as its cause; `Fault.message` gives its text.
-/

namespace Midend

inductive ObjectUse where
  | fieldLookup | fieldAssignment | methodCall | iteration
deriving DecidableEq, Repr, Inhabited

namespace ObjectUse

def describe : ObjectUse → String
  | fieldLookup => "field lookup"
  | fieldAssignment => "field assignment"
  | methodCall => "method call"
  | iteration => "iteration"

end ObjectUse

inductive Fault where
  /-- An invariant that the message describes does not hold. -/
  | internal (message : String)
  /-- A class is in the dispatch table without the method of this outside name. -/
  | noDispatchSlot (method : String)
  /-- A lambda whose type is not a callable. -/
  | lambdaType (found : Ty)
  /-- A lambda whose type has another number of parameters. -/
  | lambdaArity (params types : Nat)
  /-- A label is waiting for a visit, and no block has it. -/
  | unknownBlock (label : String)
  | missingClass (name : String)
  | missingField (className field : String)
  | objectNeeded (use : ObjectUse) (found : Ty) (loc : Location)
  | missingLabel (label scope : String)
  | repeatedLabel (label scope : String)
  /-- An operator that has no value on these literals; `left` is empty for a unary operator. -/
  | noValue (op left right : String)
deriving Repr, Inhabited

namespace Fault

def location? : Fault → Option Location
  | objectNeeded _ _ loc => some loc
  | _ => none

/-- What an internal fault says after its common beginning. -/
def internalMessage (detail : String) : String := "internal compiler error: " ++ detail

def message : Fault → String
  | internal detail => internalMessage detail
  | noDispatchSlot method => internalMessage ("no vtable slot for `" ++ method ++ "`")
  | lambdaType found =>
    internalMessage ("lambda typed as `" ++ found.display ++ "` instead of a callable")
  | lambdaArity params types =>
    internalMessage ("lambda takes " ++ Decimal.natural params ++
      " parameters but its type lists " ++ Decimal.natural types)
  | unknownBlock label => internalMessage ("worklist label `" ++ label ++ "` has no block")
  | missingClass name => "unknown class `" ++ name ++ "`"
  | missingField className field => "class `" ++ className ++ "` has no field `" ++ field ++ "`"
  | objectNeeded use found loc =>
    "expected an object in " ++ use.describe ++ ", found `" ++ found.display ++ "` at " ++
      loc.display
  | missingLabel label scope => "jump to undefined label `" ++ label ++ "` in " ++ scope
  | repeatedLabel label scope => "label `" ++ label ++ "` defined more than once in " ++ scope
  | noValue op left right => "cannot fold `" ++ left ++ " " ++ op ++ " " ++ right ++ "`"

end Fault

/-- Why an optimization gives no answer. -/
inductive Stop where
  | fault (cause : Fault)
  /-- The analysis had not come to rest when its fuel ran out. -/
  | outOfFuel
deriving Repr, Inhabited

end Midend
