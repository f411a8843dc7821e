import Midend.Text.Binary
import Midend.Text.Decimal
/-!
# Faults of the heap
-/

namespace Midend

inductive HeapFault where
  /-- Every reference number up to `max` is in use. -/
  | numbersExhausted (max : UInt32)
  /-- An object of `requested` words does not fit into what is left. -/
  | noRoom (requested available : Nat)
  | unknownReference (reference : UInt32)
  | noField (reference : UInt32) (offset fields : Nat)
  /-- The bitmap marks a field that the object does not have. -/
  | bitmapTooWide (bitmap : UInt32) (fields : Nat)
  /-- The base scope stays. -/
  | onlyBaseScope
deriving DecidableEq, Repr, Inhabited

namespace HeapFault

def message : HeapFault → String
  | numbersExhausted max =>
    "maximum references allocated (" ++ Decimal.natural max.toNat ++ ")"
  | noRoom requested available =>
    "out of memory: " ++ Decimal.natural requested ++ " words requested, " ++
      Decimal.natural available ++ " available after compaction"
  | unknownReference reference => "invalid reference: " ++ Decimal.natural reference.toNat
  | noField reference offset fields =>
    "field " ++ Decimal.natural offset ++ " out of bounds for reference " ++
      Decimal.natural reference.toNat ++ " with " ++ Decimal.natural fields ++ " fields"
  | bitmapTooWide bitmap fields =>
    "reference bitmap " ++ Binary.render bitmap ++ " marks fields beyond the " ++
      Decimal.natural fields ++ " allocated"
  | onlyBaseScope => "scope stack underflow: the base scope cannot be popped"

end HeapFault

end Midend
