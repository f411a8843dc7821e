/-!
# Words in base two
-/

namespace Midend.Binary

/-- The digits of a word in base two, after `0b`. -/
def render (w : UInt32) : String := "0b" ++ String.ofList (Nat.toDigits 2 w.toNat)

end Midend.Binary
