/-!
# Facts

What an analysis knows about one variable: nothing yet (`undef`), a single fact that holds on every
path (`known`), or that no fact holds on every path (`nac`).
-/

namespace Midend

inductive Fact (α : Type) where
  | undef
  | known (a : α)
  /-- No fact holds on every path. -/
  | nac
deriving DecidableEq, Repr, Inhabited

namespace Fact

variable {α : Type} [DecidableEq α]

def merge : Fact α → Fact α → Fact α
  | undef, b => b
  | a, undef => a
  | known a, known b => if a = b then known a else nac
  | nac, _ | _, nac => nac

/-- What holds where two environments meet; about a variable that one of them does not mention,
nothing does. -/
def meet : Option (Fact α) → Option (Fact α) → Fact α
  | some a, some b => a.merge b
  | _, _ => nac

end Fact

end Midend
