import Midend.Name.Map
import Midend.Text.Decimal
/-!
# Fresh names

A supply counts its requests for each base separately; the name it gives out is the base followed by
the count, from 1.
-/

namespace Midend

/-- How many names each base has been asked for. -/
structure NameSupply where
  /-- The last number used for each base. -/
  counts : NameMap Nat
deriving Inhabited

namespace NameSupply

def empty : NameSupply := ⟨∅⟩

def next (s : NameSupply) (base : String) : Nat := (s.counts.get? base).getD 0 + 1

def numbered (base : String) (n : Nat) : String := base ++ Decimal.natural n

def fresh (s : NameSupply) (base : String) : String × NameSupply :=
  (numbered base (s.next base), ⟨s.counts.insert base (s.next base)⟩)

end NameSupply

end Midend
