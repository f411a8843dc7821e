import Midend.Heap.Basic
/-!
# Looking at a heap as a whole
-/

namespace Midend.Heap

structure Usage where
  capacity : Nat
  used : Nat
  liveObjects : Nat
  deadObjects : Nat
  reclaimable : Nat
  recycledReferences : Nat
  compactions : Nat
  scopeDepth : Nat
deriving DecidableEq, Repr, Inhabited

def usage (h : Heap) : Usage :=
  let dead := h.table.countP fun entry => h.isDeadAt entry.2
  { capacity := h.capacity
    used := h.top - start
    liveObjects := h.table.length - dead
    deadObjects := dead
    reclaimable := h.reclaimable
    recycledReferences := h.free.length
    compactions := h.compactions
    scopeDepth := h.outer.length + 1 }

/-- The ranges of the objects, each from its address to the first address behind it. -/
def ranges (h : Heap) : List (Nat × Nat) :=
  h.table.map fun entry => (entry.2, entry.2 + h.footprintAt entry.2)

def disjoint : List (Nat × Nat) → Bool
  | a :: b :: rest => a.2 ≤ b.1 && disjoint (b :: rest)
  | _ => true

/-- Whether every object lies in the allocated part of the memory and no two overlap. -/
def check (h : Heap) : Bool :=
  h.ranges.all (fun range => start ≤ range.1 && range.2 ≤ h.top) &&
    disjoint (h.ranges.mergeSort fun a b => a.1 < b.1 || (a.1 = b.1 && a.2 ≤ b.2))

end Midend.Heap
