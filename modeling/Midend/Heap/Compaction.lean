import Midend.Heap.Basic
/-!
# Compaction

Sliding the objects whose count is not zero down to the start of the memory, in the order of the
table.  The references of the others are recycled.
-/

namespace Midend.Heap

structure Moved where
  memory : Array UInt32
  /-- The moved references with their new addresses, latest first. -/
  table : List (Ref × Nat)
  /-- The first address behind the moved objects. -/
  top : Nat

def move (h : Heap) (done : Moved) (entry : Ref × Nat) : Moved where
  memory := writeWords done.memory done.top (h.readWords entry.2 (h.footprintAt entry.2))
  table := (entry.1, done.top) :: done.table
  top := done.top + h.footprintAt entry.2

def kept (h : Heap) : List (Ref × Nat) := h.table.filter fun entry => !h.isDeadAt entry.2

def dropped (h : Heap) : List Ref := (h.table.filter fun entry => h.isDeadAt entry.2).map (·.1)

def compacted (h : Heap) : Heap :=
  let done := h.kept.foldl h.move ⟨Array.replicate h.capacity 0, [], start⟩
  let stays (r : Ref) : Bool := done.table.any fun entry => entry.1 = r
  { h with
    memory := done.memory
    table := done.table.reverse
    top := done.top
    free := h.dropped.reverse ++ h.free
    roots := h.roots.filter stays
    outer := h.outer.map fun scope => scope.filter stays
    reclaimable := 0
    compactions := h.compactions + 1 }

/-- Compacts the heap; gives the first address behind all objects. -/
def compact : Action Nat := do
  modify compacted
  return (← get).top

end Midend.Heap
