import Midend.Heap.Basic
/-!
# Counting references

Adding to the reference count of an object.  When a count falls to zero, the object gives up the
references in its fields, and so on through the objects that die by it.
-/

namespace Midend.Heap

/-- A count after a change, kept in the range of a word. -/
def shiftCount (count : UInt32) (delta : Int) : UInt32 :=
  UInt32.ofNat (min (count.toNat + delta).toNat (UInt32.size - 1))

/-- The words to reclaim after a count went from `before` to `now`: a death adds the footprint of
the object, a revival takes it back. -/
def reclaimableAfter (reclaimable footprint : Nat) (before now : UInt32) : Nat :=
  if before ≠ 0 ∧ now = 0 then reclaimable + footprint
  else if before = 0 ∧ now ≠ 0 then reclaimable - footprint
  else reclaimable

/-- Changes the count of an object; whether the object died by it. -/
def changeCount (r : Ref) (delta : Int) : Action Bool := do
  let addr ← inspect (·.address r)
  let h ← get
  let before := h.countAt addr
  let now := shiftCount before delta
  set { h.setWord addr now with
    reclaimable := reclaimableAfter h.reclaimable (h.footprintAt addr) before now }
  return before ≠ 0 ∧ now = 0

structure Walk where
  /-- The dead objects whose fields are still to be given up. -/
  queue : List Ref
  /-- The objects that the walk does not enter again. -/
  explored : List Ref

/-- Gives up the references to some objects, each object once. -/
def giveUp (delta : Int) (walk : Walk) : List Ref → Action Walk
  | [] => return walk
  | child :: rest => do
    if walk.explored.contains child then giveUp delta walk rest
    else
      let died ← changeCount child delta
      giveUp delta
        { queue := if died then walk.queue ++ [child] else walk.queue
          explored := child :: walk.explored } rest

/-- Works off the queue.  An object enters the queue at most once, so the number of objects bounds
the turns. -/
def drain (delta : Int) : Nat → Walk → Action Unit
  | 0, _ => return ()
  | turns + 1, walk =>
    match walk.queue with
    | [] => return ()
    | r :: queue => do
      let references ← inspect (·.references r)
      drain delta turns (← giveUp delta { walk with queue } references)

def isDeadObject (target : Ref) (h : Heap) : Except HeapFault Bool :=
  if target = 0 then return false else return (← h.count target) = 0

/-- Adds `delta` to the count of `root`.  When `root` dies by a structural decrement, it gives up
the references in its fields.  `target` is the object that is being stored into: the walk does not
enter it, and nothing happens when it is dead. -/
def addToCount (root target : Ref) (delta : Int) (structural : Bool) : Action Unit := do
  if root = 0 then return ()
  if ← inspect (isDeadObject target) then return ()
  let died ← changeCount root delta
  if died && structural && delta < 0 then
    drain delta ((← get).table.length + 1) { queue := [root], explored := [root, target] }

end Midend.Heap
