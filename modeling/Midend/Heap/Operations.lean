import Midend.Heap.Compaction
import Midend.Heap.Counting
/-!
# Operations of a running program

Making objects, reading and writing their fields, and the scopes that hold the references a running
program works with.
-/

namespace Midend.Heap

def reset : Action Unit := modify fun h => new h.limits

def marksBeyond (bitmap : UInt32) (fields : Nat) : Bool :=
  fields < bitmapBits && bitmap.toNat >>> fields ≠ 0

/-- Makes sure that `words` words fit, by a compaction if they do not.  Also compacts when more than
half of the memory is waiting to be reclaimed. -/
def reserve (words : Nat) : Action Unit := do
  let h ← get
  if !h.hasRoom words then
    let top ← compact
    let h ← get
    if !h.hasRoom words then throw (.noRoom words (h.capacity - top))
  else if h.capacity / 2 < h.reclaimable then
    let _ ← compact

/-- The next reference number: the one recycled last, or else a new one. -/
def newReference : Action Ref := do
  let h ← get
  match h.free with
  | r :: free =>
    set { h with free }
    return r
  | [] =>
    if h.limits.maxRef ≤ h.last then throw (.numbersExhausted h.limits.maxRef)
    set { h with last := h.last + 1 }
    return h.last + 1

/-- Puts a new object of the reference `r` behind all others.  Its count is 1, held by the innermost
scope, and its fields are 0. -/
def place (h : Heap) (r : Ref) (fields : Nat) (bitmap : UInt32) : Heap :=
  let size := UInt32.ofNat fields
  { h with
    memory := writeWords h.memory h.top ([1, size, bitmap, size] ++ List.replicate fields 0)
    top := h.top + headerWords + fields
    table := h.table ++ [(r, h.top)]
    roots := if h.roots.contains r then h.roots else h.roots ++ [r] }

/-- The largest number that a request for words can report. -/
def maxRequest : Nat := UInt64.size - 1

def make (fields : Nat) (bitmap : UInt32) : Action Ref := do
  if marksBeyond bitmap fields then throw (.bitmapTooWide bitmap fields)
  let h ← get
  if UInt32.size ≤ fields then
    throw (.noRoom (min (fields + headerWords) maxRequest) (h.capacity - h.top))
  reserve (headerWords + fields)
  let r ← newReference
  modify fun h => h.place r fields bitmap
  return r

def makePlain (fields : Nat) : Action Ref := make fields 0

/-- Writes a field.  In a field that holds references, one count moves from the old content to the
new one. -/
def write (r : Ref) (offset : Nat) (value : UInt32) : Action Unit := do
  let addr ← inspect (·.addressOfField r offset)
  let traced ← inspect (·.tracesField r offset)
  if traced && value ≠ 0 then
    let _ ← inspect (·.address value)
  let old := (← get).word addr
  modify fun h => h.setWord addr value
  if traced && old ≠ value then
    addToCount value r 1 true
    addToCount old r (-1) true

def openScope : Action Unit := modify fun h => { h with roots := [], outer := h.roots :: h.outer }

def letGoAll : List Ref → Action Unit
  | [] => return ()
  | r :: rs => do
    addToCount r 0 (-1) true
    letGoAll rs

def closeScope : Action Unit := do
  let h ← get
  match h.outer with
  | [] => throw .onlyBaseScope
  | scope :: outer =>
    set { h with roots := scope, outer }
    letGoAll h.roots

/-- Makes an object a root of the innermost scope; it counts once in a scope. -/
def hold (r : Ref) : Action Unit := do
  if r = 0 then return ()
  let _ ← inspect (·.address r)
  let h ← get
  if !h.roots.contains r then
    set { h with roots := h.roots ++ [r] }
    addToCount r 0 1 false

/-- Takes one count from an object, and the object from the roots of the innermost scope. -/
def letGo (r : Ref) : Action Unit := do
  if r = 0 then return ()
  let _ ← inspect (·.address r)
  modify fun h => { h with roots := h.roots.filter (· ≠ r) }
  addToCount r 0 (-1) true

end Midend.Heap
