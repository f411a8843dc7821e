import Midend.Heap.Fault
import Midend.Options
/-!
# Heap

Objects lie one after another in an array of words.  A running program knows them by reference
numbers only; the table maps each number to the address of its object, so an object can move.

An object starts with four words: its reference count, its number of fields, its bitmap and its
size.  Its fields follow.  Bit `i` of the bitmap says that field `i` holds a reference.  The
reference 0 is the reference to nothing.  Address 0 is not used.
-/

namespace Midend

abbrev Ref := UInt32

structure Heap where
  limits : HeapLimits
  memory : Array UInt32
  /-- The first address behind all objects. -/
  top : Nat
  /-- The references in use with the addresses of their objects, by age. -/
  table : List (Ref × Nat)
  /-- The recycled references, the next one to hand out first. -/
  free : List Ref
  /-- The greatest reference handed out so far. -/
  last : Ref
  /-- The roots of the innermost scope. -/
  roots : List Ref
  /-- The roots of the scopes around it, from the inside out. -/
  outer : List (List Ref)
  /-- The words of the objects whose count is zero. -/
  reclaimable : Nat
  compactions : Nat
deriving Repr, Inhabited

namespace Heap

def headerWords : Nat := 4

def start : Nat := 1

def bitmapBits : Nat := 32

def new (limits : HeapLimits) : Heap where
  limits := limits
  memory := Array.replicate limits.capacity 0
  top := start
  table := []
  free := []
  last := 0
  roots := []
  outer := []
  reclaimable := 0
  compactions := 0

def capacity (h : Heap) : Nat := h.memory.size

def word (h : Heap) (addr : Nat) : UInt32 := h.memory.getD addr 0

def setWord (h : Heap) (addr : Nat) (w : UInt32) : Heap :=
  { h with memory := h.memory.setIfInBounds addr w }

/-- The memory with some words from an address on. -/
def writeWords (memory : Array UInt32) (addr : Nat) : List UInt32 → Array UInt32
  | [] => memory
  | w :: ws => writeWords (memory.setIfInBounds addr w) (addr + 1) ws

def readWords (h : Heap) (addr count : Nat) : List UInt32 :=
  (List.range count).map fun i => h.word (addr + i)

def countAt (h : Heap) (addr : Nat) : UInt32 := h.word addr

def fieldsAt (h : Heap) (addr : Nat) : Nat := (h.word (addr + 1)).toNat

def bitmapAt (h : Heap) (addr : Nat) : UInt32 := h.word (addr + 2)

def sizeAt (h : Heap) (addr : Nat) : Nat := (h.word (addr + 3)).toNat

def footprintAt (h : Heap) (addr : Nat) : Nat := headerWords + h.sizeAt addr

def address (h : Heap) (r : Ref) : Except HeapFault Nat :=
  match h.table.lookup r with
  | some addr => .ok addr
  | none => .error (.unknownReference r)

def count (h : Heap) (r : Ref) : Except HeapFault UInt32 := h.countAt <$> h.address r

def addressOfField (h : Heap) (r : Ref) (offset : Nat) : Except HeapFault Nat := do
  let addr ← h.address r
  if h.fieldsAt addr ≤ offset then throw (.noField r offset (h.fieldsAt addr))
  return addr + headerWords + offset

def read (h : Heap) (r : Ref) (offset : Nat) : Except HeapFault UInt32 :=
  h.word <$> h.addressOfField r offset

def isTraced (bitmap : UInt32) (offset : Nat) : Bool :=
  offset < bitmapBits && bitmap.toNat.testBit offset

def tracesField (h : Heap) (r : Ref) (offset : Nat) : Except HeapFault Bool := do
  return isTraced (h.bitmapAt (← h.address r)) offset

def referencesAt (h : Heap) (addr : Nat) : List Ref :=
  ((List.range (min (h.sizeAt addr) bitmapBits)).filter (isTraced (h.bitmapAt addr))).map
    (fun i => h.word (addr + headerWords + i)) |>.filter (· ≠ 0)

def references (h : Heap) (r : Ref) : Except HeapFault (List Ref) := h.referencesAt <$> h.address r

def hasRoom (h : Heap) (words : Nat) : Bool := h.top + words ≤ h.capacity

/-- Whether the object at an address is waiting to be reclaimed. -/
def isDeadAt (h : Heap) (addr : Nat) : Bool := h.countAt addr = 0

/-- An activity on a heap that may fail; what it did before it failed stays. -/
abbrev Action (α : Type) := ExceptT HeapFault (StateM Heap) α

def inspect {α : Type} (look : Heap → Except HeapFault α) : Action α :=
  ExceptT.mk do return look (← get)

end Heap

end Midend
