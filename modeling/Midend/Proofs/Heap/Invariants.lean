import Midend.Proofs.Heap.Calls
/-!
# Invariants of any calls

Calls do a few things to a heap only: they change single counts, write fields, open and close
scopes, take numbers, place new objects and compact.  A property that each of these keeps in every
heap whose objects lie in order (`Invariant`) holds after any calls.
-/

namespace Midend.Heap

structure Invariant (P : Heap → Prop) : Prop where
  new : ∀ limits, P (new limits)
  changeCount : ∀ (r : Ref) (delta : Int) (h : Heap), Laid h → P h →
    P (run (changeCount r delta) h).2
  setField : ∀ (r : Ref) (addr offset : Nat) (value : UInt32) (h : Heap), Laid h →
    (r, addr) ∈ h.table → offset < h.sizeAt addr → P h →
      P (h.setWord (addr + headerWords + offset) value)
  scopes : ∀ (roots : List Ref) (outer : List (List Ref)) (h : Heap), P h →
    P { h with roots := roots, outer := outer }
  numbers : ∀ (free : List Ref) (last : Ref) (h : Heap), P h →
    P { h with free := free, last := last }
  place : ∀ (r : Ref) (fields : Nat) (bitmap : UInt32) (h : Heap), Laid h → r ∉ h.inUse →
    h.top + headerWords + fields ≤ h.capacity → fields < UInt32.size → P h →
      P (h.place r fields bitmap)
  compacted : ∀ h : Heap, Laid h → P h → P h.compacted

namespace Invariant

variable {P : Heap → Prop} {limits : HeapLimits} {h : Heap}

theorem keeps (hi : Invariant P) (r : Ref) (delta : Int) :
    Keeps (fun h => Laid h ∧ P h) (Heap.changeCount r delta) :=
  fun h hp => ⟨(onlyCounts_changeCount r delta h hp.1).laid, hi.changeCount r delta h hp.1 hp.2⟩

theorem closeScope (hi : Invariant P) (hl : Laid h) (hp : P h) : P (run closeScope h).2 := by
  rcases closeScope_cases h with ⟨-, hrun⟩ | ⟨scope, outer, -, hrun⟩
  · rw [hrun]
    exact hp
  · have hl' : Laid { h with roots := scope, outer := outer } :=
      hl.congr rfl rfl rfl (fun _ _ => rfl) fun _ _ => rfl
    rw [hrun]
    exact (keeps_letGoAll hi.keeps h.roots _ ⟨hl', hi.scopes scope outer h hp⟩).2

theorem hold (hi : Invariant P) (hl : Laid h) (hp : P h) (r : Ref) : P (run (hold r) h).2 := by
  rcases hold_cases hl r with ⟨-, hrun⟩ | ⟨-, -, hrun⟩ | ⟨-, -, hrun⟩
  · rw [hrun]
    exact hp
  · rw [hrun]
    exact hp
  · have hl' : Laid { h with roots := h.roots ++ [r] } :=
      hl.congr rfl rfl rfl (fun _ _ => rfl) fun _ _ => rfl
    rw [hrun]
    exact (keeps_addToCount (hi.keeps · 1) r 0 false _ ⟨hl', hi.scopes _ h.outer h hp⟩).2

theorem letGo (hi : Invariant P) (hl : Laid h) (hp : P h) (r : Ref) : P (run (letGo r) h).2 := by
  rcases letGo_cases hl r with ⟨-, hrun⟩ | ⟨-, -, hrun⟩ | ⟨-, hrun⟩
  · rw [hrun]
    exact hp
  · rw [hrun]
    exact hp
  · have hl' : Laid { h with roots := h.roots.filter (· ≠ r) } :=
      hl.congr rfl rfl rfl (fun _ _ => rfl) fun _ _ => rfl
    rw [hrun]
    exact (keeps_addToCount (hi.keeps · (-1)) r 0 true _ ⟨hl', hi.scopes _ h.outer h hp⟩).2

theorem write (hi : Invariant P) (hl : Laid h) (hp : P h) (r : Ref) (offset : Nat)
    (value : UInt32) : P (run (write r offset value) h).2 := by
  rcases write_cases hl r offset value with ⟨fault, hrun⟩ | ⟨addr, he, hoffset, -, hrun⟩
  · rw [hrun]
    exact hp
  · have hsize := hl.fieldsAt_lt he hoffset
    have hl' := hl.setWord he (writable_field h _ hsize) value
    rw [hrun]
    exact (keeps_moveCount hi.keeps r _ _ value _
      ⟨hl', hi.setField r addr offset value h hl he hsize hp⟩).2

theorem make (hi : Invariant P) (hl : Laid h) (hn : Numbered h []) (hp : P h) (fields : Nat)
    (bitmap : UInt32) : P (run (make fields bitmap) h).2 := by
  have hsame : ∀ h', h' = h ∨ h' = h.compacted → Laid h' ∧ P h' := by
    rintro h' (rfl | rfl)
    · exact ⟨hl, hp⟩
    · exact ⟨hl.compacted, hi.compacted h hl hp⟩
  rcases make_cases hl hn fields bitmap with
    ⟨fault, h', hrun, hcase⟩ | ⟨h', r, free, last, hcase, hn', hfits, hfields, hrun⟩
  · rw [hrun]
    exact (hsame h' hcase).2
  · obtain ⟨hl', hp'⟩ := hsame h' hcase
    have hnumbered : Laid { h' with free := free, last := last } :=
      hl'.congr rfl rfl rfl (fun _ _ => rfl) fun _ _ => rfl
    rw [hrun]
    exact hi.place r fields bitmap _ hnumbered hn'.not_mem_inUse hfits hfields
      (hi.numbers free last h' hp')

theorem perform (hi : Invariant P) (hl : Laid h) (hn : Numbered h []) (hp : P h) (call : Call) :
    P (h.perform call) := by
  cases call with
  | addToCount root target delta structural =>
      exact (keeps_addToCount (hi.keeps · delta) root target structural h ⟨hl, hp⟩).2
  | reset => exact hi.new h.limits
  | request q =>
      cases q with
      | make fields bitmap => exact hi.make hl hn hp fields bitmap
      | makePlain fields => exact hi.make hl hn hp fields 0
      | read r offset => exact hp
      | write r offset value => exact hi.write hl hp r offset value
      | openScope => exact hi.scopes [] (h.roots :: h.outer) h hp
      | closeScope => exact hi.closeScope hl hp
      | compact => exact hi.compacted h hl hp
      | hold r => exact hi.hold hl hp r
      | letGo r => exact hi.letGo hl hp r

theorem performed (hi : Invariant P) (ho : Ordered limits h) (hp : P h) (calls : List Call) :
    P (h.performed calls) := by
  induction calls generalizing h with
  | nil => exact hp
  | cons call rest ih => exact ih (ho.perform call) (hi.perform ho.laid ho.numbered hp call)

theorem after_calls (hi : Invariant P) (limits : HeapLimits) (calls : List Call) :
    P ((Heap.new limits).performed calls) :=
  hi.performed (Ordered.new limits) (hi.new limits) calls

end Invariant

end Midend.Heap
