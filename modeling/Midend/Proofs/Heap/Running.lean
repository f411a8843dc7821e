import Midend.Proofs.Heap.Writing
/-!
# Running an activity on a heap

An activity ends with an answer or a fault, and in either case with a heap.  A change of
one count is the activity that all the others are made of (`changeCount_spec`): it
succeeds on every reference in use and changes nothing but that count.
-/

namespace Midend.Heap

variable {α β : Type} {act : Action α} {next : α → Action β} {h h' : Heap} {a : α}
  {fault : HeapFault} {r : Ref}

def run (act : Action α) (h : Heap) : Except HeapFault α × Heap := StateT.run (ExceptT.run act) h

@[simp]
theorem run_pure (a : α) (h : Heap) : run (pure a) h = (.ok a, h) := rfl

@[simp]
theorem run_throw (fault : HeapFault) (h : Heap) :
    run (throw fault : Action α) h = (.error fault, h) := rfl

@[simp]
theorem run_get (h : Heap) : run get h = (.ok h, h) := rfl

@[simp]
theorem run_set (h h' : Heap) : run (set h') h = (.ok ⟨⟩, h') := rfl

@[simp]
theorem run_modify (f : Heap → Heap) (h : Heap) : run (modify f) h = (.ok ⟨⟩, f h) := rfl

@[simp]
theorem run_inspect (look : Heap → Except HeapFault α) (h : Heap) :
    run (inspect look) h = (look h, h) := rfl

theorem run_bind (act : Action α) (next : α → Action β) (h : Heap) :
    run (act >>= next) h = match run act h with
      | (.ok a, h') => run (next a) h'
      | (.error fault, h') => (.error fault, h') := by
  unfold run ExceptT.run StateT.run
  simp only [bind, ExceptT.bind, ExceptT.mk, StateT.bind]
  cases act h with
  | mk ended h' =>
      cases ended with
      | ok a => rfl
      | error fault => rfl

theorem run_bind_ok (hrun : run act h = (.ok a, h')) :
    run (act >>= next) h = run (next a) h' := by
  rw [run_bind, hrun]

theorem run_bind_error (hrun : run act h = (.error fault, h')) :
    run (act >>= next) h = (.error fault, h') := by
  rw [run_bind, hrun]

theorem run_inspect_ok {look : Heap → Except HeapFault α} (hlook : look h = .ok a) :
    run (inspect look >>= next) h = run (next a) h :=
  run_bind_ok (by rw [run_inspect, hlook])

theorem run_inspect_error {look : Heap → Except HeapFault α} (hlook : look h = .error fault) :
    run (inspect look >>= next) h = (.error fault, h) :=
  run_bind_error (by rw [run_inspect, hlook])

/-! ## Changing one count -/

structure Recounted (h h' : Heap) : Prop where
  table : h'.table = h.table
  free : h'.free = h.free
  last : h'.last = h.last
  limits : h'.limits = h.limits
  roots : h'.roots = h.roots
  outer : h'.outer = h.outer
  refsOf : ∀ x, h'.refsOf x = h.refsOf x

namespace Recounted

theorem refl (h : Heap) : Recounted h h := ⟨rfl, rfl, rfl, rfl, rfl, rfl, fun _ => rfl⟩

theorem trans {h'' : Heap} (hr : Recounted h h') (hr' : Recounted h' h'') : Recounted h h'' where
  table := hr'.table.trans hr.table
  free := hr'.free.trans hr.free
  last := hr'.last.trans hr.last
  limits := hr'.limits.trans hr.limits
  roots := hr'.roots.trans hr.roots
  outer := hr'.outer.trans hr.outer
  refsOf x := (hr'.refsOf x).trans (hr.refsOf x)

theorem inUse (hr : Recounted h h') : h'.inUse = h.inUse := by
  unfold Heap.inUse
  rw [hr.table]

end Recounted

def shifted (count : Nat) (delta : Int) : Nat := min (count + delta).toNat (2 ^ 32 - 1)

theorem toNat_shiftCount (count : UInt32) (delta : Int) :
    (shiftCount count delta).toNat = shifted count.toNat delta := by
  have hlt : min (count.toNat + delta).toNat (2 ^ 32 - 1) < UInt32.size := by
    have hsize : UInt32.size = 2 ^ 32 := rfl
    omega
  exact UInt32.toNat_ofNat_of_lt' hlt

theorem changeCount_spec (hl : Laid h) (hr : r ∈ h.inUse) (delta : Int) :
    ∃ h', run (changeCount r delta) h =
        (.ok (decide (h.countOf r ≠ 0 ∧ shifted (h.countOf r) delta = 0)), h') ∧
      Laid h' ∧ Recounted h h' ∧
      ∀ x, h'.countOf x = if x = r then shifted (h.countOf r) delta else h.countOf x := by
  obtain ⟨addr, hmem⟩ := mem_inUse.1 hr
  have hcount := hl.countOf_eq hmem
  have hnow := toNat_shiftCount (h.countAt addr) delta
  rw [← hcount] at hnow
  let h' : Heap := { h.setWord addr (shiftCount (h.countAt addr) delta) with
    reclaimable := reclaimableAfter h.reclaimable (h.footprintAt addr) (h.countAt addr)
      (shiftCount (h.countAt addr) delta) }
  refine ⟨h', ?_, ?_, ?_, ?_⟩
  · have hdied : decide (h.countAt addr ≠ 0 ∧ shiftCount (h.countAt addr) delta = 0) =
        decide (h.countOf r ≠ 0 ∧ shifted (h.countOf r) delta = 0) := by
      rw [decide_eq_decide, ← hnow, hcount, Ne, eq_zero_iff, eq_zero_iff]
    unfold changeCount
    rw [run_inspect_ok (hl.address_eq hmem), run_bind_ok (run_get h), run_bind_ok (run_set h _),
      run_pure, ← hdied]
  · exact (hl.setWord hmem (.inl rfl) _).congr rfl rfl rfl (fun _ _ => rfl) fun _ _ => rfl
  · exact ⟨rfl, rfl, rfl, rfl, rfl, rfl, fun x => hl.refsOf_setCount hmem _ x⟩
  · intro x
    rw [← hnow]
    exact hl.countOf_setCount hmem _ x

end Midend.Heap
