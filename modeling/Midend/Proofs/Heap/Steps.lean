import Midend.Heap.Operations
import Midend.Proofs.Heap.Running
/-!
# What each operation does

An operation fails and leaves the heap as it is, or it changes the scopes or a field in
one way and goes on to the counts.  The lemmas say which, for every argument and without
asking what is alive; whoever proves that something is kept goes through their cases.
-/

namespace Midend.Heap

variable {h : Heap} {r : Ref} {addr offset : Nat} {value : UInt32}

theorem address_cases (hl : Laid h) (r : Ref) :
    (r ∈ h.inUse ∧ ∃ addr, (r, addr) ∈ h.table ∧ h.address r = .ok addr) ∨
      r ∉ h.inUse ∧ h.address r = .error (.unknownReference r) := by
  by_cases hr : r ∈ h.inUse
  · obtain ⟨addr, hmem⟩ := mem_inUse.1 hr
    exact .inl ⟨hr, addr, hmem, hl.address_eq hmem⟩
  · refine .inr ⟨hr, ?_⟩
    unfold address
    cases hlookup : h.table.lookup r with
    | none => rfl
    | some addr => exact absurd (mem_inUse.2 ⟨addr, mem_of_lookup_eq_some hlookup⟩) hr

theorem Laid.address_of_inUse (hl : Laid h) (hr : r ∈ h.inUse) :
    ∃ addr, h.address r = .ok addr := by
  obtain ⟨addr, hmem⟩ := mem_inUse.1 hr
  exact ⟨addr, hl.address_eq hmem⟩

theorem addressOfField_eq (hl : Laid h) (he : (r, addr) ∈ h.table) (offset : Nat) :
    h.addressOfField r offset =
      if h.fieldsAt addr ≤ offset then .error (.noField r offset (h.fieldsAt addr))
      else .ok (addr + headerWords + offset) := by
  unfold addressOfField
  rw [hl.address_eq he]
  rfl

theorem tracesField_eq (hl : Laid h) (he : (r, addr) ∈ h.table) :
    h.tracesField r offset = .ok (isTraced (h.bitmapAt addr) offset) := by
  unfold tracesField
  rw [hl.address_eq he]
  rfl

/-! ## Scopes -/

theorem closeScope_cases (h : Heap) :
    h.outer = [] ∧ run closeScope h = (.error .onlyBaseScope, h) ∨
      ∃ scope outer, h.outer = scope :: outer ∧
        run closeScope h = run (letGoAll h.roots) { h with roots := scope, outer := outer } := by
  unfold closeScope
  rw [run_bind_ok (run_get h)]
  cases houter : h.outer with
  | nil => exact .inl ⟨rfl, rfl⟩
  | cons scope outer => exact .inr ⟨scope, outer, rfl, run_bind_ok (run_set h _)⟩

theorem hold_cases (hl : Laid h) (r : Ref) :
    (r = 0 ∨ r ∈ h.roots) ∧ run (hold r) h = (.ok (), h) ∨
      r ≠ 0 ∧ r ∉ h.inUse ∧ run (hold r) h = (.error (.unknownReference r), h) ∨
        r ∈ h.inUse ∧ r ∉ h.roots ∧
          run (hold r) h = run (addToCount r 0 1 false) { h with roots := h.roots ++ [r] } := by
  unfold hold
  by_cases hzero : r = 0
  · rw [if_pos hzero]
    exact .inl ⟨.inl hzero, rfl⟩
  rw [if_neg hzero]
  rcases address_cases hl r with ⟨hr, addr, -, haddr⟩ | ⟨hr, haddr⟩
  · rw [run_inspect_ok haddr, run_bind_ok (run_get h)]
    by_cases hrooted : r ∈ h.roots
    · rw [if_neg (by simp [hrooted])]
      exact .inl ⟨.inr hrooted, rfl⟩
    · rw [if_pos (by simp [hrooted]), run_bind_ok (run_set h _)]
      exact .inr (.inr ⟨hr, hrooted, rfl⟩)
  · rw [run_inspect_error haddr]
    exact .inr (.inl ⟨hzero, hr, rfl⟩)

theorem letGo_cases (hl : Laid h) (r : Ref) :
    r = 0 ∧ run (letGo r) h = (.ok (), h) ∨
      r ≠ 0 ∧ r ∉ h.inUse ∧ run (letGo r) h = (.error (.unknownReference r), h) ∨
        r ∈ h.inUse ∧ run (letGo r) h =
          run (addToCount r 0 (-1) true) { h with roots := h.roots.filter (· ≠ r) } := by
  unfold letGo
  by_cases hzero : r = 0
  · rw [if_pos hzero]
    exact .inl ⟨hzero, rfl⟩
  rw [if_neg hzero]
  rcases address_cases hl r with ⟨hr, addr, -, haddr⟩ | ⟨hr, haddr⟩
  · rw [run_inspect_ok haddr, run_bind_ok (run_modify _ h)]
    exact .inr (.inr ⟨hr, rfl⟩)
  · rw [run_inspect_error haddr]
    exact .inr (.inl ⟨hzero, hr, rfl⟩)

/-! ## Fields -/

/-- The part of a write behind the write to the memory. -/
def moveCount (r : Ref) (traced : Bool) (old value : UInt32) : Action Unit := do
  if traced && old ≠ value then
    addToCount value r 1 true
    addToCount old r (-1) true

def Storable (h : Heap) (addr offset : Nat) (value : UInt32) : Prop :=
  isTraced (h.bitmapAt addr) offset = true → value = 0 ∨ value ∈ h.inUse

theorem run_write (hl : Laid h) (he : (r, addr) ∈ h.table) (hoffset : offset < h.fieldsAt addr)
    (hvalue : Storable h addr offset value) :
    run (write r offset value) h =
      run (moveCount r (isTraced (h.bitmapAt addr) offset)
        (h.word (addr + headerWords + offset)) value)
        (h.setWord (addr + headerWords + offset) value) := by
  have haddr := addressOfField_eq hl he offset
  rw [if_neg (Nat.not_le_of_lt hoffset)] at haddr
  unfold write
  rw [run_inspect_ok haddr, run_inspect_ok (tracesField_eq hl he)]
  dsimp only
  by_cases hchecked : (isTraced (h.bitmapAt addr) offset && decide (value ≠ 0)) = true
  · obtain ⟨htraced, hne⟩ := Bool.and_eq_true_iff.1 hchecked
    obtain ⟨addr', haddr'⟩ := hl.address_of_inUse ((hvalue htraced).resolve_left
      (of_decide_eq_true hne))
    rw [if_pos hchecked, run_inspect_ok haddr', run_bind_ok (run_get h),
      run_bind_ok (run_modify _ h)]
    rfl
  · rw [if_neg hchecked, run_bind_ok (run_get h), run_bind_ok (run_modify _ h)]
    rfl

theorem run_write_of_no_field {fault : HeapFault} (value : UInt32)
    (hfield : h.addressOfField r offset = .error fault) :
    run (write r offset value) h = (.error fault, h) := by
  unfold write
  rw [run_inspect_error hfield]

theorem run_write_of_not_storable (hl : Laid h) (he : (r, addr) ∈ h.table)
    (hoffset : offset < h.fieldsAt addr) (hvalue : ¬ Storable h addr offset value) :
    run (write r offset value) h = (.error (.unknownReference value), h) := by
  have haddr := addressOfField_eq hl he offset
  rw [if_neg (Nat.not_le_of_lt hoffset)] at haddr
  unfold Storable at hvalue
  simp only [Classical.not_imp, not_or] at hvalue
  obtain ⟨htraced, hne, hunused⟩ := hvalue
  have hunknown := ((address_cases hl value).resolve_left fun hused => hunused hused.1).2
  unfold write
  rw [run_inspect_ok haddr, run_inspect_ok (tracesField_eq hl he)]
  dsimp only
  rw [if_pos (by simp [htraced, hne]), run_inspect_error hunknown]

theorem write_cases (hl : Laid h) (r : Ref) (offset : Nat) (value : UInt32) :
    (∃ fault, run (write r offset value) h = (.error fault, h)) ∨
      ∃ addr, (r, addr) ∈ h.table ∧ offset < h.fieldsAt addr ∧ Storable h addr offset value ∧
        run (write r offset value) h =
          run (moveCount r (isTraced (h.bitmapAt addr) offset)
            (h.word (addr + headerWords + offset)) value)
            (h.setWord (addr + headerWords + offset) value) := by
  rcases address_cases hl r with ⟨-, addr, he, -⟩ | ⟨-, haddr⟩
  · have hfield := addressOfField_eq hl he offset
    by_cases hoffset : h.fieldsAt addr ≤ offset
    · rw [if_pos hoffset] at hfield
      exact .inl ⟨_, run_write_of_no_field value hfield⟩
    · have hlt := Nat.lt_of_not_le hoffset
      by_cases hvalue : Storable h addr offset value
      · exact .inr ⟨addr, he, hlt, hvalue, run_write hl he hlt hvalue⟩
      · exact .inl ⟨_, run_write_of_not_storable hl he hlt hvalue⟩
  · have hfield : h.addressOfField r offset = .error (.unknownReference r) := by
      unfold addressOfField
      rw [haddr]
      rfl
    exact .inl ⟨_, run_write_of_no_field value hfield⟩

end Midend.Heap
