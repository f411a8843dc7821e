import Midend.Heap.Operations
import Mathlib.Data.List.Nodup
import Mathlib.Data.List.Pairwise
/-!
# Where the objects of a heap lie

The objects fill the memory from its start to the top in the order of the table, each with
a reference of its own (`Laid`).  Every number up to the last one is in use or recycled
(`Numbered`).

What the table says about a reference can be told without addresses: `countOf` is the
count of its object and `refsOf` are the references in its fields.  Both stay the same
when the words of the object are copied to another heap (`Copied`).
-/

namespace Midend.Heap

def inUse (h : Heap) : List Ref := h.table.map (·.1)

/-- The count of an object; what is not in use has none. -/
def countOf (h : Heap) (r : Ref) : Nat :=
  match h.table.lookup r with
  | some addr => (h.countAt addr).toNat
  | none => 0

def refsOf (h : Heap) (r : Ref) : List Ref :=
  match h.table.lookup r with
  | some addr => h.referencesAt addr
  | none => []

/-- The objects of some table entries fill the addresses from one to another without a
gap. -/
inductive Consecutive (h : Heap) : Nat → List (Ref × Nat) → Nat → Prop where
  | nil {x : Nat} : Consecutive h x [] x
  | cons {r : Ref} {x y : Nat} {es : List (Ref × Nat)}
      (hrest : Consecutive h (x + h.footprintAt x) es y) : Consecutive h x ((r, x) :: es) y

/-- The objects fill the memory from its start to the top, each with a reference of its
own. -/
structure Laid (h : Heap) : Prop where
  consecutive : Consecutive h start h.table h.top
  fits : h.top ≤ max start h.capacity
  sized : ∀ e ∈ h.table, h.fieldsAt e.2 = h.sizeAt e.2
  nodup_inUse : h.inUse.Nodup

/-- The reference numbers up to the last one are each in use, recycled or about to be
used, once. -/
structure Numbered (h : Heap) (upcoming : List Ref) : Prop where
  nodup : (upcoming ++ (h.inUse ++ h.free)).Nodup
  mem_iff : ∀ r, r ∈ upcoming ++ (h.inUse ++ h.free) ↔ r ≠ 0 ∧ r ≤ h.last
  last_le : h.last ≤ h.limits.maxRef

/-! ## Words -/

theorem eq_zero_iff {w : UInt32} : w = 0 ↔ w.toNat = 0 := by
  rw [← UInt32.toNat_inj]
  rfl

theorem getD_setIfInBounds (memory : Array UInt32) (addr other : Nat) (w : UInt32) :
    (memory.setIfInBounds addr w).getD other 0 =
      if other = addr ∧ addr < memory.size then w else memory.getD other 0 := by
  rw [Array.getD_eq_getD_getElem?, Array.getD_eq_getD_getElem?, Array.getElem?_setIfInBounds]
  by_cases heq : addr = other
  · subst heq
    by_cases hlt : addr < memory.size
    · simp [hlt]
    · simp [hlt]
  · have hne : ¬ other = addr := fun h => heq h.symm
    simp [heq, hne]

theorem word_setWord (h : Heap) (addr other : Nat) (w : UInt32) :
    (h.setWord addr w).word other =
      if other = addr ∧ addr < h.capacity then w else h.word other :=
  getD_setIfInBounds h.memory addr other w

theorem size_writeWords (memory : Array UInt32) (addr : Nat) (ws : List UInt32) :
    (writeWords memory addr ws).size = memory.size := by
  induction ws generalizing memory addr with
  | nil => rfl
  | cons w ws ih =>
      unfold writeWords
      rw [ih, Array.size_setIfInBounds]

theorem getD_writeWords (memory : Array UInt32) (addr other : Nat) (ws : List UInt32)
    (hfit : addr + ws.length ≤ memory.size) :
    (writeWords memory addr ws).getD other 0 =
      if addr ≤ other ∧ other < addr + ws.length then ws.getD (other - addr) 0
      else memory.getD other 0 := by
  induction ws generalizing memory addr with
  | nil =>
      have hno : ¬ (addr ≤ other ∧ other < addr + ([] : List UInt32).length) := by
        simp only [List.length_nil]
        omega
      rw [if_neg hno]
      rfl
  | cons w ws ih =>
      rw [List.length_cons] at hfit ⊢
      unfold writeWords
      rw [ih _ _ (by rw [Array.size_setIfInBounds]; omega), getD_setIfInBounds]
      by_cases hat : other = addr
      · subst hat
        rw [if_neg (by omega), if_pos ⟨rfl, by omega⟩, if_pos (by omega), Nat.sub_self]
        rfl
      · by_cases hin : addr + 1 ≤ other ∧ other < addr + 1 + ws.length
        · rw [if_pos hin, if_pos (by omega)]
          have hsub : other - addr = other - (addr + 1) + 1 := by omega
          rw [hsub]
          rfl
        · rw [if_neg hin, if_neg (fun hcase => hat hcase.1), if_neg (by omega)]

/-! ## The table -/

theorem lookup_eq_some_of_mem {table : List (Ref × Nat)} (hnodup : (table.map (·.1)).Nodup)
    {r : Ref} {addr : Nat} (hmem : (r, addr) ∈ table) : table.lookup r = some addr := by
  induction table with
  | nil => exact nomatch hmem
  | cons e es ih =>
      obtain ⟨hnew, hrest⟩ := List.nodup_cons.1 hnodup
      rcases List.mem_cons.1 hmem with rfl | hmem
      · exact List.lookup_cons_self
      · have hne : r ≠ e.1 := by
          rintro rfl
          exact hnew (List.mem_map.2 ⟨_, hmem, rfl⟩)
        rw [List.lookup_cons, beq_eq_false_iff_ne.2 hne]
        exact ih hrest hmem

theorem mem_of_lookup_eq_some {table : List (Ref × Nat)} {r : Ref} {addr : Nat}
    (h : table.lookup r = some addr) : (r, addr) ∈ table := by
  obtain ⟨before, after, heq, -⟩ := List.lookup_eq_some_iff.1 h
  rw [heq]
  exact List.mem_append_right _ List.mem_cons_self

variable {h h' : Heap} {r : Ref} {addr : Nat} {e : Ref × Nat}

theorem mem_inUse : r ∈ h.inUse ↔ ∃ addr, (r, addr) ∈ h.table := by
  unfold inUse
  rw [List.mem_map]
  constructor
  · rintro ⟨⟨r, addr⟩, hmem, rfl⟩
    exact ⟨addr, hmem⟩
  · rintro ⟨addr, hmem⟩
    exact ⟨(r, addr), hmem, rfl⟩

theorem mem_inUse_of_countOf (hcount : 0 < h.countOf r) : r ∈ h.inUse := by
  unfold countOf at hcount
  split at hcount
  · rename_i addr hlookup
    exact mem_inUse.2 ⟨addr, mem_of_lookup_eq_some hlookup⟩
  · exact absurd hcount (Nat.lt_irrefl 0)

theorem countOf_eq_zero (hr : r ∉ h.inUse) : h.countOf r = 0 := by
  by_contra hne
  exact hr (mem_inUse_of_countOf (Nat.pos_of_ne_zero hne))

theorem refsOf_eq_nil (hr : r ∉ h.inUse) : h.refsOf r = [] := by
  unfold refsOf
  split
  · rename_i addr hlookup
    exact absurd (mem_inUse.2 ⟨addr, mem_of_lookup_eq_some hlookup⟩) hr
  · rfl

theorem headerWords_le_footprintAt (h : Heap) (addr : Nat) : headerWords ≤ h.footprintAt addr :=
  Nat.le_add_right _ _

namespace Consecutive

variable {es fs : List (Ref × Nat)} {x y z : Nat}

theorem le (hc : Consecutive h x es y) : x ≤ y := by
  induction hc with
  | nil => exact Nat.le_refl _
  | cons _ ih => omega

theorem lies (hc : Consecutive h x es y) (he : e ∈ es) :
    x ≤ e.2 ∧ e.2 + h.footprintAt e.2 ≤ y := by
  induction hc with
  | nil => exact nomatch he
  | cons hrest ih =>
      rcases List.mem_cons.1 he with rfl | he
      · exact ⟨Nat.le_refl _, hrest.le⟩
      · have hlies := ih he
        omega

theorem ordered (hc : Consecutive h x es y) :
    es.Pairwise fun a b => a.2 + h.footprintAt a.2 ≤ b.2 := by
  induction hc with
  | nil => exact List.Pairwise.nil
  | cons hrest ih => exact List.Pairwise.cons (fun b hb => (hrest.lies hb).1) ih

theorem congr (hc : Consecutive h x es y)
    (hfoot : ∀ e ∈ es, h'.footprintAt e.2 = h.footprintAt e.2) : Consecutive h' x es y := by
  induction hc with
  | nil => exact .nil
  | cons hrest ih =>
      refine .cons ?_
      rw [hfoot _ List.mem_cons_self]
      exact ih fun e he => hfoot e (List.mem_cons_of_mem _ he)

theorem append (hc : Consecutive h x es y) (hd : Consecutive h y fs z) :
    Consecutive h x (es ++ fs) z := by
  induction hc with
  | nil => exact hd
  | cons _ ih => exact .cons (ih hd)

end Consecutive

namespace Laid

theorem lookup_eq (hl : Laid h) (he : (r, addr) ∈ h.table) : h.table.lookup r = some addr :=
  lookup_eq_some_of_mem hl.nodup_inUse he

theorem address_eq (hl : Laid h) (he : (r, addr) ∈ h.table) : h.address r = .ok addr := by
  unfold address
  rw [hl.lookup_eq he]

theorem countOf_eq (hl : Laid h) (he : (r, addr) ∈ h.table) :
    h.countOf r = (h.countAt addr).toNat := by
  unfold countOf
  rw [hl.lookup_eq he]

theorem refsOf_eq (hl : Laid h) (he : (r, addr) ∈ h.table) :
    h.refsOf r = h.referencesAt addr := by
  unfold refsOf
  rw [hl.lookup_eq he]

theorem congr (hl : Laid h) (htable : h'.table = h.table) (htop : h'.top = h.top)
    (hcapacity : h'.capacity = h.capacity)
    (hfields : ∀ e ∈ h.table, h'.fieldsAt e.2 = h.fieldsAt e.2)
    (hsize : ∀ e ∈ h.table, h'.sizeAt e.2 = h.sizeAt e.2) : Laid h' := by
  constructor
  · rw [htable, htop]
    exact hl.consecutive.congr fun e he => congrArg (headerWords + ·) (hsize e he)
  · rw [htop, hcapacity]
    exact hl.fits
  · rw [htable]
    intro e he
    rw [hfields e he, hsize e he]
    exact hl.sized e he
  · unfold inUse
    rw [htable]
    exact hl.nodup_inUse

theorem ordered (hl : Laid h) : h.table.Pairwise fun a b => a.2 + h.footprintAt a.2 ≤ b.2 :=
  hl.consecutive.ordered

theorem below (hl : Laid h) (he : e ∈ h.table) : e.2 + h.footprintAt e.2 ≤ h.top :=
  (hl.consecutive.lies he).2

theorem inside (hl : Laid h) (he : e ∈ h.table) : e.2 + h.footprintAt e.2 ≤ h.capacity := by
  have hlies := hl.consecutive.lies he
  have hfits := hl.fits
  have hfoot := headerWords_le_footprintAt h e.2
  have hheader : headerWords = 4 := rfl
  omega

theorem apart (hl : Laid h) {e e' : Ref × Nat} (he : e ∈ h.table) (he' : e' ∈ h.table)
    (hne : e ≠ e') :
    e.2 + h.footprintAt e.2 ≤ e'.2 ∨ e'.2 + h.footprintAt e'.2 ≤ e.2 := by
  obtain ⟨i, hi, rfl⟩ := List.mem_iff_getElem.1 he
  obtain ⟨j, hj, rfl⟩ := List.mem_iff_getElem.1 he'
  have hordered := List.pairwise_iff_getElem.1 hl.ordered
  rcases Nat.lt_trichotomy i j with hlt | rfl | hlt
  · exact .inl (hordered i j hi hj hlt)
  · exact absurd rfl hne
  · exact .inr (hordered j i hj hi hlt)

end Laid

/-! ## Objects with the same words -/

theorem referencesAt_congr {h h' : Heap} {addr addr' : Nat}
    (hbitmap : h'.bitmapAt addr' = h.bitmapAt addr) (hsize : h'.sizeAt addr' = h.sizeAt addr)
    (hwords : ∀ i < h.sizeAt addr, h'.word (addr' + headerWords + i) =
      h.word (addr + headerWords + i)) : h'.referencesAt addr' = h.referencesAt addr := by
  unfold referencesAt
  rw [hbitmap, hsize]
  refine congrArg (List.filter fun w : Ref => w ≠ 0)
    (List.map_congr_left fun i hi => hwords i ?_)
  have hrange := List.mem_range.1 (List.mem_filter.1 hi).1
  omega

/-- The words of an object stand at an address of another heap. -/
def Copied (h : Heap) (addr : Nat) (h' : Heap) (addr' : Nat) : Prop :=
  ∀ i < h.footprintAt addr, h'.word (addr' + i) = h.word (addr + i)

namespace Copied

theorem header (hc : Copied h addr h' addr') {i : Nat} (hi : i < headerWords) :
    h'.word (addr' + i) = h.word (addr + i) :=
  hc i (Nat.lt_of_lt_of_le hi (headerWords_le_footprintAt h addr))

theorem countAt (hc : Copied h addr h' addr') : h'.countAt addr' = h.countAt addr :=
  hc.header (i := 0) (by decide)

theorem fieldsAt (hc : Copied h addr h' addr') : h'.fieldsAt addr' = h.fieldsAt addr :=
  congrArg UInt32.toNat (hc.header (by decide))

theorem bitmapAt (hc : Copied h addr h' addr') : h'.bitmapAt addr' = h.bitmapAt addr :=
  hc.header (by decide)

theorem sizeAt (hc : Copied h addr h' addr') : h'.sizeAt addr' = h.sizeAt addr :=
  congrArg UInt32.toNat (hc.header (by decide))

theorem footprintAt (hc : Copied h addr h' addr') :
    h'.footprintAt addr' = h.footprintAt addr :=
  congrArg (headerWords + ·) hc.sizeAt

theorem referencesAt (hc : Copied h addr h' addr') :
    h'.referencesAt addr' = h.referencesAt addr := by
  refine referencesAt_congr hc.bitmapAt hc.sizeAt fun i hi => ?_
  have hword := hc (headerWords + i) (Nat.add_lt_add_left hi headerWords)
  rw [Nat.add_assoc, Nat.add_assoc]
  exact hword

theorem countOf (hc : Copied h addr h' addr') (hl : Laid h) (hl' : Laid h')
    (he : (r, addr) ∈ h.table) (he' : (r, addr') ∈ h'.table) : h'.countOf r = h.countOf r := by
  rw [hl.countOf_eq he, hl'.countOf_eq he', hc.countAt]

theorem refsOf (hc : Copied h addr h' addr') (hl : Laid h) (hl' : Laid h')
    (he : (r, addr) ∈ h.table) (he' : (r, addr') ∈ h'.table) : h'.refsOf r = h.refsOf r := by
  rw [hl.refsOf_eq he, hl'.refsOf_eq he', hc.referencesAt]

end Copied

theorem Laid.countOf_of_copied (hl : Laid h) (hl' : Laid h')
    (hcopied : ∀ addr, (r, addr) ∈ h.table →
      ∃ addr', (r, addr') ∈ h'.table ∧ Copied h addr h' addr')
    (hnew : r ∉ h.inUse → r ∉ h'.inUse) : h'.countOf r = h.countOf r := by
  by_cases hr : r ∈ h.inUse
  · obtain ⟨addr, hmem⟩ := mem_inUse.1 hr
    obtain ⟨addr', hmem', hc⟩ := hcopied addr hmem
    exact hc.countOf hl hl' hmem hmem'
  · rw [countOf_eq_zero hr, countOf_eq_zero (hnew hr)]

theorem Laid.refsOf_of_copied (hl : Laid h) (hl' : Laid h')
    (hcopied : ∀ addr, (r, addr) ∈ h.table →
      ∃ addr', (r, addr') ∈ h'.table ∧ Copied h addr h' addr')
    (hnew : r ∉ h.inUse → r ∉ h'.inUse) : h'.refsOf r = h.refsOf r := by
  by_cases hr : r ∈ h.inUse
  · obtain ⟨addr, hmem⟩ := mem_inUse.1 hr
    obtain ⟨addr', hmem', hc⟩ := hcopied addr hmem
    exact hc.refsOf hl hl' hmem hmem'
  · rw [refsOf_eq_nil hr, refsOf_eq_nil (hnew hr)]

end Midend.Heap
