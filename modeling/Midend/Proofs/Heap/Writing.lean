import Midend.Proofs.Heap.Layout
import Mathlib.Algebra.BigOperators.Group.List.Basic
import Mathlib.Algebra.GroupWithZero.Nat
/-!
# Writing one word of an object

A program writes to the count of an object or to one of its fields.  Such a write leaves
the layout and all other objects; what it does to the object itself is said by its count
and its references.
-/

namespace Midend.Heap

variable {h : Heap} {e e' : Ref × Nat} {r : Ref} {x : Nat} {w : UInt32}

def Writable (h : Heap) (e : Ref × Nat) (x : Nat) : Prop :=
  x = e.2 ∨ e.2 + headerWords ≤ x ∧ x < e.2 + h.footprintAt e.2

theorem writable_field (h : Heap) (e : Ref × Nat) {offset : Nat} (hoffset : offset < h.sizeAt e.2) :
    Writable h e (e.2 + headerWords + offset) := by
  refine .inr ⟨Nat.le_add_right _ _, ?_⟩
  unfold footprintAt
  omega

theorem capacity_setWord (h : Heap) (x : Nat) (w : UInt32) :
    (h.setWord x w).capacity = h.capacity :=
  Array.size_setIfInBounds

namespace Laid

theorem copied_setWord (hl : Laid h) (he : e ∈ h.table) (hx : Writable h e x)
    (he' : e' ∈ h.table) (hne : e' ≠ e) (w : UInt32) :
    Copied h e'.2 (h.setWord x w) e'.2 := by
  intro i hi
  rw [word_setWord, if_neg]
  rintro ⟨heq, -⟩
  have hfoot := headerWords_le_footprintAt h e.2
  have hheader : headerWords = 4 := rfl
  have hapart := hl.apart he' he hne
  rcases hx with rfl | ⟨hlow, hhigh⟩ <;> rcases hapart with hapart | hapart <;> omega

theorem word_header (hl : Laid h) (he : e ∈ h.table) (hx : Writable h e x) (he' : e' ∈ h.table)
    {i : Nat} (hpos : 0 < i) (hi : i < headerWords) (w : UInt32) :
    (h.setWord x w).word (e'.2 + i) = h.word (e'.2 + i) := by
  by_cases heq : e' = e
  · subst heq
    rw [word_setWord, if_neg]
    rintro ⟨hat, -⟩
    rcases hx with rfl | ⟨hlow, -⟩ <;> omega
  · exact (hl.copied_setWord he hx he' heq w).header hi

theorem sizeAt_setWord (hl : Laid h) (he : e ∈ h.table) (hx : Writable h e x)
    (he' : e' ∈ h.table) (w : UInt32) : (h.setWord x w).sizeAt e'.2 = h.sizeAt e'.2 :=
  congrArg UInt32.toNat (hl.word_header he hx he' (by decide) (by decide) w)

theorem bitmapAt_setWord (hl : Laid h) (he : e ∈ h.table) (hx : Writable h e x)
    (he' : e' ∈ h.table) (w : UInt32) : (h.setWord x w).bitmapAt e'.2 = h.bitmapAt e'.2 :=
  hl.word_header he hx he' (by decide) (by decide) w

theorem setWord (hl : Laid h) (he : e ∈ h.table) (hx : Writable h e x) (w : UInt32) :
    Laid (h.setWord x w) := by
  refine hl.congr rfl rfl (capacity_setWord h x w) (fun e' he' => ?_) fun e' he' => ?_
  · exact congrArg UInt32.toNat (hl.word_header he hx he' (by decide) (by decide) w)
  · exact hl.sizeAt_setWord he hx he' w

theorem countOf_setWord_of_ne (hl : Laid h) (he : e ∈ h.table) (hx : Writable h e x)
    (w : UInt32) (hne : r ≠ e.1) : (h.setWord x w).countOf r = h.countOf r := by
  refine hl.countOf_of_copied (hl.setWord he hx w) (fun addr hmem => ⟨addr, hmem, ?_⟩) id
  exact hl.copied_setWord he hx hmem (fun heq => hne (congrArg Prod.fst heq)) w

theorem refsOf_setWord_of_ne (hl : Laid h) (he : e ∈ h.table) (hx : Writable h e x)
    (w : UInt32) (hne : r ≠ e.1) : (h.setWord x w).refsOf r = h.refsOf r := by
  refine hl.refsOf_of_copied (hl.setWord he hx w) (fun addr hmem => ⟨addr, hmem, ?_⟩) id
  exact hl.copied_setWord he hx hmem (fun heq => hne (congrArg Prod.fst heq)) w

end Laid

/-! ## Counts and references after a write -/

theorem count_filter_map (is : List Nat) (f : Nat → Ref) {x : Ref} (hx : x ≠ 0) :
    ((is.map f).filter (· ≠ 0)).count x = (is.map fun i => if f i = x then 1 else 0).sum := by
  induction is with
  | nil => rfl
  | cons i is ih =>
      rw [List.map_cons, List.map_cons, List.sum_cons, ← ih, List.filter_cons]
      by_cases heq : f i = x
      · rw [if_pos (by simpa [heq] using hx), if_pos heq, heq, List.count_cons_self]
        omega
      · rw [if_neg heq]
        split
        · rw [List.count_cons_of_ne heq]
          omega
        · omega

theorem sum_map_update {α : Type} {xs : List α} (hnodup : xs.Nodup) {a : α} (ha : a ∈ xs)
    {f f' : α → Nat} (hsame : ∀ b ∈ xs, b ≠ a → f' b = f b) :
    (xs.map f').sum + f a = (xs.map f).sum + f' a := by
  induction xs with
  | nil => exact nomatch ha
  | cons x xs ih =>
      obtain ⟨hnew, hrest⟩ := List.nodup_cons.1 hnodup
      rw [List.map_cons, List.map_cons, List.sum_cons, List.sum_cons]
      by_cases heq : x = a
      · subst heq
        have hmap : xs.map f' = xs.map f := by
          refine List.map_congr_left fun b hb => hsame b (List.mem_cons_of_mem _ hb) ?_
          rintro rfl
          exact hnew hb
        rw [hmap]
        omega
      · have hmem : a ∈ xs := (List.mem_cons.1 ha).resolve_left fun h => heq h.symm
        have hsum := ih hrest hmem fun b hb => hsame b (List.mem_cons_of_mem _ hb)
        rw [hsame x List.mem_cons_self heq]
        omega

theorem countAt_setField (h : Heap) (addr offset : Nat) (w : UInt32) :
    (h.setWord (addr + headerWords + offset) w).countAt addr = h.countAt addr := by
  unfold countAt
  rw [word_setWord, if_neg]
  rintro ⟨hat, -⟩
  have hheader : headerWords = 4 := rfl
  omega

namespace Laid

variable {offset : Nat}

theorem countAt_setCount (hl : Laid h) (he : e ∈ h.table) (w : UInt32) :
    (h.setWord e.2 w).countAt e.2 = w := by
  have hinside := hl.inside he
  have hfoot := headerWords_le_footprintAt h e.2
  have hheader : headerWords = 4 := rfl
  unfold countAt
  rw [word_setWord, if_pos ⟨rfl, by omega⟩]

theorem countOf_setCount (hl : Laid h) (he : e ∈ h.table) (w : UInt32) (r : Ref) :
    (h.setWord e.2 w).countOf r = if r = e.1 then w.toNat else h.countOf r := by
  have hl' : Laid (h.setWord e.2 w) := hl.setWord he (.inl rfl) w
  split
  · rename_i heq
    subst heq
    rw [hl'.countOf_eq (show (e.1, e.2) ∈ (h.setWord e.2 w).table from he),
      hl.countAt_setCount he]
  · rename_i hne
    exact hl.countOf_setWord_of_ne he (.inl rfl) w hne

theorem countOf_setField (hl : Laid h) (he : e ∈ h.table) (hoffset : offset < h.sizeAt e.2)
    (w : UInt32) (r : Ref) :
    (h.setWord (e.2 + headerWords + offset) w).countOf r = h.countOf r := by
  have hx := writable_field h e hoffset
  have hl' : Laid (h.setWord (e.2 + headerWords + offset) w) := hl.setWord he hx w
  by_cases hne : r = e.1
  · subst hne
    rw [hl'.countOf_eq (show (e.1, e.2) ∈ (h.setWord _ w).table from he),
      hl.countOf_eq (show (e.1, e.2) ∈ h.table from he), countAt_setField]
  · exact hl.countOf_setWord_of_ne he hx w hne

theorem refsOf_setCount (hl : Laid h) (he : e ∈ h.table) (w : UInt32) (r : Ref) :
    (h.setWord e.2 w).refsOf r = h.refsOf r := by
  by_cases hne : r = e.1
  · subst hne
    have hl' : Laid (h.setWord e.2 w) := hl.setWord he (.inl rfl) w
    rw [hl'.refsOf_eq (show (e.1, e.2) ∈ (h.setWord e.2 w).table from he),
      hl.refsOf_eq (show (e.1, e.2) ∈ h.table from he)]
    refine referencesAt_congr (hl.bitmapAt_setWord he (.inl rfl) he w)
      (hl.sizeAt_setWord he (.inl rfl) he w) fun i _ => ?_
    rw [word_setWord, if_neg]
    rintro ⟨hat, -⟩
    have hheader : headerWords = 4 := rfl
    omega
  · exact hl.refsOf_setWord_of_ne he (.inl rfl) w hne

theorem refsOf_setField_of_not_traced (hl : Laid h) (he : e ∈ h.table)
    (hoffset : offset < h.sizeAt e.2) (htraced : isTraced (h.bitmapAt e.2) offset = false)
    (w : UInt32) (r : Ref) :
    (h.setWord (e.2 + headerWords + offset) w).refsOf r = h.refsOf r := by
  have hx := writable_field h e hoffset
  by_cases hne : r = e.1
  · subst hne
    have hl' : Laid (h.setWord (e.2 + headerWords + offset) w) := hl.setWord he hx w
    rw [hl'.refsOf_eq (show (e.1, e.2) ∈ (h.setWord _ w).table from he),
      hl.refsOf_eq (show (e.1, e.2) ∈ h.table from he)]
    unfold referencesAt
    rw [hl.bitmapAt_setWord he hx he w, hl.sizeAt_setWord he hx he w]
    refine congrArg (List.filter fun w : Ref => w ≠ 0) (List.map_congr_left fun i hi => ?_)
    have htraces := (List.mem_filter.1 hi).2
    rw [word_setWord, if_neg]
    rintro ⟨hat, -⟩
    obtain rfl : i = offset := by omega
    rw [htraced] at htraces
    exact nomatch htraces
  · exact hl.refsOf_setWord_of_ne he hx w hne

/-- Writing a field that holds a reference takes out the old reference and puts in the
new one. -/
theorem count_refsOf_setField (hl : Laid h) (he : e ∈ h.table)
    (hoffset : offset < h.sizeAt e.2) (htraced : isTraced (h.bitmapAt e.2) offset = true)
    (w : UInt32) {x : Ref} (hx : x ≠ 0) :
    ((h.setWord (e.2 + headerWords + offset) w).refsOf e.1).count x +
        (if h.word (e.2 + headerWords + offset) = x then 1 else 0) =
      (h.refsOf e.1).count x + (if w = x then 1 else 0) := by
  have hwritable := writable_field h e hoffset
  have hl' : Laid (h.setWord (e.2 + headerWords + offset) w) := hl.setWord he hwritable w
  have hin : e.2 + headerWords + offset < h.capacity := by
    have hinside := hl.inside he
    unfold footprintAt at hinside
    omega
  rw [hl'.refsOf_eq (show (e.1, e.2) ∈ (h.setWord _ w).table from he),
    hl.refsOf_eq (show (e.1, e.2) ∈ h.table from he)]
  unfold referencesAt
  rw [hl.bitmapAt_setWord he hwritable he w, hl.sizeAt_setWord he hwritable he w,
    count_filter_map _ _ hx, count_filter_map _ _ hx]
  have hbits : offset < bitmapBits := by
    unfold isTraced at htraced
    exact of_decide_eq_true (Bool.and_eq_true_iff.1 htraced).1
  have hmem : offset ∈ (List.range (min (h.sizeAt e.2) bitmapBits)).filter
      (isTraced (h.bitmapAt e.2)) :=
    List.mem_filter.2 ⟨List.mem_range.2 (by omega), htraced⟩
  have hnew : (h.setWord (e.2 + headerWords + offset) w).word (e.2 + headerWords + offset) = w := by
    rw [word_setWord, if_pos ⟨rfl, hin⟩]
  have hsame : ∀ i ∈ (List.range (min (h.sizeAt e.2) bitmapBits)).filter
      (isTraced (h.bitmapAt e.2)), i ≠ offset →
      (if (h.setWord (e.2 + headerWords + offset) w).word (e.2 + headerWords + i) = x
        then 1 else 0) = if h.word (e.2 + headerWords + i) = x then 1 else 0 := by
    intro i _ hne
    have hword : (h.setWord (e.2 + headerWords + offset) w).word (e.2 + headerWords + i) =
        h.word (e.2 + headerWords + i) := by
      rw [word_setWord, if_neg]
      rintro ⟨hat, -⟩
      omega
    rw [hword]
  have hsum := sum_map_update (List.Nodup.filter _ List.nodup_range) hmem hsame
  simpa only [hnew] using hsum

end Laid

end Midend.Heap
