import Midend.Proofs.Heap.Scopes
/-!
# Writing fields

A write to a field that holds references moves one count from the old content to the new
one.  In between the old content is held by nothing but what is owed to it.
-/

namespace Midend.Heap

variable {h h' : Heap} {r x : Ref} {addr offset : Nat} {value : UInt32}

/-! ## Holders after a write -/

def occurs (w x : Ref) : Nat := if w = x ∧ x ≠ 0 then 1 else 0

theorem mem_refsOf (hl : Laid h) (he : (r, addr) ∈ h.table) (hoffset : offset < h.sizeAt addr)
    (htraced : isTraced (h.bitmapAt addr) offset = true)
    (hne : h.word (addr + headerWords + offset) ≠ 0) :
    h.word (addr + headerWords + offset) ∈ h.refsOf r := by
  have hbits : offset < bitmapBits := by
    unfold isTraced at htraced
    exact of_decide_eq_true (Bool.and_eq_true_iff.1 htraced).1
  rw [hl.refsOf_eq he]
  unfold referencesAt
  refine List.mem_filter.2 ⟨List.mem_map.2 ⟨offset, List.mem_filter.2 ⟨?_, htraced⟩, rfl⟩,
    decide_eq_true hne⟩
  exact List.mem_range.2 (Nat.lt_min.2 ⟨hoffset, hbits⟩)

theorem zero_notMem_refsOf (h : Heap) (r : Ref) : (0 : Ref) ∉ h.refsOf r := by
  unfold refsOf
  split
  · unfold referencesAt
    intro hmem
    exact absurd rfl (of_decide_eq_true (List.mem_filter.1 hmem).2)
  · exact List.not_mem_nil

theorem Laid.fieldsHolding_setField_of_not_traced (hl : Laid h) (he : (r, addr) ∈ h.table)
    (hoffset : offset < h.sizeAt addr) (htraced : isTraced (h.bitmapAt addr) offset = false)
    (value : UInt32) (x : Ref) :
    (h.setWord (addr + headerWords + offset) value).fieldsHolding x = h.fieldsHolding x := by
  unfold fieldsHolding
  refine congrArg List.sum (List.map_congr_left fun y _ => ?_)
  rw [hl.countOf_setField he hoffset, hl.refsOf_setField_of_not_traced he hoffset htraced]

/-- A write to a field that holds references replaces one holder by another. -/
theorem Laid.fieldsHolding_setField (hl : Laid h) (he : (r, addr) ∈ h.table)
    (hlive : 0 < h.countOf r) (hoffset : offset < h.sizeAt addr)
    (htraced : isTraced (h.bitmapAt addr) offset = true) (value : UInt32) (x : Ref) :
    (h.setWord (addr + headerWords + offset) value).fieldsHolding x +
        occurs (h.word (addr + headerWords + offset)) x =
      h.fieldsHolding x + occurs value x := by
  have hcount := hl.countOf_setField he hoffset value
  have hsame : ∀ y ∈ h.inUse, y ≠ r →
      (if (h.setWord (addr + headerWords + offset) value).countOf y = 0 then 0
        else ((h.setWord (addr + headerWords + offset) value).refsOf y).count x) =
      if h.countOf y = 0 then 0 else (h.refsOf y).count x := by
    intro y _ hne
    rw [hcount, hl.refsOf_setWord_of_ne he (writable_field h _ hoffset) value hne]
  have hsum := sum_map_update hl.nodup_inUse (mem_inUse.2 ⟨addr, he⟩) hsame
  rw [hcount, if_neg (by omega), if_neg (by omega)] at hsum
  have hrefs : ((h.setWord (addr + headerWords + offset) value).refsOf r).count x +
      occurs (h.word (addr + headerWords + offset)) x =
        (h.refsOf r).count x + occurs value x := by
    unfold occurs
    by_cases hx : x = 0
    · subst hx
      rw [List.count_eq_zero.2 (zero_notMem_refsOf _ r),
        List.count_eq_zero.2 (zero_notMem_refsOf h r)]
      simp
    · have hset := hl.count_refsOf_setField he hoffset htraced value hx
      simp only [ne_eq, hx, not_false_eq_true, and_true]
      exact hset
  have hfields : (h.setWord (addr + headerWords + offset) value).fieldsHolding x +
      (h.refsOf r).count x = h.fieldsHolding x +
        ((h.setWord (addr + headerWords + offset) value).refsOf r).count x := hsum
  omega

theorem Laid.holders_setField (hl : Laid h) (he : (r, addr) ∈ h.table)
    (hlive : 0 < h.countOf r) (hoffset : offset < h.sizeAt addr)
    (htraced : isTraced (h.bitmapAt addr) offset = true) (value : UInt32) (x : Ref) :
    (h.setWord (addr + headerWords + offset) value).holders x +
        occurs (h.word (addr + headerWords + offset)) x = h.holders x + occurs value x := by
  have hfields := hl.fieldsHolding_setField he hlive hoffset htraced value x
  have hscopes : (h.setWord (addr + headerWords + offset) value).scopesHolding x =
      h.scopesHolding x := rfl
  unfold holders
  omega

theorem run_addToCount_zero (target : Ref) (delta : Int) (structural : Bool) (h : Heap) :
    run (addToCount 0 target delta structural) h = (.ok (), h) := rfl

theorem Tidy.setField (ht : Tidy h) (he : (r, addr) ∈ h.table) (hoffset : offset < h.sizeAt addr)
    (value : UInt32) : Tidy (h.setWord (addr + headerWords + offset) value) where
  laid := ht.laid.setWord he (writable_field h _ hoffset) value
  numbered := ⟨ht.numbered.nodup, ht.numbered.mem_iff, ht.numbered.last_le⟩
  nodup_scopes := ht.nodup_scopes

theorem occurs_of_ne_zero {w : Ref} (hw : w ≠ 0) (x : Ref) :
    occurs w x = if x = w then 1 else 0 := by
  unfold occurs
  refine if_congr ⟨fun hcase => hcase.1.symm, ?_⟩ rfl rfl
  rintro rfl
  exact ⟨rfl, hw⟩

theorem occurs_zero (x : Ref) : occurs 0 x = 0 := if_neg fun hcase => hcase.2 hcase.1.symm

theorem Tidy.raise {old : UInt32} (ht : Tidy h) (hlive : 0 < h.countOf r)
    (hvalue : value = 0 ∨ value ∈ h.inUse)
    (henough : ∀ x, occurs old x + h.holders x + h.regained value x ≤ h.countOf x + occurs value x)
    (hroom : value ≠ 0 → occurs old value + h.holders value + h.regained value value < 2 ^ 32) :
    ∃ h', run (addToCount value r 1 true) h = (.ok (), h') ∧ Recounted h h' ∧
      Covered h' (occurs old) := by
  by_cases hzero : value = 0
  · subst hzero
    refine ⟨h, run_addToCount_zero r 1 true h, Recounted.refl h, ht, fun x => ?_⟩
    have henough := henough x
    rw [occurs_zero] at henough
    omega
  · refine ht.addToCount_up (hvalue.resolve_left hzero) (.inr hlive) true (fun x => ?_)
      (hroom hzero)
    rw [← occurs_of_ne_zero hzero]
    exact henough x

theorem Covered.lower {old : UInt32} (hc : Covered h (occurs old)) (hr : r ∈ h.inUse) :
    ∃ h', run (addToCount old r (-1) true) h = (.ok (), h') ∧ Sound h' := by
  by_cases hzero : old = 0
  · subst hzero
    exact ⟨h, run_addToCount_zero r (-1) true h, hc.weaken fun x => Nat.zero_le _⟩
  · have howed : 0 < occurs old old := by
      rw [occurs_of_ne_zero hzero, if_pos rfl]
      exact Nat.one_pos
    have hpaid : ∀ x, 0 + (if x = old then 1 else 0) ≤ occurs old x := by
      intro x
      rw [occurs_of_ne_zero hzero, Nat.zero_add]
    obtain ⟨h', hrun, -, hc'⟩ := hc.addToCount_down (fun _ => 0) howed (.inr hr) hpaid
    exact ⟨h', hrun, hc'⟩

/-- Moving one count from the old content of a field to the new one, after the field
itself has changed. -/
theorem Tidy.moveCount {old : UInt32} (ht : Tidy h) (hlive : 0 < h.countOf r)
    (hvalue : value = 0 ∨ value ∈ h.inUse)
    (henough : ∀ x, occurs old x + h.holders x + h.regained value x ≤ h.countOf x + occurs value x)
    (hroom : value ≠ 0 → occurs old value + h.holders value + h.regained value value < 2 ^ 32) :
    ∃ h', run (moveCount r true old value) h = (.ok (), h') ∧ Sound h' := by
  unfold Heap.moveCount
  by_cases hsame : old = value
  · rw [if_neg (by simp [hsame])]
    refine ⟨h, rfl, ht, fun x => ?_⟩
    have henough := henough x
    rw [hsame] at henough
    omega
  · rw [if_pos (by simp [hsame])]
    obtain ⟨h₁, hrun₁, hre₁, hc₁⟩ := ht.raise hlive hvalue henough hroom
    rw [run_bind_ok hrun₁]
    refine hc₁.lower ?_
    rw [hre₁.inUse]
    exact mem_inUse_of_countOf hlive

/-- A write to a field of an object that is alive changes nothing about an object that is
dead. -/
theorem Laid.regained_setField (hl : Laid h) (he : (r, addr) ∈ h.table) (hlive : 0 < h.countOf r)
    (hoffset : offset < h.sizeAt addr) (value : UInt32) (y x : Ref) :
    (h.setWord (addr + headerWords + offset) value).regained y x = h.regained y x := by
  have hcount := hl.countOf_setField he hoffset value y
  unfold regained
  rw [hcount]
  by_cases hdead : h.countOf y = 0
  · have hne : y ≠ r := by
      rintro rfl
      omega
    rw [hl.refsOf_setWord_of_ne he (writable_field h _ hoffset) value hne]
  · rw [if_neg hdead, if_neg hdead]

theorem Laid.fieldsAt_lt (hl : Laid h) (he : (r, addr) ∈ h.table)
    (hoffset : offset < h.fieldsAt addr) : offset < h.sizeAt addr := by
  rw [← hl.sized _ he]
  exact hoffset

theorem Covered.write (hs : Sound h) (he : (r, addr) ∈ h.table) (hlive : 0 < h.countOf r)
    (hoffset : offset < h.fieldsAt addr)
    (hvalue : isTraced (h.bitmapAt addr) offset = true →
      value = 0 ∨ value ∈ h.inUse ∧ Backed h value)
    (hroom : ¬ Full h) : ∃ h', run (write r offset value) h = (.ok (), h') ∧ Sound h' := by
  have hsize := hs.laid.fieldsAt_lt he hoffset
  have htidy := hs.setField he hsize value
  have hcount := hs.laid.countOf_setField he hsize value
  rw [run_write hs.laid he hoffset fun htraced => (hvalue htraced).imp_right And.left]
  cases htraced : isTraced (h.bitmapAt addr) offset with
  | false =>
      refine ⟨_, rfl, htidy, fun x => ?_⟩
      have hfields := hs.laid.fieldsHolding_setField_of_not_traced he hsize htraced value x
      have henough := hs.enough x
      unfold holders at henough ⊢
      rw [hfields, hcount]
      exact henough
  | true =>
      have hvalue := hvalue htraced
      have hregained := hs.laid.regained_setField he hlive hsize value
      have hholders := hs.laid.holders_setField he hlive hsize htraced value
      have hbacked : Backed h value := by
        rcases hvalue with rfl | ⟨-, hbacked⟩
        · intro x
          have henough := hs.enough x
          rw [regained_of_not_mem hs.toTidy.zero_notMem_inUse]
          omega
        · exact hbacked
      refine htidy.moveCount (by rw [hcount]; exact hlive) (hvalue.imp_right And.left)
        (fun x => ?_) fun hne => ?_
      · have hheld := hholders x
        have hbacked := hbacked x
        rw [hregained, hcount]
        omega
      · have hheld := hholders value
        have hspace := hbacked.room hroom
        rw [occurs_of_ne_zero hne, if_pos rfl] at hheld
        rw [hregained]
        omega

end Midend.Heap
