import Midend.Proofs.Heap.Invariants
/-!
# The words to reclaim

The heap keeps a total of the words of its dead objects and never looks through the table for it:
a change of a count moves the total when the object dies or comes back to life, and a compaction
sets it to zero.  This keeps the total at what the table says (`Tallied`), whatever is called.
-/

namespace Midend.Heap

def deadWordsAt (h : Heap) (addr : Nat) : Nat := if h.isDeadAt addr then h.footprintAt addr else 0

def deadWords (h : Heap) : Nat := (h.table.map fun e => h.deadWordsAt e.2).sum

def Tallied (h : Heap) : Prop := h.reclaimable = h.deadWords

variable {h h' : Heap} {e : Ref × Nat} {r : Ref} {addr addr' offset x : Nat}

theorem deadWordsAt_congr (hcount : h'.countAt addr' = h.countAt addr)
    (hfoot : h'.footprintAt addr' = h.footprintAt addr) :
    h'.deadWordsAt addr' = h.deadWordsAt addr := by
  unfold deadWordsAt isDeadAt
  rw [hcount, hfoot]

theorem Copied.deadWordsAt (hc : Copied h addr h' addr') :
    h'.deadWordsAt addr' = h.deadWordsAt addr :=
  deadWordsAt_congr hc.countAt hc.footprintAt

theorem Laid.nodup_table (hl : Laid h) : h.table.Nodup := List.Nodup.of_map _ hl.nodup_inUse

/-! ## Writing one word -/

/-- A write to an object changes the share that this object has in the total. -/
theorem Laid.deadWords_setWord (hl : Laid h) (he : e ∈ h.table) (hx : Writable h e x)
    (w : UInt32) : (h.setWord x w).deadWords + h.deadWordsAt e.2 =
      h.deadWords + (h.setWord x w).deadWordsAt e.2 :=
  sum_map_update hl.nodup_table he fun _ he' hne =>
    (hl.copied_setWord he hx he' hne w).deadWordsAt

theorem Laid.footprintAt_setWord (hl : Laid h) (he : e ∈ h.table) (hx : Writable h e x)
    (w : UInt32) : (h.setWord x w).footprintAt e.2 = h.footprintAt e.2 :=
  congrArg (headerWords + ·) (hl.sizeAt_setWord he hx he w)

/-- The total after a change of a count is what the table says then. -/
theorem Laid.reclaimableAfter_eq (hl : Laid h) (he : e ∈ h.table) (now : UInt32) :
    reclaimableAfter h.deadWords (h.footprintAt e.2) (h.countAt e.2) now =
      (h.setWord e.2 now).deadWords := by
  have hsum := hl.deadWords_setWord he (.inl rfl) now
  have hcount := hl.countAt_setCount he now
  have hfoot := hl.footprintAt_setWord he (.inl rfl) now
  unfold deadWordsAt isDeadAt at hsum
  rw [hcount, hfoot] at hsum
  simp only [decide_eq_true_eq] at hsum
  unfold reclaimableAfter
  by_cases hbefore : h.countAt e.2 = 0
  · rw [if_neg fun hdied => hdied.1 hbefore]
    by_cases hnow : now = 0
    · rw [if_pos hbefore, if_pos hnow] at hsum
      rw [if_neg fun hrevived => hrevived.2 hnow]
      omega
    · rw [if_pos hbefore, if_neg hnow] at hsum
      rw [if_pos ⟨hbefore, hnow⟩]
      omega
  · rw [if_neg hbefore] at hsum
    by_cases hnow : now = 0
    · rw [if_pos hnow] at hsum
      rw [if_pos ⟨hbefore, hnow⟩]
      omega
    · rw [if_neg hnow] at hsum
      rw [if_neg fun hdied => hnow hdied.2, if_neg fun hrevived => hbefore hrevived.1]
      omega

theorem tallied_changeCount (hl : Laid h) (ht : Tallied h) (r : Ref) (delta : Int) :
    Tallied (run (changeCount r delta) h).2 := by
  unfold changeCount
  rcases address_cases hl r with ⟨-, addr, he, haddr⟩ | ⟨-, haddr⟩
  · have htotal := hl.reclaimableAfter_eq he (shiftCount (h.countAt addr) delta)
    rw [← ht] at htotal
    rw [run_inspect_ok haddr, run_bind_ok (run_get h), run_bind_ok (run_set h _)]
    exact htotal
  · rw [run_inspect_error haddr]
    exact ht

theorem tallied_setField (hl : Laid h) (he : (r, addr) ∈ h.table) (hoffset : offset < h.sizeAt addr)
    (ht : Tallied h) (w : UInt32) : Tallied (h.setWord (addr + headerWords + offset) w) := by
  have hx : Writable h (r, addr) (addr + headerWords + offset) := writable_field h _ hoffset
  have hshare := deadWordsAt_congr (countAt_setField h addr offset w)
    (hl.footprintAt_setWord he hx w)
  have hsum := hl.deadWords_setWord he hx w
  have hsame : (h.setWord (addr + headerWords + offset) w).deadWords = h.deadWords := by
    dsimp only at hsum
    omega
  exact ht.trans hsame.symm

/-! ## New objects and compaction -/

theorem tallied_place {fields : Nat} {bitmap : UInt32} (hl : Laid h)
    (hfits : h.top + headerWords + fields ≤ h.capacity) (ht : Tallied h) :
    Tallied (h.place r fields bitmap) := by
  have hnew : (h.place r fields bitmap).countAt h.top = 1 :=
    word_place_header (i := 0) hfits (by decide)
  have hshare : (h.place r fields bitmap).deadWordsAt h.top = 0 := by
    unfold deadWordsAt isDeadAt
    rw [hnew]
    rfl
  have htable : (h.place r fields bitmap).table = h.table ++ [(r, h.top)] := rfl
  unfold Tallied deadWords
  rw [htable, List.map_append, List.sum_append, List.map_singleton, List.sum_singleton, hshare,
    List.map_congr_left fun e he => (hl.copied_place hfits r bitmap he).deadWordsAt]
  exact ht

theorem tallied_compacted (hl : Laid h) : Tallied h.compacted := by
  refine (List.sum_eq_zero fun words hwords => ?_).symm
  obtain ⟨e, he, rfl⟩ := List.mem_map.1 hwords
  have hlive : 0 < h.compacted.countOf e.1 := by
    rw [hl.countOf_compacted]
    exact hl.mem_inUse_compacted.1 (List.mem_map.2 ⟨e, he, rfl⟩)
  unfold deadWordsAt
  rw [hl.compacted.isDeadAt_eq he, decide_eq_true hlive]
  rfl

theorem invariant_tallied : Invariant Tallied where
  new _ := rfl
  changeCount r delta _ hl ht := tallied_changeCount hl ht r delta
  setField _ _ _ value _ hl he hoffset ht := tallied_setField hl he hoffset ht value
  scopes _ _ _ ht := ht
  numbers _ _ _ ht := ht
  place _ _ _ _ hl _ hfits _ ht := tallied_place hl hfits ht
  compacted _ hl _ := tallied_compacted hl

end Midend.Heap
