import Midend.Proofs.Heap.Reclaiming
/-!
# What a compaction keeps

A compaction takes away the objects whose count is zero and nothing else.  The others keep their
numbers, their order and all their words; the numbers of the dead ones are handed out again and
stand in no scope.  As the total of the words to reclaim is right, it says what the compaction
gives back, and a heap that has just been compacted gives back nothing more.
-/

namespace Midend.Heap

def Dead (h : Heap) (r : Ref) : Prop := h.count r = .ok 0

instance (h : Heap) : DecidablePred h.Dead :=
  fun r => inferInstanceAs (Decidable (h.count r = .ok 0))

/-- A reference leads to the same object in another heap, wherever the object lies there. -/
structure Intact (h h' : Heap) (r : Ref) : Prop where
  count : h'.count r = h.count r
  fields : h'.fieldsAt <$> h'.address r = h.fieldsAt <$> h.address r
  bitmap : h'.bitmapAt <$> h'.address r = h.bitmapAt <$> h.address r
  size : h'.sizeAt <$> h'.address r = h.sizeAt <$> h.address r
  read : ∀ offset, h'.read r offset = h.read r offset

def wordsOf (h : Heap) (es : List (Ref × Nat)) : Nat := (es.map fun e => h.footprintAt e.2).sum

/-- Another heap is the heap without its dead objects. -/
structure Compacts (h h' : Heap) : Prop where
  inUse : h'.inUse = h.inUse.filter fun r => ¬ h.Dead r
  intact : ∀ r ∈ h.inUse, ¬ h.Dead r → Intact h h' r
  free : h'.free = (h.inUse.filter fun r => h.Dead r).reverse ++ h.free
  roots : h'.roots = h.roots.filter fun r => ¬ h.Dead r
  outer : h'.outer = h.outer.map fun scope => scope.filter fun r => ¬ h.Dead r
  recycled : ∀ r, h.Dead r →
    h'.free.count r = 1 ∧ ∀ scope ∈ h'.roots :: h'.outer, r ∉ scope
  top : h'.top = 1 + h.wordsOf (h.table.filter fun e => ¬ h.Dead e.1)
  /-- The total of the words to reclaim is what the compaction gives back. -/
  freed : h'.top + h.reclaimable = h.top
  reclaimable : h'.reclaimable = 0
  compactions : h'.compactions = h.compactions + 1
  limits : h'.limits = h.limits
  last : h'.last = h.last
  capacity : h'.capacity = h.capacity
  again : run compact h' = (.ok h'.top, { h' with compactions := h'.compactions + 1 })

variable {limits : HeapLimits} {h h' : Heap} {r : Ref} {addr addr' x y low high : Nat}
  {es moved : List (Ref × Nat)}

theorem Laid.dead_iff (hl : Laid h) (hr : r ∈ h.inUse) : h.Dead r ↔ h.countOf r = 0 := by
  obtain ⟨addr, he⟩ := mem_inUse.1 hr
  have hcount : h.count r = .ok (h.countAt addr) := by
    unfold count
    rw [hl.address_eq he]
    rfl
  unfold Dead
  rw [hcount, hl.countOf_eq he, Except.ok.injEq, eq_zero_iff]

theorem Laid.decide_live (hl : Laid h) (hr : r ∈ h.inUse) :
    decide (0 < h.countOf r) = decide (¬ h.Dead r) := by
  rw [decide_eq_decide, hl.dead_iff hr]
  exact Nat.pos_iff_ne_zero

theorem Dead.mem_inUse (hdead : h.Dead r) : r ∈ h.inUse := by
  unfold Dead count at hdead
  cases haddr : h.address r with
  | ok addr => exact Heap.mem_inUse.2 ⟨addr, mem_table_of_address haddr⟩
  | error fault =>
      rw [haddr] at hdead
      exact nomatch hdead

/-! ## The words of an object -/

theorem Copied.read (hc : Copied h addr h' addr') (hl : Laid h) (hl' : Laid h')
    (he : (r, addr) ∈ h.table) (he' : (r, addr') ∈ h'.table) (offset : Nat) :
    h'.read r offset = h.read r offset := by
  have hsized := hl.sized _ he
  dsimp only at hsized
  unfold Heap.read
  rw [addressOfField_eq hl he, addressOfField_eq hl' he', hc.fieldsAt]
  by_cases hoffset : h.fieldsAt addr ≤ offset
  · rw [if_pos hoffset, if_pos hoffset]
    rfl
  · have hword := hc (headerWords + offset) (by unfold Heap.footprintAt; omega)
    rw [← Nat.add_assoc, ← Nat.add_assoc] at hword
    rw [if_neg hoffset, if_neg hoffset]
    exact congrArg Except.ok hword

theorem Copied.intact (hc : Copied h addr h' addr') (hl : Laid h) (hl' : Laid h')
    (he : (r, addr) ∈ h.table) (he' : (r, addr') ∈ h'.table) : Intact h h' r := by
  have haddr := hl.address_eq he
  have haddr' := hl'.address_eq he'
  refine ⟨?_, ?_, ?_, ?_, hc.read hl hl' he he'⟩
  · unfold Heap.count
    rw [haddr, haddr']
    exact congrArg Except.ok hc.countAt
  · rw [haddr, haddr']
    exact congrArg Except.ok hc.fieldsAt
  · rw [haddr, haddr']
    exact congrArg Except.ok hc.bitmapAt
  · rw [haddr, haddr']
    exact congrArg Except.ok hc.sizeAt

/-! ## Where objects end -/

theorem wordsOf_cons (h : Heap) (e : Ref × Nat) (es : List (Ref × Nat)) :
    h.wordsOf (e :: es) = h.footprintAt e.2 + h.wordsOf es := List.sum_cons

theorem Consecutive.eq_add_words (hc : Consecutive h x es y) : y = x + h.wordsOf es := by
  induction hc with
  | nil => rfl
  | cons _ ih => rw [wordsOf_cons, ← Nat.add_assoc, ← ih]

theorem Slid.eq_add_words {memory : Array UInt32} (hs : Slid h memory low es moved high) :
    high = low + h.wordsOf es := by
  induction hs with
  | nil => rfl
  | cons _ _ ih => rw [wordsOf_cons, ← Nat.add_assoc, ← ih]

/-- Each object stays with its words or goes with them. -/
theorem wordsOf_eq (h : Heap) (es : List (Ref × Nat)) :
    h.wordsOf es = h.wordsOf (es.filter fun e => !h.isDeadAt e.2) +
      (es.map fun e => h.deadWordsAt e.2).sum := by
  induction es with
  | nil => rfl
  | cons e es ih =>
      rw [wordsOf_cons, ih, List.map_cons, List.sum_cons]
      unfold deadWordsAt
      cases hdead : h.isDeadAt e.2 with
      | true =>
          rw [List.filter_cons_of_neg (by simp [hdead]), if_pos rfl]
          omega
      | false =>
          rw [List.filter_cons_of_pos (by simp [hdead]), wordsOf_cons, if_neg Bool.false_ne_true]
          omega

theorem Laid.kept_eq (hl : Laid h) : h.kept = h.table.filter fun e => ¬ h.Dead e.1 := by
  refine List.filter_congr fun e he => ?_
  rw [hl.isDeadAt_eq he, Bool.not_not, hl.decide_live (List.mem_map.2 ⟨e, he, rfl⟩)]

theorem Laid.top_compacted_add (hl : Laid h) : h.compacted.top + h.deadWords = h.top := by
  have hall : h.wordsOf h.table = h.wordsOf h.kept + h.deadWords := wordsOf_eq h h.table
  have htop := hl.consecutive.eq_add_words
  have htop' := hl.slid.eq_add_words
  omega

/-! ## Nothing to take away -/

theorem memory_ext (hcapacity : h'.capacity = h.capacity) (hword : ∀ x, h'.word x = h.word x) :
    h'.memory = h.memory := by
  refine Array.ext hcapacity fun i hi hi' => ?_
  rw [Array.getElem_eq_getD 0, Array.getElem_eq_getD 0]
  exact hword i

theorem Slid.of_consecutive (hs : Slid h h'.memory low es moved high)
    (hc : Consecutive h low es y) :
    moved = es ∧ high = y ∧ ∀ x, low ≤ x → x < y → h'.word x = h.word x := by
  induction hs with
  | nil =>
      cases hc
      exact ⟨rfl, rfl, fun x hlow hhigh => by omega⟩
  | @cons r x low high es moved hcopied _ ih =>
      cases hc with
      | cons hrest =>
          obtain ⟨rfl, rfl, hwords⟩ := ih hrest
          refine ⟨rfl, rfl, fun i hlow hhigh => ?_⟩
          by_cases hfirst : i < x + h.footprintAt x
          · have hword := hcopied (i - x) (by omega)
            rwa [Nat.add_sub_cancel' hlow] at hword
          · exact hwords i (Nat.le_of_not_lt hfirst) hhigh

/-- Where no object is dead, no scope holds what is not in use, and all words outside the objects
are 0, a compaction is only counted. -/
theorem Laid.compacted_of_live (hl : Laid h) (hlive : ∀ r ∈ h.inUse, 0 < h.countOf r)
    (hrooted : ∀ scope ∈ h.roots :: h.outer, ∀ r ∈ scope, r ∈ h.inUse)
    (hclear : ∀ x, x < start ∨ h.top ≤ x → h.word x = 0) (hnone : h.reclaimable = 0) :
    h.compacted = { h with compactions := h.compactions + 1 } := by
  have hkept : h.kept = h.table := by
    refine List.filter_eq_self.2 fun e he => ?_
    rw [hl.isDeadAt_eq he, Bool.not_not]
    exact decide_eq_true (hlive e.1 (List.mem_map.2 ⟨e, he, rfl⟩))
  have hslid := hl.slid
  rw [hkept] at hslid
  obtain ⟨htable, htop, hwords⟩ := hslid.of_consecutive hl.consecutive
  have hmemory : h.compacted.memory = h.memory := by
    refine memory_ext hl.capacity_compacted fun x => ?_
    by_cases hx : x < start ∨ h.top ≤ x
    · rw [hl.word_compacted (by rwa [htop]), hclear x hx]
    · exact hwords x (by omega) (by omega)
  have hfree : h.compacted.free = h.free := by
    have hdropped : h.dropped = [] := by
      rw [hl.dropped_eq]
      exact List.filter_eq_nil_iff.2 fun r hr => by simp [hlive r hr]
    have happend : h.compacted.free = h.dropped.reverse ++ h.free := rfl
    rw [happend, hdropped]
    rfl
  have hscope : ∀ scope ∈ h.roots :: h.outer,
      scope.filter (fun r => 0 < h.countOf r) = scope := fun scope hscope =>
    List.filter_eq_self.2 fun r hr => decide_eq_true (hlive r (hrooted scope hscope r hr))
  obtain ⟨hroots, houter⟩ := hl.scopes_compacted
  rw [hscope _ List.mem_cons_self] at hroots
  rw [List.map_congr_left fun scope hmem => hscope scope (List.mem_cons_of_mem _ hmem),
    List.map_id'] at houter
  have hfields : h.compacted = { h with
      memory := h.compacted.memory
      table := h.compacted.table
      top := h.compacted.top
      free := h.compacted.free
      roots := h.compacted.roots
      outer := h.compacted.outer
      compactions := h.compactions + 1 } := by
    rw [hnone]
    rfl
  rw [hfields, hmemory, htable, htop, hfree, hroots, houter]

/-! ## Compaction -/

theorem Ordered.compacted_compacted (ho : Ordered limits h) :
    h.compacted.compacted = { h.compacted with compactions := h.compacted.compactions + 1 } := by
  have hlive : ∀ r ∈ h.compacted.inUse, 0 < h.compacted.countOf r := by
    intro r hr
    rw [ho.laid.countOf_compacted]
    exact ho.laid.mem_inUse_compacted.1 hr
  exact ho.laid.compacted.compacted_of_live hlive ho.compacted.rooted
    (fun _ hx => ho.laid.word_compacted hx) rfl

theorem Ordered.recycled_compacted (ho : Ordered limits h) (hdead : h.Dead r) :
    h.compacted.free.count r = 1 ∧
      ∀ scope ∈ h.compacted.roots :: h.compacted.outer, r ∉ scope := by
  have hr := hdead.mem_inUse
  have hgone : r ∉ h.compacted.inUse := fun hmem =>
    Nat.ne_of_gt (ho.laid.mem_inUse_compacted.1 hmem) ((ho.laid.dead_iff hr).1 hdead)
  have hnumber := ho.compacted.numbered.mem_or_free_iff.2
    (ho.numbered.mem_or_free_iff.1 (.inl hr))
  have hfree := hnumber.resolve_left hgone
  exact ⟨List.count_eq_one_of_mem ho.compacted.numbered.apart.1 hfree,
    fun scope hscope hmem => hgone (ho.compacted.rooted scope hscope r hmem)⟩

theorem Ordered.compacts (ho : Ordered limits h) (ht : Tallied h) : Compacts h h.compacted := by
  have hl := ho.laid
  have hlive : ∀ scope ∈ h.roots :: h.outer, scope.filter (fun r => 0 < h.countOf r) =
      scope.filter fun r => ¬ h.Dead r := fun scope hscope =>
    List.filter_congr fun r hr => hl.decide_live (ho.rooted scope hscope r hr)
  obtain ⟨hroots, houter⟩ := hl.scopes_compacted
  constructor
  case inUse =>
    rw [hl.inUse_compacted]
    exact List.filter_congr fun r hr => hl.decide_live hr
  case intact =>
    intro r hr hnot
    obtain ⟨addr, he⟩ := mem_inUse.1 hr
    have hcount := Nat.pos_of_ne_zero fun hzero => hnot ((hl.dead_iff hr).2 hzero)
    obtain ⟨addr', he', hc⟩ := hl.copied_compacted he hcount
    exact hc.intact hl hl.compacted he he'
  case free =>
    have happend : h.compacted.free = h.dropped.reverse ++ h.free := rfl
    rw [happend, hl.dropped_eq]
    refine congrArg (fun gone => List.reverse gone ++ h.free) (List.filter_congr fun r hr => ?_)
    rw [hl.decide_live hr, decide_not, Bool.not_not]
  case roots => rw [hroots, hlive _ List.mem_cons_self]
  case outer =>
    rw [houter]
    exact List.map_congr_left fun scope hscope => hlive scope (List.mem_cons_of_mem _ hscope)
  case recycled => exact fun r hdead => ho.recycled_compacted hdead
  case top =>
    rw [← hl.kept_eq]
    exact hl.slid.eq_add_words
  case freed =>
    rw [show h.reclaimable = h.deadWords from ht]
    exact hl.top_compacted_add
  case reclaimable => rfl
  case compactions => rfl
  case limits => rfl
  case last => rfl
  case capacity => exact hl.capacity_compacted
  case again =>
    have hrun : Heap.run compact h.compacted =
        (.ok h.compacted.compacted.top, h.compacted.compacted) := rfl
    rw [hrun, ho.compacted_compacted]

/-- After any calls with any arguments, a compaction succeeds and leaves the heap without its dead
objects. -/
theorem compact_keeps_live_objects (limits : HeapLimits) (calls : List Call) :
    let h := (new limits).performed calls
    ∃ h', run compact h = (.ok h'.top, h') ∧ Compacts h h' := by
  intro h
  have ho : Ordered limits h := (Ordered.new limits).performed calls
  have ht : Tallied h := invariant_tallied.after_calls limits calls
  exact ⟨h.compacted, rfl, ho.compacts ht⟩

end Midend.Heap
