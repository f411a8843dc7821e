import Midend.Proofs.Heap.Compaction
/-!
# When an object can be made

Making an object compacts the heap first, where the object does not fit behind the others or where
much is waiting to be reclaimed (`prepared`).  As objects lie without gaps, a compaction leaves just
the words of the living objects below the top, so an object of some fields has room if and only if
it has room next to the living objects.  A number is missing if and only if all are in use then.

Nothing else makes it fail, and however it ends the living objects and the references to them in the
scopes stay (`make_fails_only_when_full`).
-/

namespace Midend.Heap

def liveWords (h : Heap) : Nat :=
  ((h.table.filter fun e => h.countAt e.2 ≠ 0).map fun e => h.sizeAt e.2 + 4).sum

/-- The heap in which an object of some words gets its number and its place. -/
def prepared (h : Heap) (words : Nat) : Heap :=
  if h.hasRoom words ∧ h.reclaimable ≤ h.capacity / 2 then h else h.compacted

/-- Every number that may be handed out stands in the table. -/
def NumbersInUse (h : Heap) : Prop := ∀ r : Ref, r ≠ 0 → r ≤ h.limits.maxRef → r ∈ h.inUse

/-- Another heap has the objects that are not dead, with all their words, and the references to them
in each scope. -/
structure Preserves (h h' : Heap) : Prop where
  intact : ∀ r ∈ h.inUse, ¬ h.Dead r → Intact h h' r
  scopes : List.Forall₂ (fun scope scope' => (scope.filter fun r => ¬ h.Dead r).Sublist scope')
    (h.roots :: h.outer) (h'.roots :: h'.outer)

/-- Another heap has a new object: its number was in no scope and not in the table, its count is 1,
its fields are 0, and it is a root of the innermost scope. -/
structure MadeNew (h h' : Heap) (r : Ref) (fields : Nat) (bitmap : UInt32) : Prop where
  unused : r ≠ 0 ∧ r ∉ h.inUse
  unrooted : ∀ scope ∈ h.roots :: h.outer, r ∉ scope
  inUse : h'.inUse = h.inUse ++ [r]
  count : h'.count r = .ok 1
  header : h'.fieldsAt <$> h'.address r = .ok fields ∧ h'.sizeAt <$> h'.address r = .ok fields ∧
    h'.bitmapAt <$> h'.address r = .ok bitmap
  read : ∀ offset < fields, h'.read r offset = .ok 0
  roots : h'.roots = h.roots ++ [r]
  outer : h'.outer = h.outer

variable {limits : HeapLimits} {h h' : Heap} {r : Ref} {fields words : Nat} {bitmap : UInt32}

/-! ## Room -/

theorem liveWords_eq (h : Heap) : h.liveWords = h.wordsOf h.kept := by
  unfold liveWords wordsOf kept
  have hfilter : (h.table.filter fun e => h.countAt e.2 ≠ 0) =
      h.table.filter fun e => !h.isDeadAt e.2 := by
    refine List.filter_congr fun e _ => ?_
    unfold isDeadAt
    rw [decide_not]
  rw [hfilter]
  exact congrArg List.sum (List.map_congr_left fun e _ => Nat.add_comm _ _)

theorem Laid.top_compacted_eq (hl : Laid h) : h.compacted.top = 1 + h.liveWords := by
  rw [liveWords_eq]
  exact hl.slid.eq_add_words

theorem Laid.hasRoom_prepared (hl : Laid h) (words : Nat) :
    (h.prepared words).hasRoom words = true ↔ 1 + h.liveWords + words ≤ h.capacity := by
  have htop := hl.top_compacted_eq
  have hle := hl.top_compacted_le
  have hcapacity := hl.capacity_compacted
  unfold prepared
  split
  · rename_i hready
    have hfits : h.top + words ≤ h.capacity := of_decide_eq_true hready.1
    exact iff_of_true hready.1 (by omega)
  · unfold hasRoom
    rw [decide_eq_true_iff, htop, hcapacity]

/-- Making room compacts at most, and fails where the words do not fit behind that. -/
theorem run_reserve (hl : Laid h) (words : Nat) : run (reserve words) h =
    if (h.prepared words).hasRoom words then (.ok (), h.prepared words)
    else (.error (.noRoom words (h.capacity - (1 + h.liveWords))), h.prepared words) := by
  have hcompact : run compact h = (.ok h.compacted.top, h.compacted) := rfl
  have hroom := hl.hasRoom_prepared words
  have htop := hl.top_compacted_eq
  have hcapacity := hl.capacity_compacted
  unfold reserve
  rw [run_bind_ok (run_get h)]
  by_cases hfits : h.hasRoom words = true
  · rw [if_neg (by simp [hfits])]
    by_cases hmany : h.capacity / 2 < h.reclaimable
    · have hprepared : h.prepared words = h.compacted := if_neg fun hready => by omega
      have hle := hl.top_compacted_le
      have hbefore : h.top + words ≤ h.capacity := of_decide_eq_true hfits
      rw [if_pos hmany, run_bind_ok hcompact, if_pos (hroom.2 (by omega)), hprepared]
      rfl
    · have hprepared : h.prepared words = h := if_pos ⟨hfits, Nat.le_of_not_lt hmany⟩
      rw [if_neg hmany, hprepared, if_pos hfits]
      rfl
  · have hprepared : h.prepared words = h.compacted := if_neg fun hready => hfits hready.1
    rw [if_pos (by simp [hfits]), run_bind_ok hcompact, run_bind_ok (run_get h.compacted),
      hprepared]
    by_cases hfits' : h.compacted.hasRoom words = true
    · rw [if_neg (by simp [hfits']), if_pos hfits']
      rfl
    · rw [if_pos (by simp [hfits']), if_neg hfits', htop, hcapacity]
      rfl

/-! ## Numbers -/

theorem newReference_cases (hn : Numbered h []) :
    (¬ NumbersInUse h ∧ ∃ r free last,
        run newReference h = (.ok r, { h with free := free, last := last }) ∧
          Numbered { h with free := free, last := last } [r]) ∨
      NumbersInUse h ∧ run newReference h = (.error (.numbersExhausted h.limits.maxRef), h) := by
  rcases newReference_spec hn with ⟨r, free, last, hrun, hnumbered⟩ | ⟨fault, hrun⟩
  · refine .inl ⟨fun hall => ?_, r, free, last, hrun, hnumbered⟩
    obtain ⟨hne, hle⟩ := (hnumbered.mem_iff r).1 List.mem_cons_self
    exact hnumbered.not_mem_inUse (hall r hne (UInt32.le_trans hle hnumbered.last_le))
  · obtain ⟨hnone, hmax, hfault⟩ : h.free = [] ∧ h.limits.maxRef ≤ h.last ∧
        fault = .numbersExhausted h.limits.maxRef := by
      unfold newReference at hrun
      rw [run_bind_ok (run_get h)] at hrun
      cases hfree : h.free with
      | cons r free =>
          rw [hfree] at hrun
          exact nomatch (Prod.mk.inj hrun).1
      | nil =>
          rw [hfree] at hrun
          dsimp only at hrun
          split at hrun
          · rename_i hmax
            exact ⟨rfl, hmax, (Except.error.inj (Prod.mk.inj hrun).1).symm⟩
          · exact nomatch (Prod.mk.inj hrun).1
    refine .inr ⟨fun r hne hle => ?_, by rw [hrun, hfault]⟩
    have hnumber := hn.mem_or_free_iff.2 ⟨hne, UInt32.le_trans hle hmax⟩
    rw [hnone] at hnumber
    exact hnumber.resolve_right List.not_mem_nil

/-! ## What stays -/

theorem Intact.refl (h : Heap) (r : Ref) : Intact h h r := ⟨rfl, rfl, rfl, rfl, fun _ => rfl⟩

theorem Intact.trans {h'' : Heap} (hi : Intact h h' r) (hi' : Intact h' h'' r) :
    Intact h h'' r where
  count := hi'.count.trans hi.count
  fields := hi'.fields.trans hi.fields
  bitmap := hi'.bitmap.trans hi.bitmap
  size := hi'.size.trans hi.size
  read offset := (hi'.read offset).trans (hi.read offset)

theorem Preserves.refl (h : Heap) : Preserves h h where
  intact r _ _ := .refl h r
  scopes := List.forall₂_same.2 fun _ _ => List.filter_sublist

theorem Compacts.preserves (hc : Compacts h h') : Preserves h h' where
  intact := hc.intact
  scopes := by
    rw [hc.roots, hc.outer]
    refine .cons (List.Sublist.refl _) (List.forall₂_map_right_iff.2 ?_)
    exact List.forall₂_same.2 fun scope _ => List.Sublist.refl _

theorem Ordered.preserves_prepared (ho : Ordered limits h) (ht : Tallied h) (words : Nat) :
    Preserves h (h.prepared words) := by
  unfold prepared
  split
  · exact .refl h
  · exact (ho.compacts ht).preserves

theorem Ordered.prepared (ho : Ordered limits h) (words : Nat) :
    Ordered limits (h.prepared words) := by
  unfold Heap.prepared
  split
  · exact ho
  · exact ho.compacted

theorem Preserves.withRoot {before : Heap} (hp : Preserves h before)
    (hintact : ∀ x ∈ before.inUse, Intact before h' x)
    (hlive : ∀ x ∈ h.inUse, ¬ h.Dead x → x ∈ before.inUse) (hroots : h'.roots = before.roots ++ [r])
    (houter : h'.outer = before.outer) : Preserves h h' where
  intact x hx hdead := (hp.intact x hx hdead).trans (hintact x (hlive x hx hdead))
  scopes := by
    obtain ⟨hinner, hrest⟩ := List.forall₂_cons.1 hp.scopes
    rw [hroots, houter]
    exact .cons (hinner.trans (List.sublist_append_left _ _)) hrest

theorem Laid.mem_inUse_prepared (hl : Laid h) (words : Nat) {x : Ref} (hx : x ∈ h.inUse)
    (hdead : ¬ h.Dead x) : x ∈ (h.prepared words).inUse := by
  unfold prepared
  split
  · exact hx
  · exact hl.mem_inUse_compacted.2 (Nat.pos_of_ne_zero fun hzero =>
      hdead ((hl.dead_iff hx).2 hzero))

/-! ## The new object -/

section Place

variable {free : List Ref} {last : Ref}

theorem Ordered.intact_place (ho : Ordered limits h)
    (hn : Numbered { h with free := free, last := last } [r])
    (hfits : h.top + headerWords + fields ≤ h.capacity) (hfields : fields < UInt32.size)
    {x : Ref} (hx : x ∈ h.inUse) :
    Intact h (({ h with free := free, last := last } : Heap).place r fields bitmap) x := by
  obtain ⟨addr, he⟩ := mem_inUse.1 hx
  have hl : Laid { h with free := free, last := last } :=
    ho.laid.congr rfl rfl rfl (fun _ _ => rfl) fun _ _ => rfl
  have hl' : Laid (({ h with free := free, last := last } : Heap).place r fields bitmap) :=
    (ho.place hn hfits hfields).laid
  have hcopied : Copied h addr
      (({ h with free := free, last := last } : Heap).place r fields bitmap) addr :=
    hl.copied_place hfits r bitmap he
  exact hcopied.intact ho.laid hl' he (mem_table_place he)

theorem Ordered.madeNew (ho : Ordered limits h)
    (hn : Numbered { h with free := free, last := last } [r])
    (hfits : h.top + headerWords + fields ≤ h.capacity) (hfields : fields < UInt32.size) :
    MadeNew h (({ h with free := free, last := last } : Heap).place r fields bitmap) r fields
      bitmap := by
  have hunused : r ∉ h.inUse := hn.not_mem_inUse
  have hunrooted : ∀ scope ∈ h.roots :: h.outer, r ∉ scope := fun scope hscope hmem =>
    hunused (ho.rooted scope hscope r hmem)
  set before : Heap := { h with free := free, last := last } with hbefore
  have hl' : Laid (before.place r fields bitmap) := (ho.place hn hfits hfields).laid
  have he : (r, h.top) ∈ (before.place r fields bitmap).table := new_mem_table_place
  have haddr : (before.place r fields bitmap).address r = .ok h.top := hl'.address_eq he
  have hheader : ∀ i < headerWords, (before.place r fields bitmap).word (h.top + i) =
      [1, UInt32.ofNat fields, bitmap, UInt32.ofNat fields].getD i 0 := fun i hi =>
    word_place_header (h := before) hfits hi
  have hsize : (UInt32.ofNat fields).toNat = fields := UInt32.toNat_ofNat_of_lt' hfields
  have hfieldsAt : (before.place r fields bitmap).fieldsAt h.top = fields :=
    (congrArg UInt32.toNat (hheader 1 (by decide))).trans hsize
  refine ⟨⟨((hn.mem_iff r).1 List.mem_cons_self).1, hunused⟩, hunrooted, ?_, ?_, ⟨?_, ?_, ?_⟩, ?_,
    ?_, rfl⟩
  · exact List.map_append
  · unfold Heap.count
    rw [haddr]
    exact congrArg Except.ok (hheader 0 (by decide))
  · rw [haddr]
    exact congrArg Except.ok hfieldsAt
  · rw [haddr]
    exact congrArg Except.ok ((congrArg UInt32.toNat (hheader 3 (by decide))).trans hsize)
  · rw [haddr]
    exact congrArg Except.ok (hheader 2 (by decide))
  · intro offset hoffset
    unfold Heap.read
    rw [addressOfField_eq hl' he, hfieldsAt, if_neg (Nat.not_le_of_lt hoffset)]
    exact congrArg Except.ok (word_place_field (h := before) hfits hoffset)
  · exact roots_place (h := before) (hunrooted h.roots List.mem_cons_self)

end Place

/-! ## Making an object -/

inductive Ends (h : Heap) (fields : Nat) (bitmap : UInt32) :
    Except HeapFault Ref → Heap → Prop where
  /-- The object is larger than any memory; nothing has happened. -/
  | huge {requested available : Nat} (hlarge : UInt32.size ≤ fields) :
      Ends h fields bitmap (.error (.noRoom requested available)) h
  | full {available : Nat} (hfull : h.capacity < 1 + h.liveWords + (headerWords + fields)) :
      Ends h fields bitmap (.error (.noRoom (headerWords + fields) available))
        (h.prepared (headerWords + fields))
  | exhausted (hroom : 1 + h.liveWords + (headerWords + fields) ≤ h.capacity)
      (hall : NumbersInUse (h.prepared (headerWords + fields))) :
      Ends h fields bitmap (.error (.numbersExhausted h.limits.maxRef))
        (h.prepared (headerWords + fields))
  | made {r : Ref} {h' : Heap} (hroom : 1 + h.liveWords + (headerWords + fields) ≤ h.capacity)
      (hsome : ¬ NumbersInUse (h.prepared (headerWords + fields)))
      (hnew : MadeNew (h.prepared (headerWords + fields)) h' r fields bitmap)
      (hintact : ∀ x ∈ (h.prepared (headerWords + fields)).inUse,
        Intact (h.prepared (headerWords + fields)) h' x) :
      Ends h fields bitmap (.ok r) h'

theorem marksBeyond_eq_false (hbits : ∀ i, fields ≤ i → bitmap.toNat.testBit i = false) :
    marksBeyond bitmap fields = false := by
  have hzero : bitmap.toNat >>> fields = 0 := by
    refine Nat.eq_of_testBit_eq fun i => ?_
    rw [Nat.testBit_shiftRight, hbits _ (Nat.le_add_right fields i), Nat.zero_testBit]
  unfold marksBeyond
  rw [hzero]
  simp

theorem Ordered.make_ends (ho : Ordered limits h)
    (hbits : ∀ i, fields ≤ i → bitmap.toNat.testBit i = false) :
    Ends h fields bitmap (Heap.run (Heap.make fields bitmap) h).1
      (Heap.run (Heap.make fields bitmap) h).2 := by
  have hroom := ho.laid.hasRoom_prepared (headerWords + fields)
  unfold Heap.make
  rw [if_neg (by simp [marksBeyond_eq_false hbits]), run_bind_ok (run_get h)]
  by_cases hlarge : UInt32.size ≤ fields
  · rw [if_pos hlarge]
    exact .huge hlarge
  rw [if_neg hlarge]
  have hreserve := run_reserve ho.laid (headerWords + fields)
  by_cases hfits : (h.prepared (headerWords + fields)).hasRoom (headerWords + fields) = true
  · rw [if_pos hfits] at hreserve
    have hlow := hroom.1 hfits
    have htop : (h.prepared (headerWords + fields)).top + (headerWords + fields) ≤
        (h.prepared (headerWords + fields)).capacity := of_decide_eq_true hfits
    have hready := ho.prepared (headerWords + fields)
    rw [run_bind_ok hreserve]
    rcases newReference_cases hready.numbered with
      ⟨hsome, r, free, last, hrun, hn⟩ | ⟨hall, hrun⟩
    · have hsized := Nat.lt_of_not_le hlarge
      rw [run_bind_ok hrun, run_bind_ok (run_modify _ _)]
      exact .made hlow hsome (hready.madeNew hn (by omega) hsized) fun x hx =>
        hready.intact_place hn (by omega) hsized hx
    · rw [hready.limits_eq, ← ho.limits_eq] at hrun
      rw [run_bind_error hrun]
      exact .exhausted hlow hall
  · rw [if_neg hfits] at hreserve
    rw [run_bind_error hreserve]
    exact .full (Nat.lt_of_not_le fun hle => hfits (hroom.2 hle))

theorem Ordered.preserves_of_ends (ho : Ordered limits h) (ht : Tallied h)
    {ended : Except HeapFault Ref} (hends : Ends h fields bitmap ended h') : Preserves h h' := by
  cases hends with
  | huge => exact .refl h
  | full => exact ho.preserves_prepared ht _
  | exhausted => exact ho.preserves_prepared ht _
  | made _ _ hnew hintact =>
      exact (ho.preserves_prepared ht _).withRoot hintact
        (fun x hx hdead => ho.laid.mem_inUse_prepared _ hx hdead) hnew.roots hnew.outer

/-- After any calls on a memory of at most `2 ^ 32` words, making an object whose bitmap marks no
word beyond it fails for want of room if and only if the living objects and the new one together are
too large, and for want of a number if and only if all are in use behind the compaction that it
starts with, if any.  Otherwise it succeeds with a number that nothing has and nothing holds there.
In any case the living objects stay and the scopes hold them as before. -/
theorem make_fails_only_when_full (limits : HeapLimits) (calls : List Call) {fields : Nat}
    {bitmap : UInt32} (hcapacity : limits.capacity ≤ 2 ^ 32)
    (hbits : ∀ i, fields ≤ i → bitmap.toNat.testBit i = false) :
    let h := (new limits).performed calls
    let ready := h.prepared (headerWords + fields)
    let made := run (make fields bitmap) h
    ((∃ requested available, made.1 = .error (.noRoom requested available)) ↔
        limits.capacity < 1 + h.liveWords + 4 + fields) ∧
      (1 + h.liveWords + 4 + fields ≤ limits.capacity →
        (made.1 = .error (.numbersExhausted limits.maxRef) ↔ NumbersInUse ready) ∧
        (¬ NumbersInUse ready →
          ∃ r, made.1 = .ok r ∧ MadeNew ready made.2 r fields bitmap)) ∧
      Preserves h made.2 := by
  intro h ready made
  have ho : Ordered limits h := (Ordered.new limits).performed calls
  have ht : Tallied h := invariant_tallied.after_calls limits calls
  have hends : Ends h fields bitmap made.1 made.2 := ho.make_ends hbits
  have hlimits : h.limits = limits := ho.limits_eq
  have hwords : h.capacity = limits.capacity := ho.capacity_eq
  have hheader : headerWords = 4 := rfl
  have hsize : UInt32.size = 2 ^ 32 := rfl
  refine ⟨?_, fun hroom => ?_, ho.preserves_of_ends ht hends⟩
  · generalize made.1 = ended, made.2 = h' at hends
    cases hends with
    | huge hlarge => exact iff_of_true ⟨_, _, rfl⟩ (by omega)
    | full hfull => exact iff_of_true ⟨_, _, rfl⟩ (by omega)
    | exhausted hroom _ => exact iff_of_false (by rintro ⟨_, _, hfault⟩; cases hfault) (by omega)
    | made hroom _ _ _ => exact iff_of_false (by rintro ⟨_, _, hfault⟩; cases hfault) (by omega)
  · generalize made.1 = ended, made.2 = h' at hends
    cases hends with
    | huge hlarge => omega
    | full hfull => omega
    | exhausted _ hall =>
        rw [hlimits]
        exact ⟨iff_of_true rfl hall, fun hsome => absurd hall hsome⟩
    | made _ hsome hnew _ =>
        exact ⟨iff_of_false (fun hfault => nomatch hfault) hsome, fun _ => ⟨_, rfl, hnew⟩⟩

/-- A third object fits only behind the compaction that takes the first one away, and gets the
number of the first one again. -/
theorem make_fails_only_when_full_recycled :
    let limits : HeapLimits := { capacity := 32, maxRef := 8 }
    let calls : List Call := [.request .openScope, .request (.makePlain 10), .request .closeScope,
      .request (.makePlain 10)]
    let h := (new limits).performed calls
    limits.capacity ≤ 2 ^ 32 ∧ (∀ i, 10 ≤ i → (0 : UInt32).toNat.testBit i = false) ∧
      h.inUse = [1, 2] ∧ h.Dead 1 ∧ h.liveWords = 14 ∧
      (h.prepared (headerWords + 10)).inUse = [2] ∧
      let made := run (make 10 0) h
      made.1 = .ok 1 ∧ MadeNew (h.prepared (headerWords + 10)) made.2 1 10 0 ∧
        Preserves h made.2 := by
  intro limits calls h
  have hcapacity : limits.capacity ≤ 2 ^ 32 := by decide
  have hbits : ∀ i, 10 ≤ i → (0 : UInt32).toNat.testBit i = false := fun i _ => Nat.zero_testBit i
  have hlive : h.liveWords = 14 := by decide +kernel
  have hready : (h.prepared (headerWords + 10)).inUse = [2] := by decide +kernel
  have hunused : (3 : Ref) ∉ (h.prepared (headerWords + 10)).inUse := by
    rw [hready]
    decide
  have hmax : (h.prepared (headerWords + 10)).limits.maxRef = 8 := by decide +kernel
  have hsome : ¬ NumbersInUse (h.prepared (headerWords + 10)) := fun hall =>
    hunused (hall 3 (by decide) (by rw [hmax]; decide))
  obtain ⟨-, hends, hkeeps⟩ := make_fails_only_when_full limits calls hcapacity hbits
  have hroom : 1 + h.liveWords + 4 + 10 ≤ 32 := by omega
  obtain ⟨r, hrun, hnew⟩ := (hends hroom).2 hsome
  have hfirst : (run (make 10 0) h).1.toOption = some 1 := by decide +kernel
  obtain rfl : r = 1 := by
    rw [hrun] at hfirst
    exact Option.some.inj hfirst
  exact ⟨hcapacity, hbits, by decide +kernel, by decide +kernel, hlive, hready, hrun, hnew, hkeeps⟩

end Midend.Heap
