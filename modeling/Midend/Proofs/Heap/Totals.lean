import Midend.Proofs.Heap.Reclaiming
/-!
# A total that never stops at zero

When an object comes back to life its words are taken from the total of the words to reclaim, and
this subtraction stops at zero.  It never has to: before every change of a count, also in the middle
of a call, the total is the sum over the dead objects, so it covers the words of each of them.

That nothing is cut off at zero can be seen from outside.  With some words more in the total
(`credit`) a call does the same to everything else and leaves as many words more
(`reclaimable_exact`), which it would not if it had stopped at zero anywhere on its way.
-/

namespace Midend.Heap

/-- The heap with some words more in its total of the words to reclaim. -/
def credit (h : Heap) (words : Nat) : Heap := { h with reclaimable := h.reclaimable + words }

/-- The call does not set the total to zero: it neither compacts, as making an object may, nor
starts over. -/
def Call.KeepsTotal : Call → Prop
  | .request (.make ..) | .request (.makePlain _) | .request .compact | .reset => False
  | .request (.read ..) | .request (.write ..) | .request .openScope | .request .closeScope
  | .request (.hold _) | .request (.letGo _) | .addToCount .. => True

def Counted (h : Heap) : Prop := Laid h ∧ Tallied h

/-- The activity keeps the total right and moves it by the same amount, however large it is. -/
structure Unclamped {α : Type} (act : Action α) : Prop where
  keeps : Keeps Counted act
  credit : ∀ (h : Heap) (words : Nat), Counted h →
    run act (h.credit words) = ((run act h).1, (run act h).2.credit words)

variable {α β : Type} {h : Heap} {r : Ref} {addr words : Nat}

theorem Tallied.footprintAt_le (ht : Tallied h) (he : (r, addr) ∈ h.table)
    (hdead : h.countAt addr = 0) : h.footprintAt addr ≤ h.reclaimable := by
  have hshare : h.deadWordsAt addr = h.footprintAt addr := by
    unfold deadWordsAt isDeadAt
    rw [if_pos (decide_eq_true hdead)]
  rw [← hshare, show h.reclaimable = h.deadWords from ht]
  exact List.le_sum_of_mem (List.mem_map.2 ⟨(r, addr), he, rfl⟩)

theorem deadWords_eq (h : Heap) :
    h.deadWords =
      ((h.table.filter fun e => h.countAt e.2 = 0).map fun e => h.sizeAt e.2 + 4).sum := by
  unfold deadWords
  induction h.table with
  | nil => rfl
  | cons e es ih =>
      have hwords : h.deadWordsAt e.2 = if h.countAt e.2 = 0 then h.sizeAt e.2 + 4 else 0 := by
        unfold deadWordsAt isDeadAt footprintAt
        simp only [decide_eq_true_eq, headerWords, Nat.add_comm]
      rw [List.map_cons, List.sum_cons, List.filter_cons, ih, hwords]
      by_cases hdead : h.countAt e.2 = 0
      · rw [if_pos hdead, if_pos (decide_eq_true hdead), List.map_cons, List.sum_cons]
      · rw [if_neg hdead, if_neg (by simpa using hdead), Nat.zero_add]

theorem Laid.credit (hl : Laid h) (words : Nat) : Laid (h.credit words) :=
  hl.congr rfl rfl rfl (fun _ _ => rfl) fun _ _ => rfl

/-! ## Activities that never stop at zero -/

theorem reclaimableAfter_credit {reclaimable footprint : Nat} {before now : UInt32}
    (hcovered : before = 0 → footprint ≤ reclaimable) (words : Nat) :
    reclaimableAfter (reclaimable + words) footprint before now =
      reclaimableAfter reclaimable footprint before now + words := by
  unfold reclaimableAfter
  split
  · omega
  · split
    · rename_i hrevived
      have hle := hcovered hrevived.1
      omega
    · rfl

theorem unclamped_changeCount (r : Ref) (delta : Int) : Unclamped (changeCount r delta) where
  keeps h hc :=
    ⟨(onlyCounts_changeCount r delta h hc.1).laid, tallied_changeCount hc.1 hc.2 r delta⟩
  credit h words hc := by
    obtain ⟨hl, ht⟩ := hc
    unfold changeCount
    rcases address_cases hl r with ⟨-, addr, he, haddr⟩ | ⟨-, haddr⟩
    · have haddr' : (h.credit words).address r = .ok addr := haddr
      have hsum : reclaimableAfter (h.reclaimable + words) (h.footprintAt addr) (h.countAt addr)
          (shiftCount (h.countAt addr) delta) = reclaimableAfter h.reclaimable (h.footprintAt addr)
          (h.countAt addr) (shiftCount (h.countAt addr) delta) + words :=
        reclaimableAfter_credit (ht.footprintAt_le he) words
      rw [run_inspect_ok haddr, run_inspect_ok haddr', run_bind_ok (run_get h),
        run_bind_ok (run_get _), run_bind_ok (run_set h _), run_bind_ok (run_set _ _)]
      refine Prod.ext rfl ?_
      exact congrArg (fun total => { h.setWord addr (shiftCount (h.countAt addr) delta) with
        reclaimable := total }) hsum
    · have haddr' : (h.credit words).address r = .error (.unknownReference r) := haddr
      rw [run_inspect_error haddr, run_inspect_error haddr']

theorem unclamped_pure (a : α) : Unclamped (pure a) := ⟨keeps_pure a, fun _ _ _ => rfl⟩

theorem unclamped_inspect {look : Heap → Except HeapFault α}
    (hlook : ∀ h words, look (h.credit words) = look h) : Unclamped (inspect look) where
  keeps := keeps_inspect look
  credit h words _ := by rw [run_inspect, run_inspect, hlook]

theorem Unclamped.bind {act : Action α} {next : α → Action β} (hact : Unclamped act)
    (hnext : ∀ a, Unclamped (next a)) : Unclamped (act >>= next) where
  keeps := hact.keeps.bind fun a => (hnext a).keeps
  credit h words hc := by
    have hfirst := hact.keeps h hc
    rw [run_bind, run_bind, hact.credit h words hc]
    cases hrun : run act h with
    | mk ended h₁ =>
        rw [hrun] at hfirst
        cases ended with
        | ok a => exact (hnext a).credit h₁ words hfirst
        | error fault => rfl

/-- Looking at the length of the table is no look at the total. -/
theorem unclamped_length {next : Nat → Action α} (hnext : ∀ n, Unclamped (next n)) :
    Unclamped (get >>= fun h : Heap => next h.table.length) where
  keeps := keeps_get.bind fun h => (hnext h.table.length).keeps
  credit h words hc := by
    rw [run_bind_ok (run_get h), run_bind_ok (run_get _)]
    exact (hnext h.table.length).credit h words hc

theorem unclamped_giveUp (delta : Int) (children : List Ref) (walk : Walk) :
    Unclamped (giveUp delta walk children) := by
  induction children generalizing walk with
  | nil => exact unclamped_pure walk
  | cons child rest ih =>
      unfold giveUp
      split
      · exact ih walk
      · exact (unclamped_changeCount child delta).bind fun died => ih _

theorem unclamped_drain (delta : Int) (turns : Nat) (walk : Walk) :
    Unclamped (drain delta turns walk) := by
  induction turns generalizing walk with
  | zero => exact unclamped_pure ()
  | succ turns ih =>
      unfold drain
      split
      · exact unclamped_pure ()
      · exact (unclamped_inspect fun _ _ => rfl).bind fun references =>
          (unclamped_giveUp delta references _).bind fun walk => ih walk

theorem unclamped_addToCount (root target : Ref) (delta : Int) (structural : Bool) :
    Unclamped (addToCount root target delta structural) := by
  unfold addToCount
  split
  · exact unclamped_pure ()
  refine Unclamped.bind (unclamped_inspect fun _ _ => rfl) fun dead => ?_
  split
  · exact unclamped_pure ()
  refine (unclamped_changeCount root delta).bind fun died => ?_
  split
  · exact unclamped_length fun n =>
      unclamped_drain delta (n + 1) { queue := [root], explored := [root, target] }
  · exact unclamped_pure ()

theorem unclamped_letGoAll (rs : List Ref) : Unclamped (letGoAll rs) := by
  induction rs with
  | nil => exact unclamped_pure ()
  | cons r rs ih => exact (unclamped_addToCount r 0 (-1) true).bind fun _ => ih

theorem unclamped_moveCount (r : Ref) (traced : Bool) (old value : UInt32) :
    Unclamped (moveCount r traced old value) := by
  unfold moveCount
  split
  · exact (unclamped_addToCount value r 1 true).bind fun _ => unclamped_addToCount old r (-1) true
  · exact unclamped_pure ()

/-! ## Calls -/

theorem Counted.withScopes (hc : Counted h) (roots : List Ref) (outer : List (List Ref)) :
    Counted { h with roots := roots, outer := outer } :=
  ⟨hc.1.congr rfl rfl rfl (fun _ _ => rfl) fun _ _ => rfl, hc.2⟩

theorem Counted.closeScope_credit (hc : Counted h) (words : Nat) :
    (run closeScope (h.credit words)).2 = (run closeScope h).2.credit words := by
  unfold closeScope
  rw [run_bind_ok (run_get h), run_bind_ok (run_get _)]
  have hsame : (h.credit words).outer = h.outer := rfl
  rw [hsame]
  cases houter : h.outer with
  | nil => rfl
  | cons scope outer =>
      have hcredit := (unclamped_letGoAll h.roots).credit _ words (hc.withScopes scope outer)
      exact congrArg Prod.snd hcredit

/-- Holding an object looks at its number and at the roots only, before it counts. -/
theorem Counted.hold_credit (hc : Counted h) (r : Ref) (words : Nat) :
    (run (hold r) (h.credit words)).2 = (run (hold r) h).2.credit words := by
  have hrooted := hc.withScopes (h.roots ++ [r]) h.outer
  unfold hold
  by_cases hzero : r = 0
  · rw [if_pos hzero]
    rfl
  rw [if_neg hzero]
  rcases address_cases hc.1 r with ⟨-, addr, -, haddr⟩ | ⟨-, haddr⟩
  · have haddr' : (h.credit words).address r = .ok addr := haddr
    rw [run_inspect_ok haddr, run_inspect_ok haddr', run_bind_ok (run_get h),
      run_bind_ok (run_get _)]
    change (run (if !h.roots.contains r then _ else _) _).2 = _
    split
    · exact congrArg Prod.snd ((unclamped_addToCount r 0 1 false).credit _ words hrooted)
    · rfl
  · have haddr' : (h.credit words).address r = .error (.unknownReference r) := haddr
    rw [run_inspect_error haddr, run_inspect_error haddr']

theorem Counted.letGo_credit (hc : Counted h) (r : Ref) (words : Nat) :
    (run (letGo r) (h.credit words)).2 = (run (letGo r) h).2.credit words := by
  have hunrooted := hc.withScopes (h.roots.filter (· ≠ r)) h.outer
  unfold letGo
  by_cases hzero : r = 0
  · rw [if_pos hzero]
    rfl
  rw [if_neg hzero]
  rcases address_cases hc.1 r with ⟨-, addr, -, haddr⟩ | ⟨-, haddr⟩
  · have haddr' : (h.credit words).address r = .ok addr := haddr
    rw [run_inspect_ok haddr, run_inspect_ok haddr', run_bind_ok (run_modify _ h),
      run_bind_ok (run_modify _ _)]
    exact congrArg Prod.snd ((unclamped_addToCount r 0 (-1) true).credit _ words hunrooted)
  · have haddr' : (h.credit words).address r = .error (.unknownReference r) := haddr
    rw [run_inspect_error haddr, run_inspect_error haddr']

theorem Counted.write_credit (hc : Counted h) (r : Ref) (offset : Nat) (value : UInt32)
    (words : Nat) : (run (write r offset value) (h.credit words)).2 =
      (run (write r offset value) h).2.credit words := by
  obtain ⟨hl, ht⟩ := hc
  have hl' := hl.credit words
  rcases address_cases hl r with ⟨-, addr, he, -⟩ | ⟨-, haddr⟩
  · have hfield := addressOfField_eq hl he offset
    by_cases hoffset : h.fieldsAt addr ≤ offset
    · rw [if_pos hoffset] at hfield
      have hfield' : (h.credit words).addressOfField r offset = _ := hfield
      rw [run_write_of_no_field value hfield, run_write_of_no_field value hfield']
    have hlt := Nat.lt_of_not_le hoffset
    by_cases hvalue : Storable h addr offset value
    · have hsize := hl.fieldsAt_lt he hlt
      have hstored : Counted (h.setWord (addr + headerWords + offset) value) :=
        ⟨hl.setWord he (writable_field h _ hsize) value, tallied_setField hl he hsize ht value⟩
      rw [run_write hl he hlt hvalue, run_write (h := h.credit words) hl' he hlt hvalue]
      exact congrArg Prod.snd ((unclamped_moveCount r _ _ value).credit _ words hstored)
    · rw [run_write_of_not_storable hl he hlt hvalue,
        run_write_of_not_storable (h := h.credit words) hl' he hlt hvalue]
  · have hfield : h.addressOfField r offset = .error (.unknownReference r) := by
      unfold addressOfField
      rw [haddr]
      rfl
    have hfield' : (h.credit words).addressOfField r offset = _ := hfield
    rw [run_write_of_no_field value hfield, run_write_of_no_field value hfield']

/-- No call stops at zero: with more in the total before it there is as much more behind it. -/
theorem Counted.perform_credit (hc : Counted h) {call : Call} (hkeeps : call.KeepsTotal)
    (words : Nat) : (h.credit words).perform call = (h.perform call).credit words := by
  cases call with
  | addToCount root target delta structural =>
      exact congrArg Prod.snd
        ((unclamped_addToCount root target delta structural).credit h words hc)
  | reset => exact hkeeps.elim
  | request q =>
      cases q with
      | make fields bitmap => exact hkeeps.elim
      | makePlain fields => exact hkeeps.elim
      | read r offset => rfl
      | write r offset value => exact hc.write_credit r offset value words
      | openScope => rfl
      | closeScope => exact hc.closeScope_credit words
      | compact => exact hkeeps.elim
      | hold r => exact hc.hold_credit r words
      | letGo r => exact hc.letGo_credit r words

/-! ## After any calls -/

/-- After any calls with any arguments, whether they succeeded or failed, the total of the words to
reclaim is the sum over the entries of the table whose count is zero.  So it covers each of them,
and no change of a count in the next call brings it down to zero before it should be. -/
theorem reclaimable_exact (limits : HeapLimits) (calls : List Call) :
    let h := (new limits).performed calls
    h.reclaimable =
        ((h.table.filter fun e => h.countAt e.2 = 0).map fun e => h.sizeAt e.2 + 4).sum ∧
      (∀ r addr, h.address r = .ok addr → h.countAt addr = 0 →
        h.footprintAt addr ≤ h.reclaimable) ∧
      ∀ call : Call, call.KeepsTotal → ∀ words,
        (h.credit words).perform call = (h.perform call).credit words := by
  intro h
  have hl : Laid h := ((Ordered.new limits).performed calls).laid
  have ht : Tallied h := invariant_tallied.after_calls limits calls
  refine ⟨ht.trans (deadWords_eq h), fun r addr haddr hdead => ?_, fun call hkeeps words => ?_⟩
  · exact ht.footprintAt_le (mem_table_of_address haddr) hdead
  · exact Counted.perform_credit ⟨hl, ht⟩ hkeeps words

/-- A field of an object in use holds an object that has died, and then that object comes back to
life by a write to the field. -/
theorem reclaimable_exact_revived :
    let calls : List Call := [.request (.make 1 1), .request .openScope, .request (.makePlain 2),
      .request .closeScope]
    let h := (new { capacity := 64, maxRef := 8 }).performed calls
    let write : Call := .request (.write 1 0 2)
    h.reclaimable = 6 ∧ (h.perform write).reclaimable = 0 ∧ write.KeepsTotal ∧
      ((h.credit 3).perform write).reclaimable = 3 := by
  intro calls h write
  have hdone : (h.perform write).reclaimable = 0 := by decide +kernel
  have hcredit := (reclaimable_exact { capacity := 64, maxRef := 8 } calls).2.2 write trivial 3
  refine ⟨by decide +kernel, hdone, trivial, ?_⟩
  exact (congrArg reclaimable hcredit).trans (congrArg (· + 3) hdone)

end Midend.Heap
