import Midend.Proofs.Heap.Discipline
import Midend.Proofs.Heap.Losses
import Mathlib.Data.Fintype.EquivFin
import Mathlib.Order.RelClasses
/-!
# Where counts are exact

In every state of a disciplined run the count of an object is the number of its holders and
the counts that releases have lost on the way (`lostOver`), until a count reaches the
greatest one that fits in its word (`Saturated`).

So counts are exact as long as nothing has been lost, and then every object that no scope and
no cycle reaches waits to be reclaimed.  When the fields of dying objects hold an object
twice, one of the two counts is lost, and the object stays for good.
-/

namespace Midend.Heap

open Relation

/-! ## What a request loses -/

/-- The counts that are lost when one count is taken from each object of a list. -/
def lostByLettingGo (h : Heap) : List Ref → Ref → Nat
  | [], _ => 0
  | r :: rs, x =>
    h.lostByRelease r 0 x + lostByLettingGo (run (addToCount r 0 (-1) true) h).2 rs x

def lostByWrite (h : Heap) (r : Ref) (offset : Nat) (value : UInt32) (x : Ref) : Nat :=
  match h.addressOfField r offset, h.tracesField r offset with
  | .ok addr, .ok true =>
    if h.word addr = value then 0
    else lostByRelease (run (addToCount value r 1 true) (h.setWord addr value)).2 (h.word addr) r x
  | _, _ => 0

def lostBy (h : Heap) : Request → Ref → Nat
  | .write r offset value, x => h.lostByWrite r offset value x
  | .closeScope, x =>
    match h.outer with
    | [] => 0
    | scope :: outer => lostByLettingGo { h with roots := scope, outer := outer } h.roots x
  | .letGo r, x => lostByRelease { h with roots := h.roots.filter (· ≠ r) } r 0 x
  | _, _ => 0

def lostOver (h : Heap) : List Request → Ref → Nat
  | [], _ => 0
  | request :: rest, x => h.lostBy request x + lostOver (h.serve request) rest x

/-- Some count is the greatest that fits in its word, so it cannot be raised. -/
def Saturated (h : Heap) : Prop := ∃ r ∈ h.inUse, h.countOf r = 2 ^ 32 - 1

-- through the objects in use, not through all references
instance (h : Heap) : Decidable h.Saturated :=
  List.decidableBEx (fun r => h.countOf r = 2 ^ 32 - 1) h.inUse

variable {h h' : Heap} {extra : Ref → Nat} {r x : Ref} {addr offset : Nat} {value old : UInt32}

theorem lostByRelease_zero (h : Heap) (target x : Ref) : h.lostByRelease 0 target x = 0 := by
  have hceased : h.ceased 0 target x = 0 := Nat.sub_self _
  unfold lostByRelease
  rw [hceased, Nat.zero_sub, ite_self]

theorem lostByWrite_of_no_field {fault : HeapFault} (value : UInt32) (x : Ref)
    (hfield : h.addressOfField r offset = .error fault) : h.lostByWrite r offset value x = 0 := by
  unfold lostByWrite
  rw [hfield]

theorem countOf_succ_lt (hroom : ¬ Saturated h) (hr : r ∈ h.inUse) : h.countOf r + 1 < 2 ^ 32 := by
  have hlt := countOf_lt h r
  have hne : h.countOf r ≠ 2 ^ 32 - 1 := fun heq => hroom ⟨r, hr, heq⟩
  omega

/-! ## One request -/

namespace Accounted

theorem congr {extra' : Ref → Nat} (ha : Accounted h extra) (hsame : ∀ x, extra' x = extra x) :
    Accounted h extra' :=
  ⟨ha.toTidy, fun x => by rw [ha.balanced, hsame]⟩

theorem retain {target : Ref} (ht : Tidy h)
    (hbalanced : ∀ x, h.holders x + extra x = h.countOf x + if x = r then 1 else 0)
    (hlive : 0 < h.countOf r) (hfits : h.countOf r + 1 < 2 ^ 32)
    (htarget : target = 0 ∨ 0 < h.countOf target) (structural : Bool) :
    ∃ h', run (addToCount r target 1 structural) h = (.ok (), h') ∧ Recounted h h' ∧
      Accounted h' extra ∧ ∀ x, h.countOf x ≤ h'.countOf x := by
  obtain ⟨h', hrun, hre, ht', hcount, hholders⟩ :=
    ht.increment (mem_inUse_of_countOf hlive) htarget structural
  have hsum : ∀ x, h'.countOf x = h.countOf x + if x = r then 1 else 0 := by
    intro x
    rw [hcount]
    by_cases heq : x = r
    · subst heq
      rw [if_pos rfl, if_pos rfl]
      omega
    · rw [if_neg heq, if_neg heq, Nat.add_zero]
  refine ⟨h', hrun, hre, ⟨ht', fun x => ?_⟩, fun x => ?_⟩
  · rw [hsum, hholders, regained_of_live hlive, Nat.add_zero, hbalanced]
  · rw [hsum]
    exact Nat.le_add_right _ _

theorem openScope (ha : Accounted h extra) : Accounted (run openScope h).2 extra := by
  refine ⟨ha.sound.openScope.toTidy, fun x => ?_⟩
  rw [holders_opened]
  exact ha.balanced x

theorem letGoAll (rs : List Ref) (ha : Accounted h fun x => extra x + rs.count x) :
    Accounted (run (letGoAll rs) h).2 fun x => extra x + h.lostByLettingGo rs x := by
  induction rs generalizing h extra with
  | nil => exact ha
  | cons r rs ih =>
      have howed : Accounted h fun x => extra x + rs.count x + if x = r then 1 else 0 := by
        refine ha.congr fun x => ?_
        rw [List.count_cons]
        simp only [beq_iff_eq, eq_comm (a := r), Nat.add_assoc]
      obtain ⟨h₁, hrun₁, -, ha₁⟩ := howed.release (.inl rfl)
      have hrest : Accounted h₁ fun x => extra x + h.lostByRelease r 0 x + rs.count x :=
        ha₁.congr fun x => Nat.add_right_comm _ _ _
      unfold Heap.letGoAll lostByLettingGo
      rw [run_bind_ok hrun₁]
      simp only [hrun₁, ← Nat.add_assoc]
      exact ih hrest

theorem closeScope (ha : Accounted h extra) :
    Accounted (run closeScope h).2 fun x => extra x + h.lostBy .closeScope x := by
  unfold lostBy
  rcases closeScope_cases h with ⟨houter, hrun⟩ | ⟨scope, outer, houter, hrun⟩
  · rw [hrun, houter]
    exact ha
  · rw [hrun, houter]
    have hnodup := ha.nodup_scopes
    rw [houter] at hnodup
    refine letGoAll h.roots ⟨ha.toTidy.withScopes (List.forall_mem_cons.1 hnodup).2, fun x => ?_⟩
    have hclosed := ha.toTidy.holders_closed houter x
    have hbalanced := ha.balanced x
    change h.countOf x = _
    omega

theorem hold (ha : Accounted h extra) (hroom : ¬ Saturated h) (hr : r = 0 ∨ h.Alive r) :
    Accounted (run (hold r) h).2 extra := by
  rcases hold_cases ha.laid r with ⟨-, hrun⟩ | ⟨-, -, hrun⟩ | ⟨hused, hnew, hrun⟩
  · rw [hrun]
    exact ha
  · rw [hrun]
    exact ha
  · have hlive := alive_iff.1 (hr.resolve_left (ne_of_mem_of_not_mem hused ha.zero_notMem_inUse))
    have hbalanced : ∀ x, ({ h with roots := h.roots ++ [r], outer := h.outer } : Heap).holders x +
        extra x = h.countOf x + if x = r then 1 else 0 := by
      intro x
      have hbalanced := ha.balanced x
      rw [holders_rooted hnew]
      omega
    obtain ⟨h', hup, -, ha', -⟩ :=
      retain (ha.toTidy.withScopes (nodup_root ha.nodup_scopes hnew)) hbalanced hlive
        (countOf_succ_lt hroom hused) (.inl rfl) false
    rw [hrun, hup]
    exact ha'

theorem letGo (ha : Accounted h extra) (hrooted : r = 0 ∨ r ∈ h.roots) :
    Accounted (run (letGo r) h).2 fun x => extra x + h.lostBy (.letGo r) x := by
  unfold lostBy
  rcases letGo_cases ha.laid r with ⟨rfl, hrun⟩ | ⟨hne, hunused, -⟩ | ⟨hused, hrun⟩
  · rw [hrun]
    exact ha.congr fun x => congrArg (extra x + ·) (lostByRelease_zero _ 0 x)
  · have hlive := ha.covered.live_of_mem_scope List.mem_cons_self (hrooted.resolve_left hne)
    exact absurd (mem_inUse_of_countOf hlive) hunused
  · have hroots := hrooted.resolve_left (ne_of_mem_of_not_mem hused ha.zero_notMem_inUse)
    have hreleased : Accounted { h with roots := h.roots.filter (· ≠ r), outer := h.outer }
        fun x => extra x + if x = r then 1 else 0 := by
      refine ⟨ha.toTidy.withScopes (nodup_unrooted ha.nodup_scopes r), fun x => ?_⟩
      have hunrooted := holders_unrooted hroots x
      have hbalanced := ha.balanced x
      change h.countOf x = _
      omega
    obtain ⟨h', hdown, -, ha'⟩ := hreleased.release (.inl rfl)
    rw [hrun, hdown]
    exact ha'

theorem releaseWord (ha : Accounted h fun x => extra x + occurs old x) (hlive : 0 < h.countOf r) :
    Accounted (run (addToCount old r (-1) true) h).2 fun x =>
      extra x + h.lostByRelease old r x := by
  by_cases hzero : old = 0
  · subst hzero
    rw [run_addToCount_zero]
    exact ha.congr fun x => by rw [lostByRelease_zero, occurs_zero]
  · have howed : Accounted h fun x => extra x + if x = old then 1 else 0 :=
      ha.congr fun x => by rw [occurs_of_ne_zero hzero]
    obtain ⟨h', hrun, -, ha'⟩ := howed.release (.inr hlive)
    rw [hrun]
    exact ha'

/-- After the content of a field has changed, its new content has a holder without a count,
and its old content a count without a holder. -/
theorem moveCount (ht : Tidy h)
    (hbalanced : ∀ x, h.holders x + occurs old x + extra x = h.countOf x + occurs value x)
    (hlive : 0 < h.countOf r) (hvalue : value = 0 ∨ 0 < h.countOf value) (hroom : ¬ Saturated h) :
    Accounted (run (moveCount r true old value) h).2 fun x => extra x +
      if old = value then 0
      else lostByRelease (run (addToCount value r 1 true) h).2 old r x := by
  unfold Heap.moveCount
  by_cases hsame : old = value
  · subst hsame
    rw [if_neg (by simp)]
    simp only [if_true]
    refine ⟨ht, fun x => ?_⟩
    have hbalanced := hbalanced x
    change h.countOf x = h.holders x + (extra x + 0)
    omega
  · rw [if_pos (by simp [hsame])]
    simp only [hsame, if_false]
    have hraised : ∃ h', run (addToCount value r 1 true) h = (.ok (), h') ∧
        (Accounted h' fun x => extra x + occurs old x) ∧ 0 < h'.countOf r := by
      by_cases hzero : value = 0
      · subst hzero
        refine ⟨h, run_addToCount_zero r 1 true h, ⟨ht, fun x => ?_⟩, hlive⟩
        have hbalanced := hbalanced x
        rw [occurs_zero] at hbalanced
        omega
      · have hvalue := hvalue.resolve_left hzero
        have hraise : ∀ x, h.holders x + (extra x + occurs old x) =
            h.countOf x + if x = value then 1 else 0 := by
          intro x
          have hbalanced := hbalanced x
          rw [occurs_of_ne_zero hzero] at hbalanced
          omega
        obtain ⟨h', hrun, -, ha', hle⟩ := retain ht hraise hvalue
          (countOf_succ_lt hroom (mem_inUse_of_countOf hvalue)) (.inr hlive) true
        exact ⟨h', hrun, ha', Nat.lt_of_lt_of_le hlive (hle r)⟩
    obtain ⟨h', hrun, ha', hlive'⟩ := hraised
    rw [run_bind_ok hrun, hrun]
    exact ha'.releaseWord hlive'

theorem write (ha : Accounted h extra) (hroom : ¬ Saturated h) (he : (r, addr) ∈ h.table)
    (hlive : 0 < h.countOf r) (hoffset : offset < h.fieldsAt addr)
    (hvalue : isTraced (h.bitmapAt addr) offset = true → value = 0 ∨ 0 < h.countOf value) :
    Accounted (run (write r offset value) h).2 fun x =>
      extra x + h.lostByWrite r offset value x := by
  have hsize := ha.laid.fieldsAt_lt he hoffset
  have htidy := ha.toTidy.setField he hsize value
  have hcount := ha.laid.countOf_setField he hsize value
  have hfield := addressOfField_eq ha.laid he offset
  rw [if_neg (Nat.not_le_of_lt hoffset)] at hfield
  rw [run_write ha.laid he hoffset fun htraced =>
    (hvalue htraced).imp_right mem_inUse_of_countOf]
  unfold lostByWrite
  rw [hfield, tracesField_eq ha.laid he]
  cases htraced : isTraced (h.bitmapAt addr) offset with
  | false =>
      refine ⟨htidy, fun x => ?_⟩
      have hfields := ha.laid.fieldsHolding_setField_of_not_traced he hsize htraced value x
      have hbalanced := ha.balanced x
      have hscopes : (h.setWord (addr + headerWords + offset) value).scopesHolding x =
          h.scopesHolding x := rfl
      change (h.setWord (addr + headerWords + offset) value).countOf x =
        (h.setWord (addr + headerWords + offset) value).holders x + extra x
      unfold holders at hbalanced ⊢
      rw [hfields, hcount]
      exact hbalanced
  | true =>
      have hroom' : ¬ Saturated (h.setWord (addr + headerWords + offset) value) := by
        rintro ⟨x, hx, hfull⟩
        rw [hcount] at hfull
        exact hroom ⟨x, hx, hfull⟩
      refine moveCount htidy (fun x => ?_) (by rwa [hcount])
        ((hvalue htraced).imp_right fun hpos => by rwa [hcount]) hroom'
      have hheld := ha.laid.holders_setField he hlive hsize htraced value x
      have hbalanced := ha.balanced x
      rw [hcount]
      omega

theorem compacted (ha : Accounted h extra) : Accounted h.compacted extra := by
  refine ⟨ha.covered.tidy_compacted, fun x => ?_⟩
  rw [ha.covered.holders_compacted, ha.laid.countOf_compacted]
  exact ha.balanced x

theorem make (ha : Accounted h extra) (fields : Nat) (bitmap : UInt32) :
    Accounted (run (make fields bitmap) h).2 extra := by
  have hsame : ∀ h', h' = h ∨ h' = h.compacted → Accounted h' extra := by
    rintro h' (rfl | rfl)
    · exact ha
    · exact ha.compacted
  rcases make_cases ha.laid ha.numbered fields bitmap with
    ⟨fault, h', hrun, heq⟩ | ⟨h', r, free, last, heq, hn, hfits, hfields, hrun⟩
  · rw [hrun]
    exact hsame h' heq
  · have ha' := hsame h' heq
    have hl : Laid { h' with free := free, last := last } :=
      ha'.laid.congr rfl rfl rfl (fun _ _ => rfl) fun _ _ => rfl
    have hr : r ∉ h'.inUse := hn.not_mem_inUse
    have hbalanced := ha'.balanced r
    rw [countOf_eq_zero hr] at hbalanced
    have hrooted : r ∉ h'.roots := notMem_roots hr (by omega)
    rw [hrun]
    refine ⟨Tidy.place hl hn ha'.nodup_scopes hrooted hfits hfields, fun x => ?_⟩
    rw [hl.holders_place hr hrooted hfits hfields, hl.countOf_place hfits hfields hr]
    have hbalanced' := ha'.balanced x
    change (if x = r then 1 else h'.countOf x) = h'.holders x + _ + extra x
    by_cases heq : x = r
    · subst heq
      rw [if_pos rfl, if_pos rfl]
      omega
    · rw [if_neg heq, if_neg heq]
      omega

theorem serve (ha : Accounted h extra) (hroom : ¬ Saturated h) {request : Request}
    (hallowed : Allowed h request) :
    Accounted (h.serve request) fun x => extra x + h.lostBy request x := by
  cases request with
  | make fields bitmap => exact ha.make fields bitmap
  | makePlain fields => exact ha.make fields 0
  | read r offset => exact ha
  | write r offset value =>
      obtain ⟨halive, hvalue⟩ := hallowed
      obtain ⟨addr, he⟩ := mem_table_of_alive halive
      by_cases hoffset : offset < h.fieldsAt addr
      · rw [tracesField_eq ha.laid he] at hvalue
        refine ha.write hroom he (alive_iff.1 halive) hoffset fun htraced => ?_
        exact (hvalue (congrArg Except.ok htraced)).imp_right alive_iff.1
      · have hfield := addressOfField_eq ha.laid he offset
        rw [if_pos (Nat.le_of_not_lt hoffset)] at hfield
        change Accounted (run (Heap.write r offset value) h).2 _
        rw [run_write_of_no_field value hfield]
        exact ha.congr fun x => congrArg (extra x + ·) (lostByWrite_of_no_field value x hfield)
  | openScope => exact ha.openScope
  | closeScope => exact ha.closeScope
  | compact => exact ha.compacted
  | hold r => exact ha.hold hroom hallowed
  | letGo r => exact ha.letGo hallowed

/-! ## Whole runs -/

theorem new (limits : HeapLimits) : Accounted (new limits) fun _ => 0 :=
  ⟨(Covered.new limits).toTidy, fun _ => rfl⟩

theorem served (ha : Accounted h extra) {requests : List Request} (hd : Disciplined h requests) :
    (∃ n < requests.length, Saturated (h.served (requests.take n))) ∨
      Accounted (h.served requests) fun x => extra x + h.lostOver requests x := by
  induction requests generalizing h extra with
  | nil => exact .inr ha
  | cons request rest ih =>
      obtain ⟨hallowed, hrest⟩ := hd
      by_cases hroom : Saturated h
      · exact .inl ⟨0, Nat.zero_lt_succ _, hroom⟩
      · rcases ih (ha.serve hroom hallowed) hrest with ⟨n, hn, hfull⟩ | ha'
        · exact .inl ⟨n + 1, Nat.succ_lt_succ hn, hfull⟩
        · exact .inr (ha'.congr fun x => (Nat.add_assoc _ _ _).symm)

end Accounted

/-! ## Exact counts -/

def ReachedFromScope (h : Heap) (r : Ref) : Prop :=
  ∃ scope ∈ h.roots :: h.outer, ∃ root ∈ scope, ReflTransGen h.Holds root r

def ReachedFromCycle (h : Heap) (r : Ref) : Prop :=
  ∃ x, TransGen h.Holds x x ∧ ReflTransGen h.Holds x r

/-- The counts of living objects are exact, and what neither a scope nor a cycle reaches has
no count and goes with the next compaction. -/
structure Exact (h : Heap) : Prop where
  counted : ∀ r count, h.count r = .ok count → count ≠ 0 → count.toNat = h.holders r
  reclaimed : ∀ r count, h.count r = .ok count → ¬ h.ReachedFromScope r →
    ¬ h.ReachedFromCycle r → count = 0 ∧ r ∈ h.dropped

theorem holder_of_holders (hheld : 0 < h.holders r) :
    (∃ scope ∈ h.roots :: h.outer, r ∈ scope) ∨ ∃ x, h.Holds x r := by
  by_cases hscopes : 0 < h.scopesHolding r
  · obtain ⟨scope, hscope, hr⟩ := List.countP_pos_iff.1 hscopes
    exact .inl ⟨scope, hscope, of_decide_eq_true hr⟩
  · have hfields : 0 < h.fieldsHolding r := by
      unfold holders at hheld
      omega
    obtain ⟨n, hn, hpos⟩ := List.exists_mem_ne_zero_of_sum_ne_zero (Nat.ne_of_gt hfields)
    obtain ⟨x, -, rfl⟩ := List.mem_map.1 hn
    split at hpos
    · exact absurd rfl hpos
    · rename_i hne
      exact .inr ⟨x, Nat.pos_of_ne_zero hne, List.count_pos_iff.1 (Nat.pos_of_ne_zero hpos)⟩

instance : Finite Ref :=
  Finite.of_injective UInt32.toFin fun _ _ heq => UInt32.toNat_inj.1 (congrArg Fin.val heq)

/-- Going from holder to holder ends at a scope or comes to a cycle, because there are only
finitely many references. -/
theorem reached_of_live (hexact : ∀ x, 0 < h.countOf x → h.countOf x = h.holders x)
    (hlive : 0 < h.countOf r) : h.ReachedFromScope r ∨ h.ReachedFromCycle r := by
  let before (x y : Ref) : Prop := TransGen h.Holds x y ∧ ¬ h.ReachedFromCycle y
  have htrans : IsTrans Ref before := ⟨fun _ _ _ hxy hyz => ⟨hxy.1.trans hyz.1, hyz.2⟩⟩
  have hirrefl : Std.Irrefl before := ⟨fun x hx => hx.2 ⟨x, hx.1, .refl⟩⟩
  have hwf : WellFounded before := Finite.wellFounded_of_trans_of_irrefl before
  induction r using hwf.induction with
  | _ r ih =>
      by_cases hcycle : h.ReachedFromCycle r
      · exact .inr hcycle
      rcases holder_of_holders (by rw [← hexact r hlive]; exact hlive) with
        ⟨scope, hscope, hr⟩ | ⟨x, hholds⟩
      · exact .inl ⟨scope, hscope, r, hr, .refl⟩
      · rcases ih x ⟨.single hholds, hcycle⟩ hholds.1 with
          ⟨scope, hscope, root, hroot, hreach⟩ | ⟨y, hself, hreach⟩
        · exact .inl ⟨scope, hscope, root, hroot, hreach.tail hholds⟩
        · exact .inr ⟨y, hself, hreach.tail hholds⟩

theorem Laid.mem_inUse_of_count (hl : Laid h) {count : UInt32} (hcount : h.count r = .ok count) :
    r ∈ h.inUse := by
  rcases address_cases hl r with ⟨hr, -⟩ | ⟨-, haddr⟩
  · exact hr
  · unfold Heap.count at hcount
    rw [haddr] at hcount
    exact nomatch hcount

theorem Accounted.exact_iff (ha : Accounted h extra) :
    Exact h ↔ ∀ r ∈ h.inUse, extra r = 0 := by
  constructor
  · intro hexact r hr
    obtain ⟨count, hcount, htoNat⟩ := count_eq ha.laid hr
    have hbalanced := ha.balanced r
    by_cases hzero : count = 0
    · rw [← htoNat, hzero] at hbalanced
      exact (Nat.add_eq_zero_iff.1 hbalanced.symm).2
    · have hcounted := hexact.counted r count hcount hzero
      omega
  · intro hnone
    have hcounted : ∀ x, 0 < h.countOf x → h.countOf x = h.holders x := fun x hlive => by
      rw [ha.balanced, hnone x (mem_inUse_of_countOf hlive), Nat.add_zero]
    refine ⟨fun r count hcount hne => ?_, fun r count hcount hscope hcycle => ?_⟩
    · rw [← countOf_of_count hcount]
      exact hcounted r (alive_iff.1 ⟨count, hcount, hne⟩)
    · have hzero : count = 0 := by
        by_contra hne
        exact (reached_of_live hcounted (alive_iff.1 ⟨count, hcount, hne⟩)).elim hscope hcycle
      refine ⟨hzero, ?_⟩
      have hdead : ¬ 0 < h.countOf r := by
        rw [countOf_of_count hcount, hzero]
        exact Nat.lt_irrefl 0
      rw [ha.laid.dropped_eq, List.mem_filter]
      exact ⟨ha.laid.mem_inUse_of_count hcount, by simp only [hdead, decide_false, Bool.not_false]⟩

/-- In every state of a disciplined run the count of an object is the number of its holders
and what has been lost of it; so counts are exact, and everything out of reach of scopes and
cycles is reclaimed, if and only if nothing in use has lost a count.  The alternative is a
count that has come to the end of its word. -/
theorem counts_exact_iff (limits : HeapLimits) {requests : List Request}
    (hd : Disciplined (new limits) requests) :
    (∃ n < requests.length, Saturated ((new limits).served (requests.take n))) ∨
      (∀ r count, ((new limits).served requests).count r = .ok count →
        count.toNat = ((new limits).served requests).holders r +
          (new limits).lostOver requests r) ∧
      (Exact ((new limits).served requests) ↔
        ∀ r ∈ ((new limits).served requests).inUse, (new limits).lostOver requests r = 0) := by
  refine ((Accounted.new limits).served hd).imp_right fun ha => ?_
  have ha' : Accounted ((new limits).served requests) ((new limits).lostOver requests) :=
    ha.congr fun x => (Nat.zero_add _).symm
  refine ⟨fun r count hcount => ?_, ha'.exact_iff⟩
  rw [← countOf_of_count hcount]
  exact ha'.balanced r

/-- Two objects that die in turn give up a shared one count by count. -/
theorem counts_exact_shared :
    let limits : HeapLimits := { capacity := 64, maxRef := 8 }
    let requests : List Request := [.make 1 1, .openScope, .make 1 1, .makePlain 2, .write 1 0 3,
      .write 2 0 3, .closeScope, .write 1 0 0]
    Disciplined (new limits) requests ∧ Exact ((new limits).served requests) := by
  intro limits requests
  have hd : Disciplined (new limits) requests := by decide +kernel
  refine ⟨hd, ?_⟩
  rcases counts_exact_iff limits hd with hfull | ⟨-, hiff⟩
  · have hsmall : ¬ ∃ n < requests.length, Saturated ((new limits).served (requests.take n)) := by
      decide +kernel
    exact absurd hfull hsmall
  · have hkept : (((new limits).served requests).inUse.all fun r =>
        (new limits).lostOver requests r = 0) = true := by
      decide +kernel
    exact hiff.2 fun r hr => of_decide_eq_true (List.all_eq_true.1 hkept r hr)

/-- An object that dies with two fields holding the same object releases it once: the other
object keeps a count that nothing stands for. -/
theorem counts_not_exact_twins :
    let limits : HeapLimits := { capacity := 64, maxRef := 8 }
    let requests : List Request := [.openScope, .make 2 3, .makePlain 0, .write 1 0 2,
      .write 1 1 2, .closeScope]
    Disciplined (new limits) requests ∧ ((new limits).served requests).count 2 = .ok 1 ∧
      ((new limits).served requests).holders 2 = 0 ∧
      ¬ Exact ((new limits).served requests) := by
  intro limits requests
  have hcount : ((new limits).served requests).count 2 = .ok 1 := by decide +kernel
  have hholders : ((new limits).served requests).holders 2 = 0 := by decide +kernel
  refine ⟨by decide +kernel, hcount, hholders, fun hexact => ?_⟩
  have hcounted := hexact.counted 2 1 hcount (by decide)
  rw [hholders] at hcounted
  exact absurd hcounted (by decide)

end Midend.Heap
