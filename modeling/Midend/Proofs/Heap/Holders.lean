import Midend.Proofs.Heap.Steps
/-!
# Counts and holders

An object is held by the scopes it is a root of and by the fields of the objects that are
alive.  No count is below the number of holders (`Covered`), even in the middle of an
activity, when some holders are still to be accounted for.

The walk over dying objects keeps this up although it enters no object twice: what a dead
object holds is owed only to the objects that the walk has not entered, and to them it is
paid once.
-/

namespace Midend.Heap

def scopesHolding (h : Heap) (r : Ref) : Nat :=
  (h.roots :: h.outer).countP fun scope => r ∈ scope

def fieldsHolding (h : Heap) (r : Ref) : Nat :=
  (h.inUse.map fun x => if h.countOf x = 0 then 0 else (h.refsOf x).count r).sum

def holders (h : Heap) (r : Ref) : Nat := h.scopesHolding r + h.fieldsHolding r

/-- How many fields of an object that is dead would hold another one again, should it come
back to life. -/
def regained (h : Heap) (r x : Ref) : Nat :=
  if h.countOf r = 0 then (h.refsOf r).count x else 0

structure Tidy (h : Heap) : Prop where
  laid : Laid h
  numbered : Numbered h []
  nodup_scopes : ∀ scope ∈ h.roots :: h.outer, scope.Nodup

/-- Every count covers the holders of its object and what is still owed to it. -/
structure Covered (h : Heap) (owed : Ref → Nat) : Prop extends Tidy h where
  enough : ∀ r, owed r + h.holders r ≤ h.countOf r

variable {h h' : Heap} {owed owed' base : Ref → Nat} {r x root target : Ref}

theorem regained_of_live (hlive : 0 < h.countOf r) (x : Ref) : h.regained r x = 0 :=
  if_neg (Nat.ne_of_gt hlive)

theorem regained_of_not_mem (hr : r ∉ h.inUse) (x : Ref) : h.regained r x = 0 := by
  unfold regained
  rw [refsOf_eq_nil hr, List.count_nil, ite_self]

theorem countOf_lt (h : Heap) (r : Ref) : h.countOf r < 2 ^ 32 := by
  unfold countOf
  split
  · exact UInt32.toNat_lt _
  · decide

theorem shifted_down {count : Nat} (hpos : 0 < count) (hlt : count < 2 ^ 32) :
    shifted count (-1) = count - 1 := by
  unfold shifted
  omega

theorem shifted_up {count : Nat} : shifted count 1 = min (count + 1) (2 ^ 32 - 1) := by
  unfold shifted
  omega

namespace Recounted

theorem numbered (hr : Recounted h h') (hn : Numbered h []) : Numbered h' [] := by
  obtain ⟨hnodup, hmem, hlast⟩ := hn
  constructor
  · rw [hr.inUse, hr.free]
    exact hnodup
  · rw [hr.inUse, hr.free, hr.last]
    exact hmem
  · rw [hr.last, hr.limits]
    exact hlast

theorem tidy (hr : Recounted h h') (ht : Tidy h) (hl : Laid h') : Tidy h' := by
  refine ⟨hl, hr.numbered ht.numbered, ?_⟩
  rw [hr.roots, hr.outer]
  exact ht.nodup_scopes

theorem scopesHolding (hr : Recounted h h') (x : Ref) : h'.scopesHolding x = h.scopesHolding x := by
  unfold Heap.scopesHolding
  rw [hr.roots, hr.outer]

theorem fieldsHolding (hr : Recounted h h') (hl : Laid h) (hmem : r ∈ h.inUse)
    (hother : ∀ x, x ≠ r → h'.countOf x = h.countOf x) (x : Ref) :
    h'.fieldsHolding x + (if h.countOf r = 0 then 0 else (h.refsOf r).count x) =
      h.fieldsHolding x + (if h'.countOf r = 0 then 0 else (h.refsOf r).count x) := by
  have hsame : ∀ y ∈ h.inUse, y ≠ r →
      (if h'.countOf y = 0 then 0 else (h'.refsOf y).count x) =
        if h.countOf y = 0 then 0 else (h.refsOf y).count x := by
    intro y _ hne
    rw [hother y hne, hr.refsOf]
  have hsum := sum_map_update hl.nodup_inUse hmem hsame
  unfold Heap.fieldsHolding
  rw [hr.inUse]
  rw [hr.refsOf] at hsum
  exact hsum

end Recounted

namespace Tidy

theorem decrement (ht : Tidy h) (hlive : 0 < h.countOf r) :
    ∃ h', run (changeCount r (-1)) h = (.ok (decide (h.countOf r = 1)), h') ∧ Recounted h h' ∧
      Tidy h' ∧ (∀ x, h'.countOf x + (if x = r then 1 else 0) = h.countOf x) ∧
      ∀ x, h'.holders x + (if h.countOf r = 1 then (h.refsOf r).count x else 0) = h.holders x := by
  have hmem := mem_inUse_of_countOf hlive
  have hdown := shifted_down hlive (countOf_lt h r)
  obtain ⟨h', hrun, hl', hre, hcount⟩ := changeCount_spec ht.laid hmem (-1)
  rw [hdown] at hrun hcount
  have hother : ∀ x, x ≠ r → h'.countOf x = h.countOf x := fun x hne => by rw [hcount, if_neg hne]
  have hself : h'.countOf r = h.countOf r - 1 := by rw [hcount, if_pos rfl]
  refine ⟨h', ?_, hre, hre.tidy ht hl', fun x => ?_, fun x => ?_⟩
  · have hdied : (h.countOf r ≠ 0 ∧ h.countOf r - 1 = 0) ↔ h.countOf r = 1 := by omega
    rw [hrun, decide_eq_decide.2 hdied]
  · by_cases heq : x = r
    · subst heq
      rw [if_pos rfl]
      omega
    · rw [if_neg heq]
      exact hother x heq
  · have hfields := hre.fieldsHolding ht.laid hmem hother x
    have hscopes := hre.scopesHolding x
    rw [hself, if_neg (by omega)] at hfields
    unfold holders
    by_cases hdies : h.countOf r = 1
    · rw [if_pos (by omega)] at hfields
      rw [if_pos hdies]
      omega
    · rw [if_neg (by omega)] at hfields
      rw [if_neg hdies]
      omega

theorem zero_notMem_inUse (ht : Tidy h) : (0 : Ref) ∉ h.inUse := fun hmem =>
  ((ht.numbered.mem_iff 0).1 (List.mem_append_right _ (List.mem_append_left _ hmem))).1 rfl

end Tidy

namespace Covered

theorem weaken (hc : Covered h owed) (hle : ∀ x, owed' x ≤ owed x) : Covered h owed' :=
  ⟨hc.toTidy, fun x => Nat.le_trans (Nat.add_le_add_right (hle x) _) (hc.enough x)⟩

theorem mem_inUse_of_owed (hc : Covered h owed) (howed : 0 < owed r) : r ∈ h.inUse := by
  have henough := hc.enough r
  exact mem_inUse_of_countOf (by omega)

/-- Paying one of the counts that are owed to an object.  If it dies by that, what its
fields held is owed from then on. -/
theorem decrement (hc : Covered h owed) (howed : 0 < owed r) :
    ∃ h', run (changeCount r (-1)) h = (.ok (decide (h.countOf r = 1)), h') ∧ Recounted h h' ∧
      ∀ owed' : Ref → Nat, (∀ x, owed' x + (if x = r then 1 else 0) ≤
          owed x + if h.countOf r = 1 then (h.refsOf r).count x else 0) → Covered h' owed' := by
  have henough := hc.enough r
  obtain ⟨h', hrun, hre, ht', hcount, hholders⟩ := hc.toTidy.decrement (r := r) (by omega)
  refine ⟨h', hrun, hre, fun owed' hpaid => ⟨ht', fun x => ?_⟩⟩
  have hpaid := hpaid x
  have henough := hc.enough x
  have hcount := hcount x
  have hholders := hholders x
  omega

end Covered

/-! ## The walk over dying objects -/

/-- What a walk owes to an object: the references to it in a list and in the fields of the
queue, as long as the walk has not entered it. -/
def owes (h : Heap) (walk : Walk) (rest : List Ref) (x : Ref) : Nat :=
  if walk.explored.contains x then 0
  else rest.count x + (walk.queue.map fun q => (h.refsOf q).count x).sum

def QueueInUse (h : Heap) (walk : Walk) : Prop := ∀ q ∈ walk.queue, q ∈ h.inUse

theorem references_eq (hl : Laid h) (hr : r ∈ h.inUse) : h.references r = .ok (h.refsOf r) := by
  obtain ⟨addr, hmem⟩ := mem_inUse.1 hr
  unfold references
  rw [hl.address_eq hmem, hl.refsOf_eq hmem]
  rfl

def Walk.enter (walk : Walk) (child : Ref) (dies : Prop) [Decidable dies] : Walk where
  queue := if dies then walk.queue ++ [child] else walk.queue
  explored := child :: walk.explored

theorem Walk.mem_queue_enter (walk : Walk) {child q : Ref} {dies : Prop} [Decidable dies] :
    q ∈ (walk.enter child dies).queue ↔ q ∈ walk.queue ∨ dies ∧ q = child := by
  unfold Walk.enter
  by_cases hdies : dies <;> simp [hdies]

theorem QueueInUse.enter {walk : Walk} (hqueue : QueueInUse h walk) (hre : Recounted h h')
    {child : Ref} (hchild : child ∈ h.inUse) (dies : Prop) [Decidable dies] :
    QueueInUse h' (walk.enter child dies) := by
  intro q hq
  rw [hre.inUse]
  rcases walk.mem_queue_enter.1 hq with hq | ⟨-, rfl⟩
  · exact hqueue q hq
  · exact hchild

/-- Entering an object pays what the walk owes to it; if it dies by that, its fields join
the queue. -/
theorem owes_enter (hre : Recounted h h') {walk : Walk} {child : Ref} (rest : List Ref)
    (hnew : ¬ walk.explored.contains child = true) (dies : Prop) [Decidable dies] (x : Ref) :
    owes h' (walk.enter child dies) rest x + (if x = child then 1 else 0) ≤
      owes h walk (child :: rest) x + if dies then (h.refsOf child).count x else 0 := by
  unfold owes Walk.enter
  dsimp only
  by_cases heq : x = child
  · subst heq
    rw [if_pos (by simp), if_pos rfl, if_neg hnew, List.count_cons_self]
    omega
  · have hcount : (child :: rest).count x = rest.count x := List.count_cons_of_ne (Ne.symm heq)
    have hentered : (child :: walk.explored).contains x = walk.explored.contains x := by
      rw [List.contains_cons, beq_eq_false_iff_ne.2 heq, Bool.false_or]
    have hqueue : ((if dies then walk.queue ++ [child] else walk.queue).map
        fun q => (h'.refsOf q).count x).sum =
          (walk.queue.map fun q => (h.refsOf q).count x).sum +
            if dies then (h.refsOf child).count x else 0 := by
      have hrefs : (fun q => (h'.refsOf q).count x) = fun q => (h.refsOf q).count x :=
        funext fun q => by rw [hre.refsOf]
      rw [hrefs]
      split
      · rw [List.map_append, List.sum_append, List.map_singleton, List.sum_singleton]
      · rfl
    rw [hentered, hcount, hqueue, if_neg heq]
    split
    · omega
    · omega

theorem giveUp_spec (base : Ref → Nat) {walk : Walk} (rest : List Ref)
    (hc : Covered h fun x => base x + owes h walk rest x) (hqueue : QueueInUse h walk) :
    ∃ walk' h', run (giveUp (-1) walk rest) h = (.ok walk', h') ∧ Recounted h h' ∧
      (Covered h' fun x => base x + owes h' walk' [] x) ∧ QueueInUse h' walk' := by
  induction rest generalizing walk h with
  | nil => exact ⟨walk, h, rfl, Recounted.refl h, hc, hqueue⟩
  | cons child rest ih =>
      unfold giveUp
      by_cases hentered : walk.explored.contains child = true
      · rw [if_pos hentered]
        refine ih (hc.weaken fun x => ?_) hqueue
        have hcount : rest.count x ≤ (child :: rest).count x := List.count_le_count_cons
        unfold owes
        split
        · exact Nat.le_refl _
        · omega
      · rw [if_neg hentered]
        have howed : 0 < base child + owes h walk (child :: rest) child := by
          unfold owes
          rw [if_neg hentered, List.count_cons_self]
          omega
        -- the child is alive, as the walk still owes it a count
        obtain ⟨h₁, hrun₁, hre₁, hpay⟩ := hc.decrement howed
        have hc₁ : Covered h₁ fun x =>
            base x + owes h₁ (walk.enter child (h.countOf child = 1)) rest x := by
          refine hpay _ fun x => ?_
          have henter := owes_enter hre₁ rest hentered (h.countOf child = 1) x
          omega
        obtain ⟨walk₂, h₂, hrun₂, hre₂, hrest⟩ :=
          ih hc₁ (hqueue.enter hre₁ (hc.mem_inUse_of_owed howed) (h.countOf child = 1))
        refine ⟨walk₂, h₂, ?_, hre₁.trans hre₂, hrest⟩
        rw [run_bind_ok hrun₁]
        simp only [decide_eq_true_eq]
        exact hrun₂

theorem drain_spec (base : Ref → Nat) (turns : Nat) {walk : Walk}
    (hc : Covered h fun x => base x + owes h walk [] x) (hqueue : QueueInUse h walk) :
    ∃ h', run (drain (-1) turns walk) h = (.ok (), h') ∧ Recounted h h' ∧ Covered h' base := by
  -- wherever the walk stops, what it still owes only leaves counts too high
  induction turns generalizing walk h with
  | zero => exact ⟨h, rfl, Recounted.refl h, hc.weaken fun x => Nat.le_add_right _ _⟩
  | succ turns ih =>
      unfold drain
      cases hcase : walk.queue with
      | nil => exact ⟨h, rfl, Recounted.refl h, hc.weaken fun x => Nat.le_add_right _ _⟩
      | cons r queue =>
          have hr : r ∈ h.inUse := hqueue r (by rw [hcase]; exact List.mem_cons_self)
          have htaken : Covered h fun x =>
              base x + owes h { walk with queue := queue } (h.refsOf r) x := by
            refine hc.weaken fun x => Nat.le_of_eq ?_
            unfold owes
            rw [hcase, List.map_cons, List.sum_cons, List.count_nil, Nat.zero_add]
          have hqueue' : QueueInUse h { walk with queue := queue } := fun q hq =>
            hqueue q (by rw [hcase]; exact List.mem_cons_of_mem _ hq)
          obtain ⟨walk₁, h₁, hrun₁, hre₁, hc₁, hqueue₁⟩ :=
            giveUp_spec base (h.refsOf r) htaken hqueue'
          obtain ⟨h₂, hrun₂, hre₂, hc₂⟩ := ih hc₁ hqueue₁
          refine ⟨h₂, ?_, hre₁.trans hre₂, hc₂⟩
          dsimp only
          rw [run_inspect_ok (references_eq hc.laid hr), run_bind_ok hrun₁, hrun₂]

/-! ## Adding to a count -/

theorem count_eq (hl : Laid h) (hr : r ∈ h.inUse) :
    ∃ count : UInt32, h.count r = .ok count ∧ count.toNat = h.countOf r := by
  obtain ⟨addr, hmem⟩ := mem_inUse.1 hr
  refine ⟨h.countAt addr, ?_, (hl.countOf_eq hmem).symm⟩
  unfold count
  rw [hl.address_eq hmem]
  rfl

theorem isDeadObject_eq (hl : Laid h) (htarget : target = 0 ∨ target ∈ h.inUse) :
    isDeadObject target h = .ok (decide (target ≠ 0 ∧ h.countOf target = 0)) := by
  unfold isDeadObject
  by_cases hzero : target = 0
  · rw [if_pos hzero, decide_eq_false fun hcase => hcase.1 hzero]
    rfl
  · obtain ⟨count, hcount, htoNat⟩ := count_eq hl (htarget.resolve_left hzero)
    have hdead : count = 0 ↔ target ≠ 0 ∧ h.countOf target = 0 := by
      rw [eq_zero_iff, htoNat]
      exact (and_iff_right hzero).symm
    rw [if_neg hzero, hcount, ← decide_eq_decide.2 hdead]
    rfl

theorem Covered.addToCount_down (hc : Covered h owed) (owed' : Ref → Nat) (howed : 0 < owed root)
    (htarget : target = 0 ∨ target ∈ h.inUse)
    (hpaid : ∀ x, owed' x + (if x = root then 1 else 0) ≤ owed x) :
    ∃ h', run (addToCount root target (-1) true) h = (.ok (), h') ∧ Recounted h h' ∧
      Covered h' owed' := by
  have hmem := hc.mem_inUse_of_owed howed
  unfold addToCount
  rw [if_neg (ne_of_mem_of_not_mem hmem hc.toTidy.zero_notMem_inUse),
    run_inspect_ok (isDeadObject_eq hc.laid htarget)]
  by_cases hdead : target ≠ 0 ∧ h.countOf target = 0
  -- nothing is paid when the target is dead, which only leaves counts too high
  · rw [if_pos (decide_eq_true hdead)]
    refine ⟨h, rfl, Recounted.refl h, hc.weaken fun x => ?_⟩
    have hpaid := hpaid x
    omega
  · rw [if_neg (by rw [decide_eq_true_iff]; exact hdead)]
    obtain ⟨h₁, hrun₁, hre₁, hpay⟩ := hc.decrement howed
    rw [run_bind_ok hrun₁]
    -- the walk never enters the target, so it owes it nothing from the start
    by_cases hdies : h.countOf root = 1
    · have hc₁ : Covered h₁ fun x =>
          owed' x + owes h₁ { queue := [root], explored := [root, target] } [] x := by
        refine hpay _ fun x => ?_
        have howes : owes h₁ { queue := [root], explored := [root, target] } [] x ≤
            (h.refsOf root).count x := by
          unfold owes
          split
          · exact Nat.zero_le _
          · refine Nat.le_of_eq ?_
            rw [List.count_nil, Nat.zero_add, List.map_singleton, List.sum_singleton, hre₁.refsOf]
        have hpaid := hpaid x
        rw [if_pos hdies]
        omega
      have hqueue₁ : QueueInUse h₁ { queue := [root], explored := [root, target] } := by
        intro q hq
        rw [hre₁.inUse, List.mem_singleton.1 hq]
        exact hmem
      obtain ⟨h₂, hrun₂, hre₂, hc₂⟩ := drain_spec owed' (h₁.table.length + 1) hc₁ hqueue₁
      refine ⟨h₂, ?_, hre₁.trans hre₂, hc₂⟩
      rw [if_pos (by simp [hdies]), run_bind_ok (run_get h₁), hrun₂]
    · refine ⟨h₁, ?_, hre₁, hpay owed' fun x => ?_⟩
      · rw [if_neg (by simp [hdies])]
        rfl
      · rw [if_neg hdies]
        exact hpaid x

theorem Tidy.increment (ht : Tidy h) (hroot : root ∈ h.inUse)
    (htarget : target = 0 ∨ 0 < h.countOf target) (structural : Bool) :
    ∃ h', run (addToCount root target 1 structural) h = (.ok (), h') ∧ Recounted h h' ∧ Tidy h' ∧
      (∀ x, h'.countOf x =
        if x = root then min (h.countOf root + 1) (2 ^ 32 - 1) else h.countOf x) ∧
      ∀ x, h'.holders x = h.holders x + h.regained root x := by
  have htarget' : target = 0 ∨ target ∈ h.inUse := htarget.imp_right mem_inUse_of_countOf
  have halive : ¬ (target ≠ 0 ∧ h.countOf target = 0) := by
    rintro ⟨hne, hdead⟩
    exact absurd (htarget.resolve_left hne) (by omega)
  obtain ⟨h', hrun, hl', hre, hcount⟩ := changeCount_spec ht.laid hroot 1
  rw [shifted_up] at hrun hcount
  have hlt := countOf_lt h root
  have hself : h'.countOf root = min (h.countOf root + 1) (2 ^ 32 - 1) := by
    rw [hcount, if_pos rfl]
  unfold addToCount
  rw [if_neg (ne_of_mem_of_not_mem hroot ht.zero_notMem_inUse),
    run_inspect_ok (isDeadObject_eq ht.laid htarget'),
    if_neg (by rw [decide_eq_true_iff]; exact halive), run_bind_ok hrun]
  refine ⟨h', ?_, hre, hre.tidy ht hl', hcount, fun x => ?_⟩
  · rw [if_neg (by simp)]
    rfl
  · have hfields := hre.fieldsHolding ht.laid hroot (fun x hne => by rw [hcount, if_neg hne]) x
    have hscopes := hre.scopesHolding x
    rw [if_neg (show h'.countOf root ≠ 0 by omega)] at hfields
    unfold holders regained
    by_cases hdead : h.countOf root = 0
    · rw [if_pos hdead] at hfields ⊢
      omega
    · rw [if_neg hdead] at hfields ⊢
      omega

/-- The counts cover the holders, and also those that an object brings back with it, should
it come back to life. -/
def Backed (h : Heap) (r : Ref) : Prop :=
  ∀ x, h.holders x + h.regained r x ≤ h.countOf x

theorem Tidy.addToCount_up (ht : Tidy h) (hroot : root ∈ h.inUse)
    (htarget : target = 0 ∨ 0 < h.countOf target) (structural : Bool)
    (henough : ∀ x, owed x + h.holders x + h.regained root x ≤
      h.countOf x + if x = root then 1 else 0)
    (hroom : owed root + h.holders root + h.regained root root < 2 ^ 32) :
    ∃ h', run (addToCount root target 1 structural) h = (.ok (), h') ∧ Recounted h h' ∧
      Covered h' owed := by
  obtain ⟨h', hrun, hre, ht', hcount, hholders⟩ := ht.increment hroot htarget structural
  refine ⟨h', hrun, hre, ht', fun x => ?_⟩
  have henough := henough x
  rw [hcount, hholders]
  by_cases heq : x = root
  · subst heq
    rw [if_pos rfl] at henough ⊢
    omega
  · rw [if_neg heq] at henough ⊢
    omega

end Midend.Heap
