import Midend.Proofs.Heap.Scopes
/-!
# What a walk over dying objects loses

When an object dies, all its fields cease to hold.  The walk takes at most one count from an
object for all the fields that cease to hold it, and none from its target, so the other
counts are lost: nothing holds the object for them, and nothing will take them back.

`Accounted` says where every count comes from: the holders of an object, and what is on
top.  A release moves on top exactly what the walk loses (`Accounted.release`).
-/

namespace Midend.Heap

/-- Every count is the number of holders of its object and what is on top of that. -/
structure Accounted (h : Heap) (extra : Ref → Nat) : Prop extends Tidy h where
  balanced : ∀ x, h.countOf x = h.holders x + extra x

/-- How many fields cease to hold an object when one count is taken from another one. -/
def ceased (h : Heap) (root target x : Ref) : Nat :=
  h.holders x - (run (addToCount root target (-1) true) h).2.holders x

/-- The counts that are lost when one count is taken from an object: of the fields that cease
to hold, the walk accounts for one, and for none where it does not enter. -/
def lostByRelease (h : Heap) (root target x : Ref) : Nat :=
  if x = target then h.ceased root target x else h.ceased root target x - 1

variable {origin h h' : Heap} {extra : Ref → Nat} {r x root target child : Ref} {walk : Walk}
  {rest : List Ref}

theorem Accounted.covered (ha : Accounted h extra) : Covered h extra :=
  ⟨ha.toTidy, fun x => by rw [ha.balanced, Nat.add_comm]⟩

theorem Accounted.sound (ha : Accounted h extra) : Sound h :=
  ha.covered.weaken fun _ => Nat.zero_le _

/-! ## How long a walk can last -/

def living (h : Heap) : Nat := (h.inUse.map fun x => if h.countOf x = 0 then 0 else 1).sum

theorem living_le (h : Heap) : h.living ≤ h.table.length := by
  have hterms : ∀ n ∈ h.inUse.map fun x => if h.countOf x = 0 then 0 else 1, n ≤ 1 := by
    intro n hn
    obtain ⟨x, -, rfl⟩ := List.mem_map.1 hn
    split
    · exact Nat.zero_le _
    · exact Nat.le_refl _
  have hsum : h.living ≤ (h.inUse.map fun x => if h.countOf x = 0 then 0 else 1).length * 1 :=
    List.sum_le_card_nsmul _ _ hterms
  rw [List.length_map, Nat.mul_one] at hsum
  unfold inUse at hsum
  rw [List.length_map] at hsum
  exact hsum

/-- When the count of one object changes, no other object dies or comes back to life. -/
theorem living_change (hl : Laid h) (hre : Recounted h h') (hmem : r ∈ h.inUse)
    (hother : ∀ x, x ≠ r → h'.countOf x = h.countOf x) :
    h'.living + (if h.countOf r = 0 then 0 else 1) =
      h.living + if h'.countOf r = 0 then 0 else 1 := by
  have hsame : ∀ y ∈ h.inUse, y ≠ r →
      (if h'.countOf y = 0 then 0 else 1) = if h.countOf y = 0 then 0 else 1 := by
    intro y _ hne
    rw [hother y hne]
  unfold living
  rw [hre.inUse]
  exact sum_map_update hl.nodup_inUse hmem hsame

theorem living_decrement (hl : Laid h) (hre : Recounted h h') (hlive : 0 < h.countOf r)
    (hcount : ∀ x, h'.countOf x + (if x = r then 1 else 0) = h.countOf x) :
    h'.living + (if h.countOf r = 1 then 1 else 0) = h.living := by
  have hself := hcount r
  have hchange := living_change hl hre (mem_inUse_of_countOf hlive) fun x hne => by
    have hcount := hcount x
    rwa [if_neg hne, Nat.add_zero] at hcount
  rw [if_pos rfl] at hself
  rw [if_neg (Nat.ne_of_gt hlive)] at hchange
  by_cases hdies : h.countOf r = 1
  · rw [if_pos (by omega)] at hchange
    rw [if_pos hdies]
    omega
  · rw [if_neg (by omega)] at hchange
    rw [if_neg hdies]
    omega

/-! ## The walk -/

/-- The walk still has a reference to the object before it. -/
def Pending (h : Heap) (walk : Walk) (rest : List Ref) (x : Ref) : Prop :=
  x ∈ rest ∨ ∃ q ∈ walk.queue, x ∈ h.refsOf q

def taken (root target : Ref) (walk : Walk) (x : Ref) : Nat :=
  (if x = root then 1 else 0) +
    if x ∈ walk.explored ∧ x ≠ root ∧ x ≠ target then 1 else 0

/-- What a walk has done to the heap where it began.  It enters the objects that some holder
ceased to hold, and only them; it has done so already or still has them before it. -/
structure Walking (origin : Heap) (root target : Ref) (h : Heap) (walk : Walk) (rest : List Ref) :
    Prop extends Tidy h where
  recounted : Recounted origin h
  queue_inUse : QueueInUse h walk
  root_explored : root ∈ walk.explored
  target_explored : target ∈ walk.explored
  counts : ∀ x, h.countOf x + taken root target walk x = origin.countOf x
  holders_le : ∀ x, h.holders x ≤ origin.holders x
  explored : ∀ x ∈ walk.explored, x = root ∨ x = target ∨ h.holders x < origin.holders x
  pending : ∀ x, Pending h walk rest x → h.holders x < origin.holders x
  reached : ∀ x, h.holders x < origin.holders x → x ∈ walk.explored ∨ Pending h walk rest x

namespace Walking

theorem live (hw : Walking origin root target h walk (child :: rest))
    (henough : ∀ x, origin.holders x ≤ origin.countOf x) (hnew : child ∉ walk.explored) :
    0 < h.countOf child := by
  have hheld := hw.pending child (.inl List.mem_cons_self)
  have hcount := hw.counts child
  have henough := henough child
  unfold taken at hcount
  rw [if_neg (ne_of_mem_of_not_mem hw.root_explored hnew).symm,
    if_neg fun hcase => hnew hcase.1] at hcount
  omega

theorem skip (hw : Walking origin root target h walk (child :: rest))
    (hentered : child ∈ walk.explored) : Walking origin root target h walk rest where
  toTidy := hw.toTidy
  recounted := hw.recounted
  queue_inUse := hw.queue_inUse
  root_explored := hw.root_explored
  target_explored := hw.target_explored
  counts := hw.counts
  holders_le := hw.holders_le
  explored := hw.explored
  pending x hx := hw.pending x (hx.imp_left (List.mem_cons_of_mem _))
  reached x hx := by
    rcases hw.reached x hx with hmem | hmem | hqueue
    · exact .inl hmem
    · rcases List.mem_cons.1 hmem with rfl | hmem
      · exact .inl hentered
      · exact .inr (.inl hmem)
    · exact .inr (.inr hqueue)

theorem pending_enter (hre : Recounted h h') (dies : Prop) [Decidable dies] :
    Pending h' (walk.enter child dies) rest x ↔
      Pending h walk rest x ∨ dies ∧ x ∈ h.refsOf child := by
  unfold Pending
  simp only [hre.refsOf, Walk.mem_queue_enter, or_and_right, exists_or, and_assoc,
    exists_and_left, exists_eq_left, or_assoc]

/-- Entering an object takes one count from it; if it dies by that, its fields cease to hold
and are before the walk. -/
theorem enter (hw : Walking origin root target h walk (child :: rest))
    (hnew : child ∉ walk.explored) (hlive : 0 < h.countOf child) (hre : Recounted h h')
    (ht : Tidy h') (hcount : ∀ x, h'.countOf x + (if x = child then 1 else 0) = h.countOf x)
    (hholders : ∀ x, h'.holders x +
      (if h.countOf child = 1 then (h.refsOf child).count x else 0) = h.holders x) :
    Walking origin root target h' (walk.enter child (h.countOf child = 1)) rest := by
  have hroot := (ne_of_mem_of_not_mem hw.root_explored hnew).symm
  have htarget := (ne_of_mem_of_not_mem hw.target_explored hnew).symm
  have hchild := hw.pending child (.inl List.mem_cons_self)
  have hfewer : ∀ x, h'.holders x ≤ h.holders x := fun x => by
    have hholders := hholders x
    omega
  refine ⟨ht, hw.recounted.trans hre, hw.queue_inUse.enter hre (mem_inUse_of_countOf hlive) _,
    List.mem_cons_of_mem _ hw.root_explored, List.mem_cons_of_mem _ hw.target_explored,
    fun x => ?_, fun x => (hfewer x).trans (hw.holders_le x), fun x hx => ?_, fun x hx => ?_,
    fun x hx => ?_⟩
  · have htaken : taken root target (walk.enter child (h.countOf child = 1)) x =
        taken root target walk x + if x = child then 1 else 0 := by
      unfold taken Walk.enter
      by_cases heq : x = child
      · subst heq
        simp [hroot, htarget, hnew]
      · simp [heq]
    have hbefore := hw.counts x
    have hcount := hcount x
    omega
  · rcases List.mem_cons.1 hx with rfl | hx
    · exact .inr (.inr (Nat.lt_of_le_of_lt (hfewer x) hchild))
    · exact (hw.explored x hx).imp_right fun hcase =>
        hcase.imp_right (Nat.lt_of_le_of_lt (hfewer x))
  · rcases (pending_enter hre _).1 hx with hx | ⟨hdies, hx⟩
    · have hbefore := hw.pending x (hx.imp_left (List.mem_cons_of_mem _))
      exact Nat.lt_of_le_of_lt (hfewer x) hbefore
    · have hholders := hholders x
      have hheld := List.count_pos_iff.2 hx
      have hle := hw.holders_le x
      rw [if_pos hdies] at hholders
      omega
  · rw [pending_enter hre]
    by_cases hbefore : h.holders x < origin.holders x
    · rcases hw.reached x hbefore with hmem | hmem | hqueue
      · exact .inl (List.mem_cons_of_mem _ hmem)
      · rcases List.mem_cons.1 hmem with rfl | hmem
        · exact .inl List.mem_cons_self
        · exact .inr (.inl (.inl hmem))
      · exact .inr (.inl (.inr hqueue))
    · -- the fields of the child are what ceased to hold
      have hholders := hholders x
      by_cases hdies : h.countOf child = 1
      · rw [if_pos hdies] at hholders
        exact .inr (.inr ⟨hdies, List.count_pos_iff.1 (by omega)⟩)
      · rw [if_neg hdies] at hholders
        omega

theorem giveUp (henough : ∀ x, origin.holders x ≤ origin.countOf x)
    (hw : Walking origin root target h walk rest) :
    ∃ walk' h', run (giveUp (-1) walk rest) h = (.ok walk', h') ∧
      Walking origin root target h' walk' [] ∧
      h'.living + walk'.queue.length = h.living + walk.queue.length := by
  induction rest generalizing walk h with
  | nil => exact ⟨walk, h, rfl, hw, rfl⟩
  | cons child rest ih =>
      unfold Heap.giveUp
      by_cases hentered : walk.explored.contains child = true
      · rw [if_pos hentered]
        exact ih (hw.skip (List.contains_iff_mem.1 hentered))
      · rw [if_neg hentered]
        have hnew : child ∉ walk.explored := fun hmem => hentered (List.contains_iff_mem.2 hmem)
        have hlive := hw.live henough hnew
        obtain ⟨h₁, hrun₁, hre, ht, hcount, hholders⟩ := hw.toTidy.decrement hlive
        obtain ⟨walk₂, h₂, hrun₂, hw₂, hleft⟩ := ih (hw.enter hnew hlive hre ht hcount hholders)
        refine ⟨walk₂, h₂, ?_, hw₂, ?_⟩
        · rw [run_bind_ok hrun₁]
          simp only [decide_eq_true_eq]
          exact hrun₂
        · have hliving := living_decrement hw.laid hre hlive hcount
          unfold Walk.enter at hleft
          by_cases hdies : h.countOf child = 1
          · rw [if_pos hdies] at hliving
            simp only [hdies, if_true, List.length_append, List.length_singleton] at hleft
            omega
          · rw [if_neg hdies] at hliving
            simp only [hdies, if_false] at hleft
            omega

theorem next {queue : List Ref} (hcase : walk.queue = r :: queue)
    (hw : Walking origin root target h walk []) :
    Walking origin root target h { walk with queue := queue } (h.refsOf r) := by
  have hpending : ∀ x, Pending h { walk with queue := queue } (h.refsOf r) x ↔
      Pending h walk [] x := by
    intro x
    unfold Pending
    simp only [hcase, List.mem_cons, exists_eq_or_imp, List.not_mem_nil, false_or]
  refine { hw with queue_inUse := fun q hq => ?_, pending := fun x hx => ?_, reached := ?_ }
  · exact hw.queue_inUse q (by rw [hcase]; exact List.mem_cons_of_mem _ hq)
  · exact hw.pending x ((hpending x).1 hx)
  · intro x hx
    exact (hw.reached x hx).imp_right (hpending x).2

theorem drain (henough : ∀ x, origin.holders x ≤ origin.countOf x) {turns : Nat}
    (hturns : h.living + walk.queue.length ≤ turns) (hw : Walking origin root target h walk []) :
    ∃ walk' h', run (drain (-1) turns walk) h = (.ok (), h') ∧ walk'.queue = [] ∧
      Walking origin root target h' walk' [] := by
  induction turns generalizing walk h with
  | zero => exact ⟨walk, h, rfl, List.length_eq_zero_iff.1 (by omega), hw⟩
  | succ turns ih =>
      unfold Heap.drain
      cases hcase : walk.queue with
      | nil => exact ⟨walk, h, rfl, hcase, hw⟩
      | cons r queue =>
          have hr : r ∈ h.inUse := hw.queue_inUse r (by rw [hcase]; exact List.mem_cons_self)
          obtain ⟨walk₁, h₁, hrun₁, hw₁, hleft⟩ := (hw.next hcase).giveUp henough
          have hturns₁ : h₁.living + walk₁.queue.length ≤ turns := by
            rw [hcase, List.length_cons] at hturns
            dsimp only at hleft
            omega
          obtain ⟨walk₂, h₂, hrun₂, hended⟩ := ih hturns₁ hw₁
          refine ⟨walk₂, h₂, ?_, hended⟩
          dsimp only
          rw [run_inspect_ok (references_eq hw.laid hr), run_bind_ok hrun₁, hrun₂]

/-- At its end the walk has taken one count from each object that some holder ceased to
hold. -/
theorem taken_eq (hended : walk.queue = []) (hw : Walking origin root target h walk []) (x : Ref)
    (hroot : x ≠ root) (htarget : x ≠ target) :
    taken root target walk x = if h.holders x < origin.holders x then 1 else 0 := by
  have hnone : ¬ Pending h walk [] x := by
    unfold Pending
    simp [hended]
  have hiff : x ∈ walk.explored ∧ x ≠ root ∧ x ≠ target ↔ h.holders x < origin.holders x := by
    constructor
    · rintro ⟨hmem, -, -⟩
      exact ((hw.explored x hmem).resolve_left hroot).resolve_left htarget
    · intro hheld
      exact ⟨(hw.reached x hheld).resolve_right hnone, hroot, htarget⟩
  unfold taken
  rw [if_neg hroot, Nat.zero_add]
  exact if_congr hiff rfl rfl

end Walking

/-! ## Releasing an object -/

/-- Taking one count from a living object: it loses that count, and where holders cease to
hold, the walk takes one count more. -/
theorem Tidy.release (ht : Tidy h) (henough : ∀ x, h.holders x ≤ h.countOf x)
    (hlive : 0 < h.countOf root) (htarget : target = 0 ∨ 0 < h.countOf target) :
    ∃ h' walk, run (addToCount root target (-1) true) h = (.ok (), h') ∧ walk.queue = [] ∧
      Walking h root target h' walk [] ∧
      (h.countOf root = 1 ∨ ∀ x, h'.holders x = h.holders x) := by
  have hmem := mem_inUse_of_countOf hlive
  have halive : ¬ (target ≠ 0 ∧ h.countOf target = 0) := by
    rintro ⟨hne, hdead⟩
    exact absurd (htarget.resolve_left hne) (by omega)
  obtain ⟨h₁, hrun₁, hre₁, ht₁, hcount₁, hholders₁⟩ := ht.decrement hlive
  have hwalking : Walking h root target h₁
      { queue := if h.countOf root = 1 then [root] else [], explored := [root, target] } [] := by
    have hpending : ∀ x, Pending h₁
        { queue := if h.countOf root = 1 then [root] else [], explored := [root, target] } [] x ↔
          h₁.holders x < h.holders x := by
      intro x
      have hholders := hholders₁ x
      unfold Pending
      by_cases hdies : h.countOf root = 1
      · simp only [hdies, if_true, List.not_mem_nil, List.mem_singleton, exists_eq_left, false_or,
          hre₁.refsOf]
        rw [if_pos hdies] at hholders
        rw [← List.count_pos_iff]
        omega
      · simp only [hdies, if_false, List.not_mem_nil, false_and, exists_false, or_false, false_iff]
        rw [if_neg hdies] at hholders
        omega
    refine ⟨ht₁, hre₁, fun q hq => ?_, by simp, by simp, fun x => ?_, fun x => ?_, fun x hx => ?_,
      fun x hx => (hpending x).1 hx, fun x hx => .inr ((hpending x).2 hx)⟩
    · dsimp only at hq
      split at hq
      · rw [hre₁.inUse, List.mem_singleton.1 hq]
        exact hmem
      · exact absurd hq List.not_mem_nil
    · have hnone : ¬ (x ∈ [root, target] ∧ x ≠ root ∧ x ≠ target) := by simp; tauto
      unfold taken
      rw [if_neg hnone]
      exact hcount₁ x
    · have hholders := hholders₁ x
      omega
    · rcases List.mem_cons.1 hx with rfl | hx
      · exact .inl rfl
      · exact .inr (.inl (List.mem_singleton.1 hx))
  unfold addToCount
  rw [if_neg (ne_of_mem_of_not_mem hmem ht.zero_notMem_inUse),
    run_inspect_ok (isDeadObject_eq ht.laid (htarget.imp_right mem_inUse_of_countOf)),
    if_neg (by rw [decide_eq_true_iff]; exact halive), run_bind_ok hrun₁]
  by_cases hdies : h.countOf root = 1
  · rw [if_pos hdies] at hwalking
    have hturns : h₁.living + [root].length ≤ h₁.table.length + 1 :=
      Nat.add_le_add_right (living_le h₁) 1
    obtain ⟨walk, h₂, hrun₂, hended, hw⟩ := hwalking.drain henough hturns
    refine ⟨h₂, walk, ?_, hended, hw, .inl hdies⟩
    rw [if_pos (by simp [hdies]), run_bind_ok (run_get h₁), hrun₂]
  · rw [if_neg hdies] at hwalking
    refine ⟨h₁, _, ?_, rfl, hwalking, .inr fun x => ?_⟩
    · rw [if_neg (by simp [hdies])]
      rfl
    · have hholders := hholders₁ x
      rw [if_neg hdies] at hholders
      exact hholders

/-- A release pays one count that is on top, and puts on top what the walk loses. -/
theorem Accounted.release (ha : Accounted h fun x => extra x + if x = root then 1 else 0)
    (htarget : target = 0 ∨ 0 < h.countOf target) :
    ∃ h', run (addToCount root target (-1) true) h = (.ok (), h') ∧ Recounted h h' ∧
      Accounted h' fun x => extra x + lostByRelease h root target x := by
  have hself := ha.balanced root
  rw [if_pos rfl] at hself
  have hlive : 0 < h.countOf root := by omega
  have henough : ∀ x, h.holders x ≤ h.countOf x := fun x => by
    rw [ha.balanced]
    exact Nat.le_add_right _ _
  obtain ⟨h', walk, hrun, hended, hw, hdies⟩ := ha.toTidy.release henough hlive htarget
  refine ⟨h', hrun, hw.recounted, hw.toTidy, fun x => ?_⟩
  have hcount := hw.counts x
  have hbalanced := ha.balanced x
  have hle := hw.holders_le x
  have hceased : h.ceased root target x = h.holders x - h'.holders x := by
    unfold ceased
    rw [hrun]
  unfold lostByRelease
  rw [hceased]
  by_cases hroot : x = root
  · subst hroot
    -- an object that dies of its last count has no holder that could cease to hold it
    have hkept : h'.holders x = h.holders x := by
      rcases hdies with hdies | hsame
      · omega
      · exact hsame x
    have htaken : taken x target walk x = 1 := by
      unfold taken
      simp
    rw [if_pos rfl] at hbalanced
    rw [hkept, Nat.sub_self, Nat.zero_sub, ite_self]
    omega
  · rw [if_neg hroot] at hbalanced
    by_cases htarget : x = target
    · have htaken : taken root target walk x = 0 := by
        unfold taken
        rw [if_neg hroot, if_neg fun hcase => hcase.2.2 htarget]
      rw [if_pos htarget]
      omega
    · have htaken := hw.taken_eq hended x hroot htarget
      rw [if_neg htarget]
      split at htaken <;> omega

end Midend.Heap
