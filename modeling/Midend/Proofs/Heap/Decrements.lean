import Midend.Proofs.Heap.Compaction
import Midend.Proofs.Heap.Losses
import Midend.Proofs.Heap.Totals
/-!
# What a decrement reaches

Taking counts from an object goes on to what the object holds if it dies by that, and so on.  Which
objects this comes to (`Affected`) is said without any order: it is the least set with the first
object in it that is closed under the fields of dying objects, but for one object that the walk does
not enter.

Each of them has its count taken down once, from what it was before the walk, so the order in which
the walk comes to them makes no difference: the heap behind it is determined by that set
(`decrement_affects`).  The walk ends on every heap, also where objects hold each other in a circle,
because each turn works off one object and an object dies only once.
-/

namespace Midend.Heap

def Dies (h : Heap) (delta : Int) (r : Ref) : Prop :=
  0 < h.countOf r ∧ (h.countOf r : Int) ≤ -delta

/-- What taking counts from `root` comes to: `root`, and whatever the traced fields of an object
hold that dies by it, except `target`. -/
inductive Affected (h : Heap) (root target : Ref) (delta : Int) : Ref → Prop where
  | root : Affected h root target delta root
  | field {x y : Ref} (hx : Affected h root target delta x) (hdies : Dies h delta x)
      (hy : y ∈ h.refsOf x) (hne : y ≠ target) : Affected h root target delta y

/-- Working off the queue of a walk until it is empty, however many turns this takes. -/
inductive WorksOff (delta : Int) : Walk → Heap → Except HeapFault Unit → Heap → Prop where
  | done {walk : Walk} {h : Heap} (hqueue : walk.queue = []) : WorksOff delta walk h (.ok ()) h
  | turn {walk walk' : Walk} {h h' h'' : Heap} {r : Ref} {queue references : List Ref}
      {ended : Except HeapFault Unit} (hqueue : walk.queue = r :: queue)
      (hrefs : h.references r = .ok references)
      (hgive : run (giveUp delta { walk with queue } references) h = (.ok walk', h'))
      (hrest : WorksOff delta walk' h' ended h'') : WorksOff delta walk h ended h''
  | stopped {walk : Walk} {h h' : Heap} {r : Ref} {queue references : List Ref}
      {fault : HeapFault} (hqueue : walk.queue = r :: queue)
      (hrefs : h.references r = .ok references)
      (hgive : run (giveUp delta { walk with queue } references) h = (.error fault, h')) :
      WorksOff delta walk h (.error fault) h'
  | unknown {walk : Walk} {h : Heap} {r : Ref} {queue : List Ref} {fault : HeapFault}
      (hqueue : walk.queue = r :: queue) (hrefs : h.references r = .error fault) :
      WorksOff delta walk h (.error fault) h

/-- The counts of some objects differ between two heaps, and nothing else but the total of the words
to reclaim, which grows by the words of the objects that have died and falls by those of the objects
that have come back to life. -/
structure OnlyRecounts (h h' : Heap) (changed : Ref → Prop) : Prop where
  same : h' = { h with memory := h'.memory, reclaimable := h'.reclaimable }
  capacity : h'.capacity = h.capacity
  words : ∀ addr, h'.word addr ≠ h.word addr → ∃ x, changed x ∧ h.address x = .ok addr
  reclaimable : h'.reclaimable +
      h.wordsOf (h.table.filter fun e => h.countAt e.2 = 0 ∧ h'.countAt e.2 ≠ 0) =
    h.reclaimable + h.wordsOf (h.table.filter fun e => h.countAt e.2 ≠ 0 ∧ h'.countAt e.2 = 0)

/-- Each affected object has had its count taken down once, and nothing else has happened. -/
structure Decremented (h h' : Heap) (root target : Ref) (delta : Int) : Prop
    extends OnlyRecounts h h' (Affected h root target delta) where
  inUse : ∀ x, Affected h root target delta x → x ∈ h.inUse
  count : ∀ x, Affected h root target delta x → (h'.countOf x : Int) = max 0 (h.countOf x + delta)
  /-- No object comes back to life. -/
  reclaimable_eq : h'.reclaimable =
    h.reclaimable + h.wordsOf (h.table.filter fun e => h.countAt e.2 ≠ 0 ∧ h'.countAt e.2 = 0)

/-- A structural decrement ends in this way, and where its object dies the walk that it goes on to
has come to its own end, without a bound on the turns. -/
def Completes (h : Heap) (root target : Ref) (delta : Int)
    (ended : Except HeapFault Unit × Heap) : Prop :=
  ∃ died h₁, run (changeCount root delta) h = (.ok died, h₁) ∧
    if died then WorksOff delta { queue := [root], explored := [root, target] } h₁ ended.1 ended.2
    else ended = (.ok (), h₁)

variable {origin h h' : Heap} {root target r x child : Ref} {delta : Int} {walk walk' : Walk}
  {rest : List Ref} {changed : Ref → Prop}

/-! ## What changes of counts leave -/

/-- The heap differs from another one in the words at the addresses of objects and in its total. -/
structure AtCounts (h h' : Heap) : Prop where
  same : h' = { h with memory := h'.memory, reclaimable := h'.reclaimable }
  capacity : h'.capacity = h.capacity
  words : ∀ addr, (∀ e ∈ h.table, e.2 ≠ addr) → h'.word addr = h.word addr

theorem AtCounts.refl (h : Heap) : AtCounts h h := ⟨rfl, rfl, fun _ _ => rfl⟩

theorem keeps_atCounts (origin : Heap) (r : Ref) (delta : Int) :
    Keeps (AtCounts origin) (changeCount r delta) := by
  intro h ha
  have htable : h.table = origin.table := by rw [ha.same]
  unfold changeCount
  cases haddr : h.address r with
  | error fault =>
      rw [run_inspect_error haddr]
      exact ha
  | ok addr =>
      rw [run_inspect_ok haddr, run_bind_ok (run_get h), run_bind_ok (run_set h _)]
      refine ⟨?_, (capacity_setWord h addr _).trans ha.capacity, fun other hother => ?_⟩
      · rw [ha.same]
        rfl
      · have hne : other ≠ addr := fun heq =>
          hother (r, addr) (htable ▸ mem_table_of_address haddr) heq.symm
        have hword := word_setWord h addr other (shiftCount (h.countAt addr) delta)
        rw [if_neg fun hat => hne hat.1] at hword
        exact hword.trans (ha.words other hother)

theorem Laid.footprintAt_of_atCounts (hl : Laid h) (ha : AtCounts h h') (e : Ref × Nat)
    (he : e ∈ h.table) : h'.footprintAt e.2 = h.footprintAt e.2 := by
  refine congrArg (fun w : UInt32 => headerWords + w.toNat)
    (ha.words (e.2 + 3) fun e' he' heq => ?_)
  have hheader : headerWords = 4 := rfl
  by_cases hsame : e' = e
  · rw [hsame] at heq
    omega
  · have hfoot := headerWords_le_footprintAt h e.2
    have hfoot' := headerWords_le_footprintAt h e'.2
    rcases hl.apart he' he hsame with hapart | hapart <;> omega

theorem wordsOf_filter (h : Heap) (es : List (Ref × Nat)) (p : Ref × Nat → Bool) :
    h.wordsOf (es.filter p) = (es.map fun e => if p e then h.footprintAt e.2 else 0).sum := by
  induction es with
  | nil => rfl
  | cons e es ih =>
      rw [List.map_cons, List.sum_cons, List.filter_cons, ← ih]
      by_cases he : p e = true
      · rw [if_pos he, if_pos he, wordsOf_cons]
      · rw [if_neg he, if_neg he, Nat.zero_add]

/-- How the words of the dead objects differ: by those of the objects that died and of those that
came back to life. -/
theorem deadWords_change (es : List (Ref × Nat))
    (hfoot : ∀ e ∈ es, h'.footprintAt e.2 = h.footprintAt e.2) :
    (es.map fun e => h'.deadWordsAt e.2).sum +
        h.wordsOf (es.filter fun e => h.countAt e.2 = 0 ∧ h'.countAt e.2 ≠ 0) =
      (es.map fun e => h.deadWordsAt e.2).sum +
        h.wordsOf (es.filter fun e => h.countAt e.2 ≠ 0 ∧ h'.countAt e.2 = 0) := by
  rw [wordsOf_filter, wordsOf_filter, ← List.sum_map_add, ← List.sum_map_add]
  refine congrArg List.sum (List.map_congr_left fun e he => ?_)
  unfold deadWordsAt isDeadAt
  rw [hfoot e he]
  by_cases hbefore : h.countAt e.2 = 0 <;> by_cases hnow : h'.countAt e.2 = 0 <;>
    simp [hbefore, hnow]

/-- Where only counts change, the counts of some objects and all the rest say what happened. -/
theorem onlyRecounts (hl : Laid h) (ht : Tallied h) (hl' : Laid h') (ht' : Tallied h')
    (ha : AtCounts h h') (hre : Recounted h h')
    (hothers : ∀ x, ¬ changed x → h'.countOf x = h.countOf x) : OnlyRecounts h h' changed where
  same := ha.same
  capacity := ha.capacity
  words addr hne := by
    obtain ⟨e, he, rfl⟩ : ∃ e ∈ h.table, e.2 = addr := by
      by_contra hnone
      exact hne (ha.words addr fun e he heq => hnone ⟨e, he, heq⟩)
    refine ⟨e.1, ?_, hl.address_eq he⟩
    by_contra hnot
    have he' : (e.1, e.2) ∈ h'.table := by
      rw [hre.table]
      exact he
    have hcount := hothers e.1 hnot
    rw [hl'.countOf_eq he', hl.countOf_eq (show (e.1, e.2) ∈ h.table from he)] at hcount
    exact hne (UInt32.toNat_inj.1 hcount)
  reclaimable := by
    have hsum := deadWords_change h.table (hl.footprintAt_of_atCounts ha)
    rw [show h'.reclaimable = h'.deadWords from ht', show h.reclaimable = h.deadWords from ht]
    unfold deadWords
    rw [hre.table]
    exact hsum

/-! ## The walk -/

/-- What a walk has done to the heap where it began: it has taken down once the counts of what it
has entered, all of which is affected, and what dying objects hold has been entered or is before
it. -/
structure Lowering (origin : Heap) (root target : Ref) (delta : Int) (h : Heap) (walk : Walk)
    (rest : List Ref) : Prop where
  laid : Laid h
  recounted : Recounted origin h
  root_explored : root ∈ walk.explored
  target_explored : target ∈ walk.explored
  counts : ∀ x, h.countOf x =
    if x ∈ walk.explored ∧ (x = root ∨ x ≠ target) then shifted (origin.countOf x) delta
    else origin.countOf x
  explored : ∀ x ∈ walk.explored, x = target ∨ Affected origin root target delta x
  used : ∀ x ∈ walk.explored, (x = root ∨ x ≠ target) → x ∈ origin.inUse
  queue : ∀ q ∈ walk.queue, Affected origin root target delta q ∧ Dies origin delta q
  given : ∀ x ∈ rest, x = target ∨ Affected origin root target delta x
  closed : ∀ x ∈ walk.explored, (x = root ∨ x ≠ target) → Dies origin delta x →
    ∀ y ∈ origin.refsOf x, y ∈ walk.explored ∨ y ∈ rest ∨ x ∈ walk.queue

def Missing (h : Heap) (root target : Ref) (delta : Int) : Prop :=
  ∃ x, Affected h root target delta x ∧ x ∉ h.inUse

theorem dies_iff (h : Heap) (delta : Int) (r : Ref) :
    Dies h delta r ↔ h.countOf r ≠ 0 ∧ shifted (h.countOf r) delta = 0 := by
  have hlt := countOf_lt h r
  unfold Dies shifted
  omega

theorem Walk.length_enter (walk : Walk) (child : Ref) (dies : Prop) [Decidable dies] :
    (walk.enter child dies).queue.length = walk.queue.length + if dies then 1 else 0 := by
  unfold Walk.enter
  split
  · exact List.length_append
  · rfl

namespace Lowering

theorem skip (hw : Lowering origin root target delta h walk (child :: rest))
    (hentered : child ∈ walk.explored) : Lowering origin root target delta h walk rest :=
  { hw with
    given := (List.forall_mem_cons.1 hw.given).2
    closed := fun x hx hroot hdies y hy => by
      rcases hw.closed x hx hroot hdies y hy with hmem | hmem | hqueue
      · exact .inl hmem
      · rcases List.mem_cons.1 hmem with rfl | hmem
        · exact .inl hentered
        · exact .inr (.inl hmem)
      · exact .inr (.inr hqueue) }

theorem ne_target (hw : Lowering origin root target delta h walk rest)
    (hnew : child ∉ walk.explored) : child ≠ target :=
  (ne_of_mem_of_not_mem hw.target_explored hnew).symm

theorem count_eq (hw : Lowering origin root target delta h walk rest)
    (hnew : child ∉ walk.explored) : h.countOf child = origin.countOf child := by
  rw [hw.counts, if_neg fun hcase => hnew hcase.1]

theorem enter (hw : Lowering origin root target delta h walk (child :: rest))
    (hnew : child ∉ walk.explored) (hused : child ∈ h.inUse) {dies : Prop} [Decidable dies]
    (hdies : dies ↔ Dies origin delta child) (hl : Laid h') (hre : Recounted h h')
    (hcount : ∀ x, h'.countOf x =
      if x = child then shifted (h.countOf child) delta else h.countOf x) :
    Lowering origin root target delta h' (walk.enter child dies) rest := by
  have htarget := hw.ne_target hnew
  obtain ⟨hchild, hrest⟩ := List.forall_mem_cons.1 hw.given
  have haffected := hchild.resolve_left htarget
  rw [hw.recounted.inUse] at hused
  refine ⟨hl, hw.recounted.trans hre, List.mem_cons_of_mem _ hw.root_explored,
    List.mem_cons_of_mem _ hw.target_explored, fun x => ?_, fun x hx => ?_, fun x hx hroot => ?_,
    fun q hq => ?_, hrest, fun x hx hroot hxdies y hy => ?_⟩
  · rw [hcount]
    by_cases heq : x = child
    · subst heq
      rw [if_pos rfl, if_pos ⟨List.mem_cons_self, .inr htarget⟩, hw.count_eq hnew]
    · have hmem : x ∈ (walk.enter child dies).explored ↔ x ∈ walk.explored :=
        List.mem_cons.trans (or_iff_right heq)
      rw [if_neg heq, hw.counts]
      exact if_congr (and_congr_left' hmem.symm) rfl rfl
  · rcases List.mem_cons.1 hx with rfl | hx
    · exact .inr haffected
    · exact hw.explored x hx
  · rcases List.mem_cons.1 hx with rfl | hx
    · exact hused
    · exact hw.used x hx hroot
  · rcases walk.mem_queue_enter.1 hq with hq | ⟨hcase, rfl⟩
    · exact hw.queue q hq
    · exact ⟨haffected, hdies.1 hcase⟩
  · rcases List.mem_cons.1 hx with rfl | hx
    · -- a child that dies has just joined the queue
      exact .inr (.inr (walk.mem_queue_enter.2 (.inr ⟨hdies.2 hxdies, rfl⟩)))
    · rcases hw.closed x hx hroot hxdies y hy with hmem | hmem | hmem
      · exact .inl (List.mem_cons_of_mem _ hmem)
      · rcases List.mem_cons.1 hmem with rfl | hmem
        · exact .inl List.mem_cons_self
        · exact .inr (.inl hmem)
      · exact .inr (.inr (walk.mem_queue_enter.2 (.inl hmem)))

/-- Giving up some references enters them all, or comes to one that is not in use. -/
theorem giveUp (hdelta : delta < 0) (hw : Lowering origin root target delta h walk rest) :
    (∃ walk' h', run (giveUp delta walk rest) h = (.ok walk', h') ∧
        Lowering origin root target delta h' walk' [] ∧
        h'.living + walk'.queue.length = h.living + walk.queue.length) ∨
      ∃ fault h', run (giveUp delta walk rest) h = (.error fault, h') ∧
        Missing origin root target delta := by
  induction rest generalizing walk h with
  | nil => exact .inl ⟨walk, h, rfl, hw, rfl⟩
  | cons child rest ih =>
      unfold Heap.giveUp
      by_cases hentered : walk.explored.contains child = true
      · rw [if_pos hentered]
        exact ih (hw.skip (List.contains_iff_mem.1 hentered))
      rw [if_neg hentered]
      have hnew : child ∉ walk.explored := fun hmem => hentered (List.contains_iff_mem.2 hmem)
      by_cases hused : child ∈ h.inUse
      · obtain ⟨h₁, hrun, hl₁, hre, hcount⟩ := changeCount_spec hw.laid hused delta
        have hdies : (h.countOf child ≠ 0 ∧ shifted (h.countOf child) delta = 0) ↔
            Dies origin delta child := by
          rw [dies_iff, hw.count_eq hnew]
        have hliving := living_change hw.laid hre hused fun x hne => by rw [hcount, if_neg hne]
        have hself : h₁.countOf child = shifted (h.countOf child) delta := by
          rw [hcount, if_pos rfl]
        have hlength := walk.length_enter child
          (h.countOf child ≠ 0 ∧ shifted (h.countOf child) delta = 0)
        have hdown : shifted (h.countOf child) delta ≤ h.countOf child := by
          unfold shifted
          omega
        rw [hself] at hliving
        rw [run_bind_ok hrun]
        simp only [decide_eq_true_eq]
        rcases ih (hw.enter hnew hused hdies hl₁ hre hcount) with
          ⟨walk₂, h₂, hrun₂, hw₂, hleft⟩ | hfails
        · refine .inl ⟨walk₂, h₂, hrun₂, hw₂, ?_⟩
          split at hlength <;> split at hliving <;> split at hliving <;> omega
        · exact .inr hfails
      · have hgone : run (changeCount child delta) h = (.error (.unknownReference child), h) := by
          have haddr := ((address_cases hw.laid child).resolve_left fun hin => hused hin.1).2
          unfold changeCount
          rw [run_inspect_error haddr]
        have haffected := ((List.forall_mem_cons.1 hw.given).1).resolve_left (hw.ne_target hnew)
        rw [hw.recounted.inUse] at hused
        exact .inr ⟨_, h, run_bind_error hgone, child, haffected, hused⟩

theorem next {queue : List Ref} (hcase : walk.queue = r :: queue)
    (hw : Lowering origin root target delta h walk []) :
    Lowering origin root target delta h { walk with queue := queue } (h.refsOf r) := by
  have hrefs := hw.recounted.refsOf r
  have hqueue := hw.queue
  rw [hcase] at hqueue
  obtain ⟨⟨hr, hdies⟩, hqueue⟩ := List.forall_mem_cons.1 hqueue
  refine { hw with
    queue := hqueue
    given := fun x hx => ?_
    closed := fun x hx hroot hxdies y hy => ?_ }
  · rw [hrefs] at hx
    exact or_iff_not_imp_left.2 fun hne => hr.field hdies hx hne
  · rcases hw.closed x hx hroot hxdies y hy with hmem | hmem | hmem
    · exact .inl hmem
    · exact absurd hmem List.not_mem_nil
    · rw [hcase] at hmem
      rcases List.mem_cons.1 hmem with rfl | hmem
      · exact .inr (.inl (hrefs ▸ hy))
      · exact .inr (.inr hmem)

theorem queue_inUse (hw : Lowering origin root target delta h walk rest) :
    ∀ q ∈ walk.queue, q ∈ h.inUse := by
  intro q hq
  rw [hw.recounted.inUse]
  exact mem_inUse_of_countOf (hw.queue q hq).2.1

/-- The turns suffice for the objects that are still alive, so the walk comes to its end, whatever
the objects hold: to an empty queue, or to something that is not in use. -/
theorem drain (hdelta : delta < 0) {turns : Nat} (hturns : h.living + walk.queue.length ≤ turns)
    (hw : Lowering origin root target delta h walk []) :
    WorksOff delta walk h (run (drain delta turns walk) h).1 (run (drain delta turns walk) h).2 ∧
      ((∃ walk' h', run (drain delta turns walk) h = (.ok (), h') ∧ walk'.queue = [] ∧
          Lowering origin root target delta h' walk' []) ∨
        ∃ fault h', run (drain delta turns walk) h = (.error fault, h') ∧
          Missing origin root target delta) := by
  induction turns generalizing walk h with
  | zero =>
      have hempty : walk.queue = [] := List.length_eq_zero_iff.1 (by omega)
      exact ⟨.done hempty, .inl ⟨walk, h, rfl, hempty, hw⟩⟩
  | succ turns ih =>
      unfold Heap.drain
      cases hcase : walk.queue with
      | nil => exact ⟨.done hcase, .inl ⟨walk, h, rfl, hcase, hw⟩⟩
      | cons r queue =>
          have hr : r ∈ h.inUse := hw.queue_inUse r (by rw [hcase]; exact List.mem_cons_self)
          have hrefs := references_eq hw.laid hr
          dsimp only
          rw [run_inspect_ok hrefs]
          rcases (hw.next hcase).giveUp hdelta with
            ⟨walk₁, h₁, hgive, hw₁, hleft⟩ | ⟨fault, h₁, hgive, hmissing⟩
          · have hturns₁ : h₁.living + walk₁.queue.length ≤ turns := by
              rw [hcase, List.length_cons] at hturns
              dsimp only at hleft
              omega
            obtain ⟨hworks, hends⟩ := ih hturns₁ hw₁
            rw [run_bind_ok hgive]
            exact ⟨.turn hcase hrefs hgive hworks, hends⟩
          · rw [run_bind_error hgive]
            exact ⟨.stopped hcase hrefs hgive, .inr ⟨fault, h₁, rfl, hmissing⟩⟩

theorem affected_iff (hended : walk.queue = []) (hw : Lowering origin root target delta h walk [])
    (x : Ref) : Affected origin root target delta x ↔
      x ∈ walk.explored ∧ (x = root ∨ x ≠ target) := by
  constructor
  · intro hx
    induction hx with
    | root => exact ⟨hw.root_explored, .inl rfl⟩
    | @field x y _ hdies hy hne ih =>
        refine ⟨?_, .inr hne⟩
        rcases hw.closed x ih.1 ih.2 hdies y hy with hmem | hmem | hmem
        · exact hmem
        · exact absurd hmem List.not_mem_nil
        · rw [hended] at hmem
          exact absurd hmem List.not_mem_nil
  · rintro ⟨hmem, hroot⟩
    rcases hw.explored x hmem with htarget | hx
    · rw [hroot.resolve_right fun hne => hne htarget]
      exact .root
    · exact hx

end Lowering

/-! ## Decrements -/

theorem shifted_of_neg {count : Nat} (hdelta : delta < 0) (hlt : count < 2 ^ 32) :
    (shifted count delta : Int) = max 0 (count + delta) := by
  unfold shifted
  omega

/-- Adding to a count goes on to a walk where the object dies by a structural decrement, and does
nothing more anywhere else. -/
theorem run_addToCount (ht : Tidy h) (hroot : root ∈ h.inUse)
    (htarget : target = 0 ∨ 0 < h.countOf target) (delta : Int) (structural : Bool) :
    ∃ died h₁, run (changeCount root delta) h = (.ok died, h₁) ∧ Laid h₁ ∧ Recounted h h₁ ∧
      (died = true ↔ h.countOf root ≠ 0 ∧ shifted (h.countOf root) delta = 0) ∧
      (∀ x, h₁.countOf x = if x = root then shifted (h.countOf root) delta else h.countOf x) ∧
      run (addToCount root target delta structural) h =
        if died && structural && decide (delta < 0) then
          run (drain delta (h₁.table.length + 1) { queue := [root], explored := [root, target] }) h₁
        else (.ok (), h₁) := by
  have halive : ¬ (target ≠ 0 ∧ h.countOf target = 0) := by
    rintro ⟨hne, hdead⟩
    exact absurd (htarget.resolve_left hne) (by omega)
  obtain ⟨h₁, hrun, hl₁, hre, hcount⟩ := changeCount_spec ht.laid hroot delta
  refine ⟨_, h₁, hrun, hl₁, hre, decide_eq_true_iff, hcount, ?_⟩
  unfold addToCount
  rw [if_neg (ne_of_mem_of_not_mem hroot ht.zero_notMem_inUse),
    run_inspect_ok (isDeadObject_eq ht.laid (htarget.imp_right mem_inUse_of_countOf)),
    if_neg (by rw [decide_eq_true_iff]; exact halive), run_bind_ok hrun]
  split
  · rw [run_bind_ok (run_get h₁)]
  · rfl

theorem Lowering.begin (hl₁ : Laid h') (hre : Recounted h h') (hroot : root ∈ h.inUse)
    (hdies : Dies h delta root) (hcount : ∀ x, h'.countOf x =
      if x = root then shifted (h.countOf root) delta else h.countOf x) :
    Lowering h root target delta h' { queue := [root], explored := [root, target] } [] where
  laid := hl₁
  recounted := hre
  root_explored := List.mem_cons_self
  target_explored := List.mem_cons_of_mem _ (List.mem_singleton_self target)
  counts x := by
    have hiff : x ∈ [root, target] ∧ (x = root ∨ x ≠ target) ↔ x = root := by
      simp only [List.mem_cons, List.not_mem_nil, or_false]
      tauto
    rw [hcount]
    by_cases heq : x = root
    · rw [if_pos heq, if_pos (hiff.2 heq), heq]
    · rw [if_neg heq, if_neg fun hcase => heq (hiff.1 hcase)]
  explored x hx := by
    rcases List.mem_cons.1 hx with rfl | hx
    · exact .inr .root
    · exact .inl (List.mem_singleton.1 hx)
  used x hx hcase := by
    rcases List.mem_cons.1 hx with rfl | hx
    · exact hroot
    · rw [hcase.resolve_right fun hne => hne (List.mem_singleton.1 hx)]
      exact hroot
  queue q hq := by
    rw [List.mem_singleton.1 hq]
    exact ⟨.root, hdies⟩
  given _ hx := absurd hx List.not_mem_nil
  closed x hx hcase _ _ _ := by
    rcases List.mem_cons.1 hx with rfl | hx
    · exact .inr (.inr (List.mem_singleton_self x))
    · rw [hcase.resolve_right fun hne => hne (List.mem_singleton.1 hx)]
      exact .inr (.inr (List.mem_singleton_self root))

theorem affected_of_not_dies (hdies : ¬ Dies h delta root) (x : Ref) :
    Affected h root target delta x ↔ x = root := by
  constructor
  · intro hx
    induction hx with
    | root => rfl
    | field _ hxdies _ _ ih =>
        rw [ih] at hxdies
        exact absurd hxdies hdies
  · rintro rfl
    exact .root

/-- A structural decrement ends. It takes the counts of all that is affected down once, or comes to
something that is not in use. -/
theorem Tidy.lower (ht : Tidy h) (hroot : root ∈ h.inUse)
    (htarget : target = 0 ∨ 0 < h.countOf target) (hdelta : delta < 0) :
    Completes h root target delta (run (addToCount root target delta true) h) ∧
      ((∃ h', run (addToCount root target delta true) h = (.ok (), h') ∧
          (∀ x, Affected h root target delta x → x ∈ h.inUse) ∧
          (∀ x, Affected h root target delta x →
            h'.countOf x = shifted (h.countOf x) delta) ∧
          ∀ x, ¬ Affected h root target delta x → h'.countOf x = h.countOf x) ∨
        ∃ fault h', run (addToCount root target delta true) h = (.error fault, h') ∧
          Missing h root target delta) := by
  obtain ⟨died, h₁, hchange, hl₁, hre, hdied, hcount, hrun⟩ :=
    run_addToCount ht hroot htarget delta true
  rw [← dies_iff] at hdied
  rw [hrun]
  by_cases hdies : Dies h delta root
  · have hcase : (died && true && decide (delta < 0)) = true := by simp [hdied.2 hdies, hdelta]
    have hturns : h₁.living + [root].length ≤ h₁.table.length + 1 :=
      Nat.add_le_add_right (living_le h₁) 1
    have hbegin : Lowering h root target delta h₁
        { queue := [root], explored := [root, target] } [] :=
      Lowering.begin hl₁ hre hroot hdies hcount
    obtain ⟨hworks, hends⟩ := hbegin.drain hdelta hturns
    rw [if_pos hcase]
    refine ⟨⟨died, h₁, hchange, by rwa [if_pos (hdied.2 hdies)]⟩, ?_⟩
    rcases hends with ⟨walk, h', hdone, hended, hw⟩ | hfails
    · have hiff := hw.affected_iff hended
      refine .inl ⟨h', hdone, fun x hx => ?_, fun x hx => ?_, fun x hx => ?_⟩
      · exact hw.used x ((hiff x).1 hx).1 ((hiff x).1 hx).2
      · rw [hw.counts, if_pos ((hiff x).1 hx)]
      · rw [hw.counts, if_neg fun hcase => hx ((hiff x).2 hcase)]
    · exact .inr hfails
  · have hnot : ¬ died = true := fun hcase => hdies (hdied.1 hcase)
    have hiff : ∀ x, Affected h root target delta x ↔ x = root := affected_of_not_dies hdies
    rw [if_neg (by simp [hnot])]
    refine ⟨⟨died, h₁, hchange, by rw [if_neg hnot]⟩, .inl ⟨h₁, rfl, fun x hx => ?_, fun x hx => ?_,
      fun x hx => ?_⟩⟩
    · rw [(hiff x).1 hx]
      exact hroot
    · rw [hcount, if_pos ((hiff x).1 hx), (hiff x).1 hx]
    · rw [hcount, if_neg fun heq => hx ((hiff x).2 heq)]

theorem Counted.addToCount (hc : Counted h) (root target : Ref) (delta : Int) (structural : Bool) :
    Counted (run (addToCount root target delta structural) h).2 ∧
      AtCounts h (run (addToCount root target delta structural) h).2 ∧
      Recounted h (run (addToCount root target delta structural) h).2 :=
  ⟨(unclamped_addToCount root target delta structural).keeps h hc,
    keeps_addToCount (keeps_atCounts h · delta) root target structural h (.refl h),
    (onlyCounts_addToCount root target delta structural h hc.1).toRecounted⟩

theorem Laid.decremented (hl : Laid h) (hl' : Laid h') (hre : Recounted h h')
    (hdelta : delta < 0) (hrec : OnlyRecounts h h' (Affected h root target delta))
    (hused : ∀ x, Affected h root target delta x → x ∈ h.inUse)
    (hcount : ∀ x, Affected h root target delta x → h'.countOf x = shifted (h.countOf x) delta)
    (hothers : ∀ x, ¬ Affected h root target delta x → h'.countOf x = h.countOf x) :
    Decremented h h' root target delta where
  toOnlyRecounts := hrec
  inUse := hused
  count x hx := by rw [hcount x hx, shifted_of_neg hdelta (countOf_lt h x)]
  reclaimable_eq := by
    have hnone : h.table.filter (fun e => h.countAt e.2 = 0 ∧ h'.countAt e.2 ≠ 0) = [] := by
      refine List.filter_eq_nil_iff.2 fun e he hcase => ?_
      obtain ⟨hbefore, hnow⟩ := of_decide_eq_true hcase
      have he' : (e.1, e.2) ∈ h'.table := by
        rw [hre.table]
        exact he
      have hzero : h.countOf e.1 = 0 := by
        rw [hl.countOf_eq (show (e.1, e.2) ∈ h.table from he)]
        exact eq_zero_iff.1 hbefore
      have hstays : h'.countOf e.1 = 0 := by
        by_cases hx : Affected h root target delta e.1
        · rw [hcount e.1 hx, hzero]
          unfold shifted
          omega
        · rw [hothers e.1 hx, hzero]
      rw [hl'.countOf_eq he'] at hstays
      exact hnow (eq_zero_iff.2 hstays)
    have hsum := hrec.reclaimable
    rwa [hnone] at hsum

theorem countOf_of_address {addr : Nat} (haddr : h.address x = .ok addr) :
    h.countOf x = (h.countAt addr).toNat := by
  unfold address at haddr
  unfold countOf
  cases hlookup : h.table.lookup x with
  | none =>
      rw [hlookup] at haddr
      exact nomatch haddr
  | some found =>
      rw [hlookup] at haddr
      rw [Except.ok.inj haddr]

theorem Decremented.unique {h'' : Heap} (hd : Decremented h h' root target delta)
    (hd' : Decremented h h'' root target delta) : h'' = h' := by
  have hwords : ∀ addr, h''.word addr = h'.word addr := by
    intro addr
    by_cases hx : ∃ x, Affected h root target delta x ∧ h.address x = .ok addr
    · obtain ⟨x, hx, haddr⟩ := hx
      have hcount : ∀ {other : Heap}, Decremented h other root target delta →
          ((other.word addr).toNat : Int) = max 0 (h.countOf x + delta) := fun {other} hd => by
        have haddr' : other.address x = .ok addr := by
          rw [hd.same]
          exact haddr
        rw [← hd.count x hx, countOf_of_address haddr']
        rfl
      have hequal := (hcount hd').trans (hcount hd).symm
      exact UInt32.toNat_inj.1 (Int.ofNat_inj.1 hequal)
    · have hword : ∀ {other : Heap}, Decremented h other root target delta →
          other.word addr = h.word addr := fun hd => by
        by_contra hne
        exact hx (hd.words addr hne)
      rw [hword hd, hword hd']
  have hmemory : h''.memory = h'.memory :=
    memory_ext (hd'.capacity.trans hd.capacity.symm) hwords
  have hcounts : ∀ addr, h''.countAt addr = h'.countAt addr := hwords
  have htotal : h''.reclaimable = h'.reclaimable := by
    rw [hd.reclaimable_eq, hd'.reclaimable_eq]
    simp only [hcounts]
  rw [hd.same, hd'.same, hmemory, htotal]

theorem Tidy.shift_root (ht : Tidy h) (hroot : root ∈ h.inUse)
    (htarget : target = 0 ∨ 0 < h.countOf target) {structural : Bool}
    (hsingle : 0 ≤ delta ∨ structural = false) :
    ∃ h', run (addToCount root target delta structural) h = (.ok (), h') ∧
      h'.countOf root = shifted (h.countOf root) delta ∧
      ∀ x, x ≠ root → h'.countOf x = h.countOf x := by
  obtain ⟨died, h₁, -, -, -, -, hcount, hrun⟩ := run_addToCount ht hroot htarget delta structural
  have hnot : ¬ (died && structural && decide (delta < 0)) = true := by
    rcases hsingle with hdelta | hflat
    · simp [Int.not_lt.2 hdelta]
    · simp [hflat]
  rw [if_neg hnot] at hrun
  exact ⟨h₁, hrun, by rw [hcount, if_pos rfl], fun x hne => by rw [hcount, if_neg hne]⟩

/-- After any calls, a structural decrement of an object in use whose target is not dead comes to an
end, and succeeds if and only if all that it affects is in use.  Then it has taken the count of each
affected object down once and done nothing else but move the total of the words to reclaim; this
determines the heap behind it.  Any other change of a count changes the one count only. -/
theorem decrement_affects (limits : HeapLimits) (calls : List Call) {root target : Ref}
    (delta : Int) (hroot : root ∈ ((new limits).performed calls).inUse)
    (htarget : target = 0 ∨ ((new limits).performed calls).Alive target) :
    let h := (new limits).performed calls
    (delta < 0 →
      let ended := run (addToCount root target delta true) h
      Completes h root target delta ended ∧
        (ended.1 = .ok () ↔ ∀ x, Affected h root target delta x → x ∈ h.inUse) ∧
        (ended.1 = .ok () → Decremented h ended.2 root target delta ∧
          ∀ h', Decremented h h' root target delta → h' = ended.2)) ∧
      ∀ structural, 0 ≤ delta ∨ structural = false →
        let ended := run (addToCount root target delta structural) h
        ended.1 = .ok () ∧ OnlyRecounts h ended.2 (· = root) ∧
          (ended.2.countOf root : Int) = max 0 (min (h.countOf root + delta) (2 ^ 32 - 1)) := by
  intro h
  have ho : Ordered limits h := (Ordered.new limits).performed calls
  have hc : Counted h := ⟨ho.laid, invariant_tallied.after_calls limits calls⟩
  have hlive : target = 0 ∨ 0 < h.countOf target := htarget.imp_right alive_iff.1
  refine ⟨fun hdelta => ?_, fun structural hsingle => ?_⟩
  · obtain ⟨hcompletes, hends⟩ := ho.toTidy.lower hroot hlive hdelta
    obtain ⟨⟨hl', ht'⟩, ha, hre⟩ := hc.addToCount root target delta true
    refine ⟨hcompletes, ?_⟩
    rcases hends with ⟨h', hrun, hused, hcount, hothers⟩ | ⟨fault, h', hrun, x, hx, hmissing⟩
    · rw [hrun] at hl' ht' ha hre ⊢
      have hd := hc.1.decremented hl' hre hdelta
        (onlyRecounts hc.1 hc.2 hl' ht' ha hre hothers) hused hcount hothers
      exact ⟨iff_of_true rfl hused, fun _ => ⟨hd, fun h'' hd' => hd.unique hd'⟩⟩
    · rw [hrun]
      exact ⟨iff_of_false (fun hok => nomatch hok) fun hall => hmissing (hall x hx),
        fun hok => nomatch hok⟩
  · obtain ⟨⟨hl', ht'⟩, ha, hre⟩ := hc.addToCount root target delta structural
    obtain ⟨h', hrun, hcount, hothers⟩ := ho.toTidy.shift_root hroot hlive hsingle
    rw [hrun] at hl' ht' ha hre ⊢
    refine ⟨rfl, onlyRecounts hc.1 hc.2 hl' ht' ha hre hothers, ?_⟩
    rw [hcount]
    unfold shifted
    omega

/-- Two objects hold each other and a third one.  Taking one count from the first ends: it dies and
takes a count from each of the others. -/
theorem decrement_affects_circle :
    let calls : List Call := [.request (.make 2 3), .request (.make 2 3), .request (.makePlain 0),
      .request (.write 1 0 2), .request (.write 1 1 3), .request (.write 2 0 1),
      .request (.write 2 1 3), .addToCount 1 0 (-1) false, .addToCount 2 0 (-1) false]
    let h := (new { capacity := 64, maxRef := 8 }).performed calls
    let ended := run (addToCount 1 0 (-1) true) h
    (1 : Ref) ∈ h.inUse ∧ h.countOf 1 = 1 ∧ h.countOf 2 = 1 ∧ h.countOf 3 = 3 ∧
      ended.1 = .ok () ∧ Affected h 1 0 (-1) 3 ∧ Decremented h ended.2 1 0 (-1) ∧
      ended.2.countOf 1 = 0 ∧ ended.2.countOf 2 = 0 ∧ ended.2.countOf 3 = 2 ∧
      ended.2.reclaimable = 12 ∧ OnlyRecounts h (run (addToCount 3 2 (-9) false) h).2 (· = 3) := by
  intro calls h ended
  have hroot : (1 : Ref) ∈ h.inUse := by decide +kernel
  have hleaf : (3 : Ref) ∈ h.inUse := by decide +kernel
  have halive : h.Alive 2 := by decide +kernel
  have hfirst : Dies h (-1) 1 := by
    unfold Dies
    decide +kernel
  have hthird : Affected h 1 0 (-1) 3 :=
    .field .root hfirst (by decide +kernel) (by decide)
  have hok : ended.1.toOption = some () := by decide +kernel
  have hended : ended.1 = .ok () := by
    cases hcase : ended.1 with
    | ok a => rfl
    | error fault =>
        rw [hcase] at hok
        exact nomatch hok
  obtain ⟨-, -, hdone⟩ :=
    (decrement_affects { capacity := 64, maxRef := 8 } calls (-1) hroot (.inl rfl)).1 (by decide)
  have hsingle :=
    (decrement_affects { capacity := 64, maxRef := 8 } calls (-9) hleaf (.inr halive)).2 false
      (.inr rfl)
  exact ⟨hroot, by decide +kernel, by decide +kernel, by decide +kernel, hended, hthird,
    (hdone hended).1, by decide +kernel, by decide +kernel, by decide +kernel, by decide +kernel,
    hsingle.2.1⟩

end Midend.Heap
