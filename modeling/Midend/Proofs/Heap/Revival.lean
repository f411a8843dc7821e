import Midend.Proofs.Heap.Discipline
/-!
# Bringing objects back to life

An object whose count is zero stays in the table until the next compaction.  A program may
hold it again or store it in a field again.  Its own fields gave up what they held when it
died, and they do not take it back: unless they hold nothing, or only objects that have
counts to spare (`Restorable`), the object comes back with references to what may be gone.

A program that only brings back what is restorable is as safe as a disciplined one.
-/

namespace Midend.Heap

open Relation

/-- A program that uses whatever is in the table may ask for this. -/
def Permitted (h : Heap) : Request → Prop
  | .write r offset value => h.tracesField r offset = .ok true → value = 0 ∨ value ∈ h.inUse
  | .hold r => r = 0 ∨ r ∈ h.inUse
  | .letGo r => r = 0 ∨ r ∈ h.roots
  | _ => True

/-- If the object is dead, what its fields hold has counts for them to spare. -/
def Restorable (h : Heap) (r : Ref) : Prop :=
  h.countOf r = 0 → ∀ x ∈ h.refsOf r, h.holders x + (h.refsOf r).count x ≤ h.countOf x

/-- The request gives a new holder only to what is restorable. -/
def Restores (h : Heap) : Request → Prop
  | .write r offset value => h.Alive r → h.tracesField r offset = .ok true → Restorable h value
  | .hold r => Restorable h r
  | _ => True

def Along (p : Heap → Request → Prop) (h : Heap) : List Request → Prop
  | [] => True
  | request :: rest => p h request ∧ Along p (h.serve request) rest

/-- What is alive keeps everything that it reaches, and the numbers of all that. -/
structure Lasting (h : Heap) : Prop where
  fields_alive : ∀ r offset w, h.Alive r → h.tracesField r offset = .ok true →
    h.read r offset = .ok w → w = 0 ∨ h.Alive w
  reached_alive : ∀ r x, h.Alive r → ReflTransGen h.Holds r x → h.Alive x
  reached_stays : ∀ r x, h.Alive r → ReflTransGen h.Holds r x → (run compact h).2.Alive x
  number_unused : ∀ fields bitmap r h', run (make fields bitmap) h = (.ok r, h') →
    ¬ h.Alive r ∧ (∀ x, ¬ h.Holds x r) ∧ ∀ scope ∈ h.roots :: h.outer, r ∉ scope

variable {h h' : Heap} {owed : Ref → Nat} {r x : Ref} {addr offset : Nat} {value : UInt32}

instance (h : Heap) : (request : Request) → Decidable (Permitted h request)
  | .write r offset value =>
    inferInstanceAs (Decidable (h.tracesField r offset = .ok true → value = 0 ∨ value ∈ h.inUse))
  | .hold r => inferInstanceAs (Decidable (r = 0 ∨ r ∈ h.inUse))
  | .letGo r => inferInstanceAs (Decidable (r = 0 ∨ r ∈ h.roots))
  | .make .. | .makePlain _ | .read .. | .openScope | .closeScope | .compact => .isTrue trivial

-- through what the fields hold, not through all references
instance (h : Heap) (r : Ref) : Decidable (Restorable h r) :=
  have := List.decidableBAll
    (fun x => h.holders x + (h.refsOf r).count x ≤ h.countOf x) (h.refsOf r)
  inferInstanceAs (Decidable (h.countOf r = 0 →
    ∀ x ∈ h.refsOf r, h.holders x + (h.refsOf r).count x ≤ h.countOf x))

instance (h : Heap) : (request : Request) → Decidable (Restores h request)
  | .write r offset value => inferInstanceAs (Decidable
      (h.Alive r → h.tracesField r offset = .ok true → Restorable h value))
  | .hold r => inferInstanceAs (Decidable (Restorable h r))
  | .make .. | .makePlain _ | .read .. | .openScope | .closeScope | .compact | .letGo _ =>
    .isTrue trivial

instance decidableAlong (p : Heap → Request → Prop) [∀ h request, Decidable (p h request)] :
    (h : Heap) → (requests : List Request) → Decidable (Along p h requests)
  | _, [] => .isTrue trivial
  | h, request :: rest =>
    have := decidableAlong p (h.serve request) rest
    inferInstanceAs (Decidable (p h request ∧ Along p (h.serve request) rest))

/-! ## One request -/

theorem Restorable.backed (hs : Sound h) (hrestorable : Restorable h r) : Backed h r := by
  intro x
  have henough := hs.enough x
  unfold regained
  split
  · rename_i hdead
    by_cases hmem : x ∈ h.refsOf r
    · exact hrestorable hdead x hmem
    · rw [List.count_eq_zero.2 hmem]
      omega
  · omega

theorem run_addToCount_of_dead (hl : Laid h) (root : Ref) {target : Ref} (hzero : target ≠ 0)
    (htarget : target ∈ h.inUse) (hdead : h.countOf target = 0) (delta : Int) (structural : Bool) :
    run (addToCount root target delta structural) h = (.ok (), h) := by
  unfold addToCount
  by_cases hroot : root = 0
  · rw [if_pos hroot]
    rfl
  · rw [if_neg hroot, run_inspect_ok (isDeadObject_eq hl (.inr htarget)),
      if_pos (decide_eq_true ⟨hzero, hdead⟩)]
    rfl

theorem Laid.fieldsHolding_setField_of_dead (hl : Laid h) (he : (r, addr) ∈ h.table)
    (hdead : h.countOf r = 0) (hoffset : offset < h.sizeAt addr) (value : UInt32) (x : Ref) :
    (h.setWord (addr + headerWords + offset) value).fieldsHolding x = h.fieldsHolding x := by
  unfold fieldsHolding
  refine congrArg List.sum (List.map_congr_left fun y _ => ?_)
  rw [hl.countOf_setField he hoffset]
  by_cases heq : y = r
  · subst heq
    rw [if_pos hdead, if_pos hdead]
  · rw [hl.refsOf_setWord_of_ne he (writable_field h _ hoffset) value heq]

theorem Covered.write_dead (hs : Sound h) (he : (r, addr) ∈ h.table) (hdead : h.countOf r = 0)
    (hoffset : offset < h.fieldsAt addr) (hvalue : Storable h addr offset value) :
    ∃ h', run (Heap.write r offset value) h = (.ok (), h') ∧ Sound h' := by
  have hsize := hs.laid.fieldsAt_lt he hoffset
  have htidy := hs.setField he hsize value
  have hcount := hs.laid.countOf_setField he hsize value
  have hused : r ∈ h.inUse := mem_inUse.2 ⟨addr, he⟩
  have hskip := fun root delta => run_addToCount_of_dead htidy.laid root
    (ne_of_mem_of_not_mem hused hs.toTidy.zero_notMem_inUse) hused
    ((hcount r).trans hdead) delta true
  refine ⟨h.setWord (addr + headerWords + offset) value, ?_, htidy, fun x => ?_⟩
  · rw [run_write hs.laid he hoffset hvalue]
    unfold moveCount
    split
    · rw [run_bind_ok (hskip value 1), hskip]
    · rfl
  · have hfields := hs.laid.fieldsHolding_setField_of_dead he hdead hsize value x
    have henough := hs.enough x
    unfold holders at henough ⊢
    rw [hfields, hcount]
    exact henough

theorem Covered.serve_restoring (hs : Sound h) (hroom : ¬ Full h) {request : Request}
    (hpermitted : Permitted h request) (hrestores : Restores h request) :
    Sound (h.serve request) := by
  cases request with
  | write r offset value =>
      rcases write_cases hs.laid r offset value with
        ⟨fault, hrun⟩ | ⟨addr, he, hoffset, hstorable, -⟩
      · change Sound (run (Heap.write r offset value) h).2
        rw [hrun]
        exact hs
      · by_cases hlive : 0 < h.countOf r
        · refine of_run (hs.write he hlive hoffset (fun htraced => ?_) hroom)
          have hrestorable := hrestores (alive_iff.2 hlive)
            ((tracesField_eq hs.laid he).trans (congrArg Except.ok htraced))
          exact (hstorable htraced).imp_right fun hused => ⟨hused, hrestorable.backed hs⟩
        · exact of_run (hs.write_dead he (Nat.eq_zero_of_not_pos hlive) hoffset hstorable)
  | hold r =>
      exact of_run (hs.hold (hpermitted.imp_right fun hused => ⟨hused, hrestores.backed hs⟩) hroom)
  | letGo r =>
      have hallowed : Allowed h (.letGo r) := hpermitted
      exact hs.serve hroom hallowed
  | make fields bitmap => exact hs.make fields bitmap
  | makePlain fields => exact hs.make fields 0
  | read r offset => exact hs
  | openScope => exact hs.openScope
  | closeScope =>
      have hallowed : Allowed h .closeScope := trivial
      exact hs.serve hroom hallowed
  | compact => exact hs.compacted

/-! ## Whole runs -/

theorem Laid.dead_of_made (hl : Laid h) (hn : Numbered h []) {fields : Nat} {bitmap : UInt32}
    (hmade : run (make fields bitmap) h = (.ok r, h')) : ¬ 0 < h.countOf r := by
  rcases make_cases hl hn fields bitmap with
    ⟨fault, _, hrun, -⟩ | ⟨before, y, free, last, hsame, hnew, -, -, hrun⟩
  · rw [hmade] at hrun
    exact nomatch (Prod.mk.inj hrun).1
  · rw [hmade] at hrun
    obtain rfl := Except.ok.inj (Prod.mk.inj hrun).1
    have hunused : r ∉ before.inUse := hnew.not_mem_inUse
    rcases hsame with rfl | rfl
    · exact fun hlive => hunused (mem_inUse_of_countOf hlive)
    · exact fun hlive => hunused (hl.mem_inUse_compacted.2 hlive)

theorem Covered.lasting (hs : Sound h) (hroom : ¬ Full h) : Lasting h where
  fields_alive r offset w halive htraced hread := by
    by_cases hzero : w = 0
    · exact .inl hzero
    · exact .inr ((hs.safe hroom).fields_alive r offset w halive htraced hread hzero)
  reached_alive r x halive hreached :=
    alive_iff.2 (hs.live_of_reached (alive_iff.1 halive) hreached)
  reached_stays r x halive hreached := by
    change h.compacted.Alive x
    rw [alive_iff, hs.laid.countOf_compacted]
    exact hs.live_of_reached (alive_iff.1 halive) hreached
  number_unused fields bitmap r h' hmade := by
    have hdead := hs.laid.dead_of_made hs.numbered hmade
    refine ⟨fun halive => hdead (alive_iff.1 halive), fun x hholds => ?_, fun scope hscope hr => ?_⟩
    · exact hdead (hs.live_of_mem_refsOf hholds.1 hholds.2)
    · exact hdead (hs.live_of_mem_scope hscope hr)

theorem Lasting.ne_made (hlasting : Lasting h) (hholds : h.Holds x r) (fields : Nat)
    (bitmap : UInt32) : (run (make fields bitmap) h).1 ≠ .ok r := fun hmade =>
  (hlasting.number_unused fields bitmap r _ (Prod.ext hmade rfl)).2.1 x hholds

/-- A program may bring objects back as long as it brings back only what is restorable: then
whatever is alive keeps all that it reaches, unless some object has had as many holders as a
count can stand for. -/
theorem revival_lasting (limits : HeapLimits) {requests : List Request}
    (hpermitted : Along Permitted (new limits) requests)
    (hrestores : Along Restores (new limits) requests) :
    (∃ n ≤ requests.length, Full ((new limits).served (requests.take n))) ∨
      Lasting ((new limits).served requests) := by
  have hruns := Covered.full_or_served
    (Q := fun h requests => Along Permitted h requests ∧ Along Restores h requests)
    (fun hs hroom hd => ⟨hs.serve_restoring hroom hd.1.1 hd.2.1, hd.1.2, hd.2.2⟩)
    (Covered.new limits) ⟨hpermitted, hrestores⟩
  exact hruns.imp_right fun ⟨hs, hroom⟩ => hs.lasting hroom

/-- An object without references comes back by a store, dies again and comes back by being
held; another one gives up what it holds before it comes back. -/
theorem revival_lasting_emptied :
    let limits : HeapLimits := { capacity := 64, maxRef := 8 }
    let requests : List Request := [.make 1 1, .openScope, .makePlain 2, .closeScope,
      .write 1 0 2, .write 1 0 0, .hold 2, .openScope, .make 1 1, .write 3 0 2, .closeScope,
      .write 3 0 0, .write 1 0 3, .compact, .makePlain 1]
    Along Permitted (new limits) requests ∧ Along Restores (new limits) requests ∧
      Lasting ((new limits).served requests) := by
  intro limits requests
  have hpermitted : Along Permitted (new limits) requests := by decide +kernel
  have hrestores : Along Restores (new limits) requests := by decide +kernel
  have hroom : ¬ ∃ n ≤ requests.length, Full ((new limits).served (requests.take n)) :=
    not_full_of_few (by decide +kernel)
  exact ⟨hpermitted, hrestores, (revival_lasting limits hpermitted hrestores).resolve_left hroom⟩

/-- An object comes back with a field that holds what died with it.  After a compaction the
number in the field is handed out again. -/
theorem revival_not_lasting_parent :
    let limits : HeapLimits := { capacity := 64, maxRef := 8 }
    let requests : List Request := [.openScope, .make 1 1, .makePlain 0, .write 1 0 2,
      .closeScope, .hold 1, .compact]
    Along Permitted (new limits) requests ∧ ((new limits).served requests).Alive 1 ∧
      ((new limits).served requests).Holds 1 2 ∧
      (run (make 0 0) ((new limits).served requests)).1 = .ok 2 ∧
      ¬ Lasting ((new limits).served requests) := by
  intro limits requests
  have halive : ((new limits).served requests).Alive 1 := by decide +kernel
  have hholds : ((new limits).served requests).Holds 1 2 :=
    ⟨alive_iff.1 halive, by decide +kernel⟩
  have hmade : (run (make 0 0) ((new limits).served requests)).1 = .ok 2 := by decide +kernel
  refine ⟨by decide +kernel, halive, hholds, hmade, fun hlasting => ?_⟩
  exact hlasting.ne_made hholds 0 0 hmade

end Midend.Heap
