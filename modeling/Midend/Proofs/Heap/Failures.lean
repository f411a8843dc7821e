import Midend.Proofs.Heap.Calls
import Midend.Proofs.Heap.Revival
/-!
# Operations that fail

An operation on objects and scopes first looks at what it was asked for, and refuses it before
anything has changed (`Refuses`).  There is one other way to fail: letting go of an object walks
over all that dies with it, and a dying object may hold a reference that is not in use any more
(`Dangling`).  The walk stops there, and what it has done so far stays.

So an operation that fails leaves the heap as it was if and only if it was refused, and where no
object holds such a reference nothing else fails (`failure_keeps_heap_iff`).
-/

namespace Midend.Heap

/-- The request works on objects and scopes that are there: it makes no object and moves none. -/
def Request.OnObjects : Request → Prop
  | .make .. | .makePlain _ | .compact => False
  | .read .. | .write .. | .openScope | .closeScope | .hold _ | .letGo _ => True

def Request.LetsGo : Request → Prop
  | .write .. | .closeScope | .letGo _ => True
  | .make .. | .makePlain _ | .read .. | .openScope | .compact | .hold _ => False

def faultOf {α : Type} (act : Action α) (h : Heap) : Option HeapFault :=
  match (run act h).1 with
  | .ok _ => none
  | .error fault => some fault

def failure (h : Heap) : Request → Option HeapFault
  | .make fields bitmap => faultOf (make fields bitmap) h
  | .makePlain fields => faultOf (makePlain fields) h
  | .read r offset => faultOf (inspect (·.read r offset)) h
  | .write r offset value => faultOf (write r offset value) h
  | .openScope => faultOf openScope h
  | .closeScope => faultOf closeScope h
  | .compact => faultOf compact h
  | .hold r => faultOf (hold r) h
  | .letGo r => faultOf (letGo r) h

/-- The request asks for what is not there: for another object or another field, for a reference
to be stored that is not in use, or for the base scope to be closed. -/
def Refuses (h : Heap) : Request → Prop
  | .read r offset => ∃ fault, h.addressOfField r offset = .error fault
  | .write r offset value => (∃ fault, h.addressOfField r offset = .error fault) ∨
    h.tracesField r offset = .ok true ∧ value ≠ 0 ∧ value ∉ h.inUse
  | .closeScope => h.outer = []
  | .hold r | .letGo r => r ≠ 0 ∧ r ∉ h.inUse
  | .make .. | .makePlain _ | .openScope | .compact => False

def Dangling (h : Heap) (x : Ref) : Prop := x ∉ h.inUse ∧ ∃ r ∈ h.inUse, x ∈ h.refsOf r

variable {α β : Type} {h h' : Heap} {r x root target : Ref} {walk walk' : Walk}
  {named rest : List Ref} {addr offset : Nat} {value : UInt32} {delta : Int} {structural : Bool}
  {fault : HeapFault}

theorem faultOf_eq_some {act : Action α} :
    faultOf act h = some fault ↔ ∃ h', run act h = (.error fault, h') := by
  unfold faultOf
  cases hrun : run act h with
  | mk ended h₁ =>
      cases ended with
      | ok a => simp
      | error found => simp

/-! ## Where a walk stops -/

/-- The reference is one of those named, or a field holds it. -/
def Known (h : Heap) (named : List Ref) (x : Ref) : Prop :=
  x ∈ named ∨ ∃ r ∈ h.inUse, x ∈ h.refsOf r

theorem Known.recount (hre : Recounted h h') : Known h' named x ↔ Known h named x := by
  unfold Known
  simp only [hre.inUse, hre.refsOf]

def Stops (h : Heap) (named : List Ref) (fault : HeapFault) : Prop :=
  ∃ x, fault = .unknownReference x ∧ x ∉ h.inUse ∧ Known h named x

theorem Stops.recount (hre : Recounted h h') (hstops : Stops h' named fault) :
    Stops h named fault := by
  obtain ⟨x, hfault, hunused, hknown⟩ := hstops
  exact ⟨x, hfault, hre.inUse ▸ hunused, (Known.recount hre).1 hknown⟩

theorem changeCount_cases (hl : Laid h) (r : Ref) (delta : Int) :
    (r ∈ h.inUse ∧ ∃ died h', run (changeCount r delta) h = (.ok died, h') ∧ Laid h' ∧
        Recounted h h') ∨
      r ∉ h.inUse ∧ run (changeCount r delta) h = (.error (.unknownReference r), h) := by
  rcases address_cases hl r with ⟨hr, -⟩ | ⟨hr, haddr⟩
  · obtain ⟨h', hrun, hl', hre, -⟩ := changeCount_spec hl hr delta
    exact .inl ⟨hr, _, h', hrun, hl', hre⟩
  · refine .inr ⟨hr, ?_⟩
    unfold changeCount
    rw [run_inspect_error haddr]

/-- A walk that is given known references stops at one of them, or has only known ones before it. -/
theorem giveUp_known (walk : Walk) (delta : Int) (hl : Laid h)
    (hrest : ∀ x ∈ rest, Known h named x) (hqueue : ∀ q ∈ walk.queue, Known h named q) :
    (∀ fault h', run (giveUp delta walk rest) h = (.error fault, h') → Stops h named fault) ∧
      ∀ walk' h', run (giveUp delta walk rest) h = (.ok walk', h') →
        ∀ q ∈ walk'.queue, Known h named q := by
  induction rest generalizing walk h with
  | nil =>
      refine ⟨fun fault h' hrun => ?_, fun walk' h' hrun => ?_⟩
      · cases (Prod.mk.inj hrun).1
      · obtain rfl := Except.ok.inj (Prod.mk.inj hrun).1
        exact hqueue
  | cons child rest ih =>
      obtain ⟨hchild, hrest⟩ := List.forall_mem_cons.1 hrest
      unfold giveUp
      by_cases hentered : walk.explored.contains child = true
      · rw [if_pos hentered]
        exact ih walk hl hrest hqueue
      rw [if_neg hentered]
      rcases changeCount_cases hl child delta with ⟨-, died, h₁, hrun, hl₁, hre⟩ | ⟨hunused, hrun⟩
      · rw [run_bind_ok hrun]
        have hqueue₁ : ∀ q ∈ (if died then walk.queue ++ [child] else walk.queue),
            Known h₁ named q := by
          intro q hq
          rw [Known.recount hre]
          split at hq
          · rcases List.mem_append.1 hq with hq | hq
            · exact hqueue q hq
            · rw [List.mem_singleton.1 hq]
              exact hchild
          · exact hqueue q hq
        have hrest₁ : ∀ x ∈ rest, Known h₁ named x := fun x hx =>
          (Known.recount hre).2 (hrest x hx)
        obtain ⟨hfails, hends⟩ := ih ⟨_, child :: walk.explored⟩ hl₁ hrest₁ hqueue₁
        exact ⟨fun fault h' hrun' => (hfails fault h' hrun').recount hre,
          fun walk' h' hrun' q hq => (Known.recount hre).1 (hends walk' h' hrun' q hq)⟩
      · rw [run_bind_error hrun]
        refine ⟨fun fault h' hrun' => ?_, fun walk' h' hrun' => ?_⟩
        · obtain rfl := Except.error.inj (Prod.mk.inj hrun').1
          exact ⟨child, rfl, hunused, hchild⟩
        · cases (Prod.mk.inj hrun').1

theorem references_cases (hl : Laid h) (r : Ref) :
    (r ∈ h.inUse ∧ h.references r = .ok (h.refsOf r)) ∨
      r ∉ h.inUse ∧ h.references r = .error (.unknownReference r) := by
  rcases address_cases hl r with ⟨hr, -⟩ | ⟨hr, haddr⟩
  · exact .inl ⟨hr, references_eq hl hr⟩
  · refine .inr ⟨hr, ?_⟩
    unfold references
    rw [haddr]
    rfl

/-- By induction on the turns: what joins the queue is in a field of an object in use. -/
theorem drain_stops {turns : Nat} (hl : Laid h) (hqueue : ∀ q ∈ walk.queue, Known h named q)
    (hrun : run (drain delta turns walk) h = (.error fault, h')) : Stops h named fault := by
  induction turns generalizing walk h with
  | zero => exact nomatch (Prod.mk.inj hrun).1
  | succ turns ih =>
      unfold drain at hrun
      cases hcase : walk.queue with
      | nil =>
          rw [hcase] at hrun
          exact nomatch (Prod.mk.inj hrun).1
      | cons r queue =>
          rw [hcase] at hrun hqueue
          dsimp only at hrun
          obtain ⟨hr, hqueue⟩ := List.forall_mem_cons.1 hqueue
          rcases references_cases hl r with ⟨hused, hrefs⟩ | ⟨hunused, hrefs⟩
          · rw [run_inspect_ok hrefs] at hrun
            have hheld : ∀ x ∈ h.refsOf r, Known h named x := fun x hx => .inr ⟨r, hused, hx⟩
            obtain ⟨hfails, hends⟩ := giveUp_known { walk with queue } delta hl hheld hqueue
            cases hgive : run (giveUp delta { walk with queue } (h.refsOf r)) h with
            | mk ended h₁ =>
                cases ended with
                | error found =>
                    rw [run_bind_error hgive] at hrun
                    obtain rfl := Except.error.inj (Prod.mk.inj hrun).1
                    exact hfails found h₁ hgive
                | ok walk₁ =>
                    rw [run_bind_ok hgive] at hrun
                    have hsame := onlyCounts_giveUp delta (h.refsOf r) { walk with queue } h hl
                    rw [hgive] at hsame
                    have hqueue₁ : ∀ q ∈ walk₁.queue, Known h₁ named q := fun q hq =>
                      (Known.recount hsame.toRecounted).2 (hends walk₁ h₁ hgive q hq)
                    exact (ih hsame.laid hqueue₁ hrun).recount hsame.toRecounted
          · rw [run_inspect_error hrefs] at hrun
            obtain rfl := Except.error.inj (Prod.mk.inj hrun).1
            exact ⟨r, rfl, hunused, hr⟩

/-- Adding to a count goes on to a walk, which is the only way to fail once its object is in
use. -/
theorem addToCount_stops (hl : Laid h) (htarget : target = 0 ∨ target ∈ h.inUse)
    (hrun : run (addToCount root target delta structural) h = (.error fault, h')) :
    Stops h [root] fault := by
  have hroot : Known h [root] root := .inl (List.mem_singleton_self root)
  unfold addToCount at hrun
  split at hrun
  · exact nomatch (Prod.mk.inj hrun).1
  rw [run_inspect_ok (isDeadObject_eq hl htarget)] at hrun
  split at hrun
  · exact nomatch (Prod.mk.inj hrun).1
  rcases changeCount_cases hl root delta with ⟨-, died, h₁, hchange, hl₁, hre⟩ | ⟨hunused, hchange⟩
  · rw [run_bind_ok hchange] at hrun
    split at hrun
    · rw [run_bind_ok (run_get h₁)] at hrun
      have hqueue : ∀ q ∈ [root], Known h₁ [root] q := fun q hq => .inl hq
      exact (drain_stops hl₁ hqueue hrun).recount hre
    · exact nomatch (Prod.mk.inj hrun).1
  · rw [run_bind_error hchange] at hrun
    obtain rfl := Except.error.inj (Prod.mk.inj hrun).1
    exact ⟨root, rfl, hunused, hroot⟩

/-! ## Counts only fall -/

/-- Wherever the objects lie in order, the activity raises no count. -/
def Lowers (act : Action α) : Prop := ∀ h, Laid h → ∀ x, (run act h).2.countOf x ≤ h.countOf x

theorem lowers_changeCount (r : Ref) : Lowers (changeCount r (-1)) := by
  intro h hl x
  rcases address_cases hl r with ⟨hr, -⟩ | ⟨-, haddr⟩
  · obtain ⟨h', hrun, -, -, hcount⟩ := changeCount_spec hl hr (-1)
    have hshift : shifted (h.countOf r) (-1) ≤ h.countOf r := by
      unfold shifted
      omega
    rw [hrun]
    dsimp only
    rw [hcount]
    split
    · rename_i heq
      rwa [heq]
    · exact Nat.le_refl _
  · unfold changeCount
    rw [run_inspect_error haddr]

theorem lowers_drain (turns : Nat) (walk : Walk) : Lowers (drain (-1) turns walk) := by
  intro h hl
  have hchange : ∀ r, Keeps (fun h' => Laid h' ∧ ∀ x, h'.countOf x ≤ h.countOf x)
      (changeCount r (-1)) := by
    rintro r h' ⟨hl', hle⟩
    exact ⟨(onlyCounts_changeCount r (-1) h' hl').laid, fun x =>
      (lowers_changeCount r h' hl' x).trans (hle x)⟩
  exact (keeps_drain hchange turns walk h ⟨hl, fun _ => Nat.le_refl _⟩).2

/-- Letting go of an object in use fails only after the object has died by it. -/
theorem countOf_of_stops (hl : Laid h) (hroot : root ∈ h.inUse)
    (hrun : run (addToCount root 0 (-1) true) h = (.error fault, h')) :
    h'.countOf root < h.countOf root := by
  obtain ⟨h₁, hchange, hl₁, -, hcount⟩ := changeCount_spec hl hroot (-1)
  unfold addToCount at hrun
  split at hrun
  · exact nomatch (Prod.mk.inj hrun).1
  rw [run_inspect_ok (isDeadObject_eq hl (.inl rfl)), if_neg (by simp), run_bind_ok hchange] at hrun
  split at hrun
  · rename_i hdied
    rw [run_bind_ok (run_get h₁)] at hrun
    have hlowers := lowers_drain (h₁.table.length + 1) { queue := [root], explored := [root, 0] }
      h₁ hl₁ root
    rw [hrun] at hlowers
    dsimp only at hlowers
    rw [hcount, if_pos rfl] at hlowers
    simp only [ne_eq, Bool.and_eq_true, decide_eq_true_eq] at hdied
    omega
  · exact nomatch (Prod.mk.inj hrun).1

/-! ## What each operation fails by -/

/-- An operation that is not refused and fails has changed the heap, and has come upon a reference
in a field that is not in use. -/
def StopsHalfWay (h : Heap) (fault : HeapFault) (h' : Heap) : Prop :=
  h' ≠ h ∧ ∃ x, fault = .unknownReference x ∧ h.Dangling x

theorem letGoAll_stops {rs : List Ref} (hl : Laid h) (hrs : ∀ r ∈ rs, r ∈ h.inUse)
    (hrun : run (letGoAll rs) h = (.error fault, h')) : Stops h [] fault := by
  induction rs generalizing h with
  | nil => exact nomatch (Prod.mk.inj hrun).1
  | cons r rs ih =>
      obtain ⟨hr, hrs⟩ := List.forall_mem_cons.1 hrs
      unfold letGoAll at hrun
      cases hfirst : run (addToCount r 0 (-1) true) h with
      | mk ended h₁ =>
          cases ended with
          | error found =>
              rw [run_bind_error hfirst] at hrun
              obtain rfl := Except.error.inj (Prod.mk.inj hrun).1
              obtain ⟨x, hfault, hunused, hknown⟩ := addToCount_stops hl (.inl rfl) hfirst
              refine ⟨x, hfault, hunused, .inr (hknown.resolve_left fun hx => ?_)⟩
              exact hunused (List.mem_singleton.1 hx ▸ hr)
          | ok a =>
              rw [run_bind_ok hfirst] at hrun
              have hsame := onlyCounts_addToCount r 0 (-1) true h hl
              rw [hfirst] at hsame
              have hrs₁ : ∀ r ∈ rs, r ∈ h₁.inUse := by
                rw [hsame.toRecounted.inUse]
                exact hrs
              exact (ih hsame.laid hrs₁ hrun).recount hsame.toRecounted

variable {limits : HeapLimits}

theorem Ordered.closeScope_fails (ho : Ordered limits h)
    (hrun : Heap.run Heap.closeScope h = (.error fault, h')) :
    h.outer = [] ∧ h' = h ∨ h.outer ≠ [] ∧ StopsHalfWay h fault h' := by
  rcases closeScope_cases h with ⟨houter, hclosed⟩ | ⟨scope, outer, houter, hclosed⟩
  · rw [hclosed] at hrun
    exact .inl ⟨houter, (Prod.mk.inj hrun).2.symm⟩
  · rw [hclosed] at hrun
    have hl : Laid { h with roots := scope, outer := outer } :=
      ho.laid.congr rfl rfl rfl (fun _ _ => rfl) fun _ _ => rfl
    have hsame := onlyCounts_letGoAll h.roots _ hl
    rw [hrun] at hsame
    obtain ⟨x, hfault, hunused, hknown⟩ :=
      letGoAll_stops hl (List.forall_mem_cons.1 ho.rooted).1 hrun
    refine .inr ⟨by rw [houter]; exact List.cons_ne_nil _ _, ?_, x, hfault, hunused,
      hknown.resolve_left List.not_mem_nil⟩
    rintro rfl
    have hlength := congrArg List.length (hsame.outer.symm.trans houter)
    exact absurd hlength (by simp)

theorem Ordered.letGo_fails (ho : Ordered limits h)
    (hrun : Heap.run (Heap.letGo r) h = (.error fault, h')) :
    (r ≠ 0 ∧ r ∉ h.inUse) ∧ h' = h ∨ r ∈ h.inUse ∧ StopsHalfWay h fault h' := by
  rcases letGo_cases ho.laid r with ⟨-, hdone⟩ | ⟨hne, hunused, hdone⟩ | ⟨hr, hdone⟩
  · rw [hdone] at hrun
    exact nomatch (Prod.mk.inj hrun).1
  · rw [hdone] at hrun
    exact .inl ⟨⟨hne, hunused⟩, (Prod.mk.inj hrun).2.symm⟩
  · rw [hdone] at hrun
    have hl : Laid { h with roots := h.roots.filter (· ≠ r) } :=
      ho.laid.congr rfl rfl rfl (fun _ _ => rfl) fun _ _ => rfl
    obtain ⟨x, hfault, hunused, hknown⟩ := addToCount_stops hl (.inl rfl) hrun
    have hfalls := countOf_of_stops hl hr hrun
    refine .inr ⟨hr, ?_, x, hfault, hunused, hknown.resolve_left fun hx => ?_⟩
    · rintro rfl
      exact Nat.lt_irrefl _ hfalls
    · exact hunused (List.mem_singleton.1 hx ▸ hr)

/-- Holding an object only raises its count, so nothing dies by it. -/
theorem Ordered.hold_fails (ho : Ordered limits h)
    (hrun : Heap.run (Heap.hold r) h = (.error fault, h')) : (r ≠ 0 ∧ r ∉ h.inUse) ∧ h' = h := by
  rcases hold_cases ho.laid r with ⟨-, hdone⟩ | ⟨hne, hunused, hdone⟩ | ⟨hr, hnew, hdone⟩
  · rw [hdone] at hrun
    exact nomatch (Prod.mk.inj hrun).1
  · rw [hdone] at hrun
    exact ⟨⟨hne, hunused⟩, (Prod.mk.inj hrun).2.symm⟩
  · obtain ⟨h₁, hheld, -⟩ := (ho.withRoot hr hnew).toTidy.increment hr (.inl rfl) false
    rw [hdone, hheld] at hrun
    exact nomatch (Prod.mk.inj hrun).1

/-- What a field holds after a write that is no stored reference was there before. -/
theorem Laid.mem_refsOf_of_setField (hl : Laid h) (he : (r, addr) ∈ h.table)
    (hoffset : offset < h.sizeAt addr) (htraced : isTraced (h.bitmapAt addr) offset = true)
    (hvalue : value ≠ x) {y : Ref}
    (hx : x ∈ (h.setWord (addr + headerWords + offset) value).refsOf y) : x ∈ h.refsOf y := by
  by_cases heq : y = r
  · subst heq
    have hne : x ≠ 0 := ne_of_mem_of_not_mem hx (zero_notMem_refsOf _ _)
    have hcount := hl.count_refsOf_setField he hoffset htraced value hne
    have hpos := List.count_pos_iff.2 hx
    rw [if_neg hvalue] at hcount
    refine List.count_pos_iff.1 ?_
    dsimp only at hcount
    omega
  · rwa [hl.refsOf_setWord_of_ne he (writable_field h _ hoffset) value heq] at hx

/-- A count is moved from the old content of a field to the new one.  This fails only where the old
content has to be let go. -/
theorem Ordered.moveCount_fails (ho : Ordered limits h) (he : (r, addr) ∈ h.table)
    (hoffset : offset < h.sizeAt addr) (hvalue : Storable h addr offset value)
    (hrun : Heap.run (moveCount r (isTraced (h.bitmapAt addr) offset)
      (h.word (addr + headerWords + offset)) value)
      (h.setWord (addr + headerWords + offset) value) = (.error fault, h')) :
    StopsHalfWay h fault h' := by
  set old := h.word (addr + headerWords + offset) with hold
  set stored := h.setWord (addr + headerWords + offset) value with hstored
  have hused : r ∈ h.inUse := mem_inUse.2 ⟨addr, he⟩
  have htidy : Tidy stored := ho.toTidy.setField he hoffset value
  unfold moveCount at hrun
  split at hrun
  swap
  · exact nomatch (Prod.mk.inj hrun).1
  rename_i hcase
  obtain ⟨htraced, hchanged⟩ := Bool.and_eq_true_iff.1 hcase
  have hchanged : old ≠ value := of_decide_eq_true hchanged
  -- nothing happens to the counts when the object is dead
  have hlive : 0 < stored.countOf r := by
    by_contra hdead
    have hskip := fun root delta => run_addToCount_of_dead htidy.laid root
      (ne_of_mem_of_not_mem hused ho.toTidy.zero_notMem_inUse) hused
      (Nat.eq_zero_of_not_pos hdead) delta true
    rw [run_bind_ok (hskip value 1), hskip] at hrun
    exact nomatch (Prod.mk.inj hrun).1
  obtain ⟨h₁, hraised, hre, hl₁⟩ : ∃ h₁,
      Heap.run (addToCount value r 1 true) stored = (.ok (), h₁) ∧ Recounted stored h₁ ∧
        Laid h₁ := by
    rcases hvalue htraced with rfl | hin
    · exact ⟨stored, run_addToCount_zero r 1 true stored, .refl stored, htidy.laid⟩
    · obtain ⟨h₁, hraised, hre, htidy₁, -⟩ := htidy.increment hin (.inr hlive) true
      exact ⟨h₁, hraised, hre, htidy₁.laid⟩
  rw [run_bind_ok hraised] at hrun
  have hne : old ≠ 0 := by
    intro hzero
    rw [hzero, run_addToCount_zero] at hrun
    exact nomatch (Prod.mk.inj hrun).1
  have hheld : old ∈ h.refsOf r := mem_refsOf ho.laid he hoffset htraced hne
  have hsame := onlyCounts_addToCount old r (-1) true h₁ hl₁
  rw [hrun] at hsame
  constructor
  · -- the field does not hold its old content any more
    rintro rfl
    have hcount := ho.laid.count_refsOf_setField he hoffset htraced value hne
    have hrefs := (hre.trans hsame.toRecounted).refsOf r
    rw [if_pos rfl, if_neg hchanged.symm] at hcount
    rw [hrefs] at hcount
    exact absurd hcount (by simp only [← hstored]; omega)
  · have htarget : r ∈ h₁.inUse := by
      rw [hre.inUse]
      exact hused
    obtain ⟨x, hfault, hunused, hknown⟩ :=
      (addToCount_stops hl₁ (.inr htarget) hrun).recount hre
    refine ⟨x, hfault, hunused, ?_⟩
    rcases hknown with hx | ⟨y, hy, hx⟩
    · rw [List.mem_singleton.1 hx]
      exact ⟨r, hused, hheld⟩
    · have hother : value ≠ x := by
        rintro rfl
        rcases hvalue htraced with hzero | hin
        · exact zero_notMem_refsOf _ _ (hzero ▸ hx)
        · exact hunused hin
      exact ⟨y, hy, ho.laid.mem_refsOf_of_setField he hoffset htraced hother hx⟩

theorem read_fails_iff : (∃ fault, h.read r offset = .error fault) ↔
    ∃ fault, h.addressOfField r offset = .error fault := by
  unfold read
  cases h.addressOfField r offset <;> simp [Functor.map, Except.map]

theorem Laid.field_of_addressOfField (hl : Laid h) {field : Nat}
    (hfield : h.addressOfField r offset = .ok field) :
    ∃ addr, (r, addr) ∈ h.table ∧ offset < h.fieldsAt addr := by
  rcases address_cases hl r with ⟨-, addr, he, -⟩ | ⟨-, haddr⟩
  · rw [addressOfField_eq hl he] at hfield
    split at hfield
    · exact nomatch hfield
    · rename_i hoffset
      exact ⟨addr, he, Nat.lt_of_not_le hoffset⟩
  · unfold addressOfField at hfield
    rw [haddr] at hfield
    exact nomatch hfield

theorem Laid.write_of_refused (hl : Laid h) (hrefused : h.Refuses (.write r offset value)) :
    ∃ fault, run (write r offset value) h = (.error fault, h) := by
  cases hfield : h.addressOfField r offset with
  | error fault => exact ⟨fault, run_write_of_no_field value hfield⟩
  | ok field =>
      obtain ⟨htraced, hne, hunused⟩ : h.tracesField r offset = .ok true ∧ value ≠ 0 ∧
          value ∉ h.inUse := by
        rcases hrefused with ⟨fault, hno⟩ | hvalue
        · rw [hfield] at hno
          exact nomatch hno
        · exact hvalue
      obtain ⟨addr, he, hoffset⟩ := hl.field_of_addressOfField hfield
      rw [tracesField_eq hl he] at htraced
      refine ⟨_, run_write_of_not_storable hl he hoffset fun hstorable => ?_⟩
      exact (hstorable (Except.ok.inj htraced)).elim hne hunused

theorem Ordered.write_fails (ho : Ordered limits h)
    (hrun : Heap.run (Heap.write r offset value) h = (.error fault, h')) :
    h.Refuses (.write r offset value) ∧ h' = h ∨
      ¬ h.Refuses (.write r offset value) ∧ StopsHalfWay h fault h' := by
  by_cases hrefused : h.Refuses (.write r offset value)
  · obtain ⟨found, hkept⟩ := ho.laid.write_of_refused hrefused
    rw [hkept] at hrun
    exact .inl ⟨hrefused, (Prod.mk.inj hrun).2.symm⟩
  · refine .inr ⟨hrefused, ?_⟩
    obtain ⟨hfield, hvalue⟩ := not_or.1 hrefused
    cases hlookup : h.addressOfField r offset with
    | error found => exact absurd ⟨found, hlookup⟩ hfield
    | ok field =>
        obtain ⟨addr, he, hoffset⟩ := ho.laid.field_of_addressOfField hlookup
        have hstorable : Storable h addr offset value := by
          intro htraced
          by_contra hnot
          exact hvalue ⟨(tracesField_eq ho.laid he).trans (congrArg Except.ok htraced),
            (not_or.1 hnot).1, (not_or.1 hnot).2⟩
        rw [run_write ho.laid he hoffset hstorable] at hrun
        exact ho.moveCount_fails he (ho.laid.fieldsAt_lt he hoffset) hstorable hrun

theorem Ordered.refused (ho : Ordered limits h) {request : Request}
    (hrefused : h.Refuses request) : (∃ fault, h.failure request = some fault) ∧
      h.serve request = h := by
  have hkept : ∀ {act : Action Unit} {fault : HeapFault}, Heap.run act h = (.error fault, h) →
      (∃ fault, faultOf act h = some fault) ∧ (Heap.run act h).2 = h := by
    intro act fault hrun
    exact ⟨⟨fault, faultOf_eq_some.2 ⟨h, hrun⟩⟩, congrArg Prod.snd hrun⟩
  cases request with
  | read r offset =>
      obtain ⟨fault, hread⟩ := read_fails_iff.2 hrefused
      exact ⟨⟨fault, faultOf_eq_some.2 ⟨h, Prod.ext hread rfl⟩⟩, rfl⟩
  | write r offset value =>
      obtain ⟨fault, hrun⟩ := ho.laid.write_of_refused hrefused
      exact hkept hrun
  | closeScope =>
      rcases closeScope_cases h with ⟨-, hrun⟩ | ⟨scope, outer, houter, -⟩
      · exact hkept hrun
      · exact absurd (hrefused.symm.trans houter) (List.cons_ne_nil _ _).symm
  | hold r =>
      obtain ⟨hne, hunused⟩ := hrefused
      rcases hold_cases ho.laid r with ⟨hzero | hrooted, -⟩ | ⟨-, -, hrun⟩ | ⟨hr, -⟩
      · exact absurd hzero hne
      · exact absurd ((List.forall_mem_cons.1 ho.rooted).1 r hrooted) hunused
      · exact hkept hrun
      · exact absurd hr hunused
  | letGo r =>
      obtain ⟨hne, hunused⟩ := hrefused
      rcases letGo_cases ho.laid r with ⟨hzero, -⟩ | ⟨-, -, hrun⟩ | ⟨hr, -⟩
      · exact absurd hzero hne
      · exact hkept hrun
      · exact absurd hr hunused
  | make fields bitmap => exact hrefused.elim
  | makePlain fields => exact hrefused.elim
  | openScope => exact hrefused.elim
  | compact => exact hrefused.elim

theorem Ordered.fails (ho : Ordered limits h) {request : Request} (hobjects : request.OnObjects)
    (hfails : h.failure request = some fault) : h.Refuses request ∧ h.serve request = h ∨
      ¬ h.Refuses request ∧ request.LetsGo ∧ StopsHalfWay h fault (h.serve request) := by
  have hrun : ∀ {act : Action Unit}, faultOf act h = some fault →
      Heap.run act h = (.error fault, (Heap.run act h).2) := by
    intro act hfault
    obtain ⟨h', hrun⟩ := faultOf_eq_some.1 hfault
    rw [hrun]
  cases request with
  | read r offset =>
      obtain ⟨h', hread⟩ := faultOf_eq_some.1 hfails
      exact .inl ⟨read_fails_iff.1 ⟨fault, (Prod.mk.inj hread).1⟩, rfl⟩
  | write r offset value =>
      exact (ho.write_fails (hrun hfails)).imp_right fun ⟨hnot, hstops⟩ => ⟨hnot, trivial, hstops⟩
  | openScope => exact nomatch hfails
  | closeScope =>
      exact (ho.closeScope_fails (hrun hfails)).imp_right fun ⟨hnot, hstops⟩ =>
        ⟨hnot, trivial, hstops⟩
  | hold r => exact .inl (ho.hold_fails (hrun hfails))
  | letGo r =>
      exact (ho.letGo_fails (hrun hfails)).imp_right fun ⟨hused, hstops⟩ =>
        ⟨fun hrefused => hrefused.2 hused, trivial, hstops⟩
  | make fields bitmap => exact hobjects.elim
  | makePlain fields => exact hobjects.elim
  | compact => exact hobjects.elim

/-! ## After any calls -/

/-- After any calls with any arguments, an operation on objects and scopes that is refused fails,
and an operation that fails leaves the heap as it was if and only if it was refused.  Only letting
go of something fails without being refused, by a reference in a field that is not in use; so where
there is none, whatever fails leaves the heap as it was. -/
theorem failure_keeps_heap_iff (limits : HeapLimits) (calls : List Call) {request : Request}
    (hobjects : request.OnObjects) :
    let h := (new limits).performed calls
    (h.Refuses request → ∃ fault, h.failure request = some fault) ∧
      ∀ fault, h.failure request = some fault →
        (h.serve request = h ↔ h.Refuses request) ∧
        (¬ h.Refuses request →
          request.LetsGo ∧ ∃ x, fault = .unknownReference x ∧ h.Dangling x) ∧
        ((∀ x, ¬ h.Dangling x) → h.serve request = h) := by
  intro h
  have ho : Ordered limits h := (Ordered.new limits).performed calls
  refine ⟨fun hrefused => (ho.refused hrefused).1, fun fault hfails => ?_⟩
  rcases ho.fails hobjects hfails with
    ⟨hrefused, hsame⟩ | ⟨hnot, hlets, hchanged, x, hfault, hdangling⟩
  · exact ⟨⟨fun _ => hrefused, fun _ => hsame⟩, fun hnot => absurd hrefused hnot, fun _ => hsame⟩
  · exact ⟨⟨fun hsame => absurd hsame hchanged, fun hrefused => absurd hrefused hnot⟩,
      fun _ => ⟨hlets, x, hfault, hdangling⟩, fun hnone => absurd hdangling (hnone x)⟩

/-- An object dies and is held again, but what its field holds died with it and is gone after a
compaction. -/
def staleCalls : List Call :=
  [.request .openScope, .request (.make 1 1), .request (.makePlain 0), .request (.write 1 0 2),
    .request .closeScope, .request (.hold 1), .request .compact]

/-- A write of a reference that is not in use is refused, also where a field holds this
reference. -/
theorem failure_keeps_heap_iff_stale :
    let limits : HeapLimits := { capacity := 64, maxRef := 8 }
    let h := (new limits).performed staleCalls
    (Request.write 1 0 9).OnObjects ∧ h.Dangling 2 ∧ h.Refuses (.write 1 0 9) ∧
      (∃ fault, h.failure (.write 1 0 9) = some fault) ∧ h.serve (.write 1 0 9) = h := by
  intro limits h
  have hrefused : h.Refuses (.write 1 0 9) :=
    .inr ⟨by decide +kernel, by decide, by decide +kernel⟩
  have hobjects : (Request.write 1 0 9).OnObjects := trivial
  obtain ⟨hfails, hkeeps⟩ := failure_keeps_heap_iff limits staleCalls hobjects
  obtain ⟨fault, hfault⟩ := hfails hrefused
  exact ⟨hobjects, ⟨by decide +kernel, 1, by decide +kernel, by decide +kernel⟩, hrefused,
    ⟨fault, hfault⟩, (hkeeps fault hfault).1.2 hrefused⟩

/-- Letting go of an object that came back to life fails after the object has lost its root and its
count. -/
theorem failure_changes_heap_revived :
    let limits : HeapLimits := { capacity := 64, maxRef := 8 }
    let h := (new limits).performed staleCalls
    h.failure (.letGo 1) = some (.unknownReference 2) ∧ h.roots = [1] ∧ h.countOf 1 = 1 ∧
      (h.serve (.letGo 1)).roots = [] ∧ (h.serve (.letGo 1)).countOf 1 = 0 ∧
      h.serve (.letGo 1) ≠ h := by
  intro limits h
  have hbefore : h.countOf 1 = 1 := by decide +kernel
  have hbehind : (h.serve (.letGo 1)).countOf 1 = 0 := by decide +kernel
  refine ⟨by decide +kernel, by decide +kernel, hbefore, by decide +kernel, hbehind, ?_⟩
  intro hsame
  rw [hsame, hbefore] at hbehind
  exact absurd hbehind (by decide)

end Midend.Heap
