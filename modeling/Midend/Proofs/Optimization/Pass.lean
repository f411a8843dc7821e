import Midend.Optimization
import Midend.Proofs.Solver.Answer
/-!
# One pass over a program

A pass succeeds exactly when every body of the program can be simplified
(`exists_pass_iff`).  What it does to the bodies is the same whatever the fuel, as
long as it is enough (`pass_mono`), and their labels stay right
(`wellLabelled_of_pass`).
-/

namespace Midend

open Midend.Flow

structure Job where
  scope : String
  ctx : Context
  body : List Block

def Flow.Program.jobs (p : Program) (catalog : Catalog) : List Job :=
  ⟨Program.topLevel, Optimization.topLevelContext catalog p, p.body⟩ ::
    (p.classes.flatMap (·.methods)).map fun m => ⟨m.name, Optimization.methodContext m, m.body⟩

theorem Flow.Program.checkLabels_eq_ok_iff {p : Program} (catalog : Catalog) :
    p.checkLabels = .ok () ↔ ∀ job ∈ p.jobs catalog, WellLabelled job.body := by
  have hbodies : p.bodies = (p.jobs catalog).map fun job => (job.scope, job.body) := by
    unfold bodies jobs
    rw [List.map_cons, List.map_map]
    rfl
  unfold checkLabels
  rw [forM_checkLabels_eq_ok_iff, hbodies, List.forall_mem_map]

namespace Optimization

/-! ## Going through a list -/

/-- A list done entry by entry, where what has changed so far is handed on. -/
inductive Chain {α β : Type} (R : α → Bool → β → Bool → Prop) :
    List α → Bool → List β → Bool → Prop
  | nil (changed : Bool) : Chain R [] changed [] changed
  | cons {x : α} {y : β} {xs : List α} {ys : List β} {c₁ c₂ c₃ : Bool} :
      R x c₁ y c₂ → Chain R xs c₂ ys c₃ → Chain R (x :: xs) c₁ (y :: ys) c₃

variable {α β : Type} {R R' : α → Bool → β → Bool → Prop}

theorem Chain.imp (h : ∀ x c y c', R x c y c' → R' x c y c') {xs : List α} {ys : List β}
    {c c' : Bool} (hchain : Chain R xs c ys c') : Chain R' xs c ys c' := by
  induction hchain with
  | nil c => exact .nil c
  | cons hfirst _ ih => exact .cons (h _ _ _ _ hfirst) ih

theorem Chain.forall₂ {S : α → β → Prop} (h : ∀ x c y c', R x c y c' → S x y) {xs : List α}
    {ys : List β} {c c' : Bool} (hchain : Chain R xs c ys c') : List.Forall₂ S xs ys := by
  induction hchain with
  | nil => exact .nil
  | cons hfirst _ ih => exact .cons (h _ _ _ _ hfirst) ih

theorem exists_chain {xs : List α} (h : ∀ x ∈ xs, ∀ c, ∃ y c', R x c y c') (c : Bool) :
    ∃ ys c', Chain R xs c ys c' := by
  induction xs generalizing c with
  | nil => exact ⟨[], c, .nil c⟩
  | cons x xs ih =>
      obtain ⟨y, c₂, hfirst⟩ := h x List.mem_cons_self c
      obtain ⟨ys, c₃, hrest⟩ := ih (fun x hx => h x (List.mem_cons_of_mem _ hx)) c₂
      exact ⟨y :: ys, c₃, .cons hfirst hrest⟩

theorem mapM_cons_eq (f : α → StateM Status β) (x : α) (xs : List α) (status : Status) :
    (x :: xs).mapM f status =
      ((f x status).1 :: (xs.mapM f (f x status).2).1, (xs.mapM f (f x status).2).2) := by
  rw [List.mapM_cons]
  rfl

/-- A step of a pass: when an earlier one was at fault it stays so, and otherwise it
does what `R` says or is at fault. -/
structure Does (f : α → StateM Status β) (R : α → Bool → β → Bool → Prop) : Prop where
  stopped : ∀ x stop, (f x (.error stop)).2 = .error stop
  ok_iff : ∀ x c y c', f x (.ok c) = (y, .ok c') ↔ R x c y c'

theorem Does.mapM {f : α → StateM Status β} (h : Does f R) : Does (·.mapM f) (Chain R) := by
  have hstopped : ∀ (xs : List α) (stop : Stop),
      (xs.mapM f (.error stop : Status)).2 = .error stop := by
    intro xs stop
    induction xs with
    | nil => rfl
    | cons x xs ih =>
        rw [mapM_cons_eq, h.stopped]
        exact ih
  refine ⟨hstopped, fun xs c ys c' => ?_⟩
  induction xs generalizing c ys with
  | nil =>
      constructor
      · intro heq
        obtain ⟨rfl, hc⟩ := Prod.mk.inj heq
        exact Except.ok.inj hc ▸ .nil c
      · rintro ⟨⟩
        rfl
  | cons x xs ih =>
      rw [mapM_cons_eq]
      constructor
      · intro heq
        obtain ⟨rfl, hc⟩ := Prod.mk.inj heq
        cases hx : (f x (.ok c)).2 with
        | error stop =>
            rw [hx, hstopped] at hc
            exact nomatch hc
        | ok c₂ =>
            rw [hx] at hc
            exact .cons ((h.ok_iff _ _ _ _).1 (Prod.ext rfl hx)) ((ih _ _).1 (Prod.ext rfl hc))
      · intro hchain
        cases hchain with
        | cons hfirst hrest => rw [(h.ok_iff _ _ _ _).2 hfirst, (ih _ _).2 hrest]

/-- What a step does to a part, put back into the whole. -/
theorem Does.update {γ : Type} {f : α → StateM Status β} (h : Does f R) (g : α → β → γ) :
    Does (fun x => do return g x (← f x)) fun x c z c' => ∃ y, R x c y c' ∧ z = g x y where
  stopped x stop := h.stopped x stop
  ok_iff x c z c' := by
    have hrun : (do return g x (← f x) : StateM Status γ) (.ok c) =
        (g x (f x (.ok c)).1, (f x (.ok c)).2) := rfl
    rw [hrun]
    constructor
    · intro heq
      obtain ⟨rfl, hc⟩ := Prod.mk.inj heq
      exact ⟨_, (h.ok_iff _ _ _ _).1 (Prod.ext rfl hc), rfl⟩
    · rintro ⟨y, hy, rfl⟩
      rw [(h.ok_iff _ _ _ _).2 hy]

/-! ## The parts of a program -/

variable {E : Type} [Analysis E]

def BodyDone (E : Type) [Analysis E] (fuel : Nat) (scope : String) (ctx : Context)
    (body : List Block) (changed : Bool) (body' : List Block) (changed' : Bool) : Prop :=
  Analysis.simplify E fuel scope ctx body = .ok body' ∧
    changed' = (changed || decide (body' ≠ body))

def MethodDone (E : Type) [Analysis E] (fuel : Nat) (m : Method) (changed : Bool) (m' : Method)
    (changed' : Bool) : Prop :=
  ∃ body', BodyDone E fuel m.name (methodContext m) m.body changed body' changed' ∧
    m' = { m with body := body' }

def ClassDone (E : Type) [Analysis E] (fuel : Nat) (c : Flow.Class) (changed : Bool)
    (c' : Flow.Class) (changed' : Bool) : Prop :=
  ∃ methods, Chain (MethodDone E fuel) c.methods changed methods changed' ∧
    c' = { c with methods }

def ProgramDone (E : Type) [Analysis E] (fuel : Nat) (catalog : Catalog) (p : Program)
    (changed : Bool) (q : Program) (changed' : Bool) : Prop :=
  ∃ body between, BodyDone E fuel Program.topLevel (topLevelContext catalog p) p.body changed body
    between ∧ ∃ classes, Chain (ClassDone E fuel) p.classes between classes changed' ∧
      q = { p with body, classes }

theorem does_passBody (fuel : Nat) (scope : String) (ctx : Context) :
    Does (passBody E fuel scope ctx) (BodyDone E fuel scope ctx) where
  stopped body stop := rfl
  ok_iff body c body' c' := by
    unfold passBody BodyDone
    dsimp only
    cases Analysis.simplify E fuel scope ctx body with
    | error stop =>
        refine iff_of_false (fun heq => ?_) (by simp)
        exact absurd (Prod.mk.inj heq).2 (by simp)
    | ok simplified =>
        constructor
        · intro heq
          obtain ⟨rfl, hc⟩ := Prod.mk.inj heq
          exact ⟨rfl, (Except.ok.inj hc).symm⟩
        · rintro ⟨hsimplified, rfl⟩
          obtain rfl := Except.ok.inj hsimplified
          rfl

theorem does_passMethod (fuel : Nat) : Does (passMethod E fuel) (MethodDone E fuel) := by
  have hbody : Does (fun m : Method => passBody E fuel m.name (methodContext m) m.body)
      fun m => BodyDone E fuel m.name (methodContext m) m.body :=
    ⟨fun m => (does_passBody fuel _ _).stopped m.body, fun m => (does_passBody fuel _ _).ok_iff _⟩
  exact hbody.update fun m body => { m with body }

theorem does_passClass (fuel : Nat) : Does (passClass E fuel) (ClassDone E fuel) := by
  have hmethods : Does (fun c : Flow.Class => c.methods.mapM (passMethod E fuel))
      fun c => Chain (MethodDone E fuel) c.methods :=
    ⟨fun c => (does_passMethod fuel).mapM.stopped c.methods,
      fun c => (does_passMethod fuel).mapM.ok_iff _⟩
  exact hmethods.update fun c methods => { c with methods }

theorem pass_eq (fuel : Nat) (catalog : Catalog) (p : Program) :
    pass E fuel catalog p =
      let top := passBody E fuel Program.topLevel (topLevelContext catalog p) p.body (.ok false)
      let rest := p.classes.mapM (passClass E fuel) top.2
      ({ p with body := top.1, classes := rest.1 }, rest.2) :=
  rfl

theorem pass_eq_iff {fuel : Nat} {catalog : Catalog} {p q : Program} {changed : Bool} :
    pass E fuel catalog p = (q, .ok changed) ↔ ProgramDone E fuel catalog p false q changed := by
  have hbody := does_passBody (E := E) fuel Program.topLevel (topLevelContext catalog p)
  have hclasses := (does_passClass (E := E) fuel).mapM
  rw [pass_eq]
  constructor
  · intro heq
    obtain ⟨rfl, hc⟩ := Prod.mk.inj heq
    cases hmid : (passBody E fuel Program.topLevel (topLevelContext catalog p) p.body
        (.ok false)).2 with
    | error stop =>
        rw [hmid, hclasses.stopped] at hc
        exact nomatch hc
    | ok between =>
        rw [hmid] at hc
        exact ⟨_, between, (hbody.ok_iff _ _ _ _).1 (Prod.ext rfl hmid), _,
          (hclasses.ok_iff _ _ _ _).1 (Prod.ext rfl hc), rfl⟩
  · rintro ⟨body, between, hdone, classes, hchain, rfl⟩
    rw [(hbody.ok_iff _ _ _ _).2 hdone]
    dsimp only
    rw [(hclasses.ok_iff _ _ _ _).2 hchain]

theorem pass_mono {fuel fuel' : Nat} {catalog : Catalog} {p q : Program} {changed : Bool}
    (h : pass E fuel catalog p = (q, .ok changed)) (hle : fuel ≤ fuel') :
    pass E fuel' catalog p = (q, .ok changed) := by
  have hbody : ∀ scope ctx body c body' c', BodyDone E fuel scope ctx body c body' c' →
      BodyDone E fuel' scope ctx body c body' c' :=
    fun _ _ _ _ _ _ hdone => ⟨Analysis.simplify_mono hdone.1 hle, hdone.2⟩
  have hmethod : ∀ m c m' c', MethodDone E fuel m c m' c' → MethodDone E fuel' m c m' c' :=
    fun _ _ _ _ ⟨body', hdone, heq⟩ => ⟨body', hbody _ _ _ _ _ _ hdone, heq⟩
  have hclass : ∀ c ch c' ch', ClassDone E fuel c ch c' ch' → ClassDone E fuel' c ch c' ch' :=
    fun _ _ _ _ ⟨methods, hchain, heq⟩ => ⟨methods, hchain.imp hmethod, heq⟩
  obtain ⟨body, between, hdone, classes, hchain, heq⟩ := pass_eq_iff.1 h
  exact pass_eq_iff.2
    ⟨body, between, hbody _ _ _ _ _ _ hdone, classes, hchain.imp hclass, heq⟩

/-! ## The bodies of a program -/

/-- A body after a pass, told apart from the body before it by its statements only. -/
structure JobDone (E : Type) [Analysis E] (fuel : Nat) (job job' : Job) : Prop where
  scope_eq : job'.scope = job.scope
  ctx_eq : job'.ctx = job.ctx
  simplify_eq : Analysis.simplify E fuel job.scope job.ctx job.body = .ok job'.body

theorem jobs_of_pass {fuel : Nat} {catalog : Catalog} {p q : Program} {changed : Bool}
    (h : pass E fuel catalog p = (q, .ok changed)) :
    List.Forall₂ (JobDone E fuel) (p.jobs catalog) (q.jobs catalog) := by
  obtain ⟨body, between, hdone, classes, hchain, rfl⟩ := pass_eq_iff.1 h
  refine .cons ⟨rfl, rfl, hdone.1⟩ ?_
  have hmethods : List.Forall₂ (fun c c' : Flow.Class => List.Forall₂ (fun m m' : Method =>
      ∃ body', Analysis.simplify E fuel m.name (methodContext m) m.body = .ok body' ∧
        m' = { m with body := body' }) c.methods c'.methods) p.classes classes := by
    refine hchain.forall₂ fun c _ c' _ hclass => ?_
    obtain ⟨methods, hchain, rfl⟩ := hclass
    exact hchain.forall₂ fun m _ m' _ ⟨body', hbody, heq⟩ => ⟨body', hbody.1, heq⟩
  refine List.rel_map ?_ (List.rel_flatMap hmethods fun _ _ h => h)
  rintro m m' ⟨body', hbody, rfl⟩
  exact ⟨rfl, rfl, hbody⟩

theorem wellLabelled_of_pass [Faultless E] {fuel : Nat} {catalog : Catalog} {p q : Program}
    {changed : Bool} (h : pass E fuel catalog p = (q, .ok changed))
    (hp : p.checkLabels = .ok ()) : q.checkLabels = .ok () := by
  rw [Program.checkLabels_eq_ok_iff catalog] at hp ⊢
  refine forall_mem_of_forall₂ (jobs_of_pass h) (fun job job' hdone hjob => ?_) hp
  obtain ⟨g, sol, -, hblocks⟩ := Analysis.simplify_eq_ok_iff.1 hdone.simplify_eq
  exact hjob.of_sameEdges (Analysis.sameEdges_of_simplified hblocks)

theorem exists_pass_of_jobs {fuel : Nat} {catalog : Catalog} {p : Program}
    (h : ∀ job ∈ p.jobs catalog, ∃ body',
      Analysis.simplify E fuel job.scope job.ctx job.body = .ok body') :
    ∃ q changed, pass E fuel catalog p = (q, .ok changed) := by
  unfold Program.jobs at h
  rw [List.forall_mem_cons, List.forall_mem_map] at h
  obtain ⟨⟨body, hbody⟩, hmethods⟩ := h
  have hclass : ∀ c ∈ p.classes, ∀ ch, ∃ c' ch', ClassDone E fuel c ch c' ch' := by
    intro c hc ch
    have hmethod : ∀ m ∈ c.methods, ∀ ch, ∃ m' ch', MethodDone E fuel m ch m' ch' := by
      intro m hm ch
      obtain ⟨body', hbody'⟩ := hmethods m (List.mem_flatMap.2 ⟨c, hc, hm⟩)
      exact ⟨_, _, body', ⟨hbody', rfl⟩, rfl⟩
    obtain ⟨methods, ch', hchain⟩ := exists_chain hmethod ch
    exact ⟨_, ch', methods, hchain, rfl⟩
  obtain ⟨classes, changed, hchain⟩ := exists_chain hclass (false || decide (body ≠ p.body))
  exact ⟨_, changed, pass_eq_iff.2 ⟨body, _, ⟨hbody, rfl⟩, classes, hchain, rfl⟩⟩

/-- With enough fuel, a pass succeeds exactly when every body can be solved. -/
theorem exists_pass_iff [Faultless E] {catalog : Catalog} {p : Program} :
    (∃ fuel q changed, pass E fuel catalog p = (q, .ok changed)) ↔
      ∀ job ∈ p.jobs catalog, ∃ fuel answer,
        Analysis.solve E fuel job.scope job.ctx job.body = .ok answer := by
  constructor
  · rintro ⟨fuel, q, changed, h⟩ job hjob
    have hjobs := jobs_of_pass h
    generalize p.jobs catalog = jobs at hjobs hjob
    generalize q.jobs catalog = jobs' at hjobs
    induction hjobs with
    | nil => exact nomatch hjob
    | cons hfirst _ ih =>
        rcases List.mem_cons.1 hjob with rfl | hmem
        · exact ⟨fuel, Analysis.exists_simplify_iff.1 ⟨_, hfirst.simplify_eq⟩⟩
        · exact ih hmem
  · intro h
    have hcommon : ∀ jobs : List Job, (∀ job ∈ jobs, ∃ fuel answer,
        Analysis.solve E fuel job.scope job.ctx job.body = .ok answer) →
        ∃ fuel, ∀ job ∈ jobs, ∃ answer,
          Analysis.solve E fuel job.scope job.ctx job.body = .ok answer := by
      intro jobs
      induction jobs with
      | nil => exact fun _ => ⟨0, fun _ hjob => nomatch hjob⟩
      | cons job jobs ih =>
          intro hall
          rw [List.forall_mem_cons] at hall
          obtain ⟨⟨fuel, answer, hfirst⟩, hrest⟩ := hall
          obtain ⟨fuel', hjobs⟩ := ih hrest
          refine ⟨max fuel fuel', List.forall_mem_cons.2 ⟨⟨answer, ?_⟩, fun j hj => ?_⟩⟩
          · exact Analysis.solve_mono hfirst (Nat.le_max_left _ _)
          · obtain ⟨answer', hanswer'⟩ := hjobs j hj
            exact ⟨answer', Analysis.solve_mono hanswer' (Nat.le_max_right _ _)⟩
    obtain ⟨fuel, hall⟩ := hcommon _ h
    exact ⟨fuel, exists_pass_of_jobs fun job hjob =>
      Analysis.exists_simplify_iff.2 (hall job hjob)⟩

end Optimization

end Midend
