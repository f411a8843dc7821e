import Midend.Proofs.Meaning.Machine
import Midend.Proofs.Solver.Answer
/-!
# Simplified bodies run in step

If what an analysis knows holds of the variables at the entry, and every statement
does the same before and after it is simplified and leaves variables of which the
next environment holds (`Sound`), then a simplified body runs in step with the body
it came from (`after_simplified`).

The invariant of such a run is `Follows`: the statements that are left of the block
are simplified in an environment that holds of the variables.  At a jump it is found
again because the solution is stable: what holds after a block holds before each of
its successors.
-/

namespace Midend

open Midend.Flow Analysis

def Flow.EndsLast (body : List Block) : Prop :=
  ∀ b ∈ body, ∀ s ∈ b.stmts.dropLast, s.endsBlock = false

instance (body : List Block) : Decidable (EndsLast body) :=
  inferInstanceAs (Decidable (∀ b ∈ body, ∀ s ∈ b.stmts.dropLast, s.endsBlock = false))

variable {E V : Type} [Analysis E]

/-- What an analysis knows is true: `Holds` says of which variables an environment
holds, and `P` is a property of the environments that it works with. -/
structure Analysis.Sound (m : Machine V) (ctx : Context) (P : E → Prop)
    (Holds : E → Store V → Prop) : Prop where
  entry_kept : P (entry ctx)
  merge_kept : ∀ a b, P a → P b → P (merge a b)
  step_kept : ∀ env s s' out, P env → step env s = .ok (s', out) → P out
  merge : ∀ a b σ, P a → P b → Holds a σ ∨ Holds b σ → Holds (merge a b) σ
  same : ∀ a b σ, P a → P b → same a b = true → Holds b σ → Holds a σ
  exec_eq : ∀ env s s' out σ history, P env → Holds env σ → step env s = .ok (s', out) →
    m.exec ctx s' σ history = m.exec ctx s σ history
  exec_holds : ∀ env s s' out σ history, P env → Holds env σ → step env s = .ok (s', out) →
    (m.exec ctx s' σ history).control ≠ .stopped → Holds out (m.exec ctx s' σ history).store

variable {m : Machine V} {ctx : Context} {P : E → Prop} {Holds : E → Store V → Prop}
variable {body body' : List Block} {g : Graph} {sol : Solution E}

namespace Analysis

theorem Sound.kept (h : Sound m ctx P Holds) (body : List Block) : Progress.Kept ctx body P :=
  .of_step h.entry_kept h.merge_kept fun _ _ s _ env s' out => h.step_kept env s s' out

theorem Sound.mergeAll (h : Sound m ctx P Holds) {envs : List E} (hall : ∀ e ∈ envs, P e)
    {e env : E} {σ : Store V} (he : e ∈ envs) (hholds : Holds e σ)
    (henv : Solution.mergeAll envs = some env) : Holds env σ := by
  have hfold : ∀ (es : List E) (acc : E), P acc → (∀ e ∈ es, P e) →
      (Holds acc σ ∨ ∃ e ∈ es, Holds e σ) → Holds (es.foldl Analysis.merge acc) σ := by
    intro es
    induction es with
    | nil =>
        rintro acc - - (hacc | ⟨x, hx, -⟩)
        · exact hacc
        · exact nomatch hx
    | cons d ds ih =>
        intro acc hacc hds hsome
        have hd := hds d List.mem_cons_self
        have hrest : ∀ x ∈ ds, P x := fun x hx => hds x (List.mem_cons_of_mem _ hx)
        refine ih _ (h.merge_kept acc d hacc hd) hrest ?_
        rcases hsome with hσ | ⟨x, hx, hσ⟩
        · exact .inl (h.merge acc d σ hacc hd (.inl hσ))
        · rcases List.mem_cons.1 hx with rfl | hx
          · exact .inl (h.merge acc x σ hacc hd (.inr hσ))
          · exact .inr ⟨x, hx, hσ⟩
  cases envs with
  | nil => exact nomatch he
  | cons d ds =>
      obtain rfl := Option.some.inj henv
      refine hfold ds d (hall d List.mem_cons_self)
        (fun x hx => hall x (List.mem_cons_of_mem _ hx)) ?_
      rcases List.mem_cons.1 he with rfl | he
      · exact .inl hholds
      · exact .inr ⟨e, he, hholds⟩

theorem find?_simplified (h : List.Forall₂ (SimplifiedBlock ctx sol) body body')
    {label : Label} {b : Block} (hfind : body.find? (fun b => b.label = label) = some b) :
    ∃ b', body'.find? (fun b => b.label = label) = some b' ∧ SimplifiedBlock ctx sol b b' := by
  induction h with
  | nil => exact nomatch hfind
  | @cons first first' _ _ hfirst _ ih =>
      by_cases hlabel : first.label = label
      · rw [List.find?_cons_of_pos (by simpa using hlabel)] at hfind
        obtain rfl := Option.some.inj hfind
        exact ⟨first', List.find?_cons_of_pos (by simpa [hfirst.label_eq] using hlabel), hfirst⟩
      · rw [List.find?_cons_of_neg (by simpa using hlabel)] at hfind
        obtain ⟨b', hb', hsimplified⟩ := ih hfind
        refine ⟨b', ?_, hsimplified⟩
        rw [List.find?_cons_of_neg (by simpa [hfirst.label_eq] using hlabel)]
        exact hb'

theorem start_simplified (h : List.Forall₂ (SimplifiedBlock ctx sol) body body')
    (σ : Store V) : Machine.start body' σ = Machine.start body σ := by
  unfold Machine.start
  cases h with
  | nil => rfl
  | cons hfirst _ =>
      dsimp only [List.head?_cons]
      rw [hfirst.label_eq]

end Analysis

/-! ## The invariant of a run -/

/-- The statements left of a block are simplified in an environment that holds of the
variables. -/
structure FollowsIn (P : E → Prop) (Holds : E → Store V → Prop) (body body' : List Block)
    (sol : Solution E) (label : Label) (index : Nat) (σ : Store V) (b b' : Block)
    (env out : E) : Prop where
  find_eq : body.find? (fun b => b.label = label) = some b
  find_eq' : body'.find? (fun b => b.label = label) = some b'
  after_eq : sol.after.get? label = some out
  walk_eq : walk env (b.stmts.drop index) = .ok (b'.stmts.drop index, out)
  kept : P env
  holds : Holds env σ

/-- The invariant of a run that has a simplified body beside it. -/
def Follows (P : E → Prop) (Holds : E → Store V → Prop) (body body' : List Block)
    (sol : Solution E) (c : Config V) : Prop :=
  ∀ label index, c.place = .inside label index →
    ∃ b b' env out, FollowsIn P Holds body body' sol label index c.store b b' env out

/-- What flows into a block and holds of the variables makes the invariant hold at its
first statement. -/
theorem follows_of_flows [Faultless E] (hsound : Sound m ctx P Holds) (hg : g.Describes body)
    (hsol : Progress.Consistent ctx body g ⟨[], sol⟩) (hall : Progress.AllHold P sol)
    (hblocks : List.Forall₂ (SimplifiedBlock ctx sol) body body') {label : Label} {e : E}
    (he : e ∈ sol.flows g label (entry ctx)) {σ : Store V} (hholds : Holds e σ)
    (history : History V) : Follows P Holds body body' sol ⟨.inside label 0, σ, history⟩ := by
  intro label' index hplace
  obtain ⟨rfl, rfl⟩ := Place.inside.inj hplace
  obtain ⟨b, hb, hlabel, hfind⟩ :=
    Flow.exists_find? (Solution.mem_labels_of_flows hg (List.ne_nil_of_mem he))
  obtain ⟨b', hfind', hsimplified⟩ := find?_simplified hblocks hfind
  -- no block is waiting, so what was recorded for this one is the merge of all that flows in
  rcases Solution.isStable_iff.1 (hsol.settled label List.not_mem_nil) with
    ⟨-, hnone⟩ | ⟨old, env, hold, henv, hsame⟩
  · rw [Solution.inflow?_eq, ← Option.not_isSome_iff_eq_none, Solution.isSome_mergeAll] at hnone
    exact absurd (List.ne_nil_of_mem he) hnone
  · have hkept := hsound.kept body
    have hflows : ∀ x ∈ sol.flows g label (entry ctx), P x := by
      intro x hx
      rcases Solution.mem_flows.1 hx with ⟨-, rfl⟩ | ⟨source, -, hafter⟩
      · exact hsound.entry_kept
      · exact hall.after source x hafter
    have hold_kept : P old := hall.before label old hold
    have hσ : Holds old σ :=
      hsound.same old env σ hold_kept (hkept.inflow hall henv) hsame
        (hsound.mergeAll hflows he hholds ((Solution.inflow?_eq _ _ _ _).symm.trans henv))
    obtain ⟨b₁, hb₁, hlabel₁, out, hafter, hout⟩ := hsol.walked label old hold
    obtain rfl : b₁ = b := List.inj_on_of_nodup_map hg.wellLabelled.distinct hb₁ hb
      (hlabel₁.trans hlabel.symm)
    obtain ⟨out', hwalk⟩ := hsimplified.walk_eq
    rw [hlabel, hold, Option.getD_some] at hwalk
    obtain rfl : out = out' := Except.ok.inj (hout.symm.trans (through_eq_ok.2 ⟨_, hwalk⟩))
    exact ⟨b₁, b', old, out, hfind, hfind', hafter, hwalk, hold_kept, hσ⟩

theorem mem_dropLast_or_getLast? {b : Block} {index : Nat} {s : Stmt} {rest : List Stmt}
    (h : b.stmts.drop index = s :: rest) :
    s ∈ b.stmts.dropLast ∨ (rest = [] ∧ b.stmts.getLast? = some s) := by
  cases rest with
  | nil =>
      refine .inr ⟨rfl, ?_⟩
      have hlast : (b.stmts.drop index).getLast? = _ := List.getLast?_drop
      rw [h] at hlast
      split at hlast
      · exact nomatch hlast
      · exact hlast.symm
  | cons r rs =>
      refine .inl ?_
      have hsplit : b.stmts.take index ++ s :: r :: rs = b.stmts :=
        h ▸ List.take_append_drop index b.stmts
      rw [← hsplit, List.dropLast_append_cons]
      exact List.mem_append_right _ List.mem_cons_self

/-- A jump at the end of a block takes what is known there to its target. -/
theorem FollowsIn.mem_flows_of_goto (ctx : Context) (hends : EndsLast body) (hg : g.Describes body)
    {label target : Label} {index : Nat} {σ : Store V} {b b' : Block} {env mid out : E}
    (hin : FollowsIn P Holds body body' sol label index σ b b' env out)
    {s : Stmt} {rest rest' : List Stmt} (hdrop : b.stmts.drop index = s :: rest)
    (hrest : walk mid rest = .ok (rest', out)) (hend : s.endsBlock = true)
    (htarget : target ∈ s.targets) : mid ∈ sol.flows g target (entry ctx) := by
  have hb : b ∈ body := List.mem_of_find?_eq_some hin.find_eq
  have hlabel : b.label = label := by simpa using List.find?_some hin.find_eq
  rcases mem_dropLast_or_getLast? hdrop with hmem | ⟨rfl, hlast⟩
  · rw [hends b hb s hmem] at hend
    exact nomatch hend
  · obtain ⟨-, rfl⟩ := Prod.mk.inj (Except.ok.inj hrest)
    have hsucc : target ∈ b.successors := by
      unfold Block.successors
      rw [hlast]
      exact htarget
    exact Solution.mem_flows.2 (.inr
      ⟨label, (hg.mem_preds _ _).2 ⟨b, hb, hlabel, hsucc⟩, hin.after_eq⟩)

/-- Both bodies do the same in a step, and the invariant is kept. -/
theorem Follows.step [Faultless E] (hsound : Sound m ctx P Holds) (hends : EndsLast body)
    (hg : g.Describes body) (hsol : Progress.Consistent ctx body g ⟨[], sol⟩)
    (hall : Progress.AllHold P sol)
    (hblocks : List.Forall₂ (SimplifiedBlock ctx sol) body body') {c : Config V}
    (hc : Follows P Holds body body' sol c) :
    m.step ctx body' c = m.step ctx body c ∧
      Follows P Holds body body' sol (m.step ctx body c) := by
  obtain ⟨place, σ, history⟩ := c
  cases place with
  | inside label index =>
      obtain ⟨b, b', env, out, hin⟩ := hc label index rfl
      unfold Machine.step
      dsimp only
      rw [hin.find_eq, hin.find_eq']
      dsimp only
      have hwalk := hin.walk_eq
      rw [← List.head?_drop, ← List.head?_drop]
      cases hdrop : b.stmts.drop index with
      | nil =>
          rw [hdrop] at hwalk
          obtain ⟨hdrop', -⟩ := Prod.mk.inj (Except.ok.inj hwalk)
          rw [← hdrop']
          exact ⟨rfl, fun _ _ hplace => nomatch hplace⟩
      | cons s rest =>
          rw [hdrop] at hwalk
          obtain ⟨s', mid, rest', hstep, hrest, hdrop'⟩ := walk_cons_eq_ok.1 hwalk
          rw [hdrop']
          dsimp only [List.head?_cons]
          have hexec := hsound.exec_eq env s s' mid σ history hin.kept hin.holds hstep
          have hholds := hsound.exec_holds env s s' mid σ history hin.kept hin.holds hstep
          rw [hexec] at hholds ⊢
          refine ⟨rfl, ?_⟩
          -- both bodies go on in the same way, so the cases are those of one of them
          generalize hcontrol : (m.exec ctx s σ history).control = control at hholds ⊢
          cases control with
          | next =>
              intro label' index' hplace
              obtain ⟨rfl, rfl⟩ := Place.inside.inj hplace
              refine ⟨b, b', mid, out, hin.find_eq, hin.find_eq', hin.after_eq, ?_,
                hsound.step_kept env s s' mid hin.kept hstep, hholds (by simp)⟩
              rw [← List.tail_drop, ← List.tail_drop, hdrop, hdrop']
              exact hrest
          | goto target =>
              obtain ⟨hend, htarget⟩ := Machine.exec_eq_goto hcontrol
              have hflow := hin.mem_flows_of_goto ctx hends hg hdrop hrest hend htarget
              exact follows_of_flows hsound hg hsol hall hblocks hflow (hholds (by simp)) _
          | returned v => exact fun _ _ hplace => nomatch hplace
          | stopped => exact fun _ _ hplace => nomatch hplace
  | returned v => exact ⟨rfl, hc⟩
  | ended => exact ⟨rfl, hc⟩
  | stopped => exact ⟨rfl, hc⟩

theorem Analysis.follows_after [Faultless E] (hsound : Sound m ctx P Holds)
    (hends : EndsLast body) {fuel : Nat} {scope : String}
    (h : simplify E fuel scope ctx body = .ok body') {σ : Store V}
    (hentry : Holds (entry ctx) σ) :
    ∃ sol : Solution E, ∀ n, m.after ctx body' σ n = m.after ctx body σ n ∧
      Follows P Holds body body' sol (m.after ctx body σ n) := by
  obtain ⟨g, sol, hsolve, hblocks⟩ := simplify_eq_ok_iff.1 h
  obtain ⟨hg, hsol⟩ := solved hsolve
  have hall := solved_of_kept (hsound.kept body) hsolve
  have hstart : Follows P Holds body body' sol (Machine.start body σ) := by
    unfold Machine.start
    cases hhead : body.head? with
    | none => exact fun _ _ hplace => nomatch hplace
    | some b =>
        have hfirst := hg.entry?_eq_some_iff.2 ⟨b, hhead, rfl⟩
        exact follows_of_flows hsound hg hsol hall hblocks
          (Solution.mem_flows.2 (.inl ⟨hfirst, rfl⟩)) hentry []
  refine ⟨sol, fun n => ?_⟩
  induction n with
  | zero => exact ⟨start_simplified hblocks σ, hstart⟩
  | succ n ih =>
      rw [Machine.after_succ, Machine.after_succ, ih.1]
      exact ih.2.step hsound hends hg hsol hall hblocks

theorem Analysis.after_simplified [Faultless E] (hsound : Sound m ctx P Holds)
    (hends : EndsLast body) {fuel : Nat} {scope : String}
    (h : simplify E fuel scope ctx body = .ok body') {σ : Store V}
    (hentry : Holds (entry ctx) σ) (n : Nat) :
    m.after ctx body' σ n = m.after ctx body σ n := by
  obtain ⟨sol, hrun⟩ := follows_after hsound hends h hentry
  exact (hrun n).1

theorem Follows.exists_step {c : Config V} (hc : Follows P Holds body body' sol c)
    {label : Label} {index : Nat} (hplace : c.place = .inside label index) {b : Block}
    (hfind : body.find? (fun b => b.label = label) = some b) {s : Stmt}
    (hs : b.stmts[index]? = some s) :
    ∃ b' s' env out, body'.find? (fun b => b.label = label) = some b' ∧
      b'.stmts[index]? = some s' ∧ P env ∧ Holds env c.store ∧
      Analysis.step env s = .ok (s', out) := by
  obtain ⟨b₁, b', env, out, hin⟩ := hc label index hplace
  obtain rfl : b₁ = b := Option.some.inj (hin.find_eq.symm.trans hfind)
  rw [← List.head?_drop] at hs
  have hwalk := hin.walk_eq
  cases hdrop : b₁.stmts.drop index with
  | nil =>
      rw [hdrop] at hs
      exact nomatch hs
  | cons s₁ rest =>
      rw [hdrop] at hs hwalk
      obtain rfl : s₁ = s := Option.some.inj hs
      obtain ⟨s', mid, rest', hstep, -, hdrop'⟩ := walk_cons_eq_ok.1 hwalk
      refine ⟨b', s', env, mid, hin.find_eq', ?_, hin.kept, hin.holds, hstep⟩
      rw [← List.head?_drop, hdrop']
      rfl

end Midend
