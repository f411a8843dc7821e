import Midend.Proofs.Constants.Rest
import Midend.Proofs.Solver.Reached
import Mathlib.Order.Bounds.Basic
/-!
# The least solution for constants

Before a block of a body holds the least that is above all that flows into it; environments for
which this is so, and which know something about every variable, solve the equations of the body
(`Solves`).  The solver comes to rest with the least of all solutions (`exists_least_solution`).

The equations do not depend on the order of the blocks after the first, so neither does the answer:
the same blocks are reached, with the same facts before and after them.
-/

namespace Midend.Constants

open Midend.Flow Analysis

variable {ctx : Context} {body body' : List Block} {g : Graph} {fuel : Nat} {scope : String}
variable {sol sol' : Solution Constants} {before : Label → Option Constants} {label : Label}

/-- A solution of the equations of a body: the blocks that jumps lead to have environments of the
context that know something about every variable, and each of these says the least of all that is
above what flows into its block. -/
structure Solves (ctx : Context) (body : List Block) (before : Label → Option Constants) :
    Prop where
  reached : ∀ label, (before label).isSome ↔ Reachable body label
  locals_eq : ∀ label env, before label = some env → env.locals = ctx.locals
  decided : ∀ label env, before label = some env → env.Decided
  equation : ∀ label env, before label = some env →
    IsLUB (fact '' {e | FlowsInto ctx body before label e}) env.fact

structure IsLeastSolution (ctx : Context) (body : List Block) (sol : Solution Constants) :
    Prop where
  solves : Solves ctx body sol.before.get?
  least : ∀ before, Solves ctx body before → ∀ label env bound,
    sol.before.get? label = some env → before label = some bound → env.fact ≤ bound.fact
  after_eq_some_iff : ∀ label out, sol.after.get? label = some out ↔
    ∃ b ∈ body, b.label = label ∧
      ∃ env, sol.before.get? label = some env ∧ through env b = .ok out

/-! ## Merges are least upper bounds -/

theorem fact_merge_le_iff {a b : Constants} {bound : String → Fact Value} :
    (a.merge b).fact ≤ bound ↔ a.fact ≤ bound ∧ b.fact ≤ bound := by
  constructor
  · intro h
    refine ⟨fun name => le_trans ?_ (h name), fun name => le_trans ?_ (h name)⟩
    · rw [fact_merge]
      exact Fact.le_merge_left _ _
    · rw [fact_merge]
      exact Fact.le_merge_right _ _
  · rintro ⟨ha, hb⟩ name
    rw [fact_merge]
    exact Fact.merge_le (ha name) (hb name)

theorem fact_foldl_merge_le_iff {envs : List Constants} {env : Constants}
    {bound : String → Fact Value} :
    (envs.foldl Analysis.merge env).fact ≤ bound ↔
      env.fact ≤ bound ∧ ∀ e ∈ envs, e.fact ≤ bound := by
  induction envs generalizing env with
  | nil => simp
  | cons e envs ih =>
      rw [List.foldl_cons, ih, List.forall_mem_cons, ← and_assoc]
      exact and_congr_left fun _ => fact_merge_le_iff

theorem isLUB_mergeAll {envs : List Constants} {env : Constants}
    (h : Solution.mergeAll envs = some env) : IsLUB (fact '' {e | e ∈ envs}) env.fact := by
  cases envs with
  | nil => exact nomatch h
  | cons first rest =>
      obtain rfl := Option.some.inj h
      rw [isLUB_iff_le_iff]
      intro bound
      rw [fact_foldl_merge_le_iff, mem_upperBounds, Set.forall_mem_image]
      exact (List.forall_mem_cons (p := fun e : Constants => e.fact ≤ bound)).symm

/-! ## The answer solves the equations -/

theorem solves_of_solve (h : solve Constants fuel scope ctx body = .ok (g, sol)) :
    Solves ctx body sol.before.get? where
  reached _ := isSome_before_iff h
  locals_eq label env henv :=
    ((solved_of_kept (kept_definite ctx body) h).before label env henv).locals_eq
  decided label env henv :=
    ((solved_of_kept (kept_definite ctx body) h).before label env henv).decided
  equation label env henv := by
    rcases before_of_solve h label with ⟨hnone, -⟩ | ⟨old, inflow, hold, hsame, hmerge⟩
    · exact nomatch hnone.symm.trans henv
    · obtain rfl : old = env := Option.some.inj (hold.symm.trans henv)
      have hfacts : old.facts = inflow.facts := (FactBased.same_iff old inflow).1 hsame
      have hfact : old.fact = inflow.fact := by
        unfold fact
        rw [hfacts]
      have hflows : {e | e ∈ sol.flows g label (Analysis.entry ctx)} =
          {e | FlowsInto ctx body sol.before.get? label e} := by
        obtain ⟨hg, hp⟩ := solved h
        ext e
        exact hp.mem_flows_iff hg
      rw [hfact, ← hflows]
      exact isLUB_mergeAll hmerge

/-! ## It is below every solution -/

structure Below (ctx : Context) (body : List Block) (before : Label → Option Constants)
    (label : Label) (env : Constants) : Prop where
  reached : Reachable body label
  definite : Definite ctx (namesOf ctx body) env
  le : ∀ bound, before label = some bound → env.fact ≤ bound.fact

theorem Solves.fact_le (h : Solves ctx body before) {env bound : Constants}
    (hflow : FlowsInto ctx body before label env) (hbound : before label = some bound) :
    env.fact ≤ bound.fact :=
  (h.equation label bound hbound).1 (Set.mem_image_of_mem fact hflow)

theorem Solves.keptAt_below (h : Solves ctx body before) :
    Progress.KeptAt ctx body (Below ctx body before) where
  entry b hb :=
    ⟨.first hb, (kept_definite ctx body).entry, fun _ hbound => h.fact_le (.entry hb) hbound⟩
  merge label a b ha hb :=
    ⟨ha.reached, ha.definite.merge hb.definite, fun bound hbound =>
      fact_merge_le_iff.2 ⟨ha.le bound hbound, hb.le bound hbound⟩⟩
  through b hb target htarget env out henv hout := by
    refine ⟨.jump henv.reached hb htarget,
      (kept_definite ctx body).through b hb env out henv.definite hout, fun bound hbound => ?_⟩
    -- the solution has an environment before `b` too, and it gives more to the successors
    obtain ⟨env', henv'⟩ := Option.isSome_iff_exists.1 ((h.reached b.label).2 henv.reached)
    obtain ⟨out', hout'⟩ := exists_through env' b
    have hlocals : env.locals = env'.locals :=
      henv.definite.locals_eq.trans (h.locals_eq b.label env' henv').symm
    calc out.fact ≤ out'.fact :=
          fact_le_of_through hlocals henv.definite.decided (henv.le env' henv') hout hout'
      _ ≤ bound.fact := h.fact_le (.jump hb henv' htarget hout') hbound

theorem isLeastSolution_of_solve (h : solve Constants fuel scope ctx body = .ok (g, sol)) :
    IsLeastSolution ctx body sol where
  solves := solves_of_solve h
  least _ hbefore _ _ bound henv hbound :=
    (solved_of_keptAt hbefore.keptAt_below h henv).le bound hbound
  after_eq_some_iff _ _ := after_eq_some_iff h

/-! ## The order of the blocks -/

theorem Solves.of_perm (hhead : body'.head? = body.head?) (hperm : body'.Perm body)
    (h : Solves ctx body before) : Solves ctx body' before where
  reached label := (h.reached label).trans
    ⟨.of_perm hhead hperm, .of_perm hhead.symm hperm.symm⟩
  locals_eq := h.locals_eq
  decided := h.decided
  equation label env henv := by
    have hflows : {e | FlowsInto ctx body' before label e} =
        {e | FlowsInto ctx body before label e} := by
      ext e
      exact ⟨.of_perm hhead.symm hperm.symm, .of_perm hhead hperm⟩
    rw [hflows]
    exact h.equation label env henv

theorem IsLeastSolution.of_perm (hhead : body'.head? = body.head?) (hperm : body'.Perm body)
    (h : IsLeastSolution ctx body sol) : IsLeastSolution ctx body' sol where
  solves := h.solves.of_perm hhead hperm
  least before hbefore := h.least before (hbefore.of_perm hhead.symm hperm.symm)
  after_eq_some_iff label out := by
    rw [h.after_eq_some_iff]
    exact exists_congr fun b => and_congr_left fun _ => hperm.mem_iff.symm

theorem IsLeastSolution.fact_le (h : IsLeastSolution ctx body sol)
    (h' : IsLeastSolution ctx body sol') {env env' : Constants}
    (henv : sol.before.get? label = some env) (henv' : sol'.before.get? label = some env') :
    env.fact ≤ env'.fact :=
  h.least _ h'.solves label env env' henv henv'

/-- There is only one least solution, as far as facts go: before the blocks. -/
theorem IsLeastSolution.before_eq (h : IsLeastSolution ctx body sol)
    (h' : IsLeastSolution ctx body sol') (label : Label) :
    (sol'.before.get? label).map fact = (sol.before.get? label).map fact := by
  have hreached : (sol'.before.get? label).isSome ↔ (sol.before.get? label).isSome :=
    (h'.solves.reached label).trans (h.solves.reached label).symm
  cases henv : sol.before.get? label with
  | none =>
      rw [henv] at hreached
      have hnone : sol'.before.get? label = none := by simpa using hreached
      rw [hnone]
  | some env =>
      rw [henv] at hreached
      obtain ⟨env', henv'⟩ := Option.isSome_iff_exists.1 (hreached.2 rfl)
      rw [henv', Option.map_some, Option.map_some]
      exact congrArg some (le_antisymm (h'.fact_le h henv' henv) (h.fact_le h' henv henv'))

theorem IsLeastSolution.exists_after (h : IsLeastSolution ctx body sol)
    (h' : IsLeastSolution ctx body sol') {out : Constants}
    (hout : sol.after.get? label = some out) :
    ∃ out', sol'.after.get? label = some out' ∧ out'.fact ≤ out.fact := by
  obtain ⟨b, hb, rfl, env, henv, hthrough⟩ := (h.after_eq_some_iff label out).1 hout
  have hreached : Reachable body b.label := (h.solves.reached b.label).1 (henv ▸ rfl)
  obtain ⟨env', henv'⟩ := Option.isSome_iff_exists.1 ((h'.solves.reached b.label).2 hreached)
  obtain ⟨out', hthrough'⟩ := exists_through env' b
  have hlocals : env'.locals = env.locals :=
    (h'.solves.locals_eq b.label env' henv').trans (h.solves.locals_eq b.label env henv).symm
  refine ⟨out', (h'.after_eq_some_iff _ _).2 ⟨b, hb, rfl, env', henv', hthrough'⟩, ?_⟩
  exact fact_le_of_through hlocals (h'.solves.decided b.label env' henv') (h'.fact_le h henv' henv)
    hthrough' hthrough

theorem IsLeastSolution.after_eq (h : IsLeastSolution ctx body sol)
    (h' : IsLeastSolution ctx body sol') (label : Label) :
    (sol'.after.get? label).map fact = (sol.after.get? label).map fact := by
  cases hout : sol.after.get? label with
  | none =>
      cases hout' : sol'.after.get? label with
      | none => rfl
      | some out' =>
          obtain ⟨out, hsome, -⟩ := h'.exists_after h hout'
          exact nomatch hout.symm.trans hsome
  | some out =>
      obtain ⟨out', hout', hle⟩ := h.exists_after h' hout
      obtain ⟨same, hsame, hge⟩ := h'.exists_after h hout'
      obtain rfl : out = same := Option.some.inj (hout.symm.trans hsame)
      rw [hout', Option.map_some, Option.map_some]
      exact congrArg some (le_antisymm hle hge)

/-! ## The solver as a whole -/

theorem exists_answers (scope : String) (ctx : Context) (hbody : WellLabelled body) :
    ∃ g sol, Answers scope ctx body (g, (sol : Solution Constants)) ∧
      IsLeastSolution ctx body sol := by
  obtain ⟨fuel, ⟨g, sol⟩, h⟩ : ∃ fuel answer, solve Constants fuel scope ctx body = .ok answer :=
    exists_solve_constants hbody
  exact ⟨g, sol, ⟨fuel, fun _ hle => solve_mono h hle⟩, isLeastSolution_of_solve h⟩

/-- On every body whose labels are right the solver comes to rest, with the least solution of the
equations of the body.  If the blocks after the first are put in another order, it comes to rest
with environments for the same blocks, with the same facts before and after them. -/
theorem exists_least_solution (scope : String) (ctx : Context) (hbody : WellLabelled body) :
    ∃ g sol, Answers scope ctx body (g, sol) ∧ IsLeastSolution ctx body sol ∧
      ∀ body', body'.head? = body.head? → body'.Perm body →
        ∃ g' sol', Answers scope ctx body' (g', sol') ∧
          ∀ label,
            (sol'.before.get? label).map fact = (sol.before.get? label).map fact ∧
              (sol'.after.get? label).map fact = (sol.after.get? label).map fact := by
  obtain ⟨g, sol, hanswers, hleast⟩ := exists_answers scope ctx hbody
  refine ⟨g, sol, hanswers, hleast, fun body' hhead hperm => ?_⟩
  obtain ⟨g', sol', hanswers', hleast'⟩ := exists_answers scope ctx (hbody.of_perm hperm)
  have hsame : IsLeastSolution ctx body sol' := hleast'.of_perm hhead.symm hperm.symm
  exact ⟨g', sol', hanswers', fun label =>
    ⟨hleast.before_eq hsame label, hleast.after_eq hsame label⟩⟩

/-- Two ways that set `x` to different literals and `y` to the same one, and what they join in. -/
def forkBody : List Block :=
  [⟨"entry", [.branch (.id "flag") "left" "right"]⟩,
    ⟨"left", [.assign "x" (.value (.num 1)), .assign "y" (.value (.num 3)), .jump "join"]⟩,
    ⟨"right", [.assign "x" (.value (.num 2)), .assign "y" (.value (.num 3)), .jump "join"]⟩,
    ⟨"join", [.assign "z" (.binary .plus (.id "x") (.id "y")), .jump "left"]⟩]

theorem exists_least_solution_fork :
    WellLabelled forkBody ∧
      ∃ g sol, Answers "fork" ⟨[], [⟨"flag", .bool⟩], ∅⟩ forkBody (g, sol) ∧
        IsLeastSolution ⟨[], [⟨"flag", .bool⟩], ∅⟩ forkBody sol ∧
        ∀ body', body'.head? = forkBody.head? → body'.Perm forkBody →
          ∃ g' sol', Answers "fork" ⟨[], [⟨"flag", .bool⟩], ∅⟩ body' (g', sol') ∧
            ∀ label,
              (sol'.before.get? label).map fact = (sol.before.get? label).map fact ∧
                (sol'.after.get? label).map fact = (sol.after.get? label).map fact := by
  have hbody : WellLabelled forkBody := checkLabels_eq_ok_iff.1 (rfl : checkLabels "fork" _ = _)
  exact ⟨hbody, exists_least_solution "fork" ⟨[], [⟨"flag", .bool⟩], ∅⟩ hbody⟩

end Midend.Constants
