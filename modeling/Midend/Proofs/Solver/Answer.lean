import Midend.Proofs.Solver.Consistency
import Mathlib.Data.List.Forall2
import Mathlib.Data.Nat.Init
/-!
# Answers of the solver

On a body whose labels are right the solver finds no fault: it gives an answer or
runs out of fuel (`solve_eq_ok_or_outOfFuel`).  More fuel does not change an
answer, and in an answer every block has the environment that flows into it
(`solved`).

A simplified body has the labels and the jumps of the body it came from
(`sameEdges_of_simplified`).
-/

namespace Midend

open Midend.Flow

variable {E : Type} [Analysis E] {ctx : Context} {body : List Block} {g : Graph}

namespace Progress

theorem after_of_rest {n m : Nat} {sol : Solution E} (h : after ctx body g n = ⟨[], sol⟩)
    (hle : n ≤ m) : (after ctx body g m : Progress E) = ⟨[], sol⟩ := by
  induction m, hle using Nat.le_induction with
  | base => exact h
  | succ m _ ih =>
      rw [after_succ, ih]
      exact turn_of_queue_eq_nil rfl

theorem run_succ [Faultless E] (hg : g.Describes body) {p : Progress E}
    (hp : Consistent ctx body g p) (fuel : Nat) :
    Analysis.run ctx body g (fuel + 1) p.queue p.sol =
      Analysis.run ctx body g fuel (turn ctx body g p).queue (turn ctx body g p).sol := by
  obtain ⟨queue, sol⟩ := p
  cases queue with
  | nil =>
      rw [turn_of_queue_eq_nil rfl]
      cases fuel <;> rfl
  | cons label queue =>
      have hflows := hp.reached label List.mem_cons_self
      obtain ⟨b, -, -, hfind⟩ := Flow.exists_find? (Solution.mem_labels_of_flows hg hflows)
      obtain ⟨out, hout⟩ := Analysis.exists_through
        ((sol.inflow? g label (Analysis.entry ctx)).getD (Analysis.unreached ctx)) b
      conv_lhs => unfold Analysis.run
      unfold turn
      dsimp only
      split
      · rfl
      · rw [hfind]
        dsimp only
        rw [hout]

theorem run_eq_ok_or_outOfFuel [Faultless E] (hg : g.Describes body) (fuel : Nat)
    {p : Progress E} (hp : Consistent ctx body g p) :
    (∃ sol, Analysis.run ctx body g fuel p.queue p.sol = .ok sol) ∨
      Analysis.run ctx body g fuel p.queue p.sol = .error .outOfFuel := by
  induction fuel generalizing p with
  | zero =>
      obtain ⟨queue, sol⟩ := p
      cases queue with
      | nil => exact .inl ⟨sol, rfl⟩
      | cons label queue => exact .inr rfl
  | succ fuel ih =>
      rw [run_succ hg hp]
      exact ih (hp.turn hg)

end Progress

namespace Analysis

/-! ## The solver as a whole -/

theorem solve_eq_ok_iff {fuel : Nat} {scope : String} {sol : Solution E} :
    solve E fuel scope ctx body = .ok (g, sol) ↔
      Graph.ofBody scope body = .ok g ∧ Progress.after ctx body g fuel = ⟨[], sol⟩ := by
  unfold solve
  cases hbody : Graph.ofBody scope body with
  | error cause => simp
  | ok g' =>
      have hrun : ∀ sol : Solution E,
          run ctx body g' fuel g'.entry?.toList .empty = .ok sol ↔
            Progress.after ctx body g' fuel = ⟨[], sol⟩ :=
        fun sol => run_eq_ok_iff fuel g'.entry?.toList .empty sol
      have hpair : (Except.map (g', ·) (run ctx body g' fuel g'.entry?.toList .empty) :
          Except Stop (Graph × Solution E)) = .ok (g, sol) ↔
            g' = g ∧ run ctx body g' fuel g'.entry?.toList .empty = .ok sol := by
        cases run ctx body g' fuel g'.entry?.toList (.empty : Solution E) <;> simp [Except.map]
      refine hpair.trans ?_
      rw [hrun, Except.ok.injEq]
      exact and_congr_right fun heq => by rw [heq]

theorem solve_mono {fuel fuel' : Nat} {scope : String} {answer : Graph × Solution E}
    (h : solve E fuel scope ctx body = .ok answer) (hle : fuel ≤ fuel') :
    solve E fuel' scope ctx body = .ok answer := by
  obtain ⟨g, sol⟩ := answer
  obtain ⟨hg, hafter⟩ := solve_eq_ok_iff.1 h
  exact solve_eq_ok_iff.2 ⟨hg, Progress.after_of_rest hafter hle⟩

variable [Faultless E]

theorem solve_eq_ok_or_outOfFuel {scope : String} (hbody : WellLabelled body) (fuel : Nat) :
    (∃ answer, solve E fuel scope ctx body = .ok answer) ∨
      solve E fuel scope ctx body = .error .outOfFuel := by
  obtain ⟨g, hg⟩ : ∃ g, Graph.ofBody scope body = .ok g := Graph.exists_ofBody_iff.2 hbody
  have hstart : Progress.Consistent ctx body g (Progress.start g : Progress E) :=
    Progress.consistent_start
  have hrun := Progress.run_eq_ok_or_outOfFuel (Graph.describes_of_ofBody hg) fuel hstart
  unfold solve
  rw [hg]
  rcases hrun with ⟨sol, hsol⟩ | hnone
  · exact .inl ⟨(g, sol), congrArg (Except.map (g, ·)) hsol⟩
  · exact .inr (congrArg (Except.map (g, ·)) hnone)

/-- While the queue never gets empty, no fuel is enough. -/
theorem solve_eq_outOfFuel {scope : String} (hg : Graph.ofBody scope body = .ok g)
    (hqueue : ∀ n, (Progress.after ctx body g n : Progress E).queue ≠ []) (fuel : Nat) :
    solve E fuel scope ctx body = .error .outOfFuel := by
  have hbody : WellLabelled body := Graph.exists_ofBody_iff.1 ⟨g, hg⟩
  rcases solve_eq_ok_or_outOfFuel (E := E) hbody fuel with ⟨⟨g', sol⟩, h⟩ | h
  · obtain ⟨hg', hafter⟩ := solve_eq_ok_iff.1 h
    obtain rfl : g = g' := Except.ok.inj (hg.symm.trans hg')
    exact absurd (congrArg Progress.queue hafter) (hqueue fuel)
  · exact h

theorem solved {fuel : Nat} {scope : String} {sol : Solution E}
    (h : solve E fuel scope ctx body = .ok (g, sol)) :
    g.Describes body ∧ Progress.Consistent ctx body g ⟨[], sol⟩ := by
  obtain ⟨hg, hafter⟩ := solve_eq_ok_iff.1 h
  have hdescribes := Graph.describes_of_ofBody hg
  exact ⟨hdescribes, hafter ▸ Progress.consistent_after hdescribes fuel⟩

/-- What is kept through all turns holds before and after every block of an answer. -/
theorem solved_of_kept {P : E → Prop} (hkept : Progress.Kept ctx body P) {fuel : Nat}
    {scope : String} {sol : Solution E} (h : solve E fuel scope ctx body = .ok (g, sol)) :
    Progress.AllHold P sol := by
  obtain ⟨hg, hafter⟩ := solve_eq_ok_iff.1 h
  have hall := hkept.after (Graph.describes_of_ofBody hg) fuel
  rw [hafter] at hall
  exact hall

/-! ## Simplified bodies -/

omit [Analysis E] [Faultless E] in
theorem mapM_eq_ok_iff {α β ε : Type} (f : α → Except ε β) (xs : List α) (ys : List β) :
    xs.mapM f = .ok ys ↔ List.Forall₂ (fun x y => f x = .ok y) xs ys := by
  induction xs generalizing ys with
  | nil => cases ys <;> simp [pure, Except.pure]
  | cons x xs ih =>
      rw [List.mapM_cons, List.forall₂_cons_left_iff]
      cases hx : f x with
      | error cause => simp [bind, Except.bind]
      | ok y =>
          cases hxs : xs.mapM f with
          | error cause =>
              have hnone : ∀ zs, ¬ List.Forall₂ (fun x y => f x = .ok y) xs zs := by
                intro zs hzs
                rw [← ih zs, hxs] at hzs
                exact nomatch hzs
              simp [bind, Except.bind, hnone]
          | ok zs =>
              have hsome : ∀ us, List.Forall₂ (fun x y => f x = .ok y) xs us ↔ zs = us := by
                intro us
                rw [← ih us, hxs]
                simp only [Except.ok.injEq]
              simp [bind, Except.bind, pure, Except.pure, hsome, eq_comm]

structure SimplifiedBlock (ctx : Context) (sol : Solution E) (b b' : Block) : Prop where
  label_eq : b'.label = b.label
  walk_eq : ∃ out, walk ((sol.before.get? b.label).getD (unreached ctx)) b.stmts =
    .ok (b'.stmts, out)

omit [Faultless E] in
theorem simplifyBlock_eq_ok_iff {sol : Solution E} {b b' : Block} :
    simplifyBlock ctx sol b = .ok b' ↔ SimplifiedBlock ctx sol b b' := by
  unfold simplifyBlock
  split
  · rename_i cause hwalk
    refine iff_of_false (fun h => nomatch h) ?_
    rintro ⟨-, out, hout⟩
    exact nomatch hwalk.symm.trans hout
  · rename_i stmts out hwalk
    constructor
    · intro h
      obtain rfl := Except.ok.inj h
      exact ⟨rfl, out, hwalk⟩
    · rintro ⟨hlabel, out', hout'⟩
      obtain ⟨label', stmts'⟩ := b'
      obtain rfl : label' = b.label := hlabel
      obtain ⟨rfl, -⟩ := Prod.mk.inj (Except.ok.inj (hwalk.symm.trans hout'))
      rfl

omit [Faultless E] in
theorem simplify_eq_ok_iff {fuel : Nat} {scope : String} {body' : List Block} :
    simplify E fuel scope ctx body = .ok body' ↔
      ∃ g sol, solve E fuel scope ctx body = .ok (g, sol) ∧
        List.Forall₂ (SimplifiedBlock ctx sol) body body' := by
  unfold simplify
  cases hsolve : solve E fuel scope ctx body with
  | error stop => simp [bind, Except.bind]
  | ok answer =>
      obtain ⟨g, sol⟩ := answer
      have hmap : body.mapM (simplifyBlock ctx sol) = .ok body' ↔
          List.Forall₂ (SimplifiedBlock ctx sol) body body' := by
        rw [mapM_eq_ok_iff]
        simp only [simplifyBlock_eq_ok_iff]
      refine Iff.trans (show _ ↔ body.mapM (simplifyBlock ctx sol) = .ok body' from Iff.rfl) ?_
      rw [hmap]
      constructor
      · exact fun h => ⟨g, sol, rfl, h⟩
      · rintro ⟨_, _, heq, h⟩
        obtain ⟨rfl, rfl⟩ := Prod.mk.inj (Except.ok.inj heq)
        exact h

theorem exists_simplified (ctx : Context) (sol : Solution E) (body : List Block) :
    ∃ body', List.Forall₂ (SimplifiedBlock ctx sol) body body' := by
  induction body with
  | nil => exact ⟨[], .nil⟩
  | cons b body ih =>
      obtain ⟨body', hbody'⟩ := ih
      obtain ⟨stmts, out, hwalk⟩ :=
        exists_walk ((sol.before.get? b.label).getD (unreached ctx)) b.stmts
      exact ⟨⟨b.label, stmts⟩ :: body', .cons ⟨rfl, out, hwalk⟩ hbody'⟩

theorem exists_simplify_iff {fuel : Nat} {scope : String} :
    (∃ body', simplify E fuel scope ctx body = .ok body') ↔
      ∃ answer, solve E fuel scope ctx body = .ok answer := by
  constructor
  · rintro ⟨body', h⟩
    obtain ⟨g, sol, hsolve, -⟩ := simplify_eq_ok_iff.1 h
    exact ⟨(g, sol), hsolve⟩
  · rintro ⟨⟨g, sol⟩, hsolve⟩
    obtain ⟨body', hbody'⟩ := exists_simplified ctx sol body
    exact ⟨body', simplify_eq_ok_iff.2 ⟨g, sol, hsolve, hbody'⟩⟩

theorem SimplifiedBlock.sameEdges {sol : Solution E} {b b' : Block}
    (h : SimplifiedBlock ctx sol b b') : b.SameEdges b' := by
  refine ⟨h.label_eq, ?_⟩
  obtain ⟨out, hout⟩ := h.walk_eq
  have htargets := walk_targets hout
  unfold Block.successors
  rw [← List.getLast?_map, ← List.getLast?_map, htargets]

theorem sameEdges_of_simplified {sol : Solution E} {body' : List Block}
    (h : List.Forall₂ (SimplifiedBlock ctx sol) body body') :
    List.Forall₂ Block.SameEdges body body' :=
  h.imp fun _ _ => SimplifiedBlock.sameEdges

omit [Faultless E] in
theorem simplify_mono {fuel fuel' : Nat} {scope : String} {body' : List Block}
    (h : simplify E fuel scope ctx body = .ok body') (hle : fuel ≤ fuel') :
    simplify E fuel' scope ctx body = .ok body' := by
  obtain ⟨g, sol, hsolve, hblocks⟩ := simplify_eq_ok_iff.1 h
  exact simplify_eq_ok_iff.2 ⟨g, sol, solve_mono hsolve hle, hblocks⟩

end Analysis

end Midend
