import Midend.Analysis.Fact
import Midend.Analysis.Solver
import Midend.Name.Lemmas
import Midend.Proofs.Flow.Graph
import Mathlib.Logic.Function.Iterate
/-!
# The solver turn by turn

The solver as a function from one state of its work to the next (`turn`), so that
a run with fuel is an iteration (`run_eq_ok_iff`).  `Consistent` says what holds
after any number of turns; `Turn` what one of them can do.
-/

namespace Midend

open Midend.Flow

namespace Solution

variable {E : Type}

/-- What flows into a block: the entry environment if it is the first, then what
its predecessors give. -/
def flows (sol : Solution E) (g : Graph) (label : Label) (entry : E) : List E :=
  (if g.entry? = some label then [entry] else []) ++
    (g.predsOf label).filterMap sol.after.get?

theorem mem_flows {sol : Solution E} {g : Graph} {label : Label} {entry env : E} :
    env ∈ sol.flows g label entry ↔
      (g.entry? = some label ∧ env = entry) ∨
        ∃ source ∈ g.predsOf label, sol.after.get? source = some env := by
  unfold flows
  rw [List.mem_append, List.mem_filterMap]
  split <;> simp_all

theorem flows_congr {sol sol' : Solution E} {g : Graph} {label : Label} (entry : E)
    (h : ∀ source ∈ g.predsOf label, sol'.after.get? source = sol.after.get? source) :
    sol'.flows g label entry = sol.flows g label entry := by
  unfold flows
  rw [List.filterMap_congr h]

theorem get?_before_record (sol : Solution E) (label other : Label) (env out : E) :
    (sol.record label env out).before.get? other =
      if other = label then some env else sol.before.get? other :=
  NameMap.get?_insert _ _ _ _

theorem get?_after_record (sol : Solution E) (label other : Label) (env out : E) :
    (sol.record label env out).after.get? other =
      if other = label then some out else sol.after.get? other :=
  NameMap.get?_insert _ _ _ _

variable [Analysis E]

def mergeAll : List E → Option E
  | [] => none
  | env :: envs => some (envs.foldl Analysis.merge env)

theorem isSome_mergeAll {envs : List E} : (mergeAll envs).isSome ↔ envs ≠ [] := by
  cases envs <;> simp [mergeAll]

theorem foldl_join_some (envs : List E) (env : E) :
    envs.foldl join (some env) = some (envs.foldl Analysis.merge env) := by
  induction envs generalizing env with
  | nil => rfl
  | cons e envs ih => exact ih _

theorem foldl_join_none (envs : List E) : envs.foldl join none = mergeAll envs := by
  cases envs with
  | nil => rfl
  | cons e envs => exact foldl_join_some envs e

theorem inflow?_eq (sol : Solution E) (g : Graph) (label : Label) (entry : E) :
    sol.inflow? g label entry = mergeAll (sol.flows g label entry) := by
  unfold inflow? flows
  split
  · exact foldl_join_some _ _
  · exact foldl_join_none _

end Solution

/-! ## Analyses that are about facts -/

/-- An analysis that finds no fault in any statement and sends no jump elsewhere, and
for which every environment is the same as itself. -/
class Faultless (E : Type) [Analysis E] : Prop where
  exists_step : ∀ (env : E) (s : Stmt), ∃ s' out, Analysis.step env s = .ok (s', out)
  targets_eq : ∀ (env out : E) (s s' : Stmt), Analysis.step env s = .ok (s', out) →
    s'.targets = s.targets
  same_refl : ∀ env : E, Analysis.same env env = true

/-- An analysis whose environments are facts about variables: two environments
with the same facts are the same, and a merge merges the facts of each variable. -/
class FactBased (E : Type) (α : outParam Type) [DecidableEq α] [Analysis E] where
  facts : E → NameMap (Fact α)
  same_iff : ∀ a b : E, Analysis.same a b = true ↔ facts a = facts b
  facts_merge : ∀ a b : E, facts (Analysis.merge a b) = (facts a).combine Fact.meet (facts b)

namespace Analysis

variable {E : Type} [Analysis E]

theorem walk_cons_eq_ok {env out : E} {s : Stmt} {ss ss' : List Stmt} :
    walk env (s :: ss) = .ok (ss', out) ↔
      ∃ s' mid rest, step env s = .ok (s', mid) ∧ walk mid ss = .ok (rest, out) ∧
        ss' = s' :: rest := by
  rw [walk]
  cases hs : step env s with
  | error cause => simp [bind, Except.bind]
  | ok r =>
      obtain ⟨s', mid⟩ := r
      cases hw : walk mid ss with
      | error cause => simp [bind, Except.bind, hw]
      | ok q =>
          obtain ⟨rest, last⟩ := q
          simp only [bind, Except.bind, hw, pure, Except.pure, Except.ok.injEq, Prod.mk.injEq]
          constructor
          · rintro ⟨rfl, rfl⟩
            exact ⟨s', mid, rest, ⟨rfl, rfl⟩, hw, rfl⟩
          · rintro ⟨_, _, _, ⟨rfl, rfl⟩, hw', rfl⟩
            obtain ⟨rfl, rfl⟩ := Prod.mk.inj (Except.ok.inj (hw.symm.trans hw'))
            exact ⟨rfl, rfl⟩

theorem through_eq_ok {env out : E} {b : Block} :
    through env b = .ok out ↔ ∃ stmts, walk env b.stmts = .ok (stmts, out) := by
  unfold through
  cases h : walk env b.stmts with
  | error cause => simp [Functor.map, Except.map]
  | ok r => simp [Functor.map, Except.map, Prod.ext_iff]

variable [Faultless E]

theorem exists_walk (env : E) (ss : List Stmt) : ∃ ss' out, walk env ss = .ok (ss', out) := by
  induction ss generalizing env with
  | nil => exact ⟨[], env, rfl⟩
  | cons s ss ih =>
      obtain ⟨s', mid, hs⟩ := Faultless.exists_step env s
      obtain ⟨rest, out, hw⟩ := ih mid
      exact ⟨s' :: rest, out, walk_cons_eq_ok.2 ⟨s', mid, rest, hs, hw, rfl⟩⟩

theorem walk_targets {env out : E} {ss ss' : List Stmt} (h : walk env ss = .ok (ss', out)) :
    ss'.map Stmt.targets = ss.map Stmt.targets := by
  induction ss generalizing env ss' with
  | nil =>
      obtain ⟨rfl, -⟩ := Prod.mk.inj (Except.ok.inj h)
      rfl
  | cons s ss ih =>
      obtain ⟨s', mid, rest, hstep, hrest, rfl⟩ := walk_cons_eq_ok.1 h
      rw [List.map_cons, List.map_cons, ih hrest, Faultless.targets_eq env mid s s' hstep]

theorem exists_through (env : E) (b : Block) : ∃ out, through env b = .ok out := by
  obtain ⟨ss', out, h⟩ := exists_walk env b.stmts
  exact ⟨out, through_eq_ok.2 ⟨ss', h⟩⟩

end Analysis

/-! ## Turns -/

structure Progress (E : Type) where
  queue : List Label
  sol : Solution E

namespace Progress

variable {E : Type} [Analysis E]

def start (g : Graph) : Progress E := ⟨g.entry?.toList, .empty⟩

/-- One turn of the solver, with the first block of the queue.  At a fault, and
when the queue is empty, nothing changes any more. -/
def turn (ctx : Context) (body : List Block) (g : Graph) (p : Progress E) : Progress E :=
  match p.queue with
  | [] => p
  | label :: queue =>
    let env := (p.sol.inflow? g label (Analysis.entry ctx)).getD (Analysis.unreached ctx)
    if (p.sol.before.get? label).any (Analysis.same · env) then ⟨queue, p.sol⟩
    else
      match body.find? fun b => b.label = label with
      | none => p
      | some block =>
        match Analysis.through env block with
        | .error _ => p
        | .ok after => ⟨queue ++ g.succsOf label, p.sol.record label env after⟩

def after (ctx : Context) (body : List Block) (g : Graph) (turns : Nat) : Progress E :=
  (turn ctx body g)^[turns] (start g)

variable {ctx : Context} {body : List Block} {g : Graph}

theorem after_succ (n : Nat) :
    (after ctx body g (n + 1) : Progress E) = turn ctx body g (after ctx body g n) :=
  Function.iterate_succ_apply' _ _ _

theorem turn_of_queue_eq_nil {p : Progress E} (h : p.queue = []) : turn ctx body g p = p := by
  unfold turn
  rw [h]

theorem iterate_turn_of_fixed {p : Progress E} (h : turn ctx body g p = p) (n : Nat) :
    (turn ctx body g)^[n] p = p :=
  Function.iterate_fixed h n

/-- At a fault the queue never gets empty. -/
theorem iterate_turn_ne_of_fixed {label : Label} {queue : List Label} {sol : Solution E}
    (h : turn ctx body g ⟨label :: queue, sol⟩ = ⟨label :: queue, sol⟩) (n : Nat)
    (answer : Solution E) : (turn ctx body g)^[n] ⟨label :: queue, sol⟩ ≠ ⟨[], answer⟩ := by
  rw [iterate_turn_of_fixed h]
  exact fun heq => nomatch congrArg Progress.queue heq

end Progress

open Progress in
/-- A run with fuel gives an answer exactly when so many turns empty the queue. -/
theorem Analysis.run_eq_ok_iff {E : Type} [Analysis E] {ctx : Context} {body : List Block}
    {g : Graph} (fuel : Nat) (queue : List Label) (sol answer : Solution E) :
    run ctx body g fuel queue sol = .ok answer ↔
      (turn ctx body g)^[fuel] ⟨queue, sol⟩ = ⟨[], answer⟩ := by
  induction fuel generalizing queue sol with
  | zero => cases queue <;> simp [run]
  | succ fuel ih =>
      rw [Function.iterate_succ_apply]
      cases queue with
      | nil =>
          rw [turn_of_queue_eq_nil rfl, iterate_turn_of_fixed (turn_of_queue_eq_nil rfl)]
          simp [run]
      | cons label queue =>
          -- `run` and `turn` decide alike; where `run` stops with a fault, `turn` stands still
          unfold run
          dsimp only
          split
          · rename_i hsame
            rw [ih]
            unfold turn
            dsimp only
            rw [if_pos hsame]
          · rename_i hnew
            split
            · rename_i hnone
              have hfix : turn ctx body g ⟨label :: queue, sol⟩ = ⟨label :: queue, sol⟩ := by
                unfold turn
                dsimp only
                rw [if_neg hnew, hnone]
              rw [hfix]
              exact iff_of_false (by simp) (iterate_turn_ne_of_fixed hfix fuel answer)
            · rename_i block hblock
              split
              · rename_i cause hfault
                have hfix : turn ctx body g ⟨label :: queue, sol⟩ = ⟨label :: queue, sol⟩ := by
                  unfold turn
                  dsimp only
                  rw [if_neg hnew, hblock]
                  dsimp only
                  rw [hfault]
                rw [hfix]
                exact iff_of_false (by simp) (iterate_turn_ne_of_fixed hfix fuel answer)
              · rename_i out hout
                rw [ih]
                unfold turn
                dsimp only
                rw [if_neg hnew, hblock]
                dsimp only
                rw [hout]

end Midend
