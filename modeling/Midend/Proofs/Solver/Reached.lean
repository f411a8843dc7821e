import Midend.Proofs.Solver.Answer
/-!
# The blocks that the solver reaches

In an answer exactly the blocks that jumps lead to from the first have environments
(`isSome_before_iff`), and what the solver merges before a block is what flows into it
(`mem_flows_iff`).

Neither which blocks these are nor what flows into them depends on the order of the blocks after
the first (`Reachable.of_perm`, `FlowsInto.of_perm`).
-/

namespace Midend

open Midend.Flow

inductive Flow.Reachable (body : List Block) : Label → Prop
  | first {b : Block} (hb : body.head? = some b) : Reachable body b.label
  | jump {b : Block} {target : Label} (hreach : Reachable body b.label) (hb : b ∈ body)
      (htarget : target ∈ b.successors) : Reachable body target

theorem Flow.Reachable.of_perm {body body' : List Block} (hhead : body'.head? = body.head?)
    (hperm : body'.Perm body) {label : Label} (h : Reachable body label) :
    Reachable body' label := by
  induction h with
  | first hb => exact .first (hhead.trans hb)
  | jump _ hb htarget ih => exact .jump ih (hperm.mem_iff.2 hb) htarget

variable {E : Type} [Analysis E] {ctx : Context} {body body' : List Block} {g : Graph}

/-- What flows into a block when these environments hold before the blocks: the entry environment
into the first, and what a block makes of its environment into its successors. -/
inductive Analysis.FlowsInto (ctx : Context) (body : List Block) (before : Label → Option E) :
    Label → E → Prop
  | entry {b : Block} (hb : body.head? = some b) :
      FlowsInto ctx body before b.label (Analysis.entry ctx)
  | jump {b : Block} {target : Label} {env out : E} (hb : b ∈ body)
      (henv : before b.label = some env) (htarget : target ∈ b.successors)
      (hout : Analysis.through env b = .ok out) : FlowsInto ctx body before target out

open Analysis (FlowsInto)

theorem Analysis.FlowsInto.of_perm (hhead : body'.head? = body.head?) (hperm : body'.Perm body)
    {before : Label → Option E} {label : Label} {env : E}
    (h : FlowsInto ctx body before label env) : FlowsInto ctx body' before label env := by
  cases h with
  | entry hb => exact .entry (hhead.trans hb)
  | jump hb henv htarget hout => exact .jump (hperm.mem_iff.2 hb) henv htarget hout

theorem Flow.WellLabelled.of_perm (h : WellLabelled body) (hperm : body'.Perm body) :
    WellLabelled body' where
  distinct := (hperm.map _).nodup_iff.2 h.distinct
  resolved b hb target htarget :=
    (hperm.map _).mem_iff.2 (h.resolved b (hperm.mem_iff.1 hb) target htarget)

namespace Progress

theorem Consistent.mem_flows_iff (hg : g.Describes body) {p : Progress E}
    (hp : Consistent ctx body g p) {label : Label} {env : E} :
    env ∈ p.sol.flows g label (Analysis.entry ctx) ↔
      FlowsInto ctx body p.sol.before.get? label env := by
  rw [Solution.mem_flows]
  constructor
  · rintro (⟨hentry, rfl⟩ | ⟨source, hsource, hafter⟩)
    · obtain ⟨b, hb, rfl⟩ := hg.entry?_eq_some_iff.1 hentry
      exact .entry hb
    · obtain ⟨b, hb, rfl, htarget⟩ := (hg.mem_preds _ _).1 hsource
      obtain ⟨before, hbefore, hout⟩ := hp.exists_through hg hb hafter
      exact .jump hb hbefore htarget hout
  · intro h
    cases h with
    | @entry b hb => exact .inl ⟨hg.entry?_eq_some_iff.2 ⟨b, hb, rfl⟩, rfl⟩
    | @jump b target before out hb hbefore htarget hout =>
        obtain ⟨out', hafter, hout'⟩ := hp.after_eq hg hb hbefore
        have heq : out' = env := Except.ok.inj (hout'.symm.trans hout)
        exact .inr ⟨b.label, (hg.mem_preds _ _).2 ⟨b, hb, rfl, htarget⟩, heq ▸ hafter⟩

theorem keptAt_reachable (ctx : Context) (body : List Block) :
    KeptAt ctx body fun label (_ : E) => Reachable body label where
  entry _ hb := .first hb
  merge _ _ _ ha _ := ha
  through _ hb _ htarget _ _ hreach _ := .jump hreach hb htarget

end Progress

namespace Analysis

open Progress

variable {fuel : Nat} {scope : String} {sol : Solution E} {label : Label}

def Answers (scope : String) (ctx : Context) (body : List Block) (answer : Graph × Solution E) :
    Prop :=
  ∃ fuel, ∀ fuel', fuel ≤ fuel' → solve E fuel' scope ctx body = .ok answer

variable [Faultless E]

/-- What is kept from block to block holds before every block of an answer. -/
theorem solved_of_keptAt {P : Label → E → Prop} (hkept : KeptAt ctx body P)
    (h : solve E fuel scope ctx body = .ok (g, sol)) {env : E}
    (henv : sol.before.get? label = some env) : P label env := by
  obtain ⟨hg, hafter⟩ := solve_eq_ok_iff.1 h
  have hall := hkept.after (Graph.describes_of_ofBody hg) fuel
  rw [hafter] at hall
  exact hall label env henv

/-- A block of an answer has the merge of what flows into it, and one that nothing flows into has
no environment. -/
theorem before_of_solve (h : solve E fuel scope ctx body = .ok (g, sol)) (label : Label) :
    (sol.before.get? label = none ∧ ∀ env, ¬ FlowsInto ctx body sol.before.get? label env) ∨
      ∃ old env, sol.before.get? label = some old ∧ same old env = true ∧
        Solution.mergeAll (sol.flows g label (entry ctx)) = some env := by
  obtain ⟨hg, hp⟩ := solved h
  have hstable := hp.settled label List.not_mem_nil
  rw [Solution.isStable_iff, Solution.inflow?_eq] at hstable
  rcases hstable with ⟨hnone, hinflow⟩ | ⟨old, env, hold, hinflow, hsame⟩
  · refine .inl ⟨hnone, fun env henv => ?_⟩
    have hflow : env ∈ sol.flows g label (entry ctx) := (hp.mem_flows_iff hg).2 henv
    have hsome := Solution.isSome_mergeAll.2 (List.ne_nil_of_mem hflow)
    rw [hinflow] at hsome
    exact nomatch hsome
  · exact .inr ⟨old, env, hold, hsame, hinflow⟩

theorem isSome_before_of_flowsInto (h : solve E fuel scope ctx body = .ok (g, sol)) {env : E}
    (hflow : FlowsInto ctx body sol.before.get? label env) :
    (sol.before.get? label).isSome := by
  rcases before_of_solve h label with ⟨-, hnone⟩ | ⟨old, -, hold, -⟩
  · exact absurd hflow (hnone env)
  · rw [hold]
    rfl

theorem isSome_before_iff (h : solve E fuel scope ctx body = .ok (g, sol)) :
    (sol.before.get? label).isSome ↔ Reachable body label := by
  constructor
  · intro hsome
    obtain ⟨env, henv⟩ := Option.isSome_iff_exists.1 hsome
    exact solved_of_keptAt (keptAt_reachable ctx body) h henv
  · intro hreach
    induction hreach with
    | first hb => exact isSome_before_of_flowsInto h (.entry hb)
    | @jump b target _ hb htarget ih =>
        obtain ⟨env, henv⟩ := Option.isSome_iff_exists.1 ih
        obtain ⟨out, hout⟩ := exists_through env b
        exact isSome_before_of_flowsInto h (.jump hb henv htarget hout)

theorem after_eq_some_iff (h : solve E fuel scope ctx body = .ok (g, sol)) {out : E} :
    sol.after.get? label = some out ↔
      ∃ b ∈ body, b.label = label ∧
        ∃ env, sol.before.get? label = some env ∧ through env b = .ok out := by
  obtain ⟨hg, hp⟩ := solved h
  constructor
  · intro hout
    obtain ⟨env, henv⟩ := Option.isSome_iff_exists.1 (hp.recorded label out hout)
    obtain ⟨b, hb, rfl, -⟩ := hp.walked label env henv
    exact ⟨b, hb, rfl, hp.exists_through hg hb hout⟩
  · rintro ⟨b, hb, rfl, env, henv, hout⟩
    obtain ⟨out', hafter, hout'⟩ := hp.after_eq hg hb henv
    have heq : out' = out := Except.ok.inj (hout'.symm.trans hout)
    exact heq ▸ hafter

end Analysis

end Midend
