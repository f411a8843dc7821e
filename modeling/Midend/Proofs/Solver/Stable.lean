import Midend.Proofs.Constants.Rest
import Midend.Proofs.Copies.Meaning
import Midend.Proofs.Solver.Reached
import Mathlib.Logic.Relation
/-!
# Answers at rest

When the solver has worked off its queue, nothing is left to do (`AtRest`): the blocks that it has
environments for are those that edges of the graph lead to from the first, after each of them stands
what the block makes of the environment before it, and before each of them what flows into it in the
end.  On the way there every block that it took from the queue had something flowing into it, so the
environment for blocks that no path has reached was never walked through a block.

The solver compares environments by their facts only.  The rest of an environment goes with them:
equal facts make equal environments of constants, and environments of copies that have the same
copies of every origin (`Copies.Alike`).
-/

namespace Midend

open Midend.Flow

/-! ## Paths in the graph -/

def Flow.Graph.Edge (g : Graph) (source target : Label) : Prop := target ∈ g.succsOf source

def Flow.Graph.Leads (g : Graph) (label : Label) : Prop :=
  ∃ first, g.entry? = some first ∧ Relation.ReflTransGen g.Edge first label

theorem Flow.Reachable.mem_labels {body : List Block} (hbody : WellLabelled body) {label : Label}
    (h : Reachable body label) : label ∈ body.map (·.label) := by
  cases h with
  | first hb => exact List.mem_map_of_mem (List.mem_of_head? hb)
  | jump _ hb htarget => exact hbody.resolved _ hb _ htarget

open Graph in
theorem Flow.Graph.Describes.reachable_iff {g : Graph} {body : List Block} (hg : g.Describes body)
    {label : Label} : Reachable body label ↔ g.Leads label := by
  constructor
  · intro h
    induction h with
    | @first b hb => exact ⟨b.label, hg.entry?_eq_some_iff.2 ⟨b, hb, rfl⟩, .refl⟩
    | @jump b target _ hb htarget ih =>
        obtain ⟨first, hfirst, hpath⟩ := ih
        have hedge : g.Edge b.label target := by
          rw [Edge, hg.succs_eq b hb]
          exact htarget
        exact ⟨first, hfirst, hpath.tail hedge⟩
  · rintro ⟨first, hfirst, hpath⟩
    induction hpath with
    | refl =>
        obtain ⟨b, hb, rfl⟩ := hg.entry?_eq_some_iff.1 hfirst
        exact .first hb
    | @tail source target _ hedge ih =>
        obtain ⟨b, hb, rfl⟩ := List.mem_map.1 (ih.mem_labels hg.wellLabelled)
        have htarget : target ∈ b.successors := hg.succs_eq b hb ▸ hedge
        exact .jump ih hb htarget

namespace Analysis

open Progress

variable {E : Type} [Analysis E] {ctx : Context} {body : List Block} {g : Graph} {fuel : Nat}
variable {scope : String} {sol : Solution E}

/-- The solver has come to this answer in so many turns, and one more look at any block would change
nothing.  `Alike` is how far two environments have to agree. -/
structure AtRest (Alike : E → E → Prop) (ctx : Context) (body : List Block) (fuel : Nat)
    (g : Graph) (sol : Solution E) : Prop where
  before_iff : ∀ label, (sol.before.get? label).isSome ↔ g.Leads label
  after_iff : ∀ label, (sol.after.get? label).isSome ↔ g.Leads label
  after_eq : ∀ label env, sol.before.get? label = some env →
    ∃ b ∈ body, b.label = label ∧
      ∃ out, through env b = .ok out ∧ sol.after.get? label = some out
  before_eq : ∀ label env, sol.before.get? label = some env →
    ∃ inflow, sol.inflow? g label (entry ctx) = some inflow ∧
      same env inflow = true ∧ Alike env inflow
  /-- The turns of the solver end in the answer. -/
  ends : (Progress.after ctx body g fuel : Progress E) = ⟨[], sol⟩
  /-- In every turn something flows into the block that is next. -/
  inflow_of_queue : ∀ turns label queue,
    (Progress.after ctx body g turns : Progress E).queue = label :: queue →
      ((Progress.after ctx body g turns : Progress E).sol.inflow? g label (entry ctx)).isSome

variable [Faultless E]

/-- An answer is at rest.  What equal facts say about the rest of an environment may depend on a
property that all environments have. -/
theorem atRest_of_solve {P : E → Prop} {Alike : E → E → Prop} (hkept : Kept ctx body P)
    (halike : ∀ a b, P a → P b → same a b = true → Alike a b)
    (h : solve E fuel scope ctx body = .ok (g, sol)) : AtRest Alike ctx body fuel g sol := by
  obtain ⟨hg, hp⟩ := solved h
  have hall : AllHold P sol := solved_of_kept hkept h
  have hwalked : ∀ label env, sol.before.get? label = some env →
      ∃ b ∈ body, b.label = label ∧
        ∃ out, through env b = .ok out ∧ sol.after.get? label = some out := by
    intro label env henv
    obtain ⟨b, hb, hlabel, out, hafter, hout⟩ := hp.walked label env henv
    exact ⟨b, hb, hlabel, out, hout, hafter⟩
  have hreached : ∀ label, (sol.before.get? label).isSome ↔ g.Leads label :=
    fun label => (isSome_before_iff h).trans hg.reachable_iff
  refine ⟨hreached, fun label => ?_, hwalked, fun label env henv => ?_, (solve_eq_ok_iff.1 h).2,
    fun turns _ _ hqueue =>
      Option.isSome_iff_exists.2 ((consistent_after hg turns).exists_inflow_of_queue hqueue)⟩
  · rw [← hreached label]
    constructor
    · intro hsome
      obtain ⟨out, hout⟩ := Option.isSome_iff_exists.1 hsome
      exact hp.recorded label out hout
    · intro hsome
      obtain ⟨env, henv⟩ := Option.isSome_iff_exists.1 hsome
      obtain ⟨-, -, -, out, -, hout⟩ := hwalked label env henv
      exact Option.isSome_iff_exists.2 ⟨out, hout⟩
  · rcases before_of_solve h label with ⟨hnone, -⟩ | ⟨old, inflow, hold, hsame, hmerge⟩
    · exact nomatch hnone.symm.trans henv
    · obtain rfl : old = env := Option.some.inj (hold.symm.trans henv)
      have hinflow : sol.inflow? g label (entry ctx) = some inflow := by
        rw [Solution.inflow?_eq]
        exact hmerge
      have hold' := hall.before label old henv
      have hinflow' := hkept.inflow hall hinflow
      exact ⟨inflow, hinflow, hsame, halike old inflow hold' hinflow' hsame⟩

end Analysis

/-! ## Constants and copies -/

theorem Constants.eq_of_same {a b : Constants} (hlocals : a.locals = b.locals)
    (hsame : Analysis.same a b = true) : a = b := by
  have hfacts : a.facts = b.facts := (FactBased.same_iff a b).1 hsame
  obtain ⟨facts, locals⟩ := a
  obtain ⟨facts', locals'⟩ := b
  rw [Constants.mk.injEq]
  exact ⟨hfacts, hlocals⟩

/-- The same is known about every variable, and every origin has the same copies. -/
structure Copies.Alike (a b : Copies) : Prop where
  facts_eq : a.facts = b.facts
  locals_eq : a.locals = b.locals
  mem_copies_iff : ∀ origin name, name ∈ a.copies origin ↔ name ∈ b.copies origin

theorem Copies.Alike.of_same {a b : Copies} (ha : Indexed a) (hb : Indexed b)
    (hlocals : a.locals = b.locals) (hsame : Analysis.same a b = true) : Copies.Alike a b := by
  have hfacts : a.facts = b.facts := (FactBased.same_iff a b).1 hsame
  refine ⟨hfacts, hlocals, fun origin name => ?_⟩
  rw [ha origin name, hb origin name, hfacts]

namespace Analysis

/-- An answer of the solver is at rest, for constants and for copies. -/
theorem answers_at_rest (fuel : Nat) (scope : String) (ctx : Context) (body : List Block)
    (g : Graph) :
    (∀ sol : Solution Constants, solve Constants fuel scope ctx body = .ok (g, sol) →
        AtRest (· = ·) ctx body fuel g sol) ∧
      ∀ sol : Solution Copies, solve Copies fuel scope ctx body = .ok (g, sol) →
        AtRest Copies.Alike ctx body fuel g sol := by
  constructor
  · intro sol h
    refine atRest_of_solve (Constants.kept_definite ctx body) (fun a b ha hb hsame => ?_) h
    exact Constants.eq_of_same (ha.locals_eq.trans hb.locals_eq.symm) hsame
  · intro sol h
    have hkept := (Copies.sound Machine.ofLiterals ctx).kept body
    refine atRest_of_solve hkept (fun a b ha hb hsame => ?_) h
    exact .of_same ha.1 hb.1 (ha.2.trans hb.2.symm) hsame

/-- A loop back into the first block, beside a block that no jump leads to. -/
def swingingDoor : List Block :=
  [⟨"entry", [.assign "b" (.value (.id "a")), .branch (.id "b") "entry" "inside"]⟩,
    ⟨"inside", [.assign "a" (.value (.num 1)), .jump "entry"]⟩,
    ⟨"outside", [.jump "inside"]⟩]

def swingingDoorContext : Context :=
  ⟨[⟨"a", .int, .num 1⟩, ⟨"b", .int, .num 0⟩], [], NameSet.ofList ["a", "b"]⟩

theorem answers_at_rest_swingingDoor :
    (∃ g, ∃ sol : Solution Constants,
        solve Constants 8 "door" swingingDoorContext swingingDoor = .ok (g, sol) ∧
          AtRest (· = ·) swingingDoorContext swingingDoor 8 g sol) ∧
      ∃ g, ∃ sol : Solution Copies,
        solve Copies 8 "door" swingingDoorContext swingingDoor = .ok (g, sol) ∧
          AtRest Copies.Alike swingingDoorContext swingingDoor 8 g sol := by
  have hconstants : ∃ g, ∃ sol : Solution Constants,
      solve Constants 8 "door" swingingDoorContext swingingDoor = .ok (g, sol) := ⟨_, _, rfl⟩
  have hcopies : ∃ g, ∃ sol : Solution Copies,
      solve Copies 8 "door" swingingDoorContext swingingDoor = .ok (g, sol) := ⟨_, _, rfl⟩
  obtain ⟨g, sol, h⟩ := hconstants
  obtain ⟨g', sol', h'⟩ := hcopies
  exact ⟨⟨g, sol, h, (answers_at_rest 8 "door" _ _ g).1 sol h⟩,
    ⟨g', sol', h', (answers_at_rest 8 "door" _ _ g').2 sol' h'⟩⟩

end Analysis

end Midend
