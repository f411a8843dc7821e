import Midend.Proofs.Constants.Order
import Midend.Proofs.Solver.Ascent
/-!
# The analysis of constants comes to rest

On every body whose labels are right (`exists_solve_constants`): knowing less before
a statement is never knowing more after it (`rises_after`), where every environment
knows something about each variable that it mentions (`Definite`).
-/

namespace Midend.Constants

open Midend.Flow Analysis

def writtenNames : Stmt → List String
  | .assign name _ => [name]
  | _ => []

/-- The variables that an analysis of constants over the body can come to mention. -/
def namesOf (ctx : Context) (body : List Block) : List String :=
  ctx.names ++ body.flatMap fun b => b.stmts.flatMap writtenNames

structure Definite (ctx : Context) (names : List String) (env : Constants) : Prop where
  locals_eq : env.locals = ctx.locals
  mentioned : env.facts.Within names
  definite : ∀ name, env.facts.get? name ≠ some .undef

variable {ctx : Context} {names : List String} {env env' : Constants}

theorem mem_namesOf {body : List Block} {b : Block} (hb : b ∈ body) {s : Stmt} (hs : s ∈ b.stmts)
    {name : String} (hname : name ∈ writtenNames s) : name ∈ namesOf ctx body :=
  List.mem_append_right _ (List.mem_flatMap.2 ⟨b, hb, List.mem_flatMap.2 ⟨s, hs, hname⟩⟩)

theorem Definite.decided (h : Definite ctx names env) : env.Decided :=
  decided_iff.2 h.definite

/-! ## What every environment is like -/

theorem Definite.record (h : Definite ctx names env) {s : Stmt}
    (hs : ∀ n ∈ writtenNames s, n ∈ names) : Definite ctx names (env.record s) := by
  cases s with
  | assign name e =>
      refine ⟨h.locals_eq, fun other hother => ?_, fun other hother => ?_⟩ <;>
        rw [get?_facts_record] at hother <;> dsimp only at hother <;> split at hother
      · rename_i heq
        exact heq ▸ hs name List.mem_cons_self
      · exact h.mentioned other hother
      · exact factOf_ne_undef e (Option.some.inj hother)
      · exact h.definite other hother
  | _ => exact h

theorem Definite.after (h : Definite ctx names env) {s : Stmt}
    (hs : ∀ n ∈ writtenNames s, n ∈ names) : Definite ctx names (env.after s) := by
  have hrecord := h.record hs
  refine ⟨(locals_after env s).trans h.locals_eq, fun other hother => ?_, fun other hother => ?_⟩
  · rw [get?_facts_after, Option.isSome_map] at hother
    exact hrecord.mentioned other hother
  · rw [get?_facts_after, Option.map_eq_some_iff] at hother
    obtain ⟨fact, hfact, heq⟩ := hother
    split at heq
    · exact nomatch heq
    · exact hrecord.definite other (heq ▸ hfact)

theorem writtenNames_step (f : Value → Value) (s : Stmt) :
    writtenNames (foldStmt (s.map f)) = writtenNames s := by
  cases s <;> rfl

theorem definite_entry (ctx : Context) (body : List Block) :
    Definite ctx (namesOf ctx body) (entry ctx) := by
  refine ⟨rfl, fun name hname => ?_, fun name hundef => ?_⟩
  · obtain ⟨fact, hfact⟩ := Option.isSome_iff_exists.1 hname
    refine List.mem_append_left _ ?_
    rcases exists_of_get?_entry hfact with ⟨d, hd, rfl, -⟩ | ⟨p, hp, rfl, -⟩
    · exact List.mem_append_left _ (List.mem_map_of_mem hd)
    · exact List.mem_append_right _ (List.mem_map_of_mem hp)
  · rcases exists_of_get?_entry hundef with ⟨d, -, -, hknown⟩ | ⟨p, -, -, hnac⟩
    · exact nomatch hknown
    · exact nomatch hnac

theorem Definite.merge {a b : Constants} (ha : Definite ctx names a)
    (hb : Definite ctx names b) : Definite ctx names (a.merge b) where
  locals_eq := ha.locals_eq
  mentioned := NameMap.Within.combine ha.mentioned hb.mentioned
  definite name hname := by
    have hget : (a.merge b).facts.get? name = _ := NameMap.get?_combine_meet _ _ name
    rw [hget] at hname
    exact ha.definite name (Fact.eq_undef_of_joined hname)

theorem kept_definite (ctx : Context) (body : List Block) :
    Progress.Kept ctx body (Definite ctx (namesOf ctx body)) := by
  refine .of_step (definite_entry ctx body) (fun _ _ => Definite.merge) ?_
  intro b hb s hs env s' out henv hstep
  obtain ⟨-, rfl⟩ := Prod.mk.inj (Except.ok.inj ((step_eq env s).symm.trans hstep))
  refine henv.after fun n hn => ?_
  rw [writtenNames_step] at hn
  exact mem_namesOf hb hs hn

/-! ## Knowing less before is knowing less after -/

theorem rises_after (henv : Definite ctx names env) (henv' : Definite ctx names env')
    (hrises : env.facts.Rises env'.facts) (s : Stmt) :
    (env.after (foldStmt (s.map env.resolve))).facts.Rises
      (env'.after (foldStmt (s.map env'.resolve))).facts := by
  intro name
  have hrecord : Fact.Rises ((env.record (foldStmt (s.map env.resolve))).facts.get? name)
      ((env'.record (foldStmt (s.map env'.resolve))).facts.get? name) := by
    rw [get?_facts_record, get?_facts_record]
    cases s with
    | assign target e =>
        dsimp only [Stmt.map, foldStmt]
        split
        · exact factOf_le henv.decided (fact_le_of_rises hrises) e
        · exact hrises name
    | _ => exact hrises name
  rw [get?_facts_after, get?_facts_after, hasCall_foldStmt_map, hasCall_foldStmt_map,
    henv.locals_eq, henv'.locals_eq]
  split
  · revert hrecord
    rcases (env.record _).facts.get? name with _ | _ <;>
      rcases (env'.record _).facts.get? name with _ | _ <;> simp [Fact.Rises]
  · simpa using hrecord

theorem rises_walk {ss ss₁ ss₂ : List Stmt} {out out' : Constants} (henv : Definite ctx names env)
    (henv' : Definite ctx names env') (hrises : env.facts.Rises env'.facts)
    (hss : ∀ s ∈ ss, ∀ n ∈ writtenNames s, n ∈ names) (hwalk : walk env ss = .ok (ss₁, out))
    (hwalk' : walk env' ss = .ok (ss₂, out')) : out.facts.Rises out'.facts := by
  induction ss generalizing env env' ss₁ ss₂ with
  | nil =>
      obtain ⟨-, rfl⟩ := Prod.mk.inj (Except.ok.inj hwalk)
      obtain ⟨-, rfl⟩ := Prod.mk.inj (Except.ok.inj hwalk')
      exact hrises
  | cons s ss ih =>
      obtain ⟨s₁, mid, rest, hstep, hrest, -⟩ := walk_cons_eq_ok.1 hwalk
      obtain ⟨s₂, mid', rest', hstep', hrest', -⟩ := walk_cons_eq_ok.1 hwalk'
      obtain ⟨rfl, rfl⟩ := Prod.mk.inj (Except.ok.inj ((step_eq env s).symm.trans hstep))
      obtain ⟨rfl, rfl⟩ := Prod.mk.inj (Except.ok.inj ((step_eq env' s).symm.trans hstep'))
      have hwritten : ∀ f, ∀ n ∈ writtenNames (foldStmt (s.map f)), n ∈ names := by
        intro f n hn
        rw [writtenNames_step] at hn
        exact hss s List.mem_cons_self n hn
      exact ih (henv.after (hwritten _)) (henv'.after (hwritten _))
        (rises_after henv henv' hrises s) (fun x hx => hss x (List.mem_cons_of_mem _ hx))
        hrest hrest'

theorem monotone_definite (ctx : Context) (body : List Block) :
    Monotone body (Definite ctx (namesOf ctx body)) := by
  intro b hb env env' out out' henv henv' hrises hout hout'
  obtain ⟨stmts, hwalk⟩ := through_eq_ok.1 hout
  obtain ⟨stmts', hwalk'⟩ := through_eq_ok.1 hout'
  refine rises_walk henv henv' hrises (fun s hs n hn => ?_) hwalk hwalk'
  exact mem_namesOf hb hs hn

/-! ## The solver -/

theorem exists_solve_constants {scope : String} {body : List Block} (hbody : WellLabelled body) :
    ∃ fuel answer, solve Constants fuel scope ctx body = .ok answer :=
  (exists_solve_eq_ok_iff (kept_definite ctx body) fun _ h => h.mentioned).2
    (settles_of_monotone hbody (monotone_definite ctx body) (kept_definite ctx body))

end Midend.Constants
