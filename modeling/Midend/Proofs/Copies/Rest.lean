import Midend.Proofs.Copies.Environment
import Midend.Proofs.Solver.Ascent
/-!
# When the analysis of copies comes to rest

An environment of copies mentions no variables but those that are declared or
copied (`Confined`), so the solver comes to rest over a body exactly when from some
turn on its environments only rise (`exists_solve_eq_ok_iff`).

That they rise is no law.  Which origin is recorded for a copy depends on what is
known about its source; knowing less there can end up as knowing more later, and
around a loop the two may take turns for ever (`solve_flipFlop`).
-/

namespace Midend.Copies

open Midend.Flow Analysis

instance : Faultless Copies where
  exists_step _ _ := ⟨_, _, rfl⟩
  targets_eq env out s s' h := by
    obtain ⟨rfl, -⟩ := Prod.mk.inj (Except.ok.inj h)
    cases s <;> rfl
  same_refl _ := decide_eq_true rfl

instance : FactBased Copies String where
  facts := facts
  same_iff _ _ := decide_eq_true_iff
  facts_merge _ _ := rfl

/-! ## The variables of an environment -/

def copyNames : Stmt → List String
  | .assign name (.value (.id source)) => [name, source]
  | .assign name _ => [name]
  | _ => []

/-- The variables that an analysis of copies over the body can come to mention. -/
def namesOf (ctx : Context) (body : List Block) : List String :=
  ctx.names ++ body.flatMap fun b => b.stmts.flatMap copyNames

/-- Every variable in the environment, on either side of a copy, is one of these. -/
structure Confined (names : List String) (env : Copies) : Prop where
  indexed : Indexed env
  mentioned : env.facts.Within names
  origin_mem : ∀ name origin, env.facts.get? name = some (.known origin) → origin ∈ names
  index_mem : ∀ origin, (env.index.get? origin).isSome → origin ∈ names

variable {names : List String} {env : Copies}

theorem Confined.root_mem (h : Confined names env) {source : String} (hs : source ∈ names) :
    env.root source ∈ names := by
  unfold root
  cases horigin : env.origin? source with
  | none => exact hs
  | some origin => exact h.origin_mem source origin (origin?_eq_some_iff.1 horigin)

theorem Confined.overwrite (h : Confined names env) {name : String} (hname : name ∈ names) :
    Confined names (env.overwrite name) where
  indexed := h.indexed.overwrite name
  mentioned other hother := by
    rw [get?_facts_overwrite] at hother
    split at hother
    · rename_i hcase
      rcases hcase with rfl | hcopy
      · exact hname
      · exact h.mentioned other (by rw [(h.indexed name other).1 hcopy]; rfl)
    · exact h.mentioned other hother
  origin_mem other origin hknown := by
    rw [get?_facts_overwrite] at hknown
    split at hknown
    · exact nomatch hknown
    · exact h.origin_mem other origin hknown
  index_mem origin horigin :=
    h.index_mem origin ((isSome_index_overwrite env name origin).1 horigin).2

theorem Confined.copyFrom (h : Confined names env) {name source : String}
    (hname : name ∈ names) (hsource : source ∈ names) :
    Confined names (env.copyFrom name source) := by
  have hover := h.overwrite hname
  have hroot := h.root_mem hsource
  refine ⟨h.indexed.copyFrom name source, ?_, ?_, ?_⟩ <;> rw [copyFrom_eq] <;> split
  · exact h.mentioned
  · intro other hother
    dsimp only at hother
    rw [NameMap.get?_insert] at hother
    split at hother
    · rename_i heq
      exact heq ▸ hname
    · exact hover.mentioned other hother
  · exact h.origin_mem
  · intro other origin hknown
    dsimp only at hknown
    rw [NameMap.get?_insert] at hknown
    split at hknown
    · exact Fact.known.inj (Option.some.inj hknown) ▸ hroot
    · exact hover.origin_mem other origin hknown
  · exact h.index_mem
  · intro origin horigin
    dsimp only at horigin
    rw [get?_addCopy] at horigin
    split at horigin
    · rename_i heq
      exact heq ▸ hroot
    · exact hover.index_mem origin horigin

theorem Confined.afterCall (h : Confined names env) : Confined names env.afterCall := by
  have hexposed : ∀ n ∈ env.exposed.keys, n ∈ names := by
    intro n hn
    rw [exposed, NameSet.mem_keys_ofList, List.mem_filter, List.mem_append, NameMap.mem_keys,
      NameMap.mem_keys] at hn
    rcases hn with ⟨hfact | hindex, -⟩
    · exact h.mentioned n hfact
    · exact h.index_mem n hindex
  have hfold : ∀ (ns : List String) (env : Copies), Confined names env → (∀ n ∈ ns, n ∈ names) →
      Confined names (ns.foldl Copies.overwrite env) := by
    intro ns
    induction ns with
    | nil => exact fun env henv _ => henv
    | cons n ns ih =>
        intro env henv hns
        exact ih _ (henv.overwrite (hns n List.mem_cons_self))
          fun x hx => hns x (List.mem_cons_of_mem _ hx)
  exact hfold _ env h hexposed

theorem Confined.after (h : Confined names env) {s : Stmt} (hs : ∀ n ∈ copyNames s, n ∈ names) :
    Confined names (env.after s) := by
  unfold Copies.after
  split
  · split
    · exact h
    · exact h.copyFrom (hs _ (by simp [copyNames])) (hs _ (by simp [copyNames]))
  · rename_i name e hcopy
    have hname : name ∈ names := by
      refine hs name ?_
      unfold copyNames
      split <;> simp_all
    split
    · exact (h.overwrite hname).afterCall
    · exact h.overwrite hname
  · split
    · exact h.afterCall
    · exact h
  · exact h

theorem mem_copyNames_map (h : Confined names env) {s : Stmt}
    (hs : ∀ n ∈ copyNames s, n ∈ names) : ∀ n ∈ copyNames (s.map env.resolve), n ∈ names := by
  intro n hn
  cases s with
  | assign name e =>
      cases e with
      | value v =>
          cases v with
          | id source =>
              have hn' : n = name ∨ n = env.root source := by
                simpa [Stmt.map, Expr.map, resolve, copyNames, root] using hn
              rcases hn' with rfl | rfl
              · exact hs _ (by simp [copyNames])
              · exact h.root_mem (hs _ (by simp [copyNames]))
          | _ => exact hs n hn
      | _ => exact hs n hn
  | _ => exact absurd hn List.not_mem_nil

theorem confined_ofFacts {facts : NameMap (Fact String)} (locals : NameSet)
    (hfacts : facts.Within names)
    (horigin : ∀ name origin, facts.get? name = some (.known origin) → origin ∈ names) :
    Confined names (ofFacts facts locals) where
  indexed := indexed_ofFacts facts locals
  mentioned := hfacts
  origin_mem := horigin
  index_mem origin hindex := by
    have hfold : ∀ (es : List (String × Fact String)) (index : NameMap NameSet),
        ((es.foldl addEntry index).get? origin).isSome →
          (index.get? origin).isSome ∨ ∃ name, (name, Fact.known origin) ∈ es := by
      intro es
      induction es with
      | nil => exact fun index h => .inl h
      | cons e es ih =>
          intro index h
          rcases ih _ h with h | ⟨name, h⟩
          · obtain ⟨n, fact⟩ := e
            cases fact with
            | known o =>
                simp only [addEntry, get?_addCopy] at h
                split at h
                · rename_i heq
                  exact .inr ⟨n, heq ▸ List.mem_cons_self⟩
                · exact .inl h
            | undef => exact .inl h
            | nac => exact .inl h
          · exact .inr ⟨name, List.mem_cons_of_mem _ h⟩
    rcases hfold facts.entries ∅ hindex with hnone | ⟨name, hmem⟩
    · exact absurd hnone Bool.false_ne_true
    · exact horigin name origin (NameMap.get?_eq_some_iff.2 hmem)

theorem confined_merge {a b : Copies} (ha : Confined names a) (hb : Confined names b) :
    Confined names (a.merge b) := by
  refine confined_ofFacts _ (NameMap.Within.combine ha.mentioned hb.mentioned)
    fun name origin hknown => ?_
  rw [NameMap.get?_combine_meet] at hknown
  exact (Fact.eq_known_of_joined hknown).elim (ha.origin_mem name origin)
    (hb.origin_mem name origin)

theorem confined_entry (ctx : Context) (body : List Block) :
    Confined (namesOf ctx body) (entry ctx) := by
  refine confined_ofFacts _ (fun name hname => ?_) fun name origin hknown => ?_
  · rw [NameMap.get?_ofNames] at hname
    split at hname
    · rename_i hmem
      exact List.mem_append_left _ hmem
    · exact nomatch hname
  · rw [NameMap.get?_ofNames] at hknown
    split at hknown <;> exact nomatch hknown

theorem kept_confined (ctx : Context) (body : List Block) :
    Progress.Kept ctx body (Confined (namesOf ctx body)) := by
  refine .of_step (confined_entry ctx body) (fun _ _ => confined_merge) ?_
  intro b hb s hs env s' out henv hstep
  obtain ⟨-, rfl⟩ := Prod.mk.inj (Except.ok.inj hstep)
  refine henv.after (mem_copyNames_map henv fun n hn => ?_)
  exact List.mem_append_right _
    (List.mem_flatMap.2 ⟨b, hb, List.mem_flatMap.2 ⟨s, hs, hn⟩⟩)

theorem exists_solve_copies_iff {scope : String} {ctx : Context} {body : List Block} :
    (∃ fuel answer, solve Copies fuel scope ctx body = .ok answer) ↔
      Settles Copies scope ctx body :=
  exists_solve_eq_ok_iff (kept_confined ctx body) fun _ h => h.mentioned

/-! ## A loop in which they do not rise -/

/-- The body `t = s; while True: z = t; s = 0; s = z; t = 0; t = s; z = 0`.  If `t`
is known to be a copy of `s` when the loop begins, then `z` becomes one, at the end
`s` and `t` are copies of `z`, and `z = 0` ends both.  If not, then `z` and `s`
become copies of `t`, `t = 0` ends both, and at the end `t` is a copy of `s`. -/
def flipFlop : List Block :=
  [⟨"entry", [.assign "t" (.value (.id "s")), .jump "loop"]⟩,
    ⟨"loop",
      [.assign "z" (.value (.id "t")), .assign "s" (.value (.num 0)),
        .assign "s" (.value (.id "z")), .assign "t" (.value (.num 0)),
        .assign "t" (.value (.id "s")), .assign "z" (.value (.num 0)), .jump "loop"]⟩]

def flipFlopContext : Context :=
  ⟨[], [⟨"s", .int⟩, ⟨"t", .int⟩, ⟨"z", .int⟩], NameSet.ofList ["s", "t", "z"]⟩

def flipFlopGraph : Graph :=
  ⟨["entry", "loop"], NameMap.ofList [("entry", []), ("loop", ["entry", "loop"])],
    NameMap.ofList [("entry", ["loop"]), ("loop", ["loop"])]⟩

/-- Before the loop, `t` is known to be a copy of `s`, or it is not. -/
def swung (copied : Bool) : Copies :=
  ofFacts
    (NameMap.ofList [("s", .nac), ("t", if copied then .known "s" else .nac), ("z", .nac)])
    flipFlopContext.locals

theorem ofBody_flipFlop (scope : String) : Graph.ofBody scope flipFlop = .ok flipFlopGraph := rfl

theorem through_loop (copied : Bool) :
    through (swung copied) flipFlop[1] = .ok (swung !copied) := by
  cases copied <;> rfl

theorem merge_swung (copied : Bool) : merge (swung true) (swung copied) = swung copied := by
  cases copied <;> rfl

theorem swung_not_same (copied : Bool) :
    ¬ Analysis.same (swung copied) (swung !copied) = true := by
  cases copied <;> decide

/-- Only the loop is waiting, and the environment after it is not the one before it. -/
structure Swinging (p : Progress Copies) (copied : Bool) : Prop where
  queue_eq : p.queue = ["loop"]
  after_entry : p.sol.after.get? "entry" = some (swung true)
  before_loop : p.sol.before.get? "loop" = some (swung copied)
  after_loop : p.sol.after.get? "loop" = some (swung !copied)

theorem Swinging.turn {p : Progress Copies} {copied : Bool} (hp : Swinging p copied) :
    Swinging (p.turn flipFlopContext flipFlop flipFlopGraph) !copied := by
  have hinflow : p.sol.inflow? flipFlopGraph "loop" (Analysis.entry flipFlopContext) =
      some (swung !copied) := by
    rw [Solution.inflow?_eq]
    unfold Solution.flows
    rw [show flipFlopGraph.predsOf "loop" = ["entry", "loop"] from rfl,
      if_neg (show flipFlopGraph.entry? ≠ some "loop" by decide)]
    simp only [List.nil_append, List.filterMap_cons, List.filterMap_nil, hp.after_entry,
      hp.after_loop]
    exact congrArg some (merge_swung _)
  unfold Progress.turn
  rw [hp.queue_eq]
  dsimp only
  rw [hinflow, hp.before_loop, Option.getD_some, Option.any_some, if_neg (swung_not_same copied),
    show flipFlop.find? (fun b => b.label = "loop") = some flipFlop[1] from rfl]
  dsimp only
  rw [through_loop, Bool.not_not]
  refine ⟨rfl, ?_, ?_, ?_⟩
  · rw [Solution.get?_after_record, if_neg (by decide)]
    exact hp.after_entry
  · rw [Solution.get?_before_record, if_pos rfl]
  · rw [Solution.get?_after_record, if_pos rfl, Bool.not_not]

theorem swinging_after (n : Nat) :
    ∃ copied, Swinging (Progress.after flipFlopContext flipFlop flipFlopGraph (n + 2)) copied := by
  induction n with
  -- by then the entry and the loop have been walked once
  | zero => exact ⟨true, rfl, rfl, rfl, rfl⟩
  | succ n ih =>
      obtain ⟨copied, hcopied⟩ := ih
      rw [Progress.after_succ]
      exact ⟨_, hcopied.turn⟩

theorem solve_flipFlop (fuel : Nat) (scope : String) :
    solve Copies fuel scope flipFlopContext flipFlop = .error .outOfFuel := by
  refine solve_eq_outOfFuel (ofBody_flipFlop scope) (fun n hqueue => ?_) fuel
  obtain ⟨copied, hcopied⟩ := swinging_after n
  have hrest := Progress.after_of_rest (m := n + 2)
    (show Progress.after flipFlopContext flipFlop flipFlopGraph n = ⟨[], _⟩ from
      congrArg (Progress.mk · _) hqueue) (by omega)
  rw [hrest] at hcopied
  exact nomatch hcopied.queue_eq

end Midend.Copies
