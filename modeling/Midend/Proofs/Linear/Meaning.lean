import Midend.Linear.Program
import Midend.Proofs.Flow.Graph
import Midend.Proofs.Linear.Loops
/-!
# Flattening keeps the meaning of structured programs

The blocks of a program do what structured execution of its statements does
(`flatten_keeps_meaning`).  A run is deterministic, so it is enough to follow the execution of
the source with any number of turns for its loops: a run that has ended made less steps than some
number of turns, and where the source is out of turns the run has made as many steps as that.
-/

namespace Midend.Linear

open Midend.Flow (Block Config Label Machine Store)
open Midend.Tree (Aborts Calls Exit Oracle builtinCalls execAll)
open NameSupply (IsTemporary)
open Build Code

variable {V : Type}

/-! ## How runs end -/

def final? : Exit V → Option (Exit V)
  | .unfinished => none
  | exit => some exit

theorem final?_of_ne {exit : Exit V} (hexit : exit ≠ .unfinished) : final? exit = some exit := by
  cases exit with
  | unfinished => exact absurd rfl hexit
  | _ => rfl

variable [DecidableEq V]

def ending? (m : Machine V) (c : Config V) : Option (Exit V) :=
  match c.place with
  | .inside _ _ => none
  | .returned v => some (.returned v)
  | .ended => some .next
  | .stopped =>
    some (.halted (if ∃ q ∈ c.history.head?, Aborts m q.1 then .dividedByZero else .failed))

section Definitions

variable (m : Machine V) (oracle : Oracle V)

/-- Structured execution ends in this way, with these calls and these values of the variables of
the source.  More turns change nothing then (`Tree.execAll_mono`). -/
def SourceEnds (sources : List Tree.Stmt) (σ : Store V) (exit : Exit V) (calls : Calls V)
    (values : Store V) : Prop :=
  ∃ turns st, execAll m oracle turns false sources ⟨σ, []⟩ = (exit, st) ∧ exit ≠ .unfinished ∧
    st.calls = calls ∧ ∀ x, ¬ IsTemporary x → st.store x = values x

def RunEnds (ctx : Context) (body : List Block) (σ : Store V) (exit : Exit V) (calls : Calls V)
    (values : Store V) : Prop :=
  ∃ n, ending? m ((m.withBuiltins oracle).after ctx body σ n) = some exit ∧
    builtinCalls ((m.withBuiltins oracle).after ctx body σ n).history = calls ∧
    ∀ x, ¬ IsTemporary x → ((m.withBuiltins oracle).after ctx body σ n).store x = values x

/-- The blocks do what the statements do: they end in the same way if at all, and call the same
builtins in the same order, be it for ever. -/
structure Realizes (ctx : Context) (sources : List Tree.Stmt) (body : List Block) : Prop where
  ends_iff : ∀ σ exit calls values,
    RunEnds m oracle ctx body σ exit calls values ↔
      SourceEnds m oracle sources σ exit calls values
  calls_iff : ∀ σ calls,
    (∃ n, calls <:+ builtinCalls ((m.withBuiltins oracle).after ctx body σ n).history) ↔
      ∃ turns, calls <:+ (execAll m oracle turns false sources ⟨σ, []⟩).2.calls

end Definitions

variable {m : Machine V} {oracle : Oracle V} {ctx : Context} {body : List Block} {σ : Store V}
  {exit : Exit V} {c : Config V} {n n' : Nat}

theorem halt_of_tells {history : Flow.History V} {why : Tree.Halt} (h : Tells m history why) :
    (if ∃ q ∈ history.head?, Aborts m q.1 then .dividedByZero else .failed) = why := by
  cases why with
  | dividedByZero => exact if_pos h
  | failed =>
      refine if_neg ?_
      rintro ⟨q, hq, haborts⟩
      exact h q (List.mem_of_mem_head? hq) haborts

theorem step_of_ending (h : ending? m c = some exit) :
    (m.withBuiltins oracle).step ctx body c = c := by
  obtain ⟨place, store, history⟩ := c
  cases place with
  | inside l i => exact nomatch h
  | _ => rfl

theorem after_of_ending (h : ending? m ((m.withBuiltins oracle).after ctx body σ n) = some exit)
    (hle : n ≤ n') : (m.withBuiltins oracle).after ctx body σ n' =
      (m.withBuiltins oracle).after ctx body σ n := by
  induction hle with
  | refl => rfl
  | step hle ih => rw [Machine.after_succ, ih, step_of_ending h]

theorem after_eq_of_endings {exit' : Exit V}
    (h : ending? m ((m.withBuiltins oracle).after ctx body σ n) = some exit)
    (h' : ending? m ((m.withBuiltins oracle).after ctx body σ n') = some exit') :
    (m.withBuiltins oracle).after ctx body σ n = (m.withBuiltins oracle).after ctx body σ n' := by
  rcases Nat.le_total n n' with hle | hle
  · exact (after_of_ending h hle).symm
  · exact after_of_ending h' hle

theorem builtinCalls_suffix (hle : n ≤ n') :
    builtinCalls ((m.withBuiltins oracle).after ctx body σ n).history <:+
      builtinCalls ((m.withBuiltins oracle).after ctx body σ n').history :=
  ((Machine.suffix_after body σ hle).map _).filter _

/-! ## Top-level code -/

variable {sources : List Tree.Stmt} {s s' : NameSupply} {label : Label} {code : Code}

/-- With any number of turns for its loops, structured execution is at some point where the run
is. -/
theorem StmtCode.meets (hcode : StmtCode m oracle ctx none (stmts none sources)
      (fun turns => execAll m oracle turns false sources) s code s')
    (hnodup : (label :: code.marks).Nodup) (σ : Store V) (turns : Nat) {exit : Exit V}
    {st : Tree.State V} (hexec : execAll m oracle turns false sources ⟨σ, []⟩ = (exit, st)) :
    ∃ n, stepsOf turns exit ≤ n ∧
      ending? m ((m.withBuiltins oracle).after ctx (code.blocks label) σ n) = final? exit ∧
      Agrees st.store ((m.withBuiltins oracle).after ctx (code.blocks label) σ n) ∧
      builtinCalls ((m.withBuiltins oracle).after ctx (code.blocks label) σ n).history =
        st.calls := by
  have hb : Before label code (code ++ []) (.inside label 0 : Flow.Place V) := by
    rw [List.append_nil]
    exact Before.start label code
  have hst : Matches m ⟨σ, []⟩ (Machine.start (code.blocks label) σ) :=
    ⟨fun _ _ => rfl, rfl, fun _ h => absurd h List.not_mem_nil⟩
  have hfollows := hcode.runs turns hnodup hb hst
  rw [hexec] at hfollows
  obtain ⟨c', ⟨n, hn, hafter⟩, hstore, hcalls, hlands⟩ := hfollows
  have hafter : (m.withBuiltins oracle).after ctx (code.blocks label) σ n = c' := hafter
  cases exit with
  | next =>
      obtain ⟨hb', -⟩ := hlands
      refine ⟨n + 1, Nat.zero_le _, ?_⟩
      rw [Machine.after_succ, hafter, hb'.ended _ ctx hnodup]
      exact ⟨rfl, hstore, hcalls⟩
  | breaks => exact nomatch hlands
  | continues => exact nomatch hlands
  | returned v =>
      refine ⟨n, Nat.zero_le _, ?_, hafter ▸ hstore, hafter ▸ hcalls⟩
      rw [hafter]
      unfold ending?
      rw [hlands.1]
      rfl
  | halted why =>
      refine ⟨n, Nat.zero_le _, ?_, hafter ▸ hstore, hafter ▸ hcalls⟩
      rw [hafter]
      unfold ending?
      rw [hlands.1]
      exact congrArg (fun why => some (Exit.halted why)) (halt_of_tells hlands.2)
  | unfinished =>
      obtain ⟨l, i, hplace⟩ := hlands
      refine ⟨n, hn, ?_, hafter ▸ hstore, hafter ▸ hcalls⟩
      rw [hafter]
      unfold ending?
      rw [hplace]
      rfl

/-- Where a run has ended, structured execution with as many turns and one more has ended in
the same way. -/
theorem StmtCode.realizes (hcode : StmtCode m oracle ctx none (stmts none sources)
      (fun turns => execAll m oracle turns false sources) s code s')
    (hnodup : (label :: code.marks).Nodup) :
    Realizes m oracle ctx sources (code.blocks label) where
  ends_iff σ exit calls values := by
    constructor
    · rintro ⟨n, hend, rfl, hvalues⟩
      obtain ⟨⟨exit', st⟩, hexec⟩ :
          ∃ result, execAll m oracle (n + 1) false sources ⟨σ, []⟩ = result := ⟨_, rfl⟩
      obtain ⟨n', hn', hend', hstore, hcalls⟩ := hcode.meets hnodup σ (n + 1) hexec
      by_cases hexit : exit' = .unfinished
      · -- the source is out of turns, so the run has not ended after as many steps
        rw [hexit] at hn' hend'
        have hlate : n + 1 ≤ n' := hn'
        rw [after_of_ending hend (Nat.le_of_succ_le hlate), hend] at hend'
        exact nomatch hend'
      · have hend' := hend'.trans (final?_of_ne hexit)
        have hsame := after_eq_of_endings hend' hend
        rw [hsame, hend] at hend'
        obtain rfl := Option.some.inj hend'
        rw [hsame] at hcalls hstore
        exact ⟨n + 1, st, hexec, hexit, hcalls.symm,
          fun x hx => (hstore x hx).symm.trans (hvalues x hx)⟩
    · rintro ⟨turns, st, hexec, hexit, rfl, hvalues⟩
      obtain ⟨n, -, hend, hstore, hcalls⟩ := hcode.meets hnodup σ turns hexec
      exact ⟨n, hend.trans (final?_of_ne hexit), hcalls,
        fun x hx => (hstore x hx).trans (hvalues x hx)⟩
  calls_iff σ calls := by
    constructor
    · rintro ⟨n, hcalls⟩
      refine ⟨n + 1, ?_⟩
      obtain ⟨⟨exit, st⟩, hexec⟩ :
          ∃ result, execAll m oracle (n + 1) false sources ⟨σ, []⟩ = result := ⟨_, rfl⟩
      obtain ⟨n', hn', hend, -, hsame⟩ := hcode.meets hnodup σ (n + 1) hexec
      rw [hexec, ← hsame]
      refine hcalls.trans ?_
      by_cases hexit : exit = .unfinished
      · rw [hexit] at hn'
        exact builtinCalls_suffix (Nat.le_of_succ_le hn')
      · have hend := hend.trans (final?_of_ne hexit)
        rcases Nat.le_total n n' with hle | hle
        · exact builtinCalls_suffix hle
        · exact after_of_ending hend hle ▸ List.suffix_rfl
    · rintro ⟨turns, hcalls⟩
      obtain ⟨n, -, -, -, hsame⟩ := hcode.meets hnodup σ turns rfl
      exact ⟨n, hsame ▸ hcalls⟩

/-! ## Programs -/

variable {catalog catalog' : Catalog} {decls : List Tree.Decl} {classes : List Tree.Class}
  {flow : Flow.Program}

theorem flatten_eq (catalog : Catalog) (p : Tree.Program) :
    flatten catalog p =
      ((runOn (program p) ⟨catalog, .empty, []⟩).1 >>= fun flow =>
        flow.checkLabels >>= fun _ => pure flow,
        (runOn (program p) ⟨catalog, .empty, []⟩).2.catalog) := rfl

theorem flatten_eq_ok_iff {p : Tree.Program} :
    flatten catalog p = (.ok flow, catalog') ↔
      flow.checkLabels = .ok () ∧
        ∃ st, runOn (program p) ⟨catalog, .empty, []⟩ = (.ok flow, st) ∧ st.catalog = catalog' := by
  rw [flatten_eq]
  cases hrun : runOn (program p) ⟨catalog, .empty, []⟩ with
  | mk ended st =>
      cases ended with
      | error fault => simp [bind, Except.bind]
      | ok flow' =>
          cases hlabels : flow'.checkLabels with
          | error fault =>
              simp only [bind, Except.bind, hlabels, Prod.mk.injEq, reduceCtorEq, false_and,
                false_iff, not_and, Except.ok.injEq]
              rintro hok ⟨_, ⟨rfl, -⟩, -⟩
              exact nomatch hlabels.symm.trans hok
          | ok _ =>
              simp only [bind, Except.bind, hlabels, pure, Except.pure, Prod.mk.injEq,
                Except.ok.injEq]
              constructor
              · rintro ⟨rfl, hcatalog⟩
                exact ⟨hlabels, st, ⟨rfl, rfl⟩, hcatalog⟩
              · rintro ⟨-, _, ⟨rfl, rfl⟩, hcatalog⟩
                exact ⟨rfl, hcatalog⟩

theorem flatten_eq_ok {p : Tree.Program} (h : flatten catalog p = (.ok flow, catalog')) :
    flow.checkLabels = .ok () ∧
      ∃ st, runOn (program p) ⟨catalog, .empty, []⟩ = (.ok flow, st) := by
  obtain ⟨hlabels, st, hrun, -⟩ := flatten_eq_ok_iff.1 h
  exact ⟨hlabels, st, hrun⟩

theorem body_of_program {st st' : State}
    (h : runOn (program ⟨[], decls, classes, sources⟩) st = (.ok flow, st')) :
    ∃ label code st₁ st₂, runOn (stmts none sources) st₁ = (.ok code, st₂) ∧
      flow.body = code.blocks label := by
  unfold program at h
  obtain ⟨label, st₁, -, h⟩ := runOn_bind_inv h
  obtain ⟨-, st₂, -, h⟩ := runOn_bind_inv h
  obtain ⟨-, st₃, -, h⟩ := runOn_bind_inv h
  obtain ⟨-, st₄, -, h⟩ := runOn_bind_inv h
  obtain ⟨closures, st₅, -, h⟩ := runOn_bind_inv h
  obtain ⟨methods, st₆, -, h⟩ := runOn_bind_inv h
  obtain ⟨code, st₇, hcode, h⟩ := runOn_bind_inv h
  obtain ⟨-, st₈, -, h⟩ := runOn_bind_inv h
  obtain ⟨last, st₉, -, h⟩ := runOn_bind_inv h
  refine ⟨label, code, st₆, st₇, hcode, ?_⟩
  rw [← Except.ok.inj (Prod.mk.inj h).1]

theorem wellLabelled_blocks (hname : NameSupply.empty.fresh "$startProg" = (label, s))
    (hcode : Labelled [] s s' code) : Flow.WellLabelled (code.blocks label) where
  distinct := by
    rw [labels_blocks]
    exact ((NameSupply.Draws.fresh hname (by decide +kernel)).append hcode.draws).nodup
  resolved b hb target htarget := by
    rw [labels_blocks]
    have hin := hcode.targets target (successors_subset label code b hb target htarget)
    exact List.mem_cons_of_mem _ (hin.resolve_right List.not_mem_nil)

theorem exists_flatten (catalog : Catalog) (decls : List Tree.Decl)
    (hname : NameSupply.empty.fresh "$startProg" = (label, s))
    (hmakes : Makes (stmts none sources) s code s') (hcode : Labelled [] s s' code) :
    ∃ flow catalog', flatten catalog ⟨[], decls, [], sources⟩ = (.ok flow, catalog') := by
  let flow : Flow.Program := ⟨code.temporaries ++ decls.map decl, [], code.blocks label⟩
  have hrun : ∃ st, runOn (program ⟨[], decls, [], sources⟩) ⟨catalog, .empty, []⟩ =
      (.ok flow, st) := by
    obtain ⟨rfl, rfl⟩ := Prod.mk.inj hname
    exact ⟨_, runOn_bind_ok (hmakes catalog [])⟩
  obtain ⟨st, hrun⟩ := hrun
  have hlabels : flow.checkLabels = .ok () := by
    refine (Flow.forM_checkLabels_eq_ok_iff _).2 ?_
    rintro entry (_ | ⟨_, hentry⟩)
    · exact wellLabelled_blocks hname hcode
    · exact absurd hentry List.not_mem_nil
  refine ⟨flow, st.catalog, ?_⟩
  rw [flatten_eq, hrun]
  refine Prod.ext ?_ rfl
  exact congrArg (· >>= fun _ => pure flow) hlabels

/-- Structured top-level code is flattened into blocks that do what its statements do. -/
theorem flatten_keeps_meaning (m : Machine V) (oracle : Oracle V) (ctx : Context)
    (catalog : Catalog) (decls : List Tree.Decl) (classes : List Tree.Class)
    (sources : List Tree.Stmt) (hsources : ∀ source ∈ sources, source.Structured) :
    (∃ flow catalog', flatten catalog ⟨[], decls, [], sources⟩ = (.ok flow, catalog')) ∧
      ∀ flow catalog', flatten catalog ⟨[], decls, classes, sources⟩ = (.ok flow, catalog') →
        Realizes m oracle ctx sources flow.body := by
  have hcode : ∀ s, ∃ code s', StmtCode m oracle ctx none (stmts none sources)
      (fun turns => execAll m oracle turns false sources) s code s' :=
    exists_stmtsCode m oracle ctx fun source hsource loop s =>
      exists_stmtCode m oracle ctx (hsources source hsource) loop s
  constructor
  · obtain ⟨code, s', hcode⟩ := hcode (NameSupply.empty.fresh "$startProg").2
    exact exists_flatten catalog decls rfl hcode.makes hcode.labelled
  · intro flow catalog' hflatten
    obtain ⟨hlabels, st, hprogram⟩ := flatten_eq_ok hflatten
    obtain ⟨label, code, st₁, st₂, hrun, hbody⟩ := body_of_program hprogram
    obtain ⟨code', s', hcode⟩ := hcode st₁.names
    obtain ⟨hsame, -⟩ := Prod.mk.inj
      (hrun.symm.trans (hcode.makes st₁.catalog st₁.generated))
    obtain rfl := Except.ok.inj hsame
    have hwell : Flow.WellLabelled flow.body :=
      (Flow.forM_checkLabels_eq_ok_iff flow.bodies).1 hlabels _ List.mem_cons_self
    rw [hbody] at hwell ⊢
    refine hcode.realizes ?_
    rw [← labels_blocks]
    exact hwell.distinct

/-- Divides by smaller and smaller numbers: `while True: if i < 0: break; print(6 // i);
i = i - 1`. -/
def countdown : List Tree.Stmt :=
  let loc : Location := ⟨1, 1, 0⟩
  let int : Tree.Note := ⟨.int, loc⟩
  let bool : Tree.Note := ⟨.bool, loc⟩
  let num (n : Int) : Tree.Expr := .literal int (.num n)
  [.whileLoop loc (.literal bool (.bool true))
    [.ifElse loc (.binary bool .lt (.id int "i") (num 0)) [.breakLoop loc] [.pass loc],
      .expr loc (.builtin1 int "print" (.binary int .idiv (num 6) (.id int "i"))),
      .assign loc "i" (.binary int .minus (.id int "i") (num 1))]]

theorem structured_countdown : ∀ source ∈ countdown, source.Structured := by
  have hi : ¬ IsTemporary "i" := NameSupply.not_isTemporary_of_length (by decide)
  rintro source (_ | ⟨_, hsource⟩)
  · refine .whileLoop _ (.literal _ _) ?_
    rintro source (_ | ⟨_, _ | ⟨_, _ | ⟨_, hsource⟩⟩⟩)
    · refine .ifElse _ (.binary _ _ (.id _ hi) (.literal _ _)) ?_ ?_
      · rintro source (_ | ⟨_, hsource⟩)
        · exact .breakLoop _
        · exact nomatch hsource
      · rintro source (_ | ⟨_, hsource⟩)
        · exact .pass _
        · exact nomatch hsource
    · exact .expr _ (.builtin1 _ _ (.binary _ _ (.literal _ _) (.id _ hi)))
    · exact .assign _ hi (.binary _ _ (.id _ hi) (.literal _ _))
    · exact nomatch hsource
  · exact nomatch hsource

theorem flatten_keeps_meaning_countdown :
    (∀ source ∈ countdown, source.Structured) ∧
      ∃ flow catalog', flatten .empty ⟨[], [], [], countdown⟩ = (.ok flow, catalog') ∧
        RunEnds .ofLiterals (fun _ => some .none) ⟨[], [], ∅⟩ flow.body (fun _ => .num 2)
          (.halted .dividedByZero) [.builtin1 "print" (.num 6), .builtin1 "print" (.num 3)]
          (Function.update (fun _ => .num 2) "i" (.num 0)) := by
  refine ⟨structured_countdown, ?_⟩
  obtain ⟨⟨flow, catalog', hflatten⟩, hall⟩ := flatten_keeps_meaning .ofLiterals
    (fun _ => some .none) ⟨[], [], ∅⟩ .empty [] [] countdown structured_countdown
  refine ⟨flow, catalog', hflatten, ((hall flow catalog' hflatten).ends_iff _ _ _ _).2 ?_⟩
  let store : Store Flow.Value :=
    Function.update (Function.update (fun _ => .num 2) "i" (.num 1)) "i" (.num 0)
  refine ⟨3, ⟨store, [.builtin1 "print" (.num 6), .builtin1 "print" (.num 3)]⟩, rfl, nofun, rfl,
    fun x _ => ?_⟩
  exact congrFun (Function.update_idem _ _ _) x

end Midend.Linear
