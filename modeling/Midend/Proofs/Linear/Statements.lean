import Midend.Proofs.Linear.Expressions
/-!
# Flattened statements

The code of a statement follows its structured execution (`StmtCode`): where the execution
exits, the run is at the place that belongs to this exit, with the same values of the variables
of the source and the same calls.  Where a loop of the source is out of turns, the run is still
going on and has made as many steps at least (`Follows`).
-/

namespace Midend.Linear

open Midend.Flow (Block Config Label Machine Stmt Value)
open Midend.Tree (Exit Halt Oracle andThen builtinCalls eval exec execAll withValue)
open NameSupply (Draws IsTemporary)
open Build Code

variable {V : Type}

def LoopLabels.outer : Option LoopLabels → List Label
  | none => []
  | some labels => [labels.test, labels.after]

structure Matches (m : Machine V) (st : Tree.State V) (c : Config V) : Prop where
  store : Agrees st.store c
  calls : builtinCalls c.history = st.calls
  passed : Passed m c.history

theorem Agrees.update {σ : Flow.Store V} {name : String} {w : V} {c c' : Config V}
    (ha : Agrees σ c) (hstore : c'.store = Function.update c.store name w) :
    Agrees (Function.update σ name w) c' := by
  intro x hx
  rw [hstore]
  by_cases heq : x = name
  · rw [heq, Function.update_self, Function.update_self]
  · rw [Function.update_of_ne heq, Function.update_of_ne heq, ha x hx]

theorem Matches.moved {m : Machine V} {st : Tree.State V} {c c' : Config V}
    (hst : Matches m st c) (hstore : c'.store = c.store) (hhistory : c'.history = c.history) :
    Matches m st c' :=
  ⟨fun x hx => (congrFun hstore x).trans (hst.store x hx), hhistory ▸ hst.calls,
    hhistory ▸ hst.passed⟩

/-- The place that belongs to an exit, where `rest` is the code behind the statement. -/
def Lands (m : Machine V) (loop : Option LoopLabels) (label : Label) (code rest : Code)
    (c : Config V) : Exit V → Prop
  | .next => Before label code rest c.place ∧ Passed m c.history
  | .breaks => ∃ labels ∈ loop, c.place = .inside labels.after 0 ∧ Passed m c.history
  | .continues => ∃ labels ∈ loop, c.place = .inside labels.test 0 ∧ Passed m c.history
  | .returned v => c.place = .returned v ∧ Passed m c.history
  | .halted why => c.place = .stopped ∧ Tells m c.history why
  | .unfinished => ∃ l i, c.place = .inside l i

/-- The steps that a run has made at least. -/
def stepsOf (k : Nat) : Exit V → Nat
  | .unfinished => k
  | _ => 0

variable [DecidableEq V]

section Definitions

variable (m : Machine V) (oracle : Oracle V) (ctx : Context) (loop : Option LoopLabels)

/-- The run follows an execution of the source; where that is unfinished, for `k` steps or
more. -/
def Follows (label : Label) (code rest : Code) (k : Nat) (result : Exit V × Tree.State V)
    (c : Config V) : Prop :=
  ∃ c', Reaches (m.withBuiltins oracle) ctx (code.blocks label) (stepsOf k result.1) c c' ∧
    Agrees result.2.store c' ∧ builtinCalls c'.history = result.2.calls ∧
    Lands m loop label code rest c' result.1

structure StmtCode (build : Build Code) (run : Nat → Tree.State V → Exit V × Tree.State V)
    (s : NameSupply) (piece : Code) (s' : NameSupply) : Prop where
  makes : Makes build s piece s'
  labelled : Labelled (LoopLabels.outer loop) s s' piece
  runs : ∀ {label : Label} {code rest : Code} {st : Tree.State V} {c : Config V} (turns : Nat),
    (label :: code.marks).Nodup → Before label code (piece ++ rest) c.place → Matches m st c →
    Follows m oracle ctx loop label code rest turns (run turns st) c

end Definitions

variable {m : Machine V} {oracle : Oracle V} {ctx : Context} {loop : Option LoopLabels}
  {label : Label} {code rest mid piece piece₁ piece₂ : Code} {k k' : Nat}
  {result : Exit V × Tree.State V} {st : Tree.State V} {c c' : Config V} {e : Tree.Expr}
  {s s₁ s' : NameSupply} {r : Flow.Expr} {v : Value}
  {onward : V → Tree.State V → Exit V × Tree.State V}

theorem Matches.ran {body : List Block} (hst : Matches m st c)
    (hr : Ran m oracle ctx body s c c') :
    Matches m ⟨st.store, builtinCalls c'.history⟩ c' :=
  ⟨hr.agrees hst.store, rfl, hr.passed⟩

/-! ## Following an execution -/

namespace Follows

theorem after_steps (h : Reaches (m.withBuiltins oracle) ctx (code.blocks label) k' c c')
    (hf : Follows m oracle ctx loop label code rest k result c') :
    Follows m oracle ctx loop label code rest (k' + k) result c := by
  obtain ⟨c'', hreaches, hstore, hcalls, hlands⟩ := hf
  refine ⟨c'', (h.trans hreaches).weaken ?_, hstore, hcalls, hlands⟩
  cases result.1 with
  | unfinished => exact Nat.le_refl _
  | _ => exact Nat.zero_le _

theorem weaken (hf : Follows m oracle ctx loop label code rest k result c) (hle : k' ≤ k) :
    Follows m oracle ctx loop label code rest k' result c := by
  obtain ⟨c', hreaches, hstore, hcalls, hlands⟩ := hf
  refine ⟨c', hreaches.weaken ?_, hstore, hcalls, hlands⟩
  cases result.1 with
  | unfinished => exact hle
  | _ => exact Nat.le_refl _

theorem after (h : Reaches (m.withBuiltins oracle) ctx (code.blocks label) k' c c')
    (hf : Follows m oracle ctx loop label code rest k result c') :
    Follows m oracle ctx loop label code rest k result c :=
  (after_steps h hf).weaken (Nat.le_add_left _ _)

theorem next (hb : Before label code rest c.place) (hst : Matches m st c) :
    Follows m oracle ctx loop label code rest k (.next, st) c :=
  ⟨c, Reaches.refl c, hst.store, hst.calls, hb, hst.passed⟩

theorem halted {why : Halt} (hh : HaltedBy m oracle ctx (code.blocks label) why c c')
    (hst : Matches m st c) :
    Follows m oracle ctx loop label code rest k
      (.halted why, ⟨st.store, builtinCalls c'.history⟩) c :=
  ⟨c', hh.reaches, fun x hx => (hh.store x hx).trans (hst.store x hx), rfl, hh.place, hh.tells⟩

theorem andThen {next : Tree.State V → Exit V × Tree.State V}
    (hf : Follows m oracle ctx loop label code mid k result c)
    (hnext : ∀ st c', Before label code mid c'.place → Matches m st c' →
      Follows m oracle ctx loop label code rest k (next st) c') :
    Follows m oracle ctx loop label code rest k (andThen result next) c := by
  obtain ⟨exit, st⟩ := result
  obtain ⟨c', hreaches, hstore, hcalls, hlands⟩ := hf
  cases exit with
  | next =>
      obtain ⟨hb, hp⟩ := hlands
      exact after hreaches (hnext st c' hb ⟨hstore, hcalls, hp⟩)
  | _ => exact ⟨c', hreaches, hstore, hcalls, hlands⟩

theorem join {target : Label} {tail : Code} (hnodup : (label :: code.marks).Nodup)
    (hf : Follows m oracle ctx loop label code (.emit (.jump target) :: tail) k result c)
    (htarget : Item.mark target :: rest <:+ code) :
    Follows m oracle ctx loop label code rest k result c := by
  have hjump : Follows m oracle ctx loop label code rest k
      (Tree.andThen result fun st => (.next, st)) c := by
    refine hf.andThen fun st c' hb hst => ?_
    have hreaches := hb.jump m oracle ctx hnodup
    exact after hreaches (next (Before.of_mark htarget) (hst.moved rfl rfl))
  obtain ⟨exit, st⟩ := result
  cases exit <;> exact hjump

end Follows

/-- What comes after the value of an expression follows, or the run halts with it. -/
theorem ValueCode.follows (hv : ValueCode m oracle ctx e s piece v s')
    (hnodup : (label :: code.marks).Nodup) (hb : Before label code (piece ++ mid) c.place)
    (hst : Matches m st c)
    (hnext : ∀ st c', Before label code mid c'.place → Matches m st c' →
      Follows m oracle ctx loop label code rest k (onward (m.value c'.store v) st) c') :
    Follows m oracle ctx loop label code rest k (withValue m oracle e st onward) c := by
  unfold withValue
  rw [← hst.calls]
  rcases hv.runs hnodup hb hst.store hst.passed with ⟨c', hb', hran, heval⟩ | hhalts
  · rw [heval]
    exact Follows.after hran.reaches (hnext _ c' hb' (hst.ran hran))
  · obtain ⟨why, c', hhalted, heval⟩ := hhalts
    rw [heval]
    exact Follows.halted hhalted hst

/-- What comes after a statement with the operation that is left follows, or the run halts. -/
theorem ExprCode.follows {stmt : Stmt} (he : ExprCode m oracle ctx e s piece r s')
    (hstmt : stmt = .expr r ∨ ∃ name, stmt = .assign name r)
    (hnodup : (label :: code.marks).Nodup)
    (hb : Before label code (piece ++ .emit stmt :: rest) c.place) (hst : Matches m st c)
    (hnext : ∀ c₁ w history, Before label code (.emit stmt :: rest) c₁.place →
      Agrees st.store c₁ → Yields m oracle ctx r c₁ (some w) history →
      Follows m oracle ctx loop label code rest k
        (onward w ⟨st.store, builtinCalls history⟩) c₁) :
    Follows m oracle ctx loop label code rest k (withValue m oracle e st onward) c := by
  unfold withValue
  rw [← hst.calls]
  rcases he.runs hnodup hb hst.store hst.passed with
    ⟨c₁, hb₁, result, history, hran, hyields, heval⟩ | hhalts
  · rw [heval]
    cases result with
    | some w =>
        exact Follows.after hran.reaches
          (hnext c₁ w history hb₁ (hran.agrees hst.store) hyields)
    | none =>
        obtain ⟨c', hhalted, hhistory⟩ := hb₁.fail hnodup hstmt hyields
        rw [← hhistory]
        exact Follows.halted (hran.halted hhalted) hst
  · obtain ⟨why, c', hhalted, heval⟩ := hhalts
    rw [heval]
    exact Follows.halted hhalted hst

/-! ## Each kind of statement -/

namespace StmtCode

theorem assign (loc : Location) (name : String) (he : ExprCode m oracle ctx e s piece r s') :
    StmtCode m oracle ctx loop (stmt loop (.assign loc name e))
      (fun turns => exec m oracle turns loop.isSome (.assign loc name e)) s
      (piece ++ [.emit (.assign name r)]) s' where
  makes := he.makes.bind (makes_pure _ _)
  labelled := he.labelled.weaken.append
    (Labelled.plain (fun _ => Nat.le_refl _) rfl rfl)
  runs {label code rest st c} turns hnodup hb hst := by
    rw [List.append_assoc] at hb
    refine he.follows (.inr ⟨name, rfl⟩) hnodup hb hst fun c₁ w history hb₁ ha hyields => ?_
    obtain ⟨c', hreaches, hb', hstore, hhistory⟩ := hb₁.assign hnodup hyields
    exact Follows.after hreaches (Follows.next hb'
      ⟨ha.update hstore, by rw [hhistory], hhistory ▸ hyields.2⟩)

theorem expr (loc : Location) (he : ExprCode m oracle ctx e s piece r s') :
    StmtCode m oracle ctx loop (stmt loop (.expr loc e))
      (fun turns => exec m oracle turns loop.isSome (.expr loc e)) s
      (piece ++ [.emit (.expr r)]) s' where
  makes := he.makes.bind (makes_pure _ _)
  labelled := he.labelled.weaken.append
    (Labelled.plain (fun _ => Nat.le_refl _) rfl rfl)
  runs turns hnodup hb hst := by
    rw [List.append_assoc] at hb
    refine he.follows (.inl rfl) hnodup hb hst fun c₁ w history hb₁ ha hyields => ?_
    obtain ⟨c', hreaches, hb', hstore, hhistory⟩ := hb₁.expr hnodup hyields
    exact Follows.after hreaches
      (Follows.next hb' ⟨fun x hx => (congrFun hstore x).trans (ha x hx), by rw [hhistory],
        hhistory ▸ hyields.2⟩)

theorem pass (loc : Location) (s : NameSupply) :
    StmtCode m oracle ctx loop (stmt loop (.pass loc))
      (fun turns => exec m oracle turns loop.isSome (.pass loc)) s [] s where
  makes := makes_pure _ _
  labelled := Labelled.nil _ s
  runs _ _ hb hst := Follows.next hb hst

theorem makes_leave {stmt : Stmt} {unreachable : Label}
    (hname : s.fresh "$unreachable" = (unreachable, s')) :
    Makes (leave stmt) s [.emit stmt, .mark unreachable] s' :=
  (makes_fresh hname).bind (makes_pure _ _)

theorem labelled_leave {stmt : Stmt} {outer : List Label} {unreachable : Label}
    (hname : s.fresh "$unreachable" = (unreachable, s'))
    (htargets : ∀ target ∈ stmt.targets, target ∈ outer) :
    Labelled outer s s' [.emit stmt, .mark unreachable] := by
  refine ⟨Draws.fresh hname (by decide +kernel), fun target htarget => .inr ?_⟩
  simp only [targets_emit, targets_mark, targets_nil, List.append_nil] at htarget
  exact htargets target htarget

theorem ret (loc : Location) {unreachable : Label}
    (hname : s₁.fresh "$unreachable" = (unreachable, s'))
    (hv : ValueCode m oracle ctx e s piece v s₁) :
    StmtCode m oracle ctx loop (stmt loop (.ret loc e))
      (fun turns => exec m oracle turns loop.isSome (.ret loc e)) s
      (piece ++ [.emit (.ret v), .mark unreachable]) s' where
  makes := hv.makes_value.bind ((makes_leave hname).bind (makes_pure _ _))
  labelled := hv.labelled.weaken.append
    (labelled_leave hname fun _ h => absurd h List.not_mem_nil)
  runs turns hnodup hb hst := by
    rw [List.append_assoc] at hb
    refine hv.follows hnodup hb hst fun st c' hb' hst' => ?_
    exact ⟨_, (hb'.ret m oracle ctx hnodup).weaken (Nat.zero_le _), hst'.store, hst'.calls, rfl,
      hst'.passed⟩

theorem stray {source : Tree.Stmt} (s : NameSupply)
    (hsource : (∃ loc, source = .continueLoop loc) ∨ ∃ loc, source = .breakLoop loc) :
    StmtCode m oracle ctx none (stmt none source)
      (fun turns => exec m oracle turns false source) s [] s := by
  rcases hsource with ⟨loc, rfl⟩ | ⟨loc, rfl⟩
  · exact ⟨makes_pure _ _, Labelled.nil _ s, fun _ _ hb hst => Follows.next hb hst⟩
  · exact ⟨makes_pure _ _, Labelled.nil _ s, fun _ _ hb hst => Follows.next hb hst⟩

theorem continueLoop (loc : Location) (labels : LoopLabels) {unreachable : Label}
    (hname : s.fresh "$unreachable" = (unreachable, s')) :
    StmtCode m oracle ctx (some labels) (stmt (some labels) (.continueLoop loc))
      (fun turns => exec m oracle turns true (.continueLoop loc)) s
      [.emit (.jump labels.test), .mark unreachable] s' where
  makes := makes_leave hname
  labelled := labelled_leave hname fun _ h =>
    List.mem_cons.2 (.inl (List.mem_singleton.1 h))
  runs _ hnodup hb hst :=
    ⟨_, (hb.jump m oracle ctx hnodup).weaken (Nat.zero_le _), hst.store, hst.calls,
      labels, rfl, rfl, hst.passed⟩

theorem breakLoop (loc : Location) (labels : LoopLabels) {unreachable : Label}
    (hname : s.fresh "$unreachable" = (unreachable, s')) :
    StmtCode m oracle ctx (some labels) (stmt (some labels) (.breakLoop loc))
      (fun turns => exec m oracle turns true (.breakLoop loc)) s
      [.emit (.jump labels.after), .mark unreachable] s' where
  makes := makes_leave hname
  labelled := labelled_leave hname fun _ h => List.mem_cons_of_mem _ h
  runs _ hnodup hb hst :=
    ⟨_, (hb.jump m oracle ctx hnodup).weaken (Nat.zero_le _), hst.store, hst.calls,
      labels, rfl, rfl, hst.passed⟩

theorem nil (s : NameSupply) :
    StmtCode m oracle ctx loop (stmts loop [])
      (fun turns => execAll m oracle turns loop.isSome []) s [] s where
  makes := makes_pure _ _
  labelled := Labelled.nil _ s
  runs _ _ hb hst := Follows.next hb hst

theorem cons {source : Tree.Stmt} {sources : List Tree.Stmt}
    (hfirst : StmtCode m oracle ctx loop (stmt loop source)
      (fun turns => exec m oracle turns loop.isSome source) s piece₁ s₁)
    (hrest : StmtCode m oracle ctx loop (stmts loop sources)
      (fun turns => execAll m oracle turns loop.isSome sources) s₁ piece₂ s') :
    StmtCode m oracle ctx loop (stmts loop (source :: sources))
      (fun turns => execAll m oracle turns loop.isSome (source :: sources)) s
      (piece₁ ++ piece₂) s' where
  makes := hfirst.makes.bind (hrest.makes.bind (makes_pure _ _))
  labelled := hfirst.labelled.append hrest.labelled
  runs turns hnodup hb hst := by
    rw [List.append_assoc] at hb
    exact (hfirst.runs turns hnodup hb hst).andThen fun st c' hb' hst' =>
      hrest.runs turns hnodup hb' hst'

theorem ifElse (loc : Location) {onTrue onFalse : List Tree.Stmt} {s₂ s₃ s₄ s₅ : NameSupply}
    {thenLabel elseLabel after : Label} {test yes no : Code}
    (hthen : s.fresh "$then" = (thenLabel, s₁)) (helse : s₁.fresh "$else" = (elseLabel, s₂))
    (hend : s₂.fresh "$end" = (after, s₃)) (hcond : ValueCode m oracle ctx e s₃ test v s₄)
    (htrue : StmtCode m oracle ctx loop (stmts loop onTrue)
      (fun turns => execAll m oracle turns loop.isSome onTrue) s₄ yes s₅)
    (hfalse : StmtCode m oracle ctx loop (stmts loop onFalse)
      (fun turns => execAll m oracle turns loop.isSome onFalse) s₅ no s') :
    StmtCode m oracle ctx loop (stmt loop (.ifElse loc e onTrue onFalse))
      (fun turns => exec m oracle turns loop.isSome (.ifElse loc e onTrue onFalse)) s
      (choice test v thenLabel elseLabel after yes no) s' where
  makes := by
    refine (makes_fresh hthen).bind ((makes_fresh helse).bind ((makes_fresh hend).bind
      (hcond.makes_value.bind (htrue.makes.bind (hfalse.makes.bind (makes_pure_of_eq ?_ s'))))))
    simp [choice]
  labelled := Labelled.choice (Draws.three hthen helse hend (by decide +kernel))
    hcond.labelled htrue.labelled hfalse.labelled
  runs {label code rest st c} turns hnodup hb hst := by
    rw [choice_append] at hb
    refine hcond.follows hnodup hb hst fun st c₁ hb₁ hst₁ => ?_
    obtain ⟨c₂, tail, hreaches, hb₂, hstore, hhistory, hafter⟩ :=
      hb₁.choice m oracle ctx hnodup
    have hst₂ := hst₁.moved hstore hhistory
    by_cases htest : m.isTrue (m.value c₁.store v) = true
    · rw [if_pos htest] at hb₂ ⊢
      exact Follows.after hreaches ((htrue.runs turns hnodup hb₂ hst₂).join hnodup hafter)
    · rw [if_neg htest] at hb₂ ⊢
      exact Follows.after hreaches ((hfalse.runs turns hnodup hb₂ hst₂).join hnodup hafter)

end StmtCode

end Midend.Linear
