import Midend.Proofs.Linear.Statements
/-!
# Flattened loops

The code of a loop follows the loop turn by turn, and makes a step in each turn at least.  So a
loop of the source that never ends keeps the run going for ever.
-/

namespace Midend.Linear

open Midend.Flow (Config Label Machine Stmt Value)
open Midend.Tree (Exit Oracle exec execAll)
open NameSupply (Draws)
open Build Code

variable {outer : List Label} {s s₁ s₂ s' : NameSupply} {check body : Code} {v : Value}
  {test bodyLabel after : Label}

def round (test bodyLabel after : Label) (check : Code) (v : Value) (body : Code) : Code :=
  .emit (.jump test) :: .mark test :: (check ++ .emit (.branch v bodyLabel after) ::
    .mark bodyLabel :: (body ++ [.emit (.jump test), .mark after]))

theorem round_append (rest : Code) :
    round test bodyLabel after check v body ++ rest =
      .emit (.jump test) :: .mark test :: (check ++ .emit (.branch v bodyLabel after) ::
        .mark bodyLabel :: (body ++ .emit (.jump test) :: .mark after :: rest)) := by
  simp [round]

@[simp] theorem marks_round : (round test bodyLabel after check v body).marks =
    test :: (check.marks ++ bodyLabel :: (body.marks ++ [after])) := by
  simp [round]

theorem Resolves.round (hcheck : Resolves [] check)
    (hbody : Resolves (LoopLabels.outer (some ⟨test, after⟩)) body) :
    Resolves outer (round test bodyLabel after check v body) := by
  refine fun target htarget => .inl ?_
  have htargets : target = test ∨ target ∈ check.targets ∨
      target ∈ (Stmt.branch v bodyLabel after).targets ∨ target ∈ body.targets := by
    simp only [Linear.round, targets_append, targets_emit, targets_mark, targets_nil,
      List.mem_append] at htarget
    simp only [Stmt.targets, List.mem_singleton] at htarget ⊢
    tauto
  rw [marks_round]
  simp only [List.mem_append, List.mem_cons, List.not_mem_nil, or_false]
  rcases htargets with rfl | htarget | htarget | htarget
  · exact .inl rfl
  · exact .inr (.inl ((hcheck target htarget).resolve_right List.not_mem_nil))
  · rcases mem_targets_branch htarget with rfl | rfl <;> simp
  · rcases hbody target htarget with htarget | htarget
    · simp [htarget]
    · rcases List.mem_cons.1 htarget with rfl | htarget
      · exact .inl rfl
      · rw [List.mem_singleton.1 htarget]
        simp

theorem Labelled.round (hnames : Draws s s₁ [test, bodyLabel, after])
    (hcheck : Labelled [] s₁ s₂ check)
    (hbody : Labelled (LoopLabels.outer (some ⟨test, after⟩)) s₂ s' body) :
    Labelled outer s s' (round test bodyLabel after check v body) := by
  refine ⟨(hnames.append (hcheck.draws.append hbody.draws)).perm ?_,
    hcheck.targets.round hbody.targets⟩
  rw [marks_round, List.perm_iff_count]
  intro label
  simp only [List.count_append, List.count_cons, List.count_nil]
  omega

variable {V : Type} [DecidableEq V] {m : Machine V} {oracle : Oracle V} {ctx : Context}
  {enclosing : Option LoopLabels} {label : Label} {code rest : Code} {e : Tree.Expr}
  {sources : List Tree.Stmt}

/-- Behind one turn the run is back at the test or has left the loop. -/
theorem Follows.afterTurn {tail : Code} {turns n : Nat} {result : Exit V × Tree.State V}
    {again : Tree.State V → Exit V × Tree.State V} {c : Config V}
    (hf : Follows m oracle ctx (some ⟨test, after⟩) label code (.emit (.jump test) :: tail) turns
      result c)
    (hnodup : (label :: code.marks).Nodup) (hafter : Item.mark after :: rest <:+ code)
    (hn : n ≤ turns)
    (hagain : ∀ st c', c'.place = .inside test 0 → Matches m st c' →
      Follows m oracle ctx enclosing label code rest n (again st) c') :
    Follows m oracle ctx enclosing label code rest n (Tree.afterTurn result again) c := by
  obtain ⟨exit, st⟩ := result
  obtain ⟨c', hreaches, hstore, hcalls, hlands⟩ := hf
  cases exit with
  | next =>
      obtain ⟨hb, hp⟩ := hlands
      have hjump := hb.jump m oracle ctx hnodup
      exact Follows.after hreaches (Follows.after hjump (hagain st _ rfl ⟨hstore, hcalls, hp⟩))
  | continues =>
      obtain ⟨labels, hlabels, hplace, hp⟩ := hlands
      obtain rfl := Option.mem_some.1 hlabels
      exact Follows.after hreaches (hagain st c' hplace ⟨hstore, hcalls, hp⟩)
  | breaks =>
      obtain ⟨labels, hlabels, hplace, hp⟩ := hlands
      obtain rfl := Option.mem_some.1 hlabels
      exact Follows.after hreaches
        (Follows.next (Before.at_mark hafter hplace) ⟨hstore, hcalls, hp⟩)
  | returned w => exact ⟨c', hreaches, hstore, hcalls, hlands⟩
  | halted why => exact ⟨c', hreaches, hstore, hcalls, hlands⟩
  | unfinished => exact ⟨c', hreaches.weaken hn, hstore, hcalls, hlands⟩

/-- From the test on, the run follows the loop of the source.  The induction is on the turns
that are left to the loop; each of them costs the run the step of a branch. -/
theorem Follows.loop (hcheck : ValueCode m oracle ctx e s₁ check v s₂)
    (hbody : StmtCode m oracle ctx (some ⟨test, after⟩) (stmts (some ⟨test, after⟩) sources)
      (fun turns => execAll m oracle turns true sources) s₂ body s')
    (hnodup : (label :: code.marks).Nodup)
    (hsuffix : .mark test :: (check ++ .emit (.branch v bodyLabel after) ::
      .mark bodyLabel :: (body ++ .emit (.jump test) :: .mark after :: rest)) <:+ code)
    (turns n : Nat) (hn : n ≤ turns) (st : Tree.State V) {c : Config V}
    (hplace : c.place = .inside test 0) (hst : Matches m st c) :
    Follows m oracle ctx enclosing label code rest n
      (Tree.loop m oracle e (execAll m oracle turns true sources) n st) c := by
  have hbranch := (List.suffix_append _ _).trans ((List.suffix_cons _ _).trans hsuffix)
  have hinside := (List.suffix_cons _ _).trans hbranch
  have hafter := (List.suffix_cons _ _).trans ((List.suffix_append _ _).trans
    ((List.suffix_cons _ _).trans hinside))
  induction n generalizing st c with
  | zero => exact ⟨c, Reaches.refl c, hst.store, hst.calls, test, 0, hplace⟩
  | succ n ih =>
      refine hcheck.follows hnodup (Before.at_mark hsuffix hplace) hst fun st c₁ hb₁ hst₁ => ?_
      have hreaches := hb₁.branch m oracle ctx hnodup
      by_cases htest : m.isTrue (m.value c₁.store v) = true
      · rw [if_pos htest] at hreaches ⊢
        have hst₂ : Matches m st ⟨.inside bodyLabel 0, c₁.store, c₁.history⟩ :=
          hst₁.moved rfl rfl
        have hturn := hbody.runs turns hnodup (Before.of_mark hinside) hst₂
        have hrest := hturn.afterTurn hnodup hafter (Nat.le_of_succ_le hn)
          (ih (Nat.le_of_succ_le hn))
        exact (Follows.after_steps hreaches hrest).weaken (Nat.le_of_eq (Nat.add_comm n 1))
      · rw [if_neg htest] at hreaches ⊢
        exact Follows.after hreaches
          (Follows.next (Before.of_mark hafter) (hst₁.moved rfl rfl))

theorem StmtCode.whileLoop (loc : Location) {s₀ s₃ : NameSupply}
    (htest : s₀.fresh "$whilestart" = (test, s))
    (hbodyLabel : s.fresh "$whilebody" = (bodyLabel, s₁))
    (hafter : s₁.fresh "$whileend" = (after, s₂))
    (hcheck : ValueCode m oracle ctx e s₂ check v s₃)
    (hbody : StmtCode m oracle ctx (some ⟨test, after⟩) (stmts (some ⟨test, after⟩) sources)
      (fun turns => execAll m oracle turns true sources) s₃ body s') :
    StmtCode m oracle ctx enclosing (stmt enclosing (.whileLoop loc e sources))
      (fun turns => exec m oracle turns enclosing.isSome (.whileLoop loc e sources)) s₀
      (round test bodyLabel after check v body) s' where
  makes := by
    refine (makes_fresh htest).bind ((makes_fresh hbodyLabel).bind ((makes_fresh hafter).bind
      (hcheck.makes_value.bind (hbody.makes.bind (makes_pure_of_eq ?_ s')))))
    simp [round]
  labelled := Labelled.round (Draws.three htest hbodyLabel hafter (by decide +kernel))
    hcheck.labelled hbody.labelled
  runs {label code rest st c} turns hnodup hb hst := by
    rw [round_append] at hb
    have hjump := hb.jump m oracle ctx hnodup
    exact Follows.after hjump (Follows.loop hcheck hbody hnodup
      ((List.suffix_cons _ _).trans hb.suffix) turns turns (Nat.le_refl _) st rfl
      (hst.moved rfl rfl))

/-! ## All structured code -/

variable (m oracle ctx)

theorem exists_exprCode {e : Tree.Expr} (he : e.Structured) (s : NameSupply) :
    ∃ piece r s', ExprCode m oracle ctx e s piece r s' := by
  induction he generalizing s with
  | literal n value => exact ⟨_, _, _, ExprCode.literal n value s⟩
  | id n hname => exact ⟨_, _, _, ExprCode.id n hname s⟩
  | binary n op _ _ ihleft ihright =>
      obtain ⟨_, _, s₁, hleft⟩ := ihleft s
      obtain ⟨_, _, s₂, hleft⟩ := hleft.toValue
      obtain ⟨_, _, s₃, hright⟩ := ihright s₂
      obtain ⟨_, _, s₄, hright⟩ := hright.toValue
      exact ⟨_, _, _, ExprCode.binary n op hleft hright⟩
  | unary n op _ ih =>
      obtain ⟨_, _, s₁, hoperand⟩ := ih s
      obtain ⟨_, _, s₂, hoperand⟩ := hoperand.toValue
      exact ⟨_, _, _, ExprCode.unary n op hoperand⟩
  | builtin1 n name _ ih =>
      obtain ⟨_, _, s₁, harg⟩ := ih s
      obtain ⟨_, _, s₂, harg⟩ := harg.toValue
      exact ⟨_, _, _, ExprCode.builtin1 n name harg⟩
  | builtin2 n name _ _ ihleft ihright =>
      obtain ⟨_, _, s₁, hleft⟩ := ihleft s
      obtain ⟨_, _, s₂, hleft⟩ := hleft.toValue
      obtain ⟨_, _, s₃, hright⟩ := ihright s₂
      obtain ⟨_, _, s₄, hright⟩ := hright.toValue
      exact ⟨_, _, _, ExprCode.builtin2 n name hleft hright⟩
  | ifExpr n _ _ _ ihcond ihtrue ihfalse =>
      obtain ⟨_, _, s₁, hcond⟩ := ihcond _
      obtain ⟨_, _, s₂, hcond⟩ := hcond.toValue
      obtain ⟨_, _, s₃, htrue⟩ := ihtrue s₂
      obtain ⟨_, _, s₄, hfalse⟩ := ihfalse s₃
      exact ⟨_, _, _, ExprCode.ifExpr n rfl rfl rfl rfl hcond htrue hfalse⟩

theorem exists_valueCode {e : Tree.Expr} (he : e.Structured) (s : NameSupply) :
    ∃ piece v s', ValueCode m oracle ctx e s piece v s' := by
  obtain ⟨_, _, _, hexpr⟩ := exists_exprCode m oracle ctx he s
  exact hexpr.toValue

theorem exists_stmtsCode {loop : Option LoopLabels} {sources : List Tree.Stmt}
    (hall : ∀ source ∈ sources, ∀ loop s, ∃ piece s', StmtCode m oracle ctx loop
      (stmt loop source) (fun turns => exec m oracle turns loop.isSome source) s piece s')
    (s : NameSupply) :
    ∃ piece s', StmtCode m oracle ctx loop (stmts loop sources)
      (fun turns => execAll m oracle turns loop.isSome sources) s piece s' := by
  induction sources generalizing s with
  | nil => exact ⟨_, _, StmtCode.nil s⟩
  | cons source sources ih =>
      obtain ⟨hsource, hsources⟩ := List.forall_mem_cons.1 hall
      obtain ⟨_, s₁, hfirst⟩ := hsource loop s
      obtain ⟨_, _, hrest⟩ := ih hsources s₁
      exact ⟨_, _, hfirst.cons hrest⟩

/-- By induction on the statement; the body of a loop is flattened with the labels of that
loop. -/
theorem exists_stmtCode {source : Tree.Stmt} (hsource : source.Structured)
    (loop : Option LoopLabels) (s : NameSupply) :
    ∃ piece s', StmtCode m oracle ctx loop (stmt loop source)
      (fun turns => exec m oracle turns loop.isSome source) s piece s' := by
  induction hsource generalizing loop s with
  | assign loc _ hvalue =>
      obtain ⟨_, _, _, hvalue⟩ := exists_exprCode m oracle ctx hvalue s
      exact ⟨_, _, StmtCode.assign loc _ hvalue⟩
  | ret loc hvalue =>
      obtain ⟨_, _, _, hvalue⟩ := exists_valueCode m oracle ctx hvalue s
      exact ⟨_, _, StmtCode.ret loc rfl hvalue⟩
  | expr loc he =>
      obtain ⟨_, _, _, he⟩ := exists_exprCode m oracle ctx he s
      exact ⟨_, _, StmtCode.expr loc he⟩
  | pass loc => exact ⟨_, _, StmtCode.pass loc s⟩
  | continueLoop loc =>
      cases loop with
      | none => exact ⟨_, _, StmtCode.stray s (.inl ⟨loc, rfl⟩)⟩
      | some labels => exact ⟨_, _, StmtCode.continueLoop loc labels rfl⟩
  | breakLoop loc =>
      cases loop with
      | none => exact ⟨_, _, StmtCode.stray s (.inr ⟨loc, rfl⟩)⟩
      | some labels => exact ⟨_, _, StmtCode.breakLoop loc labels rfl⟩
  | ifElse loc hcond _ _ ihtrue ihfalse =>
      obtain ⟨_, _, s₁, hcond⟩ := exists_valueCode m oracle ctx hcond _
      obtain ⟨_, s₂, htrue⟩ := exists_stmtsCode m oracle ctx ihtrue s₁
      obtain ⟨_, _, hfalse⟩ := exists_stmtsCode m oracle ctx ihfalse s₂
      exact ⟨_, _, StmtCode.ifElse loc rfl rfl rfl hcond htrue hfalse⟩
  | whileLoop loc hcond _ ihbody =>
      obtain ⟨_, _, s₁, hcond⟩ := exists_valueCode m oracle ctx hcond _
      obtain ⟨_, _, hbody⟩ := exists_stmtsCode m oracle ctx ihbody s₁
      exact ⟨_, _, StmtCode.whileLoop loc rfl rfl rfl hcond hbody⟩

end Midend.Linear
