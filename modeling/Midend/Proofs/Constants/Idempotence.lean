import Midend.Proofs.Constants.Least
import Midend.Proofs.Meaning.Preservation
/-!
# Simplifying by constants twice

Simplifying a body by its constants once more changes nothing (`simplify_simplified`).  The second
time the statements are others, and so are the equations to solve; but the solver goes through the
same turns and comes to the same answer (`solve_simplified`).  For a simplified statement differs
from the one it came from only in literals that the final environment knows, and whatever
environment the solver walks through the block on its way knows them too (`Recalls`): it is below
the final one, and knows something about every variable.

This needs that declared variables start with literals.  If one started as another variable, that
other variable would stand in its place the first time and be replaced the second time.
-/

namespace Midend

open Midend.Flow

namespace Constants

open Analysis

variable {ctx : Context} {body body' : List Block} {env fin : Constants}

/-! ## Known literals -/

def Literal (env : Constants) : Prop := ∀ name v, env.fact name = .known v → v.isId = false

theorem factOf_eq_known_iff {e : Expr} {v : Value} :
    factOf e = .known v ↔ e = .value v ∧ v.isId = false := by
  cases e with
  | value w => cases hw : w.isId <;> simp [factOf, hw] <;> grind
  | _ => simp [factOf]

theorem Literal.after (h : env.Literal) (s : Stmt) : (env.after s).Literal := by
  intro name v hv
  rw [fact_after] at hv
  split at hv
  · exact nomatch hv
  · rw [fact_record] at hv
    cases s with
    | assign target e =>
        dsimp only at hv
        split at hv
        · exact (factOf_eq_known_iff.1 hv).2
        · exact h name v hv
    | _ => exact h name v hv

theorem literal_entry (hinits : ∀ d ∈ ctx.decls, d.value.isId = false) : (entry ctx).Literal := by
  intro name v hv
  rcases exists_of_get?_entry (fact_eq_known_iff.1 hv) with ⟨d, hd, -, hknown⟩ | ⟨p, -, -, hnac⟩
  · exact Fact.known.inj hknown ▸ hinits d hd
  · exact nomatch hnac

theorem literal_unreached (ctx : Context) : (unreached ctx).Literal := by
  intro name v hv
  have hget : (unreached ctx).facts.get? name = _ := NameMap.get?_ofNames _ _ name
  rw [fact_eq_known_iff, hget] at hv
  split at hv <;> exact nomatch hv

theorem kept_literal (hinits : ∀ d ∈ ctx.decls, d.value.isId = false) (body : List Block) :
    Progress.Kept ctx body Literal := by
  refine .of_step (literal_entry hinits) (fun a b ha hb name v hv => ?_) ?_
  · have hv' : (a.fact name).merge (b.fact name) = .known v := (fact_merge a b name).symm.trans hv
    have hle : a.fact name ≤ .known v := hv' ▸ Fact.le_merge_left _ _
    cases hname : a.fact name with
    | known w =>
        rw [hname] at hle
        exact Fact.known_le_known.1 hle ▸ ha name w hname
    | undef =>
        rw [hname] at hv'
        exact hb name v hv'
    | nac =>
        rw [hname] at hle
        exact (Fact.not_nac_le_known hle).elim
  · intro b _ s _ env s' out henv hstep
    obtain ⟨-, rfl⟩ := Prod.mk.inj (Except.ok.inj ((step_eq env s).symm.trans hstep))
    exact henv.after _

/-! ## Reading a simplified statement -/

/-- The environment knows every literal that may have been put into the statements by `fin`. -/
structure Recalls (env fin : Constants) : Prop where
  locals_eq : env.locals = fin.locals
  literal : fin.Literal
  recalled : ∀ name v, fin.fact name = .known v → env.fact name = .known v

theorem Recalls.refl (h : env.Literal) : Recalls env env := ⟨rfl, h, fun _ _ hv => hv⟩

theorem recalls_of_le (hlocals : env.locals = fin.locals) (henv : env.Decided)
    (hle : env.fact ≤ fin.fact) (hfin : fin.Literal) : Recalls env fin := by
  refine ⟨hlocals, hfin, fun name v hv => ?_⟩
  have hname : env.fact name ≤ fin.fact name := hle name
  rw [hv] at hname
  cases hold : env.fact name with
  | undef => exact absurd hold (henv name)
  | known w =>
      rw [hold] at hname
      rw [Fact.known_le_known.1 hname]
  | nac =>
      rw [hold] at hname
      exact (Fact.not_nac_le_known hname).elim

theorem Recalls.resolve_resolve (h : Recalls env fin) (v : Value) :
    env.resolve (fin.resolve v) = env.resolve v := by
  cases v with
  | id name =>
      rw [resolve_id fin]
      cases hknown : fin.fact name with
      | known w =>
          dsimp only
          rw [resolve_of_isId_eq_false (h.literal name w hknown), resolve_id,
            h.recalled name w hknown]
      | _ => rfl
  | _ => rfl

/-- An operator that has a value has it also when its operands are resolved once more. -/
theorem fold_map_fold (env : Constants) (e : Expr) :
    fold ((fold e).map env.resolve) = fold (e.map env.resolve) := by
  cases e with
  | binary op left right =>
      cases hvalue : op.value? left right with
      | none => simp [fold, hvalue]
      | some v =>
          obtain ⟨hleft, hright⟩ := BinOp.isId_operands_of_value? hvalue
          have hv := BinOp.isId_of_value? hvalue
          simp [fold, hvalue, Expr.map, resolve_of_isId_eq_false, hleft, hright, hv]
  | unary op operand =>
      cases hvalue : op.value? operand with
      | none => simp [fold, hvalue]
      | some v =>
          have hoperand := UniOp.isId_operand_of_value? hvalue
          have hv := UniOp.isId_of_value? hvalue
          simp [fold, hvalue, Expr.map, resolve_of_isId_eq_false, hoperand, hv]
  | _ => rfl

theorem Recalls.fold_eq (h : Recalls env fin) (e : Expr) :
    fold ((fold (e.map fin.resolve)).map env.resolve) = fold (e.map env.resolve) := by
  rw [fold_map_fold, Expr.map_map]
  exact congrArg (fun f => fold (e.map f)) (funext h.resolve_resolve)

theorem Recalls.foldStmt_eq (h : Recalls env fin) (s : Stmt) :
    foldStmt ((foldStmt (s.map fin.resolve)).map env.resolve) = foldStmt (s.map env.resolve) := by
  cases s with
  | assign name e => exact congrArg (Stmt.assign name) (h.fold_eq e)
  | expr e => exact congrArg Stmt.expr (h.fold_eq e)
  | _ => simp [foldStmt, Stmt.map, h.resolve_resolve]

/-! ## Going through a simplified block -/

theorem Recalls.after (h : Recalls env fin) (s : Stmt) :
    Recalls (env.after (foldStmt (s.map env.resolve)))
      (fin.after (foldStmt (s.map fin.resolve))) := by
  refine ⟨?_, h.literal.after _, fun name v hv => ?_⟩
  · rw [locals_after, locals_after, h.locals_eq]
  · rw [fact_after, hasCall_foldStmt_map] at hv ⊢
    rw [h.locals_eq]
    split at hv
    · exact nomatch hv
    · rename_i hkept
      rw [if_neg hkept]
      rw [fact_record] at hv ⊢
      cases s with
      | assign target e =>
          dsimp only [Stmt.map, foldStmt] at hv ⊢
          split at hv
          · rename_i htarget
            rw [if_pos htarget]
            -- the expression has become a literal, which it stays in `env`
            obtain ⟨hvalue, hid⟩ := factOf_eq_known_iff.1 hv
            rw [← h.fold_eq, hvalue]
            exact factOf_eq_known_iff.2
              ⟨congrArg Expr.value (resolve_of_isId_eq_false hid), hid⟩
          · rename_i htarget
            rw [if_neg htarget]
            exact h.recalled name v hv
      | _ => exact h.recalled name v hv

theorem Recalls.walk_eq (h : Recalls env fin) {ss ss' : List Stmt} {out : Constants}
    (hwalk : walk fin ss = .ok (ss', out)) : walk env ss' = walk env ss := by
  induction ss generalizing env fin ss' with
  | nil =>
      obtain ⟨rfl, -⟩ := Prod.mk.inj (Except.ok.inj hwalk)
      rfl
  | cons s ss ih =>
      obtain ⟨s', mid, rest, hstep, hrest, rfl⟩ := walk_cons_eq_ok.1 hwalk
      obtain ⟨rfl, rfl⟩ := Prod.mk.inj (Except.ok.inj ((step_eq fin s).symm.trans hstep))
      have hsame : Analysis.step env (foldStmt (s.map fin.resolve)) = Analysis.step env s := by
        refine (step_eq env _).trans (Eq.trans ?_ (step_eq env s).symm)
        rw [h.foldStmt_eq]
      rw [walk, walk, hsame, show Analysis.step env s = _ from step_eq env s]
      dsimp only [bind, Except.bind]
      rw [ih (h.after s) hrest]

theorem Recalls.through_eq {sol : Solution Constants} {b b' : Block}
    (h : Recalls env ((sol.before.get? b.label).getD (Analysis.unreached ctx)))
    (hblock : SimplifiedBlock ctx sol b b') : through env b' = through env b := by
  obtain ⟨out, hwalk⟩ := hblock.walk_eq
  unfold through
  rw [h.walk_eq hwalk]

/-! ## Solving a simplified body -/

section

variable {g : Graph} {sol : Solution Constants} {fuel : Nat} {scope : String}

theorem literal_of_solve (hinits : ∀ d ∈ ctx.decls, d.value.isId = false)
    (h : solve Constants fuel scope ctx body = .ok (g, sol)) (label : Label) :
    ((sol.before.get? label).getD (Analysis.unreached ctx)).Literal := by
  cases hbefore : sol.before.get? label with
  | none => exact literal_unreached ctx
  | some env => exact (solved_of_kept (kept_literal hinits body) h).before label env hbefore

theorem Below.recalls (hinits : ∀ d ∈ ctx.decls, d.value.isId = false)
    (h : solve Constants fuel scope ctx body = .ok (g, sol)) {label : Label}
    (henv : Below ctx body sol.before.get? label env) :
    Recalls env ((sol.before.get? label).getD (Analysis.unreached ctx)) := by
  have hliteral := literal_of_solve hinits h label
  obtain ⟨fin, hfin⟩ := Option.isSome_iff_exists.1 ((isSome_before_iff h).2 henv.reached)
  rw [hfin, Option.getD_some] at hliteral ⊢
  have hlocals : env.locals = fin.locals :=
    henv.definite.locals_eq.trans ((solves_of_solve h).locals_eq label fin hfin).symm
  exact recalls_of_le hlocals henv.definite.decided (henv.le fin hfin) hliteral

theorem turn_simplified (hinits : ∀ d ∈ ctx.decls, d.value.isId = false)
    (h : solve Constants fuel scope ctx body = .ok (g, sol))
    (hblocks : List.Forall₂ (SimplifiedBlock ctx sol) body body') (turns : Nat) :
    Progress.turn ctx body' g (Progress.after ctx body g turns : Progress Constants) =
      Progress.turn ctx body g (Progress.after ctx body g turns) := by
  have hg : g.Describes body := (solved h).1
  have hp : Progress.Consistent ctx body g (Progress.after ctx body g turns : Progress Constants) :=
    Progress.consistent_after hg turns
  have hbelow := (solves_of_solve h).keptAt_below.after hg turns
  unfold Progress.turn
  split
  · rfl
  · rename_i label queue hqueue
    have hflows := hp.reached label (hqueue ▸ List.mem_cons_self)
    obtain ⟨env, henv⟩ := hp.exists_inflow_of_queue hqueue
    obtain ⟨b, hb, rfl, hfind⟩ := Flow.exists_find? (Solution.mem_labels_of_flows hg hflows)
    obtain ⟨b', hfind', hblock⟩ := find?_simplified hblocks hfind
    have hrecalls : Recalls env _ :=
      ((solves_of_solve h).keptAt_below.inflow hg hp hbelow henv).recalls hinits h
    rw [henv, hfind, hfind', Option.getD_some]
    dsimp only
    rw [hrecalls.through_eq hblock]

/-- The second time, every turn of the solver is as the first time. -/
theorem after_simplified (hinits : ∀ d ∈ ctx.decls, d.value.isId = false)
    (h : solve Constants fuel scope ctx body = .ok (g, sol))
    (hblocks : List.Forall₂ (SimplifiedBlock ctx sol) body body') (turns : Nat) :
    (Progress.after ctx body' g turns : Progress Constants) =
      Progress.after ctx body g turns := by
  induction turns with
  | zero => rfl
  | succ turns ih =>
      rw [Progress.after_succ, Progress.after_succ, ih]
      exact turn_simplified hinits h hblocks turns

theorem solve_simplified (hinits : ∀ d ∈ ctx.decls, d.value.isId = false)
    (h : solve Constants fuel scope ctx body = .ok (g, sol))
    (hblocks : List.Forall₂ (SimplifiedBlock ctx sol) body body') :
    solve Constants fuel scope ctx body' = .ok (g, sol) := by
  obtain ⟨hg, hafter⟩ := solve_eq_ok_iff.1 h
  refine solve_eq_ok_iff.2 ⟨?_, ?_⟩
  · exact (Graph.ofBody_of_sameEdges (sameEdges_of_simplified hblocks) scope).trans hg
  · exact (after_simplified hinits h hblocks fuel).trans hafter

theorem simplify_simplified (hinits : ∀ d ∈ ctx.decls, d.value.isId = false)
    (h : simplify Constants fuel scope ctx body = .ok body') :
    simplify Constants fuel scope ctx body' = .ok body' := by
  obtain ⟨g, sol, hsolve, hblocks⟩ := simplify_eq_ok_iff.1 h
  refine simplify_eq_ok_iff.2 ⟨g, sol, solve_simplified hinits hsolve hblocks, ?_⟩
  have hagain : ∀ b b', SimplifiedBlock ctx sol b b' → SimplifiedBlock ctx sol b' b' := by
    intro b b' hblock
    refine ⟨rfl, ?_⟩
    obtain ⟨out, hwalk⟩ := hblock.walk_eq
    have hrecalls := Recalls.refl (literal_of_solve hinits hsolve b.label)
    rw [hblock.label_eq]
    exact ⟨out, (hrecalls.walk_eq hwalk).trans hwalk⟩
  exact List.forall₂_same.2 <|
    forall_mem_of_forall₂ hblocks (fun b b' hblock _ => hagain b b' hblock) fun _ _ => trivial

end

end Constants

end Midend
