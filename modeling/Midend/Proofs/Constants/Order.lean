import Midend.Proofs.Analysis.Order
import Midend.Proofs.Constants.Environment
import Mathlib.Order.Basic
/-!
# Constants by variable

What an environment says about every variable (`Constants.fact`), where one that is not mentioned
is not constant.  Statements and merges depend on this only, and knowing less before a block is
knowing less after it (`fact_le_of_through`), because the literal that an operand becomes is the
same wherever it is known.

This needs that something is known about every variable (`Decided`): one about which nothing is
known yet would be read as one that is not constant.
-/

namespace Midend.Constants

open Midend.Flow Analysis

variable {env env' : Constants}

/-- Something is known about every variable. -/
def Decided (env : Constants) : Prop := ∀ name, env.fact name ≠ .undef

theorem decided_iff : env.Decided ↔ ∀ name, env.facts.get? name ≠ some .undef := by
  refine forall_congr' fun name => not_congr ?_
  unfold fact
  rcases env.facts.get? name with _ | _ | _ | _ <;> simp

theorem fact_eq_known_iff {name : String} {v : Value} :
    env.fact name = .known v ↔ env.facts.get? name = some (.known v) := by
  unfold fact
  rcases env.facts.get? name with _ | _ | _ | _ <;> simp

theorem fact_le_of_rises (h : env.facts.Rises env'.facts) : env.fact ≤ env'.fact := by
  intro name
  have hname := h name
  unfold fact
  revert hname
  rcases env.facts.get? name with _ | x <;> rcases env'.facts.get? name with _ | y
  · exact fun _ => le_rfl
  · intro hname
    obtain rfl : y = .nac := hname
    exact le_rfl
  · exact fun _ => Fact.le_nac x
  · exact id

/-! ## Operands and expressions -/

theorem resolve_id (env : Constants) (name : String) :
    env.resolve (.id name) = match env.fact name with
      | .known v => v
      | _ => .id name := by
  unfold resolve fact
  dsimp only
  rcases env.facts.get? name with _ | _ | _ | _ <;> rfl

theorem resolve_eq_or_isId (henv : env.Decided) (hle : env.fact ≤ env'.fact) (v : Value) :
    env'.resolve v = env.resolve v ∨ (env'.resolve v).isId = true := by
  cases v with
  | id name =>
      have hdecided := henv name
      have hname : env.fact name ≤ env'.fact name := hle name
      rw [resolve_id, resolve_id]
      cases hknown : env'.fact name with
      | known value =>
          rw [hknown] at hname
          cases hold : env.fact name with
          | undef => exact absurd hold hdecided
          | known old =>
              rw [hold] at hname
              exact .inl (Fact.known_le_known.1 hname).symm
          | nac =>
              rw [hold] at hname
              exact (Fact.not_nac_le_known hname).elim
      | undef => exact .inr rfl
      | nac => exact .inr rfl
  | _ => exact .inl rfl

theorem factOf_le (henv : env.Decided) (hle : env.fact ≤ env'.fact) (e : Expr) :
    factOf (fold (e.map env.resolve)) ≤ factOf (fold (e.map env'.resolve)) := by
  have hcases := resolve_eq_or_isId henv hle
  cases e with
  | value v =>
      rcases hcases v with heq | hid
      · exact (congrArg (fun v => factOf (.value v)) heq).ge
      · have hnac : factOf (fold ((Expr.value v).map env'.resolve)) = .nac := if_pos hid
        rw [hnac]
        exact Fact.le_nac _
  | binary op left right =>
      -- with a variable among its operands the operator stays, and is not constant
      have hnac : op.value? (env'.resolve left) (env'.resolve right) = none →
          factOf (fold ((Expr.binary op left right).map env'.resolve)) = .nac := by
        intro hnone
        unfold fold Expr.map
        dsimp only
        rw [hnone]
        rfl
      rcases hcases left with hleft | hid
      · rcases hcases right with hright | hid
        · unfold Expr.map
          dsimp only
          rw [hleft, hright]
        · rw [hnac (BinOp.value?_of_isId_right hid)]
          exact Fact.le_nac _
      · rw [hnac (BinOp.value?_of_isId_left hid)]
        exact Fact.le_nac _
  | unary op operand =>
      rcases hcases operand with heq | hid
      · unfold Expr.map
        dsimp only
        rw [heq]
      · have hnac : factOf (fold ((Expr.unary op operand).map env'.resolve)) = .nac := by
          unfold fold Expr.map
          dsimp only
          rw [UniOp.value?_of_isId hid]
          rfl
        rw [hnac]
        exact Fact.le_nac _
  | _ => exact Fact.le_nac _

theorem factOf_ne_undef (e : Expr) : factOf e ≠ .undef := by
  unfold factOf
  split
  · split <;> simp
  · simp

/-! ## Statements -/

theorem fact_record (env : Constants) (s : Stmt) (name : String) :
    (env.record s).fact name = match s with
      | .assign target e => if name = target then factOf e else env.fact name
      | _ => env.fact name := by
  unfold fact
  rw [get?_facts_record]
  cases s with
  | assign target e =>
      dsimp only
      split <;> rfl
  | _ => rfl

theorem fact_after (env : Constants) (s : Stmt) (name : String) :
    (env.after s).fact name =
      if s.hasCall = true ∧ ¬ env.locals.contains name = true then .nac
      else (env.record s).fact name := by
  unfold fact
  rw [get?_facts_after]
  cases (env.record s).facts.get? name with
  | none => split <;> rfl
  | some x => rfl

theorem Decided.record (h : env.Decided) (s : Stmt) : (env.record s).Decided := by
  intro name
  rw [fact_record]
  cases s with
  | assign target e =>
      dsimp only
      split
      · exact factOf_ne_undef e
      · exact h name
  | _ => exact h name

theorem Decided.after (h : env.Decided) (s : Stmt) : (env.after s).Decided := by
  intro name
  rw [fact_after]
  split
  · exact fun hnac => nomatch hnac
  · exact h.record s name

theorem fact_after_le (hlocals : env.locals = env'.locals) (henv : env.Decided)
    (hle : env.fact ≤ env'.fact) (s : Stmt) :
    (env.after (foldStmt (s.map env.resolve))).fact ≤
      (env'.after (foldStmt (s.map env'.resolve))).fact := by
  intro name
  have hrecord : (env.record (foldStmt (s.map env.resolve))).fact name ≤
      (env'.record (foldStmt (s.map env'.resolve))).fact name := by
    rw [fact_record, fact_record]
    cases s with
    | assign target e =>
        dsimp only [Stmt.map, foldStmt]
        split
        · exact factOf_le henv hle e
        · exact hle name
    | _ => exact hle name
  rw [fact_after, fact_after, hasCall_foldStmt_map, hasCall_foldStmt_map, hlocals]
  split
  · exact le_rfl
  · exact hrecord

/-! ## Blocks -/

theorem fact_le_of_walk {ss ss₁ ss₂ : List Stmt} {out out' : Constants}
    (hlocals : env.locals = env'.locals) (henv : env.Decided) (hle : env.fact ≤ env'.fact)
    (hwalk : walk env ss = .ok (ss₁, out)) (hwalk' : walk env' ss = .ok (ss₂, out')) :
    out.fact ≤ out'.fact := by
  induction ss generalizing env env' ss₁ ss₂ with
  | nil =>
      obtain ⟨-, rfl⟩ := Prod.mk.inj (Except.ok.inj hwalk)
      obtain ⟨-, rfl⟩ := Prod.mk.inj (Except.ok.inj hwalk')
      exact hle
  | cons s ss ih =>
      obtain ⟨s₁, mid, rest, hstep, hrest, -⟩ := walk_cons_eq_ok.1 hwalk
      obtain ⟨s₂, mid', rest', hstep', hrest', -⟩ := walk_cons_eq_ok.1 hwalk'
      obtain ⟨rfl, rfl⟩ := Prod.mk.inj (Except.ok.inj ((step_eq env s).symm.trans hstep))
      obtain ⟨rfl, rfl⟩ := Prod.mk.inj (Except.ok.inj ((step_eq env' s).symm.trans hstep'))
      refine ih ?_ (henv.after _) (fact_after_le hlocals henv hle s) hrest hrest'
      rw [locals_after, locals_after, hlocals]

theorem fact_le_of_through {b : Block} {out out' : Constants}
    (hlocals : env.locals = env'.locals) (henv : env.Decided) (hle : env.fact ≤ env'.fact)
    (hout : through env b = .ok out) (hout' : through env' b = .ok out') :
    out.fact ≤ out'.fact := by
  obtain ⟨stmts, hwalk⟩ := through_eq_ok.1 hout
  obtain ⟨stmts', hwalk'⟩ := through_eq_ok.1 hout'
  exact fact_le_of_walk hlocals henv hle hwalk hwalk'

/-! ## Where paths meet -/

theorem fact_merge (a b : Constants) (name : String) :
    (a.merge b).fact name = (a.fact name).merge (b.fact name) := by
  have hget : (a.merge b).facts.get? name = _ := NameMap.get?_combine_meet _ _ name
  unfold fact
  rw [hget, Fact.getD_joined]

end Midend.Constants
