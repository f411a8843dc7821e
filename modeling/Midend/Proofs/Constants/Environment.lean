import Midend.Analysis.Constants
import Midend.Proofs.Solver.Turn
/-!
# Environments of constants

Evaluating a statement never faults, since an operator is applied only where it
has a value (`evaluateStmt_eq`), and keeps the kind of statement.  What is known
after a statement is what the assignment says, less what a call may have changed
(`get?_facts_after`).
-/

namespace Midend.Constants

open Midend.Flow

/-! ## Evaluation -/

def fold : Expr → Expr
  | .binary op left right => ((op.value? left right).map Expr.value).getD (.binary op left right)
  | .unary op operand => ((op.value? operand).map Expr.value).getD (.unary op operand)
  | e => e

def foldStmt : Stmt → Stmt
  | .assign name e => .assign name (fold e)
  | .expr e => .expr (fold e)
  | s => s

theorem resolve_of_isId_eq_false {env : Constants} {v : Value} (h : v.isId = false) :
    env.resolve v = v := by
  cases v with
  | id name => exact nomatch h
  | _ => rfl

theorem evaluate_eq (e : Expr) : evaluate e = .ok (fold e) := by
  cases e with
  | binary op left right =>
      unfold evaluate fold BinOp.value
      dsimp only
      rw [← BinOp.isSome_value?]
      cases op.value? left right <;> rfl
  | unary op operand =>
      unfold evaluate fold UniOp.value
      dsimp only
      rw [← UniOp.isSome_value?]
      cases op.value? operand <;> rfl
  | _ => rfl

theorem evaluateStmt_eq (s : Stmt) : evaluateStmt s = .ok (foldStmt s) := by
  cases s with
  | assign name e => exact congrArg (Except.map _) (evaluate_eq e)
  | expr e => exact congrArg (Except.map _) (evaluate_eq e)
  | _ => rfl

theorem step_eq (env : Constants) (s : Stmt) :
    env.step s =
      .ok (foldStmt (s.map env.resolve), env.after (foldStmt (s.map env.resolve))) := by
  unfold step
  rw [evaluateStmt_eq]
  rfl

theorem isCall_fold (e : Expr) : (fold e).isCall = e.isCall := by
  cases e with
  | binary op left right =>
      unfold fold
      dsimp only
      cases op.value? left right <;> rfl
  | unary op operand =>
      unfold fold
      dsimp only
      cases op.value? operand <;> rfl
  | _ => rfl

theorem hasCall_foldStmt_map (f : Value → Value) (s : Stmt) :
    (foldStmt (s.map f)).hasCall = s.hasCall := by
  cases s with
  | assign name e => exact (isCall_fold _).trans (Expr.isCall_map f e)
  | expr e => exact (isCall_fold _).trans (Expr.isCall_map f e)
  | _ => rfl

/-! ## Facts after a statement -/

theorem get?_facts_setFact (env : Constants) (name other : String) (fact : Fact Value) :
    (env.setFact name fact).facts.get? other =
      if other = name then some fact else env.facts.get? other :=
  NameMap.get?_insert _ _ _ _

theorem get?_facts_afterCall (env : Constants) (name : String) :
    env.afterCall.facts.get? name =
      (env.facts.get? name).map fun fact =>
        if env.locals.contains name then fact else .nac :=
  NameMap.get?_map _ _ _

@[simp] theorem locals_record (env : Constants) (s : Stmt) :
    (env.record s).locals = env.locals := by
  cases s <;> rfl

@[simp] theorem locals_after (env : Constants) (s : Stmt) :
    (env.after s).locals = env.locals := by
  unfold after
  split
  · exact locals_record env s
  · exact locals_record env s

theorem get?_facts_record (env : Constants) (s : Stmt) (other : String) :
    (env.record s).facts.get? other =
      match s with
      | .assign name e => if other = name then some (factOf e) else env.facts.get? other
      | _ => env.facts.get? other := by
  cases s with
  | assign name e => exact get?_facts_setFact env name other (factOf e)
  | _ => rfl

theorem get?_facts_after (env : Constants) (s : Stmt) (name : String) :
    (env.after s).facts.get? name =
      ((env.record s).facts.get? name).map fun fact =>
        if s.hasCall = true ∧ ¬ env.locals.contains name = true then .nac else fact := by
  unfold after
  split
  · rename_i hcall
    rw [get?_facts_afterCall, locals_record]
    by_cases hlocal : env.locals.contains name = true <;> simp [hcall, hlocal]
  · rename_i hcall
    simp [hcall]

theorem exists_of_get?_entry {ctx : Context} {name : String} {fact : Fact Value}
    (h : (entry ctx).facts.get? name = some fact) :
    (∃ d ∈ ctx.decls, d.name = name ∧ fact = .known d.value) ∨
      ∃ p ∈ ctx.params, p.name = name ∧ fact = .nac := by
  have hget : (entry ctx).facts.get? name = _ := NameMap.get?_ofList _ name
  rw [hget, Option.map_eq_some_iff] at h
  obtain ⟨pair, hpair, rfl⟩ := h
  obtain rfl : pair.1 = name := by simpa using List.find?_some hpair
  have hmem := List.mem_reverse.1 (List.mem_of_find?_eq_some hpair)
  rcases List.mem_append.1 hmem with hmem | hmem
  · obtain ⟨d, hd, rfl⟩ := List.mem_map.1 hmem
    exact .inl ⟨d, hd, rfl, rfl⟩
  · obtain ⟨p, hp, rfl⟩ := List.mem_map.1 hmem
    exact .inr ⟨p, hp, rfl, rfl⟩

/-! ## The analysis -/

instance : Faultless Constants where
  exists_step env s := ⟨_, _, step_eq env s⟩
  targets_eq env out s s' h := by
    obtain ⟨rfl, -⟩ := Prod.mk.inj (Except.ok.inj ((step_eq env s).symm.trans h))
    cases s <;> rfl
  same_refl _ := decide_eq_true rfl

instance : FactBased Constants Value where
  facts := facts
  same_iff _ _ := decide_eq_true_iff
  facts_merge _ _ := rfl

end Midend.Constants
