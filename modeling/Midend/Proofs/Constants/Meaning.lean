import Midend.Proofs.Constants.Rest
import Midend.Proofs.Meaning.Preservation
/-!
# Constants keep the meaning of a body

An environment of constants holds of variables that have the literals it knows
(`Holds`).  A variable about which nothing is known yet belongs to a block that no
run has reached, so no variables satisfy it.

Every statement keeps this (`sound`), so a simplified body runs in step with the body
it came from (`constants_keep_meaning`).
-/

namespace Midend.Constants

open Midend.Flow Analysis

variable {V : Type} {m : Machine V} {ctx : Context} {env : Constants} {σ : Store V}

def Holds (m : Machine V) (env : Constants) (σ : Store V) : Prop :=
  env.facts.Says fun name v => v.isId = false ∧ σ name = m.literal v

/-! ## Statements -/

theorem value_of_isId_eq_false {v : Value} (h : v.isId = false) : m.value σ v = m.literal v := by
  cases v with
  | id name => exact nomatch h
  | _ => rfl

theorem value_resolve (h : Holds m env σ) (v : Value) :
    m.value σ (env.resolve v) = m.value σ v := by
  cases v with
  | id name =>
      unfold resolve
      dsimp only
      split
      · rename_i known hknown
        obtain ⟨hid, hvalue⟩ := h name _ hknown
        exact (value_of_isId_eq_false hid).trans hvalue.symm
      · rfl
  | _ => rfl

theorem compute_fold (e : Expr) (history : History V) :
    m.compute ctx (fold e) σ history = m.compute ctx e σ history := by
  cases e with
  | binary op left right =>
      unfold fold
      dsimp only
      cases hvalue : op.value? left right with
      | none => rfl
      | some v =>
          obtain ⟨hleft, hright⟩ := BinOp.isId_operands_of_value? hvalue
          have hoperate : m.operate σ (.binary op left right) = m.operate σ (.value v) :=
            calc m.binary op (m.value σ left) (m.value σ right)
                = m.binary op (m.literal left) (m.literal right) := by
                  rw [value_of_isId_eq_false hleft, value_of_isId_eq_false hright]
              _ = some (m.literal v) := m.binary_exact op left right v hvalue
              _ = some (m.value σ v) := by
                  rw [value_of_isId_eq_false (BinOp.isId_of_value? hvalue)]
          exact congrArg (·, σ, history) hoperate.symm
  | unary op operand =>
      unfold fold
      dsimp only
      cases hvalue : op.value? operand with
      | none => rfl
      | some v =>
          have hoperand := UniOp.isId_operand_of_value? hvalue
          have hoperate : m.operate σ (.unary op operand) = m.operate σ (.value v) :=
            calc m.unary op (m.value σ operand)
                = m.unary op (m.literal operand) := by
                  rw [value_of_isId_eq_false hoperand]
              _ = some (m.literal v) := m.unary_exact op operand v hvalue
              _ = some (m.value σ v) := by
                  rw [value_of_isId_eq_false (UniOp.isId_of_value? hvalue)]
          exact congrArg (·, σ, history) hoperate.symm
  | _ => rfl

theorem exec_foldStmt (s : Stmt) (history : History V) :
    m.exec ctx (foldStmt s) σ history = m.exec ctx s σ history := by
  cases s with
  | assign name e | expr e =>
      unfold foldStmt Machine.exec
      dsimp only
      rw [compute_fold]
  | _ => rfl

theorem Holds.after (h : Holds m env σ) (hlocals : env.locals = ctx.locals) (s : Stmt)
    (history : History V) : Holds m (env.after s) (m.exec ctx s σ history).store := by
  intro name fact hfact
  rw [get?_facts_after, Option.map_eq_some_iff] at hfact
  obtain ⟨recorded, hrecorded, rfl⟩ := hfact
  split
  · trivial
  · rename_i hkept
    have hlocal : s.hasCall = true → ctx.isLocal name = true := by
      intro hcall
      unfold Context.isLocal
      rw [← hlocals]
      exact Classical.not_not.1 fun hother => hkept ⟨hcall, hother⟩
    rw [get?_facts_record] at hrecorded
    by_cases hwrites : ∃ e, s = .assign name e
    · obtain ⟨e, rfl⟩ := hwrites
      dsimp only at hrecorded
      rw [if_pos rfl] at hrecorded
      obtain rfl := Option.some.inj hrecorded
      cases e with
      | value v =>
          unfold factOf
          dsimp only
          split
          · trivial
          · rename_i hid
            have hid' : v.isId = false := Bool.not_eq_true _ ▸ hid
            refine ⟨hid', ?_⟩
            exact (Function.update_self name _ σ).trans (value_of_isId_eq_false hid')
      | _ => trivial
    · have hne : ∀ e, s ≠ .assign name e := fun e heq => hwrites ⟨e, heq⟩
      have hsame : (m.exec ctx s σ history).store name = σ name :=
        Machine.store_exec hne hlocal
      beta_reduce
      rw [hsame]
      refine h name recorded ?_
      cases s with
      | assign written e =>
          dsimp only at hrecorded
          rwa [if_neg (fun heq : name = written => hne e (heq ▸ rfl))] at hrecorded
      | _ => exact hrecorded

theorem sound (m : Machine V) (ctx : Context) :
    Sound m ctx (fun env : Constants => env.locals = ctx.locals) (Holds m) where
  entry_kept := rfl
  merge_kept a b ha hb := ha
  step_kept env s s' out henv hstep := by
    obtain ⟨-, rfl⟩ := Prod.mk.inj (Except.ok.inj ((step_eq env s).symm.trans hstep))
    exact (locals_after env _).trans henv
  merge a b σ ha hb hsome := NameMap.Says.combine hsome
  same a b σ ha hb hsame h := by
    have hfacts : a.facts = b.facts := (FactBased.same_iff a b).1 hsame
    intro name fact hfact
    exact h name fact (hfacts ▸ hfact)
  exec_eq env s s' out σ history henv h hstep := by
    obtain ⟨rfl, -⟩ := Prod.mk.inj (Except.ok.inj ((step_eq env s).symm.trans hstep))
    rw [exec_foldStmt, Machine.exec_map (value_resolve h)]
  exec_holds env s s' out σ history henv h hstep hrun := by
    obtain ⟨rfl, rfl⟩ := Prod.mk.inj (Except.ok.inj ((step_eq env s).symm.trans hstep))
    exact h.after henv _ history

/-! ## Bodies -/

theorem holds_entry (hliterals : ∀ v ∈ ctx.decls, v.value.isId = false)
    (hstart : m.Starts ctx σ) : Holds m (entry ctx) σ := by
  intro name fact hfact
  have hget : (entry ctx).facts.get? name = _ := NameMap.get?_ofList _ name
  rw [hget, List.reverse_append, List.find?_append, ← List.map_reverse, ← List.map_reverse,
    List.find?_map, List.find?_map] at hfact
  by_cases hparam : name ∈ ctx.params.map (·.name)
  · obtain ⟨p, hp, rfl⟩ := List.mem_map.1 hparam
    have hfound : ∃ q, ctx.params.reverse.find? (fun q => q.name = p.name) = some q := by
      rw [← Option.isSome_iff_exists, List.find?_isSome]
      exact ⟨p, List.mem_reverse.2 hp, by simp⟩
    obtain ⟨q, hq⟩ := hfound
    simp only [Function.comp_def] at hfact
    rw [hq] at hfact
    obtain rfl : Fact.nac = fact := Option.some.inj hfact
    trivial
  · have hnone : ctx.params.reverse.find? (fun q => q.name = name) = none := by
      rw [List.find?_eq_none]
      intro q hq heq
      exact hparam (List.mem_map.2 ⟨q, List.mem_reverse.1 hq, by simpa using heq⟩)
    simp only [Function.comp_def] at hfact
    rw [hnone, Option.map_none, Option.none_or, Option.map_map, Option.map_eq_some_iff] at hfact
    obtain ⟨v, hv, rfl⟩ := hfact
    exact ⟨hliterals v (List.mem_reverse.1 (List.mem_of_find?_eq_some hv)),
      hstart name v hparam hv⟩

/-- A body whose labels are right can be simplified, and whatever it is simplified to
runs in step with it: after every number of steps both are at the same place of the
same block or have returned the same value, all variables are equal, and so far both
have asked for the same things with the same operands. -/
theorem constants_keep_meaning (m : Machine V) (scope : String) (ctx : Context)
    (body : List Block) (σ : Store V) (hends : EndsLast body)
    (hliterals : ∀ v ∈ ctx.decls, v.value.isId = false) (hstart : m.Starts ctx σ) :
    (checkLabels scope body = .ok () →
        ∃ fuel body', simplify Constants fuel scope ctx body = .ok body') ∧
      ∀ fuel body', simplify Constants fuel scope ctx body = .ok body' →
        ∀ steps, m.after ctx body' σ steps = m.after ctx body σ steps := by
  constructor
  · intro hlabels
    obtain ⟨fuel, hanswer⟩ : ∃ fuel answer, solve Constants fuel scope ctx body = .ok answer :=
      exists_solve_constants (checkLabels_eq_ok_iff.1 hlabels)
    exact ⟨fuel, exists_simplify_iff.2 hanswer⟩
  · intro fuel body' h steps
    exact after_simplified (sound m ctx) hends h (holds_entry hliterals hstart) steps

def countingBody : List Block :=
  [⟨"entry", [.assign "step" (.binary .plus (.num 1) (.id "one")), .jump "loop"]⟩,
    ⟨"loop",
      [.assign "count" (.binary .plus (.id "count") (.id "step")),
        .expr (.call "show" [.id "count", .id "step"]), .jump "loop"]⟩]

def countingContext : Context :=
  ⟨[⟨"one", .int, .num 1⟩, ⟨"step", .int, .num 0⟩], [⟨"count", .int⟩], NameSet.ofList ["step"]⟩

theorem constants_keep_meaning_counting :
    EndsLast countingBody ∧ (∀ v ∈ countingContext.decls, v.value.isId = false) ∧
      Machine.ofLiterals.Starts countingContext
        (fun name => if name = "one" then .num 1 else .num 0) ∧
      ∃ fuel body', simplify Constants fuel "counting" countingContext countingBody = .ok body' ∧
        ∀ steps, Machine.ofLiterals.after countingContext body'
            (fun name => if name = "one" then .num 1 else .num 0) steps =
          Machine.ofLiterals.after countingContext countingBody
            (fun name => if name = "one" then .num 1 else .num 0) steps := by
  have hends : EndsLast countingBody := by decide
  have hliterals : ∀ v ∈ countingContext.decls, v.value.isId = false := by decide
  have hstart : Machine.ofLiterals.Starts countingContext
      (fun name => if name = "one" then .num 1 else .num 0) := by
    intro name v hparam hlast
    have hmem : v ∈ countingContext.decls :=
      List.mem_reverse.1 (List.mem_of_find?_eq_some hlast)
    obtain rfl : v.name = name := by simpa using List.find?_some hlast
    simp only [countingContext, List.mem_cons, List.not_mem_nil, or_false] at hmem
    rcases hmem with rfl | rfl <;> rfl
  obtain ⟨hreturns, hequal⟩ := constants_keep_meaning Machine.ofLiterals "counting"
    countingContext countingBody _ hends hliterals hstart
  obtain ⟨fuel, body', hbody'⟩ := hreturns rfl
  exact ⟨hends, hliterals, hstart, fuel, body', hbody', hequal fuel body' hbody'⟩

end Midend.Constants
