import Midend.Name.Supply
import Midend.Proofs.Activity
import Midend.Proofs.Linear.Names
import Midend.Proofs.Meaning.Machine
import Midend.Tree.Basic
/-!
# Structured execution

What statements and expressions of a typed tree mean before they are flattened: operands are
evaluated strictly from left to right, loops go round at most a given number of times.
Operators are those of a machine.  Builtins are an oracle that sees the calls so far and
assigns no variable.

This is said of the part of the language that needs no objects (`Structured`).
-/

namespace Midend.Tree

open Midend.Flow (Machine Request Store)

abbrev Calls (V : Type) := List (Request V)

/-- The result of the latest of some calls, if it has one. -/
abbrev Oracle (V : Type) := Calls V → Option V

inductive Halt where
  /-- A divisor is 0. -/
  | dividedByZero
  /-- An operator or a builtin has no result. -/
  | failed
deriving DecidableEq

abbrev Eval (V : Type) := ExceptT Halt (StateM (Calls V))

structure State (V : Type) where
  store : Store V
  calls : Calls V

inductive Exit (V : Type) where
  | next
  | breaks
  | continues
  | returned (value : V)
  | halted (why : Halt)
  /-- Some loop went round as often as it may. -/
  | unfinished

variable {V : Type}

def orFail (result : Option V) : Eval V V :=
  match result with
  | some v => pure v
  | none => throw .failed

def ask (oracle : Oracle V) (call : Request V) : Eval V V := do
  modify (call :: ·)
  orFail (oracle (← get))

section Execution

variable [DecidableEq V] (m : Machine V) (oracle : Oracle V)

def divide (op : BinOp) (divisor : V) : Eval V Unit :=
  if (op = .idiv ∨ op = .mod) ∧ divisor = m.literal (.num 0) then throw .dividedByZero
  else pure ()

def eval (σ : Store V) : Expr → Eval V V
  | .literal _ value => pure (m.literal (Flow.Value.ofLiteral value))
  | .id _ name => pure (σ name)
  | .binary _ op left right => do
    let a ← eval σ left
    let b ← eval σ right
    divide m op b
    orFail (m.binary op a b)
  | .unary _ op operand => do
    let a ← eval σ operand
    orFail (m.unary op a)
  | .builtin1 _ name arg => do
    let a ← eval σ arg
    ask oracle (.builtin1 name a)
  | .builtin2 _ name left right => do
    let a ← eval σ left
    let b ← eval σ right
    ask oracle (.builtin2 name a b)
  | .ifExpr _ cond onTrue onFalse => do
    let c ← eval σ cond
    if m.isTrue c then eval σ onTrue else eval σ onFalse
  | _ => throw .failed

def withValue (e : Expr) (st : State V) (next : V → State V → Exit V × State V) :
    Exit V × State V :=
  match runOn (eval m oracle st.store e) st.calls with
  | (.ok v, calls) => next v ⟨st.store, calls⟩
  | (.error why, calls) => (.halted why, ⟨st.store, calls⟩)

def andThen (result : Exit V × State V) (next : State V → Exit V × State V) :
    Exit V × State V :=
  match result with
  | (.next, st) => next st
  | (exit, st) => (exit, st)

def afterTurn (result : Exit V × State V) (again : State V → Exit V × State V) :
    Exit V × State V :=
  match result with
  | (.next, st) | (.continues, st) => again st
  | (.breaks, st) => (.next, st)
  | (exit, st) => (exit, st)

def loop (cond : Expr) (body : State V → Exit V × State V) : Nat → State V → Exit V × State V
  | 0, st => (.unfinished, st)
  | turns + 1, st => withValue m oracle cond st fun v st =>
    if m.isTrue v then afterTurn (body st) (loop cond body turns) else (.next, st)

mutual
def exec (turns : Nat) (inLoop : Bool) : Stmt → State V → Exit V × State V
  | .assign _ name value, st => withValue m oracle value st fun v st =>
    (.next, { st with store := Function.update st.store name v })
  | .ret _ value, st => withValue m oracle value st fun v st => (.returned v, st)
  | .expr _ e, st => withValue m oracle e st fun _ st => (.next, st)
  | .pass _, st => (.next, st)
  | .continueLoop _, st => (if inLoop then .continues else .next, st)
  | .breakLoop _, st => (if inLoop then .breaks else .next, st)
  | .ifElse _ cond onTrue onFalse, st => withValue m oracle cond st fun v st =>
    if m.isTrue v then execAll turns inLoop onTrue st else execAll turns inLoop onFalse st
  | .whileLoop _ cond body, st => loop m oracle cond (execAll turns true body) turns st
  | _, st => (.halted .failed, st)

def execAll (turns : Nat) (inLoop : Bool) : List Stmt → State V → Exit V × State V
  | [], st => (.next, st)
  | s :: ss, st => andThen (exec turns inLoop s st) (execAll turns inLoop ss)
end

end Execution

/-! ## The bound on turns

Execution that comes to an end within the bound is the same under every larger one. -/

section Bound

variable {result result' : Exit V × State V}

theorem andThen_mono {next next' : State V → Exit V × State V}
    (hresult : result.1 ≠ .unfinished → result' = result)
    (hnext : ∀ st, (next st).1 ≠ .unfinished → next' st = next st)
    (h : (andThen result next).1 ≠ .unfinished) : andThen result' next' = andThen result next := by
  obtain ⟨exit, st⟩ := result
  cases exit with
  | unfinished => exact absurd rfl h
  | next =>
      rw [hresult nofun]
      exact hnext st h
  | _ =>
      rw [hresult nofun]
      rfl

theorem afterTurn_mono {again again' : State V → Exit V × State V}
    (hresult : result.1 ≠ .unfinished → result' = result)
    (hagain : ∀ st, (again st).1 ≠ .unfinished → again' st = again st)
    (h : (afterTurn result again).1 ≠ .unfinished) :
    afterTurn result' again' = afterTurn result again := by
  obtain ⟨exit, st⟩ := result
  cases exit with
  | unfinished => exact absurd rfl h
  | next | continues =>
      rw [hresult nofun]
      exact hagain st h
  | _ =>
      rw [hresult nofun]
      rfl

variable [DecidableEq V] {m : Machine V} {oracle : Oracle V} {e : Expr} {st : State V}
  {turns turns' : Nat}

theorem withValue_mono {next next' : V → State V → Exit V × State V}
    (hnext : ∀ v st, (next v st).1 ≠ .unfinished → next' v st = next v st)
    (h : (withValue m oracle e st next).1 ≠ .unfinished) :
    withValue m oracle e st next' = withValue m oracle e st next := by
  unfold withValue at h ⊢
  cases heval : runOn (eval m oracle st.store e) st.calls with
  | mk ended calls =>
      rw [heval] at h
      cases ended with
      | ok v => exact hnext v _ h
      | error why => rfl

theorem loop_mono {body body' : State V → Exit V × State V} (hle : turns ≤ turns')
    (hbody : ∀ st, (body st).1 ≠ .unfinished → body' st = body st)
    (h : (loop m oracle e body turns st).1 ≠ .unfinished) :
    loop m oracle e body' turns' st = loop m oracle e body turns st := by
  induction turns generalizing turns' st with
  | zero => exact absurd rfl h
  | succ turns ih =>
      obtain ⟨turns', rfl⟩ : ∃ n, turns' = n + 1 := Nat.exists_eq_add_one.2 (by omega)
      refine withValue_mono (fun v st hnext => ?_) h
      by_cases htrue : m.isTrue v = true
      · rw [if_pos htrue] at hnext ⊢
        rw [if_pos htrue]
        exact afterTurn_mono (hbody st) (fun st hagain => ih (by omega) hagain) hnext
      · rw [if_neg htrue, if_neg htrue]

mutual
theorem exec_mono (hle : turns ≤ turns') (inLoop : Bool) (source : Stmt) (st : State V)
    (h : (exec m oracle turns inLoop source st).1 ≠ .unfinished) :
    exec m oracle turns' inLoop source st = exec m oracle turns inLoop source st := by
  match source with
  | .ifElse loc cond onTrue onFalse =>
      rw [exec] at h
      rw [exec, exec]
      refine withValue_mono (fun v st hnext => ?_) h
      split
      · rename_i htrue
        rw [if_pos htrue] at hnext
        exact execAll_mono hle inLoop onTrue st hnext
      · rename_i hfalse
        rw [if_neg hfalse] at hnext
        exact execAll_mono hle inLoop onFalse st hnext
  | .whileLoop loc cond body =>
      rw [exec] at h
      rw [exec, exec]
      exact loop_mono hle (execAll_mono hle true body) h
  | .assign .. | .ret .. | .expr .. | .pass .. | .continueLoop .. | .breakLoop .. => rfl
  | .fieldAssign .. | .forLoop .. => rfl

theorem execAll_mono (hle : turns ≤ turns') (inLoop : Bool) (sources : List Stmt) (st : State V)
    (h : (execAll m oracle turns inLoop sources st).1 ≠ .unfinished) :
    execAll m oracle turns' inLoop sources st = execAll m oracle turns inLoop sources st := by
  match sources with
  | [] => rfl
  | source :: sources =>
      rw [execAll] at h
      rw [execAll, execAll]
      exact andThen_mono (exec_mono hle inLoop source st)
        (execAll_mono hle inLoop sources) h
end

end Bound

/-! ## Builtins as the partner of a run -/

def isBuiltin : Request V → Bool
  | .builtin1 _ _ | .builtin2 _ _ _ => true
  | _ => false

def builtinCalls (history : Flow.History V) : Calls V :=
  (history.map (·.1)).filter isBuiltin

def Aborts (m : Machine V) : Request V → Prop
  | .call name args => name = "$check_zero" ∧ args.head? = some (m.literal (.num 0))
  | _ => False

instance [DecidableEq V] (m : Machine V) : (call : Request V) → Decidable (Aborts m call)
  | .call name args =>
    inferInstanceAs (Decidable (name = "$check_zero" ∧ args.head? = some (m.literal (.num 0))))
  | .builtin1 .. | .builtin2 .. | .callIndirect .. | .alloc .. | .load .. | .store .. =>
    .isFalse id

/-- Expressions without objects, in which no variable has the name of a temporary. -/
inductive Expr.Structured : Expr → Prop where
  | literal (n : Note) (value : Literal) : Structured (.literal n value)
  | id (n : Note) {name : String} (hname : ¬ NameSupply.IsTemporary name) :
      Structured (.id n name)
  | binary (n : Note) (op : BinOp) {left right : Expr} (hleft : Structured left)
      (hright : Structured right) : Structured (.binary n op left right)
  | unary (n : Note) (op : UniOp) {operand : Expr} (hoperand : Structured operand) :
      Structured (.unary n op operand)
  | builtin1 (n : Note) (name : String) {arg : Expr} (harg : Structured arg) :
      Structured (.builtin1 n name arg)
  | builtin2 (n : Note) (name : String) {left right : Expr} (hleft : Structured left)
      (hright : Structured right) : Structured (.builtin2 n name left right)
  | ifExpr (n : Note) {cond onTrue onFalse : Expr} (hcond : Structured cond)
      (htrue : Structured onTrue) (hfalse : Structured onFalse) :
      Structured (.ifExpr n cond onTrue onFalse)

inductive Stmt.Structured : Stmt → Prop where
  | assign (loc : Location) {name : String} {value : Expr}
      (hname : ¬ NameSupply.IsTemporary name) (hvalue : value.Structured) :
      Structured (.assign loc name value)
  | ret (loc : Location) {value : Expr} (hvalue : value.Structured) : Structured (.ret loc value)
  | expr (loc : Location) {e : Expr} (he : e.Structured) : Structured (.expr loc e)
  | pass (loc : Location) : Structured (.pass loc)
  | continueLoop (loc : Location) : Structured (.continueLoop loc)
  | breakLoop (loc : Location) : Structured (.breakLoop loc)
  | ifElse (loc : Location) {cond : Expr} {onTrue onFalse : List Stmt} (hcond : cond.Structured)
      (htrue : ∀ s ∈ onTrue, Structured s) (hfalse : ∀ s ∈ onFalse, Structured s) :
      Structured (.ifElse loc cond onTrue onFalse)
  | whileLoop (loc : Location) {cond : Expr} {body : List Stmt} (hcond : cond.Structured)
      (hbody : ∀ s ∈ body, Structured s) : Structured (.whileLoop loc cond body)

end Midend.Tree

namespace Midend.Flow.Machine

open Midend.Tree (Oracle isBuiltin builtinCalls Aborts)

/-- The machine whose partner answers calls of builtins by an oracle and stops the run at the
check of a divisor that is 0.  It writes no variable. -/
def withBuiltins {V : Type} [DecidableEq V] (m : Machine V) (oracle : Oracle V) :
    Machine V where
  __ := m
  answer history :=
    { result := match history with
        | [] => none
        | (call, _) :: _ =>
          if isBuiltin call then oracle (builtinCalls history)
          else if Aborts m call then none
          else some (m.literal .none)
      writes := fun _ => none }

end Midend.Flow.Machine
