import Midend.Flow.Basic
/-!
# Operands

Passing every operand that an expression or a statement reads through a function, from left to
right.  The variable that an assignment writes is no operand.
-/

namespace Midend.Flow

namespace Expr

def mapM {m : Type → Type} [Monad m] (f : Value → m Value) : Expr → m Expr
  | value v => do return value (← f v)
  | binary op left right => do return binary op (← f left) (← f right)
  | unary op operand => do return unary op (← f operand)
  | builtin1 name arg => do return builtin1 name (← f arg)
  | builtin2 name left right => do return builtin2 name (← f left) (← f right)
  | call name args => do return call name (← args.mapM f)
  | callIndirect callee args => do return callIndirect (← f callee) (← args.mapM f)
  | alloc amount refFields => return alloc amount refFields
  | load start offset => do return load (← f start) offset

def map (f : Value → Value) : Expr → Expr
  | value v => value (f v)
  | binary op left right => binary op (f left) (f right)
  | unary op operand => unary op (f operand)
  | builtin1 name arg => builtin1 name (f arg)
  | builtin2 name left right => builtin2 name (f left) (f right)
  | call name args => call name (args.map f)
  | callIndirect callee args => callIndirect (f callee) (args.map f)
  | alloc amount refFields => alloc amount refFields
  | load start offset => load (f start) offset

theorem mapM_pure {m : Type → Type} [Monad m] [LawfulMonad m] (f : Value → Value) (e : Expr) :
    e.mapM (fun v => (pure (f v) : m Value)) = pure (e.map f) := by
  cases e <;> simp [mapM, map]

theorem map_map (f f' : Value → Value) (e : Expr) : (e.map f).map f' = e.map (f' ∘ f) := by
  cases e <;> simp [map]

theorem isCall_map (f : Value → Value) (e : Expr) : (e.map f).isCall = e.isCall := by
  cases e <;> rfl

end Expr

namespace Stmt

def mapM {m : Type → Type} [Monad m] (f : Value → m Value) : Stmt → m Stmt
  | assign name value => do return assign name (← value.mapM f)
  | ret value => do return ret (← f value)
  | expr e => do return expr (← e.mapM f)
  | branch cond onTrue onFalse => do return branch (← f cond) onTrue onFalse
  | jump target => return jump target
  | store start offset value => do return store (← f start) offset (← f value)

def map (f : Value → Value) : Stmt → Stmt
  | assign name value => assign name (value.map f)
  | ret value => ret (f value)
  | expr e => expr (e.map f)
  | branch cond onTrue onFalse => branch (f cond) onTrue onFalse
  | jump target => jump target
  | store start offset value => store (f start) offset (f value)

theorem mapM_pure {m : Type → Type} [Monad m] [LawfulMonad m] (f : Value → Value) (s : Stmt) :
    s.mapM (fun v => (pure (f v) : m Value)) = pure (s.map f) := by
  cases s <;> simp [mapM, map, Expr.mapM_pure]

theorem map_map (f f' : Value → Value) (s : Stmt) : (s.map f).map f' = s.map (f' ∘ f) := by
  cases s <;> simp [map, Expr.map_map]

/-- Numbers the operands from 1: the `k`-th becomes `name@k` if it is the variable `name`, and the
word `k` if it is not a variable. -/
def numberOperands (s : Stmt) : Stmt :=
  (s.mapM number |>.run 0).1
where
  number (v : Value) : StateM Nat Value := do
    let k := (← get) + 1
    set k
    return match v with
      | .id name => .id (name ++ "@" ++ Decimal.natural k)
      | _ => .word (UInt32.ofNat k)

end Stmt

end Midend.Flow
