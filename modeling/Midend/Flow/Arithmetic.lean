import Midend.Fault
import Midend.Flow.Display
/-!
# Operators on literals

The value of an operator on literals.  Integers are unbounded, division goes to the floor, and a
remainder has the sign of its divisor.  What has no value here is left for the running program: in
particular a division by zero, which a guard reports there.  `applies` says where there is a value,
and `isSome_value?` that the two agree.
-/

namespace Midend

open Midend.Flow (Value)

namespace BinOp

/-- Whether `left op right` has a value before the program runs. -/
def applies (op : BinOp) (left right : Value) : Bool :=
  match op, left, right with
  | .plus, .num _, .num _ | .minus, .num _, .num _ | .mul, .num _, .num _ => true
  | .lt, .num _, .num _ | .lte, .num _, .num _ | .gt, .num _, .num _ | .gte, .num _, .num _ => true
  | .idiv, .num _, .num d | .mod, .num _, .num d => d ≠ 0
  | .eq, .num _, .num _ | .neq, .num _, .num _ => true
  | .eq, .bool _, .bool _ | .neq, .bool _, .bool _ => true
  | .and, .bool _, .bool _ | .or, .bool _, .bool _ => true
  | .is, .none, .none => true
  | _, _, _ => false

def onInts? (op : BinOp) (a b : Int) : Option Value :=
  match op with
  | .plus => some (.num (a + b))
  | .minus => some (.num (a - b))
  | .mul => some (.num (a * b))
  | .idiv => if b = 0 then none else some (.num (a.fdiv b))
  | .mod => if b = 0 then none else some (.num (a.fmod b))
  | .lt => some (.bool (a < b))
  | .lte => some (.bool (a ≤ b))
  | .gt => some (.bool (b < a))
  | .gte => some (.bool (b ≤ a))
  | .eq => some (.bool (a = b))
  | .neq => some (.bool (a ≠ b))
  | _ => none

def onBools? (op : BinOp) (a b : Bool) : Option Value :=
  match op with
  | .eq => some (.bool (a = b))
  | .neq => some (.bool (a ≠ b))
  | .and => some (.bool (a && b))
  | .or => some (.bool (a || b))
  | _ => none

def value? (op : BinOp) (left right : Value) : Option Value :=
  match left, right with
  | .num a, .num b => op.onInts? a b
  | .bool a, .bool b => op.onBools? a b
  | .none, .none => if op = .is then some (.bool true) else none
  | _, _ => none

def value (op : BinOp) (left right : Value) : Except Fault Value :=
  match op.value? left right with
  | some v => .ok v
  | none => .error (.noValue op.symbol left.display right.display)

theorem isSome_value? (op : BinOp) (left right : Value) :
    (op.value? left right).isSome = op.applies left right := by
  cases op <;> cases left <;> cases right <;>
    simp [value?, onInts?, onBools?, applies] <;> split <;> simp_all

theorem isId_of_value? {op : BinOp} {left right v : Value} (h : op.value? left right = some v) :
    v.isId = false := by
  unfold value? at h
  split at h
  · unfold onInts? at h
    split at h <;> (try split at h) <;> cases h <;> rfl
  · unfold onBools? at h
    split at h <;> cases h <;> rfl
  · split at h <;> cases h
    rfl
  · cases h

theorem value?_of_isId_left {op : BinOp} {left right : Value} (h : left.isId = true) :
    op.value? left right = none := by
  cases left <;> first | rfl | exact nomatch h

theorem value?_of_isId_right {op : BinOp} {left right : Value} (h : right.isId = true) :
    op.value? left right = none := by
  cases right <;> first | (cases left <;> rfl) | exact nomatch h

theorem isId_operands_of_value? {op : BinOp} {left right v : Value}
    (h : op.value? left right = some v) : left.isId = false ∧ right.isId = false := by
  constructor
  · refine Bool.eq_false_iff.2 fun hid => ?_
    rw [value?_of_isId_left hid] at h
    exact nomatch h
  · refine Bool.eq_false_iff.2 fun hid => ?_
    rw [value?_of_isId_right hid] at h
    exact nomatch h

end BinOp

namespace UniOp

def applies (op : UniOp) (operand : Value) : Bool :=
  match op, operand with
  | .neg, .num _ | .not, .bool _ => true
  | _, _ => false

def value? (op : UniOp) (operand : Value) : Option Value :=
  match op, operand with
  | .neg, .num n => some (.num (-n))
  | .not, .bool b => some (.bool !b)
  | _, _ => none

def value (op : UniOp) (operand : Value) : Except Fault Value :=
  match op.value? operand with
  | some v => .ok v
  | none => .error (.noValue op.symbol "" operand.display)

theorem isSome_value? (op : UniOp) (operand : Value) :
    (op.value? operand).isSome = op.applies operand := by
  cases op <;> cases operand <;> rfl

theorem isId_of_value? {op : UniOp} {operand v : Value} (h : op.value? operand = some v) :
    v.isId = false := by
  cases op <;> cases operand <;> cases h <;> rfl

theorem value?_of_isId {op : UniOp} {operand : Value} (h : operand.isId = true) :
    op.value? operand = none := by
  cases operand <;> first | (cases op <;> rfl) | exact nomatch h

theorem isId_operand_of_value? {op : UniOp} {operand v : Value}
    (h : op.value? operand = some v) : operand.isId = false := by
  refine Bool.eq_false_iff.2 fun hid => ?_
  rw [value?_of_isId hid] at h
  exact nomatch h

end UniOp

end Midend
