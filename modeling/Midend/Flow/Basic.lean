import Midend.Literal
import Midend.Operator
import Midend.Ty
import Midend.Name.Derived
/-!
# Block programs

The flat form of a program.  A body is a list of labelled blocks, a block a list of statements, and
every operand of a statement is a `Value`: a literal, a variable or a machine word.  Functions are
methods of classes, under their names outside the class.
-/

namespace Midend.Flow

abbrev Label := String

inductive Value where
  | num (n : Int)
  | bool (b : Bool)
  | none
  | id (name : String)
  /-- A machine word: a dispatch slot, or the row or column that a guard reports. -/
  | word (w : UInt32)
deriving DecidableEq, Repr, Inhabited

/-- The right-hand side of an assignment: at most one operation on values. -/
inductive Expr where
  | value (v : Value)
  | binary (op : BinOp) (left right : Value)
  | unary (op : UniOp) (operand : Value)
  | builtin1 (name : String) (arg : Value)
  | builtin2 (name : String) (left right : Value)
  /-- A call of a guard, or of a method under its name outside the class. -/
  | call (name : String) (args : List Value)
  /-- A call through the dispatch slot in the first word of `callee`, which is also the receiver. -/
  | callIndirect (callee : Value) (args : List Value)
  /-- A new object of `amount` words; bit `i` of `refFields` says that word `i` is a reference.
  Amounts and offsets are words of 32 bits, as long as no class has `2 ^ 32 - 1` fields. -/
  | alloc (amount : Nat) (refFields : UInt32)
  | load (start : Value) (offset : Nat)
deriving DecidableEq, Repr, Inhabited

inductive Stmt where
  | assign (name : String) (value : Expr)
  | ret (value : Value)
  | expr (e : Expr)
  | branch (cond : Value) (onTrue onFalse : Label)
  | jump (target : Label)
  | store (start : Value) (offset : Nat) (value : Value)
deriving DecidableEq, Repr, Inhabited

structure Block where
  label : Label
  stmts : List Stmt
deriving DecidableEq, Repr, Inhabited

structure Decl where
  name : String
  ty : Ty
  value : Value
deriving Repr, Inhabited

structure Method where
  name : String
  params : List Parameter
  ret : Ty
  decls : List Decl
  body : List Block
deriving Repr, Inhabited

structure Class where
  name : String
  fields : List Decl
  methods : List Method
deriving Repr, Inhabited

structure Program where
  decls : List Decl
  classes : List Class
  body : List Block
deriving Repr, Inhabited

namespace Value

def ofLiteral : Literal → Value
  | .num n => num n
  | .bool b => bool b
  | .none => none

def id? : Value → Option String
  | id name => some name
  | _ => Option.none

def isId (v : Value) : Bool := v.id?.isSome

end Value

namespace Expr

/-- Whether the expression runs code that is not in sight. -/
def isCall : Expr → Bool
  | call _ _ | callIndirect _ _ => true
  | _ => false

end Expr

namespace Stmt

/-- Whether control never reaches the next statement. -/
def endsBlock : Stmt → Bool
  | ret _ | branch _ _ _ | jump _ => true
  | _ => false

def targets : Stmt → List Label
  | branch _ onTrue onFalse => if onTrue = onFalse then [onTrue] else [onTrue, onFalse]
  | jump target => [target]
  | _ => []

def hasCall : Stmt → Bool
  | assign _ e | expr e => e.isCall
  | _ => false

end Stmt

namespace Block

/-- Whether control leaves the block at its last statement. -/
def isClosed (b : Block) : Bool := b.stmts.getLast?.any Stmt.endsBlock

def successors (b : Block) : List Label := (b.stmts.getLast?.map Stmt.targets).getD []

end Block

namespace Class

def method? (c : Class) (name : String) : Option Method :=
  c.methods.find? fun m => m.name = methodName c.name name

end Class

namespace Program

def empty : Program := ⟨[], [], []⟩

def class? (p : Program) (name : String) : Option Class := p.classes.find? fun c => c.name = name

/-- The name under which the top-level body is reported. -/
def topLevel : String := "<top level>"

/-- Every body with the name under which it is reported: the top level, then each method. -/
def bodies (p : Program) : List (String × List Block) :=
  (topLevel, p.body) :: (p.classes.flatMap (·.methods)).map fun m => (m.name, m.body)

end Program

end Midend.Flow
