import Midend.Literal
import Midend.Location
import Midend.Operator
import Midend.Ty
/-!
# Typed trees

A program after type checking.  Every expression carries its type and its position, every statement
and every function its position; both are trusted.
-/

namespace Midend.Tree

structure Note where
  ty : Ty
  loc : Location
deriving Repr, Inhabited

inductive Expr where
  | literal (note : Note) (value : Literal)
  | id (note : Note) (name : String)
  | binary (note : Note) (op : BinOp) (left right : Expr)
  | unary (note : Note) (op : UniOp) (operand : Expr)
  | builtin1 (note : Note) (name : String) (arg : Expr)
  | builtin2 (note : Note) (name : String) (left right : Expr)
  /-- A call of a callable value. -/
  | call (note : Note) (callee : Expr) (args : List Expr)
  | lookup (note : Note) (obj : Expr) (field : String)
  | methodCall (note : Note) (obj : Expr) (method : String) (args : List Expr)
  | construct (note : Note) (className : String)
  /-- The comprehension `[item for elem in iterable if cond]`. -/
  | listComp (note : Note) (item : Expr) (elem : String) (iterable : Expr) (cond : Option Expr)
  | ifExpr (note : Note) (cond onTrue onFalse : Expr)
  /-- A lambda; the types of its parameters are in its own type. -/
  | lambda (note : Note) (params : List String) (body : Expr)
deriving Repr, Inhabited

inductive Stmt where
  | assign (loc : Location) (name : String) (value : Expr)
  | ret (loc : Location) (value : Expr)
  | expr (loc : Location) (e : Expr)
  | pass (loc : Location)
  | continueLoop (loc : Location)
  | breakLoop (loc : Location)
  | fieldAssign (loc : Location) (obj : Expr) (field : String) (value : Expr)
  | ifElse (loc : Location) (cond : Expr) (onTrue onFalse : List Stmt)
  | whileLoop (loc : Location) (cond : Expr) (body : List Stmt)
  | forLoop (loc : Location) (elem : String) (iterable : Expr) (body : List Stmt)
deriving Repr, Inhabited

structure Decl where
  name : String
  ty : Ty
  value : Literal
deriving Repr, Inhabited

structure Function where
  name : String
  params : List Parameter
  ret : Ty
  decls : List Decl
  body : List Stmt
  children : List Function
  loc : Location
deriving Repr, Inhabited

structure Class where
  name : String
  fields : List Decl
  methods : List Function
deriving Repr, Inhabited

structure Program where
  functions : List Function
  decls : List Decl
  classes : List Class
  stmts : List Stmt
deriving Repr, Inhabited

namespace Expr

def note : Expr → Note
  | literal n _ | id n _ | binary n _ _ _ | unary n _ _ | builtin1 n _ _ | builtin2 n _ _ _
  | call n _ _ | lookup n _ _ | methodCall n _ _ _ | construct n _ | listComp n _ _ _ _
  | ifExpr n _ _ _ | lambda n _ _ => n

def ty (e : Expr) : Ty := e.note.ty

def loc (e : Expr) : Location := e.note.loc

/-- Whether the expression is a value as it stands. -/
def isAtomic : Expr → Bool
  | literal _ _ | id _ _ => true
  | _ => false

end Expr

namespace Stmt

def loc : Stmt → Location
  | assign l _ _ | ret l _ | expr l _ | pass l | continueLoop l | breakLoop l | fieldAssign l _ _ _
  | ifElse l _ _ _ | whileLoop l _ _ | forLoop l _ _ _ => l

end Stmt

end Midend.Tree
