import Midend.Flow.Basic
import Midend.Text.Binary
/-!
# Display of block programs

The written form of a block program: one statement a line, blocks under their labels.
-/

namespace Midend.Flow

namespace Value

def display : Value → String
  | num n => Decimal.render n
  | bool true => "True"
  | bool false => "False"
  | none => "None"
  | id name => name
  | word w => "#" ++ Decimal.natural w.toNat

end Value

def displayArgs (args : List Value) : String := ", ".intercalate (args.map Value.display)

namespace Expr

def display : Expr → String
  | value v => v.display
  | binary op left right => left.display ++ " " ++ op.symbol ++ " " ++ right.display
  | unary op operand => op.lead ++ operand.display
  | builtin1 name arg => name ++ "(" ++ arg.display ++ ")"
  | builtin2 name left right => name ++ "(" ++ left.display ++ ", " ++ right.display ++ ")"
  | call name args => name ++ "(" ++ displayArgs args ++ ")"
  | callIndirect callee args => "call_indirect " ++ callee.display ++ "(" ++ displayArgs args ++ ")"
  | alloc amount refFields =>
    "alloc " ++ Decimal.natural amount ++ " refs=" ++ Binary.render refFields
  | load start offset => "load " ++ start.display ++ "[" ++ Decimal.natural offset ++ "]"

end Expr

namespace Stmt

def display : Stmt → String
  | assign name value => name ++ " = " ++ value.display
  | ret value => "return " ++ value.display
  | expr e => e.display
  | branch cond onTrue onFalse =>
    "if " ++ cond.display ++ " goto " ++ onTrue ++ " else goto " ++ onFalse
  | jump target => "goto " ++ target
  | store start offset value =>
    "store " ++ start.display ++ "[" ++ Decimal.natural offset ++ "] = " ++ value.display

end Stmt

namespace Block

def display (b : Block) : String :=
  b.label ++ ":\n" ++ String.join (b.stmts.map fun s => "    " ++ s.display ++ "\n")

end Block

namespace Decl

def display (v : Decl) : String := v.name ++ ": " ++ v.ty.display ++ " = " ++ v.value.display

end Decl

namespace Method

def display (m : Method) : String :=
  "def " ++ m.name ++ "(" ++
    ", ".intercalate (m.params.map fun p => p.name ++ ": " ++ p.ty.display) ++
    ") -> " ++ m.ret.display ++ ":\n" ++
    String.join (m.decls.map fun v => "  " ++ v.display ++ "\n") ++
    String.join (m.body.map fun b => "  " ++ b.display)

end Method

namespace Class

def display (c : Class) : String :=
  "class " ++ c.name ++ ":\n" ++
    String.join (c.fields.map fun v => "  " ++ v.display ++ "\n") ++
    String.join (c.methods.map fun m => "  " ++ m.display)

end Class

namespace Program

def display (p : Program) : String :=
  String.join (p.decls.map fun v => v.display ++ "\n") ++
    String.join (p.classes.map Class.display) ++
    String.join (p.body.map Block.display)

end Program

end Midend.Flow
