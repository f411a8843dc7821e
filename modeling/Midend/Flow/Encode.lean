import Midend.Flow.Basic
/-!
# Block programs as JSON
-/

namespace Midend.Flow

namespace Value

def encode : Value → Json
  | num n => .obj [("tag", .str "num"), ("value", .str (Decimal.render n))]
  | bool b => .obj [("tag", .str "bool"), ("value", .bool b)]
  | none => .obj [("tag", .str "none")]
  | id name => .obj [("tag", .str "id"), ("value", .str name)]
  | word w => .obj [("tag", .str "word"), ("value", .ofWord w)]

end Value

namespace Expr

def node (tag : String) (fields : List (String × Json)) : Json := .obj (("tag", .str tag) :: fields)

def encode : Expr → Json
  | value v => node "value" [("value", v.encode)]
  | binary op left right =>
    node "binary" [("op", op.encode), ("left", left.encode), ("right", right.encode)]
  | unary op operand => node "unary" [("op", op.encode), ("operand", operand.encode)]
  | builtin1 name arg => node "builtin1" [("name", .str name), ("arg", arg.encode)]
  | builtin2 name left right =>
    node "builtin2" [("name", .str name), ("left", left.encode), ("right", right.encode)]
  | call name args => node "call" [("name", .str name), ("args", .arr (args.map Value.encode))]
  | callIndirect callee args =>
    node "call-indirect" [("callee", callee.encode), ("args", .arr (args.map Value.encode))]
  | alloc amount refFields =>
    node "alloc" [("amount", .ofNat amount), ("ref_fields", .ofWord refFields)]
  | load start offset => node "load" [("start", start.encode), ("offset", .ofNat offset)]

end Expr

namespace Stmt

def encode : Stmt → Json
  | assign name value => Expr.node "assign" [("name", .str name), ("value", value.encode)]
  | ret value => Expr.node "return" [("value", value.encode)]
  | expr e => Expr.node "expr" [("expr", e.encode)]
  | branch cond onTrue onFalse =>
    Expr.node "if-jmp" [("cond", cond.encode), ("then", .str onTrue), ("els", .str onFalse)]
  | jump target => Expr.node "jmp" [("target", .str target)]
  | store start offset value =>
    Expr.node "store" [("start", start.encode), ("offset", .ofNat offset), ("value", value.encode)]

end Stmt

namespace Block

def encode (b : Block) : Json :=
  .obj [("label", .str b.label), ("stmts", .arr (b.stmts.map Stmt.encode))]

end Block

namespace Decl

def encode (v : Decl) : Json :=
  .obj [("name", .str v.name), ("ty", v.ty.encode), ("value", v.value.encode)]

end Decl

namespace Method

def encode (m : Method) : Json :=
  .obj [("name", .str m.name), ("params", .arr (m.params.map Parameter.encode)),
    ("ret", m.ret.encode), ("inits", .arr (m.decls.map Decl.encode)),
    ("body", .arr (m.body.map Block.encode))]

end Method

namespace Class

def encode (c : Class) : Json :=
  .obj [("name", .str c.name), ("fields", .arr (c.fields.map Decl.encode)),
    ("methods", .arr (c.methods.map Method.encode))]

end Class

namespace Program

def encode (p : Program) : Json :=
  .obj [("inits", .arr (p.decls.map Decl.encode)), ("classes", .arr (p.classes.map Class.encode)),
    ("body", .arr (p.body.map Block.encode))]

end Program

end Midend.Flow
