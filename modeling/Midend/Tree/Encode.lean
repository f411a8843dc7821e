import Midend.Tree.Basic
/-!
# Typed trees as JSON

Every node is an object with all its fields, those with default values included.  A variant has its
name under `tag`; integers are strings of decimal digits, so that they may have any size.
-/

namespace Midend.Tree

namespace Expr

def node (note : Note) (tag : String) (fields : List (String × Json)) : Json :=
  .obj (("tag", .str tag) :: fields ++ [("ty", note.ty.encode), ("loc", note.loc.encode)])

mutual
def encode : Expr → Json
  | literal n value => node n "literal" [("value", value.encode)]
  | id n name => node n "id" [("name", .str name)]
  | binary n op left right =>
    node n "binop" [("op", op.encode), ("left", left.encode), ("right", right.encode)]
  | unary n op operand => node n "uniop" [("op", op.encode), ("expr", operand.encode)]
  | builtin1 n name arg => node n "builtin1" [("name", .str name), ("arg", arg.encode)]
  | builtin2 n name left right =>
    node n "builtin2" [("name", .str name), ("left", left.encode), ("right", right.encode)]
  | call n callee args => node n "call" [("callee", callee.encode), ("args", .arr (encodes args))]
  | lookup n obj field => node n "lookup" [("obj", obj.encode), ("field", .str field)]
  | methodCall n obj method args =>
    node n "method-call"
      [("obj", obj.encode), ("method", .str method), ("args", .arr (encodes args))]
  | construct n name => node n "construct" [("name", .str name)]
  | listComp n item elem iterable cond =>
    node n "list-comp"
      [("left", item.encode), ("elem", .str elem), ("iterable", iterable.encode),
        ("cond", encodeOption cond)]
  | ifExpr n cond onTrue onFalse =>
    node n "if-expr" [("cond", cond.encode), ("then", onTrue.encode), ("els", onFalse.encode)]
  | lambda n params body =>
    node n "lambda" [("params", .arr (params.map Json.str)), ("body", body.encode)]

def encodes : List Expr → List Json
  | [] => []
  | e :: es => e.encode :: encodes es

def encodeOption : Option Expr → Json
  | none => .null
  | some e => e.encode
end

end Expr

namespace Stmt

def node (loc : Location) (tag : String) (fields : List (String × Json)) : Json :=
  .obj (("tag", .str tag) :: fields ++ [("loc", loc.encode)])

mutual
def encode : Stmt → Json
  | assign l name value => node l "assign" [("name", .str name), ("value", value.encode)]
  | ret l value => node l "return" [("value", value.encode)]
  | expr l e => node l "expr" [("expr", e.encode)]
  | pass l => node l "pass" []
  | continueLoop l => node l "continue" []
  | breakLoop l => node l "break" []
  | fieldAssign l obj field value =>
    node l "field-assign" [("obj", obj.encode), ("field", .str field), ("value", value.encode)]
  | ifElse l cond onTrue onFalse =>
    node l "if"
      [("cond", cond.encode), ("then", .arr (encodes onTrue)), ("els", .arr (encodes onFalse))]
  | whileLoop l cond body => node l "while" [("cond", cond.encode), ("body", .arr (encodes body))]
  | forLoop l elem iterable body =>
    node l "for"
      [("iterator", .str elem), ("iterable", iterable.encode), ("body", .arr (encodes body))]

def encodes : List Stmt → List Json
  | [] => []
  | s :: ss => s.encode :: encodes ss
end

end Stmt

namespace Decl

def encode (v : Decl) : Json :=
  .obj [("name", .str v.name), ("ty", v.ty.encode), ("value", v.value.encode)]

end Decl

namespace Function

mutual
def encode : Function → Json
  | ⟨name, params, ret, decls, body, children, loc⟩ =>
    .obj [("name", .str name), ("params", .arr (params.map Parameter.encode)), ("ret", ret.encode),
      ("inits", .arr (decls.map Decl.encode)), ("body", .arr (Stmt.encodes body)),
      ("children", .arr (encodes children)), ("loc", loc.encode)]

def encodes : List Function → List Json
  | [] => []
  | f :: fs => f.encode :: encodes fs
end

end Function

namespace Class

def encode (c : Class) : Json :=
  .obj [("name", .str c.name), ("fields", .arr (c.fields.map Decl.encode)),
    ("methods", .arr (Function.encodes c.methods))]

end Class

namespace Program

def encode (p : Program) : Json :=
  .obj [("funs", .arr (Function.encodes p.functions)), ("inits", .arr (p.decls.map Decl.encode)),
    ("classes", .arr (p.classes.map Class.encode)), ("stmts", .arr (Stmt.encodes p.stmts))]

end Program

end Midend.Tree
