import Midend.Tree.Basic
/-!
# Typed trees from JSON

Reading a typed tree.  A field that has a default may be missing, but one that is there has to be of
the right kind.  Declarations are records, so they may also be arrays of their fields; expressions
and statements are objects.  The tag of an expression or a statement, and all that is inside of one,
is spelled loosely.  The recursion is bounded by the depth of the value.
-/

namespace Midend.Tree

open Json (Record)

namespace Expr

def tags : List String :=
  ["literal", "id", "binop", "uniop", "builtin1", "builtin2", "call", "lookup", "method-call",
    "construct", "list-comp", "if-expr", "lambda"]

/-- Reads an expression nested at most to the given depth.  The spelling is that of its type. -/
def decodeTo : Nat → Json.Spelling → Json → Option Expr
  | 0, _, _ => none
  | depth + 1, spelling, j => do
    let fields ← j.fields?
    let r := Json.valuesOf fields
    let n : Note :=
      ⟨← r.required "ty" (Ty.decode spelling), ← r.withDefault "loc" .unknown Location.decode⟩
    let part (name : String) := r.required name (decodeTo depth .loose)
    let word (name : String) := r.required name Json.text?
    let args := r.withDefault "args" [] (Json.list? (decodeTo depth .loose))
    match ← r.required "tag" (Json.tag? tags .loose) with
    | "literal" => return literal n (← r.required "value" (Literal.decode .loose))
    | "id" => return id n (← word "name")
    | "binop" =>
      return binary n (← r.required "op" (BinOp.decode .loose)) (← part "left") (← part "right")
    | "uniop" => return unary n (← r.required "op" (UniOp.decode .loose)) (← part "expr")
    | "builtin1" => return builtin1 n (← word "name") (← part "arg")
    | "builtin2" => return builtin2 n (← word "name") (← part "left") (← part "right")
    | "call" => return call n (← part "callee") (← args)
    | "lookup" => return lookup n (← part "obj") (← word "field")
    | "method-call" => return methodCall n (← part "obj") (← word "method") (← args)
    | "construct" => return construct n (← word "name")
    | "list-comp" =>
      return listComp n (← part "left") (← word "elem") (← part "iterable")
        (← r.withDefault "cond" none (Json.optional? (decodeTo depth .loose)))
    | "if-expr" => return ifExpr n (← part "cond") (← part "then") (← part "els")
    | "lambda" =>
      return lambda n (← r.required "params" (Json.list? Json.text?)) (← part "body")
    | _ => none

def decode (spelling : Json.Spelling) (j : Json) : Option Expr := decodeTo j.depth spelling j

end Expr

namespace Stmt

def tags : List String :=
  ["assign", "return", "expr", "pass", "continue", "break", "field-assign", "if", "while", "for"]

def decodeTo : Nat → Json → Option Stmt
  | 0, _ => none
  | depth + 1, j => do
    let fields ← j.fields?
    let r := Json.valuesOf fields
    let l ← r.withDefault "loc" .unknown Location.decode
    let part (name : String) := r.required name (Expr.decode .loose)
    let word (name : String) := r.required name Json.text?
    let block (name : String) := r.withDefault name [] (Json.list? (decodeTo depth))
    match ← r.required "tag" (Json.tag? tags .loose) with
    | "assign" => return assign l (← word "name") (← part "value")
    | "return" => return ret l (← part "value")
    | "expr" => return expr l (← part "expr")
    | "pass" => return pass l
    | "continue" => return continueLoop l
    | "break" => return breakLoop l
    | "field-assign" => return fieldAssign l (← part "obj") (← word "field") (← part "value")
    | "if" => return ifElse l (← part "cond") (← block "then") (← block "els")
    | "while" => return whileLoop l (← part "cond") (← block "body")
    | "for" => return forLoop l (← word "iterator") (← part "iterable") (← block "body")
    | _ => none

def decode (j : Json) : Option Stmt := decodeTo j.depth j

end Stmt

namespace Decl

def decode (j : Json) : Option Decl := do
  let r ← j.record? ["name", "ty", "value"]
  return ⟨← r.required "name" Json.text?, ← r.required "ty" (Ty.decode .strict),
    ← r.required "value" (Literal.decode .strict)⟩

end Decl

namespace Function

def decodeTo : Nat → Json → Option Function
  | 0, _ => none
  | depth + 1, j => do
    let r ← j.record? ["name", "params", "ret", "inits", "body", "children", "loc"]
    return {
      name := ← r.required "name" Json.text?
      params := ← r.withDefault "params" [] (Json.list? Parameter.decode)
      ret := ← r.required "ret" (Ty.decode .strict)
      decls := ← r.withDefault "inits" [] (Json.list? Decl.decode)
      body := ← r.withDefault "body" [] (Json.list? Stmt.decode)
      children := ← r.withDefault "children" [] (Json.list? (decodeTo depth))
      loc := ← r.withDefault "loc" .unknown Location.decode }

def decode (j : Json) : Option Function := decodeTo j.depth j

end Function

namespace Class

def decode (j : Json) : Option Class := do
  let r ← j.record? ["name", "fields", "methods"]
  return ⟨← r.required "name" Json.text?, ← r.withDefault "fields" [] (Json.list? Decl.decode),
    ← r.withDefault "methods" [] (Json.list? Function.decode)⟩

end Class

namespace Program

def decode (j : Json) : Option Program := do
  let r ← j.record? ["funs", "inits", "classes", "stmts"]
  return ⟨← r.withDefault "funs" [] (Json.list? Function.decode),
    ← r.withDefault "inits" [] (Json.list? Decl.decode),
    ← r.withDefault "classes" [] (Json.list? Class.decode),
    ← r.withDefault "stmts" [] (Json.list? Stmt.decode)⟩

end Program

end Midend.Tree
