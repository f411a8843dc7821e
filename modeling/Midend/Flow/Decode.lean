import Midend.Flow.Basic
/-!
# Block programs from JSON

Reading what the encoder of block programs writes.  A list that is missing is empty.
-/

namespace Midend.Flow

open Json (Record)

def object? (j : Json) : Option Record := do
  let fields ← j.fields?
  return Json.valuesOf fields

def list? {α : Type} (r : Record) (name : String) (read : Json → Option α) : Option (List α) :=
  r.withDefault name [] (Json.list? read)

def nat? (j : Json) : Option Nat := j.below? UInt64.size

namespace Value

def decode (j : Json) : Option Value := do
  let r ← object? j
  match ← r.required "tag" Json.text? with
  | "num" => return num (← r.required "value" fun v => v.text?.bind Decimal.parse?)
  | "bool" => return bool (← r.required "value" Json.bool?)
  | "none" => return none
  | "id" => return id (← r.required "value" Json.text?)
  | "word" => return word (← r.required "value" Json.word?)
  | _ => Option.none

end Value

namespace Expr

def decode (j : Json) : Option Expr := do
  let r ← object? j
  let operand (name : String) := r.required name Value.decode
  let text (name : String) := r.required name Json.text?
  match ← text "tag" with
  | "value" => return value (← operand "value")
  | "binary" =>
    return binary (← r.required "op" (BinOp.decode .strict)) (← operand "left") (← operand "right")
  | "unary" => return unary (← r.required "op" (UniOp.decode .strict)) (← operand "operand")
  | "builtin1" => return builtin1 (← text "name") (← operand "arg")
  | "builtin2" => return builtin2 (← text "name") (← operand "left") (← operand "right")
  | "call" => return call (← text "name") (← list? r "args" Value.decode)
  | "call-indirect" => return callIndirect (← operand "callee") (← list? r "args" Value.decode)
  | "alloc" => return alloc (← r.required "amount" nat?) (← r.required "ref_fields" Json.word?)
  | "load" => return load (← operand "start") (← r.required "offset" nat?)
  | _ => none

end Expr

namespace Stmt

def decode (j : Json) : Option Stmt := do
  let r ← object? j
  let operand (name : String) := r.required name Value.decode
  let text (name : String) := r.required name Json.text?
  match ← text "tag" with
  | "assign" => return assign (← text "name") (← r.required "value" Expr.decode)
  | "return" => return ret (← operand "value")
  | "expr" => return expr (← r.required "expr" Expr.decode)
  | "if-jmp" => return branch (← operand "cond") (← text "then") (← text "els")
  | "jmp" => return jump (← text "target")
  | "store" => return store (← operand "start") (← r.required "offset" nat?) (← operand "value")
  | _ => none

end Stmt

namespace Block

def decode (j : Json) : Option Block := do
  let r ← object? j
  return ⟨← r.required "label" Json.text?, ← list? r "stmts" Stmt.decode⟩

end Block

namespace Decl

def decode (j : Json) : Option Decl := do
  let r ← object? j
  return ⟨← r.required "name" Json.text?, ← r.required "ty" (Ty.decode .strict),
    ← r.required "value" Value.decode⟩

end Decl

namespace Method

def decode (j : Json) : Option Method := do
  let r ← object? j
  return ⟨← r.required "name" Json.text?, ← list? r "params" Parameter.decode,
    ← r.required "ret" (Ty.decode .strict), ← list? r "inits" Decl.decode,
    ← list? r "body" Block.decode⟩

end Method

namespace Class

def decode (j : Json) : Option Class := do
  let r ← object? j
  return ⟨← r.required "name" Json.text?, ← list? r "fields" Decl.decode,
    ← list? r "methods" Method.decode⟩

end Class

namespace Program

def decode (j : Json) : Option Program := do
  let r ← object? j
  return ⟨← list? r "inits" Decl.decode, ← list? r "classes" Class.decode,
    ← list? r "body" Block.decode⟩

end Program

end Midend.Flow
