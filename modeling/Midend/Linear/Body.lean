import Midend.Linear.Builder
import Midend.Linear.Closure
/-!
# Flattening bodies

The code of expressions and statements.  Operands are evaluated from left to right, each operation
on values only; control flow becomes labels and jumps.
-/

namespace Midend.Linear

open Build
open Midend.Flow (Label Value)

def lambdaSignature (params : List String) (ty : Ty) : Build (List Parameter × Ty) :=
  match ty with
  | .callable types ret =>
    if types.length = params.length then
      return (List.zipWith Parameter.mk params types, ret)
    else throw (.lambdaArity params.length types.length)
  | found => throw (.lambdaType found)

mutual
def expr : Tree.Expr → Build (Code × Flow.Expr)
  | .literal _ value => return ([], .value (Value.ofLiteral value))
  | .id _ name => return ([], .value (.id name))
  | .binary n op left right => do
    let (c, e) ← expr left
    let (left, l) ← toValue left.ty c e
    let (c, e) ← expr right
    let (right, r) ← toValue right.ty c e
    let check := if op = .idiv ∨ op = .mod then [Code.guardDivisor r n.loc] else []
    return (left ++ right ++ check, .binary op l r)
  | .unary _ op operand => do
    let (c, e) ← expr operand
    let (c, v) ← toValue operand.ty c e
    return (c, .unary op v)
  | .builtin1 _ name arg => do
    let (c, e) ← expr arg
    let (c, v) ← toValue arg.ty c e
    return (c, .builtin1 name v)
  | .builtin2 _ name left right => do
    let (c, e) ← expr left
    let (left, l) ← toValue left.ty c e
    let (c, e) ← expr right
    let (right, r) ← toValue right.ty c e
    return (left ++ right, .builtin2 name l r)
  | .call n callee args => do
    let (c, e) ← expr callee
    let (callee, f) ← toValue callee.ty c e
    let (args, vs) ← values args
    return (callee ++ Code.guardObject f n.loc :: args, .callIndirect f vs)
  | .lookup n obj field => do
    let className ← classOf .fieldLookup obj.ty obj.loc
    let entry ← ask (·.fieldOf className field)
    let (c, e) ← expr obj
    let (c, v) ← toValue obj.ty c e
    return (c ++ [Code.guardObject v n.loc], .load v entry.offset)
  | .methodCall n obj method args => do
    let className ← classOf .methodCall obj.ty obj.loc
    let (c, e) ← expr obj
    let (obj, v) ← toValue obj.ty c e
    let (args, vs) ← values args
    return (obj ++ Code.guardObject v n.loc :: args, .call (methodName className method) (v :: vs))
  | .construct n className => do
    let (c, v) ← make className n.ty
    return (c, .value v)
  | .listComp n item elem iterable cond => do
    let test ← fresh "$compstart"
    let body ← fresh "$compbody"
    let after ← fresh "$compend"
    let (c, e) ← expr iterable
    let (source, v) ← toValue iterable.ty c e
    let (c, e) ← checkedCall v iterable.ty "hasNext" n.loc
    let (hasNext, more) ← toValue .bool c e
    let (next, e) ← checkedCall v iterable.ty "next" n.loc
    let filter ← keepIf test cond
    let (c, i) ← expr item
    let (item, i) ← toValue item.ty c i
    return (
      source ++ [.emit (.jump test), .mark test] ++
      hasNext ++ [.emit (.branch more body after), .mark body] ++
      next ++ [.emit (.assign elem e)] ++ filter ++
      item ++ [.emit (.expr (.builtin1 "print" i)), .emit (.jump test), .mark after],
      .value (.id elem))
  | .ifExpr n cond onTrue onFalse => do
    let thenLabel ← fresh "$ifExprThen"
    let elseLabel ← fresh "$ifExprElse"
    let after ← fresh "$ifExprEnd"
    let tmp ← fresh "$ifExprTmp"
    let (c, e) ← expr cond
    let (test, v) ← toValue cond.ty c e
    let (yes, t) ← expr onTrue
    let (no, f) ← expr onFalse
    return (
      .declare tmp n.ty :: test ++ [.emit (.branch v thenLabel elseLabel), .mark thenLabel] ++
      yes ++ [.emit (.assign tmp t), .emit (.jump after), .mark elseLabel] ++
      no ++ [.emit (.assign tmp f), .emit (.jump after), .mark after],
      .value (.id tmp))
  | .lambda n params body => do
    let (params, ret) ← lambdaSignature params n.ty
    let name ← fresh "lambda"
    let params := Closure.receiver name :: params
    enterClosure name params
    keep (← closureClass name params ret [] do
      let (c, e) ← expr body
      let (c, v) ← toValue body.ty c e
      return c ++ (← leave (.ret v)))
    let (c, v) ← make name (.object name)
    return (c, .value v)

def values : List Tree.Expr → Build (Code × List Value)
  | [] => return ([], [])
  | e :: es => do
    let (c, r) ← expr e
    let (c, v) ← toValue e.ty c r
    let (cs, vs) ← values es
    return (c ++ cs, v :: vs)

/-- The code that goes on only if a filter lets the element pass, and to `test` if not. -/
def keepIf (test : Label) : Option Tree.Expr → Build Code
  | none => return []
  | some cond => do
    let add ← fresh "$compadd"
    let (c, e) ← expr cond
    let (c, v) ← toValue cond.ty c e
    return c ++ [.emit (.branch v add test), .mark add]
end

def value (e : Tree.Expr) : Build (Code × Value) := do
  let (c, r) ← expr e
  toValue e.ty c r

structure LoopLabels where
  test : Label
  after : Label

mutual
/-- The code of a statement inside a loop, or inside none. -/
def stmt (loop : Option LoopLabels) : Tree.Stmt → Build Code
  | .assign _ name value => do
    let (c, e) ← expr value
    return c ++ [.emit (.assign name e)]
  | .ret _ result => do
    let (c, v) ← value result
    return c ++ (← leave (.ret v))
  | .expr _ e => do
    let (c, e) ← expr e
    return c ++ [.emit (.expr e)]
  | .pass _ => return []
  | .continueLoop _ =>
    match loop with
    | some labels => leave (.jump labels.test)
    | none => return []
  | .breakLoop _ =>
    match loop with
    | some labels => leave (.jump labels.after)
    | none => return []
  | .fieldAssign loc obj field content => do
    let className ← classOf .fieldAssignment obj.ty obj.loc
    let entry ← ask (·.fieldOf className field)
    let (obj, o) ← value obj
    let (content, v) ← value content
    return obj ++ content ++ [Code.guardObject o loc, .emit (.store o entry.offset v)]
  | .ifElse _ cond onTrue onFalse => do
    let thenLabel ← fresh "$then"
    let elseLabel ← fresh "$else"
    let after ← fresh "$end"
    let (test, v) ← value cond
    let yes ← stmts loop onTrue
    let no ← stmts loop onFalse
    return test ++ [.emit (.branch v thenLabel elseLabel), .mark thenLabel] ++
      yes ++ [.emit (.jump after), .mark elseLabel] ++
      no ++ [.emit (.jump after), .mark after]
  | .whileLoop _ cond body => do
    let test ← fresh "$whilestart"
    let bodyLabel ← fresh "$whilebody"
    let after ← fresh "$whileend"
    let (check, v) ← value cond
    let body ← stmts (some ⟨test, after⟩) body
    return [.emit (.jump test), .mark test] ++
      check ++ [.emit (.branch v bodyLabel after), .mark bodyLabel] ++
      body ++ [.emit (.jump test), .mark after]
  | .forLoop _ elem iterable body => do
    let test ← fresh "$forstart"
    let bodyLabel ← fresh "$forbody"
    let after ← fresh "$forend"
    let (source, v) ← value iterable
    let (reset, r) ← checkedCall v iterable.ty "reset" iterable.loc
    let (c, e) ← checkedCall v iterable.ty "hasNext" iterable.loc
    let (hasNext, more) ← toValue .bool c e
    let (next, e) ← checkedCall v iterable.ty "next" iterable.loc
    let body ← stmts (some ⟨test, after⟩) body
    return source ++ reset ++ [.emit (.expr r), .emit (.jump test), .mark test] ++
      hasNext ++ [.emit (.branch more bodyLabel after), .mark bodyLabel] ++
      next ++ [.emit (.assign elem e)] ++ body ++ [.emit (.jump test), .mark after]

def stmts (loop : Option LoopLabels) : List Tree.Stmt → Build Code
  | [] => return []
  | s :: ss => do
    let c ← stmt loop s
    return c ++ (← stmts loop ss)
end

end Midend.Linear
