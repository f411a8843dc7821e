import Midend.Analysis.Basic
import Midend.Analysis.Fact
import Midend.Flow.Arithmetic
/-!
# Constants

The analysis that knows which variables hold which literal.  A read of such a variable becomes the
literal, and an operator on literals becomes its value.
-/

namespace Midend

open Midend.Flow

/-- The literals that variables are known to hold; a variable without an entry is not constant. -/
structure Constants where
  facts : NameMap (Fact Value)
  locals : NameSet

namespace Constants

def fact (env : Constants) (name : String) : Fact Value := (env.facts.get? name).getD .nac

def setFact (env : Constants) (name : String) (fact : Fact Value) : Constants :=
  { env with facts := env.facts.insert name fact }

/-- An operand, with a constant variable replaced by its literal. -/
def resolve (env : Constants) : Value → Value
  | .id name =>
    match env.facts.get? name with
    | some (.known v) => v
    | _ => .id name
  | v => v

def evaluate : Expr → Except Fault Expr
  | .binary op left right =>
    if op.applies left right then Expr.value <$> op.value left right
    else .ok (.binary op left right)
  | .unary op operand =>
    if op.applies operand then Expr.value <$> op.value operand
    else .ok (.unary op operand)
  | e => .ok e

def evaluateStmt : Stmt → Except Fault Stmt
  | .assign name e => Stmt.assign name <$> evaluate e
  | .expr e => Stmt.expr <$> evaluate e
  | s => .ok s

/-- What an assignment of the expression says about the variable. -/
def factOf : Expr → Fact Value
  | .value v => if v.isId then .nac else .known v
  | _ => .nac

def record (env : Constants) : Stmt → Constants
  | .assign name e => env.setFact name (factOf e)
  | _ => env

/-- The environment without what a call may have changed. -/
def afterCall (env : Constants) : Constants :=
  { env with
    facts := env.facts.map fun name fact => if env.locals.contains name then fact else .nac }

def after (env : Constants) (s : Stmt) : Constants :=
  if s.hasCall then (env.record s).afterCall else env.record s

/-- The environment at the entry: declared variables hold their initial values, and a parameter is
not constant, also when it is declared too. -/
def entry (ctx : Context) : Constants where
  facts := NameMap.ofList <|
    ctx.decls.map (fun v => (v.name, .known v.value)) ++ ctx.params.map fun p => (p.name, .nac)
  locals := ctx.locals

def unreached (ctx : Context) : Constants := ⟨NameMap.ofNames ctx.names fun _ => .undef, ctx.locals⟩

def merge (a b : Constants) : Constants := ⟨a.facts.combine Fact.meet b.facts, a.locals⟩

def step (env : Constants) (s : Stmt) : Except Fault (Stmt × Constants) := do
  let s' ← evaluateStmt (s.map env.resolve)
  return (s', env.after s')

instance : Analysis Constants where
  entry := entry
  unreached := unreached
  merge := merge
  same a b := a.facts = b.facts
  step := step

end Constants

end Midend
