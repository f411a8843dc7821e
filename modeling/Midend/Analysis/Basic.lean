import Midend.Fault
import Midend.Flow.Operands
import Midend.Name.Map
/-!
# Analyses

An analysis walks through the statements of a body with an environment: what it knows about the
variables.  At each statement it simplifies the statement by what it knows and takes note of what
the simplified statement does.  Where paths meet, environments are merged.
-/

namespace Midend

open Midend.Flow

/-- What an analysis may assume about the body that it runs over. -/
structure Context where
  decls : List Decl
  params : List Parameter
  /-- The variables that only this body writes; any other may change at a call. -/
  locals : NameSet

namespace Context

def names (ctx : Context) : List String := ctx.decls.map (·.name) ++ ctx.params.map (·.name)

def isLocal (ctx : Context) (name : String) : Bool := ctx.locals.contains name

end Context

class Analysis (E : Type) where
  entry : Context → E
  /-- The environment of a block that no path has reached. -/
  unreached : Context → E
  /-- What two environments agree on. -/
  merge : E → E → E
  /-- Whether two environments say the same about every variable. -/
  same : E → E → Bool
  /-- The statement simplified in an environment, and the environment after it. -/
  step : E → Stmt → Except Fault (Stmt × E)

namespace Analysis

variable {E : Type} [Analysis E]

def walk (env : E) : List Stmt → Except Fault (List Stmt × E)
  | [] => .ok ([], env)
  | s :: ss => do
    let (s', env) ← step env s
    let (ss', env) ← walk env ss
    return (s' :: ss', env)

def through (env : E) (block : Block) : Except Fault E := (·.2) <$> walk env block.stmts

end Analysis

end Midend
