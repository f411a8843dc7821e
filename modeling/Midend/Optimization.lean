import Midend.Analysis.Constants
import Midend.Analysis.Copies
import Midend.Analysis.Solver
import Midend.Catalog
import Midend.Options
/-!
# Optimization

Running analyses over every body of a program, in rounds, until a round changes nothing.  When a
body is at fault, the bodies before it stay simplified.
-/

namespace Midend

open Midend.Flow

namespace Optimization

/-- What an analysis may assume about the top level: a call may change any global variable, so only
the temporaries are local. -/
def topLevelContext (catalog : Catalog) (p : Program) : Context where
  decls := p.decls
  params := []
  locals := NameSet.ofList ((p.decls.map (·.name)).filter fun name => !catalog.isGlobal name)

/-- What an analysis may assume about a method: what it declares is local. -/
def methodContext (m : Method) : Context where
  decls := m.decls
  params := m.params
  locals := NameSet.ofList (m.decls.map (·.name) ++ m.params.map (·.name))

/-- How a pass over several bodies stands: at fault, or whether it has changed anything. -/
abbrev Status := Except Stop Bool

def passBody (E : Type) [Analysis E] (fuel : Nat) (scope : String) (ctx : Context)
    (body : List Block) : StateM Status (List Block) := fun status =>
  match status with
  | .error stop => (body, .error stop)
  | .ok changed =>
    match Analysis.simplify E fuel scope ctx body with
    | .error stop => (body, .error stop)
    | .ok simplified => (simplified, .ok (changed || simplified ≠ body))

def passMethod (E : Type) [Analysis E] (fuel : Nat) (m : Method) : StateM Status Method := do
  return { m with body := ← passBody E fuel m.name (methodContext m) m.body }

def passClass (E : Type) [Analysis E] (fuel : Nat) (c : Flow.Class) : StateM Status Flow.Class := do
  return { c with methods := ← c.methods.mapM (passMethod E fuel) }

def passProgram (E : Type) [Analysis E] (fuel : Nat) (catalog : Catalog) (p : Program) :
    StateM Status Program := do
  let body ← passBody E fuel Program.topLevel (topLevelContext catalog p) p.body
  let classes ← p.classes.mapM (passClass E fuel)
  return { p with body, classes }

def pass (E : Type) [Analysis E] (fuel : Nat) (catalog : Catalog) (p : Program) :
    Program × Status :=
  passProgram E fuel catalog p (.ok false)

def round (fuel : Nat) (catalog : Catalog) (level : Level) (p : Program) : Program × Status :=
  match pass Constants fuel catalog p with
  | (p, .error stop) => (p, .error stop)
  | (p, .ok changed) =>
    if level = .aggressive then
      let (p, status) := pass Copies fuel catalog p
      (p, (changed || ·) <$> status)
    else (p, .ok changed)

/-- Runs rounds until one changes nothing, at most `limit` more after `done` that did. -/
def rounds (fuel : Nat) (catalog : Catalog) (level : Level) :
    (limit done : Nat) → Program → Program × Except Stop Nat
  | 0, done, p => (p, .ok done)
  | limit + 1, done, p =>
    match round fuel catalog level p with
    | (p, .error stop) => (p, .error stop)
    | (p, .ok false) => (p, .ok done)
    | (p, .ok true) => rounds fuel catalog level limit (done + 1) p

end Optimization

/-- Optimizes a program; the number of rounds that changed it. -/
def optimize (fuel : Nat) (catalog : Catalog) (options : Options) (p : Program) :
    Program × Except Stop Nat :=
  if options.level = .none then (p, .ok 0)
  else Optimization.rounds fuel catalog options.level options.maxRounds 0 p

end Midend
