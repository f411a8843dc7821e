import Midend.Analysis.Basic
import Midend.Analysis.Fact
/-!
# Copies

The analysis that knows which variables hold a copy of which other variable.  After `b = a`, a read
of `b` becomes a read of `a`, until one of the two is assigned.  A copy always names the variable
that the value came from first, its origin, and every origin keeps the set of its copies, so that an
assignment to it ends all of them.
-/

namespace Midend

open Midend.Flow

/-- The variables that are known to be copies, with their origins.  `index` has the copies of each
origin. -/
structure Copies where
  facts : NameMap (Fact String)
  index : NameMap NameSet
  locals : NameSet

namespace Copies

def fact (env : Copies) (name : String) : Fact String := (env.facts.get? name).getD .nac

def copies (env : Copies) (origin : String) : List String :=
  ((env.index.get? origin).map NameMap.keys).getD []

/-- The variable that `name` is a copy of. -/
def origin? (env : Copies) (name : String) : Option String :=
  match env.facts.get? name with
  | some (.known origin) => some origin
  | _ => none

def addCopy (index : NameMap NameSet) (origin name : String) : NameMap NameSet :=
  index.insert origin (((index.get? origin).getD ∅).add name)

def addEntry (index : NameMap NameSet) (entry : String × Fact String) : NameMap NameSet :=
  match entry.2 with
  | .known origin => addCopy index origin entry.1
  | _ => index

def ofFacts (facts : NameMap (Fact String)) (locals : NameSet) : Copies where
  facts := facts
  index := facts.entries.foldl addEntry ∅
  locals := locals

def resolve (env : Copies) : Value → Value
  | .id name => .id ((env.origin? name).getD name)
  | v => v

def dropCopies (env : Copies) (name : String) : Copies :=
  { env with
    facts := (env.copies name).foldl (fun facts copy => facts.insert copy .nac) env.facts
    index := env.index.erase name }

def detach (env : Copies) (name : String) : Copies :=
  match env.origin? name with
  | some origin =>
    match env.index.get? origin with
    | some copies => { env with index := env.index.insert origin (copies.erase name) }
    | none => env
  | none => env

/-- The environment after `name` was written: it is no copy, and nothing is a copy of it. -/
def overwrite (env : Copies) (name : String) : Copies :=
  let env := (env.dropCopies name).detach name
  { env with facts := env.facts.insert name .nac }

def copyFrom (env : Copies) (name source : String) : Copies :=
  let origin := (env.origin? source).getD source
  if origin = name then env
  else
    let env := env.overwrite name
    { env with
      facts := env.facts.insert name (.known origin)
      index := addCopy env.index origin name }

/-- The mentioned variables that other bodies may write. -/
def exposed (env : Copies) : NameSet :=
  NameSet.ofList ((env.facts.keys ++ env.index.keys).filter fun name => !env.locals.contains name)

def afterCall (env : Copies) : Copies := env.exposed.keys.foldl overwrite env

def after (env : Copies) : Stmt → Copies
  | .assign name (.value (.id source)) => if source = name then env else env.copyFrom name source
  | .assign name e => if e.isCall then (env.overwrite name).afterCall else env.overwrite name
  | .expr e => if e.isCall then env.afterCall else env
  | _ => env

/-- The environment at the entry: nothing is a copy. -/
def entry (ctx : Context) : Copies := ofFacts (NameMap.ofNames ctx.names fun _ => .nac) ctx.locals

def unreached (ctx : Context) : Copies :=
  ofFacts (NameMap.ofNames ctx.names fun _ => .undef) ctx.locals

def merge (a b : Copies) : Copies := ofFacts (a.facts.combine Fact.meet b.facts) a.locals

def step (env : Copies) (s : Stmt) : Stmt × Copies :=
  let s' := s.map env.resolve
  (s', env.after s')

instance : Analysis Copies where
  entry := entry
  unreached := unreached
  merge := merge
  same a b := a.facts = b.facts
  step env s := .ok (env.step s)

end Copies

end Midend
