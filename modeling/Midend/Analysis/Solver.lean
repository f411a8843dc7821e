import Midend.Analysis.Basic
import Midend.Flow.Graph
/-!
# Running an analysis over a body

The environments at the blocks of a body, found with a queue of blocks whose predecessors have
changed.  A block taken from the queue gets the merge of what its predecessors give at that time; if
that is new, the block is walked through and its successors join the queue.

What a block gets is computed afresh each time, so an analysis can swing between two answers for
ever.  Therefore the number of blocks taken from the queue is bounded by fuel, and running out of it
is an outcome of its own.
-/

namespace Midend

open Midend.Flow

/-- The environments before and after each block that was reached. -/
structure Solution (E : Type) where
  before : NameMap E
  after : NameMap E
  /-- How many times a block was walked through. -/
  visits : Nat

namespace Solution

variable {E : Type} [Analysis E]

def empty : Solution E := ⟨∅, ∅, 0⟩

def join (acc : Option E) (env : E) : Option E :=
  match acc with
  | some a => some (Analysis.merge a env)
  | none => some env

/-- What flows into a block: the entry environment if it is the first, merged with what its
predecessors give.  Nothing if no path has reached it. -/
def inflow? (sol : Solution E) (g : Graph) (label : Label) (entry : E) : Option E :=
  ((g.predsOf label).filterMap sol.after.get?).foldl join
    (if g.entry? = some label then some entry else none)

def isStable (sol : Solution E) (g : Graph) (label : Label) (entry : E) : Bool :=
  match sol.before.get? label, sol.inflow? g label entry with
  | some a, some b => Analysis.same a b
  | none, none => true
  | _, _ => false

def record (sol : Solution E) (label : Label) (before after : E) : Solution E :=
  ⟨sol.before.insert label before, sol.after.insert label after, sol.visits + 1⟩

end Solution

namespace Analysis

variable {E : Type} [Analysis E]

def run (ctx : Context) (body : List Block) (g : Graph) :
    (fuel : Nat) → List Label → Solution E → Except Stop (Solution E)
  | _, [], sol => .ok sol
  | 0, _ :: _, _ => .error .outOfFuel
  | fuel + 1, label :: queue, sol =>
    let env := (sol.inflow? g label (entry ctx)).getD (unreached ctx)
    if (sol.before.get? label).any (same · env) then run ctx body g fuel queue sol
    else
      match body.find? fun b => b.label = label with
      | none => .error (.fault (.unknownBlock label))
      | some block =>
        match through env block with
        | .error cause => .error (.fault cause)
        | .ok after => run ctx body g fuel (queue ++ g.succsOf label) (sol.record label env after)

/-- Fuel for all that a machine can do. -/
def ample : Nat := UInt64.size

def solve (E : Type) [Analysis E] (fuel : Nat) (scope : String) (ctx : Context)
    (body : List Block) :
    Except Stop (Graph × Solution E) :=
  match Graph.ofBody scope body with
  | .error cause => .error (.fault cause)
  | .ok g => (g, ·) <$> run ctx body g fuel g.entry?.toList .empty

def simplifyBlock (ctx : Context) (sol : Solution E) (b : Block) : Except Stop Block :=
  match walk ((sol.before.get? b.label).getD (unreached ctx)) b.stmts with
  | .error cause => .error (.fault cause)
  | .ok (stmts, _) => .ok { b with stmts }

def simplify (E : Type) [Analysis E] (fuel : Nat) (scope : String) (ctx : Context)
    (body : List Block) : Except Stop (List Block) := do
  let (_, sol) ← solve E fuel scope ctx body
  body.mapM (simplifyBlock ctx sol)

end Analysis

end Midend
