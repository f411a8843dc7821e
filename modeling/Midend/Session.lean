import Midend.Linear.Program
import Midend.Optimization
/-!
# Sessions

Compilations one after another over the same catalog, with the block program of the last one at
hand.
-/

namespace Midend

open Midend.Flow

def compile (fuel : Nat) (catalog : Catalog) (options : Options) (p : Tree.Program) :
    Except Stop Program × Catalog :=
  match Linear.flatten catalog p with
  | (.error cause, catalog) => (.error (.fault cause), catalog)
  | (.ok flow, catalog) =>
    let (flow, rounds) := optimize fuel catalog options flow
    ((fun _ => flow) <$> rounds, catalog)

structure Session where
  catalog : Catalog
  /-- The block program at hand. -/
  current : Program

namespace Session

def new : Session := ⟨.empty, .empty⟩

/-- Compiles a typed tree.  A failure leaves the program at hand. -/
def compile (fuel : Nat) (options : Options) (p : Tree.Program) (s : Session) :
    Except Stop Program × Session :=
  match Midend.compile fuel s.catalog options p with
  | (.ok flow, catalog) => (.ok flow, ⟨catalog, flow⟩)
  | (.error stop, catalog) => (.error stop, { s with catalog })

/-- Flattens a typed tree without optimizing it.  A failure leaves the program at hand. -/
def flatten (p : Tree.Program) (s : Session) : Except Fault Program × Session :=
  match Linear.flatten s.catalog p with
  | (.ok flow, catalog) => (.ok flow, ⟨catalog, flow⟩)
  | (.error cause, catalog) => (.error cause, { s with catalog })

def optimize (fuel : Nat) (options : Options) (s : Session) : Except Stop Nat × Session :=
  let (flow, rounds) := Midend.optimize fuel s.catalog options s.current
  (rounds, { s with current := flow })

def pass (E : Type) [Analysis E] (fuel : Nat) (s : Session) : Except Stop Bool × Session :=
  let (flow, status) := Optimization.pass E fuel s.catalog s.current
  (status, { s with current := flow })

end Session

end Midend
