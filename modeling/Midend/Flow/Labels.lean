import Midend.Fault
import Midend.Flow.Basic
/-!
# Labels

The check that no two blocks of a body have the same label and that every jump goes to a block of
its own body.
-/

namespace Midend.Flow

/-- The first label that repeats an earlier one, where `seen` has come before. -/
def repeated? (seen : List Label) : List Label → Option Label
  | [] => none
  | l :: ls => if l ∈ seen then some l else repeated? (l :: seen) ls

def missing? (labels : List Label) (body : List Block) : Option Label :=
  (body.flatMap Block.successors).find? fun target => target ∉ labels

def checkLabels (scope : String) (body : List Block) : Except Fault Unit :=
  let labels := body.map (·.label)
  match repeated? [] labels, missing? labels body with
  | some label, _ => .error (.repeatedLabel label scope)
  | none, some label => .error (.missingLabel label scope)
  | none, none => .ok ()

def Program.checkLabels (p : Program) : Except Fault Unit :=
  p.bodies.forM fun (scope, body) => Flow.checkLabels scope body

end Midend.Flow
