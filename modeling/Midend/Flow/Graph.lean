import Midend.Fault
import Midend.Flow.Basic
import Midend.Name.Map
/-!
# Control flow graphs

The edges between the blocks of a body, in both directions.
-/

namespace Midend.Flow

structure Graph where
  labels : List Label
  preds : NameMap (List Label)
  succs : NameMap (List Label)

namespace Graph

def empty : Graph := ⟨[], ∅, ∅⟩

def addBlock (scope : String) (g : Graph) (b : Block) : Except Fault Graph :=
  if g.preds.contains b.label then .error (.repeatedLabel b.label scope)
  else .ok ⟨g.labels ++ [b.label], g.preds.insert b.label [], g.succs.insert b.label []⟩

def addOnce (labels : List Label) (label : Label) : List Label :=
  if label ∈ labels then labels else labels ++ [label]

def addEdge (scope : String) (source : Label) (g : Graph) (target : Label) :
    Except Fault Graph :=
  match g.preds.get? target with
  | none => .error (.missingLabel target scope)
  | some preds =>
    .ok { g with
      preds := g.preds.insert target (addOnce preds source)
      succs := g.succs.insert source (addOnce ((g.succs.get? source).getD []) target) }

def ofBody (scope : String) (body : List Block) : Except Fault Graph := do
  let g ← body.foldlM (addBlock scope) empty
  body.foldlM (fun g b => b.successors.foldlM (addEdge scope b.label) g) g

def entry? (g : Graph) : Option Label := g.labels.head?

def predsOf (g : Graph) (label : Label) : List Label := (g.preds.get? label).getD []

def succsOf (g : Graph) (label : Label) : List Label := (g.succs.get? label).getD []

end Graph

end Midend.Flow
