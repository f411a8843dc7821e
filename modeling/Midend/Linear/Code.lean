import Midend.Flow.Basic
import Midend.Location
/-!
# Linear code

A body before it is cut into blocks: statements and labels one after another, and between them the
temporaries that the statements need.  Code is put together by `++`.
-/

namespace Midend.Linear

open Midend.Flow (Block Label Stmt Value Decl)

inductive Item where
  | emit (s : Stmt)
  /-- From here on statements belong to the block `label`. -/
  | mark (label : Label)
  | declare (name : String) (ty : Ty)
deriving Repr, Inhabited

abbrev Code := List Item

namespace Code

/-- The statements before the first label, and the blocks from there on. -/
def cut : Code → List Stmt × List Block
  | [] => ([], [])
  | .emit s :: rest => (s :: (cut rest).1, (cut rest).2)
  | .mark label :: rest => ([], ⟨label, (cut rest).1⟩ :: (cut rest).2)
  | .declare _ _ :: rest => cut rest

def blocks (label : Label) (code : Code) : List Block :=
  let (stmts, rest) := cut code
  ⟨label, stmts⟩ :: rest

/-- The temporary that an item declares, which holds nothing at first. -/
def temporary? : Item → Option Decl
  | .declare name ty => some ⟨name, ty, .none⟩
  | _ => none

def temporaries (code : Code) : List Decl := code.filterMap temporary?

/-- The call of a check on a value, which reports a position when it fails. -/
def guard (check : String) (v : Value) (loc : Location) : Item :=
  .emit (.expr (.call check [v, .word loc.row, .word loc.col]))

def guardObject : Value → Location → Item := guard "$check_none"

def guardDivisor : Value → Location → Item := guard "$check_zero"

end Code

end Midend.Linear
