import Midend.Json.Record
/-!
# Operators

The operators of the source language: `tag` is the name an operator has in data, `symbol` the way it
is written in a program.
-/

namespace Midend

inductive BinOp where
  | plus | minus | mul | idiv | mod | eq | neq | lte | gte | lt | gt | is | and | or
deriving DecidableEq, Repr, Inhabited

namespace BinOp

def all : List BinOp :=
  [plus, minus, mul, idiv, mod, eq, neq, lte, gte, lt, gt, is, and, or]

def tag : BinOp → String
  | plus => "plus"
  | minus => "minus"
  | mul => "mul"
  | idiv => "idiv"
  | mod => "mod"
  | eq => "eq"
  | neq => "neq"
  | lte => "lte"
  | gte => "gte"
  | lt => "lt"
  | gt => "gt"
  | is => "is"
  | and => "and"
  | or => "or"

def ofTag? (text : String) : Option BinOp := all.find? fun op => op.tag = text

def symbol : BinOp → String
  | plus => "+"
  | minus => "-"
  | mul => "*"
  | idiv => "//"
  | mod => "%"
  | eq => "=="
  | neq => "!="
  | lte => "<="
  | gte => ">="
  | lt => "<"
  | gt => ">"
  | is => "is"
  | and => "and"
  | or => "or"

def encode (op : BinOp) : Json := .str op.tag

def decode (spelling : Json.Spelling) (j : Json) : Option BinOp :=
  (j.choice? spelling).bind ofTag?

end BinOp

inductive UniOp where
  | neg | not
deriving DecidableEq, Repr, Inhabited

namespace UniOp

def all : List UniOp := [neg, not]

def tag : UniOp → String
  | neg => "neg"
  | not => "not"

def ofTag? (text : String) : Option UniOp := all.find? fun op => op.tag = text

def symbol : UniOp → String
  | neg => "-"
  | not => "not"

/-- What stands in front of the operand: a word keeps a blank between them. -/
def lead : UniOp → String
  | neg => "-"
  | not => "not "

def encode (op : UniOp) : Json := .str op.tag

def decode (spelling : Json.Spelling) (j : Json) : Option UniOp :=
  (j.choice? spelling).bind ofTag?

end UniOp

end Midend
