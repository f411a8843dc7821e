import Midend.Json.Record
/-!
# Source positions
-/

namespace Midend

structure Location where
  row : UInt32
  col : UInt32
  /-- Which source text. -/
  source : UInt32 := 0
deriving DecidableEq, Repr

namespace Location

def unknown : Location := ⟨0, 0, 0⟩

instance : Inhabited Location := ⟨unknown⟩

/-- Row and column around a colon; the source text is not shown. -/
def display (loc : Location) : String :=
  Decimal.natural loc.row.toNat ++ ":" ++ Decimal.natural loc.col.toNat

def encode (loc : Location) : Json :=
  .obj [("row", .ofWord loc.row), ("col", .ofWord loc.col), ("src_idx", .ofWord loc.source)]

def decode (j : Json) : Option Location := do
  let r ← j.record? ["row", "col", "src_idx"]
  return ⟨← r.required "row" Json.word?, ← r.required "col" Json.word?,
    ← r.withDefault "src_idx" 0 Json.word?⟩

end Location

end Midend
