/-!
# Decimal integers

The written form of an integer: an optional single sign, a digit, then digits and `_`, where `_`
carries no meaning.  `render` writes the canonical form, and `parse?` reads it back.
-/

namespace Midend.Decimal

/-- The decimal digits of `n`, most significant first. -/
def digits (n : Nat) : List Char := Nat.toDigits 10 n

def natural (n : Nat) : String := String.ofList (digits n)

/-- The canonical text of an integer: no leading zero, a `-` in front when it is negative. -/
def render : Int → String
  | .ofNat n => natural n
  | .negSucc n => String.ofList ('-' :: digits (n + 1))

/-- Reads digits among which `_` may stand anywhere but in front. -/
def natural? : List Char → Option Nat
  | [] => none
  | c :: cs =>
    if c.isDigit && cs.all fun d => d.isDigit || d == '_' then
      some (Nat.ofDigitChars 10 ((c :: cs).filter Char.isDigit) 0)
    else none

/-- Reads an optional sign and a natural number. -/
def integer? : List Char → Option Int
  | '-' :: cs => (natural? cs).map fun n => -Int.ofNat n
  | '+' :: cs => (natural? cs).map Int.ofNat
  | cs => (natural? cs).map Int.ofNat

def parse? (text : String) : Option Int := integer? text.toList

/-- Reads plain digits after an optional `+`, as a number below `bound`. -/
def below? (bound : Nat) (text : String) : Option Nat :=
  let cs := match text.toList with
    | '+' :: cs => cs
    | cs => cs
  if cs ≠ [] ∧ cs.all Char.isDigit ∧ Nat.ofDigitChars 10 cs 0 < bound then
    some (Nat.ofDigitChars 10 cs 0)
  else none

theorem isDigit_of_mem_digits {c : Char} {n : Nat} (h : c ∈ digits n) : c.isDigit = true :=
  Nat.isDigit_of_mem_toDigits (by decide) (by decide) h

theorem natural?_digits (n : Nat) : natural? (digits n) = some n := by
  have all : ∀ c ∈ digits n, c.isDigit = true := fun c => isDigit_of_mem_digits
  have value : Nat.ofDigitChars 10 (digits n) 0 = n :=
    Nat.ofDigitChars_toDigits (by decide) (by decide)
  have ne : digits n ≠ [] := Nat.toDigits_ne_nil
  generalize digits n = cs at all value ne
  cases cs with
  | nil => exact absurd rfl ne
  | cons c cs =>
    have tail : (cs.all fun d => d.isDigit || d == '_') = true := by
      simp only [List.all_eq_true, Bool.or_eq_true]
      exact fun d hd => .inl (all d (List.mem_cons_of_mem _ hd))
    rw [natural?, all c List.mem_cons_self, tail, List.filter_eq_self.2 all, value]
    rfl

theorem integer?_of_isDigit {cs : List Char} (h : ∀ c ∈ cs, c.isDigit = true) :
    integer? cs = (natural? cs).map Int.ofNat := by
  unfold integer?
  split
  · exact absurd (h '-' List.mem_cons_self) (by decide)
  · exact absurd (h '+' List.mem_cons_self) (by decide)
  · rfl

theorem parse?_render (n : Int) : parse? (render n) = some n := by
  cases n with
  | ofNat n =>
    simp [parse?, render, natural, integer?_of_isDigit (fun _ => isDigit_of_mem_digits),
      natural?_digits]
  | negSucc n =>
    simp [parse?, render, integer?, natural?_digits]
    omega

end Midend.Decimal
