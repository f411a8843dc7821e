import Midend.Name.Lemmas
import Midend.Name.Supply
import Mathlib.Data.List.Nodup
/-!
# Fresh names differ

The base and the number of a fresh name can be told from the name, as no base ends in a
digit.  So the names drawn from a supply one after another are all different (`Draws`).
-/

namespace Midend.NameSupply

/-- No digit ends the base, so the number behind it starts where the digits start. -/
def Unnumbered (base : String) : Prop := ∀ c ∈ base.toList.getLast?, c.isDigit = false

instance (base : String) : Decidable (Unnumbered base) :=
  decidable_of_iff (base.toList.getLast?.all (fun c => !c.isDigit) = true)
    (by simp [Unnumbered, Option.all_eq_true])

variable {base base' name : String} {n n' : Nat} {s s' s₁ : NameSupply} {names names' : List String}

/-- Digits behind something that ends in no digit can be split off in one way only. -/
theorem append_digits_inj {front front' digits digits' : List Char}
    (hfront : ∀ c ∈ front.getLast?, c.isDigit = false)
    (hfront' : ∀ c ∈ front'.getLast?, c.isDigit = false)
    (hdigits : ∀ c ∈ digits, c.isDigit = true) (hdigits' : ∀ c ∈ digits', c.isDigit = true)
    (h : front ++ digits = front' ++ digits') : front = front' ∧ digits = digits' := by
  have hnone : ∀ {front middle digits : List Char},
      (∀ c ∈ (front ++ middle).getLast?, c.isDigit = false) →
      (∀ c ∈ middle ++ digits, c.isDigit = true) → middle = [] := by
    intro front middle digits hlast hall
    by_contra hne
    have hlast := hlast (middle.getLast hne) (by
      rw [List.getLast?_append_of_ne_nil _ hne, List.getLast?_eq_some_getLast hne]
      exact rfl)
    rw [hall _ (List.mem_append_left _ (List.getLast_mem hne))] at hlast
    exact nomatch hlast
  rcases List.append_eq_append_iff.1 h with ⟨middle, rfl, rfl⟩ | ⟨middle, rfl, rfl⟩
  · obtain rfl := hnone hfront' hdigits
    simp
  · obtain rfl := hnone hfront hdigits'
    simp

theorem digits_inj (h : Decimal.digits n = Decimal.digits n') : n = n' := by
  have hread := congrArg Decimal.natural? h
  rw [Decimal.natural?_digits, Decimal.natural?_digits] at hread
  exact Option.some.inj hread

theorem toList_numbered (base : String) (n : Nat) :
    (numbered base n).toList = base.toList ++ Decimal.digits n := by
  rw [numbered, Decimal.natural, String.toList_append, String.toList_ofList]

theorem not_unnumbered_numbered (base : String) (n : Nat) : ¬ Unnumbered (numbered base n) := by
  intro h
  have hne : Decimal.digits n ≠ [] := Nat.toDigits_ne_nil
  have hlast := h ((Decimal.digits n).getLast hne) (by
    rw [toList_numbered, List.getLast?_append_of_ne_nil _ hne, List.getLast?_eq_some_getLast hne]
    exact rfl)
  rw [Decimal.isDigit_of_mem_digits (List.getLast_mem hne)] at hlast
  exact nomatch hlast

theorem numbered_inj (hbase : Unnumbered base) (hbase' : Unnumbered base')
    (h : numbered base n = numbered base' n') : base = base' ∧ n = n' := by
  have hlists := congrArg String.toList h
  rw [toList_numbered, toList_numbered] at hlists
  obtain ⟨hfront, hdigits⟩ := append_digits_inj hbase hbase'
    (fun _ => Decimal.isDigit_of_mem_digits) (fun _ => Decimal.isDigit_of_mem_digits) hlists
  exact ⟨String.toList_inj.1 hfront, digits_inj hdigits⟩

theorem fresh_eq (h : s.fresh base = (name, s')) : name = numbered base (s.next base) :=
  (Prod.mk.inj h).1.symm

theorem next_fresh (h : s.fresh base = (name, s')) (base' : String) :
    s'.next base' = s.next base' + if base' = base then 1 else 0 := by
  rw [← (Prod.mk.inj h).2]
  unfold next
  dsimp only
  rw [NameMap.get?_insert]
  split
  · rename_i heq
    rw [heq]
    rfl
  · rfl

/-- The name has been given out between two states of a supply. -/
def Made (s s' : NameSupply) (name : String) : Prop :=
  ∃ base n, Unnumbered base ∧ name = numbered base n ∧ s.next base ≤ n ∧ n < s'.next base

/-- Different names are given out between two states of a supply, and maybe others. -/
structure Draws (s s' : NameSupply) (names : List String) : Prop where
  le : ∀ base, s.next base ≤ s'.next base
  made : ∀ name ∈ names, Made s s' name
  nodup : names.Nodup

theorem Made.mono (h : Made s s' name) {t t' : NameSupply} (hle : ∀ base, t.next base ≤ s.next base)
    (hle' : ∀ base, s'.next base ≤ t'.next base) : Made t t' name := by
  obtain ⟨base, n, hbase, hname, hlow, hhigh⟩ := h
  exact ⟨base, n, hbase, hname, Nat.le_trans (hle base) hlow, Nat.lt_of_lt_of_le hhigh (hle' base)⟩

theorem Made.not_made (h : Made s s₁ name) : ¬ Made s₁ s' name := by
  rintro ⟨base', n', hbase', hname', hlow', -⟩
  obtain ⟨base, n, hbase, hname, -, hhigh⟩ := h
  obtain ⟨rfl, rfl⟩ := numbered_inj hbase hbase' (hname.symm.trans hname')
  omega

namespace Draws

theorem nil (s : NameSupply) : Draws s s [] :=
  ⟨fun _ => Nat.le_refl _, fun _ h => absurd h List.not_mem_nil, List.nodup_nil⟩

theorem fresh (h : s.fresh base = (name, s')) (hbase : Unnumbered base) : Draws s s' [name] := by
  refine ⟨fun base' => ?_, fun name' hname' => ?_, List.nodup_singleton _⟩
  · rw [next_fresh h]
    exact Nat.le_add_right _ _
  · refine ⟨base, s.next base, hbase, (List.mem_singleton.1 hname').trans (fresh_eq h),
      Nat.le_refl _, ?_⟩
    rw [next_fresh h, if_pos rfl]
    exact Nat.lt_succ_self _

theorem append (h : Draws s s₁ names) (h' : Draws s₁ s' names') : Draws s s' (names ++ names') := by
  refine ⟨fun base => Nat.le_trans (h.le base) (h'.le base), fun name hname => ?_, ?_⟩
  · rcases List.mem_append.1 hname with hname | hname
    · exact (h.made name hname).mono (fun _ => Nat.le_refl _) h'.le
    · exact (h'.made name hname).mono h.le fun _ => Nat.le_refl _
  · refine List.nodup_append.2 ⟨h.nodup, h'.nodup, ?_⟩
    rintro name hname _ hname' rfl
    exact (h.made name hname).not_made (h'.made name hname')

theorem three {base₁ base₂ base₃ name₁ name₂ name₃ : String} {s₂ s₃ : NameSupply}
    (h₁ : s.fresh base₁ = (name₁, s₁)) (h₂ : s₁.fresh base₂ = (name₂, s₂))
    (h₃ : s₂.fresh base₃ = (name₃, s₃))
    (hbases : ∀ base ∈ [base₁, base₂, base₃], Unnumbered base) :
    Draws s s₃ [name₁, name₂, name₃] :=
  ((fresh h₁ (hbases _ (by simp))).append (fresh h₂ (hbases _ (by simp)))).append
    (fresh h₃ (hbases _ (by simp)))

theorem weaken (h : Draws s s₁ names) (hle : ∀ base, s₁.next base ≤ s'.next base) :
    Draws s s' names :=
  ⟨fun base => Nat.le_trans (h.le base) (hle base),
    fun name hname => (h.made name hname).mono (fun _ => Nat.le_refl _) hle, h.nodup⟩

theorem perm (h : Draws s s' names) (hperm : names.Perm names') : Draws s s' names' :=
  ⟨h.le, fun name hname => h.made name (hperm.mem_iff.2 hname), hperm.nodup_iff.1 h.nodup⟩

theorem sublist (h : Draws s s' names) (hsub : names'.Sublist names) : Draws s s' names' :=
  ⟨h.le, fun name hname => h.made name (hsub.subset hname), h.nodup.sublist hsub⟩

end Draws

/-! ## Temporaries -/

def temporaryBases : List String := ["valname", "$ifExprTmp"]

def IsTemporary (name : String) : Prop := ∃ base ∈ temporaryBases, ∃ n, name = numbered base n

/-- The name is a temporary that has not been given out yet. -/
def Upcoming (s : NameSupply) (name : String) : Prop :=
  ∃ base ∈ temporaryBases, ∃ n, s.next base ≤ n ∧ name = numbered base n

theorem unnumbered_of_temporary (hbase : base ∈ temporaryBases) : Unnumbered base := by
  have hall : ∀ base ∈ temporaryBases, Unnumbered base := by decide +kernel
  exact hall base hbase

theorem Upcoming.isTemporary (h : Upcoming s name) : IsTemporary name := by
  obtain ⟨base, hbase, n, -, hname⟩ := h
  exact ⟨base, hbase, n, hname⟩

theorem Upcoming.mono (h : Upcoming s' name) (hle : ∀ base, s.next base ≤ s'.next base) :
    Upcoming s name := by
  obtain ⟨base, hbase, n, hn, hname⟩ := h
  exact ⟨base, hbase, n, Nat.le_trans (hle base) hn, hname⟩

theorem upcoming_fresh (h : s.fresh base = (name, s')) (hbase : base ∈ temporaryBases) :
    Upcoming s name :=
  ⟨base, hbase, s.next base, Nat.le_refl _, fresh_eq h⟩

theorem not_upcoming_fresh (h : s.fresh base = (name, s')) (hbase : base ∈ temporaryBases) :
    ¬ Upcoming s' name := by
  rintro ⟨base', hbase', n, hn, hname⟩
  obtain ⟨rfl, rfl⟩ := numbered_inj (unnumbered_of_temporary hbase)
    (unnumbered_of_temporary hbase') ((fresh_eq h).symm.trans hname)
  rw [next_fresh h, if_pos rfl] at hn
  omega

/-- Every temporary has at least one digit behind its base. -/
theorem not_isTemporary_of_length (hshort : name.length ≤ 7) : ¬ IsTemporary name := by
  rintro ⟨base, hbase, n, rfl⟩
  have hlong : ∀ base ∈ temporaryBases, 7 ≤ base.length := by decide +kernel
  have hbase := hlong base hbase
  have hdigits : 0 < (Decimal.natural n).length := by
    unfold Decimal.natural Decimal.digits
    rw [String.length_ofList]
    exact List.length_pos_iff.2 Nat.toDigits_ne_nil
  unfold numbered at hshort
  rw [String.length_append] at hshort
  omega

end Midend.NameSupply
