import Midend.Analysis.Fact
import Midend.Name.Lemmas
import Mathlib.Order.Defs.PartialOrder
import Mathlib.Algebra.Order.BigOperators.Group.List
import Mathlib.Algebra.Order.Ring.Nat
/-!
# The order of facts

`undef` lies below every fact and `nac` above; of two different known facts none
is below the other, and `merge` gives the least fact above both.  Facts about all
variables are compared one by one (`NameMap.Rises`).  A variable that is not
mentioned is not known to be anything, so it can only come to be mentioned as
`nac`.  `room` counts how often such facts can still rise.
-/

namespace Midend

namespace Fact

variable {α : Type}

/-- Whether the second fact says less than the first. -/
def le : Fact α → Fact α → Prop
  | undef, _ => True
  | _, nac => True
  | known a, known b => a = b
  | _, _ => False

instance : LE (Fact α) := ⟨le⟩

@[simp] theorem undef_le (x : Fact α) : undef ≤ x := by
  cases x <;> trivial

@[simp] theorem le_nac (x : Fact α) : x ≤ nac := by
  cases x <;> trivial

@[simp] theorem known_le_known {a b : α} : known a ≤ known b ↔ a = b := Iff.rfl

@[simp] theorem not_known_le_undef {a : α} : ¬ known a ≤ (undef : Fact α) := id

@[simp] theorem not_nac_le_undef : ¬ nac ≤ (undef : Fact α) := id

@[simp] theorem not_nac_le_known {a : α} : ¬ nac ≤ known a := id

instance : PartialOrder (Fact α) where
  le_refl x := by cases x <;> simp
  le_trans x y z hxy hyz := by cases x <;> cases y <;> cases z <;> simp_all
  le_antisymm x y hxy hyx := by cases x <;> cases y <;> simp_all

variable [DecidableEq α]

theorem le_merge_left (x y : Fact α) : x ≤ x.merge y := by
  cases x <;> cases y <;> simp [merge]
  split <;> simp_all

theorem le_merge_right (x y : Fact α) : y ≤ x.merge y := by
  cases x <;> cases y <;> simp [merge]
  split <;> simp_all

theorem merge_le {x y z : Fact α} (hx : x ≤ z) (hy : y ≤ z) : x.merge y ≤ z := by
  cases x <;> cases y <;> cases z <;> simp_all [merge]

/-- What a fact says, where `R` is what a known fact says.  That nothing is known yet is
said in places that no run has reached. -/
def Says (R : α → Prop) : Fact α → Prop
  | undef => False
  | known a => R a
  | nac => True

omit [DecidableEq α] in
theorem Says.of_le {R : α → Prop} {x y : Fact α} (h : x.Says R) (hle : x ≤ y) : y.Says R := by
  cases x with
  | undef => exact h.elim
  | known a =>
      cases y with
      | undef => exact hle.elim
      | known b =>
          obtain rfl : a = b := hle
          exact h
      | nac => trivial
  | nac =>
      cases y with
      | nac => trivial
      | _ => exact hle.elim

/-! ## One variable that may not be mentioned -/

def Rises : Option (Fact α) → Option (Fact α) → Prop
  | none, none => True
  | none, some y => y = nac
  | some _, none => False
  | some x, some y => x ≤ y

/-- How often what is known about a variable can still rise. -/
def room : Option (Fact α) → Nat
  | none => 1
  | some undef => 2
  | some (known _) => 1
  | some nac => 0

def joined (a b : Option (Fact α)) : Option (Fact α) :=
  if a.isSome ∨ b.isSome then some (meet a b) else none

theorem getD_joined (a b : Option (Fact α)) :
    (joined a b).getD nac = (a.getD nac).merge (b.getD nac) := by
  rcases a with _ | _ | _ | _ <;> rcases b with _ | _ | _ | _ <;> simp [joined, meet, merge]

omit [DecidableEq α] in
@[simp] theorem Rises.refl (a : Option (Fact α)) : Rises a a := by
  cases a with
  | none => trivial
  | some x => exact le_refl x

omit [DecidableEq α] in
theorem Rises.trans {a b c : Option (Fact α)} (hab : Rises a b) (hbc : Rises b c) :
    Rises a c := by
  cases a with
  | none =>
      cases b with
      | none => exact hbc
      | some y =>
          cases c with
          | none => trivial
          | some z =>
              obtain rfl : y = nac := hab
              have hz : nac ≤ z := hbc
              cases z <;> simp_all [Rises]
  | some x =>
      cases b with
      | none => exact hab.elim
      | some y =>
          cases c with
          | none => exact hbc.elim
          | some z => exact le_trans (show x ≤ y from hab) hbc

omit [DecidableEq α] in
theorem Rises.antisymm {a b : Option (Fact α)} (hab : Rises a b) (hba : Rises b a) : a = b := by
  cases a <;> cases b
  · rfl
  · exact hba.elim
  · exact hab.elim
  · exact congrArg some (le_antisymm hab hba)

theorem rises_joined_left (a b : Option (Fact α)) : Rises a (joined a b) := by
  cases a <;> cases b <;> simp [joined, meet, Rises, le_merge_left]

theorem rises_joined_right (a b : Option (Fact α)) : Rises b (joined a b) := by
  cases a <;> cases b <;> simp [joined, meet, Rises, le_merge_right]

theorem joined_rises {a b c : Option (Fact α)} (ha : Rises a c) (hb : Rises b c) :
    Rises (joined a b) c := by
  cases a <;> cases b <;> cases c <;> simp_all [joined, meet, Rises, merge_le]

omit [DecidableEq α] in
theorem Rises.eq_of_known {a : Option (Fact α)} {x : α} (h : Rises a (some (known x))) :
    a = some undef ∨ a = some (known x) := by
  rcases a with _ | _ | _ | _ <;> simp_all [Rises]

theorem eq_known_of_joined {a b : Option (Fact α)} {x : α} (h : joined a b = some (known x)) :
    a = some (known x) ∨ b = some (known x) := by
  have ha : Rises a (some (known x)) := h ▸ rises_joined_left a b
  have hb : Rises b (some (known x)) := h ▸ rises_joined_right a b
  rcases ha.eq_of_known with rfl | rfl
  · rcases hb.eq_of_known with rfl | rfl
    · simp [joined, meet, merge] at h
    · exact .inr rfl
  · exact .inl rfl

theorem eq_undef_of_joined {a b : Option (Fact α)} (h : joined a b = some undef) :
    a = some undef := by
  have ha : Rises a (some undef) := h ▸ rises_joined_left a b
  rcases a with _ | _ | _ | _ <;> simp_all [Rises]

omit [DecidableEq α] in
theorem room_le_two (a : Option (Fact α)) : room a ≤ 2 := by
  rcases a with _ | _ | _ | _ <;> simp [room]

omit [DecidableEq α] in
theorem Rises.room_le {a b : Option (Fact α)} (h : Rises a b) : room b ≤ room a := by
  rcases a with _ | _ | _ | _ <;> rcases b with _ | _ | _ | _ <;> simp_all [Rises, room]

omit [DecidableEq α] in
theorem Rises.room_lt {a b : Option (Fact α)} (h : Rises a b) (hne : a ≠ b) :
    room b < room a := by
  rcases a with _ | _ | _ | _ <;> rcases b with _ | _ | _ | _ <;> simp_all [Rises, room]

end Fact

/-! ## All variables -/

namespace NameMap

variable {α : Type}

def Rises (a b : NameMap (Fact α)) : Prop := ∀ name, Fact.Rises (a.get? name) (b.get? name)

theorem Rises.refl (a : NameMap (Fact α)) : Rises a a := fun _ => Fact.Rises.refl _

theorem Rises.trans {a b c : NameMap (Fact α)} (hab : Rises a b) (hbc : Rises b c) :
    Rises a c := fun name => (hab name).trans (hbc name)

theorem Rises.antisymm {a b : NameMap (Fact α)} (hab : Rises a b) (hba : Rises b a) : a = b :=
  NameMap.ext fun name => (hab name).antisymm (hba name)

section

variable [DecidableEq α]

theorem get?_combine_meet (a b : NameMap (Fact α)) (name : String) :
    (a.combine Fact.meet b).get? name = Fact.joined (a.get? name) (b.get? name) :=
  get?_combine _ _ _ _

theorem rises_combine_left (a b : NameMap (Fact α)) : Rises a (a.combine Fact.meet b) := by
  intro name
  rw [get?_combine_meet]
  exact Fact.rises_joined_left _ _

theorem rises_combine_right (a b : NameMap (Fact α)) : Rises b (a.combine Fact.meet b) := by
  intro name
  rw [get?_combine_meet]
  exact Fact.rises_joined_right _ _

theorem combine_rises {a b c : NameMap (Fact α)} (ha : Rises a c) (hb : Rises b c) :
    Rises (a.combine Fact.meet b) c := by
  intro name
  rw [get?_combine_meet]
  exact Fact.joined_rises (ha name) (hb name)

end

def room (names : List String) (m : NameMap (Fact α)) : Nat :=
  (names.map fun name => Fact.room (m.get? name)).sum

/-- Every mentioned variable is one of these names. -/
def Within (names : List String) (m : NameMap (Fact α)) : Prop :=
  ∀ name, (m.get? name).isSome → name ∈ names

theorem Within.combine [DecidableEq α] {names : List String} {a b : NameMap (Fact α)}
    (ha : a.Within names) (hb : b.Within names) : (a.combine Fact.meet b).Within names := by
  intro name hname
  rw [get?_combine_meet] at hname
  unfold Fact.joined at hname
  split at hname
  · rename_i hcase
    exact hcase.elim (ha name) (hb name)
  · exact nomatch hname

theorem room_le (names : List String) (m : NameMap (Fact α)) :
    m.room names ≤ 2 * names.length := by
  induction names with
  | nil => simp [room]
  | cons n ns ih =>
      have hn := Fact.room_le_two (m.get? n)
      simp only [room, List.map_cons, List.sum_cons, List.length_cons] at ih ⊢
      omega

theorem Rises.room_lt {a b : NameMap (Fact α)} (h : Rises a b) (hne : a ≠ b)
    {names : List String} (ha : a.Within names) (hb : b.Within names) :
    b.room names < a.room names := by
  obtain ⟨name, hname⟩ : ∃ name, a.get? name ≠ b.get? name := by
    by_contra hall
    exact hne (NameMap.ext fun name => Classical.not_not.1 fun h => hall ⟨name, h⟩)
  have hmem : name ∈ names := by
    cases hget : a.get? name with
    | some x => exact ha name (by rw [hget]; rfl)
    | none =>
        refine hb name (Option.isSome_iff_ne_none.2 fun hnone => hname ?_)
        rw [hget, hnone]
  exact List.sum_lt_sum _ _ (fun n _ => (h n).room_le) ⟨name, hmem, (h name).room_lt hname⟩

/-! ## What facts say -/

def Says (R : String → α → Prop) (m : NameMap (Fact α)) : Prop :=
  ∀ name fact, m.get? name = some fact → fact.Says (R name)

theorem Says.of_rises {R : String → α → Prop} {a b : NameMap (Fact α)} (h : a.Says R)
    (hrises : a.Rises b) : b.Says R := by
  intro name fact hfact
  have hname := hrises name
  rw [hfact] at hname
  cases hold : a.get? name with
  | none =>
      rw [hold] at hname
      obtain rfl : fact = .nac := hname
      trivial
  | some old =>
      rw [hold] at hname
      exact (h name old hold).of_le hname

theorem Says.combine [DecidableEq α] {R : String → α → Prop} {a b : NameMap (Fact α)}
    (h : a.Says R ∨ b.Says R) : (a.combine Fact.meet b).Says R := by
  rcases h with h | h
  · exact h.of_rises (rises_combine_left a b)
  · exact h.of_rises (rises_combine_right a b)

end NameMap

end Midend
