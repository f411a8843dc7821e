import Midend.Proofs.Constants.Environment
import Midend.Proofs.Copies.Rest
import Mathlib.Order.Bounds.Basic
/-!
# Merging environments

The merge of two environments says about each variable the least that is above what both say, where
a variable that one of them does not mention is not known to be anything.  So it does not matter in
which order environments are merged, nor how often, nor whether one is merged that nothing is known
in yet (`merge_isJoin`).
-/

namespace Midend

namespace Fact

variable {α : Type} [DecidableEq α]

theorem isLUB_merge (x y : Fact α) : IsLUB {x, y} (x.merge y) := by
  refine ⟨?_, fun z hz => ?_⟩
  · rintro z (rfl | rfl)
    · exact le_merge_left z y
    · exact le_merge_right x z
  · exact merge_le (hz (Set.mem_insert x {y})) (hz (Set.mem_insert_of_mem x rfl))

end Fact

namespace NameMap

variable {α : Type} {a b : NameMap (Fact α)}

theorem eq_iff_keys_and_facts : a = b ↔ (∀ name, name ∈ a.keys ↔ name ∈ b.keys) ∧
    ∀ name, (a.get? name).getD .nac = (b.get? name).getD .nac := by
  refine ⟨fun h => h ▸ ⟨fun _ => Iff.rfl, fun _ => rfl⟩, fun ⟨hkeys, hfacts⟩ => ext fun name => ?_⟩
  have hkey := hkeys name
  have hfact := hfacts name
  rw [mem_keys, mem_keys] at hkey
  cases ha : a.get? name <;> cases hb : b.get? name <;> simp_all

theorem undef_rises {names : List String} (h : ∀ name, name ∈ a.keys ↔ name ∈ names) :
    (ofNames names fun _ => .undef).Rises a := by
  intro name
  have hname := h name
  rw [mem_keys] at hname
  rw [get?_ofNames]
  split <;> cases hget : a.get? name <;> simp_all [Fact.Rises]

variable [DecidableEq α]

/-! The merge is the least that both rise to, and what is least is the same in every order. -/

theorem combine_meet_comm (a b : NameMap (Fact α)) :
    a.combine Fact.meet b = b.combine Fact.meet a :=
  (combine_rises (rises_combine_right b a) (rises_combine_left b a)).antisymm
    (combine_rises (rises_combine_right a b) (rises_combine_left a b))

theorem combine_meet_assoc (a b c : NameMap (Fact α)) :
    (a.combine Fact.meet b).combine Fact.meet c = a.combine Fact.meet (b.combine Fact.meet c) := by
  have hbc := rises_combine_right a (b.combine Fact.meet c)
  have hab := rises_combine_left (a.combine Fact.meet b) c
  refine Rises.antisymm (combine_rises (combine_rises (rises_combine_left _ _) ?_) ?_)
    (combine_rises ?_ (combine_rises ?_ (rises_combine_right _ _)))
  · exact (rises_combine_left b c).trans hbc
  · exact (rises_combine_right b c).trans hbc
  · exact (rises_combine_left a b).trans hab
  · exact (rises_combine_right a b).trans hab

theorem combine_meet_eq_right (h : a.Rises b) : a.combine Fact.meet b = b :=
  (combine_rises h (.refl b)).antisymm (rises_combine_right a b)

end NameMap

open Analysis (unreached merge same)

variable {E α : Type} [DecidableEq α] [Analysis E]

/-- Merging is the join of what environments know, where `fact` is what one knows about a variable
and `names` are the variables that it mentions. -/
structure JoinsFacts (fact : E → String → Fact α) (names : E → List String) : Prop where
  same_iff : ∀ a b : E, same a b = true ↔
    (∀ name, name ∈ names a ↔ name ∈ names b) ∧ ∀ name, fact a name = fact b name
  mem_names : ∀ a b : E, ∀ name, name ∈ names (merge a b) ↔ name ∈ names a ∨ name ∈ names b
  isLUB : ∀ a b : E, ∀ name, IsLUB {fact a name, fact b name} (fact (merge a b) name)
  assoc : ∀ a b c : E, same (merge (merge a b) c) (merge a (merge b c)) = true
  comm : ∀ a b : E, same (merge a b) (merge b a) = true
  idem : ∀ a : E, same (merge a a) a = true
  /-- Nothing changes by an environment that nothing is known in yet. -/
  unreached_merge : ∀ ctx, ∀ a : E, (∀ name, name ∈ names a ↔ name ∈ ctx.names) →
    same (merge (unreached ctx) a) a = true
  merge_unreached : ∀ ctx, ∀ a : E, (∀ name, name ∈ names a ↔ name ∈ ctx.names) →
    same (merge a (unreached ctx)) a = true

theorem FactBased.joinsFacts [FactBased E α] (h : ∀ ctx,
      FactBased.facts (unreached ctx : E) = NameMap.ofNames ctx.names fun _ => .undef) :
    JoinsFacts (fun (env : E) name => ((facts env).get? name).getD .nac)
      fun env => (facts env).keys where
  same_iff a b := (same_iff a b).trans NameMap.eq_iff_keys_and_facts
  mem_names a b name := by
    rw [facts_merge, NameMap.mem_keys, NameMap.mem_keys, NameMap.mem_keys, NameMap.get?_combine]
    split <;> simp_all
  isLUB a b name := by
    rw [facts_merge, NameMap.get?_combine_meet, Fact.getD_joined]
    exact Fact.isLUB_merge _ _
  assoc a b c := by
    rw [same_iff, facts_merge, facts_merge, facts_merge, facts_merge]
    exact NameMap.combine_meet_assoc _ _ _
  comm a b := by
    rw [same_iff, facts_merge, facts_merge]
    exact NameMap.combine_meet_comm _ _
  idem a := by
    rw [same_iff, facts_merge]
    exact NameMap.combine_meet_eq_right (.refl _)
  unreached_merge ctx a hnames := by
    rw [same_iff, facts_merge, h]
    exact NameMap.combine_meet_eq_right (NameMap.undef_rises hnames)
  merge_unreached ctx a hnames := by
    rw [same_iff, facts_merge, h, NameMap.combine_meet_comm]
    exact NameMap.combine_meet_eq_right (NameMap.undef_rises hnames)

/-- Merging is a join, for constants and for copies, whatever variables the environments mention. -/
theorem merge_isJoin :
    JoinsFacts Constants.fact (fun env : Constants => env.facts.keys) ∧
      JoinsFacts Copies.fact fun env : Copies => env.facts.keys :=
  ⟨FactBased.joinsFacts fun _ => rfl, FactBased.joinsFacts fun _ => rfl⟩

end Midend
