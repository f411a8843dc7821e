import Midend.Analysis.Copies
import Midend.Name.Lemmas
import Mathlib.Tactic.Tauto
/-!
# Copies and their index

What the operations on an environment of copies do to its two parts: what is known
about each variable (`get?_facts_overwrite`) and the copies of each origin
(`mem_copies_overwrite`).  The two always say the same (`Indexed`): the copies of
an origin are the variables that are known to be its copies.
-/

namespace Midend.Copies

open Midend.Flow

theorem origin?_eq_some_iff {env : Copies} {name origin : String} :
    env.origin? name = some origin ↔ env.facts.get? name = some (.known origin) := by
  unfold origin?
  split <;> simp_all

theorem mem_copies_iff {env : Copies} {origin name : String} :
    name ∈ env.copies origin ↔
      ∃ set, env.index.get? origin = some set ∧ (set.get? name).isSome := by
  unfold copies
  cases env.index.get? origin with
  | none => simp
  | some set => simp [NameMap.mem_keys]

def Indexed (env : Copies) : Prop :=
  ∀ origin name, name ∈ env.copies origin ↔ env.facts.get? name = some (.known origin)

/-! ## One more copy -/

theorem get?_addCopy (index : NameMap NameSet) (origin name other : String) :
    (addCopy index origin name).get? other =
      if other = origin then some (((index.get? origin).getD ∅).add name)
      else index.get? other :=
  NameMap.get?_insert _ _ _ _

theorem mem_copies_addCopy (facts : NameMap (Fact String)) (index : NameMap NameSet)
    (locals : NameSet) (origin name o n : String) :
    n ∈ copies ⟨facts, addCopy index origin name, locals⟩ o ↔
      n ∈ copies ⟨facts, index, locals⟩ o ∨ (o = origin ∧ n = name) := by
  rw [mem_copies_iff, mem_copies_iff]
  dsimp only
  rw [get?_addCopy]
  by_cases ho : o = origin
  · subst ho
    rw [if_pos rfl]
    simp only [Option.some.injEq, exists_eq_left', NameSet.add, NameMap.get?_insert]
    by_cases hn : n = name
    · simp [hn]
    · cases index.get? o with
      | none => simp [hn]; rfl
      | some set => simp [hn]
  · simp [ho]

/-! ## Overwriting -/

theorem facts_dropCopies (env : Copies) (name other : String) :
    (env.dropCopies name).facts.get? other =
      if other ∈ env.copies name then some .nac else env.facts.get? other :=
  NameMap.get?_foldl_insert (env.copies name) (fun _ => (.nac : Fact String)) env.facts other

theorem get?_index_dropCopies (env : Copies) (name other : String) :
    (env.dropCopies name).index.get? other =
      if other = name then none else env.index.get? other :=
  NameMap.get?_erase _ _ _

theorem mem_copies_dropCopies {env : Copies} {name origin n : String} :
    n ∈ (env.dropCopies name).copies origin ↔ origin ≠ name ∧ n ∈ env.copies origin := by
  rw [mem_copies_iff, mem_copies_iff, get?_index_dropCopies]
  by_cases h : origin = name <;> simp [h]

@[simp] theorem facts_detach (env : Copies) (name : String) :
    (env.detach name).facts = env.facts := by
  unfold detach
  split
  · split <;> rfl
  · rfl

@[simp] theorem locals_detach (env : Copies) (name : String) :
    (env.detach name).locals = env.locals := by
  unfold detach
  split
  · split <;> rfl
  · rfl

theorem isSome_index_detach (env : Copies) (name other : String) :
    ((env.detach name).index.get? other).isSome ↔ (env.index.get? other).isSome := by
  unfold detach
  split
  · split
    · rename_i set hset
      dsimp only
      rw [NameMap.get?_insert]
      split <;> simp_all
    · rfl
  · rfl

theorem mem_copies_detach {env : Copies} {name origin n : String} :
    n ∈ (env.detach name).copies origin ↔
      n ∈ env.copies origin ∧ ¬ (n = name ∧ env.origin? name = some origin) := by
  rw [mem_copies_iff, mem_copies_iff]
  unfold detach
  cases ho : env.origin? name with
  | none => simp
  | some o =>
      dsimp only
      cases hset : env.index.get? o with
      | none =>
          dsimp only
          constructor
          · rintro ⟨set, hget, hn⟩
            refine ⟨⟨set, hget, hn⟩, ?_⟩
            rintro ⟨-, heq⟩
            obtain rfl := Option.some.inj heq
            rw [hset] at hget
            exact nomatch hget
          · rintro ⟨h, -⟩
            exact h
      | some set =>
          dsimp only
          rw [NameMap.get?_insert]
          by_cases heq : origin = o
          · subst heq
            simp only [if_pos, Option.some.injEq, exists_eq_left', hset, NameMap.get?_erase]
            by_cases hn : n = name <;> simp [hn]
          · have hne : ¬ some o = some origin := fun h => heq (Option.some.inj h).symm
            simp [heq, hne]

theorem get?_facts_overwrite (env : Copies) (name other : String) :
    (env.overwrite name).facts.get? other =
      if other = name ∨ other ∈ env.copies name then some .nac else env.facts.get? other := by
  unfold overwrite
  dsimp only
  rw [NameMap.get?_insert, facts_detach, facts_dropCopies]
  by_cases h : other = name <;> simp [h]

@[simp] theorem locals_overwrite (env : Copies) (name : String) :
    (env.overwrite name).locals = env.locals :=
  locals_detach _ _

theorem isSome_index_overwrite (env : Copies) (name other : String) :
    ((env.overwrite name).index.get? other).isSome ↔
      other ≠ name ∧ (env.index.get? other).isSome := by
  have h := isSome_index_detach (env.dropCopies name) name other
  rw [get?_index_dropCopies] at h
  refine h.trans ?_
  by_cases heq : other = name <;> simp [heq]

theorem mem_copies_overwrite {env : Copies} (henv : Indexed env) {name origin n : String} :
    n ∈ (env.overwrite name).copies origin ↔
      origin ≠ name ∧ n ≠ name ∧ n ∈ env.copies origin := by
  have h : n ∈ (env.overwrite name).copies origin ↔
      n ∈ ((env.dropCopies name).detach name).copies origin := Iff.rfl
  rw [h, mem_copies_detach, mem_copies_dropCopies, origin?_eq_some_iff, facts_dropCopies]
  constructor
  · rintro ⟨⟨hne, hmem⟩, hnot⟩
    refine ⟨hne, ?_, hmem⟩
    rintro rfl
    have hknown := (henv origin n).1 hmem
    refine hnot ⟨rfl, ?_⟩
    rw [if_neg]
    · exact hknown
    · intro hself
      rw [(henv n n).1 hself] at hknown
      exact hne (Fact.known.inj (Option.some.inj hknown)).symm
  · rintro ⟨hne, hn, hmem⟩
    exact ⟨⟨hne, hmem⟩, fun h => hn h.1⟩

theorem Indexed.overwrite {env : Copies} (henv : Indexed env) (name : String) :
    Indexed (env.overwrite name) := by
  intro origin n
  rw [mem_copies_overwrite henv, get?_facts_overwrite, henv origin n]
  by_cases hn : n = name
  · simp [hn]
  · by_cases hmem : n ∈ env.copies name
    · have hknown := (henv name n).1 hmem
      simp only [hn, hmem, or_true, if_true, hknown]
      constructor
      · rintro ⟨hne, -, heq⟩
        exact absurd (Fact.known.inj (Option.some.inj heq)).symm hne
      · intro heq
        exact nomatch heq
    · simp only [hn, hmem, or_self, if_false, ne_eq, not_false_eq_true, true_and,
        and_iff_right_iff_imp]
      rintro hknown rfl
      exact hmem ((henv origin n).2 hknown)

/-! ## Copying -/

/-- The variable that a value comes from when `source` is copied. -/
def root (env : Copies) (source : String) : String := (env.origin? source).getD source

theorem copyFrom_eq (env : Copies) (name source : String) :
    env.copyFrom name source =
      if env.root source = name then env
      else ⟨(env.overwrite name).facts.insert name (.known (env.root source)),
        addCopy (env.overwrite name).index (env.root source) name, env.locals⟩ := by
  unfold copyFrom root
  dsimp only
  rw [locals_overwrite]

theorem Indexed.copyFrom {env : Copies} (henv : Indexed env) (name source : String) :
    Indexed (env.copyFrom name source) := by
  rw [copyFrom_eq]
  split
  · exact henv
  · intro origin n
    have hover := henv.overwrite name origin n
    rw [mem_copies_addCopy]
    dsimp only
    rw [NameMap.get?_insert]
    by_cases hn : n = name
    · subst hn
      have hnone : n ∉ (env.overwrite n).copies origin := fun hmem =>
        ((mem_copies_overwrite henv).1 hmem).2.1 rfl
      simp only [if_pos, Option.some.injEq, Fact.known.injEq]
      constructor
      · rintro (hmem | ⟨heq, -⟩)
        · exact absurd hmem hnone
        · exact heq.symm
      · exact fun heq => .inr ⟨heq.symm, trivial⟩
    · rw [if_neg hn, ← hover]
      constructor
      · rintro (hmem | ⟨-, heq⟩)
        · exact hmem
        · exact absurd heq hn
      · exact .inl

/-! ## The index of given facts -/

theorem mem_copies_foldl_addEntry (facts : NameMap (Fact String)) (locals : NameSet)
    (es : List (String × Fact String)) (index : NameMap NameSet) (origin name : String) :
    name ∈ copies ⟨facts, es.foldl addEntry index, locals⟩ origin ↔
      name ∈ copies ⟨facts, index, locals⟩ origin ∨ (name, Fact.known origin) ∈ es := by
  induction es generalizing index with
  | nil => simp
  | cons e es ih =>
      obtain ⟨n, fact⟩ := e
      rw [List.foldl_cons, ih, List.mem_cons]
      cases fact with
      | known o =>
          have h := mem_copies_addCopy facts index locals o n origin name
          simp only [addEntry, h, Prod.mk.injEq, Fact.known.injEq]
          tauto
      | undef => simp [addEntry]
      | nac => simp [addEntry]

theorem indexed_ofFacts (facts : NameMap (Fact String)) (locals : NameSet) :
    Indexed (ofFacts facts locals) := by
  intro origin name
  have hnone : name ∉ copies ⟨facts, ∅, locals⟩ origin := by
    rw [mem_copies_iff]
    rintro ⟨set, hset, -⟩
    exact nomatch hset
  rw [show ofFacts facts locals = ⟨facts, facts.entries.foldl addEntry ∅, locals⟩ from rfl,
    mem_copies_foldl_addEntry, NameMap.get?_eq_some_iff]
  simp [hnone]

/-! ## Statements -/

theorem Indexed.foldl_overwrite {env : Copies} (henv : Indexed env) (names : List String) :
    Indexed (names.foldl Copies.overwrite env) := by
  induction names generalizing env with
  | nil => exact henv
  | cons n ns ih => exact ih (henv.overwrite n)

theorem Indexed.afterCall {env : Copies} (henv : Indexed env) : Indexed env.afterCall :=
  henv.foldl_overwrite _

theorem Indexed.after {env : Copies} (henv : Indexed env) (s : Stmt) : Indexed (env.after s) := by
  unfold Copies.after
  split
  · split
    · exact henv
    · exact henv.copyFrom _ _
  · split
    · exact (henv.overwrite _).afterCall
    · exact henv.overwrite _
  · split
    · exact henv.afterCall
    · exact henv
  · exact henv

end Midend.Copies
