import Midend.Proofs.Copies.Meaning
/-!
# No chains of copies

The origin of a copy is no copy itself, and the index has exactly the copies that are known.  This
holds at the entry and is kept by every statement and every merge, so replacing operands twice is
the same as replacing them once (`obtained_wellFormed`).
-/

namespace Midend.Copies

open Midend.Flow

variable {env env' : Copies} {ctx : Context}

/-! ## Environments without chains -/

/-- The origin of every copy is another variable and no copy, and something is known about every
variable that is mentioned. -/
structure Unchained (env : Copies) : Prop where
  indexed : Indexed env
  origin_ne : ∀ name origin, env.facts.get? name = some (.known origin) → origin ≠ name
  origin_free : ∀ name origin, env.facts.get? name = some (.known origin) →
    ∀ o, env.facts.get? origin ≠ some (.known o)
  definite : ∀ name, env.facts.get? name ≠ some .undef

namespace Unchained

theorem of_keeps {gone : String → Prop} (h : Unchained env) (hindexed : Indexed env')
    (hkeeps : Keeps gone env env') : Unchained env' := by
  have hknown : ∀ {name origin}, env'.facts.get? name = some (.known origin) →
      env.facts.get? name = some (.known origin) := fun hfact =>
    ((hkeeps _ _ hfact).resolve_left nofun).1
  refine ⟨hindexed, fun name origin hfact => h.origin_ne name origin (hknown hfact),
    fun name origin hfact o ho => h.origin_free name origin (hknown hfact) o (hknown ho),
    fun name hfact => ?_⟩
  exact h.definite name ((hkeeps _ _ hfact).resolve_left nofun).1

theorem overwrite (h : Unchained env) (name : String) : Unchained (env.overwrite name) :=
  h.of_keeps (h.indexed.overwrite name) (keeps_overwrite h.indexed name)

theorem afterCall (h : Unchained env) : Unchained env.afterCall :=
  h.of_keeps h.indexed.afterCall (keeps_afterCall h.indexed)

theorem root_free (h : Unchained env) (source o : String) :
    env.facts.get? (env.root source) ≠ some (.known o) := by
  unfold root
  cases horigin : env.origin? source with
  | none => exact fun ho => nomatch horigin.symm.trans (origin?_eq_some_iff.2 ho)
  | some origin => exact h.origin_free source origin (origin?_eq_some_iff.1 horigin) o

theorem copyFrom (h : Unchained env) (name source : String) :
    Unchained (env.copyFrom name source) := by
  have hindexed := h.indexed.copyFrom name source
  rw [copyFrom_eq] at hindexed ⊢
  split
  · exact h
  · rename_i hne
    rw [if_neg hne] at hindexed
    have hover := h.overwrite name
    have hkeeps := keeps_overwrite h.indexed name
    -- what has just been written is the origin of no other copy
    have hother : ∀ {other fact}, (env.overwrite name).facts.get? other = some fact →
        ∀ origin, fact = .known origin → origin ≠ name := fun hfact origin heq =>
      ((hkeeps _ _ hfact).resolve_left (heq ▸ nofun)).2.2 origin heq
    have hroot : ∀ o, (env.overwrite name).facts.get? (env.root source) ≠ some (.known o) :=
      fun o ho => h.root_free source o ((hkeeps _ _ ho).resolve_left nofun).1
    refine ⟨hindexed, fun other origin hfact => ?_, fun other origin hfact o ho => ?_,
      fun other hfact => ?_⟩
    all_goals
      dsimp only at hfact
      rw [NameMap.get?_insert] at hfact
    · split at hfact
      · rename_i heq
        obtain rfl := Fact.known.inj (Option.some.inj hfact)
        exact heq ▸ hne
      · exact hover.origin_ne other origin hfact
    · dsimp only at ho
      rw [NameMap.get?_insert] at ho
      split at hfact
      · obtain rfl := Fact.known.inj (Option.some.inj hfact)
        rw [if_neg hne] at ho
        exact hroot o ho
      · rw [if_neg (hother hfact origin rfl)] at ho
        exact hover.origin_free other origin hfact o ho
    · split at hfact
      · exact nomatch hfact
      · exact hover.definite other hfact

theorem after (h : Unchained env) (s : Stmt) : Unchained (env.after s) := by
  unfold Copies.after
  split
  · split
    · exact h
    · exact h.copyFrom _ _
  · split
    · exact (h.overwrite _).afterCall
    · exact h.overwrite _
  · split
    · exact h.afterCall
    · exact h
  · exact h

theorem ofFacts_of_free {facts : NameMap (Fact String)} (locals : NameSet)
    (h : ∀ name fact, facts.get? name = some fact → fact = .nac) :
    Unchained (ofFacts facts locals) where
  indexed := indexed_ofFacts facts locals
  origin_ne _ _ hfact := nomatch h _ _ hfact
  origin_free _ _ hfact := nomatch h _ _ hfact
  definite _ hfact := nomatch h _ _ hfact

theorem entry (ctx : Context) : Unchained (entry ctx) := by
  refine ofFacts_of_free _ fun name fact hfact => ?_
  rw [NameMap.get?_ofNames] at hfact
  split at hfact
  · exact (Option.some.inj hfact).symm
  · exact nomatch hfact

theorem eq_known_of_merge {a b : Copies} (ha : Unchained a) (hb : Unchained b)
    {name origin : String} (h : (a.merge b).facts.get? name = some (.known origin)) :
    a.facts.get? name = some (.known origin) ∧ b.facts.get? name = some (.known origin) := by
  have hjoined : Fact.joined (a.facts.get? name) (b.facts.get? name) = some (.known origin) :=
    (NameMap.get?_combine_meet _ _ name).symm.trans h
  have hleft : Fact.Rises (a.facts.get? name) (some (.known origin)) :=
    hjoined ▸ Fact.rises_joined_left _ _
  have hright : Fact.Rises (b.facts.get? name) (some (.known origin)) :=
    hjoined ▸ Fact.rises_joined_right _ _
  exact ⟨hleft.eq_of_known.resolve_left (ha.definite name),
    hright.eq_of_known.resolve_left (hb.definite name)⟩

theorem merge {a b : Copies} (ha : Unchained a) (hb : Unchained b) : Unchained (a.merge b) where
  indexed := indexed_ofFacts _ _
  origin_ne name origin hfact := ha.origin_ne name origin (eq_known_of_merge ha hb hfact).1
  origin_free name origin hfact o ho :=
    ha.origin_free name origin (eq_known_of_merge ha hb hfact).1 o (eq_known_of_merge ha hb ho).1
  definite name hfact := by
    have hjoined : Fact.joined (a.facts.get? name) (b.facts.get? name) = some .undef :=
      (NameMap.get?_combine_meet _ _ name).symm.trans hfact
    exact ha.definite name (Fact.eq_undef_of_joined hjoined)

theorem resolve_resolve (h : Unchained env) (v : Value) :
    env.resolve (env.resolve v) = env.resolve v := by
  cases v with
  | id name =>
      have hfree : env.origin? (env.root name) = none := Option.eq_none_iff_forall_ne_some.2
        fun o ho => h.root_free name o (origin?_eq_some_iff.1 ho)
      have hresolve : env.resolve (.id name) = .id (env.root name) := rfl
      rw [hresolve, resolve, hfree]
      rfl
  | _ => rfl

end Unchained

/-! ## Environments of a body -/

/-- The environments that statements and merges make out of that at the entry. -/
inductive Obtained (ctx : Context) : Copies → Prop
  | entry : Obtained ctx (entry ctx)
  | step (s : Stmt) {env : Copies} (h : Obtained ctx env) : Obtained ctx (env.step s).2
  | merge {a b : Copies} (ha : Obtained ctx a) (hb : Obtained ctx b) : Obtained ctx (a.merge b)

theorem Obtained.unchained (h : Obtained ctx env) : Unchained env := by
  induction h with
  | entry => exact .entry ctx
  | step s _ ih => exact ih.after _
  | merge _ _ iha ihb => exact iha.merge ihb

theorem fact_eq_known_iff {name origin : String} :
    env.fact name = .known origin ↔ env.facts.get? name = some (.known origin) := by
  unfold fact
  rcases env.facts.get? name with _ | _ | _ | _ <;> simp

/-- In every environment of a body the index has exactly the known copies, the origin of a copy is
another variable that is no copy, nothing changes when operands are replaced again, and something is
known about every variable. -/
theorem obtained_wellFormed (h : Obtained ctx env) :
    (∀ origin name, name ∈ env.copies origin ↔ env.fact name = .known origin) ∧
      (∀ name origin, env.fact name = .known origin →
        origin ≠ name ∧ ∀ o, env.fact origin ≠ .known o) ∧
      (∀ s : Stmt, (s.map env.resolve).map env.resolve = s.map env.resolve) ∧
      ∀ name, env.facts.get? name ≠ some .undef := by
  have henv := h.unchained
  refine ⟨fun origin name => ?_, fun name origin hfact => ?_, fun s => ?_, henv.definite⟩
  · rw [fact_eq_known_iff, henv.indexed origin name]
  · rw [fact_eq_known_iff] at hfact
    exact ⟨henv.origin_ne name origin hfact,
      fun o ho => henv.origin_free name origin hfact o (fact_eq_known_iff.1 ho)⟩
  · rw [Stmt.map_map]
    exact congrArg s.map (funext henv.resolve_resolve)

def relayed (ss : List Stmt) : Copies :=
  ss.foldl (fun env s => (env.step s).2) (entry relayContext)

/-- Two ways to make `b` and `c` copies of `a`, on one of them by way of `b`. -/
def relayedTwice : Copies :=
  (relayed [.assign "b" (.value (.id "a")), .assign "c" (.value (.id "b"))]).merge
    (relayed [.assign "c" (.value (.id "a")), .assign "b" (.value (.id "c"))])

theorem obtained_wellFormed_relayedTwice :
    Obtained relayContext relayedTwice ∧ relayedTwice.copies "a" = ["b", "c"] ∧
      relayedTwice.fact "c" = .known "a" ∧
      (∀ o, relayedTwice.fact "a" ≠ .known o) ∧
      ∀ s : Stmt, (s.map relayedTwice.resolve).map relayedTwice.resolve =
        s.map relayedTwice.resolve := by
  have hobtained : Obtained relayContext relayedTwice :=
    .merge (.step _ (.step _ .entry)) (.step _ (.step _ .entry))
  have hfact : relayedTwice.fact "c" = .known "a" := by decide +kernel
  obtain ⟨-, hchain, hresolve, -⟩ := obtained_wellFormed hobtained
  exact ⟨hobtained, by decide +kernel, hfact, (hchain "c" "a" hfact).2, hresolve⟩

end Midend.Copies
