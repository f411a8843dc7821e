import Midend.Proofs.Heap.Holders
import Mathlib.Algebra.Order.BigOperators.Group.List
import Mathlib.Algebra.Order.Group.Nat
import Mathlib.Logic.Relation
/-!
# Scopes and stores

Opening and closing scopes, holding and letting go of objects, and writing fields all keep
the counts up with the holders.  Whoever adds a holder must leave its count room for it;
whoever takes a holder away succeeds.
-/

namespace Midend.Heap

variable {h h' : Heap} {owed base : Ref → Nat} {r x : Ref}

/-- Every count covers the holders of its object, and nothing is owed. -/
abbrev Sound (h : Heap) : Prop := Covered h fun _ => 0

/-- Some object has all the holders that a count can stand for. -/
def Full (h : Heap) : Prop := ∃ r, 2 ^ 32 - 1 ≤ h.holders r

theorem length_referencesAt_le (h : Heap) (addr : Nat) :
    (h.referencesAt addr).length ≤ bitmapBits := by
  unfold referencesAt
  refine Nat.le_trans (List.length_filter_le _ _) ?_
  rw [List.length_map]
  refine Nat.le_trans (List.length_filter_le _ _) ?_
  rw [List.length_range]
  exact Nat.min_le_right _ _

theorem count_refsOf_le (h : Heap) (r x : Ref) : (h.refsOf r).count x ≤ bitmapBits := by
  refine Nat.le_trans List.count_le_length ?_
  unfold refsOf
  split
  · exact length_referencesAt_le h _
  · exact Nat.zero_le _

theorem Full.large (hfull : Full h) :
    2 ^ 32 - 1 ≤ h.outer.length + 1 + h.table.length * bitmapBits := by
  obtain ⟨r, hle⟩ := hfull
  have hscopes : h.scopesHolding r ≤ h.outer.length + 1 := List.countP_le_length
  have hfields : h.fieldsHolding r ≤ h.table.length * bitmapBits := by
    have hterms : ∀ n ∈ h.inUse.map fun x => if h.countOf x = 0 then 0 else (h.refsOf x).count r,
        n ≤ bitmapBits := by
      intro n hn
      obtain ⟨x, -, rfl⟩ := List.mem_map.1 hn
      split
      · exact Nat.zero_le _
      · exact count_refsOf_le h x r
    have hsum : h.fieldsHolding r ≤ (h.inUse.map fun x =>
        if h.countOf x = 0 then 0 else (h.refsOf x).count r).length * bitmapBits :=
      List.sum_le_card_nsmul _ _ hterms
    rw [List.length_map] at hsum
    unfold inUse at hsum
    rw [List.length_map] at hsum
    exact hsum
  unfold holders at hle
  omega

theorem scopesHolding_pos {scope : List Ref} (hscope : scope ∈ h.roots :: h.outer)
    (hr : r ∈ scope) : 0 < h.scopesHolding r :=
  List.countP_pos_iff.2 ⟨scope, hscope, decide_eq_true hr⟩

theorem fieldsHolding_pos (hlive : 0 < h.countOf x) (hr : r ∈ h.refsOf x) :
    0 < h.fieldsHolding r := by
  have hterm : (h.refsOf x).count r ∈
      h.inUse.map fun y => if h.countOf y = 0 then 0 else (h.refsOf y).count r :=
    List.mem_map.2 ⟨x, mem_inUse_of_countOf hlive, if_neg (by omega)⟩
  exact Nat.lt_of_lt_of_le (List.count_pos_iff.2 hr) (List.le_sum_of_mem hterm)

theorem Covered.live_of_mem_scope (hc : Covered h owed) {scope : List Ref}
    (hscope : scope ∈ h.roots :: h.outer) (hr : r ∈ scope) : 0 < h.countOf r := by
  have hheld := scopesHolding_pos hscope hr
  have henough := hc.enough r
  unfold holders at henough
  omega

theorem Covered.live_of_mem_refsOf (hc : Covered h owed) (hlive : 0 < h.countOf x)
    (hr : r ∈ h.refsOf x) : 0 < h.countOf r := by
  have hheld := fieldsHolding_pos hlive hr
  have henough := hc.enough r
  unfold holders at henough
  omega

/-- A field of a living object holds another object. -/
def Holds (h : Heap) (x y : Ref) : Prop := 0 < h.countOf x ∧ y ∈ h.refsOf x

theorem Covered.live_of_reached (hc : Covered h owed) (hlive : 0 < h.countOf x)
    (hreached : Relation.ReflTransGen h.Holds x r) : 0 < h.countOf r := by
  induction hreached with
  | refl => exact hlive
  | tail _ hholds ih => exact hc.live_of_mem_refsOf hholds.1 hholds.2

/-! ## Scopes -/

theorem Tidy.withScopes (ht : Tidy h) {roots : List Ref} {outer : List (List Ref)}
    (hnodup : ∀ scope ∈ roots :: outer, scope.Nodup) :
    Tidy { h with roots := roots, outer := outer } where
  laid := ht.laid.congr rfl rfl rfl (fun _ _ => rfl) fun _ _ => rfl
  numbered := ⟨ht.numbered.nodup, ht.numbered.mem_iff, ht.numbered.last_le⟩
  nodup_scopes := hnodup

theorem scopesHolding_cons (h : Heap) (roots : List Ref) (outer : List (List Ref)) (x : Ref) :
    ({ h with roots := roots, outer := outer } : Heap).scopesHolding x =
      outer.countP (fun scope => x ∈ scope) + if x ∈ roots then 1 else 0 := by
  unfold scopesHolding
  rw [List.countP_cons]
  simp only [decide_eq_true_eq]

theorem scopesHolding_eq (h : Heap) (x : Ref) :
    h.scopesHolding x = h.outer.countP (fun scope => x ∈ scope) + if x ∈ h.roots then 1 else 0 :=
  scopesHolding_cons h h.roots h.outer x

theorem countP_root {roots : List Ref} (outer : List (List Ref)) (hnew : r ∉ roots) (x : Ref) :
    ((roots ++ [r]) :: outer).countP (fun scope => x ∈ scope) =
      (roots :: outer).countP (fun scope => x ∈ scope) + if x = r then 1 else 0 := by
  have hmem : x ∈ roots ++ [r] ↔ x ∈ roots ∨ x = r := by
    rw [List.mem_append, List.mem_singleton]
  rw [List.countP_cons, List.countP_cons]
  simp only [decide_eq_true_eq]
  by_cases heq : x = r
  · subst heq
    rw [if_pos (hmem.2 (.inr rfl)), if_neg hnew, if_pos rfl]
  · have hiff : x ∈ roots ++ [r] ↔ x ∈ roots := by
      rw [hmem]
      exact or_iff_left heq
    simp only [hiff]
    rw [if_neg heq, Nat.add_zero]

theorem nodup_root {roots : List Ref} {outer : List (List Ref)}
    (hnodup : ∀ scope ∈ roots :: outer, scope.Nodup) (hnew : r ∉ roots) :
    ∀ scope ∈ (roots ++ [r]) :: outer, scope.Nodup := by
  intro scope hscope
  rcases List.mem_cons.1 hscope with rfl | hscope
  · refine List.nodup_append.2
      ⟨hnodup roots List.mem_cons_self, List.nodup_singleton r, ?_⟩
    rintro a ha b hb rfl
    obtain rfl : a = r := List.mem_singleton.1 hb
    exact hnew ha
  · exact hnodup scope (List.mem_cons_of_mem _ hscope)

theorem nodup_unrooted {roots : List Ref} {outer : List (List Ref)}
    (hnodup : ∀ scope ∈ roots :: outer, scope.Nodup) (r : Ref) :
    ∀ scope ∈ roots.filter (· ≠ r) :: outer, scope.Nodup := by
  obtain ⟨hroots, houter⟩ := List.forall_mem_cons.1 hnodup
  exact List.forall_mem_cons.2 ⟨hroots.filter _, houter⟩

theorem holders_opened (h : Heap) (x : Ref) : (run openScope h).2.holders x = h.holders x := by
  have hcons := scopesHolding_cons h [] (h.roots :: h.outer) x
  rw [if_neg List.not_mem_nil, Nat.add_zero] at hcons
  exact congrArg (· + h.fieldsHolding x) hcons

theorem holders_rooted (hnew : r ∉ h.roots) (x : Ref) :
    ({ h with roots := h.roots ++ [r], outer := h.outer } : Heap).holders x =
      h.holders x + if x = r then 1 else 0 := by
  have hroot : ({ h with roots := h.roots ++ [r], outer := h.outer } : Heap).scopesHolding x =
      h.scopesHolding x + if x = r then 1 else 0 := countP_root h.outer hnew x
  have hfields : ({ h with roots := h.roots ++ [r], outer := h.outer } : Heap).fieldsHolding x =
      h.fieldsHolding x := rfl
  unfold holders
  omega

theorem holders_unrooted (hrooted : r ∈ h.roots) (x : Ref) :
    ({ h with roots := h.roots.filter (· ≠ r), outer := h.outer } : Heap).holders x +
      (if x = r then 1 else 0) = h.holders x := by
  have hcons := scopesHolding_cons h (h.roots.filter (· ≠ r)) h.outer x
  have heq := scopesHolding_eq h x
  have hfields : ({ h with roots := h.roots.filter (· ≠ r), outer := h.outer } :
      Heap).fieldsHolding x = h.fieldsHolding x := rfl
  unfold holders
  by_cases hxr : x = r
  · subst hxr
    rw [if_neg (by simp)] at hcons
    rw [if_pos hrooted] at heq
    rw [if_pos rfl]
    omega
  · have hiff : x ∈ h.roots.filter (· ≠ r) ↔ x ∈ h.roots := by
      rw [List.mem_filter]
      exact and_iff_left (decide_eq_true hxr)
    simp only [hiff] at hcons
    rw [if_neg hxr]
    omega

theorem Tidy.holders_closed (ht : Tidy h) {scope : List Ref} {outer : List (List Ref)}
    (hcase : h.outer = scope :: outer) (x : Ref) :
    ({ h with roots := scope, outer := outer } : Heap).holders x + h.roots.count x =
      h.holders x := by
  have hcount : h.roots.count x = if x ∈ h.roots then 1 else 0 :=
    (ht.nodup_scopes h.roots List.mem_cons_self).count
  have hscopes := scopesHolding_eq h x
  have hinner : ({ h with roots := scope, outer := outer } : Heap).scopesHolding x =
      h.outer.countP fun scope => x ∈ scope := by
    rw [hcase]
    rfl
  have hfields : ({ h with roots := scope, outer := outer } : Heap).fieldsHolding x =
      h.fieldsHolding x := rfl
  unfold holders
  omega

theorem Covered.openScope (hs : Sound h) : Sound (run openScope h).2 := by
  have hnodup : ∀ scope ∈ [] :: h.roots :: h.outer, scope.Nodup :=
    List.forall_mem_cons.2 ⟨List.nodup_nil, hs.nodup_scopes⟩
  refine ⟨hs.withScopes hnodup, fun x => ?_⟩
  rw [holders_opened]
  exact hs.enough x

theorem letGoAll_spec (base : Ref → Nat) (rs : List Ref)
    (hc : Covered h fun x => base x + rs.count x) :
    ∃ h', run (letGoAll rs) h = (.ok (), h') ∧ Recounted h h' ∧ Covered h' base := by
  induction rs generalizing h with
  | nil => exact ⟨h, rfl, Recounted.refl h, hc.weaken fun x => Nat.le_add_right _ _⟩
  | cons r rs ih =>
      have howed : 0 < base r + (r :: rs).count r := by
        rw [List.count_cons_self]
        omega
      have hpaid : ∀ x, base x + rs.count x + (if x = r then 1 else 0) ≤
          base x + (r :: rs).count x := by
        intro x
        by_cases heq : x = r
        · subst heq
          rw [if_pos rfl, List.count_cons_self]
          omega
        · rw [if_neg heq, List.count_cons_of_ne (Ne.symm heq)]
          omega
      obtain ⟨h₁, hrun₁, hre₁, hc₁⟩ :=
        hc.addToCount_down (fun x => base x + rs.count x) howed (.inl rfl) hpaid
      obtain ⟨h₂, hrun₂, hre₂, hc₂⟩ := ih hc₁
      refine ⟨h₂, ?_, hre₁.trans hre₂, hc₂⟩
      unfold letGoAll
      rw [run_bind_ok hrun₁, hrun₂]

theorem Covered.closeScope (hs : Sound h) (houter : h.outer ≠ []) :
    ∃ h', run closeScope h = (.ok (), h') ∧ Sound h' := by
  obtain ⟨scope, outer, hcase, hrun⟩ :=
    (closeScope_cases h).resolve_left fun hbase => houter hbase.1
  have hnodup : ∀ s ∈ scope :: outer, s.Nodup := fun s hmem =>
    hs.nodup_scopes s (by rw [hcase]; exact List.mem_cons_of_mem _ hmem)
  -- one holder of each root goes with the scope, and its count is owed until it is paid
  have hpopped : Covered { h with roots := scope, outer := outer }
      fun x => 0 + h.roots.count x := by
    refine ⟨hs.withScopes hnodup, fun x => ?_⟩
    have hclosed := hs.toTidy.holders_closed hcase x
    have henough := hs.enough x
    change 0 + h.roots.count x + _ ≤ h.countOf x
    omega
  obtain ⟨h', hletGo, -, hc'⟩ := letGoAll_spec (fun _ => 0) h.roots hpopped
  exact ⟨h', hrun.trans hletGo, hc'⟩

theorem Covered.backed (hs : Sound h) (hlive : 0 < h.countOf r) : Backed h r := by
  intro x
  have henough := hs.enough x
  rw [regained_of_live hlive]
  omega

theorem Backed.room (hbacked : Backed h r) (hroom : ¬ Full h) :
    h.holders r + h.regained r r < 2 ^ 32 - 1 := by
  have hfull : h.holders r < 2 ^ 32 - 1 := Nat.lt_of_not_le fun hle => hroom ⟨r, hle⟩
  have hself := hbacked r
  by_cases hdead : h.countOf r = 0
  · omega
  · rw [regained_of_live (Nat.pos_of_ne_zero hdead)]
    exact hfull

theorem Covered.hold (hs : Sound h) (hr : r = 0 ∨ r ∈ h.inUse ∧ Backed h r) (hroom : ¬ Full h) :
    ∃ h', run (hold r) h = (.ok (), h') ∧ Sound h' := by
  rcases hold_cases hs.laid r with ⟨-, hrun⟩ | ⟨hzero, hunused, -⟩ | ⟨hused, hnew, hrun⟩
  · exact ⟨h, hrun, hs⟩
  · exact absurd (hr.resolve_left hzero).1 hunused
  · have hne := ne_of_mem_of_not_mem hused hs.toTidy.zero_notMem_inUse
    have hbacked := (hr.resolve_left hne).2
    have hheld := holders_rooted hnew
    have henough : ∀ x,
        0 + ({ h with roots := h.roots ++ [r], outer := h.outer } : Heap).holders x +
          h.regained r x ≤ h.countOf x + if x = r then 1 else 0 := by
      intro x
      have hbacked := hbacked x
      rw [hheld]
      omega
    have hfits : 0 + ({ h with roots := h.roots ++ [r], outer := h.outer } : Heap).holders r +
        h.regained r r < 2 ^ 32 := by
      have hroom := hbacked.room hroom
      rw [hheld, if_pos rfl]
      omega
    obtain ⟨h', hup, -, hc'⟩ := (hs.withScopes (nodup_root hs.nodup_scopes hnew)).addToCount_up
      hused (.inl rfl) false henough hfits
    exact ⟨h', hrun.trans hup, hc'⟩

theorem Covered.letGo (hs : Sound h) (hrooted : r = 0 ∨ r ∈ h.roots) :
    ∃ h', run (letGo r) h = (.ok (), h') ∧ Sound h' := by
  rcases letGo_cases hs.laid r with ⟨-, hrun⟩ | ⟨hzero, hunused, -⟩ | ⟨hused, hrun⟩
  · exact ⟨h, hrun, hs⟩
  · have hlive := hs.live_of_mem_scope List.mem_cons_self (hrooted.resolve_left hzero)
    exact absurd (mem_inUse_of_countOf hlive) hunused
  · have hne := ne_of_mem_of_not_mem hused hs.toTidy.zero_notMem_inUse
    have hroots := hrooted.resolve_left hne
    -- a root stands in its scope once, so one holder goes and one count is owed
    have hreleased : Covered { h with roots := h.roots.filter (· ≠ r), outer := h.outer }
        fun x => if x = r then 1 else 0 := by
      refine ⟨hs.withScopes (nodup_unrooted hs.nodup_scopes r), fun x => ?_⟩
      have hunrooted := holders_unrooted hroots x
      have henough := hs.enough x
      change (if x = r then 1 else 0) + _ ≤ h.countOf x
      omega
    have howed : 0 < if r = r then 1 else 0 := by
      rw [if_pos rfl]
      exact Nat.one_pos
    obtain ⟨h', hdown, -, hc'⟩ :=
      hreleased.addToCount_down (fun _ => 0) howed (.inl rfl) fun x => by omega
    exact ⟨h', hrun.trans hdown, hc'⟩

end Midend.Heap
