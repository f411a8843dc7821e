import Midend.Proofs.Heap.Moving
import Midend.Proofs.Heap.Scopes
/-!
# Making objects

A new object may come with a compaction, which takes nothing away that is held.  The
object gets a number that nothing holds, and its only holder is the innermost scope.
-/

namespace Midend.Heap

variable {h h' : Heap} {owed : Ref → Nat} {r x : Ref} {fields : Nat} {bitmap : UInt32}

/-! ## Compaction -/

/-- A sum over some members of a list, when the others contribute nothing. -/
theorem sum_map_filter {α : Type} (xs : List α) (p : α → Bool) (f : α → Nat)
    (hzero : ∀ a ∈ xs, p a = false → f a = 0) : ((xs.filter p).map f).sum = (xs.map f).sum := by
  induction xs with
  | nil => rfl
  | cons a xs ih =>
      have hrest := ih fun b hb => hzero b (List.mem_cons_of_mem _ hb)
      rw [List.filter_cons, List.map_cons, List.sum_cons]
      cases hp : p a with
      | false =>
          rw [if_neg Bool.false_ne_true, hrest, hzero a List.mem_cons_self hp, Nat.zero_add]
      | true => rw [if_pos rfl, List.map_cons, List.sum_cons, hrest]

theorem Laid.fieldsHolding_compacted (hl : Laid h) (x : Ref) :
    h.compacted.fieldsHolding x = h.fieldsHolding x := by
  unfold fieldsHolding
  rw [hl.inUse_compacted, ← sum_map_filter h.inUse (fun r => decide (0 < h.countOf r))]
  · refine congrArg List.sum (List.map_congr_left fun y hy => ?_)
    have hlive := of_decide_eq_true (List.mem_filter.1 hy).2
    rw [hl.countOf_compacted, hl.refsOf_compacted hlive]
  · intro y _ hdead
    exact if_pos (Nat.eq_zero_of_not_pos (of_decide_eq_false hdead))

theorem Covered.scopes_compacted (hc : Covered h owed) :
    h.compacted.roots = h.roots ∧ h.compacted.outer = h.outer := by
  obtain ⟨hroots, houter⟩ := hc.laid.scopes_compacted
  have hself : ∀ scope ∈ h.roots :: h.outer,
      scope.filter (fun r => 0 < h.countOf r) = scope := fun scope hscope =>
    List.filter_eq_self.2 fun r hr => decide_eq_true (hc.live_of_mem_scope hscope hr)
  refine ⟨hroots.trans (hself _ List.mem_cons_self), houter.trans ?_⟩
  conv_rhs => rw [← List.map_id h.outer]
  exact List.map_congr_left fun scope hscope => hself scope (List.mem_cons_of_mem _ hscope)

theorem Covered.holders_compacted (hc : Covered h owed) (x : Ref) :
    h.compacted.holders x = h.holders x := by
  obtain ⟨hroots, houter⟩ := hc.scopes_compacted
  have hscopes : h.compacted.scopesHolding x = h.scopesHolding x := by
    unfold scopesHolding
    rw [hroots, houter]
  unfold holders
  rw [hscopes, hc.laid.fieldsHolding_compacted]

theorem Covered.tidy_compacted (hc : Covered h owed) : Tidy h.compacted := by
  obtain ⟨hroots, houter⟩ := hc.scopes_compacted
  refine ⟨hc.laid.compacted, hc.numbered.compacted hc.laid, ?_⟩
  rw [hroots, houter]
  exact hc.nodup_scopes

theorem Covered.compacted (hc : Covered h owed) : Covered h.compacted owed := by
  refine ⟨hc.tidy_compacted, fun x => ?_⟩
  rw [hc.holders_compacted, hc.laid.countOf_compacted]
  exact hc.enough x

theorem reserve_cases (hl : Laid h) (words : Nat) :
    (∃ h', (h' = h ∨ h' = h.compacted) ∧ run (reserve words) h = (.ok (), h') ∧
        h'.top + words ≤ h'.capacity) ∨
      ∃ fault, run (reserve words) h = (.error fault, h.compacted) := by
  have htop := hl.top_compacted_le
  have hcapacity := hl.capacity_compacted
  have hcompact : run compact h = (.ok h.compacted.top, h.compacted) := rfl
  unfold reserve
  rw [run_bind_ok (run_get h)]
  by_cases hroom : h.hasRoom words = true
  · have hfits : h.top + words ≤ h.capacity := of_decide_eq_true hroom
    rw [if_neg (by simp [hroom])]
    by_cases hmany : h.capacity / 2 < h.reclaimable
    · rw [if_pos hmany, run_bind_ok hcompact]
      exact .inl ⟨h.compacted, .inr rfl, rfl, by omega⟩
    · rw [if_neg hmany]
      exact .inl ⟨h, .inl rfl, rfl, hfits⟩
  · rw [if_pos (by simp [hroom]), run_bind_ok hcompact, run_bind_ok (run_get h.compacted)]
    by_cases hroom' : h.compacted.hasRoom words = true
    · rw [if_neg (by simp [hroom'])]
      exact .inl ⟨h.compacted, .inr rfl, rfl, of_decide_eq_true hroom'⟩
    · rw [if_pos (by simp [hroom'])]
      exact .inr ⟨_, rfl⟩

/-! ## Numbers -/

theorem Numbered.recycled (hn : Numbered h []) {free : List Ref} (hfree : h.free = r :: free) :
    Numbered { h with free := free } [r] := by
  obtain ⟨hnodup, hmem, hlast⟩ := hn
  have hperm : ([] ++ (h.inUse ++ h.free)).Perm ([r] ++ (h.inUse ++ free)) := by
    rw [hfree]
    exact List.perm_middle
  refine ⟨hperm.nodup_iff.1 hnodup, fun x => ?_, hlast⟩
  exact (hperm.mem_iff.symm.trans (hmem x))

theorem Numbered.fresh (hn : Numbered h []) (hbelow : h.last < h.limits.maxRef) :
    Numbered { h with last := h.last + 1 } [h.last + 1] := by
  obtain ⟨hnodup, hmem, -⟩ := hn
  have hmax := UInt32.toNat_lt h.limits.maxRef
  have hlt := UInt32.lt_iff_toNat_lt.1 hbelow
  have hnext : (h.last + 1).toNat = h.last.toNat + 1 := by
    rw [UInt32.toNat_add, UInt32.toNat_one]
    exact Nat.mod_eq_of_lt (by omega)
  constructor
  · refine List.nodup_cons.2 ⟨fun hused => ?_, hnodup⟩
    have hle := UInt32.le_iff_toNat_le.1 ((hmem _).1 hused).2
    omega
  · intro x
    have hold := hmem x
    rw [List.nil_append] at hold
    rw [List.singleton_append, List.mem_cons]
    change x = h.last + 1 ∨ x ∈ h.inUse ++ h.free ↔ x ≠ 0 ∧ x ≤ h.last + 1
    rw [hold, ← UInt32.toNat_inj, UInt32.le_iff_toNat_le, UInt32.le_iff_toNat_le, hnext, Ne,
      eq_zero_iff]
    omega
  · exact UInt32.le_iff_toNat_le.2 (by
      change (h.last + 1).toNat ≤ h.limits.maxRef.toNat
      omega)

theorem newReference_spec (hn : Numbered h []) :
    (∃ r free last, run newReference h = (.ok r, { h with free := free, last := last }) ∧
        Numbered { h with free := free, last := last } [r]) ∨
      ∃ fault, run newReference h = (.error fault, h) := by
  unfold newReference
  rw [run_bind_ok (run_get h)]
  cases hfree : h.free with
  | cons r free => exact .inl ⟨r, free, h.last, rfl, hn.recycled hfree⟩
  | nil =>
      dsimp only
      by_cases hmax : h.limits.maxRef ≤ h.last
      · rw [if_pos hmax]
        exact .inr ⟨_, rfl⟩
      · rw [if_neg hmax]
        have hsame : ({ h with last := h.last + 1 } : Heap) =
            { h with free := [], last := h.last + 1 } := by rw [← hfree]
        have hnumbered := hn.fresh (UInt32.not_le.1 hmax)
        rw [hsame] at hnumbered
        exact .inl ⟨h.last + 1, [], h.last + 1, rfl, hnumbered⟩

theorem make_cases (hl : Laid h) (hn : Numbered h []) (fields : Nat) (bitmap : UInt32) :
    (∃ fault h', run (make fields bitmap) h = (.error fault, h') ∧
        (h' = h ∨ h' = h.compacted)) ∨
      ∃ h' r free last, (h' = h ∨ h' = h.compacted) ∧
        Numbered { h' with free := free, last := last } [r] ∧
        h'.top + headerWords + fields ≤ h'.capacity ∧ fields < UInt32.size ∧
        run (make fields bitmap) h =
          (.ok r, ({ h' with free := free, last := last } : Heap).place r fields bitmap) := by
  unfold make
  by_cases hbeyond : marksBeyond bitmap fields = true
  · rw [if_pos hbeyond]
    exact .inl ⟨_, h, rfl, .inl rfl⟩
  rw [if_neg hbeyond, run_bind_ok (run_get h)]
  by_cases hlarge : UInt32.size ≤ fields
  · rw [if_pos hlarge]
    exact .inl ⟨_, h, rfl, .inl rfl⟩
  rw [if_neg hlarge]
  rcases reserve_cases hl (headerWords + fields) with ⟨h', hsame, hrun, hfits⟩ | ⟨fault, hrun⟩
  · rw [run_bind_ok hrun]
    have hn' : Numbered h' [] := by
      rcases hsame with rfl | rfl
      · exact hn
      · exact hn.compacted hl
    rcases newReference_spec hn' with ⟨r, free, last, hnew, hnumbered⟩ | ⟨fault, hnew⟩
    · rw [run_bind_ok hnew, run_bind_ok (run_modify _ _), run_pure]
      exact .inr ⟨h', r, free, last, hsame, hnumbered, by omega, Nat.lt_of_not_le hlarge, rfl⟩
    · rw [run_bind_error hnew]
      exact .inl ⟨fault, h', rfl, hsame⟩
  · rw [run_bind_error hrun]
    exact .inl ⟨fault, h.compacted, rfl, .inr rfl⟩

theorem reserve_fault {words : Nat} {h h' : Heap} {fault : HeapFault}
    (hrun : run (reserve words) h = (.error fault, h')) :
    ∃ available, fault = .noRoom words available := by
  unfold reserve at hrun
  rw [run_bind_ok (run_get h)] at hrun
  have hcompact : run compact h = (.ok h.compacted.top, h.compacted) := rfl
  split at hrun
  · rw [run_bind_ok hcompact, run_bind_ok (run_get h.compacted)] at hrun
    split at hrun
    · exact ⟨_, (Except.error.inj (Prod.mk.inj hrun).1).symm⟩
    · exact nomatch (Prod.mk.inj hrun).1
  · split at hrun
    · exact nomatch (Prod.mk.inj hrun).1
    · exact nomatch (Prod.mk.inj hrun).1

theorem newReference_fault {h h' : Heap} {fault : HeapFault}
    (hrun : run newReference h = (.error fault, h')) : ∃ max, fault = .numbersExhausted max := by
  unfold newReference at hrun
  rw [run_bind_ok (run_get h)] at hrun
  cases hfree : h.free with
  | cons r free =>
      rw [hfree] at hrun
      exact nomatch (Prod.mk.inj hrun).1
  | nil =>
      rw [hfree] at hrun
      dsimp only at hrun
      split at hrun
      · exact ⟨_, (Except.error.inj (Prod.mk.inj hrun).1).symm⟩
      · exact nomatch (Prod.mk.inj hrun).1

/-- The making of an object fails where the bitmap marks words beyond it, and for want of room or of
numbers. -/
theorem make_fault {fields : Nat} {bitmap : UInt32} {h h' : Heap} {fault : HeapFault}
    (hrun : run (make fields bitmap) h = (.error fault, h')) :
    (marksBeyond bitmap fields = true ∧ fault = .bitmapTooWide bitmap fields) ∨
      (∃ requested available, fault = .noRoom requested available) ∨
      ∃ max, fault = .numbersExhausted max := by
  unfold make at hrun
  by_cases hbeyond : marksBeyond bitmap fields = true
  · rw [if_pos hbeyond] at hrun
    exact .inl ⟨hbeyond, (Except.error.inj (Prod.mk.inj hrun).1).symm⟩
  rw [if_neg hbeyond, run_bind_ok (run_get h)] at hrun
  refine .inr ?_
  by_cases hlarge : UInt32.size ≤ fields
  · rw [if_pos hlarge] at hrun
    exact .inl ⟨_, _, (Except.error.inj (Prod.mk.inj hrun).1).symm⟩
  rw [if_neg hlarge] at hrun
  cases hreserve : run (reserve (headerWords + fields)) h with
  | mk ended h₁ =>
      cases ended with
      | error found =>
          rw [run_bind_error hreserve] at hrun
          obtain rfl := Except.error.inj (Prod.mk.inj hrun).1
          exact .inl ⟨_, reserve_fault hreserve⟩
      | ok _ =>
          rw [run_bind_ok hreserve] at hrun
          cases hnew : run newReference h₁ with
          | mk ended h₂ =>
              cases ended with
              | error found =>
                  rw [run_bind_error hnew] at hrun
                  obtain rfl := Except.error.inj (Prod.mk.inj hrun).1
                  exact .inr (newReference_fault hnew)
              | ok r =>
                  rw [run_bind_ok hnew] at hrun
                  exact nomatch (Prod.mk.inj hrun).1

theorem Numbered.place (hn : Numbered h [r]) (fields : Nat) (bitmap : UInt32) :
    Numbered (h.place r fields bitmap) [] := by
  obtain ⟨hnodup, hmem, hlast⟩ := hn
  have hinUse : (h.place r fields bitmap).inUse = h.inUse ++ [r] := by
    unfold inUse
    exact List.map_append
  have hperm : ([r] ++ (h.inUse ++ h.free)).Perm
      ([] ++ ((h.place r fields bitmap).inUse ++ (h.place r fields bitmap).free)) := by
    rw [hinUse, List.append_assoc]
    change (r :: (h.inUse ++ h.free)).Perm (h.inUse ++ r :: h.free)
    exact List.perm_middle.symm
  refine ⟨hperm.nodup_iff.1 hnodup, fun x => ?_, hlast⟩
  exact (hperm.mem_iff.symm.trans (hmem x))

/-! ## Placing and making -/

theorem Numbered.not_mem_inUse (hn : Numbered h [r]) : r ∉ h.inUse := by
  have hnodup : (r :: (h.inUse ++ h.free)).Nodup := hn.nodup
  exact fun hmem => (List.nodup_cons.1 hnodup).1 (List.mem_append_left _ hmem)

theorem Laid.fieldsHolding_place (hl : Laid h)
    (hfits : h.top + headerWords + fields ≤ h.capacity) (hfields : fields < UInt32.size)
    (hr : r ∉ h.inUse) (x : Ref) :
    (h.place r fields bitmap).fieldsHolding x = h.fieldsHolding x := by
  have hinUse : (h.place r fields bitmap).inUse = h.inUse ++ [r] := List.map_append
  have hcount : ∀ y, (h.place r fields bitmap).countOf y = if y = r then 1 else h.countOf y :=
    hl.countOf_place hfits hfields hr
  have hrefs : ∀ y, (h.place r fields bitmap).refsOf y = h.refsOf y :=
    hl.refsOf_place hfits hfields hr
  unfold fieldsHolding
  rw [hinUse, List.map_append, List.sum_append, List.map_singleton, List.sum_singleton, hrefs,
    refsOf_eq_nil hr, List.count_nil, ite_self, Nat.add_zero]
  refine congrArg List.sum (List.map_congr_left fun y hy => ?_)
  have hne : y ≠ r := by
    rintro rfl
    exact hr hy
  rw [hcount, if_neg hne, hrefs]

theorem roots_place (hrooted : r ∉ h.roots) :
    (h.place r fields bitmap).roots = h.roots ++ [r] := if_neg (by simp [hrooted])

theorem Tidy.place (hl : Laid h) (hn : Numbered h [r])
    (hnodup : ∀ scope ∈ h.roots :: h.outer, scope.Nodup) (hrooted : r ∉ h.roots)
    (hfits : h.top + headerWords + fields ≤ h.capacity) (hfields : fields < UInt32.size) :
    Tidy (h.place r fields bitmap) := by
  refine ⟨hl.place hfits hfields hn.not_mem_inUse, hn.place fields bitmap, ?_⟩
  rw [roots_place hrooted]
  exact nodup_root hnodup hrooted

theorem Laid.holders_place (hl : Laid h) (hr : r ∉ h.inUse) (hrooted : r ∉ h.roots)
    (hfits : h.top + headerWords + fields ≤ h.capacity) (hfields : fields < UInt32.size) (x : Ref) :
    (h.place r fields bitmap).holders x = h.holders x + if x = r then 1 else 0 := by
  have hscopes : (h.place r fields bitmap).scopesHolding x =
      h.scopesHolding x + if x = r then 1 else 0 := by
    unfold scopesHolding
    rw [roots_place hrooted]
    exact countP_root h.outer hrooted x
  unfold holders
  rw [hscopes, hl.fieldsHolding_place hfits hfields hr]
  omega

theorem notMem_roots (hr : r ∉ h.inUse) (henough : h.holders r ≤ h.countOf r) : r ∉ h.roots := by
  intro hmem
  have hpos := scopesHolding_pos List.mem_cons_self hmem
  rw [countOf_eq_zero hr] at henough
  unfold holders at henough
  omega

theorem Covered.place (hl : Laid h) (hn : Numbered h [r])
    (hnodup : ∀ scope ∈ h.roots :: h.outer, scope.Nodup)
    (henough : ∀ x, h.holders x ≤ h.countOf x)
    (hfits : h.top + headerWords + fields ≤ h.capacity) (hfields : fields < UInt32.size) :
    Sound (h.place r fields bitmap) := by
  have hr := hn.not_mem_inUse
  have hrooted := notMem_roots hr (henough r)
  refine ⟨Tidy.place hl hn hnodup hrooted hfits hfields, fun x => ?_⟩
  have henough := henough x
  rw [hl.holders_place hr hrooted hfits hfields, hl.countOf_place hfits hfields hr]
  by_cases heq : x = r
  · subst heq
    rw [countOf_eq_zero hr] at henough
    rw [if_pos rfl, if_pos rfl]
    omega
  · rw [if_neg heq, if_neg heq]
    omega

theorem Covered.make (hs : Sound h) (fields : Nat) (bitmap : UInt32) :
    Sound (run (make fields bitmap) h).2 := by
  have hsound : ∀ h', h' = h ∨ h' = h.compacted → Sound h' := by
    rintro h' (rfl | rfl)
    · exact hs
    · exact hs.compacted
  rcases make_cases hs.laid hs.numbered fields bitmap with
    ⟨fault, h', hrun, hsame⟩ | ⟨h', r, free, last, hsame, hn, hfits, hfields, hrun⟩
  · rw [hrun]
    exact hsound h' hsame
  · have hs' := hsound h' hsame
    have hl : Laid { h' with free := free, last := last } :=
      hs'.laid.congr rfl rfl rfl (fun _ _ => rfl) fun _ _ => rfl
    rw [hrun]
    -- taking a number changes no count, and neither memory nor scopes
    refine Covered.place hl hn hs'.nodup_scopes (fun x => ?_) hfits hfields
    have henough := hs'.enough x
    rw [Nat.zero_add] at henough
    exact henough

end Midend.Heap
