import Midend.Proofs.Linear.Nesting
import Mathlib.Data.List.Induction
/-!
# Regions of code

A region is a piece of code that no jump from outside goes into.  A run that is in a region, or
right behind it, has come in at its start and has not left it since (`exists_through`).
-/

namespace Midend.Linear

open Midend.Flow (Block Config Label Machine Place Stmt Store)
open Code

/-! ## Spots -/

section Spots

variable {label : Label} {code : Code} {place : Label × Nat}

theorem spot_append (label : Label) (code : Code) (item : Item) :
    spot label (code ++ [item]) = advance (spot label code) item := by
  unfold spot
  rw [List.foldl_append]
  rfl

/-- Going on leads to a later mark, or further into the same block. -/
theorem foldl_advance_le (code : Code) (place : Label × Nat) :
    (code.foldl advance place).1 ∈ code.marks ∨
      (code.foldl advance place).1 = place.1 ∧ place.2 ≤ (code.foldl advance place).2 := by
  induction code generalizing place with
  | nil => exact .inr ⟨rfl, Nat.le_refl _⟩
  | cons item rest ih =>
      cases item with
      | emit s =>
          refine (ih (place.1, place.2 + 1)).imp_right fun ⟨hlabel, hindex⟩ => ⟨hlabel, ?_⟩
          exact Nat.le_trans (Nat.le_succ _) hindex
      | mark next =>
          rcases ih (next, 0) with hlabel | ⟨hlabel, -⟩
          · exact .inl (List.mem_cons_of_mem _ hlabel)
          · refine .inl ?_
            change (rest.foldl advance (next, 0)).1 ∈ next :: marks rest
            rw [hlabel]
            exact List.mem_cons_self
      | declare name ty => exact ih place

theorem spot_mem (label : Label) (code : Code) : (spot label code).1 ∈ label :: code.marks :=
  foldl_advance_mem code (label, 0)

theorem spot_ne {pre rest : Code} {s : Stmt}
    (hnodup : (label :: marks (pre ++ .emit s :: rest)).Nodup) :
    spot label (pre ++ .emit s :: rest) ≠ spot label pre := by
  intro heq
  have hspot : spot label (pre ++ .emit s :: rest) =
      rest.foldl advance ((spot label pre).1, (spot label pre).2 + 1) := by
    unfold spot
    rw [List.foldl_append]
    rfl
  rw [hspot] at heq
  rcases foldl_advance_le rest ((spot label pre).1, (spot label pre).2 + 1) with
    hlabel | ⟨-, hindex⟩
  · rw [heq] at hlabel
    rw [marks_append, marks_emit, ← List.cons_append, List.nodup_append] at hnodup
    exact hnodup.2.2 _ (spot_mem label pre) _ hlabel rfl
  · rw [heq] at hindex
    exact absurd hindex (Nat.not_succ_le_self _)

theorem spot_ne_of_append {pre d rest rest' : Code} {s s' : Stmt}
    (hnodup : (label :: marks (pre ++ .emit s :: rest)).Nodup)
    (hrest : .emit s :: rest = d ++ .emit s' :: rest') (hd : d ≠ []) :
    spot label (pre ++ d) ≠ spot label pre := by
  cases d with
  | nil => exact absurd rfl hd
  | cons item d =>
      obtain rfl := (List.cons.inj hrest).1
      refine spot_ne (hnodup.sublist (List.Sublist.cons_cons label ?_))
      rw [hrest, ← List.append_assoc, marks_append _ (.emit s' :: rest')]
      exact List.sublist_append_left _ _

theorem eq_of_spot_eq {pre pre' rest rest' : Code} {s s' : Stmt}
    (hnodup : (label :: code.marks).Nodup) (hcode : code = pre ++ .emit s :: rest)
    (hcode' : code = pre' ++ .emit s' :: rest') (hspot : spot label pre = spot label pre') :
    pre = pre' := by
  rcases List.append_eq_append_iff.1 (hcode.symm.trans hcode') with
    ⟨d, rfl, hrest⟩ | ⟨d, rfl, hrest⟩
  · by_contra hne
    exact spot_ne_of_append (hcode ▸ hnodup) hrest (fun hd => hne (by simp [hd])) hspot.symm
  · by_contra hne
    exact spot_ne_of_append (hcode' ▸ hnodup) hrest (fun hd => hne (by simp [hd])) hspot

end Spots

/-! ## Steps -/

section Steps

variable {V : Type} {m : Machine V} {ctx : Context} {label : Label} {code : Code}
  {c : Config V}

/-- The run is before a statement, or at the end of a block. -/
theorem Before.emit_or_end {place : Place V} {rest : Code} (hb : Before label code rest place) :
    (∃ s rest', Before label code (.emit s :: rest') place) ∨
      ∃ rest', Before label code rest' place ∧ (cut rest').1 = [] := by
  induction rest with
  | nil => exact .inr ⟨_, hb, rfl⟩
  | cons item rest ih =>
      cases item with
      | emit s => exact .inl ⟨s, rest, hb⟩
      | mark next => exact .inr ⟨_, hb, rfl⟩
      | declare name ty => exact ih hb.declare

/-- A run that stays in the blocks has made a step to the next statement, or a jump. -/
theorem Before.step_inside {rest : Code} (hnodup : (label :: code.marks).Nodup)
    (hb : Before label code rest c.place) {l : Label} {i : Nat}
    (h : (m.step ctx (code.blocks label) c).place = .inside l i) :
    ∃ pre s rest', code = pre ++ .emit s :: rest' ∧
      c.place = .inside (spot label pre).1 (spot label pre).2 ∧
      ((l, i) = spot label (pre ++ [.emit s]) ∨ i = 0 ∧ l ∈ s.targets) := by
  rcases hb.emit_or_end with ⟨s, rest', hb⟩ | ⟨rest', hb, hend⟩
  · obtain ⟨l', i', hstep, hnext⟩ := hb.emit m ctx hnodup
    obtain ⟨pre, hcode, hplace⟩ := hb
    refine ⟨pre, s, rest', hcode, hplace, ?_⟩
    rw [hstep] at h
    cases hcontrol : (m.exec ctx s c.store c.history).control with
    | next =>
        rw [hcontrol] at h
        obtain ⟨rfl, rfl⟩ := Place.inside.inj h
        obtain ⟨pre', hcode', hplace'⟩ := hnext
        have hpre : pre' = pre ++ [.emit s] := by
          refine (List.append_left_inj rest').1 ?_
          rw [← hcode', hcode, List.append_assoc, List.singleton_append]
        obtain ⟨hl, hi⟩ := Place.inside.inj hplace'
        exact .inl (Prod.ext (hpre ▸ hl) (hpre ▸ hi))
    | goto target =>
        rw [hcontrol] at h
        obtain ⟨rfl, rfl⟩ := Place.inside.inj h
        exact .inr ⟨rfl, (Machine.exec_eq_goto hcontrol).2⟩
    | returned v =>
        rw [hcontrol] at h
        exact nomatch h
    | stopped =>
        rw [hcontrol] at h
        exact nomatch h
  · obtain ⟨b, l', i', hplace, hfind, hstmt⟩ := hb.block hnodup
    rw [hend] at hstmt
    unfold Machine.step at h
    rw [hplace] at h
    dsimp only at h
    rw [hfind] at h
    dsimp only at h
    rw [hstmt] at h
    exact nomatch h

theorem exists_mark {target : Label} (h : target ∈ code.marks) :
    ∃ pre rest, code = pre ++ .mark target :: rest := by
  obtain ⟨item, hitem, hmark⟩ := List.mem_filterMap.1 h
  obtain ⟨pre, rest, hcode⟩ := List.append_of_mem hitem
  cases item with
  | mark next =>
      obtain rfl := Option.some.inj hmark
      exact ⟨pre, rest, hcode⟩
  | emit s => exact nomatch hmark
  | declare name ty => exact nomatch hmark

theorem targets_subset {pre rest : Code} {s : Stmt} (hcode : code = pre ++ .emit s :: rest) :
    s.targets ⊆ code.targets := by
  intro target htarget
  rw [hcode, targets_append, targets_emit]
  exact List.mem_append_right _ (List.mem_append_left _ htarget)

theorem inside_of_step {body : List Block} {l : Label} {i : Nat}
    (h : (m.step ctx body c).place = .inside l i) : ∃ l' i', c.place = .inside l' i' := by
  unfold Machine.step at h
  split at h
  · exact ⟨_, _, ‹_›⟩
  · rename_i hplace
    exact absurd h (hplace l i)

/-- A run whose jumps all have marks to go to is always somewhere in the code until it ends. -/
theorem before_after (hnodup : (label :: code.marks).Nodup) (hresolves : Resolves [] code)
    (σ : Store V) (n : Nat) {l : Label} {i : Nat}
    (h : (m.after ctx (code.blocks label) σ n).place = .inside l i) :
    ∃ rest, Before label code rest (m.after ctx (code.blocks label) σ n).place := by
  induction n generalizing l i with
  | zero => exact ⟨code, Before.start label code⟩
  | succ n ih =>
      rw [Machine.after_succ] at h ⊢
      obtain ⟨l', i', hplace⟩ := inside_of_step h
      obtain ⟨rest, hb⟩ := ih hplace
      obtain ⟨pre, s, rest', hcode, -, hnext⟩ := hb.step_inside hnodup h
      rw [h]
      rcases hnext with hspot | ⟨rfl, htarget⟩
      · refine ⟨rest', pre ++ [.emit s], by rw [hcode]; simp, ?_⟩
        rw [← hspot]
      · have hmark := hresolves l (targets_subset hcode htarget)
        obtain ⟨pre', rest, rfl⟩ := exists_mark (hmark.resolve_right List.not_mem_nil)
        exact ⟨rest, Before.of_mark ⟨pre', rfl⟩⟩

theorem predecessor (hnodup : (label :: code.marks).Nodup) (hresolves : Resolves [] code)
    (σ : Store V) (n : Nat) {l : Label} {i : Nat}
    (h : (m.after ctx (code.blocks label) σ (n + 1)).place = .inside l i) :
    ∃ pre s rest, code = pre ++ .emit s :: rest ∧
      (m.after ctx (code.blocks label) σ n).place =
        .inside (spot label pre).1 (spot label pre).2 ∧
      ((l, i) = spot label (pre ++ [.emit s]) ∨ i = 0 ∧ l ∈ s.targets) := by
  rw [Machine.after_succ] at h
  obtain ⟨l', i', hplace⟩ := inside_of_step h
  obtain ⟨rest, hb⟩ := before_after hnodup hresolves σ n hplace
  exact hb.step_inside hnodup h

end Steps

/-! ## Regions -/

/-- What stands in the middle of three pieces is in the second one, or in the others. -/
theorem mem_pieces {α : Type} {pre rest front region back : List α} {x : α}
    (h : pre ++ x :: rest = front ++ (region ++ back)) :
    x ∈ front ++ back ∨ ∃ done todo, region = done ++ x :: todo ∧ pre = front ++ done := by
  rcases List.append_eq_append_iff.1 h with ⟨d, hfront, hd⟩ | ⟨d, hpre, hd⟩
  · cases d with
    | nil =>
        rw [List.append_nil] at hfront
        rw [List.nil_append] at hd
        cases region with
        | nil =>
            refine .inl (List.mem_append_right _ ?_)
            rw [← List.nil_append back, ← hd]
            exact List.mem_cons_self
        | cons y region =>
            obtain ⟨rfl, -⟩ := List.cons.inj hd
            exact .inr ⟨[], region, rfl, by rw [hfront, List.append_nil]⟩
    | cons y d =>
        obtain ⟨rfl, -⟩ := List.cons.inj hd
        exact .inl (by simp [hfront])
  · rcases List.append_eq_append_iff.1 hd with ⟨d', hd', hback⟩ | ⟨d', hregion, hback⟩
    · refine .inl (List.mem_append_right _ ?_)
      rw [hback]
      exact List.mem_append_right _ List.mem_cons_self
    · cases d' with
      | nil =>
          refine .inl (List.mem_append_right _ ?_)
          rw [List.nil_append] at hback
          rw [← hback]
          exact List.mem_cons_self
      | cons y d' =>
          obtain ⟨rfl, -⟩ := List.cons.inj hback
          exact .inr ⟨d, d', hregion, hpre⟩

section Regions

variable {V : Type} {m : Machine V} {ctx : Context} {label : Label}
  {code front region back : Code}

/-- A jump to a mark of a region comes from the region. -/
theorem of_jump {pre rest done todo : Code} {s : Stmt} {target : Label}
    (hnodup : (label :: code.marks).Nodup) (hcode : code = front ++ (region ++ back))
    (houtside : Resolves [] (front ++ back)) (hstmt : code = pre ++ .emit s :: rest)
    (hregion : region = done ++ .mark target :: todo) (htarget : target ∈ s.targets) :
    ∃ done' todo', region = done' ++ .emit s :: todo' ∧ pre = front ++ done' := by
  refine (mem_pieces (hstmt.symm.trans hcode)).resolve_left fun hs => ?_
  obtain ⟨before, behind, hsplit⟩ := List.append_of_mem hs
  have hmark : target ∈ marks (front ++ back) :=
    (houtside target (targets_subset hsplit htarget)).resolve_right List.not_mem_nil
  have hmark' : target ∈ region.marks := by simp [hregion]
  -- the mark would be there twice
  rw [hcode, marks_append, marks_append] at hnodup
  obtain ⟨hfront, hrest, hdisjoint⟩ := List.nodup_append.1 (List.nodup_cons.1 hnodup).2
  rw [marks_append, List.mem_append] at hmark
  rcases hmark with hmark | hmark
  · exact hdisjoint target hmark target (List.mem_append_left _ hmark') rfl
  · exact (List.nodup_append.1 hrest).2.2 target hmark' target hmark rfl

variable (m ctx label code region back) in
structure Through (σ : Store V) (k n : Nat) : Prop where
  le : k ≤ n
  start : Before label code (region ++ back) (m.after ctx (code.blocks label) σ k).place
  steps : ∀ t, k ≤ t → t < n → ∃ s rest, .emit s ∈ region ∧
    Before label code (.emit s :: rest) (m.after ctx (code.blocks label) σ t).place

variable {σ : Store V} {k n : Nat}

theorem Through.refl (hcode : code = front ++ (region ++ back))
    (h : (m.after ctx (code.blocks label) σ n).place =
      .inside (spot label front).1 (spot label front).2) :
    Through m ctx label code region back σ n n :=
  ⟨Nat.le_refl n, ⟨front, hcode, h⟩, fun _ hlow hhigh => absurd hhigh (Nat.not_lt.2 hlow)⟩

theorem Through.step {s : Stmt} {rest : Code} (h : Through m ctx label code region back σ k n)
    (hs : .emit s ∈ region)
    (hb : Before label code (.emit s :: rest) (m.after ctx (code.blocks label) σ n).place) :
    Through m ctx label code region back σ k (n + 1) := by
  refine ⟨Nat.le_succ_of_le h.le, h.start, fun t hlow hhigh => ?_⟩
  rcases Nat.lt_succ_iff_lt_or_eq.1 hhigh with hlt | rfl
  · exact h.steps t hlow hlt
  · exact ⟨s, rest, hs, hb⟩

/-- A variable that no statement of the region changes keeps its value on the way through. -/
theorem Through.store_eq (hnodup : (label :: code.marks).Nodup) {x : String}
    (h : Through m ctx label code region back σ k n)
    (hspares : ∀ s, .emit s ∈ region → ∀ σ' history, (m.exec ctx s σ' history).store x = σ' x) :
    (m.after ctx (code.blocks label) σ n).store x =
      (m.after ctx (code.blocks label) σ k).store x := by
  obtain ⟨hle, -, hsteps⟩ := h
  induction hle with
  | refl => rfl
  | @step n hle ih =>
      obtain ⟨s, rest, hs, hb⟩ := hsteps n hle (Nat.lt_succ_self n)
      obtain ⟨l, i, hstep, -⟩ := hb.emit m ctx hnodup
      rw [Machine.after_succ, hstep]
      exact (hspares s hs _ _).trans
        (ih fun t hlow hhigh => hsteps t hlow (Nat.lt_succ_of_lt hhigh))

/-- A run in a region, or right behind it, is at its start or has just done one of its
statements.  By induction on the piece of the region that the run has behind it. -/
theorem start_or_step (hnodup : (label :: code.marks).Nodup) (hresolves : Resolves [] code)
    (hcode : code = front ++ (region ++ back)) (houtside : Resolves [] (front ++ back))
    {done todo : Code} (hregion : region = done ++ todo)
    (h : (m.after ctx (code.blocks label) σ n).place =
      .inside (spot label (front ++ done)).1 (spot label (front ++ done)).2) :
    (m.after ctx (code.blocks label) σ n).place =
        .inside (spot label front).1 (spot label front).2 ∨
      ∃ n' done' s todo', n = n' + 1 ∧ region = done' ++ .emit s :: todo' ∧
        (m.after ctx (code.blocks label) σ n').place =
          .inside (spot label (front ++ done')).1 (spot label (front ++ done')).2 := by
  induction done using List.reverseRecOn generalizing todo with
  | nil => exact .inl (by rwa [List.append_nil] at h)
  | append_singleton done item ih =>
      rw [← List.append_assoc, spot_append] at h
      rw [List.append_assoc, List.singleton_append] at hregion
      cases item with
      | emit s' =>
          cases n with
          | zero => exact nomatch (Place.inside.inj h).2
          | succ n =>
              obtain ⟨pre, s, rest, hstmt, hplace, hnext⟩ := predecessor hnodup hresolves σ n h
              rw [spot_append] at hnext
              obtain ⟨hl, hi⟩ := Prod.mk.inj (hnext.resolve_right fun hjump => nomatch hjump.1)
              have hstmt' : code = (front ++ done) ++ .emit s' :: (todo ++ back) := by
                rw [hcode, hregion]
                simp
              have hindex : (spot label (front ++ done)).2 = (spot label pre).2 :=
                Nat.add_right_cancel hi
              obtain rfl := eq_of_spot_eq hnodup hstmt hstmt' (Eq.symm (Prod.ext hl hindex))
              exact .inr ⟨n, done, s', todo, rfl, hregion, hplace⟩
      | mark target =>
          cases n with
          | zero =>
              -- no mark has the label of the body
              obtain rfl : label = target := (Place.inside.inj h).1
              exact absurd (by simp [hcode, hregion]) (List.nodup_cons.1 hnodup).1
          | succ n =>
              obtain ⟨pre, s, rest, hstmt, hplace, hnext⟩ := predecessor hnodup hresolves σ n h
              rw [spot_append] at hnext
              obtain ⟨-, htarget⟩ := hnext.resolve_left fun hspot => nomatch (Prod.mk.inj hspot).2
              obtain ⟨done', todo', hregion', rfl⟩ :=
                of_jump hnodup hcode houtside hstmt hregion htarget
              exact .inr ⟨n, done', s, todo', rfl, hregion', hplace⟩
      | declare name ty => exact ih hregion h

/-- By induction on the steps: the last one was one of the region, or has led to its start. -/
theorem exists_through (hnodup : (label :: code.marks).Nodup) (hresolves : Resolves [] code)
    (hcode : code = front ++ (region ++ back)) (houtside : Resolves [] (front ++ back))
    {done todo : Code} (hregion : region = done ++ todo)
    (h : (m.after ctx (code.blocks label) σ n).place =
      .inside (spot label (front ++ done)).1 (spot label (front ++ done)).2) :
    ∃ k, Through m ctx label code region back σ k n := by
  induction n generalizing done todo with
  | zero =>
      rcases start_or_step hnodup hresolves hcode houtside hregion h with
        hstart | ⟨n', _, _, _, hn, -, -⟩
      · exact ⟨_, .refl hcode hstart⟩
      · exact nomatch hn
  | succ n ih =>
      rcases start_or_step hnodup hresolves hcode houtside hregion h with
        hstart | ⟨n', done', s, todo', hn, hregion', hplace⟩
      · exact ⟨_, .refl hcode hstart⟩
      · obtain rfl := Nat.succ.inj hn
        obtain ⟨k, hthrough⟩ := ih hregion' hplace
        have hmem : .emit s ∈ region := by simp [hregion']
        have hstmt : code = (front ++ done') ++ .emit s :: (todo' ++ back) := by
          rw [hcode, hregion']
          simp
        exact ⟨k, hthrough.step hmem ⟨_, hstmt, hplace⟩⟩

/-- A run that has a piece of the region before it, or only the code behind, has come in at the
start of the region. -/
theorem Before.through (hnodup : (label :: code.marks).Nodup) (hresolves : Resolves [] code)
    (hcode : code = front ++ (region ++ back)) (houtside : Resolves [] (front ++ back))
    {done todo : Code} (hregion : region = done ++ todo)
    (hb : Before label code (todo ++ back) (m.after ctx (code.blocks label) σ n).place) :
    ∃ k, Through m ctx label code region back σ k n := by
  obtain ⟨pre, hpre, hplace⟩ := hb
  have hdone : pre = front ++ done := by
    refine (List.append_left_inj (todo ++ back)).1 ?_
    rw [← hpre, hcode, hregion]
    simp
  rw [hdone] at hplace
  exact exists_through hnodup hresolves hcode houtside hregion hplace

end Regions

end Midend.Linear
