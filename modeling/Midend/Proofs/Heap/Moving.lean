import Midend.Proofs.Heap.Layout
import Mathlib.Data.List.GetD
/-!
# New objects and moved objects

A new object goes behind all others.  A compaction slides the objects that stay to the
start of the memory.  Either way the words of the other objects are copied as they are.
-/

namespace Midend.Heap

variable {h h' : Heap} {r x : Ref} {addr addr' : Nat} {e : Ref × Nat}

/-! ## New objects -/

section Place

variable {fields : Nat} {bitmap : UInt32}

theorem word_place (hfits : h.top + headerWords + fields ≤ h.capacity) (other : Nat) :
    (h.place r fields bitmap).word other =
      if h.top ≤ other ∧ other < h.top + (headerWords + fields) then
        ([1, UInt32.ofNat fields, bitmap, UInt32.ofNat fields] ++
          List.replicate fields 0).getD (other - h.top) 0
      else h.word other := by
  have hlength : ([1, UInt32.ofNat fields, bitmap, UInt32.ofNat fields] ++
      List.replicate fields 0).length = headerWords + fields := by
    rw [List.length_append, List.length_replicate]
    rfl
  unfold word place
  rw [getD_writeWords _ _ _ _ (by rw [hlength, ← Nat.add_assoc]; exact hfits), hlength]

theorem word_place_header (hfits : h.top + headerWords + fields ≤ h.capacity) {i : Nat}
    (hi : i < headerWords) :
    (h.place r fields bitmap).word (h.top + i) =
      [1, UInt32.ofNat fields, bitmap, UInt32.ofNat fields].getD i 0 := by
  rw [word_place hfits, if_pos (by omega), Nat.add_sub_cancel_left,
    List.getD_append _ _ _ _ hi]

theorem word_place_field (hfits : h.top + headerWords + fields ≤ h.capacity) {i : Nat}
    (hi : i < fields) : (h.place r fields bitmap).word (h.top + headerWords + i) = 0 := by
  have hsub : h.top + headerWords + i - h.top = headerWords + i := by omega
  have hi' : headerWords + i - headerWords < fields := by omega
  rw [word_place hfits, if_pos (by omega), hsub,
    List.getD_append_right _ _ _ _ (Nat.le_add_right headerWords i)]
  exact List.getD_replicate _ hi'

theorem Laid.copied_place (hl : Laid h) (hfits : h.top + headerWords + fields ≤ h.capacity)
    (r : Ref) (bitmap : UInt32) (he : e ∈ h.table) :
    Copied h e.2 (h.place r fields bitmap) e.2 := by
  intro i hi
  have hbelow := hl.below he
  rw [word_place hfits, if_neg (by omega)]

theorem sizeAt_place (hfits : h.top + headerWords + fields ≤ h.capacity)
    (hfields : fields < UInt32.size) (r : Ref) (bitmap : UInt32) :
    (h.place r fields bitmap).sizeAt h.top = fields := by
  unfold sizeAt
  rw [word_place_header hfits (by decide)]
  exact UInt32.toNat_ofNat_of_lt' hfields

theorem capacity_place (h : Heap) (r : Ref) (fields : Nat) (bitmap : UInt32) :
    (h.place r fields bitmap).capacity = h.capacity := by
  unfold capacity place
  rw [size_writeWords]

theorem Laid.place (hl : Laid h) (hfits : h.top + headerWords + fields ≤ h.capacity)
    (hfields : fields < UInt32.size) (hr : r ∉ h.inUse) : Laid (h.place r fields bitmap) := by
  have hsize := sizeAt_place hfits hfields r bitmap
  have hcapacity := capacity_place h r fields bitmap
  have htable : (h.place r fields bitmap).table = h.table ++ [(r, h.top)] := rfl
  constructor
  · have hold := hl.consecutive.congr fun e he => (hl.copied_place hfits r bitmap he).footprintAt
    refine hold.append (.cons ?_)
    have htop : (h.place r fields bitmap).top =
        h.top + (h.place r fields bitmap).footprintAt h.top := by
      unfold footprintAt
      rw [hsize, ← Nat.add_assoc]
      rfl
    rw [htop]
    exact .nil
  · rw [hcapacity]
    exact Nat.le_trans hfits (Nat.le_max_right _ _)
  · rw [htable]
    intro e he
    rcases List.mem_append.1 he with he | he
    · have hcopied := hl.copied_place hfits r bitmap he
      rw [hcopied.fieldsAt, hcopied.sizeAt]
      exact hl.sized e he
    · rw [List.mem_singleton.1 he, hsize]
      unfold fieldsAt
      rw [word_place_header hfits (by decide)]
      exact UInt32.toNat_ofNat_of_lt' hfields
  · unfold inUse
    rw [htable, List.map_append]
    refine List.nodup_append.2 ⟨hl.nodup_inUse, List.nodup_singleton r, ?_⟩
    rintro a ha b hb rfl
    obtain rfl : a = r := List.mem_singleton.1 hb
    exact hr ha

theorem mem_inUse_place : x ∈ (h.place r fields bitmap).inUse ↔ x ∈ h.inUse ∨ x = r := by
  unfold inUse
  rw [show (h.place r fields bitmap).table = h.table ++ [(r, h.top)] from rfl, List.map_append,
    List.mem_append]
  exact or_congr_right List.mem_singleton

theorem mem_table_place (he : e ∈ h.table) : e ∈ (h.place r fields bitmap).table :=
  List.mem_append_left _ he

theorem new_mem_table_place : (r, h.top) ∈ (h.place r fields bitmap).table :=
  List.mem_append_right _ (List.mem_singleton.2 rfl)

theorem Laid.countOf_place (hl : Laid h) (hfits : h.top + headerWords + fields ≤ h.capacity)
    (hfields : fields < UInt32.size) (hr : r ∉ h.inUse) (x : Ref) :
    (h.place r fields bitmap).countOf x = if x = r then 1 else h.countOf x := by
  have hl' : Laid (h.place r fields bitmap) := hl.place hfits hfields hr
  split
  · rename_i heq
    subst heq
    rw [hl'.countOf_eq new_mem_table_place]
    exact congrArg UInt32.toNat (word_place_header (i := 0) hfits (by decide))
  · rename_i hne
    refine hl.countOf_of_copied hl' (fun addr hmem => ?_) fun hx hmem => ?_
    · exact ⟨addr, mem_table_place hmem, hl.copied_place hfits r bitmap hmem⟩
    · exact (mem_inUse_place.1 hmem).elim hx hne

theorem Laid.refsOf_place (hl : Laid h) (hfits : h.top + headerWords + fields ≤ h.capacity)
    (hfields : fields < UInt32.size) (hr : r ∉ h.inUse) (x : Ref) :
    (h.place r fields bitmap).refsOf x = h.refsOf x := by
  have hl' : Laid (h.place r fields bitmap) := hl.place hfits hfields hr
  by_cases heq : x = r
  · subst heq
    rw [refsOf_eq_nil hr, hl'.refsOf_eq new_mem_table_place]
    unfold referencesAt
    rw [List.filter_eq_nil_iff]
    intro w hw
    obtain ⟨i, hi, rfl⟩ := List.mem_map.1 hw
    have hrange := List.mem_range.1 (List.mem_filter.1 hi).1
    rw [sizeAt_place hfits hfields] at hrange
    rw [word_place_field hfits (by omega)]
    decide
  · refine hl.refsOf_of_copied hl' (fun addr hmem => ?_) fun hx hmem => ?_
    · exact ⟨addr, mem_table_place hmem, hl.copied_place hfits r bitmap hmem⟩
    · exact (mem_inUse_place.1 hmem).elim hx heq

end Place

/-! ## Compaction -/

/-- Some objects stand in a memory one after another from an address on, each with the
words that it had. -/
inductive Slid (h : Heap) (memory : Array UInt32) :
    Nat → List (Ref × Nat) → List (Ref × Nat) → Nat → Prop where
  | nil {low : Nat} : Slid h memory low [] [] low
  | cons {r : Ref} {x low high : Nat} {es new : List (Ref × Nat)}
      (hcopied : ∀ i < h.footprintAt x, memory.getD (low + i) 0 = h.word (x + i))
      (hrest : Slid h memory (low + h.footprintAt x) es new high) :
      Slid h memory low ((r, x) :: es) ((r, low) :: new) high

namespace Slid

variable {low high : Nat} {es new : List (Ref × Nat)}

theorem consecutive (hs : Slid h h'.memory low es new high) : Consecutive h' low new high := by
  induction hs with
  | nil => exact .nil
  | cons hcopied _ ih =>
      refine .cons ?_
      rw [Copied.footprintAt hcopied]
      exact ih

theorem names (hs : Slid h h'.memory low es new high) : new.map (·.1) = es.map (·.1) := by
  induction hs with
  | nil => rfl
  | cons _ _ ih => rw [List.map_cons, List.map_cons, ih]

theorem mem_new (hs : Slid h h'.memory low es new high) (he : (r, addr) ∈ es) :
    ∃ addr', (r, addr') ∈ new ∧ Copied h addr h' addr' := by
  induction hs with
  | nil => exact nomatch he
  | cons hcopied _ ih =>
      rcases List.mem_cons.1 he with heq | he
      · cases heq
        exact ⟨_, List.mem_cons_self, hcopied⟩
      · obtain ⟨addr', hmem, hcopied'⟩ := ih he
        exact ⟨addr', List.mem_cons_of_mem _ hmem, hcopied'⟩

theorem mem_old (hs : Slid h h'.memory low es new high) (he : (r, addr') ∈ new) :
    ∃ addr, (r, addr) ∈ es ∧ Copied h addr h' addr' := by
  induction hs with
  | nil => exact nomatch he
  | cons hcopied _ ih =>
      rcases List.mem_cons.1 he with heq | he
      · cases heq
        exact ⟨_, List.mem_cons_self, hcopied⟩
      · obtain ⟨addr, hmem, hcopied'⟩ := ih he
        exact ⟨addr, List.mem_cons_of_mem _ hmem, hcopied'⟩

theorem low_le {memory : Array UInt32} (hs : Slid h memory low es new high) : low ≤ high := by
  induction hs with
  | nil => exact Nat.le_refl _
  | cons _ _ ih => omega

theorem high_le {top : Nat} (hs : Slid h h'.memory low es new high)
    (hordered : es.Pairwise fun a b => a.2 + h.footprintAt a.2 ≤ b.2)
    (habove : ∀ e ∈ es, low ≤ e.2 ∧ e.2 + h.footprintAt e.2 ≤ top) (hlow : low ≤ top) :
    high ≤ top := by
  induction hs with
  | nil => exact hlow
  | cons _ _ ih =>
      obtain ⟨hfirst, hrest⟩ := List.pairwise_cons.1 hordered
      have hhead := habove _ List.mem_cons_self
      dsimp only at hhead
      refine ih hrest (fun e he => ?_) (by omega)
      have hbehind := hfirst e he
      have hlies := habove e (List.mem_cons_of_mem _ he)
      dsimp only at hbehind
      omega

end Slid

theorem length_readWords (h : Heap) (addr count : Nat) :
    (h.readWords addr count).length = count := by
  unfold readWords
  rw [List.length_map, List.length_range]

theorem getD_readWords (h : Heap) (addr : Nat) {count i : Nat} (hi : i < count) :
    (h.readWords addr count).getD i 0 = h.word (addr + i) := by
  unfold readWords
  rw [List.getD_eq_getElem?_getD, List.getElem?_map, List.getElem?_range hi]
  rfl

/-- What moving one object does to the memory: it stands at the top, and nothing below or behind it
changes. -/
theorem move_spec {done : Moved} (hfit : done.top + h.footprintAt e.2 ≤ done.memory.size) :
    (h.move done e).memory.size = done.memory.size ∧
      (∀ i < h.footprintAt e.2,
        (h.move done e).memory.getD (done.top + i) 0 = h.word (e.2 + i)) ∧
      ∀ x, x < done.top ∨ (h.move done e).top ≤ x →
        (h.move done e).memory.getD x 0 = done.memory.getD x 0 := by
  have hlength := length_readWords h e.2 (h.footprintAt e.2)
  have hgetD := fun x => getD_writeWords done.memory done.top x
    (h.readWords e.2 (h.footprintAt e.2)) (by rw [hlength]; exact hfit)
  rw [hlength] at hgetD
  unfold move
  refine ⟨size_writeWords _ _ _, fun i hi => ?_, fun x hx => ?_⟩
  · rw [hgetD, if_pos (by omega), Nat.add_sub_cancel_left, getD_readWords h e.2 hi]
  · dsimp only at hx
    rw [hgetD, if_neg (by omega)]

/-- The objects of a list end up one after another behind those moved before, which stay. -/
theorem foldl_move {es : List (Ref × Nat)} {done : Moved}
    (hsize : done.memory.size = h.capacity)
    (hordered : es.Pairwise fun a b => a.2 + h.footprintAt a.2 ≤ b.2)
    (habove : ∀ e ∈ es, done.top ≤ e.2 ∧ e.2 + h.footprintAt e.2 ≤ h.capacity) :
    (es.foldl h.move done).memory.size = h.capacity ∧
      (∀ x, x < done.top ∨ (es.foldl h.move done).top ≤ x →
        (es.foldl h.move done).memory.getD x 0 = done.memory.getD x 0) ∧
      ∃ new, (es.foldl h.move done).table = new.reverse ++ done.table ∧
        Slid h (es.foldl h.move done).memory done.top es new (es.foldl h.move done).top := by
  induction es generalizing done with
  | nil => exact ⟨hsize, fun _ _ => rfl, [], rfl, .nil⟩
  | cons e es ih =>
      obtain ⟨hfirst, hrest⟩ := List.pairwise_cons.1 hordered
      have hhead := habove e List.mem_cons_self
      have hfit : done.top + h.footprintAt e.2 ≤ done.memory.size := by omega
      obtain ⟨hsize', hcopied, hkeeps⟩ := move_spec hfit
      have htop : (h.move done e).top = done.top + h.footprintAt e.2 := rfl
      -- `e` lay at the top or above it, so its copy ends before the next object starts
      have habove' : ∀ e' ∈ es, (h.move done e).top ≤ e'.2 ∧
          e'.2 + h.footprintAt e'.2 ≤ h.capacity := by
        intro e' he'
        have hbehind := hfirst e' he'
        have hlies := habove e' (List.mem_cons_of_mem _ he')
        omega
      obtain ⟨hsize'', hkeeps', new, htable, hslid⟩ := ih (hsize'.trans hsize) hrest habove'
      have hhigh := hslid.low_le
      rw [List.foldl_cons]
      refine ⟨hsize'', fun x hx => ?_, (e.1, done.top) :: new, ?_, .cons (fun i hi => ?_) hslid⟩
      · rw [hkeeps' x (by omega), hkeeps x (by omega)]
      · rw [htable, List.reverse_cons, List.append_assoc]
        rfl
      · rw [hkeeps' _ (by omega), hcopied i hi]

theorem isDeadAt_iff : h.isDeadAt addr = true ↔ (h.countAt addr).toNat = 0 := by
  unfold isDeadAt
  rw [decide_eq_true_iff, eq_zero_iff]

theorem mem_kept : e ∈ h.kept ↔ e ∈ h.table ∧ 0 < (h.countAt e.2).toNat := by
  unfold kept
  rw [List.mem_filter, Bool.not_eq_true', ← Bool.not_eq_true, isDeadAt_iff, Nat.pos_iff_ne_zero]

namespace Laid

/-- A compaction slides the objects that stay to the start, and all words behind them are 0. -/
theorem compacted_spec (hl : Laid h) : h.compacted.capacity = h.capacity ∧
    (∀ x, x < start ∨ h.compacted.top ≤ x → h.compacted.word x = 0) ∧
    Slid h h.compacted.memory start h.kept h.compacted.table h.compacted.top := by
  have habove : ∀ e ∈ h.kept, start ≤ e.2 ∧ e.2 + h.footprintAt e.2 ≤ h.capacity := by
    intro e he
    have hmem := (mem_kept.1 he).1
    exact ⟨(hl.consecutive.lies hmem).1, hl.inside hmem⟩
  have hordered : h.kept.Pairwise fun a b => a.2 + h.footprintAt a.2 ≤ b.2 := hl.ordered.filter _
  have hempty : (⟨Array.replicate h.capacity 0, [], start⟩ : Moved).memory.size = h.capacity :=
    Array.size_replicate
  obtain ⟨hsize, hclear, new, htable, hslid⟩ := foldl_move hempty hordered habove
  have hnew : h.compacted.table = new := by
    unfold compacted
    dsimp only
    rw [htable, List.append_nil, List.reverse_reverse]
  have hzero : ∀ x, (Array.replicate h.capacity (0 : UInt32)).getD x 0 = 0 := fun x => by
    rw [Array.getD_eq_getD_getElem?, Array.getElem?_replicate]
    split <;> rfl
  rw [hnew]
  exact ⟨hsize, fun x hx => (hclear x hx).trans (hzero x), hslid⟩

theorem capacity_compacted (hl : Laid h) : h.compacted.capacity = h.capacity :=
  hl.compacted_spec.1

theorem word_compacted (hl : Laid h) {i : Nat} (hx : i < start ∨ h.compacted.top ≤ i) :
    h.compacted.word i = 0 :=
  hl.compacted_spec.2.1 i hx

theorem slid (hl : Laid h) :
    Slid h h.compacted.memory start h.kept h.compacted.table h.compacted.top :=
  hl.compacted_spec.2.2

theorem top_compacted_le (hl : Laid h) : h.compacted.top ≤ h.top := by
  refine hl.slid.high_le (hl.ordered.filter _) (fun e he => ?_) hl.consecutive.le
  exact hl.consecutive.lies (mem_kept.1 he).1

theorem isDeadAt_eq (hl : Laid h) (he : e ∈ h.table) :
    h.isDeadAt e.2 = !decide (0 < h.countOf e.1) := by
  rw [hl.countOf_eq (show (e.1, e.2) ∈ h.table from he), Bool.eq_iff_iff, isDeadAt_iff,
    Bool.not_eq_true', decide_eq_false_iff_not]
  omega

theorem inUse_compacted (hl : Laid h) :
    h.compacted.inUse = h.inUse.filter fun r => 0 < h.countOf r := by
  unfold inUse
  rw [hl.slid.names, List.filter_map]
  refine congrArg (List.map _) (List.filter_congr fun e he => ?_)
  rw [hl.isDeadAt_eq he, Bool.not_not]
  rfl

theorem dropped_eq (hl : Laid h) :
    h.dropped = h.inUse.filter fun r => !decide (0 < h.countOf r) := by
  unfold dropped inUse
  rw [List.filter_map]
  exact congrArg (List.map _) (List.filter_congr fun e he => hl.isDeadAt_eq he)

theorem mem_inUse_compacted (hl : Laid h) : r ∈ h.compacted.inUse ↔ 0 < h.countOf r := by
  rw [hl.inUse_compacted, List.mem_filter, decide_eq_true_iff]
  exact and_iff_right_of_imp mem_inUse_of_countOf

theorem compacted (hl : Laid h) : Laid h.compacted := by
  have hslid := hl.slid
  constructor
  · exact hslid.consecutive
  · rw [hl.capacity_compacted]
    exact Nat.le_trans hl.top_compacted_le hl.fits
  · rintro ⟨r, addr'⟩ he
    obtain ⟨addr, hmem, hcopied⟩ := hslid.mem_old he
    rw [Copied.fieldsAt hcopied, Copied.sizeAt hcopied]
    exact hl.sized _ (mem_kept.1 hmem).1
  · rw [hl.inUse_compacted]
    exact hl.nodup_inUse.filter _

theorem copied_compacted (hl : Laid h) (he : (r, addr) ∈ h.table) (hcount : 0 < h.countOf r) :
    ∃ addr', (r, addr') ∈ h.compacted.table ∧ Copied h addr h.compacted addr' := by
  rw [hl.countOf_eq he] at hcount
  exact hl.slid.mem_new (mem_kept.2 ⟨he, hcount⟩)

theorem countOf_compacted (hl : Laid h) (r : Ref) : h.compacted.countOf r = h.countOf r := by
  by_cases hcount : 0 < h.countOf r
  · obtain ⟨addr, hmem⟩ := mem_inUse.1 (mem_inUse_of_countOf hcount)
    obtain ⟨addr', hmem', hcopied⟩ := hl.copied_compacted hmem hcount
    exact hcopied.countOf hl hl.compacted hmem hmem'
  · rw [countOf_eq_zero fun hmem => hcount (hl.mem_inUse_compacted.1 hmem)]
    omega

theorem refsOf_compacted (hl : Laid h) (hcount : 0 < h.countOf r) :
    h.compacted.refsOf r = h.refsOf r := by
  obtain ⟨addr, hmem⟩ := mem_inUse.1 (mem_inUse_of_countOf hcount)
  obtain ⟨addr', hmem', hcopied⟩ := hl.copied_compacted hmem hcount
  exact hcopied.refsOf hl hl.compacted hmem hmem'

theorem stays_compacted (hl : Laid h) (r : Ref) :
    ((h.kept.foldl h.move ⟨Array.replicate h.capacity 0, [], start⟩).table.any
      fun entry => entry.1 = r) = decide (0 < h.countOf r) := by
  rw [← List.any_reverse, Bool.eq_iff_iff, decide_eq_true_iff, ← hl.mem_inUse_compacted,
    List.any_eq_true, mem_inUse]
  constructor
  · rintro ⟨⟨x, addr⟩, hmem, heq⟩
    obtain rfl : x = r := of_decide_eq_true heq
    exact ⟨addr, hmem⟩
  · rintro ⟨addr, hmem⟩
    exact ⟨(r, addr), hmem, decide_eq_true rfl⟩

theorem scopes_compacted (hl : Laid h) :
    h.compacted.roots = h.roots.filter (fun r => 0 < h.countOf r) ∧
      h.compacted.outer = h.outer.map fun scope => scope.filter fun r => 0 < h.countOf r := by
  have hstays := funext hl.stays_compacted
  unfold Heap.compacted
  dsimp only
  rw [hstays]
  exact ⟨rfl, rfl⟩

end Laid

theorem Numbered.compacted (hl : Laid h) {upcoming : List Ref} (hn : Numbered h upcoming) :
    Numbered h.compacted upcoming := by
  have hperm : (upcoming ++ (h.compacted.inUse ++ h.compacted.free)).Perm
      (upcoming ++ (h.inUse ++ h.free)) := by
    refine List.Perm.append_left _ ?_
    have hfree : h.compacted.free = h.dropped.reverse ++ h.free := rfl
    rw [hfree, ← List.append_assoc, hl.inUse_compacted, hl.dropped_eq]
    refine List.Perm.append_right _ ?_
    exact ((List.reverse_perm _).append_left _).trans (List.filter_append_perm _ _)
  refine ⟨hperm.nodup_iff.2 hn.nodup, fun r => ?_, hn.last_le⟩
  rw [hperm.mem_iff]
  exact hn.mem_iff r

end Midend.Heap
