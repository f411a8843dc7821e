import Midend.Heap.Usage
import Midend.Proofs.Heap.Discipline
import Midend.Proofs.Heap.Keeping
/-!
# Any calls

Whatever is asked of a heap, with any arguments, in any order and whether it succeeds or
fails, the heap stays in order: its objects fill the memory from the start to the top,
every number is in use or recycled, and every scope holds objects in use only.

Most of an operation only changes counts (`OnlyCounts`), which leaves all of this as it
is; what else operations do is listed in their cases.
-/

namespace Midend.Heap

inductive Call where
  | request (q : Request)
  | addToCount (root target : Ref) (delta : Int) (structural : Bool)
  | reset

/-- The heap after a call, whether it succeeded or failed. -/
def perform (h : Heap) : Call → Heap
  | .request q => h.serve q
  | .addToCount root target delta structural => (run (addToCount root target delta structural) h).2
  | .reset => (run reset h).2

def performed (h : Heap) (calls : List Call) : Heap := calls.foldl perform h

structure Ordered (limits : HeapLimits) (h : Heap) : Prop extends Tidy h where
  limits_eq : h.limits = limits
  capacity_eq : h.capacity = limits.capacity
  rooted : ∀ scope ∈ h.roots :: h.outer, ∀ r ∈ scope, r ∈ h.inUse

variable {α β : Type} {limits : HeapLimits} {h h' : Heap} {r : Ref}

/-! ## Changing counts -/

/-- Nothing but counts differs, and the objects lie where they did. -/
structure SameLayout (h h' : Heap) : Prop extends Recounted h h' where
  laid : Laid h'
  capacity : h'.capacity = h.capacity

theorem SameLayout.refl (hl : Laid h) : SameLayout h h := ⟨Recounted.refl h, hl, rfl⟩

theorem SameLayout.trans {h'' : Heap} (hs : SameLayout h h') (hs' : SameLayout h' h'') :
    SameLayout h h'' :=
  ⟨hs.toRecounted.trans hs'.toRecounted, hs'.laid, hs'.capacity.trans hs.capacity⟩

theorem Ordered.recount (ho : Ordered limits h) (hs : SameLayout h h') : Ordered limits h' where
  toTidy := hs.toRecounted.tidy ho.toTidy hs.laid
  limits_eq := hs.limits.trans ho.limits_eq
  capacity_eq := hs.capacity.trans ho.capacity_eq
  rooted := by
    rw [hs.roots, hs.outer, hs.toRecounted.inUse]
    exact ho.rooted

/-- Wherever the objects lie in order, the activity changes counts at most, also when it
fails on the way. -/
def OnlyCounts (act : Action α) : Prop := ∀ h, Laid h → SameLayout h (run act h).2

theorem onlyCounts_changeCount (r : Ref) (delta : Int) : OnlyCounts (changeCount r delta) := by
  intro h hl
  rcases address_cases hl r with ⟨hr, addr, -, haddr⟩ | ⟨-, haddr⟩
  · obtain ⟨h', hrun, hl', hre, -⟩ := changeCount_spec hl hr delta
    rw [hrun]
    refine ⟨hre, hl', ?_⟩
    -- the specification leaves the capacity out, but the memory only had one word set
    have hset : (run (changeCount r delta) h).2.capacity = h.capacity := by
      unfold changeCount
      rw [run_inspect_ok haddr, run_bind_ok (run_get h), run_bind_ok (run_set h _)]
      exact capacity_setWord h addr _
    rw [hrun] at hset
    exact hset
  · unfold changeCount
    rw [run_inspect_error haddr]
    exact .refl hl

/-- A walk changes counts one by one, and each change keeps the layout of the heap before it. -/
theorem keeps_sameLayout (h : Heap) (r : Ref) (delta : Int) :
    Keeps (SameLayout h) (changeCount r delta) :=
  fun h' hs => hs.trans (onlyCounts_changeCount r delta h' hs.laid)

theorem onlyCounts_of_keeps {act : Action α} (hkeeps : ∀ h, Keeps (SameLayout h) act) :
    OnlyCounts act :=
  fun h hl => hkeeps h h (.refl hl)

theorem onlyCounts_giveUp (delta : Int) (children : List Ref) (walk : Walk) :
    OnlyCounts (giveUp delta walk children) :=
  onlyCounts_of_keeps fun h => keeps_giveUp (keeps_sameLayout h · delta) children walk

theorem onlyCounts_addToCount (root target : Ref) (delta : Int) (structural : Bool) :
    OnlyCounts (addToCount root target delta structural) :=
  onlyCounts_of_keeps fun h => keeps_addToCount (keeps_sameLayout h · delta) root target structural

theorem onlyCounts_letGoAll (rs : List Ref) : OnlyCounts (letGoAll rs) :=
  onlyCounts_of_keeps fun h => keeps_letGoAll (keeps_sameLayout h) rs

theorem onlyCounts_moveCount (r : Ref) (traced : Bool) (old value : UInt32) :
    OnlyCounts (moveCount r traced old value) :=
  onlyCounts_of_keeps fun h => keeps_moveCount (keeps_sameLayout h) r traced old value

/-! ## Everything else -/

namespace Ordered

theorem run (ho : Ordered limits h) {act : Action α} (hact : OnlyCounts act) :
    Ordered limits (Heap.run act h).2 :=
  ho.recount (hact h ho.laid)

theorem withScopes (ho : Ordered limits h) {roots : List Ref} {outer : List (List Ref)}
    (hnodup : ∀ scope ∈ roots :: outer, scope.Nodup)
    (hrooted : ∀ scope ∈ roots :: outer, ∀ r ∈ scope, r ∈ h.inUse) :
    Ordered limits { h with roots := roots, outer := outer } :=
  ⟨ho.toTidy.withScopes hnodup, ho.limits_eq, ho.capacity_eq, hrooted⟩

theorem openScope (ho : Ordered limits h) : Ordered limits (Heap.run Heap.openScope h).2 := by
  have hnodup : ∀ scope ∈ [] :: h.roots :: h.outer, scope.Nodup :=
    List.forall_mem_cons.2 ⟨List.nodup_nil, ho.nodup_scopes⟩
  have hrooted : ∀ scope ∈ [] :: h.roots :: h.outer, ∀ r ∈ scope, r ∈ h.inUse :=
    List.forall_mem_cons.2 ⟨fun _ hr => absurd hr List.not_mem_nil, ho.rooted⟩
  exact ho.withScopes hnodup hrooted

theorem closeScope (ho : Ordered limits h) : Ordered limits (Heap.run Heap.closeScope h).2 := by
  rcases closeScope_cases h with ⟨-, hrun⟩ | ⟨scope, outer, houter, hrun⟩
  · rw [hrun]
    exact ho
  · have hnodup := ho.nodup_scopes
    have hrooted := ho.rooted
    rw [houter] at hnodup hrooted
    rw [hrun]
    apply Ordered.run
    · exact ho.withScopes (List.forall_mem_cons.1 hnodup).2 (List.forall_mem_cons.1 hrooted).2
    · exact onlyCounts_letGoAll h.roots

theorem withRoot (ho : Ordered limits h) (hr : r ∈ h.inUse) (hnew : r ∉ h.roots) :
    Ordered limits { h with roots := h.roots ++ [r] } := by
  have hrooted := List.forall_mem_cons.1 ho.rooted
  apply ho.withScopes (nodup_root ho.nodup_scopes hnew)
  refine List.forall_mem_cons.2 ⟨fun x hx => ?_, hrooted.2⟩
  rcases List.mem_append.1 hx with hx | hx
  · exact hrooted.1 x hx
  · rw [List.mem_singleton.1 hx]
    exact hr

theorem hold (ho : Ordered limits h) (r : Ref) : Ordered limits (Heap.run (Heap.hold r) h).2 := by
  rcases hold_cases ho.laid r with ⟨-, hrun⟩ | ⟨-, -, hrun⟩ | ⟨hr, hnew, hrun⟩
  · rw [hrun]
    exact ho
  · rw [hrun]
    exact ho
  · rw [hrun]
    exact (ho.withRoot hr hnew).run (onlyCounts_addToCount r 0 1 false)

theorem letGo (ho : Ordered limits h) (r : Ref) : Ordered limits (Heap.run (Heap.letGo r) h).2 := by
  rcases letGo_cases ho.laid r with ⟨-, hrun⟩ | ⟨-, -, hrun⟩ | ⟨-, hrun⟩
  · rw [hrun]
    exact ho
  · rw [hrun]
    exact ho
  · have hrooted := List.forall_mem_cons.1 ho.rooted
    rw [hrun]
    apply Ordered.run
    · apply ho.withScopes (nodup_unrooted ho.nodup_scopes r)
      exact List.forall_mem_cons.2
        ⟨fun x hx => hrooted.1 x (List.mem_of_mem_filter hx), hrooted.2⟩
    · exact onlyCounts_addToCount r 0 (-1) true

theorem write (ho : Ordered limits h) (r : Ref) (offset : Nat) (value : UInt32) :
    Ordered limits (Heap.run (Heap.write r offset value) h).2 := by
  rcases write_cases ho.laid r offset value with ⟨fault, hrun⟩ | ⟨addr, he, hoffset, -, hrun⟩
  · rw [hrun]
    exact ho
  · have hsize := ho.laid.fieldsAt_lt he hoffset
    rw [hrun]
    refine Ordered.run ⟨ho.toTidy.setField he hsize value, ho.limits_eq, ?_, ho.rooted⟩
      (onlyCounts_moveCount r _ _ value)
    rw [capacity_setWord]
    exact ho.capacity_eq

theorem compacted (ho : Ordered limits h) : Ordered limits h.compacted := by
  obtain ⟨hroots, houter⟩ := ho.laid.scopes_compacted
  have hscopes : ∀ scope ∈ h.compacted.roots :: h.compacted.outer,
      ∃ before ∈ h.roots :: h.outer, scope = before.filter fun r => 0 < h.countOf r := by
    rw [hroots, houter]
    intro scope hscope
    rcases List.mem_cons.1 hscope with rfl | hscope
    · exact ⟨h.roots, List.mem_cons_self, rfl⟩
    · obtain ⟨before, hmem, rfl⟩ := List.mem_map.1 hscope
      exact ⟨before, List.mem_cons_of_mem _ hmem, rfl⟩
  refine ⟨⟨ho.laid.compacted, ho.numbered.compacted ho.laid, ?_⟩, ho.limits_eq, ?_, ?_⟩
  · intro scope hscope
    obtain ⟨before, hmem, rfl⟩ := hscopes scope hscope
    exact (ho.nodup_scopes before hmem).filter _
  · rw [ho.laid.capacity_compacted]
    exact ho.capacity_eq
  · intro scope hscope r hr
    obtain ⟨before, hmem, rfl⟩ := hscopes scope hscope
    exact ho.laid.mem_inUse_compacted.2 (of_decide_eq_true (List.mem_filter.1 hr).2)

theorem of_same (ho : Ordered limits h) (hsame : h' = h ∨ h' = h.compacted) :
    Ordered limits h' := by
  rcases hsame with rfl | rfl
  · exact ho
  · exact ho.compacted

theorem place (ho : Ordered limits h) {free : List Ref} {last : Ref} {fields : Nat}
    {bitmap : UInt32} (hn : Numbered { h with free := free, last := last } [r])
    (hfits : h.top + headerWords + fields ≤ h.capacity) (hfields : fields < UInt32.size) :
    Ordered limits (({ h with free := free, last := last } : Heap).place r fields bitmap) := by
  have hl : Laid { h with free := free, last := last } :=
    ho.laid.congr rfl rfl rfl (fun _ _ => rfl) fun _ _ => rfl
  have hr : r ∉ h.inUse := hn.not_mem_inUse
  have hrooted := List.forall_mem_cons.1 ho.rooted
  have hnew : r ∉ h.roots := fun hmem => hr (hrooted.1 r hmem)
  refine ⟨Tidy.place hl hn ho.nodup_scopes hnew hfits hfields, ho.limits_eq, ?_, ?_⟩
  · rw [capacity_place]
    exact ho.capacity_eq
  · have hroots : (({ h with free := free, last := last } : Heap).place r fields bitmap).roots =
        h.roots ++ [r] := roots_place hnew
    rw [hroots]
    refine List.forall_mem_cons.2 ⟨fun x hx => ?_, fun scope hscope x hx => ?_⟩
    · rcases List.mem_append.1 hx with hx | hx
      · exact mem_inUse_place.2 (.inl (hrooted.1 x hx))
      · exact mem_inUse_place.2 (.inr (List.mem_singleton.1 hx))
    · exact mem_inUse_place.2 (.inl (hrooted.2 scope hscope x hx))

theorem make (ho : Ordered limits h) (fields : Nat) (bitmap : UInt32) :
    Ordered limits (Heap.run (Heap.make fields bitmap) h).2 := by
  rcases make_cases ho.laid ho.numbered fields bitmap with
    ⟨fault, h', hrun, hsame⟩ | ⟨h', r, free, last, hsame, hn, hfits, hfields, hrun⟩
  · rw [hrun]
    exact ho.of_same hsame
  · rw [hrun]
    exact (ho.of_same hsame).place hn hfits hfields

theorem new (limits : HeapLimits) : Ordered limits (Heap.new limits) where
  toTidy := (Covered.new limits).toTidy
  limits_eq := rfl
  capacity_eq := Array.size_replicate
  rooted := by
    intro scope hscope r hr
    rw [List.mem_singleton.1 hscope] at hr
    exact absurd hr List.not_mem_nil

theorem perform (ho : Ordered limits h) (call : Call) : Ordered limits (h.perform call) := by
  cases call with
  | addToCount root target delta structural =>
      exact ho.run (onlyCounts_addToCount root target delta structural)
  | reset =>
      rw [← ho.limits_eq]
      exact Ordered.new h.limits
  | request q =>
      cases q with
      | make fields bitmap => exact ho.make fields bitmap
      | makePlain fields => exact ho.make fields 0
      | read r offset => exact ho
      | write r offset value => exact ho.write r offset value
      | openScope => exact ho.openScope
      | closeScope => exact ho.closeScope
      | compact => exact ho.compacted
      | hold r => exact ho.hold r
      | letGo r => exact ho.letGo r

theorem performed (ho : Ordered limits h) (calls : List Call) :
    Ordered limits (h.performed calls) := by
  induction calls generalizing h with
  | nil => exact ho
  | cons call rest ih => exact ih (ho.perform call)

end Ordered

/-! ## What the order gives -/

/-- What whoever has a heap at hand may rely on: where its objects lie, which numbers they
have, and that nothing is looked up or written outside the memory. -/
structure Represented (limits : HeapLimits) (h : Heap) : Prop where
  consecutive : Consecutive h start h.table h.top
  top_le : 1 ≤ limits.capacity → h.top ≤ limits.capacity
  sized : ∀ e ∈ h.table, h.fieldsAt e.2 = h.sizeAt e.2
  nodup_inUse : h.inUse.Nodup
  nodup_free : h.free.Nodup
  disjoint : ∀ r ∈ h.inUse, r ∉ h.free
  numbers : ∀ r, r ∈ h.inUse ∨ r ∈ h.free ↔ r ≠ 0 ∧ r ≤ h.last
  last_le : h.last ≤ limits.maxRef
  rooted : ∀ scope ∈ h.roots :: h.outer, ∀ r ∈ scope, r ∈ h.inUse
  check : h.check = true
  address_injective : ∀ r x addr, h.address r = .ok addr → h.address x = .ok addr → r = x
  made_ne_zero : ∀ fields bitmap r h', run (make fields bitmap) h = (.ok r, h') → r ≠ 0
  size_memory : h.memory.size = limits.capacity
  /-- Every word of an object is a word of the memory. -/
  object_within : ∀ r addr, h.address r = .ok addr →
    ∀ i < h.footprintAt addr, addr + i < h.memory.size
  field_within : ∀ r offset addr, h.addressOfField r offset = .ok addr → addr < h.memory.size
  /-- A new object has room for its header and its fields. -/
  made_within : ∀ fields bitmap r h', run (make fields bitmap) h = (.ok r, h') →
    ∃ addr, h'.address r = .ok addr ∧ h'.footprintAt addr = headerWords + fields ∧
      addr + headerWords + fields ≤ h.memory.size
  /-- The places that a compaction moves objects to have room for them. -/
  moved_within : ∀ e ∈ h.compacted.table, e.2 + h.compacted.footprintAt e.2 ≤ h.memory.size

theorem disjoint_of_pairwise {ranges : List (Nat × Nat)}
    (hordered : ranges.Pairwise fun a b => a.2 ≤ b.1) : disjoint ranges = true := by
  induction ranges with
  | nil => rfl
  | cons a rest ih =>
      obtain ⟨hfirst, hrest⟩ := List.pairwise_cons.1 hordered
      cases rest with
      | nil => rfl
      | cons b rest =>
          unfold disjoint
          rw [ih hrest, Bool.and_true]
          exact decide_eq_true (hfirst b List.mem_cons_self)

/-- The objects stand in the table by address, so sorting their ranges changes nothing. -/
theorem Laid.check (hl : Laid h) : h.check = true := by
  have hordered : h.ranges.Pairwise fun a b => a.2 ≤ b.1 := List.pairwise_map.2 hl.ordered
  have hsorted : h.ranges.mergeSort (fun a b => a.1 < b.1 || (a.1 = b.1 && a.2 ≤ b.2)) =
      h.ranges := by
    apply List.mergeSort_of_pairwise
    refine List.pairwise_map.2 (hl.ordered.imp fun {a b} hbehind => ?_)
    have hfoot := headerWords_le_footprintAt h a.2
    have hheader : headerWords = 4 := rfl
    have hlt : a.2 < b.2 := by omega
    simp [hlt]
  have hwithin : h.ranges.all (fun range => start ≤ range.1 && range.2 ≤ h.top) = true := by
    rw [List.all_eq_true]
    intro range hrange
    obtain ⟨e, he, rfl⟩ := List.mem_map.1 hrange
    have hlies := hl.consecutive.lies he
    simpa using hlies
  unfold Heap.check
  rw [hsorted, hwithin, disjoint_of_pairwise hordered]
  rfl

theorem Laid.address_injective (hl : Laid h) {r x : Ref} {addr : Nat}
    (hr : h.address r = .ok addr) (hx : h.address x = .ok addr) : r = x := by
  by_contra hne
  have hapart := hl.apart (mem_table_of_address hr) (mem_table_of_address hx)
    fun heq => hne (congrArg Prod.fst heq)
  have hfoot := headerWords_le_footprintAt h addr
  have hheader : headerWords = 4 := rfl
  dsimp only at hapart
  omega

theorem Laid.field_within (hl : Laid h) {offset addr : Nat}
    (hfield : h.addressOfField r offset = .ok addr) : addr < h.capacity := by
  rcases address_cases hl r with ⟨-, base, he, -⟩ | ⟨-, haddr⟩
  · have hinside := hl.inside he
    have hsized := hl.sized _ he
    have hlookup := addressOfField_eq hl he offset
    rw [hfield] at hlookup
    split at hlookup
    · exact nomatch hlookup
    · obtain rfl := Except.ok.inj hlookup
      unfold footprintAt at hinside
      dsimp only at hinside hsized
      omega
  · unfold addressOfField at hfield
    rw [haddr] at hfield
    exact nomatch hfield

theorem Ordered.made (ho : Ordered limits h) {fields : Nat} {bitmap : UInt32}
    (hmade : Heap.run (Heap.make fields bitmap) h = (.ok r, h')) :
    r ≠ 0 ∧ ∃ addr, h'.address r = .ok addr ∧ h'.footprintAt addr = headerWords + fields ∧
      addr + headerWords + fields ≤ h.capacity := by
  have ho' := ho.make fields bitmap
  rcases make_cases ho.laid ho.numbered fields bitmap with
    ⟨fault, _, hrun, -⟩ | ⟨before, x, free, last, hsame, hn, hfits, hfields, hrun⟩
  · rw [hmade] at hrun
    exact nomatch (Prod.mk.inj hrun).1
  · rw [hmade] at hrun ho'
    obtain ⟨hr, rfl⟩ := Prod.mk.inj hrun
    obtain rfl := Except.ok.inj hr
    have hcapacity : before.capacity = h.capacity :=
      (ho.of_same hsame).capacity_eq.trans ho.capacity_eq.symm
    refine ⟨((hn.mem_iff r).1 List.mem_cons_self).1, before.top, ?_, ?_, ?_⟩
    · exact ho'.laid.address_eq new_mem_table_place
    · exact congrArg (headerWords + ·) (sizeAt_place hfits hfields r bitmap)
    · rw [← hcapacity]
      exact hfits

theorem Numbered.apart (hn : Numbered h []) :
    h.free.Nodup ∧ ∀ r ∈ h.inUse, r ∉ h.free := by
  have hnodup : (h.inUse ++ h.free).Nodup := hn.nodup
  obtain ⟨-, hfree, hapart⟩ := List.nodup_append.1 hnodup
  exact ⟨hfree, fun r hr hmem => hapart r hr r hmem rfl⟩

theorem Numbered.mem_or_free_iff (hn : Numbered h []) :
    r ∈ h.inUse ∨ r ∈ h.free ↔ r ≠ 0 ∧ r ≤ h.last :=
  List.mem_append.symm.trans (hn.mem_iff r)

theorem Ordered.represented (ho : Ordered limits h) : Represented limits h where
  consecutive := ho.laid.consecutive
  top_le hpos := by
    have hfits := ho.laid.fits
    rw [ho.capacity_eq] at hfits
    have hstart : start = 1 := rfl
    omega
  sized := ho.laid.sized
  nodup_inUse := ho.laid.nodup_inUse
  nodup_free := ho.numbered.apart.1
  disjoint := ho.numbered.apart.2
  numbers _ := ho.numbered.mem_or_free_iff
  last_le := by
    rw [← ho.limits_eq]
    exact ho.numbered.last_le
  rooted := ho.rooted
  check := ho.laid.check
  address_injective _ _ _ hr hx := ho.laid.address_injective hr hx
  made_ne_zero _ _ _ _ hmade := (ho.made hmade).1
  size_memory := ho.capacity_eq
  object_within r addr haddr i hi := by
    have hinside := ho.laid.inside (mem_table_of_address haddr)
    unfold capacity at hinside
    dsimp only at hinside
    omega
  field_within _ _ _ hfield := ho.laid.field_within hfield
  made_within _ _ _ _ hmade := (ho.made hmade).2
  moved_within e he := by
    have hinside := ho.laid.compacted.inside he
    rw [ho.laid.capacity_compacted] at hinside
    exact hinside

/-- After any calls with any arguments, whether they succeeded or failed, the heap is in
order. -/
theorem calls_keep_representation (limits : HeapLimits) (calls : List Call) :
    Represented limits ((Heap.new limits).performed calls) :=
  ((Ordered.new limits).performed calls).represented

end Midend.Heap
