import Midend.Catalog
import Midend.Proofs.Heap.Making
import Mathlib.Data.List.Nodup
import Mathlib.Data.Nat.Bitwise
/-!
# Layouts

No field lies at the offset of the dispatch slot (`Layout.offset_pos_of_mem_ofFields`).  Offsets are
natural numbers, and words of 32 bits as long as a class has fewer than `2 ^ 32 - 1` fields
(`Layout.words_ofFields`).  Where no name comes twice, the fields lie one behind the other from
offset 1 on (`Layout.regular_ofFields`).
The bitmap has the bits of the references among the first words (`Layout.testBit_bitmap`), and the
heap takes it for an object of the dispatch slot and the fields (`Layout.Regular.make_accepts`).
-/

namespace Midend

theorem Ty.isReference_iff {ty : Ty} :
    ty.isReference = true ↔
      (∃ className, ty = .object className) ∨ ∃ params ret, ty = .callable params ret := by
  cases ty <;> simp [Ty.isReference]

namespace Layout

variable {layout : Layout} {fields : List Tree.Decl} {field : String} {entry : Field}
  {other : String × Field}

/-! ## Offsets -/

/-- The entries have the offsets 1, 2 and so on, in order. -/
def Regular (layout : Layout) : Prop :=
  layout.map (·.2.offset) = List.range' 1 layout.length

theorem mem_put (h : other ∈ layout.put field entry) :
    other = (field, entry) ∨ other ∈ layout := by
  induction layout with
  | nil => exact .inl (List.mem_singleton.1 h)
  | cons first layout ih =>
      unfold put at h
      split at h
      · rename_i hname
        rw [List.mem_cons, hname] at h
        exact h.imp_right (List.mem_cons_of_mem _)
      · rcases List.mem_cons.1 h with rfl | h
        · exact .inr List.mem_cons_self
        · exact (ih h).imp_right (List.mem_cons_of_mem _)

theorem put_of_not_mem (h : field ∉ layout.map (·.1)) :
    layout.put field entry = layout ++ [(field, entry)] := by
  induction layout with
  | nil => rfl
  | cons first layout ih =>
      obtain ⟨hne, hrest⟩ := List.ne_and_not_mem_of_not_mem_cons h
      unfold put
      rw [if_neg (Ne.symm hne), ih hrest]
      rfl

def putAll (layout : Layout) (entries : List (Tree.Decl × Nat)) : Layout :=
  entries.foldl (fun layout (v, i) => layout.put v.name ⟨i + 1, v.ty, v.value⟩) layout

theorem mem_putAll {entries : List (Tree.Decl × Nat)} (h : other ∈ layout.putAll entries) :
    other ∈ layout ∨ ∃ v i, (v, i) ∈ entries ∧ other = (v.name, ⟨i + 1, v.ty, v.value⟩) := by
  induction entries generalizing layout with
  | nil => exact .inl h
  | cons first entries ih =>
      obtain ⟨v, i⟩ := first
      rcases ih h with h | ⟨v', i', hmem, rfl⟩
      · rcases mem_put h with rfl | h
        · exact .inr ⟨v, i, List.mem_cons_self, rfl⟩
        · exact .inl h
      · exact .inr ⟨v', i', List.mem_cons_of_mem _ hmem, rfl⟩

/-- Every entry is that of a declaration, at its place counted from 1. -/
theorem mem_ofFields (h : other ∈ ofFields fields) :
    ∃ v i, fields[i]? = some v ∧ other = (v.name, ⟨i + 1, v.ty, v.value⟩) := by
  obtain ⟨v, i, hmem, rfl⟩ := (mem_putAll h).resolve_left List.not_mem_nil
  exact ⟨v, i, List.mk_mem_zipIdx_iff_getElem?.1 hmem, rfl⟩

theorem offset_pos_of_mem_ofFields (h : other ∈ ofFields fields) : 0 < other.2.offset := by
  obtain ⟨v, i, -, rfl⟩ := mem_ofFields h
  exact Nat.succ_pos i

theorem offset_le_of_mem_ofFields (h : other ∈ ofFields fields) :
    other.2.offset ≤ fields.length := by
  obtain ⟨v, i, hv, rfl⟩ := mem_ofFields h
  exact (List.getElem?_eq_some_iff.1 hv).1

theorem length_put_le (layout : Layout) (field : String) (entry : Field) :
    (layout.put field entry).length ≤ layout.length + 1 := by
  induction layout with
  | nil => exact Nat.le_refl 1
  | cons first layout ih =>
      unfold put
      split
      · exact Nat.le_succ _
      · exact Nat.succ_le_succ ih

theorem length_putAll_le (layout : Layout) (entries : List (Tree.Decl × Nat)) :
    (layout.putAll entries).length ≤ layout.length + entries.length := by
  induction entries generalizing layout with
  | nil => exact Nat.le_refl _
  | cons first entries ih =>
      obtain ⟨v, i⟩ := first
      have hput := layout.length_put_le v.name ⟨i + 1, v.ty, v.value⟩
      have hrest := ih (layout.put v.name ⟨i + 1, v.ty, v.value⟩)
      rw [List.length_cons]
      exact Nat.le_trans hrest (by omega)

theorem length_ofFields_le (fields : List Tree.Decl) :
    (ofFields fields).length ≤ fields.length := by
  have hlength := length_putAll_le [] fields.zipIdx
  rw [List.length_zipIdx, List.length_nil, Nat.zero_add] at hlength
  exact hlength

/-- In a class of fewer than `2 ^ 32 - 1` fields, the offsets and the number of words of an object
are words of 32 bits. -/
theorem words_ofFields (hfew : fields.length + 1 < UInt32.size) :
    (ofFields fields).length + 1 < UInt32.size ∧
      ∀ other ∈ ofFields fields, other.2.offset < UInt32.size := by
  have hlength := length_ofFields_le fields
  refine ⟨by omega, fun other hother => ?_⟩
  have hoffset := offset_le_of_mem_ofFields hother
  omega

theorem putAll_of_nodup (entries : List (Tree.Decl × Nat))
    (h : (layout.map (·.1) ++ entries.map (·.1.name)).Nodup) :
    layout.putAll entries =
      layout ++ entries.map fun (v, i) => (v.name, ⟨i + 1, v.ty, v.value⟩) := by
  induction entries generalizing layout with
  | nil => exact (List.append_nil layout).symm
  | cons first entries ih =>
      obtain ⟨v, i⟩ := first
      have hnew : v.name ∉ layout.map (·.1) := fun hmem =>
        (List.nodup_append.1 h).2.2 _ hmem _ List.mem_cons_self rfl
      have hput : layout.putAll ((v, i) :: entries) =
          Layout.putAll (layout ++ [(v.name, ⟨i + 1, v.ty, v.value⟩)]) entries :=
        congrArg (fun layout => putAll layout entries) (put_of_not_mem hnew)
      rw [hput, ih (by simpa using h), List.append_assoc]
      rfl

theorem ofFields_of_nodup (h : (fields.map (·.name)).Nodup) :
    ofFields fields = fields.zipIdx.map fun (v, i) => (v.name, ⟨i + 1, v.ty, v.value⟩) := by
  have hnames : fields.zipIdx.map (·.1.name) = fields.map (·.name) := by
    have hfirst := congrArg (List.map (·.name)) (List.zipIdx_map_fst 0 fields)
    rwa [List.map_map] at hfirst
  have hnodup : (List.map (·.1) ([] : Layout) ++ fields.zipIdx.map (·.1.name)).Nodup := by
    rwa [List.map_nil, List.nil_append, hnames]
  exact (putAll_of_nodup fields.zipIdx hnodup).trans (List.nil_append _)

theorem regular_ofFields (h : (fields.map (·.name)).Nodup) : Regular (ofFields fields) := by
  have hindex : fields.zipIdx.map (fun x => x.2 + 1) = List.range' 1 fields.length := by
    have hsnd := congrArg (List.map (· + 1)) (List.zipIdx_map_snd 0 fields)
    rw [List.map_map] at hsnd
    exact hsnd.trans (by simp [List.range'_eq_map_range, Nat.add_comm])
  unfold Regular
  rw [ofFields_of_nodup h, List.map_map, List.length_map, List.length_zipIdx]
  exact hindex

theorem Regular.offset_mem (h : Regular layout) (hmem : other ∈ layout) :
    1 ≤ other.2.offset ∧ other.2.offset ≤ layout.length := by
  have hoffset : other.2.offset ∈ layout.map (·.2.offset) := List.mem_map_of_mem hmem
  rw [h, List.mem_range'_1] at hoffset
  omega

/-! ## Bitmaps -/

/-- One more reference sets the bit of its offset. -/
theorem testBit_mark (bits : UInt32) {offset : Nat} (hoffset : offset < 32) (i : Nat) :
    (bits ||| (1 <<< UInt32.ofNat offset)).toNat.testBit i =
      (bits.toNat.testBit i || decide (offset = i)) := by
  have hsmall : (UInt32.ofNat offset).toNat % 32 = offset := by
    rw [UInt32.toNat_ofNat_of_lt' (Nat.lt_trans hoffset (by decide)), Nat.mod_eq_of_lt hoffset]
  have hpow : 2 ^ offset < 2 ^ 32 := Nat.pow_lt_pow_right (by decide) hoffset
  rw [UInt32.toNat_or, Nat.testBit_or, UInt32.toNat_shiftLeft, hsmall, UInt32.toNat_one,
    Nat.one_shiftLeft, Nat.mod_eq_of_lt hpow, Nat.testBit_two_pow]

def markAll (bits : UInt32) (layout : Layout) : UInt32 :=
  layout.foldl (fun bits (_, field) =>
    if field.ty.isReference && field.offset < 32 then bits ||| (1 <<< UInt32.ofNat field.offset)
    else bits) bits

theorem testBit_markAll (bits : UInt32) (layout : Layout) (i : Nat) :
    (markAll bits layout).toNat.testBit i = true ↔ bits.toNat.testBit i = true ∨
      i < 32 ∧ ∃ other ∈ layout, other.2.offset = i ∧ other.2.ty.isReference = true := by
  induction layout generalizing bits with
  | nil => simp [markAll]
  | cons first layout ih =>
      obtain ⟨name, field⟩ := first
      rw [List.exists_mem_cons_iff]
      by_cases hmarks : field.ty.isReference = true ∧ field.offset < 32
      · have hstep : markAll bits ((name, field) :: layout) =
            markAll (bits ||| (1 <<< UInt32.ofNat field.offset)) layout := by
          simp [markAll, hmarks]
        rw [hstep, ih, testBit_mark bits hmarks.2, Bool.or_eq_true, decide_eq_true_eq]
        constructor
        · rintro ((h | rfl) | h)
          · exact .inl h
          · exact .inr ⟨hmarks.2, .inl ⟨rfl, hmarks.1⟩⟩
          · exact .inr ⟨h.1, .inr h.2⟩
        · rintro (h | ⟨hi, ⟨hoffset, -⟩ | h⟩)
          · exact .inl (.inl h)
          · exact .inl (.inr hoffset)
          · exact .inr ⟨hi, h⟩
      · have hstep : markAll bits ((name, field) :: layout) = markAll bits layout := by
          simp [markAll, hmarks]
        rw [hstep, ih]
        constructor
        · exact fun h => h.imp_right fun h => ⟨h.1, .inr h.2⟩
        · rintro (h | ⟨hi, ⟨rfl, hty⟩ | h⟩)
          · exact .inl h
          · exact absurd ⟨hty, hi⟩ hmarks
          · exact .inr ⟨hi, h⟩

theorem testBit_bitmap (layout : Layout) (i : Nat) :
    layout.bitmap.toNat.testBit i = true ↔
      i < 32 ∧ ∃ other ∈ layout, other.2.offset = i ∧ other.2.ty.isReference = true := by
  have hall := testBit_markAll 0 layout i
  simpa [markAll, bitmap] using hall

theorem Regular.marksBeyond_eq_false (h : Regular layout) :
    Heap.marksBeyond layout.bitmap (layout.length + 1) = false := by
  have hshift : layout.bitmap.toNat >>> (layout.length + 1) = 0 := by
    refine Nat.eq_of_testBit_eq fun i => ?_
    rw [Nat.testBit_shiftRight, Nat.zero_testBit]
    refine Bool.eq_false_iff.2 fun hbit => ?_
    obtain ⟨-, other, hmem, hoffset, -⟩ := (testBit_bitmap layout _).1 hbit
    have hle := (h.offset_mem hmem).2
    omega
  unfold Heap.marksBeyond
  rw [hshift]
  simp

theorem Regular.make_accepts (h : Regular layout) {heap heap' : Heap} {fault : HeapFault}
    (hrun : Heap.run (Heap.make (layout.length + 1) layout.bitmap) heap = (.error fault, heap'))
    (bitmap : UInt32) (words : Nat) : fault ≠ .bitmapTooWide bitmap words := by
  rcases Heap.make_fault hrun with ⟨hbeyond, -⟩ | ⟨_, _, rfl⟩ | ⟨_, rfl⟩
  · exact absurd (h.marksBeyond_eq_false.symm.trans hbeyond) Bool.false_ne_true
  · exact nofun
  · exact nofun

end Layout

end Midend
