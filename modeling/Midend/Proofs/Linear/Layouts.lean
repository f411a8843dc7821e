import Midend.Proofs.Layout
import Midend.Proofs.Linear.Objects
import Midend.Proofs.Linear.Repetition
import Midend.Proofs.Linear.Sessions
/-!
# Layouts in a session

A catalog gets its layouts from the classes that are entered, and a failed compilation enters
classes, too (`Catalog.AllLayouts.flatten`).  Where no class declares a field twice, all objects
made in a session fit the layouts of their classes, and fields are used inside of the objects,
whatever has been declared before or is declared later (`session_objects_fit`).
-/

namespace Midend.Catalog

open Linear

def AllLayouts (Q : String → Layout → Prop) (c : Catalog) : Prop :=
  ∀ name layout, c.layoutOf name = .ok layout → Q name layout

variable {Q : String → Layout → Prop} {c c' : Catalog} {name : String}
  {fields : List Tree.Decl} {methods : List (String × Nat)}

theorem allLayouts_empty : empty.AllLayouts Q := fun _ _ h => nomatch h

theorem AllLayouts.of_eq (h : c.AllLayouts Q) (heq : c'.layouts = c.layouts) :
    c'.AllLayouts Q := by
  intro name layout hlayout
  rw [layoutOf_eq_ok, heq] at hlayout
  exact h name layout (layoutOf_eq_ok.2 hlayout)

theorem layouts_addMethods (c : Catalog) : (c.addMethods name methods).layouts = c.layouts := by
  unfold addMethods
  split <;> rfl

theorem AllLayouts.withClass (h : c.AllLayouts Q) (hfields : Q name (Layout.ofFields fields)) :
    (Linear.withClass c name fields methods).AllLayouts Q := by
  unfold Linear.withClass
  split
  · exact h.of_eq (layouts_addMethods c)
  · refine AllLayouts.of_eq ?_ (layouts_addMethods _)
    intro other layout hlayout
    rw [layoutOf_eq_ok, addLayout, NameMap.get?_insert] at hlayout
    split at hlayout
    · rename_i heq
      rw [heq, ← Option.some.inj hlayout]
      exact hfields
    · exact h other layout (layoutOf_eq_ok.2 hlayout)

end Midend.Catalog

namespace Midend.Linear

open Midend.Flow (Block Stmt Value construction)
open Midend.Tree (accesses)
open Build

/-! ## Where layouts come from -/

def KeepsLayouts (Q : String → Layout → Prop) {α : Type} (act : Build α) : Prop :=
  ∀ s : State, s.catalog.AllLayouts Q → (runOn act s).2.catalog.AllLayouts Q

section Keeps

variable {Q : String → Layout → Prop} {α β : Type} {act : Build α} {next : α → Build β}

theorem keepsLayouts_of_eq (h : ∀ s, (runOn act s).2.catalog.layouts = s.catalog.layouts) :
    KeepsLayouts Q act := fun s hs => hs.of_eq (h s)

theorem KeepsLayouts.bind (hact : KeepsLayouts Q act) (hnext : ∀ a, KeepsLayouts Q (next a)) :
    KeepsLayouts Q (act >>= next) :=
  runOn_bind_trans (R := fun s s' : State => s.catalog.AllLayouts Q → s'.catalog.AllLayouts Q)
    (fun hfirst hrest hs => hrest (hfirst hs)) hact hnext

theorem keepsLayouts_enter {name : String} {fields : List Tree.Decl}
    {methods : List (String × Nat)} (h : Q name (Layout.ofFields fields)) :
    KeepsLayouts Q (enter name fields methods) := fun _ hs => hs.withClass h

/-- A property of the empty layout and of the layouts of all declared classes is kept. -/
theorem stepwise_keepsLayouts {classes : List Tree.Class} (hclosures : ∀ name, Q name [])
    (hclasses : ∀ c ∈ classes, Q c.name (Layout.ofFields c.fields)) :
    Stepwise classes (KeepsLayouts Q) where
  pure _ := keepsLayouts_of_eq fun _ => rfl
  bind := KeepsLayouts.bind
  throw _ := keepsLayouts_of_eq fun _ => rfl
  fresh _ _ := keepsLayouts_of_eq fun _ => rfl
  ask _ := keepsLayouts_of_eq fun _ => rfl
  enterClosure name _ := keepsLayouts_enter (hclosures name)
  enterClass hc := keepsLayouts_enter (hclasses _ hc)
  recordPaths enclosing f := keepsLayouts_of_eq fun s =>
    (Catalog.setClosures_eq (Closure.paths enclosing f) s.catalog).1
  addGlobals names := keepsLayouts_of_eq fun s => (Catalog.addGlobals_eq names s.catalog).1
  keep _ := keepsLayouts_of_eq fun _ => rfl
  read _ := keepsLayouts_of_eq fun _ => rfl

end Keeps

end Midend.Linear

namespace Midend.Catalog

open Linear

variable {Q : String → Layout → Prop} {c : Catalog}

theorem AllLayouts.flatten (h : c.AllLayouts Q) (hclosures : ∀ name, Q name []) {p : Tree.Program}
    (hclasses : ∀ cls ∈ p.classes, Q cls.name (Layout.ofFields cls.fields)) :
    (Linear.flatten c p).2.AllLayouts Q :=
  stepwise_program (stepwise_keepsLayouts hclosures hclasses) ⟨c, .empty, []⟩ h

theorem AllLayouts.catalogAfter (h : c.AllLayouts Q) (hclosures : ∀ name, Q name [])
    {session : List Tree.Program}
    (hclasses : ∀ p ∈ session, ∀ cls ∈ p.classes, Q cls.name (Layout.ofFields cls.fields)) :
    (Linear.catalogAfter c session).AllLayouts Q := by
  induction session generalizing c with
  | nil => exact h
  | cons p session ih =>
      obtain ⟨hfirst, hrest⟩ := List.forall_mem_cons.1 hclasses
      exact ih (h.flatten hclosures hfirst) hrest

end Midend.Catalog

namespace Midend.Linear

open Midend.Flow (Block Stmt Value construction)
open Midend.Tree (accesses)

/-! ## Objects and their layouts -/

/-- What an object is made with fits its layout: one word more than fields, each word stored once,
the bits of the fields that hold references, and no heap that refuses the bitmap. -/
structure FitsLayout (layout : Layout) (amount : Nat) (bitmap : UInt32)
    (words : List (Nat × Value)) : Prop where
  amount_eq : amount = layout.length + 1
  offsets : words.map (·.1) = List.range (layout.length + 1)
  bits : ∀ i, bitmap.toNat.testBit i = true ↔ 1 ≤ i ∧ i < 32 ∧
    ∃ name field, (name, field) ∈ layout ∧ field.offset = i ∧
      ((∃ className, field.ty = .object className) ∨ ∃ params ret, field.ty = .callable params ret)
  accepted : ∀ heap heap' fault, Heap.run (Heap.make amount bitmap) heap = (.error fault, heap') →
    ∀ found fields, fault ≠ .bitmapTooWide found fields

/-- The objects that a block of a method makes fit the layouts of a catalog.  Otherwise the block
reads and writes objects only for the fields that its scope uses: where it does, it works on what
stands for the object of such a field, at the offset of the field in the class of the object, and
inside of the objects of this class. -/
structure ObjectsFit (catalog : Catalog) (p : Tree.Program) (flow : Flow.Program)
    (m : Flow.Method) (b : Block) : Prop where
  starts : ∀ before s behind, b.stmts = before ++ s :: behind → s.allocates = true →
    ∃ className t amount bitmap words,
      construction className t amount bitmap words <+: s :: behind
  layouts : ∀ className t amount bitmap words,
    construction className t amount bitmap words <:+: b.stmts →
      ∃ layout, catalog.layoutOf className = .ok layout ∧ FitsLayout layout amount bitmap words
  offsets : ∀ s ∈ b.stmts, ∀ start offset, s.access? = some (start, offset) →
    (∃ className t amount bitmap words, construction className t amount bitmap words <:+: b.stmts ∧
      s ∈ construction className t amount bitmap words) ∨
    ∃ sc, ScopeOf p sc ∧ IsBody flow sc m ∧ ∃ obj field className layout entry,
      (obj, field) ∈ accesses sc.nodes ∧ obj.ty = .object className ∧
        OperandOf m.decls obj start ∧ catalog.layoutOf className = .ok layout ∧
        (field, entry) ∈ layout ∧ entry.offset = offset ∧ 1 ≤ offset ∧ offset < layout.length + 1

theorem offsets_objectWords {layout : Layout} (h : layout.Regular) (slot : Nat) :
    (objectWords slot layout).map (·.1) = List.range (layout.length + 1) := by
  rw [List.range_eq_range', List.range'_succ, objectWords, List.map_cons, List.map_map]
  exact congrArg (0 :: ·) h

theorem fitsLayout_of_regular {layout : Layout} (h : layout.Regular) (slot : Nat) :
    FitsLayout layout (layout.length + 1) layout.bitmap (objectWords slot layout) where
  amount_eq := rfl
  offsets := offsets_objectWords h slot
  bits i := by
    rw [Layout.testBit_bitmap]
    constructor
    · rintro ⟨hi, ⟨name, field⟩, hmem, rfl, hty⟩
      exact ⟨(h.offset_mem hmem).1, hi, name, field, hmem, rfl, Ty.isReference_iff.1 hty⟩
    · rintro ⟨-, hi, name, field, hmem, hoffset, hty⟩
      exact ⟨hi, (name, field), hmem, hoffset, Ty.isReference_iff.2 hty⟩
  accepted _ _ _ hrun := h.make_accepts hrun

/-- Every object that is made in a session is made with one word more than its class has fields,
each of which is stored once, and with a bitmap that has the bits of its references and that the
heap accepts.  Fields are read and written at the offsets that they have in the classes of their
objects, which lie inside of these objects.  The layout of a class is one and the same in the whole
session, whatever is declared before or later. -/
theorem session_objects_fit {earlier later : List Tree.Program} {p : Tree.Program}
    {flow : Flow.Program} {catalog : Catalog}
    (hfields : ∀ q ∈ earlier ++ p :: later, ∀ c ∈ q.classes, (c.fields.map (·.name)).Nodup)
    (hflow : flatten (catalogAfter .empty earlier) p = (.ok flow, catalog)) :
    ∀ m ∈ flow.methods, ∀ b ∈ m.body,
      ObjectsFit (catalogAfter .empty (earlier ++ p :: later)) p flow m b := by
  intro m hm b hb
  have hsession : catalogAfter .empty (earlier ++ p :: later) = catalogAfter catalog later := by
    unfold catalogAfter at hflow ⊢
    rw [List.foldl_append, List.foldl_cons, hflow]
  have hextends : catalog.Extends (catalogAfter .empty (earlier ++ p :: later)) :=
    hsession ▸ extends_catalogAfter catalog later
  have hnone : Layout.Regular [] := rfl
  have hregular : (catalogAfter .empty (earlier ++ p :: later)).AllLayouts
      fun _ layout => layout.Regular :=
    Catalog.allLayouts_empty.catalogAfter (fun _ => hnone)
      fun q hq c hc => Layout.regular_ofFields (hfields q hq c hc)
  obtain ⟨fields, hcomposed, hscope⟩ := flatten_composed hflow hm
  refine ⟨fun _ _ _ => flatten_allocates hflow hm hb,
    fun className t amount bitmap words hmakes => ?_,
    fun s hs start offset haccess => ((hcomposed b hb).access_cases hs haccess).imp_right ?_⟩
  · obtain ⟨slot, layout, -, hlayout, rfl, rfl, rfl⟩ := (hcomposed b hb).construction_eq hmakes
    have hlayout' := hextends.layouts className layout hlayout
    exact ⟨layout, hlayout', fitsLayout_of_regular (hregular className layout hlayout') slot⟩
  · rintro ⟨obj, field, className, entry, hmem, hclass, hoperand, hentry, rfl⟩
    obtain ⟨sc, hsc, hbody, hmem⟩ := hscope _ hmem
    obtain ⟨layout, hlayout, hlookup⟩ := Catalog.fieldOf_eq_ok.1 (hextends.fieldOf hentry)
    have hentry_mem : (field, entry) ∈ layout := by
      obtain ⟨before, behind, rfl, -⟩ := List.lookup_eq_some_iff.1 hlookup
      exact List.mem_append_right _ List.mem_cons_self
    have hoffset_mem := (hregular className layout hlayout).offset_mem hentry_mem
    exact ⟨sc, hsc, hbody, obj, field, className, layout, entry, hmem, hclass, hoperand, hlayout,
      hentry_mem, rfl, hoffset_mem.1, Nat.lt_succ_of_le hoffset_mem.2⟩

def countProgram : Tree.Program := counterProgram [⟨"count", .int, .num 0⟩]

def totalProgram : Tree.Program :=
  counterProgram [⟨"total", .int, .num 0⟩, ⟨"next", .object "Counter", .none⟩,
    ⟨"count", .int, .num 0⟩]

/-- A class that is declared again keeps its layout, and its objects have the words that they had
before. -/
theorem session_objects_fit_counter :
    (∃ b ∈ (blocksOf (catalogAfter .empty [countProgram]) totalProgram).body,
        .assign "newObj6" (.alloc 2 0) ∈ b.stmts) ∧
      ∀ m ∈ (blocksOf (catalogAfter .empty [countProgram]) totalProgram).methods, ∀ b ∈ m.body,
        ObjectsFit (catalogAfter .empty ([countProgram] ++ totalProgram :: [])) totalProgram
          (blocksOf (catalogAfter .empty [countProgram]) totalProgram) m b := by
  have hok : (flatten (catalogAfter .empty [countProgram]) totalProgram).1.toOption.isSome =
      true := by decide +kernel
  have hfields : ∀ q ∈ [countProgram] ++ totalProgram :: [], ∀ c ∈ q.classes,
      (c.fields.map (·.name)).Nodup := by decide +kernel
  have hwords : ∃ b ∈ (blocksOf (catalogAfter .empty [countProgram]) totalProgram).body,
      .assign "newObj6" (.alloc 2 0) ∈ b.stmts := by decide +kernel
  exact ⟨hwords, session_objects_fit hfields (flatten_eq_blocksOf hok)⟩

end Midend.Linear
