import Midend.Proofs.Linear.Bodies
import Midend.Proofs.Linear.Operands
/-!
# Objects in flattened code

Every statement of flattened code that makes room for an object starts a construction: it is
followed by the stores of the dispatch slot and of the initial values that the catalog has for a
class, and by the constructor of this class.  All other statements that reach into an object come
from field accesses of their scope: they work on what stands for the object there (`OperandOf`), at
the offset that its class has for the field (`flatten_composed`).
-/

namespace Midend

theorem methodName_left_injective (method : String) :
    Function.Injective fun className => methodName className method := by
  intro className className' h
  have happend : className ++ ("$" ++ method) = className' ++ ("$" ++ method) := by
    simpa only [methodName, String.append_assoc] using h
  exact (String.append_left_inj _).1 happend

end Midend

namespace Midend.Tree

def Node.access? : Node → Option (Expr × String)
  | .expr (.lookup _ obj field) | .stmt (.fieldAssign _ obj field _) => some (obj, field)
  | _ => none

def accesses (nodes : List Node) : List (Expr × String) := nodes.filterMap Node.access?

theorem accesses_cons (node : Node) (nodes : List Node) :
    accesses (node :: nodes) = node.access?.toList ++ accesses nodes := by
  unfold accesses
  cases h : node.access? with
  | none => rw [List.filterMap_cons_none h, Option.toList_none, List.nil_append]
  | some access =>
      rw [List.filterMap_cons_some h, Option.toList_some, List.singleton_append]

theorem accesses_append (nodes nodes' : List Node) :
    accesses (nodes ++ nodes') = accesses nodes ++ accesses nodes' :=
  List.filterMap_append

end Midend.Tree

namespace Midend.Flow

def Expr.allocates : Expr → Bool
  | .alloc _ _ => true
  | _ => false

def Expr.access? : Expr → Option (Value × Nat)
  | .load start offset => some (start, offset)
  | _ => none

def Stmt.allocates : Stmt → Bool
  | .assign _ e | .expr e => e.allocates
  | _ => false

/-- The object that the statement reads or writes, and the offset. -/
def Stmt.access? : Stmt → Option (Value × Nat)
  | .assign _ e | .expr e => e.access?
  | .store start offset _ => some (start, offset)
  | _ => none

/-- The statements that make an object: memory, the words stored in it, and the constructor. -/
def construction (className t : String) (amount : Nat) (bitmap : UInt32)
    (words : List (Nat × Value)) : List Stmt :=
  .assign t (.alloc amount bitmap) ::
    (words.map (fun (offset, v) => .store (.id t) offset v) ++
      [.expr (.call (methodName className initName) [.id t])])

section Construction

variable {className className' t t' : String} {amount amount' : Nat} {bitmap bitmap' : UInt32}
  {words words' : List (Nat × Value)} {rest rest' : List Stmt} {s : Stmt}

theorem stores_inj
    (h : words.map (fun (offset, v) => Stmt.store (.id t) offset v) ++
        .expr (.call (methodName className initName) [.id t]) :: rest =
      words'.map (fun (offset, v) => Stmt.store (.id t) offset v) ++
        .expr (.call (methodName className' initName) [.id t]) :: rest') :
    className = className' ∧ words = words' := by
  induction words generalizing words' with
  | nil =>
      cases words' with
      | nil =>
          have hname : methodName className initName = methodName className' initName := by
            simp only [List.map_nil, List.nil_append, List.cons.injEq, Stmt.expr.injEq,
              Expr.call.injEq] at h
            exact h.1.1
          exact ⟨methodName_left_injective initName hname, rfl⟩
      | cons word words' => exact absurd (List.cons.inj h).1 nofun
  | cons word words ih =>
      cases words' with
      | nil => exact absurd (List.cons.inj h).1 nofun
      | cons word' words' =>
          obtain ⟨hfirst, hrest⟩ := List.cons.inj h
          obtain ⟨-, hoffset, hvalue⟩ := Stmt.store.inj hfirst
          obtain ⟨hclass, hwords⟩ := ih hrest
          exact ⟨hclass, congrArg₂ _ (Prod.ext hoffset hvalue) hwords⟩

/-- Statements start with one construction at most. -/
theorem construction_inj
    (h : construction className t amount bitmap words ++ rest =
      construction className' t' amount' bitmap' words' ++ rest') :
    className = className' ∧ t = t' ∧ amount = amount' ∧ bitmap = bitmap' ∧ words = words' := by
  obtain ⟨hfirst, hrest⟩ := List.cons.inj h
  obtain ⟨rfl, halloc⟩ := Stmt.assign.inj hfirst
  obtain ⟨rfl, rfl⟩ := Expr.alloc.inj halloc
  simp only [List.append_eq, List.append_assoc, List.singleton_append] at hrest
  obtain ⟨rfl, rfl⟩ := stores_inj hrest
  exact ⟨rfl, rfl, rfl, rfl, rfl⟩

theorem allocates_of_mem_tail (hs : s ∈ (construction className t amount bitmap words).tail) :
    s.allocates = false := by
  rcases List.mem_append.1 hs with hs | hs
  · obtain ⟨word, -, rfl⟩ := List.mem_map.1 hs
    rfl
  · obtain rfl := List.mem_singleton.1 hs
    rfl

end Construction

end Midend.Flow

namespace Midend.Linear

open Midend.Flow (Block Expr Label Stmt Value construction)
open NameSupply (IsGenerated)
open Midend.Tree (accesses accesses_cons accesses_append)
open Build Code

/-! ## Blocks of a piece of code -/

structure Blockwise (P : List Stmt → Prop) (code : Code) : Prop where
  /-- The block that the code starts in may have got statements before. -/
  first : P (cut code).1
  rest : ∀ b ∈ (cut code).2, P b.stmts

namespace Blockwise

variable {P Q : List Stmt → Prop} {code code' : Code} {stmts : List Stmt}

theorem mono (hle : ∀ stmts, P stmts → Q stmts) (h : Blockwise P code) : Blockwise Q code :=
  ⟨hle _ h.first, fun b hb => hle _ (h.rest b hb)⟩

theorem blocks (h : Blockwise P code) (label : Label) : ∀ b ∈ code.blocks label, P b.stmts :=
  List.forall_mem_cons.2 ⟨h.first, h.rest⟩

theorem emits (h : P stmts) : Blockwise P (stmts.map .emit) := by
  have hcut := cut_emits stmts []
  rw [List.append_nil] at hcut
  refine ⟨?_, fun b hb => ?_⟩
  · rw [hcut]
    simpa [cut] using h
  · rw [hcut] at hb
    exact absurd hb List.not_mem_nil

/-- By induction on the first piece: its last block goes on in the second piece. -/
theorem append (hP : ∀ {stmts stmts'}, P stmts → P stmts' → P (stmts ++ stmts'))
    (h : Blockwise P code) (h' : Blockwise P code') : Blockwise P (code ++ code') := by
  have hdone : ∀ done, P (done ++ (cut code).1) → (∀ b ∈ (cut code).2, P b.stmts) →
      P (done ++ (cut (code ++ code')).1) ∧ ∀ b ∈ (cut (code ++ code')).2, P b.stmts := by
    clear h
    induction code with
    | nil => exact fun done hfirst _ => ⟨hP (by simpa [cut] using hfirst) h'.first, h'.rest⟩
    | cons item code ih =>
        intro done hfirst hrest
        cases item with
        | emit s =>
            have hgoes := ih (done ++ [s]) (by simpa [cut] using hfirst) hrest
            simpa [cut] using hgoes
        | mark label =>
            obtain ⟨hblock, hbehind⟩ := List.forall_mem_cons.1 hrest
            obtain ⟨hblock', hbehind'⟩ := ih [] hblock hbehind
            exact ⟨hfirst, List.forall_mem_cons.2 ⟨hblock', hbehind'⟩⟩
        | declare name ty => exact ih done hfirst hrest
  obtain ⟨hfirst, hrest⟩ := hdone [] h.first h.rest
  exact ⟨hfirst, hrest⟩

end Blockwise

theorem temporaries_append (code code' : Code) :
    (code ++ code').temporaries = code.temporaries ++ code'.temporaries := List.filterMap_append

/-! ## Statements that make and use objects -/

/-- The words that an object starts with: its dispatch slot and its initial values. -/
def objectWords (slot : Nat) (layout : Layout) : List (Nat × Value) :=
  (0, .word (UInt32.ofNat slot)) ::
    layout.map fun (_, field) => (field.offset, Value.ofLiteral field.initial)

/-- The code of an object declares a variable for it and is a construction. -/
theorem objectCode_eq_construction (className : String) (ty : Ty) (slot : Nat) (bitmap : UInt32)
    (layout : Layout) (t : String) : objectCode className ty slot bitmap layout t =
      .declare t ty :: (construction className t (layout.length + 1) bitmap
        (objectWords slot layout)).map .emit := by
  simp [objectCode, construction, objectWords, Function.comp_def]

/-- The value stands for an expression: it is a literal, the variable that the expression names, or
a temporary that is declared with its type. -/
inductive OperandOf (decls : List Flow.Decl) : Tree.Expr → Value → Prop
  | literal (n : Tree.Note) (value : Literal) :
      OperandOf decls (.literal n value) (.ofLiteral value)
  | named {e : Tree.Expr} {name : String} (h : e.named? = some name) : OperandOf decls e (.id name)
  | temporary {e : Tree.Expr} {name : String} (hname : IsGenerated name)
      (h : ⟨name, e.ty, .none⟩ ∈ decls) : OperandOf decls e (.id name)

/-- What is left of an object is declared where it is a temporary, and has its type. -/
theorem Flattens.operandOf {e : Tree.Expr} {s s' : State} {c : Code} {k : List Flow.Class}
    {v : Value} {className : String} (h : Flattens (.value e) s c k (.values [v]) s')
    (hclass : e.ty = .object className) : OperandOf c.temporaries e v := by
  cases h with
  | temporary _ _ hname =>
      rw [temporaries_append]
      exact .temporary (generated_of_builds hname (by decide))
        (List.mem_append_right _ List.mem_cons_self)
  | settled he =>
      cases he with
      | literal n value _ => exact .literal n value
      | id n name _ => exact .named rfl
      | construct n hmake =>
          cases hmake with
          | object _ _ _ hname =>
              exact .temporary (generated_of_builds hname (by decide)) List.mem_cons_self
      | listComp n elem _ _ _ _ _ _ _ _ => exact .named rfl
      | ifExpr n _ _ _ hname _ _ _ =>
          exact .temporary (generated_of_builds hname (by decide)) List.mem_cons_self
      | @lambda n params _ _ _ _ _ _ _ _ _ _ _ _ hsignature _ _ _ _ =>
          have hty : n.ty = .object className := hclass
          rw [hty] at hsignature
          exact nomatch (Prod.mk.inj hsignature).1

/-- One of the fields is at this offset of the object that the value stands for. -/
def AtField (catalog : Catalog) (fields : List (Tree.Expr × String)) (decls : List Flow.Decl)
    (start : Value) (offset : Nat) : Prop :=
  ∃ obj field className entry, (obj, field) ∈ fields ∧ obj.ty = .object className ∧
    OperandOf decls obj start ∧ catalog.fieldOf className field = .ok entry ∧ entry.offset = offset

/-- The statement makes no room, and reaches into an object only for a field. -/
structure Plain (catalog : Catalog) (fields : List (Tree.Expr × String)) (decls : List Flow.Decl)
    (s : Stmt) : Prop where
  allocates : s.allocates = false
  access : ∀ start offset, s.access? = some (start, offset) →
    AtField catalog fields decls start offset

/-- The statements make objects as the catalog has them, and use them for their fields. -/
inductive Composed (catalog : Catalog) (fields : List (Tree.Expr × String))
    (decls : List Flow.Decl) : List Stmt → Prop
  | nil : Composed catalog fields decls []
  | plain {s : Stmt} {rest : List Stmt} (hs : Plain catalog fields decls s)
      (hrest : Composed catalog fields decls rest) : Composed catalog fields decls (s :: rest)
  | object {className : String} (t : String) {slot : Nat} {layout : Layout} {rest : List Stmt}
      (hslot : catalog.startOf className = .ok slot)
      (hlayout : catalog.layoutOf className = .ok layout)
      (hrest : Composed catalog fields decls rest) :
      Composed catalog fields decls
        (construction className t (layout.length + 1) layout.bitmap (objectWords slot layout) ++
          rest)

section Composed

variable {catalog : Catalog} {fields : List (Tree.Expr × String)} {decls decls' : List Flow.Decl}
  {stmts stmts' : List Stmt} {s : Stmt}

theorem OperandOf.mono {e : Tree.Expr} {v : Value} (h : OperandOf decls e v)
    (hdecls : decls ⊆ decls') : OperandOf decls' e v := by
  cases h with
  | literal n value => exact .literal n value
  | named h => exact .named h
  | temporary hname h => exact .temporary hname (hdecls h)

theorem AtField.mono {start : Value} {offset : Nat} (h : AtField catalog fields decls start offset)
    (hdecls : decls ⊆ decls') : AtField catalog fields decls' start offset := by
  obtain ⟨obj, field, className, entry, hmem, hclass, hoperand, hentry⟩ := h
  exact ⟨obj, field, className, entry, hmem, hclass, hoperand.mono hdecls, hentry⟩

theorem Plain.mono (h : Plain catalog fields decls s) (hdecls : decls ⊆ decls') :
    Plain catalog fields decls' s :=
  ⟨h.allocates, fun start offset haccess => (h.access start offset haccess).mono hdecls⟩

namespace Composed

theorem mono (h : Composed catalog fields decls stmts) (hdecls : decls ⊆ decls') :
    Composed catalog fields decls' stmts := by
  induction h with
  | nil => exact .nil
  | plain hs _ ih => exact .plain (hs.mono hdecls) ih
  | object t hslot hlayout _ ih => exact .object t hslot hlayout ih

theorem append (h : Composed catalog fields decls stmts)
    (h' : Composed catalog fields decls stmts') :
    Composed catalog fields decls (stmts ++ stmts') := by
  induction h with
  | nil => exact h'
  | plain hs _ ih => exact .plain hs ih
  | object t hslot hlayout _ ih =>
      rw [List.append_assoc]
      exact .object t hslot hlayout ih

theorem starts {before behind : List Stmt} (h : Composed catalog fields decls stmts)
    (hstmts : stmts = before ++ s :: behind) (hs : s.allocates = true) :
    ∃ className t slot layout, catalog.startOf className = .ok slot ∧
      catalog.layoutOf className = .ok layout ∧
      construction className t (layout.length + 1) layout.bitmap (objectWords slot layout) <+:
        s :: behind := by
  induction h generalizing before with
  | nil => exact absurd hstmts (by simp)
  | @plain first rest hfirst _ ih =>
      cases before with
      | nil =>
          obtain ⟨rfl, -⟩ := List.cons.inj hstmts
          exact absurd (hfirst.allocates.symm.trans hs) Bool.false_ne_true
      | cons _ before => exact ih (List.cons.inj hstmts).2
  | @object className t slot layout rest hslot hlayout _ ih =>
      cases before with
      | nil => exact ⟨className, t, slot, layout, hslot, hlayout, rest, hstmts⟩
      | cons first before =>
          obtain ⟨-, hrest⟩ := List.cons.inj hstmts
          rcases List.append_eq_append_iff.1 hrest with ⟨mid, -, hrest⟩ | ⟨mid, htail, hmid⟩
          · exact ih hrest
          · -- only the first statement of a construction makes room
            cases mid with
            | nil =>
                have hstart : rest = [] ++ s :: behind := hmid.symm
                exact ih hstart
            | cons _ mid =>
                obtain ⟨rfl, -⟩ := List.cons.inj hmid
                have hmem : s ∈ (construction className t (layout.length + 1) layout.bitmap
                    (objectWords slot layout)).tail := by
                  change s ∈ _ ++ _
                  rw [htail]
                  exact List.mem_append_right _ List.mem_cons_self
                exact absurd ((Flow.allocates_of_mem_tail hmem).symm.trans hs) Bool.false_ne_true

/-- Every construction is one of a class of the catalog, with its slot and its layout. -/
theorem construction_eq {className t : String} {amount : Nat} {bitmap : UInt32}
    {words : List (Nat × Value)} (h : Composed catalog fields decls stmts)
    (hmakes : construction className t amount bitmap words <:+: stmts) :
    ∃ slot layout, catalog.startOf className = .ok slot ∧
      catalog.layoutOf className = .ok layout ∧ amount = layout.length + 1 ∧
      bitmap = layout.bitmap ∧ words = objectWords slot layout := by
  obtain ⟨before, behind, hstmts⟩ := hmakes
  rw [List.append_assoc] at hstmts
  have hfirst : stmts = before ++ .assign t (.alloc amount bitmap) ::
      ((construction className t amount bitmap words).tail ++ behind) := hstmts.symm
  obtain ⟨className', t', slot, layout, hslot, hlayout, rest, hrest⟩ := h.starts hfirst rfl
  have hsame : construction className' t' (layout.length + 1) layout.bitmap
      (objectWords slot layout) ++ rest =
        construction className t amount bitmap words ++ behind := hrest
  obtain ⟨rfl, -, rfl, rfl, rfl⟩ := Flow.construction_inj hsame
  exact ⟨slot, layout, hslot, hlayout, rfl, rfl, rfl⟩

/-- A statement reaches into an object in a construction, or for a field. -/
theorem access_cases {start : Value} {offset : Nat} (h : Composed catalog fields decls stmts)
    (hs : s ∈ stmts) (haccess : s.access? = some (start, offset)) :
    (∃ className t amount bitmap words, construction className t amount bitmap words <:+: stmts ∧
      s ∈ construction className t amount bitmap words) ∨
      AtField catalog fields decls start offset := by
  induction h with
  | nil => exact absurd hs List.not_mem_nil
  | @plain first rest hfirst _ ih =>
      rcases List.mem_cons.1 hs with rfl | hs
      · exact .inr (hfirst.access start offset haccess)
      · refine (ih hs).imp_left fun ⟨className, t, amount, bitmap, words, hinfix, hmem⟩ => ?_
        exact ⟨className, t, amount, bitmap, words,
          hinfix.trans (List.suffix_cons first rest).isInfix, hmem⟩
  | @object className t slot layout rest _ _ _ ih =>
      rcases List.mem_append.1 hs with hs | hs
      · exact .inl ⟨_, _, _, _, _, (List.prefix_append _ _).isInfix, hs⟩
      · refine (ih hs).imp_left fun ⟨className, t, amount, bitmap, words, hinfix, hmem⟩ => ?_
        exact ⟨className, t, amount, bitmap, words,
          hinfix.trans (List.suffix_append _ rest).isInfix, hmem⟩

end Composed

theorem plain_of_none (hallocates : s.allocates = false) (haccess : s.access? = none) :
    Plain catalog fields decls s :=
  ⟨hallocates, fun _ _ h => absurd (haccess.symm.trans h) nofun⟩

theorem Plain.assign {name : String} {e : Expr} (h : Plain catalog fields decls (.expr e)) :
    Plain catalog fields decls (.assign name e) := ⟨h.allocates, h.access⟩

end Composed

/-! ## All flattened code -/

/-- The code makes and uses objects as the catalog has them.  The temporaries that it works on are
its own. -/
def Orders (catalog : Catalog) (fields : List (Tree.Expr × String)) (code : Code) : Prop :=
  Blockwise (Composed catalog fields code.temporaries) code

section Orders

variable {catalog : Catalog} {fields : List (Tree.Expr × String)} {decls : List Flow.Decl}
  {code code' test yes no check body : Code} {s : Stmt} {v : Value}
  {onTrue onFalse after again : Label}

namespace Orders

theorem declaring (h : Orders catalog fields code) (hdecls : code.temporaries ⊆ decls) :
    Blockwise (Composed catalog fields decls) code := h.mono fun _ hstmts => hstmts.mono hdecls

theorem nil : Orders catalog fields [] := ⟨.nil, fun _ h => absurd h List.not_mem_nil⟩

theorem append (h : Orders catalog fields code) (h' : Orders catalog fields code') :
    Orders catalog fields (code ++ code') := by
  unfold Orders
  rw [temporaries_append]
  exact (h.declaring (List.subset_append_left _ _)).append Composed.append
    (h'.declaring (List.subset_append_right _ _))

theorem skip (hallocates : s.allocates = false) (haccess : s.access? = none)
    (h : Orders catalog fields code) : Orders catalog fields (.emit s :: code) := by
  have hone : Composed catalog fields code.temporaries [s] :=
    .plain (plain_of_none hallocates haccess) .nil
  exact (Blockwise.emits hone).append Composed.append h

theorem performs (h : Orders catalog fields code)
    (hs : Plain catalog fields code.temporaries s) : Orders catalog fields (code ++ [.emit s]) := by
  have hsame : (code ++ [Item.emit s]).temporaries = code.temporaries := by
    rw [temporaries_append]
    exact List.append_nil _
  have hone : Composed catalog fields code.temporaries [s] := .plain hs .nil
  unfold Orders
  rw [hsame]
  exact Blockwise.append Composed.append h (Blockwise.emits hone)

theorem mark {label : Label} (h : Orders catalog fields code) :
    Orders catalog fields (.mark label :: code) := ⟨.nil, h.blocks label⟩

theorem declare {name : String} {ty : Ty} (h : Orders catalog fields code) :
    Orders catalog fields (.declare name ty :: code) := by
  have hdeclared :
      Blockwise (Composed catalog fields (⟨name, ty, .none⟩ :: code.temporaries)) code :=
    h.declaring (List.subset_cons_self _ _)
  exact ⟨hdeclared.first, hdeclared.rest⟩

theorem keeps {name : String} {ty : Ty} {r : Expr} (h : Orders catalog fields code)
    (hr : Plain catalog fields code.temporaries (.expr r)) :
    Orders catalog fields (code ++ temporary name ty r) := by
  have hdeclared : Orders catalog fields (code ++ [.declare name ty]) := h.append (declare nil)
  have hkept : Plain catalog fields (code ++ [Item.declare name ty]).temporaries
      (.assign name r) := by
    rw [temporaries_append]
    exact hr.assign.mono (List.subset_append_left _ _)
  have horders := hdeclared.performs hkept
  rwa [List.append_assoc] at horders

theorem choice (htest : Orders catalog fields test) (hyes : Orders catalog fields yes)
    (hno : Orders catalog fields no) :
    Orders catalog fields (choice test v onTrue onFalse after yes no) :=
  htest.append (skip rfl rfl (mark (hyes.append (skip rfl rfl (mark (hno.append
    (skip rfl rfl (mark nil))))))))

theorem round (hcheck : Orders catalog fields check) (hbody : Orders catalog fields body) :
    Orders catalog fields (round again onTrue after check v body) :=
  skip rfl rfl (mark (hcheck.append (skip rfl rfl (mark (hbody.append
    (skip rfl rfl (mark nil)))))))

theorem object {className t : String} {ty : Ty} {slot : Nat} {bitmap : UInt32} {layout : Layout}
    (hslot : catalog.startOf className = .ok slot)
    (hbitmap : catalog.bitmapOf className = .ok bitmap)
    (hlayout : catalog.layoutOf className = .ok layout) :
    Orders catalog fields (objectCode className ty slot bitmap layout t) := by
  obtain ⟨layout', hlayout', rfl⟩ := Catalog.bitmapOf_eq_ok.1 hbitmap
  obtain rfl := Except.ok.inj (hlayout.symm.trans hlayout')
  have hmade : ∀ decls, Composed catalog fields decls (construction className t
      (layout.length + 1) layout.bitmap (objectWords slot layout) ++ []) :=
    fun _ => .object t hslot hlayout .nil
  simp only [List.append_nil] at hmade
  have horders : Orders catalog fields _ := Blockwise.emits (hmade _)
  rw [objectCode_eq_construction]
  exact horders.declare

end Orders

/-- A loop over an iterable asks it for the next element with code that does nothing with
objects. -/
theorem Orders.iterate {more elem className : String} (loc : Location)
    (hbody : Orders catalog fields body) :
    Orders catalog fields (Linear.round again onTrue after
      (Code.guardObject v loc :: temporary more .bool (callOn v className "hasNext"))
      (.id more)
      (Code.guardObject v loc :: .emit (.assign elem (callOn v className "next")) :: body)) := by
  have hcheck : Orders catalog fields
      (Code.guardObject v loc :: temporary more .bool (callOn v className "hasNext")) :=
    .skip rfl rfl (.declare (.skip rfl rfl .nil))
  have hturn : Orders catalog fields
      (Code.guardObject v loc :: .emit (.assign elem (callOn v className "next")) :: body) :=
    .skip rfl rfl (.skip rfl rfl hbody)
  exact .round hcheck hturn

end Orders

def Result.Plain (catalog : Catalog) (fields : List (Tree.Expr × String))
    (decls : List Flow.Decl) : Result → Prop
  | .operation r => Linear.Plain catalog fields decls (.expr r)
  | _ => True

/-- By induction on how the part is flattened: classes are looked up on the way, and the catalog
keeps what it has. -/
theorem Flattens.orders {part : Part} {s s' : State} {code : Code} {classes : List Flow.Class}
    {result : Result} (h : Flattens part s code classes result s') {catalog : Catalog}
    {fields : List (Tree.Expr × String)} (hcatalog : s'.catalog.Extends catalog)
    (hfields : accesses part.nodes ⊆ fields) :
    Orders catalog fields code ∧ result.Plain catalog fields code.temporaries := by
  induction h with
  | literal n value s | id n name s => exact ⟨.nil, plain_of_none rfl rfl⟩
  | binary n op _ hright ihleft ihright =>
      simp only [Part.nodes, Tree.Expr.nodes, accesses_cons, accesses_append,
        List.append_subset] at hfields
      obtain ⟨hl, -⟩ := ihleft (hright.grows.catalog.trans hcatalog) hfields.2.1
      obtain ⟨hr, -⟩ := ihright hcatalog hfields.2.2
      refine ⟨(hl.append hr).append ?_, plain_of_none rfl rfl⟩
      split
      · exact .skip rfl rfl .nil
      · exact .nil
  | unary n op _ ih | builtin1 n name _ ih =>
      simp only [Part.nodes, Tree.Expr.nodes, accesses_cons, List.append_subset] at hfields
      exact ⟨(ih hcatalog hfields.2).1, plain_of_none rfl rfl⟩
  | builtin2 n name _ hright ihleft ihright =>
      simp only [Part.nodes, Tree.Expr.nodes, accesses_cons, accesses_append,
        List.append_subset] at hfields
      obtain ⟨hl, -⟩ := ihleft (hright.grows.catalog.trans hcatalog) hfields.2.1
      obtain ⟨hr, -⟩ := ihright hcatalog hfields.2.2
      exact ⟨hl.append hr, plain_of_none rfl rfl⟩
  | call n _ hargs ihcallee ihargs =>
      simp only [Part.nodes, Tree.Expr.nodes, accesses_cons, accesses_append,
        List.append_subset] at hfields
      obtain ⟨hf, -⟩ := ihcallee (hargs.grows.catalog.trans hcatalog) hfields.2.1
      obtain ⟨hvs, -⟩ := ihargs hcatalog hfields.2.2
      exact ⟨hf.append (.skip rfl rfl hvs), plain_of_none rfl rfl⟩
  | @lookup n obj field className entry s s' c k v hclass hentry hobj ih =>
      simp only [Part.nodes, Tree.Expr.nodes, accesses_cons, List.append_subset] at hfields
      obtain ⟨hc, -⟩ := ih hcatalog hfields.2
      have hmem : (obj, field) ∈ fields := hfields.1 (List.mem_singleton_self _)
      have hentry' := (hobj.grows.catalog.trans hcatalog).fieldOf hentry
      refine ⟨hc.append (.skip rfl rfl .nil), rfl, fun start offset haccess => ?_⟩
      obtain ⟨rfl, rfl⟩ := Prod.mk.inj (Option.some.inj haccess)
      rw [temporaries_append]
      exact ⟨obj, field, className, entry, hmem, hclass,
        (hobj.operandOf hclass).mono (List.subset_append_left _ _), hentry', rfl⟩
  | methodCall n _ _ hargs ihobj ihargs =>
      simp only [Part.nodes, Tree.Expr.nodes, accesses_cons, accesses_append,
        List.append_subset] at hfields
      obtain ⟨hobj, -⟩ := ihobj (hargs.grows.catalog.trans hcatalog) hfields.2.1
      obtain ⟨hvs, -⟩ := ihargs hcatalog hfields.2.2
      exact ⟨hobj.append (.skip rfl rfl hvs), plain_of_none rfl rfl⟩
  | construct n _ ih => exact ⟨(ih hcatalog (List.nil_subset _)).1, plain_of_none rfl rfl⟩
  | listComp n elem _ _ _ _ _ hmore hfilter hitem ihiterable ihfilter ihitem =>
      simp only [Part.nodes, Tree.Expr.nodes, accesses_cons, accesses_append,
        List.append_subset] at hfields
      obtain ⟨-, hfields₁, hfields₂, hfields₃⟩ := hfields
      have hcatalog₂ := hitem.grows.catalog.trans hcatalog
      have hcatalog₁ := (grows_fresh hmore).catalog.trans (hfilter.grows.catalog.trans hcatalog₂)
      obtain ⟨hsource, -⟩ := ihiterable hcatalog₁ hfields₁
      obtain ⟨htest, -⟩ := ihfilter hcatalog₂ hfields₂
      obtain ⟨hprint, -⟩ := ihitem hcatalog hfields₃
      exact ⟨hsource.append (.iterate n.loc (htest.append (hprint.append
        (.skip rfl rfl .nil)))), plain_of_none rfl rfl⟩
  | ifExpr n _ _ _ _ _ htrue hfalse ihcond ihtrue ihfalse =>
      simp only [Part.nodes, Tree.Expr.nodes, accesses_cons, accesses_append,
        List.append_subset] at hfields
      obtain ⟨-, hfields₁, hfields₂, hfields₃⟩ := hfields
      have hcatalog₂ := hfalse.grows.catalog.trans hcatalog
      obtain ⟨htest, -⟩ := ihcond (htrue.grows.catalog.trans hcatalog₂) hfields₁
      obtain ⟨hyes, ht⟩ := ihtrue hcatalog₂ hfields₂
      obtain ⟨hno, hf⟩ := ihfalse hcatalog hfields₃
      exact ⟨.declare (.choice htest (hyes.performs ht.assign) (hno.performs hf.assign)),
        plain_of_none rfl rfl⟩
  | lambda n _ _ _ _ _ _ ihmake =>
      exact ⟨(ihmake hcatalog (List.nil_subset _)).1, plain_of_none rfl rfl⟩
  | settled _ ih => exact ⟨(ih hcatalog hfields).1, trivial⟩
  | temporary _ _ hname ih =>
      obtain ⟨hc, hr⟩ := ih ((grows_fresh hname).catalog.trans hcatalog) hfields
      exact ⟨hc.keeps hr, trivial⟩
  | noValues s => exact ⟨.nil, trivial⟩
  | moreValues _ hes ihe ihes =>
      simp only [Part.nodes, Tree.Expr.nodesOf, accesses_append, List.append_subset] at hfields
      obtain ⟨hc, -⟩ := ihe (hes.grows.catalog.trans hcatalog) hfields.1
      exact ⟨hc.append (ihes hcatalog hfields.2).1, trivial⟩
  | object hslot hbitmap hlayout hname =>
      have hextends := (grows_fresh hname).catalog.trans hcatalog
      exact ⟨.object (hextends.starts _ _ hslot) (hextends.bitmapOf hbitmap)
        (hextends.layouts _ _ hlayout), trivial⟩
  | noFilter test s => exact ⟨.nil, trivial⟩
  | filter _ _ ih => exact ⟨(ih hcatalog hfields).1.append (.skip rfl rfl (.mark .nil)), trivial⟩
  | assign loop loc name _ ih =>
      simp only [Part.nodes, Tree.Stmt.nodes, accesses_cons, List.append_subset] at hfields
      obtain ⟨hc, hr⟩ := ih hcatalog hfields.2
      exact ⟨hc.performs hr.assign, trivial⟩
  | ret loop loc _ hnext ih =>
      simp only [Part.nodes, Tree.Stmt.nodes, accesses_cons, List.append_subset] at hfields
      obtain ⟨hc, -⟩ := ih ((grows_fresh hnext).catalog.trans hcatalog) hfields.2
      exact ⟨hc.append (.skip rfl rfl (.mark .nil)), trivial⟩
  | exprStmt loop loc _ ih =>
      simp only [Part.nodes, Tree.Stmt.nodes, accesses_cons, List.append_subset] at hfields
      obtain ⟨hc, hr⟩ := ih hcatalog hfields.2
      exact ⟨hc.performs hr, trivial⟩
  | pass loop loc s | strayContinue loc s | strayBreak loc s => exact ⟨.nil, trivial⟩
  | continueLoop labels loc _ | breakLoop labels loc _ =>
      exact ⟨.skip rfl rfl (.mark .nil), trivial⟩
  | @fieldAssign loop loc obj content field className entry s s₁ s' c₁ c₂ k₁ k₂ o v hclass hentry
      hobj hcontent ihobj ihcontent =>
      simp only [Part.nodes, Tree.Stmt.nodes, accesses_cons, accesses_append,
        List.append_subset] at hfields
      have hcatalog₁ := hcontent.grows.catalog.trans hcatalog
      obtain ⟨hc₁, -⟩ := ihobj hcatalog₁ hfields.2.1
      obtain ⟨hc₂, -⟩ := ihcontent hcatalog hfields.2.2
      have hmem : (obj, field) ∈ fields := hfields.1 (List.mem_singleton_self _)
      have hentry' := (hobj.grows.catalog.trans hcatalog₁).fieldOf hentry
      have hchecked : Orders catalog fields (c₁ ++ c₂ ++ [Code.guardObject o loc]) :=
        (hc₁.append hc₂).append (.skip rfl rfl .nil)
      have hstore : Plain catalog fields (c₁ ++ c₂ ++ [Code.guardObject o loc]).temporaries
          (.store o entry.offset v) := by
        refine ⟨rfl, fun start offset haccess => ?_⟩
        obtain ⟨rfl, rfl⟩ := Prod.mk.inj (Option.some.inj haccess)
        rw [temporaries_append, temporaries_append, List.append_assoc]
        exact ⟨obj, field, className, entry, hmem, hclass,
          (hobj.operandOf hclass).mono (List.subset_append_left _ _), hentry', rfl⟩
      have horders := hchecked.performs hstore
      rw [List.append_assoc] at horders
      exact ⟨horders, trivial⟩
  | ifElse loop loc _ _ _ _ htrue hfalse ihcond ihtrue ihfalse =>
      simp only [Part.nodes, Tree.Stmt.nodes, accesses_cons, accesses_append,
        List.append_subset] at hfields
      obtain ⟨-, hfields₁, hfields₂, hfields₃⟩ := hfields
      have hcatalog₂ := hfalse.grows.catalog.trans hcatalog
      obtain ⟨htest, -⟩ := ihcond (htrue.grows.catalog.trans hcatalog₂) hfields₁
      obtain ⟨hyes, -⟩ := ihtrue hcatalog₂ hfields₂
      obtain ⟨hno, -⟩ := ihfalse hcatalog hfields₃
      exact ⟨.choice htest hyes hno, trivial⟩
  | whileLoop loop loc _ _ _ _ hsources ihcond ihsources =>
      simp only [Part.nodes, Tree.Stmt.nodes, accesses_cons, accesses_append,
        List.append_subset] at hfields
      obtain ⟨htest, -⟩ := ihcond (hsources.grows.catalog.trans hcatalog) hfields.2.1
      exact ⟨.round htest (ihsources hcatalog hfields.2.2).1, trivial⟩
  | forLoop loop loc elem _ _ _ _ _ hmore hsources ihiterable ihsources =>
      simp only [Part.nodes, Tree.Stmt.nodes, accesses_cons, accesses_append,
        List.append_subset] at hfields
      have hcatalog₁ := (grows_fresh hmore).catalog.trans (hsources.grows.catalog.trans hcatalog)
      obtain ⟨hsource, -⟩ := ihiterable hcatalog₁ hfields.2.1
      obtain ⟨hbody, -⟩ := ihsources hcatalog hfields.2.2
      exact ⟨hsource.append (.skip rfl rfl (.skip rfl rfl (.iterate _ hbody))), trivial⟩
  | noStmts loop s => exact ⟨.nil, trivial⟩
  | moreStmts _ hsources ihsource ihsources =>
      simp only [Part.nodes, Tree.Stmt.nodesOf, accesses_append, List.append_subset] at hfields
      obtain ⟨hc, -⟩ := ihsource (hsources.grows.catalog.trans hcatalog) hfields.1
      exact ⟨hc.append (ihsources hcatalog hfields.2).1, trivial⟩
  | noClosures s => exact ⟨.nil, trivial⟩
  | moreClosures closure _ _ _ _ _ _ => exact ⟨.nil, trivial⟩
  | noFunctions enclosing s => exact ⟨.nil, trivial⟩
  | moreFunctions _ _ _ _ hfs _ ihconstruction ihfs =>
      simp only [Part.nodes, List.map_cons, Tree.Stmt.nodesOf, accesses_append,
        List.append_subset] at hfields
      obtain ⟨hc, -⟩ := ihconstruction (hfs.grows.catalog.trans hcatalog) hfields.1
      exact ⟨hc.append (ihfs hcatalog hfields.2).1, trivial⟩

theorem BodyCode.orders {sc : Scope} {s s' : State} {code : Code} {k : List Flow.Class}
    (h : BodyCode sc s code k s') {catalog : Catalog} (hcatalog : s'.catalog.Extends catalog) :
    Orders catalog (accesses sc.nodes) code := by
  cases h with
  | plain h => exact (h.orders hcatalog (List.Subset.refl _)).1
  | @prologue enclosing fs _ _ _ _ _ _ _ hstart hprologue hbody =>
      have hnodes : accesses sc.nodes = accesses (Part.prologue enclosing fs).nodes ++
          accesses (Part.stmts none sc.body).nodes := by
        rw [Scope.nodes_of_start hstart, accesses_append]
      rw [hnodes]
      have hextends := hbody.grows.catalog.trans hcatalog
      exact (hprologue.orders hextends (List.subset_append_left _ _)).1.append
        (hbody.orders hcatalog (List.subset_append_right _ _)).1

/-- The blocks of a program make and use objects as the catalog behind it has them.  They use the
fields that their scopes use. -/
theorem flatten_composed {catalog catalog' : Catalog} {p : Tree.Program} {flow : Flow.Program}
    (hflow : flatten catalog p = (.ok flow, catalog')) {m : Flow.Method} (hm : m ∈ flow.methods) :
    ∃ fields, (∀ b ∈ m.body, Composed catalog' fields m.decls b.stmts) ∧
      ∀ access ∈ fields, ∃ sc, ScopeOf p sc ∧ IsBody flow sc m ∧ access ∈ accesses sc.nodes := by
  obtain ⟨label, s₁, s₂, s₃, -, -, hlowers, rfl⟩ := flatten_lowers hflow
  rcases hlowers.scopes m hm with ⟨-, next, hbody⟩ | ⟨sc, hsc, hholds, himplements⟩
  · refine ⟨[], fun b hb => ?_, fun _ h => absurd h List.not_mem_nil⟩
    rw [hbody] at hb
    obtain rfl := List.mem_singleton.1 hb
    exact .nil
  · refine ⟨accesses sc.nodes, ?_, fun _ h => ⟨sc, hsc, ⟨hholds, s₂, s₃, himplements⟩, h⟩⟩
    obtain ⟨hcode, -, -, hbehind, hbody, hdecls, -⟩ := himplements
    rw [hbody, hdecls]
    exact ((hcode.orders (hbehind.catalog.trans (Catalog.extends_addGlobals _ _))).declaring
      (List.subset_append_left _ _)).blocks _

theorem flatten_allocates {catalog catalog' : Catalog} {p : Tree.Program} {flow : Flow.Program}
    (hflow : flatten catalog p = (.ok flow, catalog')) {m : Flow.Method} (hm : m ∈ flow.methods)
    {b : Block} (hb : b ∈ m.body) {before behind : List Stmt} {s : Stmt}
    (hstmts : b.stmts = before ++ s :: behind) (hs : s.allocates = true) :
    ∃ className t amount bitmap words,
      construction className t amount bitmap words <+: s :: behind := by
  obtain ⟨fields, hcomposed, -⟩ := flatten_composed hflow hm
  obtain ⟨className, t, slot, layout, -, -, hprefix⟩ := (hcomposed b hb).starts hstmts hs
  exact ⟨className, t, _, _, _, hprefix⟩

end Midend.Linear
