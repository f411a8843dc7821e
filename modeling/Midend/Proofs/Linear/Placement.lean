import Midend.Linear.Code
import Midend.Proofs.Meaning.Machine
import Mathlib.Data.List.Nodup
/-!
# Running linear code

The place of a run in the blocks of a body is told by the code that the run has before it,
a suffix of the whole code (`Before`).  A statement leaves the code behind it before the run,
a jump the code behind the mark of its label.
-/

namespace Midend.Linear

open Midend.Flow (Block Label Stmt Place Config Machine Outcome)

namespace Code

def mark? : Item → Option Label
  | .mark label => some label
  | _ => none

def marks (code : Code) : List Label := code.filterMap mark?

def targets : Code → List Label
  | [] => []
  | .emit s :: rest => s.targets ++ targets rest
  | _ :: rest => targets rest

/-- The block and the index of the next statement, behind one more item. -/
def advance : Label × Nat → Item → Label × Nat
  | (label, index), .emit _ => (label, index + 1)
  | _, .mark label => (label, 0)
  | place, .declare _ _ => place

/-- The block and the index of the next statement behind some code. -/
def spot (label : Label) (code : Code) : Label × Nat := code.foldl advance (label, 0)

variable {code pre rest : Code} {label : Label} {s : Stmt}

@[simp] theorem marks_nil : marks [] = [] := rfl

@[simp] theorem marks_emit (s : Stmt) (rest : Code) : marks (.emit s :: rest) = marks rest := rfl

@[simp] theorem marks_mark (label : Label) (rest : Code) :
    marks (.mark label :: rest) = label :: marks rest := rfl

@[simp] theorem marks_declare (name : String) (ty : Ty) (rest : Code) :
    marks (.declare name ty :: rest) = marks rest := rfl

@[simp] theorem targets_nil : targets [] = [] := rfl

@[simp] theorem targets_emit (s : Stmt) (rest : Code) :
    targets (.emit s :: rest) = s.targets ++ targets rest := rfl

@[simp] theorem targets_mark (label : Label) (rest : Code) :
    targets (.mark label :: rest) = targets rest := rfl

@[simp] theorem targets_declare (name : String) (ty : Ty) (rest : Code) :
    targets (.declare name ty :: rest) = targets rest := rfl

@[simp] theorem marks_append (code code' : Code) :
    (code ++ code').marks = code.marks ++ code'.marks :=
  List.filterMap_append

@[simp] theorem targets_append (code code' : Code) :
    targets (code ++ code') = targets code ++ targets code' := by
  induction code with
  | nil => rfl
  | cons item rest ih =>
      cases item <;> simp only [List.cons_append, targets, ih, List.append_assoc]

theorem labels_cut (code : Code) : (cut code).2.map (·.label) = code.marks := by
  induction code with
  | nil => rfl
  | cons item rest ih =>
      cases item with
      | emit s => exact ih
      | mark label => exact congrArg (label :: ·) ih
      | declare name ty => exact ih

theorem labels_blocks (label : Label) (code : Code) :
    (code.blocks label).map (·.label) = label :: code.marks :=
  congrArg (label :: ·) (labels_cut code)

theorem cut_emits (stmts : List Stmt) (rest : Code) :
    cut (stmts.map .emit ++ rest) = (stmts ++ (cut rest).1, (cut rest).2) := by
  induction stmts with
  | nil => rfl
  | cons s stmts ih =>
      change (s :: (cut (stmts.map .emit ++ rest)).1, (cut (stmts.map .emit ++ rest)).2) = _
      rw [ih]
      rfl

theorem foldl_advance_mem (code : Code) (place : Label × Nat) :
    (code.foldl advance place).1 ∈ place.1 :: code.marks := by
  induction code generalizing place with
  | nil => exact List.mem_cons_self
  | cons item rest ih =>
      cases item with
      | emit s => exact ih _
      | mark label => exact List.mem_cons_of_mem _ (ih (label, 0))
      | declare name ty => exact ih place

/-- Where a block is cut behind some of its statements, the code from there on goes on with
the rest of the block. -/
theorem find_block (done : List Stmt) (hnodup : (label :: marks (pre ++ rest)).Nodup) :
    ∃ b, ((⟨label, done ++ (cut (pre ++ rest)).1⟩ :: (cut (pre ++ rest)).2).find?
        fun b => b.label = (pre.foldl advance (label, done.length)).1) = some b ∧
      b.stmts.drop (pre.foldl advance (label, done.length)).2 = (cut rest).1 := by
  induction pre generalizing label done with
  | nil => exact ⟨_, List.find?_cons_of_pos (by simp), List.drop_left⟩
  | cons item pre ih =>
      cases item with
      | emit s =>
          have hrest := ih (done ++ [s]) hnodup
          rw [List.length_append, List.append_assoc] at hrest
          exact hrest
      | mark next =>
          obtain ⟨b, hfind, hdrop⟩ := ih [] (List.nodup_cons.1 hnodup).2
          refine ⟨b, Eq.trans (List.find?_cons_of_neg ?_) hfind, hdrop⟩
          -- the label of the block that is left does not come up again
          have hmem : (pre.foldl advance (next, 0)).1 ∈ next :: marks (pre ++ rest) := by
            rw [marks_append, ← List.cons_append]
            exact List.mem_append_left _ (foldl_advance_mem pre (next, 0))
          have hne : label ≠ (pre.foldl advance (next, 0)).1 := fun heq =>
            (List.nodup_cons.1 hnodup).1 (heq ▸ hmem)
          exact fun heq => hne (of_decide_eq_true heq)
      | declare name ty => exact ih done hnodup

theorem targets_cut (code : Code) :
    (cut code).1.flatMap Stmt.targets ++
      (cut code).2.flatMap (fun b => b.stmts.flatMap Stmt.targets) = code.targets := by
  induction code with
  | nil => rfl
  | cons item rest ih =>
      cases item with
      | emit s =>
          rw [cut, List.flatMap_cons, List.append_assoc, ih]
          rfl
      | mark label => exact ih
      | declare name ty => exact ih

theorem successors_subset (label : Label) (code : Code) :
    ∀ b ∈ code.blocks label, ∀ target ∈ b.successors, target ∈ code.targets := by
  intro b hb target htarget
  have hstmts : target ∈ b.stmts.flatMap Stmt.targets := by
    unfold Block.successors at htarget
    cases hlast : b.stmts.getLast? with
    | none =>
        rw [hlast] at htarget
        exact absurd htarget List.not_mem_nil
    | some s =>
        rw [hlast] at htarget
        exact List.mem_flatMap.2 ⟨s, List.mem_of_getLast? hlast, htarget⟩
  have hblocks : target ∈ (code.blocks label).flatMap fun b => b.stmts.flatMap Stmt.targets :=
    List.mem_flatMap.2 ⟨b, hb, hstmts⟩
  rw [← targets_cut]
  exact hblocks

end Code

open Code

variable {V : Type} {m : Machine V} {ctx : Context} {label : Label} {code rest : Code}
  {place : Place V} {c c' c'' : Config V} {s : Stmt}

/-- The run is in the blocks of the code where it has `rest` before it. -/
def Before (label : Label) (code rest : Code) (place : Place V) : Prop :=
  ∃ pre, code = pre ++ rest ∧ place = .inside (spot label pre).1 (spot label pre).2

namespace Before

theorem suffix (hb : Before label code rest place) : rest <:+ code := by
  obtain ⟨pre, heq, -⟩ := hb
  exact ⟨pre, heq.symm⟩

theorem start (label : Label) (code : Code) :
    Before label code code (.inside label 0 : Place V) := ⟨[], rfl, rfl⟩

theorem declare {name : String} {ty : Ty}
    (hb : Before label code (.declare name ty :: rest) place) :
    Before label code rest place := by
  obtain ⟨pre, rfl, rfl⟩ := hb
  refine ⟨pre ++ [.declare name ty], by simp, ?_⟩
  unfold spot
  rw [List.foldl_append]
  rfl

theorem of_mark {target : Label} (hmark : Item.mark target :: rest <:+ code) :
    Before label code rest (.inside target 0 : Place V) := by
  obtain ⟨pre, rfl⟩ := hmark
  refine ⟨pre ++ [.mark target], by simp, ?_⟩
  unfold spot
  rw [List.foldl_append]
  rfl

theorem at_mark {target : Label} (hmark : Item.mark target :: rest <:+ code)
    (hplace : place = .inside target 0) : Before label code rest place :=
  hplace ▸ of_mark hmark

theorem block (hnodup : (label :: code.marks).Nodup) (hb : Before label code rest place) :
    ∃ b l i, place = .inside l i ∧ ((code.blocks label).find? fun b => b.label = l) = some b ∧
      b.stmts[i]? = (cut rest).1.head? := by
  obtain ⟨pre, rfl, rfl⟩ := hb
  obtain ⟨b, hfind, hdrop⟩ := find_block [] hnodup
  refine ⟨b, _, _, rfl, hfind, ?_⟩
  rw [← hdrop, List.head?_drop]
  rfl

theorem emit (m : Machine V) (ctx : Context) (hnodup : (label :: code.marks).Nodup)
    (hb : Before label code (.emit s :: rest) c.place) :
    ∃ l i, m.step ctx (code.blocks label) c =
        ⟨Machine.placeAfter l i (m.exec ctx s c.store c.history).control,
          (m.exec ctx s c.store c.history).store, (m.exec ctx s c.store c.history).history⟩ ∧
      Before label code rest (.inside l (i + 1) : Place V) := by
  obtain ⟨b, l, i, hplace, hfind, hstmt⟩ := hb.block hnodup
  refine ⟨l, i, ?_, ?_⟩
  · unfold Machine.step
    rw [hplace]
    dsimp only
    rw [hfind]
    dsimp only
    rw [hstmt]
    rfl
  · obtain ⟨pre, rfl, hpre⟩ := hb
    obtain ⟨rfl, rfl⟩ := Place.inside.inj (hplace.symm.trans hpre)
    refine ⟨pre ++ [.emit s], by simp, ?_⟩
    unfold spot
    rw [List.foldl_append]
    rfl

theorem ended (m : Machine V) (ctx : Context) (hnodup : (label :: code.marks).Nodup)
    (hb : Before label code [] c.place) :
    m.step ctx (code.blocks label) c = { c with place := .ended } := by
  obtain ⟨b, l, i, hplace, hfind, hstmt⟩ := hb.block hnodup
  unfold Machine.step
  rw [hplace]
  dsimp only
  rw [hfind]
  dsimp only
  rw [hstmt]
  rfl

end Before

/-! ## Some steps -/

def Reaches (m : Machine V) (ctx : Context) (body : List Block) (k : Nat) (c c' : Config V) :
    Prop :=
  ∃ n, k ≤ n ∧ (m.step ctx body)^[n] c = c'

namespace Reaches

variable {body : List Block} {k k' : Nat}

theorem refl (c : Config V) : Reaches m ctx body 0 c c := ⟨0, Nat.le_refl _, rfl⟩

theorem one (hstep : m.step ctx body c = c') : Reaches m ctx body 1 c c' :=
  ⟨1, Nat.le_refl _, hstep⟩

theorem trans (h : Reaches m ctx body k c c') (h' : Reaches m ctx body k' c' c'') :
    Reaches m ctx body (k + k') c c'' := by
  obtain ⟨n, hn, rfl⟩ := h
  obtain ⟨n', hn', rfl⟩ := h'
  refine ⟨n' + n, by omega, ?_⟩
  rw [Function.iterate_add_apply]

theorem weaken (h : Reaches m ctx body k c c') (hle : k' ≤ k) : Reaches m ctx body k' c c' := by
  obtain ⟨n, hn, heq⟩ := h
  exact ⟨n, Nat.le_trans hle hn, heq⟩

end Reaches

end Midend.Linear
