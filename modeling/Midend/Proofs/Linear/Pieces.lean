import Midend.Linear.Body
import Midend.Proofs.Linear.Running
import Mathlib.Data.List.Count
/-!
# Pieces of code

What the code of every expression and every statement has in common: it is built without
faults (`Makes`), and its labels are its own (`Labelled`).  Code that goes one of two ways and
comes together again is the same for expressions and statements (`choice`).
-/

namespace Midend.Linear

open Midend.Flow (Block Config Label Machine Stmt Value)
open NameSupply (Draws)
open Midend.Tree (Oracle)
open Build Code

/-! ## Building without faults -/

section Makes

variable {α β : Type} {act : Build α} {next : α → Build β} {s s₁ s' : NameSupply} {a : α} {b : β}

/-- Building succeeds and takes nothing but names. -/
def Makes (act : Build α) (s : NameSupply) (a : α) (s' : NameSupply) : Prop :=
  ∀ catalog generated,
    runOn act ⟨catalog, s, generated⟩ = (.ok a, ⟨catalog, s', generated⟩)

theorem makes_pure (a : α) (s : NameSupply) : Makes (pure a) s a s := fun _ _ => rfl

theorem makes_pure_of_eq {a' : α} (h : a = a') (s : NameSupply) : Makes (pure a) s a' s :=
  h ▸ makes_pure a s

theorem Makes.bind (hact : Makes act s a s₁) (hnext : Makes (next a) s₁ b s') :
    Makes (act >>= next) s b s' := fun catalog generated =>
  (runOn_bind_ok (hact catalog generated)).trans (hnext catalog generated)

theorem makes_fresh {base name : String} (h : s.fresh base = (name, s')) :
    Makes (fresh base) s name s' := by
  obtain ⟨rfl, rfl⟩ := Prod.mk.inj h
  exact fun _ _ => rfl

end Makes

/-! ## Labels -/

/-- Jumps stay in the piece or go to labels outside that are known. -/
def Resolves (outer : List Label) (piece : Code) : Prop :=
  ∀ target ∈ piece.targets, target ∈ piece.marks ∨ target ∈ outer

namespace Resolves

variable {outer : List Label} {piece piece' : Code}

theorem plain (htargets : piece.targets = []) : Resolves outer piece := by
  intro target htarget
  rw [htargets] at htarget
  exact absurd htarget List.not_mem_nil

theorem nil (outer : List Label) : Resolves outer [] := plain rfl

theorem append (h : Resolves outer piece) (h' : Resolves outer piece') :
    Resolves outer (piece ++ piece') := by
  intro target htarget
  rw [targets_append, List.mem_append] at htarget
  rw [marks_append, List.mem_append]
  rcases htarget with htarget | htarget
  · exact (h target htarget).imp_left .inl
  · exact (h' target htarget).imp_left .inr

theorem mono (h : Resolves outer piece) {outer' : List Label} (hsub : outer ⊆ outer') :
    Resolves outer' piece := fun target htarget => (h target htarget).imp_right fun h => hsub h

/-- Code all of whose jumps stay in it may stand in the middle of other code. -/
theorem insert {middle : Code} (h : Resolves outer (piece ++ piece'))
    (hmiddle : Resolves [] middle) : Resolves outer (piece ++ (middle ++ piece')) := by
  intro target htarget
  simp only [targets_append, marks_append, List.mem_append] at htarget ⊢
  have houter := h target
  simp only [targets_append, marks_append, List.mem_append] at houter
  have hinner := hmiddle target
  simp only [List.not_mem_nil, or_false] at hinner
  tauto

/-- Only the jumps and the labels of a piece matter. -/
theorem congr {piece'' : Code} (h : Resolves outer (piece ++ piece'))
    (hmarks : piece''.marks = piece'.marks) (htargets : piece''.targets = piece'.targets) :
    Resolves outer (piece ++ piece'') := by
  intro target htarget
  rw [targets_append, htargets, ← targets_append] at htarget
  rw [marks_append, hmarks, ← marks_append]
  exact h target htarget

end Resolves

/-- The blocks of a piece of code have labels of their own, drawn on the way, and jumps stay
in the piece or go to labels outside that are known. -/
structure Labelled (outer : List Label) (s s' : NameSupply) (piece : Code) : Prop where
  draws : Draws s s' piece.marks
  targets : Resolves outer piece

namespace Labelled

variable {outer : List Label} {s s₁ s' : NameSupply} {piece piece' : Code}

theorem nil (outer : List Label) (s : NameSupply) : Labelled outer s s [] :=
  ⟨Draws.nil s, fun _ h => absurd h List.not_mem_nil⟩

theorem append (h : Labelled outer s s₁ piece) (h' : Labelled outer s₁ s' piece') :
    Labelled outer s s' (piece ++ piece') := by
  refine ⟨?_, h.targets.append h'.targets⟩
  rw [marks_append]
  exact h.draws.append h'.draws

theorem plain (hle : ∀ base, s.next base ≤ s'.next base) (hmarks : piece.marks = [])
    (htargets : piece.targets = []) : Labelled outer s s' piece := by
  refine ⟨⟨hle, ?_, ?_⟩, Resolves.plain htargets⟩
  · rw [hmarks]
    exact fun _ h => absurd h List.not_mem_nil
  · rw [hmarks]
    exact List.nodup_nil

theorem weaken (h : Labelled [] s s' piece) : Labelled outer s s' piece :=
  ⟨h.draws, h.targets.mono (List.nil_subset _)⟩

end Labelled

/-! ## Two ways -/

section Choice

variable {outer : List Label} {s s₁ s₂ s₃ s' : NameSupply} {test yes no : Code} {v : Value}
  {onTrue onFalse after : Label}

def choice (test : Code) (v : Value) (onTrue onFalse after : Label) (yes no : Code) : Code :=
  test ++ .emit (.branch v onTrue onFalse) :: .mark onTrue ::
    (yes ++ .emit (.jump after) :: .mark onFalse :: (no ++ [.emit (.jump after), .mark after]))

theorem choice_append (rest : Code) :
    choice test v onTrue onFalse after yes no ++ rest =
      test ++ .emit (.branch v onTrue onFalse) :: .mark onTrue ::
        (yes ++ .emit (.jump after) :: .mark onFalse ::
          (no ++ .emit (.jump after) :: .mark after :: rest)) := by
  simp [choice]

theorem mem_targets_branch {target : Label}
    (h : target ∈ (Stmt.branch v onTrue onFalse).targets) : target = onTrue ∨ target = onFalse := by
  dsimp only [Stmt.targets] at h
  split at h
  · exact .inl (List.mem_singleton.1 h)
  · simpa using h

@[simp] theorem marks_choice : (choice test v onTrue onFalse after yes no).marks =
    test.marks ++ onTrue :: (yes.marks ++ onFalse :: (no.marks ++ [after])) := by
  simp [choice]

/-- Behind a test control goes on in a new block, or at a label outside. -/
theorem Resolves.gate (v : Value) (add test : Label) :
    Resolves [test] [.emit (.branch v add test), .mark add] := by
  intro target htarget
  rw [targets_emit, targets_mark, targets_nil, List.append_nil] at htarget
  rcases mem_targets_branch htarget with rfl | rfl
  · exact .inl List.mem_cons_self
  · exact .inr List.mem_cons_self

theorem Resolves.choice (htest : Resolves [] test) (hyes : Resolves outer yes)
    (hno : Resolves outer no) : Resolves outer (choice test v onTrue onFalse after yes no) := by
  intro target htarget
  have htargets : target ∈ test.targets ∨ target ∈ (Stmt.branch v onTrue onFalse).targets ∨
      target ∈ yes.targets ∨ target = after ∨ target ∈ no.targets := by
    simp only [Linear.choice, targets_append, targets_emit, targets_mark, targets_nil,
      List.mem_append] at htarget
    simp only [Stmt.targets, List.mem_singleton] at htarget ⊢
    tauto
  rw [marks_choice]
  simp only [List.mem_append, List.mem_cons, List.not_mem_nil, or_false]
  rcases htargets with htarget | htarget | htarget | rfl | htarget
  · exact .inl (.inl ((htest target htarget).resolve_right List.not_mem_nil))
  · rcases mem_targets_branch htarget with rfl | rfl <;> simp
  · exact (hyes target htarget).imp_left fun h => by simp [h]
  · simp
  · exact (hno target htarget).imp_left fun h => by simp [h]

theorem Labelled.choice (hnames : Draws s s₁ [onTrue, onFalse, after])
    (htest : Labelled [] s₁ s₂ test) (hyes : Labelled outer s₂ s₃ yes)
    (hno : Labelled outer s₃ s' no) :
    Labelled outer s s' (choice test v onTrue onFalse after yes no) := by
  refine ⟨(hnames.append ((htest.draws.append hyes.draws).append hno.draws)).perm ?_,
    htest.targets.choice hyes.targets hno.targets⟩
  -- the labels of the choice itself are drawn before those of its parts
  rw [marks_choice, List.perm_iff_count]
  intro label
  simp only [List.count_append, List.count_cons, List.count_nil]
  omega

variable {V : Type} [DecidableEq V] {m : Machine V} {oracle : Oracle V} {ctx : Context}
  {label : Label} {code rest : Code} {c : Config V}

variable (m oracle ctx) in
/-- Behind the test the run goes one way, and behind that there is a jump to where the ways
come together. -/
theorem Before.choice (hnodup : (label :: code.marks).Nodup)
    (hb : Before label code (.emit (.branch v onTrue onFalse) :: .mark onTrue ::
      (yes ++ .emit (.jump after) :: .mark onFalse ::
        (no ++ .emit (.jump after) :: .mark after :: rest))) c.place) :
    ∃ c' tail, Reaches (m.withBuiltins oracle) ctx (code.blocks label) 1 c c' ∧
      Before label code
        ((if m.isTrue (m.value c.store v) then yes else no) ++ .emit (.jump after) :: tail)
        c'.place ∧
      c'.store = c.store ∧ c'.history = c.history ∧ Item.mark after :: rest <:+ code := by
  have hreaches := hb.branch m oracle ctx hnodup
  have hyes := (List.suffix_cons _ _).trans hb.suffix
  have hno := (List.suffix_cons _ _).trans
    ((List.suffix_append _ _).trans ((List.suffix_cons _ _).trans hyes))
  have hafter := (List.suffix_cons _ _).trans
    ((List.suffix_append _ _).trans ((List.suffix_cons _ _).trans hno))
  by_cases htrue : m.isTrue (m.value c.store v) = true
  · rw [if_pos htrue] at hreaches ⊢
    exact ⟨_, _, hreaches, Before.of_mark hyes, rfl, rfl, hafter⟩
  · rw [if_neg htrue] at hreaches ⊢
    exact ⟨_, _, hreaches, Before.of_mark hno, rfl, rfl, hafter⟩

end Choice

end Midend.Linear
