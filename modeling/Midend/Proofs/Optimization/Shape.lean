import Midend.Proofs.Constants.Environment
import Midend.Proofs.Copies.Rest
import Midend.Proofs.Flow.Shape
import Midend.Proofs.Optimization.Pass
/-!
# The optimizer keeps the shape of a program

Both analyses replace operands and fold operators, and nothing else (`ShapeKeeping`).  So whatever
the optimizer gives has the shape of the program that it started from, and since the graph of a body
depends on its shape only, no pass meets a fault: an optimization ends, or it uses up its fuel
(`optimize_keeps_shape`).
-/

namespace Midend

open Midend.Flow

/-- An analysis that replaces operands and folds operators, and leaves the rest of a statement. -/
class ShapeKeeping (E : Type) [Analysis E] : Prop where
  becomes_of_step : ∀ (env out : E) (s s' : Stmt), Analysis.step env s = .ok (s', out) →
    s.Becomes s'

/-! ## The analyses -/

namespace Constants

theorem becomes_fold (e : Expr) : e.Becomes (fold e) := by
  have hsame : e.Becomes e := .refl e
  cases e with
  | binary op left right =>
      unfold fold
      dsimp only
      cases hvalue : op.value? left right with
      | none => exact hsame
      | some v => exact .binaryValue (.refl left) (.refl right) hvalue
  | unary op operand =>
      unfold fold
      dsimp only
      cases hvalue : op.value? operand with
      | none => exact hsame
      | some v => exact .unaryValue (.refl operand) hvalue
  | _ => exact hsame

theorem becomes_foldStmt (s : Stmt) : s.Becomes (foldStmt s) := by
  have hsame : s.Becomes s := .refl s
  cases s with
  | assign name e => exact .assign (becomes_fold e)
  | expr e => exact .expr (becomes_fold e)
  | _ => exact hsame

instance : ShapeKeeping Constants where
  becomes_of_step env out s s' h := by
    obtain ⟨rfl, -⟩ := Prod.mk.inj (Except.ok.inj ((step_eq env s).symm.trans h))
    exact (s.becomes_map fun v hid => resolve_of_isId_eq_false hid).trans (becomes_foldStmt _)

end Constants

instance : ShapeKeeping Copies where
  becomes_of_step env out s s' h := by
    obtain ⟨rfl, -⟩ := Prod.mk.inj (Except.ok.inj h)
    refine s.becomes_map fun v hid => ?_
    cases v with
    | id name => exact nomatch hid
    | _ => rfl

/-! ## Bodies -/

namespace Analysis

variable {E : Type} [Analysis E] {ctx : Context} {body : List Block}

theorem becomes_of_walk [ShapeKeeping E] {env out : E} {ss ss' : List Stmt}
    (h : walk env ss = .ok (ss', out)) : List.Forall₂ Stmt.Becomes ss ss' := by
  induction ss generalizing env ss' with
  | nil =>
      obtain ⟨rfl, -⟩ := Prod.mk.inj (Except.ok.inj h)
      exact .nil
  | cons s ss ih =>
      obtain ⟨s', mid, rest, hstep, hrest, rfl⟩ := walk_cons_eq_ok.1 h
      exact .cons (ShapeKeeping.becomes_of_step env mid s s' hstep) (ih hrest)

theorem becomes_of_simplify [ShapeKeeping E] {fuel : Nat} {scope : String} {body' : List Block}
    (h : simplify E fuel scope ctx body = .ok body') : List.Forall₂ Block.Becomes body body' := by
  obtain ⟨-, sol, -, hblocks⟩ := simplify_eq_ok_iff.1 h
  refine hblocks.imp fun b b' hblock => ⟨hblock.label_eq, ?_⟩
  obtain ⟨out, hwalk⟩ := hblock.walk_eq
  exact becomes_of_walk hwalk

theorem simplify_eq_ok_or_outOfFuel [Faultless E] (hbody : WellLabelled body) (fuel : Nat)
    (scope : String) (ctx : Context) :
    (∃ body', simplify E fuel scope ctx body = .ok body') ∨
      simplify E fuel scope ctx body = .error .outOfFuel := by
  have hsolve : (∃ answer, solve E fuel scope ctx body = .ok answer) ∨
      solve E fuel scope ctx body = .error .outOfFuel := solve_eq_ok_or_outOfFuel hbody fuel
  rcases hsolve with h | h
  · exact .inl (exists_simplify_iff.2 h)
  · refine .inr ?_
    unfold simplify
    rw [h]
    rfl

end Analysis

/-! ## Programs -/

namespace Optimization

def NoFault {α : Type} (status : Except Stop α) : Prop := ∀ cause, status ≠ .error (.fault cause)

theorem noFault_iff {α : Type} {status : Except Stop α} :
    NoFault status ↔ (∃ a, status = .ok a) ∨ status = .error .outOfFuel := by
  rcases status with (cause | _) | a <;> simp [NoFault]

theorem noFault_ok {α : Type} (a : α) : NoFault (.ok a : Except Stop α) := fun _ h => nomatch h

theorem NoFault.of_error {α β : Type} {stop : Stop} (h : NoFault (.error stop : Except Stop α)) :
    NoFault (.error stop : Except Stop β) := by
  rintro cause ⟨⟩
  exact h cause rfl

theorem NoFault.map {α β : Type} {status : Except Stop α} (h : NoFault status) (f : α → β) :
    NoFault (f <$> status) := by
  cases status with
  | error stop => exact h.of_error
  | ok a => exact noFault_ok _

/-- A step of a pass that meets no fault on what is `Good`, and relates it to what becomes of it. -/
def Keeps {α β : Type} (f : α → StateM Status β) (Good : α → Prop) (R : α → β → Prop) : Prop :=
  ∀ x, Good x → ∀ status, NoFault status → R x (f x status).1 ∧ NoFault (f x status).2

theorem Keeps.mapM {α β : Type} {f : α → StateM Status β} {Good : α → Prop} {R : α → β → Prop}
    (h : Keeps f Good R) : Keeps (·.mapM f) (∀ x ∈ ·, Good x) (List.Forall₂ R) := by
  intro xs
  induction xs with
  | nil => exact fun _ status hstatus => ⟨.nil, hstatus⟩
  | cons x xs ih =>
      intro hgood status hstatus
      rw [List.forall_mem_cons] at hgood
      obtain ⟨hfirst, hmid⟩ := h x hgood.1 status hstatus
      obtain ⟨hrest, hlast⟩ := ih hgood.2 _ hmid
      beta_reduce
      rw [mapM_cons_eq]
      exact ⟨.cons hfirst hrest, hlast⟩

section

variable {E : Type} [Analysis E] [Faultless E] [ShapeKeeping E] (fuel : Nat)

theorem keeps_passBody (scope : String) (ctx : Context) :
    Keeps (passBody E fuel scope ctx) WellLabelled (List.Forall₂ Block.Becomes) := by
  intro body hbody status hstatus
  unfold passBody
  cases status with
  | error stop => exact ⟨body_becomes_self body, hstatus⟩
  | ok changed =>
      dsimp only
      rcases Analysis.simplify_eq_ok_or_outOfFuel (E := E) hbody fuel scope ctx with
        ⟨body', h⟩ | h
      · rw [h]
        exact ⟨Analysis.becomes_of_simplify h, noFault_ok _⟩
      · rw [h]
        exact ⟨body_becomes_self body, fun _ heq => nomatch heq⟩

theorem keeps_passMethod :
    Keeps (passMethod E fuel) (fun m => WellLabelled m.body) Method.Becomes := by
  intro m hm status hstatus
  obtain ⟨hbody, hstatus'⟩ := keeps_passBody (E := E) fuel m.name (methodContext m) m.body
    hm status hstatus
  exact ⟨⟨rfl, rfl, rfl, rfl, hbody⟩, hstatus'⟩

theorem keeps_passClass :
    Keeps (passClass E fuel) (fun c => ∀ m ∈ c.methods, WellLabelled m.body) Class.Becomes := by
  intro c hc status hstatus
  obtain ⟨hmethods, hstatus'⟩ := (keeps_passMethod (E := E) fuel).mapM
    c.methods hc status hstatus
  exact ⟨⟨rfl, rfl, hmethods⟩, hstatus'⟩

theorem becomes_pass (catalog : Catalog) {p : Program} (hp : p.checkLabels = .ok ()) :
    p.Becomes (pass E fuel catalog p).1 ∧ NoFault (pass E fuel catalog p).2 := by
  rw [Program.checkLabels_eq_ok_iff catalog] at hp
  unfold Program.jobs at hp
  rw [List.forall_mem_cons, List.forall_mem_map] at hp
  obtain ⟨htop, hmethods⟩ := hp
  rw [pass_eq]
  obtain ⟨hbody, hmid⟩ := keeps_passBody (E := E) fuel Program.topLevel
    (topLevelContext catalog p) p.body htop (.ok false) (noFault_ok _)
  obtain ⟨hclasses, hlast⟩ := (keeps_passClass (E := E) fuel).mapM p.classes
    (fun c hc m hm => hmethods m (List.mem_flatMap.2 ⟨c, hc, hm⟩)) _ hmid
  exact ⟨⟨rfl, hclasses, hbody⟩, hlast⟩

end

section

variable {p : Program} (fuel : Nat) (catalog : Catalog)

theorem becomes_round (level : Level) (hp : p.checkLabels = .ok ()) :
    p.Becomes (round fuel catalog level p).1 ∧ NoFault (round fuel catalog level p).2 := by
  have hconstants := becomes_pass (E := Constants) fuel catalog hp
  unfold round
  generalize pass Constants fuel catalog p = mid at hconstants
  obtain ⟨q, stop | changed⟩ := mid
  · exact hconstants
  · dsimp only
    split
    · have hcopies := becomes_pass (E := Copies) fuel catalog (hconstants.1.checkLabels hp)
      exact ⟨hconstants.1.trans hcopies.1, hcopies.2.map _⟩
    · exact hconstants

theorem becomes_rounds (level : Level) (limit done : Nat) (hp : p.checkLabels = .ok ()) :
    p.Becomes (rounds fuel catalog level limit done p).1 ∧
      NoFault (rounds fuel catalog level limit done p).2 := by
  induction limit generalizing done p with
  | zero => exact ⟨.refl p, noFault_ok done⟩
  | succ limit ih =>
      have hround := becomes_round fuel catalog level hp
      rw [rounds]
      generalize round fuel catalog level p = mid at hround
      obtain ⟨q, stop | _ | _⟩ := mid
      · exact ⟨hround.1, hround.2.of_error⟩
      · exact ⟨hround.1, noFault_ok done⟩
      · obtain ⟨hrest, hstatus⟩ := ih (done + 1) (hround.1.checkLabels hp)
        exact ⟨hround.1.trans hrest, hstatus⟩

theorem becomes_optimize (options : Options) (hp : p.checkLabels = .ok ()) :
    p.Becomes (optimize fuel catalog options p).1 ∧
      NoFault (optimize fuel catalog options p).2 := by
  unfold optimize
  split
  · exact ⟨.refl p, noFault_ok 0⟩
  · exact becomes_rounds fuel catalog options.level options.maxRounds 0 hp

end

structure Kept (s s' : Stmt) : Prop where
  becomes : s.Becomes s'
  dividesByZero : s.dividesByZero = true → s'.dividesByZero = true
  guard : ∀ check row col, s.guard? = some (check, row, col) → s'.guard? = some (check, row, col)

/-- Optimizing a program whose labels are right never meets a fault: it ends with a number of
rounds, or it uses up its fuel.  The result has the shape of the program, so its labels are right
too; and the statement at each place is of the same kind, still divides by zero if it did before,
and is still the guard that it was, reporting the same position. -/
theorem optimize_keeps_shape (fuel : Nat) (catalog : Catalog) (options : Options) (p : Program)
    (hp : p.checkLabels = .ok ()) :
    ∃ q status, optimize fuel catalog options p = (q, status) ∧
      ((∃ rounds, status = .ok rounds) ∨ status = .error .outOfFuel) ∧
      p.Becomes q ∧ q.checkLabels = .ok () ∧ q.stmts.length = p.stmts.length ∧
      ∀ (place : Nat) (s s' : Stmt), p.stmts[place]? = some s → q.stmts[place]? = some s' →
        Kept s s' := by
  obtain ⟨hbecomes, hstatus⟩ := becomes_optimize fuel catalog options hp
  refine ⟨_, _, rfl, noFault_iff.1 hstatus, hbecomes, hbecomes.checkLabels hp,
    hbecomes.stmts.length_eq.symm, fun place s s' hs hs' => ?_⟩
  have hplace : s.Becomes s' := by
    obtain ⟨hi, rfl⟩ := List.getElem?_eq_some_iff.1 hs
    obtain ⟨hi', rfl⟩ := List.getElem?_eq_some_iff.1 hs'
    exact hbecomes.stmts.get hi hi'
  exact ⟨hplace, hplace.dividesByZero, fun check row col => hplace.guard?⟩

/-- Divides the sum of two constants by a variable that holds zero, after the guard. -/
def dividing : Program :=
  ⟨[⟨"zero", .int, .num 0⟩, ⟨"x", .int, .num 5⟩], [],
    [⟨"entry", [.expr (.call "$check_zero" [.id "zero", .word 3, .word 7]),
      .assign "y" (.binary .plus (.id "x") (.num 1)),
      .assign "z" (.binary .idiv (.id "y") (.id "zero"))]⟩]⟩

/-- The sum is folded, and the division stays. -/
theorem optimize_keeps_shape_dividing :
    dividing.checkLabels = .ok () ∧
      ∃ q status, optimize 4 Catalog.empty Options.standard dividing = (q, status) ∧
        status.toOption = some 1 ∧
        q.stmts = [.expr (.call "$check_zero" [.num 0, .word 3, .word 7]),
          .assign "y" (.value (.num 6)), .assign "z" (.binary .idiv (.num 6) (.num 0))] ∧
        dividing.Becomes q ∧ q.checkLabels = .ok () ∧
        ∀ (place : Nat) (s s' : Stmt), dividing.stmts[place]? = some s → q.stmts[place]? = some s' →
          Kept s s' := by
  have hlabels : dividing.checkLabels = .ok () := rfl
  have hrun : (optimize 4 Catalog.empty Options.standard dividing).2.toOption = some 1 ∧
      (optimize 4 Catalog.empty Options.standard dividing).1.stmts =
        [.expr (.call "$check_zero" [.num 0, .word 3, .word 7]),
          .assign "y" (.value (.num 6)), .assign "z" (.binary .idiv (.num 6) (.num 0))] := by
    decide +kernel
  obtain ⟨q, status, h, -, hbecomes, hlabels', -, hkept⟩ :=
    optimize_keeps_shape 4 Catalog.empty Options.standard dividing hlabels
  rw [h] at hrun
  exact ⟨hlabels, q, status, h, hrun.1, hrun.2, hbecomes, hlabels', hkept⟩

end Optimization

end Midend
