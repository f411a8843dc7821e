import Midend.Proofs.Constants.Rest
import Midend.Proofs.Copies.Rest
import Midend.Proofs.Optimization.Pass
/-!
# When the optimizer returns

The passes over constants always come to rest.  So rounds of both analyses return
exactly when the pass over copies comes to rest on every program that it meets
(`exists_rounds_iff`), which it need not do (`never_returns_flipFlop`).
-/

namespace Midend.Optimization

open Midend.Flow Analysis

/-- The programs that a pass over copies meets in at most so many rounds. -/
inductive CopiesMeet (catalog : Catalog) : Nat → Program → Program → Prop
  | first {limit fuel : Nat} {p q : Program} {changed : Bool} :
      pass Constants fuel catalog p = (q, .ok changed) → CopiesMeet catalog (limit + 1) p q
  | later {limit fuel : Nat} {p next q : Program} :
      round fuel catalog .aggressive p = (next, .ok true) → CopiesMeet catalog limit next q →
      CopiesMeet catalog (limit + 1) p q

variable {catalog : Catalog} {p q : Program} {fuel fuel' : Nat} {changed : Bool}

def Settling (catalog : Catalog) (p : Program) : Prop :=
  ∀ job ∈ p.jobs catalog, Settles Copies job.scope job.ctx job.body

/-! ## One round -/

theorem round_eq_iff :
    round fuel catalog .aggressive p = (q, .ok changed) ↔
      ∃ mid c c', pass Constants fuel catalog p = (mid, .ok c) ∧
        pass Copies fuel catalog mid = (q, .ok c') ∧ changed = (c || c') := by
  have hround : ∀ mid c, pass Constants fuel catalog p = (mid, .ok c) →
      round fuel catalog .aggressive p = ((pass Copies fuel catalog mid).1,
        (c || ·) <$> (pass Copies fuel catalog mid).2) := by
    intro mid c h
    unfold round
    rw [h]
    dsimp only
    rw [if_pos rfl]
  constructor
  · intro heq
    cases hconstants : pass Constants fuel catalog p with
    | mk mid status =>
        cases status with
        | error stop =>
            unfold round at heq
            rw [hconstants] at heq
            exact nomatch (Prod.mk.inj heq).2
        | ok c =>
            rw [hround mid c hconstants] at heq
            obtain ⟨hq, hc⟩ := Prod.mk.inj heq
            cases hcopies : (pass Copies fuel catalog mid).2 with
            | error stop =>
                rw [hcopies] at hc
                exact nomatch hc
            | ok c' =>
                rw [hcopies] at hc
                exact ⟨mid, c, c', rfl, Prod.ext hq hcopies, (Except.ok.inj hc).symm⟩
  · rintro ⟨mid, c, c', hconstants, hcopies, rfl⟩
    rw [hround mid c hconstants, hcopies]
    rfl

theorem round_mono (h : round fuel catalog .aggressive p = (q, .ok changed))
    (hle : fuel ≤ fuel') : round fuel' catalog .aggressive p = (q, .ok changed) := by
  obtain ⟨mid, c, c', hconstants, hcopies, hchanged⟩ := round_eq_iff.1 h
  exact round_eq_iff.2
    ⟨mid, c, c', pass_mono hconstants hle, pass_mono hcopies hle, hchanged⟩

theorem round_unique {q' : Program} {changed' : Bool}
    (h : round fuel catalog .aggressive p = (q, .ok changed))
    (h' : round fuel' catalog .aggressive p = (q', .ok changed')) :
    q = q' ∧ changed = changed' := by
  have hmax := round_mono h (Nat.le_max_left fuel fuel')
  have hmax' := round_mono h' (Nat.le_max_right fuel fuel')
  obtain ⟨hq, hc⟩ := Prod.mk.inj (hmax.symm.trans hmax')
  exact ⟨hq, Except.ok.inj hc⟩

theorem exists_pass_constants (catalog : Catalog) (hp : p.checkLabels = .ok ()) :
    ∃ fuel q changed, pass Constants fuel catalog p = (q, .ok changed) :=
  exists_pass_iff.2 fun job hjob =>
    Constants.exists_solve_constants ((Program.checkLabels_eq_ok_iff catalog).1 hp job hjob)

theorem exists_pass_copies_iff :
    (∃ fuel q changed, pass Copies fuel catalog p = (q, .ok changed)) ↔ Settling catalog p :=
  exists_pass_iff.trans <| forall₂_congr fun _ _ => Copies.exists_solve_copies_iff

/-! ## All rounds -/

theorem rounds_succ_eq {limit done n : Nat} :
    (rounds fuel catalog .aggressive (limit + 1) done p).2 = .ok n ↔
      ∃ next changed, round fuel catalog .aggressive p = (next, .ok changed) ∧
        if changed then (rounds fuel catalog .aggressive limit (done + 1) next).2 = .ok n
        else n = done := by
  rw [rounds]
  rcases round fuel catalog .aggressive p with ⟨next, _ | _ | _⟩ <;> simp [eq_comm]

theorem rounds_mono {limit done n : Nat}
    (h : (rounds fuel catalog .aggressive limit done p).2 = .ok n) (hle : fuel ≤ fuel') :
    (rounds fuel' catalog .aggressive limit done p).2 = .ok n := by
  induction limit generalizing done p with
  | zero =>
      rw [rounds] at h ⊢
      exact h
  | succ limit ih =>
      obtain ⟨next, changed, hround, hrest⟩ := rounds_succ_eq.1 h
      refine rounds_succ_eq.2 ⟨next, changed, round_mono hround hle, ?_⟩
      cases changed with
      | false =>
          rw [if_neg Bool.false_ne_true] at hrest ⊢
          exact hrest
      | true => exact ih hrest

theorem settling_of_rounds {limit done n : Nat}
    (h : (rounds fuel catalog .aggressive limit done p).2 = .ok n)
    (hmeet : CopiesMeet catalog limit p q) : Settling catalog q := by
  induction hmeet generalizing done with
  | @first _ fuel' _ _ _ hpass =>
      obtain ⟨next, _, hround, -⟩ := rounds_succ_eq.1 h
      obtain ⟨mid, _, c', hconstants, hcopies, -⟩ := round_eq_iff.1 hround
      have hmax := pass_mono hconstants (Nat.le_max_left fuel fuel')
      have hmax' := pass_mono hpass (Nat.le_max_right fuel fuel')
      obtain ⟨rfl, -⟩ := Prod.mk.inj (hmax.symm.trans hmax')
      exact exists_pass_copies_iff.1 ⟨fuel, next, c', hcopies⟩
  | later hround _ ih =>
      obtain ⟨next, changed, hround', hrest⟩ := rounds_succ_eq.1 h
      obtain ⟨rfl, rfl⟩ := round_unique hround' hround
      exact ih hrest

theorem exists_rounds_of_settling {limit : Nat} (done : Nat) (hp : p.checkLabels = .ok ())
    (h : ∀ q, CopiesMeet catalog limit p q → Settling catalog q) :
    ∃ fuel n, (rounds fuel catalog .aggressive limit done p).2 = .ok n := by
  induction limit generalizing done p with
  | zero => exact ⟨0, done, rfl⟩
  | succ limit ih =>
      obtain ⟨fuel₁, mid, c, hconstants⟩ := exists_pass_constants catalog hp
      obtain ⟨fuel₂, next, c', hcopies⟩ := exists_pass_copies_iff.2 (h mid (.first hconstants))
      -- more fuel changes no answer, so the larger amount serves both passes
      have hround : round (max fuel₁ fuel₂) catalog .aggressive p = (next, .ok (c || c')) :=
        round_eq_iff.2 ⟨mid, c, c', pass_mono hconstants (Nat.le_max_left _ _),
          pass_mono hcopies (Nat.le_max_right _ _), rfl⟩
      cases hchanged : (c || c') with
      | false =>
          exact ⟨_, done, rounds_succ_eq.2 ⟨next, false, hchanged ▸ hround, rfl⟩⟩
      | true =>
          rw [hchanged] at hround
          have hnext := wellLabelled_of_pass hcopies (wellLabelled_of_pass hconstants hp)
          obtain ⟨fuel₃, n, hrest⟩ := ih (done + 1) hnext
            fun q hq => h q (.later hround hq)
          refine ⟨max (max fuel₁ fuel₂) fuel₃, n, rounds_succ_eq.2 ⟨next, true, ?_, ?_⟩⟩
          · exact round_mono hround (Nat.le_max_left _ _)
          · exact rounds_mono hrest (Nat.le_max_right _ _)

theorem exists_rounds_iff {limit : Nat} (done : Nat) (hp : p.checkLabels = .ok ()) :
    (∃ fuel n, (rounds fuel catalog .aggressive limit done p).2 = .ok n) ↔
      ∀ q, CopiesMeet catalog limit p q → Settling catalog q :=
  ⟨fun ⟨_, _, h⟩ _ hq => settling_of_rounds h hq, exists_rounds_of_settling done hp⟩

/-! ## The optimizer -/

/-- The solver of copies returns on a body exactly when its environments settle, and
else it uses up whatever fuel it gets; the optimizer returns exactly when they
settle in every program that a pass over copies meets. -/
theorem copies_return_iff (scope : String) (ctx : Context) (body : List Block)
    (catalog : Catalog) (options : Options) (p : Program)
    (hbody : Flow.checkLabels scope body = .ok ()) (hp : p.checkLabels = .ok ())
    (hlevel : options.level = .aggressive) :
    ((∃ fuel answer, solve Copies fuel scope ctx body = .ok answer) ↔
        Settles Copies scope ctx body) ∧
      (¬ Settles Copies scope ctx body →
        ∀ fuel, solve Copies fuel scope ctx body = .error .outOfFuel) ∧
      ((∃ fuel n, (optimize fuel catalog options p).2 = .ok n) ↔
        ∀ q, CopiesMeet catalog options.maxRounds p q → Settling catalog q) := by
  refine ⟨Copies.exists_solve_copies_iff, fun hnot fuel => ?_, ?_⟩
  · have hlabels : WellLabelled body := Flow.checkLabels_eq_ok_iff.1 hbody
    rcases solve_eq_ok_or_outOfFuel (E := Copies) hlabels fuel with ⟨answer, h⟩ | h
    · exact absurd (settles_of_solve_eq_ok h) hnot
    · exact h
  · rw [← exists_rounds_iff 0 hp]
    have hrounds : ∀ fuel, optimize fuel catalog options p =
        rounds fuel catalog .aggressive options.maxRounds 0 p := by
      intro fuel
      unfold optimize
      rw [hlevel, if_neg (by decide)]
    simp only [hrounds]

def selfLoop : List Block := [⟨"loop", [.assign "b" (.value (.id "a")), .jump "loop"]⟩]

theorem copies_return_selfLoop :
    Flow.checkLabels Program.topLevel selfLoop = .ok () ∧
      (Program.mk [] [] selfLoop).checkLabels = .ok () ∧
      Options.standard.level = .aggressive ∧
      Settles Copies Program.topLevel ⟨[], [], ∅⟩ selfLoop := by
  have hlabels : Flow.checkLabels Program.topLevel selfLoop = .ok () := rfl
  have hprogram : (Program.mk [] [] selfLoop).checkLabels = .ok () := rfl
  have hreturn := copies_return_iff Program.topLevel ⟨[], [], ∅⟩ selfLoop Catalog.empty
    Options.standard ⟨[], [], selfLoop⟩ hlabels hprogram rfl
  exact ⟨hlabels, hprogram, rfl, hreturn.1.1 ⟨3, _, rfl⟩⟩

def spinning : Program :=
  ⟨[], [⟨"Spin", [], [⟨methodName "Spin" "run", Copies.flipFlopContext.params, .none, [],
    Copies.flipFlop⟩]⟩], []⟩

theorem pass_constants_spinning :
    pass Constants 4 Catalog.empty spinning = (spinning, .ok false) := by
  have hbody : ∀ scope ctx body, simplify Constants 4 scope ctx body = .ok body →
      BodyDone Constants 4 scope ctx body false body false :=
    fun scope ctx body h => ⟨h, by simp⟩
  have htop : BodyDone Constants 4 Program.topLevel (topLevelContext Catalog.empty spinning)
      [] false [] false := hbody _ _ _ rfl
  have hspin : BodyDone Constants 4 (methodName "Spin" "run") Copies.flipFlopContext
      Copies.flipFlop false Copies.flipFlop false := hbody _ _ _ rfl
  exact pass_eq_iff.2 ⟨[], false, htop, spinning.classes,
    .cons ⟨_, .cons ⟨Copies.flipFlop, hspin, rfl⟩ (.nil false), rfl⟩ (.nil false), rfl⟩

theorem never_returns_flipFlop :
    Flow.checkLabels (methodName "Spin" "run") Copies.flipFlop = .ok () ∧
      (∀ fuel, solve Copies fuel (methodName "Spin" "run") Copies.flipFlopContext
        Copies.flipFlop = .error .outOfFuel) ∧
      spinning.checkLabels = .ok () ∧
      ∀ fuel limit n,
        (optimize fuel Catalog.empty ⟨.aggressive, limit + 1⟩ spinning).2 ≠ .ok n := by
  refine ⟨rfl, fun fuel => Copies.solve_flipFlop fuel _, rfl, fun fuel limit n h => ?_⟩
  unfold optimize at h
  rw [if_neg (show ¬ Level.aggressive = Level.none by decide)] at h
  have hsettling := settling_of_rounds h (.first pass_constants_spinning)
  have hjob : (⟨methodName "Spin" "run", Copies.flipFlopContext, Copies.flipFlop⟩ : Job) ∈
      spinning.jobs Catalog.empty := List.mem_cons_of_mem _ List.mem_cons_self
  obtain ⟨fuel', answer, hanswer⟩ := Copies.exists_solve_copies_iff.2 (hsettling _ hjob)
  rw [Copies.solve_flipFlop] at hanswer
  exact nomatch hanswer

end Midend.Optimization
