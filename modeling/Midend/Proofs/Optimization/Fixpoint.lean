import Midend.Proofs.Constants.Idempotence
import Midend.Proofs.Optimization.Rounds
/-!
# One pass over constants is enough

After one pass over constants, another finds nothing to change (`pass_constants_again`).  So at the
basic level the optimizer stops after at most one round that changes the program, with a program
that it leaves as it is (`basic_reaches_fixpoint`).
-/

namespace Midend

open Midend.Flow

def Flow.Program.LiteralInits (p : Program) : Prop :=
  (∀ d ∈ p.decls, d.value.isId = false) ∧
    ∀ c ∈ p.classes, ∀ m ∈ c.methods, ∀ d ∈ m.decls, d.value.isId = false

instance (p : Program) : Decidable p.LiteralInits :=
  inferInstanceAs (Decidable (_ ∧ _))

theorem Flow.Program.LiteralInits.of_mem_jobs {p : Program} {catalog : Catalog}
    (hp : p.LiteralInits) {job : Job} (hjob : job ∈ p.jobs catalog) :
    ∀ d ∈ job.ctx.decls, d.value.isId = false := by
  rcases List.mem_cons.1 hjob with rfl | hjob
  · exact hp.1
  · obtain ⟨m, hm, rfl⟩ := List.mem_map.1 hjob
    obtain ⟨c, hc, hm⟩ := List.mem_flatMap.1 hm
    exact hp.2 c hc m hm

namespace Optimization

open Analysis

variable {fuel : Nat} {catalog : Catalog} {p q : Program} {changed : Bool}

/-! ## Passes that change nothing -/

theorem chain_self {α : Type} {R : α → Bool → α → Bool → Prop} {c : Bool} {xs : List α}
    (h : ∀ x ∈ xs, R x c x c) : Chain R xs c xs c := by
  induction xs with
  | nil => exact .nil c
  | cons x xs ih =>
      exact .cons (h x List.mem_cons_self) (ih fun y hy => h y (List.mem_cons_of_mem _ hy))

theorem Chain.eq_of_false {α : Type} {R : α → Bool → α → Bool → Prop}
    (h : ∀ x c y, R x c y false → c = false ∧ y = x) {xs ys : List α} {c c' : Bool}
    (hchain : Chain R xs c ys c') (hc' : c' = false) : c = false ∧ ys = xs := by
  induction hchain with
  | nil => exact ⟨hc', rfl⟩
  | cons hfirst _ ih =>
      obtain ⟨rfl, rfl⟩ := ih hc'
      obtain ⟨rfl, rfl⟩ := h _ _ _ hfirst
      exact ⟨rfl, rfl⟩

section

variable {E : Type} [Analysis E]

/-- A pass reports no change when every body is simplified to itself. -/
theorem pass_of_fixed (h : ∀ job ∈ p.jobs catalog,
    simplify E fuel job.scope job.ctx job.body = .ok job.body) :
    pass E fuel catalog p = (p, .ok false) := by
  unfold Program.jobs at h
  rw [List.forall_mem_cons, List.forall_mem_map] at h
  obtain ⟨htop, hmethods⟩ := h
  have hbody : ∀ scope ctx body, simplify E fuel scope ctx body = .ok body →
      BodyDone E fuel scope ctx body false body false :=
    fun scope ctx body hbody => ⟨hbody, by simp⟩
  have hmethod : ∀ c ∈ p.classes, ∀ m ∈ c.methods, MethodDone E fuel m false m false :=
    fun c hc m hm => ⟨m.body, hbody _ _ _ (hmethods m (List.mem_flatMap.2 ⟨c, hc, hm⟩)), rfl⟩
  have hclass : ∀ c ∈ p.classes, ClassDone E fuel c false c false :=
    fun c hc => ⟨c.methods, chain_self (hmethod c hc), rfl⟩
  exact pass_eq_iff.2 ⟨p.body, false, hbody _ _ _ htop, p.classes, chain_self hclass, rfl⟩

/-- A pass that reports no change has made none. -/
theorem eq_of_pass_false (h : pass E fuel catalog p = (q, .ok false)) : q = p := by
  have hbody : ∀ scope ctx body c body', BodyDone E fuel scope ctx body c body' false →
      c = false ∧ body' = body := by
    intro scope ctx body c body' hdone
    simpa using hdone.2.symm
  have hmethod : ∀ m c m', MethodDone E fuel m c m' false → c = false ∧ m' = m := by
    rintro m c m' ⟨body', hdone, rfl⟩
    obtain ⟨hc, rfl⟩ := hbody _ _ _ _ _ hdone
    exact ⟨hc, rfl⟩
  have hclass : ∀ c ch c', ClassDone E fuel c ch c' false → ch = false ∧ c' = c := by
    rintro c ch c' ⟨methods, hchain, rfl⟩
    obtain ⟨hch, rfl⟩ := hchain.eq_of_false hmethod rfl
    exact ⟨hch, rfl⟩
  obtain ⟨body, between, hdone, classes, hchain, rfl⟩ := pass_eq_iff.1 h
  obtain ⟨rfl, rfl⟩ := hchain.eq_of_false hclass rfl
  obtain ⟨-, rfl⟩ := hbody _ _ _ _ _ hdone
  rfl

end

/-! ## Constants -/

theorem pass_constants_again (hp : p.LiteralInits)
    (h : pass Constants fuel catalog p = (q, .ok changed)) :
    pass Constants fuel catalog q = (q, .ok false) := by
  have hinits : ∀ job ∈ p.jobs catalog, ∀ d ∈ job.ctx.decls, d.value.isId = false :=
    fun _ hjob => hp.of_mem_jobs hjob
  refine pass_of_fixed
    (forall_mem_of_forall₂ (jobs_of_pass h) (fun job job' hdone hinit => ?_) hinits)
  rw [hdone.scope_eq, hdone.ctx_eq]
  exact Constants.simplify_simplified hinit hdone.simplify_eq

theorem round_basic (h : pass Constants fuel catalog p = (q, .ok changed)) :
    round fuel catalog .basic p = (q, .ok changed) := by
  unfold round
  rw [h]
  rfl

/-- Rounds over a program that a pass leaves as it is stop at once. -/
theorem rounds_of_fixed {limit done : Nat} (h : pass Constants fuel catalog p = (p, .ok false)) :
    rounds fuel catalog .basic limit done p = (p, .ok done) := by
  cases limit with
  | zero => rfl
  | succ limit => rw [rounds, round_basic h]

theorem optimize_basic {options : Options} (hlevel : options.level = .basic) :
    optimize fuel catalog options p = rounds fuel catalog .basic options.maxRounds 0 p := by
  unfold optimize
  rw [hlevel]
  rfl

/-- A program after a pass over constants is one that a pass leaves as it is, and so does the
optimizer at the basic level.  It gets to this program, and counts one round if the first pass has
changed anything, and none if not. -/
structure Fixpoint (fuel : Nat) (catalog : Catalog) (p q : Program) (changed : Bool) : Prop where
  pass_again : pass Constants fuel catalog q = (q, .ok false)
  unchanged : changed = false → q = p
  optimize_eq : ∀ options : Options, options.level = .basic → 2 ≤ options.maxRounds →
    optimize fuel catalog options p = (q, .ok (if changed then 1 else 0))
  optimize_again : ∀ options : Options, options.level = .basic →
    optimize fuel catalog options q = (q, .ok 0)

theorem fixpoint_of_pass (hp : p.LiteralInits)
    (h : pass Constants fuel catalog p = (q, .ok changed)) : Fixpoint fuel catalog p q changed := by
  have hagain := pass_constants_again hp h
  refine ⟨hagain, fun hc => ?_, fun options hlevel hlimit => ?_, fun options hlevel => ?_⟩
  · subst hc
    exact eq_of_pass_false h
  · obtain ⟨limit, hlimit'⟩ := Nat.exists_eq_add_of_le' (show 1 ≤ options.maxRounds by omega)
    rw [optimize_basic hlevel, hlimit', rounds, round_basic h]
    cases changed with
    | false => rfl
    | true => exact rounds_of_fixed hagain
  · rw [optimize_basic hlevel, rounds_of_fixed hagain]

/-- One pass over constants reaches a fixpoint, in every program whose labels are right and whose
variables start with literals.  With enough fuel the pass returns, and whenever it returns, a second
one reports no change and leaves the program as it is; at the basic level the optimizer returns that
program after no or one round that changed anything. -/
theorem basic_reaches_fixpoint (catalog : Catalog) (p : Program) (hlabels : p.checkLabels = .ok ())
    (hinits : p.LiteralInits) :
    (∃ fuel q changed, ∀ fuel', fuel ≤ fuel' →
        pass Constants fuel' catalog p = (q, .ok changed)) ∧
      ∀ fuel q changed, pass Constants fuel catalog p = (q, .ok changed) →
        Fixpoint fuel catalog p q changed := by
  refine ⟨?_, fun fuel q changed h => fixpoint_of_pass hinits h⟩
  obtain ⟨fuel, q, changed, h⟩ := exists_pass_constants catalog hlabels
  exact ⟨fuel, q, changed, fun fuel' hle => pass_mono h hle⟩

/-- A program that adds up constants around a loop, with a block that is never reached. -/
def tallying : Program :=
  ⟨[⟨"one", .int, .num 1⟩, ⟨"sum", .int, .num 0⟩], [],
    [⟨"entry", [.assign "two" (.binary .plus (.id "one") (.id "one")), .jump "loop"]⟩,
      ⟨"loop", [.assign "sum" (.binary .plus (.id "sum") (.id "two")), .jump "loop"]⟩,
      ⟨"unreached", [.assign "sum" (.binary .plus (.num 1) (.num 1)), .jump "unreached"]⟩]⟩

theorem basic_reaches_fixpoint_tallying :
    tallying.checkLabels = .ok () ∧ tallying.LiteralInits ∧
      ∃ q, pass Constants 8 Catalog.empty tallying = (q, .ok true) ∧
        Fixpoint 8 Catalog.empty tallying q true := by
  have hlabels : tallying.checkLabels = .ok () := rfl
  have hinits : tallying.LiteralInits := by decide
  have hpass : ∃ q, pass Constants 8 Catalog.empty tallying = (q, .ok true) := ⟨_, rfl⟩
  obtain ⟨q, h⟩ := hpass
  exact ⟨hlabels, hinits, q, h,
    (basic_reaches_fixpoint Catalog.empty tallying hlabels hinits).2 8 q true h⟩

end Optimization

end Midend
