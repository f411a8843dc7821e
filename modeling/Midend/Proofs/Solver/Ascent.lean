import Midend.Proofs.Analysis.Order
import Midend.Proofs.Solver.Answer
/-!
# When the solver comes to rest

Facts about finitely many variables can rise only finitely often.  So the solver
comes to rest exactly when, from some turn on, what it knows before each block
only rises (`exists_solve_eq_ok_iff`).

For an analysis whose blocks are monotone it rises from the first turn on
(`settles_of_monotone`).
-/

namespace Midend

open Midend.Flow

variable {E α : Type} [DecidableEq α] [Analysis E] [FactBased E α]
variable {ctx : Context} {body : List Block} {g : Graph} {names : List String}

/-- What is known before each block that was reached has risen or stayed. -/
def Solution.Rises (sol sol' : Solution E) : Prop :=
  ∀ l old, sol.before.get? l = some old →
    ∃ env, sol'.before.get? l = some env ∧ (FactBased.facts old).Rises (FactBased.facts env)

/-- From some turn on, what the solver knows before each block only rises. -/
def Analysis.Settles (E : Type) [Analysis E] [FactBased E α] (scope : String) (ctx : Context)
    (body : List Block) : Prop :=
  ∃ g, Graph.ofBody scope body = .ok g ∧
    ∃ n, ∀ m, n ≤ m → (Progress.after ctx body g m : Progress E).sol.Rises
      (Progress.after ctx body g (m + 1)).sol

theorem Solution.Rises.refl (sol : Solution E) : sol.Rises sol :=
  fun _ old hold => ⟨old, hold, .refl _⟩

theorem Solution.Rises.record {sol : Solution E} {label : Label} {env : E} (out : E)
    (h : ∀ old, sol.before.get? label = some old →
      (FactBased.facts old).Rises (FactBased.facts env)) :
    sol.Rises (sol.record label env out) := by
  intro l old hold
  rw [Solution.get?_before_record]
  split
  · rename_i heq
    exact ⟨env, rfl, h old (heq ▸ hold)⟩
  · exact ⟨old, hold, .refl _⟩

theorem Solution.Rises.of_record {sol : Solution E} {label : Label} {env out : E}
    (h : sol.Rises (sol.record label env out)) {old : E}
    (hold : sol.before.get? label = some old) :
    (FactBased.facts old).Rises (FactBased.facts env) := by
  obtain ⟨env', henv', hrises⟩ := h label old hold
  rw [Solution.get?_before_record, if_pos rfl] at henv'
  exact Option.some.inj henv' ▸ hrises

/-! ## Finitely many rises -/

/-- How often what is known before a block can still rise; being reached for the
first time counts as a rise. -/
def Solution.roomAt (names : List String) (sol : Solution E) (label : Label) : Nat :=
  match sol.before.get? label with
  | none => 2 * names.length + 1
  | some env => (FactBased.facts env).room names

def Solution.room (names : List String) (labels : List Label) (sol : Solution E) : Nat :=
  (labels.map (sol.roomAt names)).sum

abbrev Analysis.Mentions (E : Type) [Analysis E] [FactBased E α] (names : List String)
    (env : E) : Prop :=
  (FactBased.facts env).Within names

theorem Solution.roomAt_record_lt {sol : Solution E} {label : Label} {env : E} (out : E)
    (hall : Progress.AllHold (Analysis.Mentions E names) sol)
    (henv : Analysis.Mentions E names env)
    (hrises : ∀ old, sol.before.get? label = some old →
      (FactBased.facts old).Rises (FactBased.facts env))
    (hnew : ∀ old, sol.before.get? label = some old → Analysis.same old env ≠ true) :
    (sol.record label env out).roomAt names label < sol.roomAt names label := by
  unfold Solution.roomAt
  rw [Solution.get?_before_record, if_pos rfl]
  dsimp only
  cases hold : sol.before.get? label with
  | none =>
      have := NameMap.room_le names (FactBased.facts env)
      dsimp only
      omega
  | some old =>
      have hne : FactBased.facts old ≠ FactBased.facts env :=
        fun heq => hnew old hold ((FactBased.same_iff old env).2 heq)
      exact (hrises old hold).room_lt hne (hall.before label old hold) henv

theorem Solution.room_record_lt {sol : Solution E} {label : Label} {env : E} (out : E)
    {labels : List Label} (hmem : label ∈ labels)
    (hall : Progress.AllHold (Analysis.Mentions E names) sol)
    (henv : Analysis.Mentions E names env)
    (hrises : ∀ old, sol.before.get? label = some old →
      (FactBased.facts old).Rises (FactBased.facts env))
    (hnew : ∀ old, sol.before.get? label = some old → Analysis.same old env ≠ true) :
    (sol.record label env out).room names labels < sol.room names labels := by
  have hlt := roomAt_record_lt out hall henv hrises hnew
  refine List.sum_lt_sum _ _ (fun l _ => ?_) ⟨label, hmem, hlt⟩
  by_cases heq : l = label
  · exact heq ▸ hlt.le
  · unfold Solution.roomAt
    rw [Solution.get?_before_record, if_neg heq]

namespace Progress

/-- What gets less with every turn: first the room to rise, then the queue. -/
def weight (names : List String) (labels : List Label) (p : Progress E) : Nat × Nat :=
  (p.sol.room names labels, p.queue.length)

variable {P : E → Prop}

theorem weight_turn_lt [Faultless E] (hg : g.Describes body) (hkept : Kept ctx body P)
    (hnames : ∀ env, P env → Analysis.Mentions E names env) {p : Progress E}
    (hp : Consistent ctx body g p) (hall : AllHold P p.sol)
    (hrises : p.sol.Rises (turn ctx body g p).sol) (hqueue : p.queue ≠ []) :
    Prod.Lex (· < ·) (· < ·) (weight names (body.map (·.label)) (turn ctx body g p))
      (weight names (body.map (·.label)) p) := by
  have hturn := turn_spec hg hp
  generalize turn ctx body g p = p' at hturn hrises ⊢
  cases hturn with
  | idle hnil => exact absurd hnil hqueue
  | skip hcons hold henv hsame =>
      refine .right _ ?_
      rw [hcons]
      exact Nat.lt_succ_self _
  | @visit label queue env out b hcons henv hnew hb hlabel hout =>
      -- the queue may grow, but what was recorded has risen strictly
      have hmem : label ∈ body.map (·.label) := hlabel ▸ List.mem_map_of_mem hb
      exact .left _ _ (Solution.room_record_lt out hmem (hall.imp hnames)
        (hnames env (hkept.inflow hall henv))
        (fun old hold => hrises.of_record hold) hnew)

theorem exists_queue_eq_nil [Faultless E] (hg : g.Describes body) (hkept : Kept ctx body P)
    (hnames : ∀ env, P env → Analysis.Mentions E names env) (n : Nat)
    (h : ∀ m, n ≤ m → (after ctx body g m : Progress E).sol.Rises
      (after ctx body g (m + 1)).sol) :
    ∃ k, (after ctx body g k : Progress E).queue = [] := by
  by_cases hqueue : (after ctx body g n : Progress E).queue = []
  · exact ⟨n, hqueue⟩
  · exact exists_queue_eq_nil hg hkept hnames (n + 1) fun m hm => h m (by omega)
termination_by weight names (body.map (·.label)) (after ctx body g n : Progress E)
decreasing_by
  have hrises := h n le_rfl
  rw [after_succ] at hrises ⊢
  exact weight_turn_lt hg hkept hnames (consistent_after hg n) (hkept.after hg n) hrises hqueue

end Progress

/-! ## The solver as a whole -/

theorem Analysis.settles_of_solve_eq_ok {fuel : Nat} {scope : String}
    {answer : Graph × Solution E} (h : solve E fuel scope ctx body = .ok answer) :
    Settles E scope ctx body := by
  obtain ⟨g, sol⟩ := answer
  obtain ⟨hg, hafter⟩ := solve_eq_ok_iff.1 h
  refine ⟨g, hg, fuel, fun m hm => ?_⟩
  rw [Progress.after_of_rest hafter hm, Progress.after_of_rest hafter (Nat.le_succ_of_le hm)]
  exact .refl _

theorem Analysis.exists_solve_eq_ok_iff [Faultless E] {scope : String} {P : E → Prop}
    (hkept : Progress.Kept ctx body P) (hnames : ∀ env, P env → Mentions E names env) :
    (∃ fuel answer, solve E fuel scope ctx body = .ok answer) ↔ Settles E scope ctx body := by
  refine ⟨fun ⟨fuel, answer, h⟩ => settles_of_solve_eq_ok h, ?_⟩
  rintro ⟨g, hg, n, hrises⟩
  obtain ⟨k, hk⟩ :=
    Progress.exists_queue_eq_nil (Graph.describes_of_ofBody hg) hkept hnames n hrises
  refine ⟨k, (g, (Progress.after ctx body g k).sol), solve_eq_ok_iff.2 ⟨hg, ?_⟩⟩
  rw [← hk]

/-! ## Monotone blocks -/

def Analysis.Monotone (body : List Block) (P : E → Prop) : Prop :=
  ∀ b ∈ body, ∀ env env' out out', P env → P env' →
    (FactBased.facts env).Rises (FactBased.facts env') →
    Analysis.through env b = .ok out → Analysis.through env' b = .ok out' →
    (FactBased.facts out).Rises (FactBased.facts out')

theorem Solution.rises_mergeAll {envs : List E} {env m : E} (henv : env ∈ envs)
    (hm : mergeAll envs = some m) :
    (FactBased.facts env).Rises (FactBased.facts m) := by
  have hfold : ∀ (es : List E) (acc : E),
      (FactBased.facts acc).Rises (FactBased.facts (es.foldl Analysis.merge acc)) ∧
        ∀ e ∈ es, (FactBased.facts e).Rises
          (FactBased.facts (es.foldl Analysis.merge acc)) := by
    intro es
    induction es with
    | nil => exact fun acc => ⟨.refl _, fun _ h => nomatch h⟩
    | cons e es ih =>
        intro acc
        obtain ⟨hacc, hes⟩ := ih (Analysis.merge acc e)
        rw [FactBased.facts_merge] at hacc
        refine ⟨(NameMap.rises_combine_left _ _).trans hacc, fun x hx => ?_⟩
        rcases List.mem_cons.1 hx with rfl | hx
        · exact (NameMap.rises_combine_right _ _).trans hacc
        · exact hes x hx
  cases envs with
  | nil => exact nomatch hm
  | cons e es =>
      obtain rfl := Option.some.inj hm
      rcases List.mem_cons.1 henv with rfl | hmem
      · exact (hfold es _).1
      · exact (hfold es e).2 env hmem

theorem Solution.mergeAll_rises {envs : List E} {m : E} {bound : NameMap (Fact α)}
    (h : ∀ e ∈ envs, (FactBased.facts e).Rises bound) (hm : mergeAll envs = some m) :
    (FactBased.facts m).Rises bound := by
  have hkept : ∀ (es : List E) (acc : E), (FactBased.facts acc).Rises bound →
      (∀ e ∈ es, (FactBased.facts e).Rises bound) →
      (FactBased.facts (es.foldl Analysis.merge acc)).Rises bound := by
    intro es
    induction es with
    | nil => exact fun acc hacc _ => hacc
    | cons e es ih =>
        intro acc hacc hes
        refine ih _ ?_ fun x hx => hes x (List.mem_cons_of_mem _ hx)
        rw [FactBased.facts_merge]
        exact NameMap.combine_rises hacc (hes e List.mem_cons_self)
  cases envs with
  | nil => exact nomatch hm
  | cons e es =>
      obtain rfl := Option.some.inj hm
      exact hkept es e (h e List.mem_cons_self) fun x hx => h x (List.mem_cons_of_mem _ hx)

namespace Progress

variable {P : E → Prop}

/-- What flows into a block has risen since the block was reached. -/
def Ascending (ctx : Context) (g : Graph) (p : Progress E) : Prop :=
  ∀ l old env, p.sol.before.get? l = some old →
    p.sol.inflow? g l (Analysis.entry ctx) = some env →
    (FactBased.facts old).Rises (FactBased.facts env)

omit [DecidableEq α] [FactBased E α] in
theorem Consistent.exists_inflow {p : Progress E} (hp : Consistent ctx body g p)
    {label : Label} {old : E} (hold : p.sol.before.get? label = some old) :
    ∃ env, p.sol.inflow? g label (Analysis.entry ctx) = some env := by
  by_cases hmem : label ∈ p.queue
  · rw [← Option.isSome_iff_exists, Solution.inflow?_eq]
    exact Solution.isSome_mergeAll.2 (hp.reached label hmem)
  · rcases Solution.isStable_iff.1 (hp.settled label hmem) with ⟨hnone, -⟩ | ⟨_, env, -, henv, -⟩
    · rw [hold] at hnone
      exact nomatch hnone
    · exact ⟨env, henv⟩

/-- A visit can only raise what flows into the blocks. -/
theorem rises_inflow_record (hg : g.Describes body) (hmono : Analysis.Monotone body P)
    {p : Progress E} (hp : Consistent ctx body g p) (hasc : Ascending ctx g p)
    (hall : AllHold P p.sol) {label : Label} {env out : E} {b : Block} (hin : P env)
    (henv : p.sol.inflow? g label (Analysis.entry ctx) = some env) (hb : b ∈ body)
    (hlabel : b.label = label) (hout : Analysis.through env b = .ok out)
    {l : Label} {e e' : E} (he : p.sol.inflow? g l (Analysis.entry ctx) = some e)
    (he' : (p.sol.record label env out).inflow? g l (Analysis.entry ctx) = some e') :
    (FactBased.facts e).Rises (FactBased.facts e') := by
  rw [Solution.inflow?_eq] at he he'
  refine Solution.mergeAll_rises (fun x hx => ?_) he
  rcases Solution.mem_flows.1 hx with hentry | ⟨source, hsource, hafter⟩
  · exact Solution.rises_mergeAll (Solution.mem_flows.2 (.inl hentry)) he'
  · by_cases heq : source = label
    · subst heq
      have hmem : out ∈ (p.sol.record source env out).flows g l (Analysis.entry ctx) :=
        Solution.mem_flows.2
          (.inr ⟨source, hsource, by rw [Solution.get?_after_record, if_pos rfl]⟩)
      obtain ⟨old, hold⟩ := Option.isSome_iff_exists.1 (hp.recorded source x hafter)
      obtain ⟨b', hb', hlabel', out', hafter', hout'⟩ := hp.walked source old hold
      obtain rfl : x = out' := Option.some.inj (hafter.symm.trans hafter')
      obtain rfl : b' = b := List.inj_on_of_nodup_map hg.wellLabelled.distinct hb' hb
        (hlabel'.trans hlabel.symm)
      exact (hmono b' hb old env x out (hall.before source old hold) hin
        (hasc source old env hold henv) hout' hout).trans (Solution.rises_mergeAll hmem he')
    · refine Solution.rises_mergeAll (Solution.mem_flows.2 (.inr ⟨source, hsource, ?_⟩)) he'
      rw [Solution.get?_after_record, if_neg heq]
      exact hafter

variable [Faultless E]

theorem Ascending.turn (hg : g.Describes body) (hmono : Analysis.Monotone body P)
    (hkept : Kept ctx body P) {p : Progress E} (hp : Consistent ctx body g p)
    (hasc : Ascending ctx g p) (hall : AllHold P p.sol) :
    Ascending ctx g (turn ctx body g p) := by
  have hturn := turn_spec hg hp
  generalize Progress.turn ctx body g p = p' at hturn ⊢
  cases hturn with
  | idle hqueue => exact hasc
  | skip hqueue hold henv hsame => exact hasc
  | @visit label queue env out b hqueue henv hnew hb hlabel hout =>
      have hraise : ∀ {l e e'}, p.sol.inflow? g l (Analysis.entry ctx) = some e →
          (p.sol.record label env out).inflow? g l (Analysis.entry ctx) = some e' →
          (FactBased.facts e).Rises (FactBased.facts e') :=
        rises_inflow_record hg hmono hp hasc hall (hkept.inflow hall henv) henv hb hlabel hout
      intro l old e' hold he'
      rw [Solution.get?_before_record] at hold
      split at hold
      · rename_i heq
        subst heq
        exact Option.some.inj hold ▸ hraise henv he'
      · obtain ⟨e, he⟩ := hp.exists_inflow hold
        exact (hasc l old e hold he).trans (hraise he he')

theorem ascending_after (hg : g.Describes body) (hmono : Analysis.Monotone body P)
    (hkept : Kept ctx body P) (n : Nat) :
    Ascending ctx g (after ctx body g n : Progress E) := by
  induction n with
  | zero => exact fun _ _ _ hold => nomatch hold
  | succ n ih =>
      rw [after_succ]
      exact ih.turn hg hmono hkept (consistent_after hg n) (hkept.after hg n)

theorem rises_after_succ (hg : g.Describes body) (hmono : Analysis.Monotone body P)
    (hkept : Kept ctx body P) (n : Nat) :
    (after ctx body g n : Progress E).sol.Rises (after ctx body g (n + 1)).sol := by
  have hasc := ascending_after hg hmono hkept n
  have hconsistent : Consistent ctx body g (after ctx body g n : Progress E) :=
    consistent_after hg n
  have hturn := turn_spec hg hconsistent
  rw [after_succ]
  generalize turn ctx body g (after ctx body g n : Progress E) = p' at hturn ⊢
  cases hturn with
  | idle hqueue => exact .refl _
  | skip hqueue hold henv hsame => exact .refl _
  | visit hqueue henv hnew hb hlabel hout =>
      exact .record _ fun old hold => hasc _ old _ hold henv

end Progress

theorem Analysis.settles_of_monotone [Faultless E] {scope : String} {P : E → Prop}
    (hbody : WellLabelled body) (hmono : Monotone body P) (hkept : Progress.Kept ctx body P) :
    Settles E scope ctx body := by
  obtain ⟨g, hg⟩ : ∃ g, Graph.ofBody scope body = .ok g := Graph.exists_ofBody_iff.2 hbody
  exact ⟨g, hg, 0, fun m _ =>
    Progress.rises_after_succ (Graph.describes_of_ofBody hg) hmono hkept m⟩

end Midend
