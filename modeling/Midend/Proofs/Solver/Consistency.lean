import Midend.Proofs.Solver.Turn
/-!
# What holds after any number of turns

Every block in the queue has been reached; every environment before a block was
walked through it; and a block that is not in the queue has the environment that
flows into it (`Consistent`).  So when the queue is empty, all blocks have.

A single turn is described by `turn_spec`, which lists what it can do.  `KeptAt`
carries a property of the environments before each block through all turns, and
`Kept` one that does not depend on the block.
-/

namespace Midend

open Midend.Flow

variable {E : Type} {ctx : Context} {body : List Block} {g : Graph}

theorem Solution.mem_labels_of_flows (hg : g.Describes body) {sol : Solution E} {label : Label}
    {entry : E} (h : sol.flows g label entry ≠ []) : label ∈ body.map (·.label) := by
  obtain ⟨env, henv⟩ := List.exists_mem_of_ne_nil _ h
  rcases Solution.mem_flows.1 henv with ⟨hentry, -⟩ | ⟨source, hsource, -⟩
  · rw [← hg.labels_eq]
    exact List.mem_of_head? hentry
  · obtain ⟨b, hb, -, htarget⟩ := (hg.mem_preds _ _).1 hsource
    exact hg.wellLabelled.resolved b hb label htarget

theorem Flow.exists_find? {label : Label} (h : label ∈ body.map (·.label)) :
    ∃ b ∈ body, b.label = label ∧ body.find? (fun b => b.label = label) = some b := by
  cases hfind : body.find? fun b => b.label = label with
  | none =>
      obtain ⟨b, hb, hlabel⟩ := List.mem_map.1 h
      simpa [hlabel] using List.find?_eq_none.1 hfind b hb
  | some b =>
      exact ⟨b, List.mem_of_find?_eq_some hfind, by simpa using List.find?_some hfind, rfl⟩

theorem Solution.flows_record_ne_nil {sol : Solution E} {l label : Label} {entry env out : E}
    (h : sol.flows g l entry ≠ []) : (sol.record label env out).flows g l entry ≠ [] := by
  obtain ⟨e, he⟩ := List.exists_mem_of_ne_nil _ h
  rcases Solution.mem_flows.1 he with hentry | ⟨source, hsource, hafter⟩
  · exact List.ne_nil_of_mem (Solution.mem_flows.2 (.inl hentry))
  · have hsome : ∃ o, (sol.record label env out).after.get? source = some o := by
      rw [Solution.get?_after_record]
      split
      · exact ⟨out, rfl⟩
      · exact ⟨e, hafter⟩
    obtain ⟨o, ho⟩ := hsome
    exact List.ne_nil_of_mem (Solution.mem_flows.2 (.inr ⟨source, hsource, ho⟩))

variable [Analysis E]

theorem Solution.isStable_of_same {sol : Solution E} {label : Label} {entry old env : E}
    (hold : sol.before.get? label = some old) (henv : sol.inflow? g label entry = some env)
    (hsame : Analysis.same old env = true) : sol.isStable g label entry = true := by
  unfold Solution.isStable
  rw [hold, henv]
  exact hsame

theorem Solution.isStable_iff {sol : Solution E} {label : Label} {entry : E} :
    sol.isStable g label entry = true ↔
      (sol.before.get? label = none ∧ sol.inflow? g label entry = none) ∨
        ∃ old env, sol.before.get? label = some old ∧
          sol.inflow? g label entry = some env ∧ Analysis.same old env = true := by
  unfold Solution.isStable
  split <;> simp_all

/-- A visit changes what flows into the successors of the block only. -/
theorem Solution.inflow?_record (hg : g.Describes body) (sol : Solution E) {l label : Label}
    (entry env out : E) {b : Block} (hb : b ∈ body) (hlabel : b.label = label)
    (hl : l ∉ b.successors) :
    (sol.record label env out).inflow? g l entry = sol.inflow? g l entry := by
  rw [Solution.inflow?_eq, Solution.inflow?_eq]
  refine congrArg mergeAll (Solution.flows_congr entry fun source hsource => ?_)
  rw [Solution.get?_after_record, if_neg]
  rintro rfl
  obtain ⟨b', hb', hl', htarget⟩ := (hg.mem_preds _ _).1 hsource
  have heq : b' = b :=
    List.inj_on_of_nodup_map hg.wellLabelled.distinct hb' hb (hl'.trans hlabel.symm)
  exact hl (heq ▸ htarget)

namespace Progress

/-- How the parts of an unfinished solution fit together. -/
structure Consistent (ctx : Context) (body : List Block) (g : Graph) (p : Progress E) :
    Prop where
  reached : ∀ l ∈ p.queue, p.sol.flows g l (Analysis.entry ctx) ≠ []
  walked : ∀ l env, p.sol.before.get? l = some env →
    ∃ b ∈ body, b.label = l ∧
      ∃ out, p.sol.after.get? l = some out ∧ Analysis.through env b = .ok out
  recorded : ∀ l out, p.sol.after.get? l = some out → (p.sol.before.get? l).isSome
  settled : ∀ l, l ∉ p.queue → p.sol.isStable g l (Analysis.entry ctx) = true

/-- What one turn does: nothing when the queue is empty; else the first block
leaves the queue, with an environment that it had, or with a new one that is
walked through the block. -/
inductive Turn (ctx : Context) (body : List Block) (g : Graph) (p : Progress E) :
    Progress E → Prop
  | idle (hqueue : p.queue = []) : Turn ctx body g p p
  | skip {label : Label} {queue : List Label} {old env : E} (hqueue : p.queue = label :: queue)
      (hold : p.sol.before.get? label = some old)
      (henv : p.sol.inflow? g label (Analysis.entry ctx) = some env)
      (hsame : Analysis.same old env = true) : Turn ctx body g p ⟨queue, p.sol⟩
  | visit {label : Label} {queue : List Label} {env out : E} {b : Block}
      (hqueue : p.queue = label :: queue)
      (henv : p.sol.inflow? g label (Analysis.entry ctx) = some env)
      (hnew : ∀ old, p.sol.before.get? label = some old → Analysis.same old env ≠ true)
      (hb : b ∈ body) (hlabel : b.label = label) (hout : Analysis.through env b = .ok out) :
      Turn ctx body g p ⟨queue ++ b.successors, p.sol.record label env out⟩

theorem consistent_start : Consistent ctx body g (start g : Progress E) where
  reached l hl := by
    have hentry : g.entry? = some l := by simpa [start] using hl
    simp [Solution.flows, hentry]
  walked l env h := nomatch h
  recorded l out h := nomatch h
  settled l hl := by
    have hentry : g.entry? ≠ some l := by simpa [start] using hl
    refine Solution.isStable_iff.2 (.inl ⟨rfl, ?_⟩)
    rw [Solution.inflow?_eq, Solution.flows, if_neg hentry]
    have hnone : (g.predsOf l).filterMap (Solution.empty : Solution E).after.get? = [] :=
      List.filterMap_eq_nil_iff.2 fun _ _ => rfl
    exact congrArg _ hnone

theorem Consistent.skip {p : Progress E} (hp : Consistent ctx body g p) {label : Label}
    {queue : List Label} {old env : E} (hqueue : p.queue = label :: queue)
    (hold : p.sol.before.get? label = some old)
    (henv : p.sol.inflow? g label (Analysis.entry ctx) = some env)
    (hsame : Analysis.same old env = true) :
    Consistent ctx body g ⟨queue, p.sol⟩ where
  reached l hl := hp.reached l (by rw [hqueue]; exact List.mem_cons_of_mem _ hl)
  walked := hp.walked
  recorded := hp.recorded
  settled l hl := by
    by_cases heq : l = label
    · subst heq
      exact Solution.isStable_of_same hold henv hsame
    · refine hp.settled l fun hmem => ?_
      rw [hqueue] at hmem
      rcases List.mem_cons.1 hmem with h | h
      · exact heq h
      · exact hl h

/-! ## Properties that every environment has -/

/-- The property holds at the entry and is kept where paths meet and through the
blocks of the body. -/
structure Kept (ctx : Context) (body : List Block) (P : E → Prop) : Prop where
  entry : P (Analysis.entry ctx)
  merge : ∀ a b, P a → P b → P (Analysis.merge a b)
  through : ∀ b ∈ body, ∀ env out, P env → Analysis.through env b = .ok out → P out

structure AllHold (P : E → Prop) (sol : Solution E) : Prop where
  before : ∀ l env, sol.before.get? l = some env → P env
  after : ∀ l env, sol.after.get? l = some env → P env

variable {P : E → Prop}

theorem Kept.of_step (hentry : P (Analysis.entry ctx))
    (hmerge : ∀ a b, P a → P b → P (Analysis.merge a b))
    (hstep : ∀ b ∈ body, ∀ s ∈ b.stmts, ∀ env s' out, P env →
      Analysis.step env s = .ok (s', out) → P out) : Kept ctx body P := by
  refine ⟨hentry, hmerge, fun b hb env out henv hout => ?_⟩
  obtain ⟨stmts, hwalk⟩ := Analysis.through_eq_ok.1 hout
  have hwalks : ∀ (ss ss' : List Stmt) (env : E), (∀ s ∈ ss, s ∈ b.stmts) → P env →
      Analysis.walk env ss = .ok (ss', out) → P out := by
    intro ss
    induction ss with
    | nil =>
        intro ss' env _ henv hwalk
        exact (Prod.mk.inj (Except.ok.inj hwalk)).2 ▸ henv
    | cons s ss ih =>
        intro ss' env hss henv hwalk
        obtain ⟨s', mid, rest, hs, hrest, -⟩ := Analysis.walk_cons_eq_ok.1 hwalk
        exact ih rest mid (fun x hx => hss x (List.mem_cons_of_mem _ hx))
          (hstep b hb s (hss s List.mem_cons_self) env s' mid henv hs) hrest
  exact hwalks b.stmts stmts env (fun _ hs => hs) henv hwalk

omit [Analysis E] in
theorem AllHold.imp {Q : E → Prop} {sol : Solution E} (h : AllHold P sol)
    (hpq : ∀ env, P env → Q env) : AllHold Q sol :=
  ⟨fun l env henv => hpq env (h.before l env henv), fun l env henv => hpq env (h.after l env henv)⟩

theorem of_mergeAll (hmerge : ∀ a b, P a → P b → P (Analysis.merge a b)) {envs : List E}
    (hall : ∀ e ∈ envs, P e) {env : E} (henv : Solution.mergeAll envs = some env) : P env := by
  cases envs with
  | nil => exact nomatch henv
  | cons e es =>
      obtain rfl := Option.some.inj henv
      have hfold : ∀ (es : List E) (e : E), P e → (∀ e' ∈ es, P e') →
          P (es.foldl Analysis.merge e) := by
        intro es
        induction es with
        | nil => exact fun e he _ => he
        | cons e' es ih =>
            intro e he hes
            exact ih _ (hmerge _ _ he (hes _ List.mem_cons_self))
              fun x hx => hes x (List.mem_cons_of_mem _ hx)
      exact hfold es e (hall e List.mem_cons_self) fun x hx => hall x (List.mem_cons_of_mem _ hx)

theorem Kept.inflow (h : Kept ctx body P) {sol : Solution E} (hall : AllHold P sol)
    {label : Label} {env : E} (henv : sol.inflow? g label (Analysis.entry ctx) = some env) :
    P env := by
  rw [Solution.inflow?_eq] at henv
  refine of_mergeAll h.merge (fun e he => ?_) henv
  rcases Solution.mem_flows.1 he with ⟨-, rfl⟩ | ⟨source, -, hafter⟩
  · exact h.entry
  · exact hall.after source e hafter

/-! ## Properties of the environment before each block -/

theorem Consistent.after_eq (hg : g.Describes body) {p : Progress E}
    (hp : Consistent ctx body g p) {b : Block} (hb : b ∈ body) {env : E}
    (henv : p.sol.before.get? b.label = some env) :
    ∃ out, p.sol.after.get? b.label = some out ∧ Analysis.through env b = .ok out := by
  obtain ⟨b', hb', hlabel, out, hafter, hout⟩ := hp.walked b.label env henv
  have hblock : b' = b := List.inj_on_of_nodup_map hg.wellLabelled.distinct hb' hb hlabel
  exact ⟨out, hafter, hblock ▸ hout⟩

theorem Consistent.exists_through (hg : g.Describes body) {p : Progress E}
    (hp : Consistent ctx body g p) {b : Block} (hb : b ∈ body) {out : E}
    (hout : p.sol.after.get? b.label = some out) :
    ∃ env, p.sol.before.get? b.label = some env ∧ Analysis.through env b = .ok out := by
  obtain ⟨env, henv⟩ := Option.isSome_iff_exists.1 (hp.recorded b.label out hout)
  obtain ⟨out', hout', hthrough⟩ := hp.after_eq hg hb henv
  have heq : out' = out := Option.some.inj (hout'.symm.trans hout)
  exact ⟨env, henv, heq ▸ hthrough⟩

/-- The property holds at the entry of the first block, is kept where paths meet, and goes from
before a block of the body to before its successors. -/
structure KeptAt (ctx : Context) (body : List Block) (P : Label → E → Prop) : Prop where
  entry : ∀ b, body.head? = some b → P b.label (Analysis.entry ctx)
  merge : ∀ l a b, P l a → P l b → P l (Analysis.merge a b)
  through : ∀ b ∈ body, ∀ target ∈ b.successors, ∀ env out, P b.label env →
    Analysis.through env b = .ok out → P target out

theorem KeptAt.inflow {P : Label → E → Prop} (h : KeptAt ctx body P) (hg : g.Describes body)
    {p : Progress E} (hp : Consistent ctx body g p)
    (hall : ∀ l env, p.sol.before.get? l = some env → P l env) {label : Label} {env : E}
    (henv : p.sol.inflow? g label (Analysis.entry ctx) = some env) : P label env := by
  rw [Solution.inflow?_eq] at henv
  refine of_mergeAll (h.merge label) (fun e he => ?_) henv
  rcases Solution.mem_flows.1 he with ⟨hentry, rfl⟩ | ⟨source, hsource, hafter⟩
  · obtain ⟨b, hb, rfl⟩ := hg.entry?_eq_some_iff.1 hentry
    exact h.entry b hb
  · obtain ⟨b, hb, rfl, htarget⟩ := (hg.mem_preds _ _).1 hsource
    obtain ⟨env', henv', hout⟩ := hp.exists_through hg hb hafter
    exact h.through b hb label htarget env' e (hall b.label env' henv') hout

/-! ## Turns -/

theorem Consistent.exists_inflow_of_queue {p : Progress E} (hp : Consistent ctx body g p)
    {label : Label} {queue : List Label} (hqueue : p.queue = label :: queue) :
    ∃ env, p.sol.inflow? g label (Analysis.entry ctx) = some env := by
  rw [← Option.isSome_iff_exists, Solution.inflow?_eq]
  exact Solution.isSome_mergeAll.2 (hp.reached label (hqueue ▸ List.mem_cons_self))

variable [Faultless E]

theorem turn_spec (hg : g.Describes body) {p : Progress E}
    (hp : Consistent ctx body g p) : Turn ctx body g p (turn ctx body g p) := by
  unfold turn
  split
  · rename_i hqueue
    exact .idle hqueue
  · rename_i label queue hqueue
    have hflows := hp.reached label (by rw [hqueue]; exact List.mem_cons_self)
    obtain ⟨env, henv⟩ := hp.exists_inflow_of_queue hqueue
    obtain ⟨b, hb, hlabel, hfind⟩ := Flow.exists_find? (Solution.mem_labels_of_flows hg hflows)
    obtain ⟨out, hout⟩ := Analysis.exists_through env b
    rw [henv]
    dsimp only [Option.getD_some]
    split
    · rename_i hsame
      obtain ⟨old, hold, heq⟩ := (Option.any_eq_true _ _).1 hsame
      exact .skip hqueue hold henv heq
    · rename_i hnew
      have hnew' : ∀ old, p.sol.before.get? label = some old →
          Analysis.same old env ≠ true := by
        intro old hold heq
        exact hnew ((Option.any_eq_true _ _).2 ⟨old, hold, heq⟩)
      have hsuccs : g.succsOf label = b.successors := hlabel ▸ hg.succs_eq b hb
      rw [hfind]
      dsimp only
      rw [hout, hsuccs]
      exact .visit hqueue henv hnew' hb hlabel hout

theorem Consistent.visit {p : Progress E} (hg : g.Describes body)
    (hp : Consistent ctx body g p) {label : Label} {queue : List Label} {env out : E}
    {b : Block} (hqueue : p.queue = label :: queue)
    (henv : p.sol.inflow? g label (Analysis.entry ctx) = some env) (hb : b ∈ body)
    (hlabel : b.label = label) (hout : Analysis.through env b = .ok out) :
    Consistent ctx body g ⟨queue ++ b.successors, p.sol.record label env out⟩ where
  reached l hl := by
    rcases List.mem_append.1 hl with hl | hl
    · exact Solution.flows_record_ne_nil
        (hp.reached l (by rw [hqueue]; exact List.mem_cons_of_mem _ hl))
    · refine List.ne_nil_of_mem (a := out) (Solution.mem_flows.2 (.inr ⟨label, ?_, ?_⟩))
      · exact (hg.mem_preds _ _).2 ⟨b, hb, hlabel, hl⟩
      · rw [Solution.get?_after_record, if_pos rfl]
  walked l e he := by
    rw [Solution.get?_before_record] at he
    split at he
    · rename_i heq
      obtain rfl := Option.some.inj he
      exact ⟨b, hb, hlabel.trans heq.symm, out,
        by rw [Solution.get?_after_record, if_pos heq], hout⟩
    · rename_i hne
      obtain ⟨b', hb', hl', out', hafter, hout'⟩ := hp.walked l e he
      exact ⟨b', hb', hl', out',
        by rw [Solution.get?_after_record, if_neg hne]; exact hafter, hout'⟩
  recorded l o ho := by
    rw [Solution.get?_after_record] at ho
    rw [Solution.get?_before_record]
    split at ho
    · rename_i heq
      simp [heq]
    · rename_i hne
      simpa [hne] using hp.recorded l o ho
  settled l hl := by
    rw [List.mem_append, not_or] at hl
    -- the successors are in the queue, so nothing new flows into `l`
    have hinflow := Solution.inflow?_record hg p.sol (Analysis.entry ctx) env out hb hlabel hl.2
    by_cases heq : l = label
    · subst heq
      exact Solution.isStable_of_same (by rw [Solution.get?_before_record, if_pos rfl])
        (hinflow.trans henv) (Faultless.same_refl env)
    · have hmem : l ∉ p.queue := by
        rw [hqueue]
        intro h
        rcases List.mem_cons.1 h with h | h
        · exact heq h
        · exact hl.1 h
      have hstable := hp.settled l hmem
      unfold Solution.isStable at hstable ⊢
      rw [hinflow, Solution.get?_before_record, if_neg heq]
      exact hstable

theorem Consistent.turn (hg : g.Describes body) {p : Progress E}
    (hp : Consistent ctx body g p) : Consistent ctx body g (turn ctx body g p) := by
  have hturn := turn_spec hg hp
  generalize Progress.turn ctx body g p = p' at hturn ⊢
  cases hturn with
  | idle hqueue => exact hp
  | skip hqueue hold henv hsame => exact hp.skip hqueue hold henv hsame
  | visit hqueue henv hnew hb hlabel hout => exact hp.visit hg hqueue henv hb hlabel hout

theorem consistent_after (hg : g.Describes body) (n : Nat) :
    Consistent ctx body g (after ctx body g n : Progress E) := by
  induction n with
  | zero => exact consistent_start
  | succ n ih =>
      rw [after_succ]
      exact ih.turn hg

theorem KeptAt.turn {P : Label → E → Prop} (h : KeptAt ctx body P) (hg : g.Describes body)
    {p : Progress E} (hp : Consistent ctx body g p)
    (hall : ∀ l env, p.sol.before.get? l = some env → P l env) :
    ∀ l env, (turn ctx body g p).sol.before.get? l = some env → P l env := by
  have hturn := turn_spec hg hp
  generalize Progress.turn ctx body g p = p' at hturn ⊢
  cases hturn with
  | idle hqueue => exact hall
  | skip hqueue hold henv hsame => exact hall
  | @visit label queue env out b hqueue henv hnew hb hlabel hout =>
      intro l e he
      rw [Solution.get?_before_record] at he
      split at he
      · rename_i heq
        exact heq ▸ Option.some.inj he ▸ h.inflow hg hp hall henv
      · exact hall l e he

theorem KeptAt.after {P : Label → E → Prop} (h : KeptAt ctx body P) (hg : g.Describes body)
    (n : Nat) :
    ∀ l env, (after ctx body g n : Progress E).sol.before.get? l = some env → P l env := by
  induction n with
  | zero => exact fun _ _ h => nomatch h
  | succ n ih =>
      rw [after_succ]
      exact h.turn hg (consistent_after hg n) ih

theorem Kept.after (h : Kept ctx body P) (hg : g.Describes body) (n : Nat) :
    AllHold P (after ctx body g n : Progress E).sol := by
  have hkept : KeptAt ctx body fun _ => P :=
    ⟨fun _ _ => h.entry, fun _ => h.merge, fun b hb _ _ => h.through b hb⟩
  have hbefore := hkept.after hg n
  have hp : Consistent ctx body g (Progress.after ctx body g n : Progress E) :=
    consistent_after hg n
  refine ⟨hbefore, fun l out hout => ?_⟩
  obtain ⟨env, henv⟩ := Option.isSome_iff_exists.1 (hp.recorded l out hout)
  obtain ⟨b, hb, rfl, -⟩ := hp.walked l env henv
  obtain ⟨env', henv', hthrough⟩ := hp.exists_through hg hb hout
  exact h.through b hb env' out (hbefore _ env' henv') hthrough

end Progress

end Midend
