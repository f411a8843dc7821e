import Midend.Proofs.Copies.Rest
import Midend.Proofs.Meaning.Preservation
/-!
# Copies keep the meaning of a body

An environment of copies holds of variables in which every known copy has the value
of its origin (`Holds`).  A write ends the copies on both sides of it: what is still
known after it is about other variables only (`Keeps`).

Every statement keeps this (`sound`), so a simplified body runs in step with the body
it came from, and what it reads in place of a copy has the value of the copy
(`copies_keep_meaning`).
-/

namespace Midend.Copies

open Midend.Flow Analysis

variable {V : Type} {m : Machine V} {ctx : Context} {env env' : Copies} {σ σ' : Store V}

def Holds (env : Copies) (σ : Store V) : Prop :=
  env.facts.Says fun name origin => σ name = σ origin

/-- What is known in the second environment is known in the first, and about
variables that are not `gone`. -/
def Keeps (gone : String → Prop) (env env' : Copies) : Prop :=
  ∀ name fact, env'.facts.get? name = some fact → fact = .nac ∨
    (env.facts.get? name = some fact ∧ ¬ gone name ∧ ∀ origin, fact = .known origin → ¬ gone origin)

theorem Holds.of_keeps {gone : String → Prop} (h : Holds env σ) (hkeeps : Keeps gone env env')
    (hsame : ∀ name, ¬ gone name → σ' name = σ name) : Holds env' σ' := by
  intro name fact hfact
  rcases hkeeps name fact hfact with rfl | ⟨hold, hname, horigin⟩
  · trivial
  · have hmeant := h name fact hold
    cases fact with
    | undef => exact hmeant.elim
    | known origin =>
        exact (hsame name hname).trans (hmeant.trans (hsame origin (horigin origin rfl)).symm)
    | nac => trivial

/-! ## Writes -/

theorem Keeps.refl (env : Copies) : Keeps (fun _ => False) env env :=
  fun _ _ hfact => .inr ⟨hfact, id, fun _ _ => id⟩

theorem Keeps.trans {gone gone' : String → Prop} {env'' : Copies} (h : Keeps gone env env')
    (h' : Keeps gone' env' env'') : Keeps (fun name => gone name ∨ gone' name) env env'' := by
  intro name fact hfact
  rcases h' name fact hfact with hnac | ⟨hfact', hname', horigin'⟩
  · exact .inl hnac
  · rcases h name fact hfact' with hnac | ⟨hfact'', hname, horigin⟩
    · exact .inl hnac
    · exact .inr ⟨hfact'', fun hgone => hgone.elim hname hname',
        fun origin heq hgone => hgone.elim (horigin origin heq) (horigin' origin heq)⟩

theorem keeps_overwrite (henv : Indexed env) (name : String) :
    Keeps (· = name) env (env.overwrite name) := by
  intro other fact hfact
  rw [get?_facts_overwrite] at hfact
  split at hfact
  · exact .inl (Option.some.inj hfact).symm
  · rename_i hother
    rw [not_or] at hother
    refine .inr ⟨hfact, hother.1, ?_⟩
    rintro origin rfl rfl
    exact hother.2 ((henv origin other).2 hfact)

theorem keeps_foldl_overwrite (henv : Indexed env) (names : List String) :
    Keeps (· ∈ names) env (names.foldl overwrite env) := by
  induction names generalizing env with
  | nil =>
      intro name fact hfact
      exact .inr ⟨hfact, List.not_mem_nil, fun _ _ => List.not_mem_nil⟩
  | cons n ns ih =>
      have hfirst := keeps_overwrite henv n
      have hrest := ih (henv.overwrite n)
      intro name fact hfact
      simpa only [List.mem_cons] using hfirst.trans hrest name fact hfact

theorem keeps_afterCall (henv : Indexed env) :
    Keeps (fun name => ¬ env.locals.contains name = true) env env.afterCall := by
  intro name fact hfact
  rcases keeps_foldl_overwrite henv env.exposed.keys name fact hfact with
    hnac | ⟨hfact, hname, horigin⟩
  · exact .inl hnac
  · have hexposed : ∀ n, n ∈ env.facts.keys ∨ n ∈ env.index.keys →
        n ∉ env.exposed.keys → ¬ ¬ env.locals.contains n = true := by
      intro n hmem hnot hother
      refine hnot ?_
      rw [exposed, NameSet.mem_keys_ofList, List.mem_filter, List.mem_append]
      exact ⟨hmem, by simpa using hother⟩
    refine .inr ⟨hfact, hexposed name (.inl ?_) hname, ?_⟩
    · rw [NameMap.mem_keys, hfact]
      rfl
    · rintro origin rfl
      refine hexposed origin (.inr ?_) (horigin origin rfl)
      obtain ⟨set, hset, -⟩ := mem_copies_iff.1 ((henv origin name).2 hfact)
      rw [NameMap.mem_keys, hset]
      rfl

/-! ## Statements -/

theorem value_resolve (h : Holds env σ) (v : Value) :
    m.value σ (env.resolve v) = m.value σ v := by
  cases v with
  | id name =>
      unfold resolve
      dsimp only
      cases horigin : env.origin? name with
      | none => rfl
      | some origin => exact (h name _ (origin?_eq_some_iff.1 horigin)).symm
  | _ => rfl

theorem Holds.root (h : Holds env σ) (source : String) : σ (env.root source) = σ source := by
  unfold Copies.root
  cases horigin : env.origin? source with
  | none => rfl
  | some origin => exact (h source _ (origin?_eq_some_iff.1 horigin)).symm

theorem Holds.copyFrom (h : Holds env σ) (henv : Indexed env) (name source : String) :
    Holds (env.copyFrom name source) (Function.update σ name (σ source)) := by
  have hroot := h.root source
  rw [copyFrom_eq]
  split
  · rename_i heq
    -- `source` comes from `name` itself, which had its value already
    rw [heq] at hroot
    rw [← hroot, Function.update_eq_self]
    exact h
  · rename_i hne
    have hover : Holds (env.overwrite name) (Function.update σ name (σ source)) :=
      h.of_keeps (keeps_overwrite henv name) fun other hother => Function.update_of_ne hother _ _
    intro other fact hfact
    dsimp only at hfact
    rw [NameMap.get?_insert] at hfact
    split at hfact
    · rename_i heq
      subst heq
      obtain rfl := Option.some.inj hfact
      calc Function.update σ other (σ source) other
          = σ source := Function.update_self _ _ _
        _ = σ (env.root source) := hroot.symm
        _ = Function.update σ other (σ source) (env.root source) :=
            (Function.update_of_ne hne _ _).symm
    · exact hover other fact hfact

theorem Holds.after (h : Holds env σ) (henv : Indexed env) (hlocals : env.locals = ctx.locals)
    (s : Stmt) (history : History V) :
    Holds (env.after s) (m.exec ctx s σ history).store := by
  have hlocal : ∀ other, ¬ ¬ env.locals.contains other = true → ctx.isLocal other = true := by
    intro other hother
    unfold Context.isLocal
    rw [← hlocals]
    exact Classical.not_not.1 hother
  unfold Copies.after
  split
  · rename_i name source
    have hstore : (m.exec ctx (.assign name (.value (.id source))) σ history).store =
        Function.update σ name (σ source) := rfl
    rw [hstore]
    split
    · rename_i heq
      rw [heq, Function.update_eq_self]
      exact h
    · exact h.copyFrom henv name source
  · rename_i name e hcopy
    have hname : ∀ {other}, other ≠ name → ∀ e', Stmt.assign name e ≠ .assign other e' :=
      fun hne e' heq => hne (Stmt.assign.inj heq).1.symm
    split
    · have hcalled := (keeps_overwrite henv name).trans (keeps_afterCall (henv.overwrite name))
      rw [locals_overwrite] at hcalled
      refine h.of_keeps hcalled fun other hother => ?_
      rw [not_or] at hother
      exact Machine.store_exec (hname hother.1) fun _ => hlocal other hother.2
    · rename_i hcall
      refine h.of_keeps (keeps_overwrite henv name) fun other hother => ?_
      exact Machine.store_exec (hname hother) fun hcalled => absurd hcalled hcall
  · rename_i e
    have hname : ∀ {other} e', Stmt.expr e ≠ .assign other e' := fun e' heq => nomatch heq
    split
    · refine h.of_keeps (keeps_afterCall henv) fun other hother => ?_
      exact Machine.store_exec hname fun _ => hlocal other hother
    · rename_i hcall
      refine h.of_keeps (Keeps.refl env) fun other _ => ?_
      exact Machine.store_exec hname fun hcalled => absurd hcalled hcall
  · rename_i hassign hexpr
    refine h.of_keeps (Keeps.refl env) fun other _ => ?_
    refine Machine.store_exec (fun e heq => hassign other e heq) fun hcall => ?_
    cases s with
    | assign name e => exact absurd rfl (hassign name e)
    | expr e => exact absurd rfl (hexpr e)
    | _ => exact nomatch hcall

/-! ## The analysis -/

theorem locals_foldl_overwrite (env : Copies) (names : List String) :
    (names.foldl overwrite env).locals = env.locals := by
  induction names generalizing env with
  | nil => rfl
  | cons n ns ih => exact (ih _).trans (locals_overwrite env n)

theorem locals_after (env : Copies) (s : Stmt) : (env.after s).locals = env.locals := by
  unfold Copies.after
  split
  · split
    · rfl
    · rw [copyFrom_eq]
      split <;> rfl
  · split
    · exact (locals_foldl_overwrite _ _).trans (locals_overwrite _ _)
    · exact locals_overwrite _ _
  · split
    · exact locals_foldl_overwrite _ _
    · rfl
  · rfl

theorem sound (m : Machine V) (ctx : Context) :
    Sound m ctx (fun env : Copies => Indexed env ∧ env.locals = ctx.locals) Holds where
  entry_kept := ⟨indexed_ofFacts _ _, rfl⟩
  merge_kept a b ha hb := ⟨indexed_ofFacts _ _, ha.2⟩
  step_kept env s s' out henv hstep := by
    obtain ⟨-, rfl⟩ := Prod.mk.inj (Except.ok.inj hstep)
    exact ⟨henv.1.after _, (locals_after env _).trans henv.2⟩
  merge a b σ ha hb hsome := NameMap.Says.combine hsome
  same a b σ ha hb hsame h := by
    have hfacts : a.facts = b.facts := (FactBased.same_iff a b).1 hsame
    intro name fact hfact
    exact h name fact (hfacts ▸ hfact)
  exec_eq env s s' out σ history henv h hstep := by
    obtain ⟨rfl, -⟩ := Prod.mk.inj (Except.ok.inj hstep)
    exact Machine.exec_map (value_resolve h) s
  exec_holds env s s' out σ history henv h hstep hrun := by
    obtain ⟨rfl, rfl⟩ := Prod.mk.inj (Except.ok.inj hstep)
    exact h.after henv.1 henv.2 _ history

theorem holds_entry (ctx : Context) (σ : Store V) : Holds (entry ctx) σ := by
  intro name fact hfact
  have hget : (entry ctx).facts.get? name = _ := NameMap.get?_ofNames _ _ name
  rw [hget] at hfact
  split at hfact
  · obtain rfl : Fact.nac = fact := Option.some.inj hfact
    trivial
  · exact nomatch hfact

/-! ## Bodies -/

/-- Whenever a body is simplified, the result runs in step with it: after every number
of steps both are at the same place of the same block or have returned the same value,
all variables are equal, and so far both have asked for the same things with the same
operands.  The next statement of the result is that of the body with its operands
replaced, and each replacement has the value that the operand has at that time. -/
theorem copies_keep_meaning (m : Machine V) (scope : String) (ctx : Context)
    (body body' : List Block) (σ : Store V) (fuel : Nat) (hends : EndsLast body)
    (h : simplify Copies fuel scope ctx body = .ok body') (steps : Nat) :
    m.after ctx body' σ steps = m.after ctx body σ steps ∧
      ∀ label index b s, (m.after ctx body σ steps).place = .inside label index →
        body.find? (fun b => b.label = label) = some b → b.stmts[index]? = some s →
        ∃ b' f, body'.find? (fun b => b.label = label) = some b' ∧
          b'.stmts[index]? = some (s.map f) ∧
          ∀ v, m.value (m.after ctx body σ steps).store (f v) =
            m.value (m.after ctx body σ steps).store v := by
  obtain ⟨sol, hrun⟩ := follows_after (sound m ctx) hends h (holds_entry ctx σ)
  obtain ⟨hequal, hfollows⟩ := hrun steps
  refine ⟨hequal, fun label index b s hplace hfind hs => ?_⟩
  obtain ⟨b', s', env, out, hfind', hs', -, hholds, hstep⟩ :=
    hfollows.exists_step hplace hfind hs
  obtain ⟨rfl, -⟩ := Prod.mk.inj (Except.ok.inj hstep)
  exact ⟨b', env.resolve, hfind', hs', value_resolve hholds⟩

/-- A body that passes a parameter on through two copies. -/
def relayBody : List Block :=
  [⟨"entry",
    [.assign "b" (.value (.id "a")), .assign "c" (.value (.id "b")), .ret (.id "c")]⟩]

def relayContext : Context :=
  ⟨[], [⟨"a", .int⟩, ⟨"b", .int⟩, ⟨"c", .int⟩], NameSet.ofList ["a", "b", "c"]⟩

theorem copies_keep_meaning_relay :
    EndsLast relayBody ∧
      simplify Copies 2 "relay" relayContext relayBody =
        .ok [⟨"entry",
          [.assign "b" (.value (.id "a")), .assign "c" (.value (.id "a")), .ret (.id "a")]⟩] ∧
      ∀ (σ : Store Value) steps, Machine.ofLiterals.after relayContext
          [⟨"entry",
            [.assign "b" (.value (.id "a")), .assign "c" (.value (.id "a")), .ret (.id "a")]⟩]
          σ steps =
        Machine.ofLiterals.after relayContext relayBody σ steps := by
  have hends : EndsLast relayBody := by decide
  have hsimplify : simplify Copies 2 "relay" relayContext relayBody =
      .ok [⟨"entry",
        [.assign "b" (.value (.id "a")), .assign "c" (.value (.id "a")), .ret (.id "a")]⟩] := rfl
  exact ⟨hends, hsimplify, fun σ steps => (copies_keep_meaning Machine.ofLiterals "relay"
    relayContext relayBody _ σ 2 hends hsimplify steps).1⟩

end Midend.Copies
