import Midend.Proofs.Linear.Lambdas
/-!
# Lambdas in a session

Programs that are flattened one after another share a catalog, but each of them names its lambdas
anew.  So the object of a lambda denotes its own method where the name of its class is new, and
from there on for ever (`flatten_lambdas`).
-/

namespace Midend.Linear

open Midend.Flow (Label)
open Build Code

/-! ## Blocks -/

theorem exists_block_of_emits (label : Label) (before : Code) (stmts : List Flow.Stmt)
    (behind : Code) :
    ∃ b ∈ Code.blocks label (before ++ (stmts.map .emit ++ behind)), stmts <:+: b.stmts := by
  induction before generalizing label with
  | nil =>
      refine ⟨_, List.mem_cons_self, ?_⟩
      change stmts <:+: (cut (stmts.map .emit ++ behind)).1
      rw [cut_emits]
      exact (List.prefix_append _ _).isInfix
  | cons item before ih =>
      cases item with
      | emit s =>
          obtain ⟨b, hb, hstmts⟩ := ih label
          rcases List.mem_cons.1 hb with rfl | hb
          · exact ⟨_, List.mem_cons_self, hstmts.trans (List.suffix_cons s _).isInfix⟩
          · exact ⟨b, List.mem_cons_of_mem _ hb, hstmts⟩
      | mark next =>
          obtain ⟨b, hb, hstmts⟩ := ih next
          exact ⟨b, List.mem_cons_of_mem _ hb, hstmts⟩
      | declare name ty => exact ih label

end Midend.Linear

namespace Midend.Flow

/-- The method makes an object of a class and stores a word as its dispatch slot. -/
def Method.Makes (m : Method) (className : String) (slot : UInt32) : Prop :=
  ∃ t amount bitmap, ⟨t, .object className, .none⟩ ∈ m.decls ∧ ∃ b ∈ m.body,
    [.assign t (.alloc amount bitmap), .store (.id t) 0 (.word slot)] <:+: b.stmts

end Midend.Flow

namespace Midend.Linear

open Midend.Flow (Label)
open NameSupply (numbered)
open Build Code

theorem makes_of_objectCode {m : Flow.Method} {label : Label} {before behind : Code}
    {className t : String} {slot : Nat} {bitmap : UInt32} {layout : Layout}
    {decls : List Flow.Decl}
    (hbody : m.body = Code.blocks label
      (before ++ (objectCode className (.object className) slot bitmap layout t ++ behind)))
    (hdecls : m.decls = Code.temporaries (before ++
      (objectCode className (.object className) slot bitmap layout t ++ behind)) ++ decls) :
    m.Makes className (UInt32.ofNat slot) := by
  refine ⟨t, layout.length + 1, bitmap, ?_, ?_⟩
  · rw [hdecls]
    refine List.mem_append_left _ (List.mem_filterMap.2 ⟨.declare t (.object className), ?_, rfl⟩)
    exact List.mem_append_right _ (List.mem_append_left _ List.mem_cons_self)
  · rw [hbody]
    have hblock := exists_block_of_emits label (before ++ [.declare t (.object className)])
      [.assign t (.alloc (layout.length + 1) bitmap),
        .store (.id t) 0 (.word (UInt32.ofNat slot))]
    simpa [objectCode] using hblock _

/-! ## Sessions -/

/-- The catalog after flattening some programs one after another, with or without faults. -/
def catalogAfter (catalog : Catalog) (programs : List Tree.Program) : Catalog :=
  programs.foldl (fun c p => (flatten c p).2) catalog

theorem extends_catalogAfter (catalog : Catalog) (programs : List Tree.Program) :
    catalog.Extends (catalogAfter catalog programs) := by
  induction programs generalizing catalog with
  | nil => exact .refl catalog
  | cons p programs ih => exact (extends_flatten catalog p).trans (ih (flatten catalog p).2)

/-- A class of this name stands for a lambda: its method `apply` takes as many values as the
lambda, behind the receiver, and is the body of its scope. -/
def StandsFor (flow : Flow.Program) (name : String) (params : List String) (sc : Scope) : Prop :=
  ∃ cls ∈ flow.classes, cls.name = name ∧ ∃ m ∈ cls.methods,
    m.name = methodName name applyName ∧ m.params.length = params.length + 1 ∧ IsBody flow sc m

theorem Realized.standsFor {flow : Flow.Program} {name : String} {params outer : List String}
    {ty ret : Ty} {body : Tree.Expr} {k : List Flow.Class} {s s' : State}
    (h : Realized (lambdaClosure name (Scope.lambdaParams params ty) ret body) s k s')
    (hk : k ⊆ flow.classes) (hparams : (Scope.lambdaParams params ty).map (·.name) = params) :
    StandsFor flow name params (.ofLambda outer params ty body) := by
  obtain ⟨cls, hcls, hname, hfields, m, hm, hmethod, himplements⟩ :=
    h.apply (Scope.matches_lambda outer params ty ret name body) hk
  refine ⟨cls, hcls, hname, m, hm, hmethod, ?_, ⟨cls, hcls, hfields, hm⟩, s, s', himplements⟩
  obtain ⟨-, -, -, -, -, -, htakes⟩ := himplements
  obtain ⟨className, htakes⟩ := htakes
  rw [htakes, List.length_cons, ← congrArg List.length hparams, List.length_map]
  rfl

theorem StandsFor.occurs {flow : Flow.Program} {name : String} {params : List String} {sc : Scope}
    (h : StandsFor flow name params sc) : 0 < occurrences name flow.classes := by
  obtain ⟨cls, hcls, hname, -⟩ := h
  exact List.countP_pos_iff.2 ⟨cls, hcls, by simpa using hname⟩

/-- Where a program is flattened without a fault, the name of its next lambda is new unless the
catalog had it before or a class of the program has it. -/
theorem not_registered_next {p : Tree.Program} {s s₁ s₂ t : State} {label : Label}
    (hlabel : Builds (fresh "$startProg") s label s₁) (henter : Builds (enterAll p) s₁ () s₂)
    (hgrows : Grows s₂ t) {name : String} (hname : name = numbered "lambda" (t.names.next "lambda"))
    (hfresh : ¬ s.catalog.Registered name) (hdeclared : ∀ c ∈ p.classes, c.name ≠ name) :
    ¬ t.catalog.Registered name := by
  subst hname
  intro hregistered
  rcases hgrows.lambdas _ hregistered with hregistered | ⟨-, hhigh⟩
  · rcases registered_enterAll henter hregistered with hregistered | ⟨c, hc, hname⟩
    · rw [(builds_fresh hlabel).2.1] at hregistered
      exact hfresh hregistered
    · exact hdeclared c hc hname
  · exact Nat.lt_irrefl _ hhigh

/-- Every lambda gets a class of its own name, an object of which is made where the lambda stands.
Later programs leave the slot of this class as it is.  If the name was new to the catalog and to
the declared classes of the program, no other class of the program has it, and the word in the
object denotes the method of this class with as many parameters as the lambda has, then and after
all later programs.  If the catalog had the name before, the object gets the old slot. -/
theorem flatten_lambdas {catalog catalog' : Catalog} {p : Tree.Program} {flow : Flow.Program}
    (hflow : flatten catalog p = (.ok flow, catalog')) {sc : Scope} (hsc : ScopeOf p sc)
    {n : Tree.Note} {params : List String} {body : Tree.Expr}
    (hnode : .expr (.lambda n params body) ∈ sc.nodes) :
    ∃ name number slot, name = numbered "lambda" number ∧
      StandsFor flow name params (.ofLambda sc.inside params n.ty body) ∧
      (∃ m, IsBody flow sc m ∧ m.Makes name (UInt32.ofNat slot)) ∧
      (∀ later, (catalogAfter catalog' later).startOf name = .ok slot) ∧
      (∀ old, catalog.startOf name = .ok old → old = slot) ∧
      (¬ catalog.Registered name → (∀ c ∈ p.classes, c.name ≠ name) →
        occurrences name flow.classes = 1 ∧ ∀ later,
          (catalogAfter catalog' later).dispatch.length ≤ UInt32.size →
            (catalogAfter catalog' later).dispatch[(UInt32.ofNat slot).toNat]? =
              some ⟨methodName name applyName, params.length + 1⟩) := by
  have hextends : catalog.Extends catalog' := by
    have hextends := extends_flatten catalog p
    rwa [hflow] at hextends
  obtain ⟨label, s₁, s₂, s₃, hlabel, henter, hlowers, hcatalog⟩ := flatten_lowers hflow
  obtain ⟨m, hholds, himplements⟩ := hlowers.methods sc hsc
  have hmethod : IsBody flow sc m := ⟨hholds, s₂, s₃, himplements⟩
  obtain @⟨start, t, t', code, k, hcode, hk, hbefore, hbehind, hbody, hdecls, -⟩ := himplements
  obtain ⟨hpart, hflattens, hwithin, -, hclasses, hbefore', hbehind', -, -⟩ := hcode.within hnode
  cases hpart with
  | expr _ =>
      obtain ⟨name, ret, slot, bitmap, layout, t, hname, rfl, hrealized, hparams, hslot, hnew⟩ :=
        flattens_lambda hflattens
      have hlater : ∀ later, Catalog.Extends _ (catalogAfter catalog' later) := fun later =>
        (hbehind'.trans hbehind).catalog.trans
          ((hcatalog ▸ Catalog.extends_addGlobals _ _).trans (extends_catalogAfter _ later))
      have hstands : StandsFor flow name params (.ofLambda sc.inside params n.ty body) :=
        hrealized.standsFor (fun _ h => hk (hclasses h)) hparams
      refine ⟨name, _, slot, hname, hstands, ⟨m, hmethod, ?_⟩,
        fun later => (hlater later).starts name slot hslot, fun old hold => ?_,
        fun hfresh hdeclared => ⟨?_, fun later hlength => ?_⟩⟩
      · rw [hwithin] at hbody hdecls
        exact makes_of_objectCode hbody hdecls
      · exact Except.ok.inj ((hextends.starts name old hold).symm.trans
          ((hlater []).starts name slot hslot))
      · obtain ⟨-, st, hrun⟩ := flatten_eq_ok hflow
        have honce := (flattens_program hrun).occurrences_le rfl (hname ▸ hdeclared)
        rw [← hname] at honce
        exact Nat.le_antisymm honce hstands.occurs
      · have hentry := (hlater later).entry (hnew (not_registered_next hlabel henter
          (hbefore.trans hbefore') hname hfresh hdeclared))
        obtain ⟨hlt, -⟩ := List.getElem?_eq_some_iff.1 hentry
        rwa [UInt32.toNat_ofNat_of_lt' (Nat.lt_of_lt_of_le hlt hlength)]

def lambdaProgram (params : List String) : Tree.Program :=
  let loc : Location := ⟨1, 1, 0⟩
  ⟨[], [], [], [.expr loc (.lambda ⟨.callable (params.map fun _ => .int) .int, loc⟩ params
    (.literal ⟨.int, loc⟩ (.num 0)))]⟩

/-- The first lambda of a session denotes its method, whatever is flattened later. -/
theorem flatten_lambdas_first :
    ∃ name slot, occurrences name (blocksOf .empty (lambdaProgram [])).classes = 1 ∧
      (∃ m, IsBody (blocksOf .empty (lambdaProgram [])) (.ofProgram (lambdaProgram [])) m ∧
        m.Makes name (UInt32.ofNat slot)) ∧
      ∀ later, let catalog := catalogAfter (flatten .empty (lambdaProgram [])).2 later
        catalog.dispatch.length ≤ UInt32.size →
          catalog.dispatch[(UInt32.ofNat slot).toNat]? = some ⟨methodName name applyName, 1⟩ := by
  have hok : (flatten .empty (lambdaProgram [])).1.toOption.isSome = true := by decide +kernel
  have hnode : .expr (.lambda ⟨.callable [] .int, ⟨1, 1, 0⟩⟩ []
      (.literal ⟨.int, ⟨1, 1, 0⟩⟩ (.num 0))) ∈ (Scope.ofProgram (lambdaProgram [])).nodes :=
    List.mem_cons_of_mem _ List.mem_cons_self
  obtain ⟨name, -, slot, -, -, hmakes, -, -, hnew⟩ :=
    flatten_lambdas (flatten_eq_blocksOf hok) .topLevel hnode
  have hempty : ¬ Catalog.empty.Registered name := by
    rintro (h | h) <;> exact nomatch h
  obtain ⟨honce, hlater⟩ := hnew hempty fun c hc => absurd hc List.not_mem_nil
  exact ⟨name, slot, honce, hmakes, hlater⟩

/-- The lambda of a second program has the name of the first one, and its objects get the slot of
the first one, whose method has another number of parameters. -/
theorem flatten_lambdas_collide :
    let first := flatten .empty (lambdaProgram [])
    let second := flatten first.2 (lambdaProgram ["x"])
    first.1.toOption.isSome = true ∧ second.1.toOption.isSome = true ∧
      (∃ cls ∈ (blocksOf .empty (lambdaProgram [])).classes, cls.name = "lambda1" ∧
        ∃ m ∈ cls.methods, m.name = "lambda1$apply" ∧ m.params.length = 1) ∧
      (∃ cls ∈ (blocksOf first.2 (lambdaProgram ["x"])).classes, cls.name = "lambda1" ∧
        ∃ m ∈ cls.methods, m.name = "lambda1$apply" ∧ m.params.length = 2) ∧
      (∃ b ∈ (blocksOf first.2 (lambdaProgram ["x"])).body,
        .store (.id "newObj1") 0 (.word 0) ∈ b.stmts) ∧
      second.2.dispatch = [⟨"lambda1$apply", 1⟩] := by
  decide +kernel

end Midend.Linear
