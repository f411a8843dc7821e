import Midend.Proofs.Linear.Declarations
import Midend.Proofs.Linear.Evaluation
import Midend.Proofs.Linear.Supplies
/-!
# Temporaries are well defined

A temporary belongs to one body of a flattened program.  It is declared there once, without a value,
it is assigned by one statement, or by one on each way of a conditional, and on every path to a
statement that reads it it has been assigned (`flatten_defines_temporaries`).
-/

namespace Midend.Flow.Method

def assigned (m : Method) : List String := m.body.flatMap fun b => b.stmts.flatMap Stmt.writes

end Midend.Flow.Method

namespace Midend.Linear

open Midend.Flow (Label)
open NameSupply (IsGenerated generatedBases numbered)
open Midend.Tree (mentioned)
open Code

/-! ## Code of bodies -/

section Code

variable {sc : Scope} {s s' : State} {code : Code} {k : List Flow.Class} {label : Label}
  {left : List String} {x : String}

theorem BodyCode.prepares (h : BodyCode sc s code k s')
    (hplain : ∀ x ∈ mentioned sc.nodes, ¬ IsGenerated x) : Prepares [] [] code [] := by
  cases h with
  | plain h => exact h.prepares (.refl _) hplain
  | prologue hstart hprologue hbody =>
      have hcovers := Scope.covers_of_start hstart
      exact (hprologue.prepares hcovers.1 hplain).into (hbody.prepares hcovers.2 hplain)

theorem Stands.whole (hnodup : (label :: code.marks).Nodup) :
    Stands label code [] [] code [] where
  code_eq := by simp
  nodup := hnodup
  outside := .nil []
  outer := List.nil_subset _

theorem Prepares.assignsFirst (h : Prepares [] [] code left)
    (hnodup : (label :: code.marks).Nodup) (hx : IsGenerated x) :
    Flow.AssignsFirst (code.blocks label) x := by
  intro done b i s hpath hb hs hread
  obtain ⟨front, rest, hcode, hway, hspot⟩ := way_of_path hnodup h.resolves hpath
  obtain ⟨front', rest', hcode', hway', -⟩ := hway.at_statement hnodup hcode hspot hb hs
  have hreads := h.reads (.whole hnodup) fun x hx => absurd hx List.not_mem_nil
  exact hreads.at hcode' x hread hx done hway'

theorem value_of_mem_temporaries {t : Flow.Decl} (h : t ∈ code.temporaries) :
    t.value = .none := by
  obtain ⟨item, -, hitem⟩ := List.mem_filterMap.1 h
  cases item with
  | declare name ty => exact Option.some.inj hitem ▸ rfl
  | emit s => exact nomatch hitem
  | mark next => exact nomatch hitem

theorem filter_temporaries (hnodup : code.declared.Nodup) (hx : x ∈ code.declared) :
    ∃ ty, code.temporaries.filter (·.name = x) = [⟨x, ty, .none⟩] := by
  obtain ⟨t, ht, rfl⟩ := List.mem_map.1 hx
  have hvalue := value_of_mem_temporaries ht
  obtain ⟨before, behind, hlist⟩ := List.append_of_mem ht
  rw [declared, hlist, List.map_append, List.map_cons, List.nodup_middle, List.nodup_cons,
    ← List.map_append] at hnodup
  have hothers : (before ++ behind).filter (·.name = t.name) = [] :=
    List.filter_eq_nil_iff.2 fun t' ht' heq =>
      hnodup.1 (of_decide_eq_true heq ▸ List.mem_map_of_mem ht')
  rw [List.filter_append, List.append_eq_nil_iff] at hothers
  refine ⟨t.ty, ?_⟩
  rw [hlist, List.filter_append, hothers.1, List.filter_cons_of_pos (by simp), hothers.2, ← hvalue]
  rfl

end Code

/-! ## Methods -/

/-- The method defines a temporary with this base: it declares the variable once, without a value,
assigns it as often as it should, for a conditional on each way once, and has assigned it on every
path to a statement that reads it. -/
structure Defines (base x : String) (m : Flow.Method) : Prop where
  declared : ∃ ty, m.decls.filter (·.name = x) = [⟨x, ty, .none⟩]
  not_param : x ∉ m.params.map (·.name)
  assigned : m.assigned.count x = assignments base
  ways : base = conditionalBase → ∃ label code, m.body = Code.blocks label code ∧ InBothWays x code
  first : Flow.AssignsFirst m.body x

section Methods

variable {p : Tree.Program} {sc : Scope} {m : Flow.Method} {flow : Flow.Program} {s s' : State}
  {classes : List Flow.Class} {x : String}

theorem Implements.declared_of_mentioned (hfree : Unreserved p) (hsc : ScopeOf p sc)
    (h : Implements sc s classes s' m) (hx : IsGenerated x) (hmentions : x ∈ m.mentions) :
    x ∈ m.declared := by
  obtain @⟨label, s₁, s₁', code, k, hcode, -, -, -, hbody, hdecls, -⟩ := h
  obtain ⟨b, hb, hx'⟩ := List.mem_flatMap.1 hmentions
  obtain ⟨s, hs, hx'⟩ := List.mem_flatMap.1 hx'
  rw [hbody] at hb
  rcases hcode.carries.mentions hb hs hx' with hknown | hknown
  · exact absurd hx (hfree sc hsc x (List.mem_append_right _ hknown))
  · unfold Flow.Method.declared
    rw [decls_names hdecls]
    exact List.mem_append_left _ hknown

theorem Implements.defines (hfree : Unreserved p) (hsc : ScopeOf p sc)
    (hholds : Holds flow sc.kind m) (hlabels : flow.checkLabels = .ok ())
    (h : Implements sc s classes s' m) {base : String} (hbase : base ∈ generatedBases) (n : Nat)
    (hdeclared : numbered base n ∈ m.declared) : Defines base (numbered base n) m := by
  obtain @⟨label, s₁, s₁', code, k, hcode, -, -, -, hbody, hdecls, hparams⟩ := h
  have hgenerated : IsGenerated (numbered base n) := ⟨base, hbase, n, rfl⟩
  have hnames : ∀ x ∈ sc.names, ¬ IsGenerated x := fun x hx =>
    hfree sc hsc x (List.mem_append_left _ hx)
  have hprepares := hcode.prepares fun x hx => hfree sc hsc x (List.mem_append_right _ hx)
  have hown : numbered base n ∈ code.declared := by
    unfold Flow.Method.declared at hdeclared
    rw [decls_names hdecls] at hdeclared
    exact (List.mem_append.1 hdeclared).resolve_right fun hmem =>
      hnames _ (List.mem_append_right _ hmem) hgenerated
  refine ⟨?_, fun hmem => ?_, ?_, fun hcond => ?_, ?_⟩
  · have hothers : (sc.decls.map decl).filter (·.name = numbered base n) = [] := by
      refine List.filter_eq_nil_iff.2 fun v hv heq => ?_
      obtain ⟨v, hsource, rfl⟩ := List.mem_map.1 hv
      have hname : v.name = numbered base n := of_decide_eq_true heq
      exact hnames v.name (List.mem_append_right _ (List.mem_map_of_mem hsource))
        (hname ▸ hgenerated)
    rw [hdecls, List.filter_append, hothers, List.append_nil]
    exact filter_temporaries hcode.nodup_declared hown
  · rcases hparams.mem_names.1 hmem with ⟨-, hself⟩ | hparam
    · exact not_isGenerated_of_length (by decide) (hself ▸ hgenerated)
    · exact hnames _ (List.mem_append_left _ hparam) hgenerated
  · have hassigned : m.assigned = code.assigned := by
      unfold Flow.Method.assigned
      rw [hbody]
      exact assigned_cut code
    rw [hassigned, hprepares.assigns.counts base hbase n,
      List.count_eq_one_of_mem hcode.nodup_declared hown, Nat.mul_one]
  · subst hcond
    exact ⟨label, code, hbody, hprepares.assigns.ways n hown⟩
  · rw [hbody]
    exact hprepares.assignsFirst (hholds.nodup hlabels hbody) hgenerated

end Methods

/-! ## Whole programs -/

/-- Where a program uses no names of the form that temporaries have, the body that declares or
mentions one is the only one that does, and defines it. -/
theorem flatten_defines_temporaries {catalog catalog' : Catalog} {p : Tree.Program}
    {flow : Flow.Program} (hfree : Unreserved p)
    (hflow : flatten catalog p = (.ok flow, catalog')) {base : String}
    (hbase : base ∈ generatedBases) (n : Nat) {m : Flow.Method} {before behind : List Flow.Method}
    (hmethods : flow.methods = before ++ m :: behind)
    (hoccurs : numbered base n ∈ m.declared ∨ numbered base n ∈ m.mentions) :
    Defines base (numbered base n) m ∧
      ∀ m' ∈ before ++ behind, numbered base n ∉ m'.declared ∧ numbered base n ∉ m'.mentions := by
  obtain ⟨hlabels, st, hrun, -⟩ := flatten_eq_ok_iff.1 hflow
  obtain ⟨label, s₁, s₂, s₃, s₄, s₅, functions, classes, k₁, k₂, k₃, code, -, -, hphases, -⟩ :=
    (flattens_program hrun).phases rfl
  have hgenerated : IsGenerated (numbered base n) := ⟨base, hbase, n, rfl⟩
  have hdeclares : ∀ m ∈ flow.methods, numbered base n ∈ m.mentions →
      numbered base n ∈ m.declared := by
    intro m hm hmentions
    rcases hphases.scopes hm with ⟨-, l, hempty⟩ | ⟨sc, hsc, -, himplements⟩
    · rw [Flow.Method.mentions, hempty] at hmentions
      exact absurd hmentions List.not_mem_nil
    · exact himplements.declared_of_mentioned hfree hsc hgenerated hmentions
  have hm : m ∈ flow.methods := hmethods ▸ List.mem_append_right _ List.mem_cons_self
  have hdeclared : numbered base n ∈ m.declared := hoccurs.elim id (hdeclares m hm)
  constructor
  · rcases hphases.scopes hm with ⟨hempty, -⟩ | ⟨sc, hsc, hholds, himplements⟩
    · rw [Flow.Method.declared, hempty] at hdeclared
      exact absurd hdeclared List.not_mem_nil
    · exact himplements.defines hfree hsc hholds hlabels hbase n hdeclared
  · have hothers : ∀ m' ∈ before ++ behind, numbered base n ∉ m'.declared := by
      intro m' hm' hdeclared'
      have hcount := (hphases.handsOut hfree).count_le hgenerated
      have hthis := List.count_pos_iff.2 hdeclared
      have hother := List.count_pos_iff.2
        (List.mem_flatMap.2 ⟨m', hm', hdeclared'⟩ : _ ∈ (before ++ behind).flatMap _)
      rw [hmethods] at hcount
      simp only [List.flatMap_append, List.flatMap_cons, List.count_append] at hcount hother
      omega
    intro m' hm'
    have hmem : m' ∈ flow.methods := by
      rw [hmethods]
      exact List.mem_append.2 ((List.mem_append.1 hm').imp_right (List.mem_cons_of_mem _))
    exact ⟨hothers m' hm', fun hmentions => hothers m' hm' (hdeclares m' hmem hmentions)⟩

def boolean : Tree.Note := ⟨.bool, ⟨1, 1, 0⟩⟩

def yOrOne : Tree.Expr :=
  .lambda ⟨.callable [.int] .int, ⟨1, 1, 0⟩⟩ ["y"]
    (.ifExpr integer (.id boolean "c") (.id integer "y") (.literal integer (.num 1)))

/-- The source `print((lambda y: y if c else 1)(3) if c else 2)`, with a variable `c`. -/
def choosing : Tree.Program :=
  ⟨[], [⟨"c", .bool, .bool true⟩], [], [.expr ⟨1, 1, 0⟩ (.builtin1 integer "print"
    (.ifExpr integer (.id boolean "c") (.call integer yOrOne [.literal integer (.num 3)])
      (.literal integer (.num 2))))]⟩

def yOrOneScope : Scope :=
  .ofLambda [] ["y"] (.callable [.int] .int)
    (.ifExpr integer (.id boolean "c") (.id integer "y") (.literal integer (.num 1)))

theorem mem_scopes_choosing {sc : Scope} (h : ScopeOf choosing sc) :
    sc ∈ [.ofProgram choosing, yOrOneScope] := by
  induction h with
  | topLevel => exact List.mem_cons_self
  | function hf _ => exact nomatch hf
  | method hc => exact nomatch hc
  | methodFunction hc => exact nomatch hc
  | lambda _ hnode ih =>
      simp only [List.mem_cons, List.not_mem_nil, or_false] at ih
      rcases ih with rfl | rfl
      · simp [Scope.nodes, Scope.sources, Scope.ofProgram, choosing, yOrOne, Tree.Stmt.nodesOf,
          Tree.Stmt.nodes, Tree.Expr.nodes, Tree.Expr.nodesOf] at hnode
        obtain ⟨rfl, rfl, rfl⟩ := hnode
        exact List.mem_cons_of_mem _ List.mem_cons_self
      · simp [Scope.nodes, Scope.sources, yOrOneScope, Scope.ofLambda, Tree.Stmt.nodesOf,
          Tree.Stmt.nodes, Tree.Expr.nodes] at hnode

theorem unreserved_choosing : Unreserved choosing := by
  have hshort : ∀ sc ∈ [.ofProgram choosing, yOrOneScope],
      ∀ x ∈ sc.names ++ mentioned sc.nodes, x.length < 6 := by decide +kernel
  exact fun sc hsc x hx => not_isGenerated_of_length (hshort sc (mem_scopes_choosing hsc) x hx)

/-- The value of the outer conditional is in a temporary of the top level, and that of the inner one
in one of the lambda. -/
theorem flatten_defines_temporaries_choosing :
    Unreserved choosing ∧
      flatten .empty choosing = (.ok (blocksOf .empty choosing), (flatten .empty choosing).2) ∧
      numbered conditionalBase 1 ∈ (blocksOf .empty choosing).main.declared ∧
      Defines conditionalBase (numbered conditionalBase 1) (blocksOf .empty choosing).main ∧
      ∀ m ∈ (blocksOf .empty choosing).classes.flatMap (·.methods),
        numbered conditionalBase 1 ∉ m.declared ∧ numbered conditionalBase 1 ∉ m.mentions := by
  have hok : (flatten .empty choosing).1.toOption.isSome = true := by decide +kernel
  have hmethods : (blocksOf .empty choosing).methods = [] ++ (blocksOf .empty choosing).main ::
      (blocksOf .empty choosing).classes.flatMap (·.methods) := by
    rw [List.nil_append, Flow.Program.methods]
  have hdeclared : numbered conditionalBase 1 ∈ (blocksOf .empty choosing).main.declared := by
    decide +kernel
  obtain ⟨hdefines, halone⟩ := flatten_defines_temporaries unreserved_choosing
    (flatten_eq_blocksOf hok) (by decide) 1 hmethods (.inl hdeclared)
  rw [List.nil_append] at halone
  exact ⟨unreserved_choosing, flatten_eq_blocksOf hok, hdeclared, hdefines, halone⟩

end Midend.Linear
