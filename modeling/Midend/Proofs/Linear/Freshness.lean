import Midend.Proofs.Linear.Temporaries
/-!
# Names of temporaries

The temporaries of a program are numbered without gaps, from 1 for each base, whatever names the
program itself uses.  So a name of the source is that of a temporary exactly when it is one of
these, and the statements of a body assign no other variables than temporaries of the body and what
its scope assigns (`flatten_fresh`).
-/

namespace Midend.Linear

open NameSupply (IsGenerated generatedBases numbered)
open Midend.Tree (mentioned written)
open Build Code

def Scope.identifiers (sc : Scope) : List String := sc.names ++ mentioned sc.nodes

/-- The name is numbered behind one of the bases, where so many numbers of each base are used. -/
def MadeUp (drawn : String → Nat) (x : String) : Prop :=
  ∃ base ∈ generatedBases, ∃ n, 1 ≤ n ∧ n ≤ drawn base ∧ x = numbered base n

section Freshness

variable {p : Tree.Program} {sc : Scope} {m : Flow.Method} {classes : List Flow.Class}
  {s s' : State} {x : String}

/-- A method declares temporaries numbered between two states and the variables of its scope, and
assigns nothing but these temporaries and what its scope assigns. -/
theorem Implements.temporaries (h : Implements sc s classes s' m) :
    ∃ own, m.declared = own ++ sc.decls.map (·.name) ∧
      (∀ x ∈ own, ∃ base ∈ generatedBases, ∃ n,
        s.names.next base ≤ n ∧ n < s'.names.next base ∧ x = numbered base n) ∧
      ∀ x ∈ m.assigned, x ∈ own ∨ x ∈ written sc.nodes := by
  obtain @⟨label, s₁, s₁', code, k, hcode, -, hbefore, hbehind, hbody, hdecls, -⟩ := h
  refine ⟨code.declared, decls_names hdecls, fun x hx => ?_, fun x hx => ?_⟩
  · obtain ⟨base, hbase, n, rfl⟩ := hcode.carries.generated x hx
    obtain ⟨base', n', hbase', heq, hlow, hhigh⟩ :=
      hcode.shaped.draws.made _ (List.mem_append_right _ (List.mem_append_left _ hx))
    obtain ⟨rfl, rfl⟩ :=
      NameSupply.numbered_inj (NameSupply.unnumbered_of_generated hbase) hbase' heq
    exact ⟨base, hbase, n, Nat.le_trans (hbefore.names base) hlow,
      Nat.lt_of_lt_of_le hhigh (hbehind.names base), rfl⟩
  · obtain ⟨b, hb, hx⟩ := List.mem_flatMap.1 hx
    obtain ⟨stmt, hstmt, hx⟩ := List.mem_flatMap.1 hx
    rw [hbody] at hb
    exact ((hcode.carries.fits stmt (emit_mem_of_blocks hb hstmt)).writes x hx).symm

theorem next_of_start {catalog : Catalog} {label : Flow.Label} {s₁ s₂ : State}
    (hlabel : Builds (fresh "$startProg") ⟨catalog, .empty, []⟩ label s₁)
    (henter : Builds (enterAll p) s₁ () s₂) {base : String} (hbase : base ∈ generatedBases) :
    s₂.names.next base = 1 := by
  obtain ⟨_, rfl⟩ := builds_enterAll henter
  exact (quiet_fresh hlabel (by decide)).temporaries base hbase

/-- The bodies of a program declare the temporaries that are made up for it, each of them once, and
variables of the source.  Every body assigns only temporaries that are its own, and what its scope
assigns.  So where a name of a scope is not made up, it is that of no temporary, and only statements
that stem from the scope assign it. -/
theorem flatten_fresh {catalog catalog' : Catalog} {flow : Flow.Program}
    (hflow : flatten catalog p = (.ok flow, catalog')) :
    ∃ drawn made, made.Nodup ∧ (∀ x, x ∈ made ↔ MadeUp drawn x) ∧
      Declares p made (flow.methods.flatMap Flow.Method.declared) ∧
      ∀ sc, ScopeOf p sc → ∃ m, IsBody flow sc m ∧
        (∃ own, own ⊆ made ∧ m.declared = own ++ sc.decls.map (·.name) ∧
          ∀ x ∈ m.assigned, x ∈ own ∨ x ∈ written sc.nodes) ∧
        ∀ x ∈ sc.identifiers, ¬ MadeUp drawn x →
          x ∉ made ∧ (x ∈ m.assigned → x ∈ written sc.nodes) := by
  obtain ⟨-, st, hrun⟩ := flatten_eq_ok hflow
  obtain ⟨label, s₁, s, _, _, s', _, _, _, _, _, _, hlabel, henter, hphases, -⟩ :=
    (flattens_program hrun).phases rfl
  obtain ⟨made, hmade, hdeclares⟩ := hphases.numbers
  have hmem : ∀ x, x ∈ made ↔ MadeUp (fun base => s'.names.next base - 1) x := by
    intro x
    refine (hmade.mem_iff x).trans (exists_congr fun base => and_congr_right fun hbase =>
      exists_congr fun n => ?_)
    have hstart := next_of_start hlabel henter hbase
    have hend := hmade.le base hbase
    dsimp only
    rw [← and_assoc, ← and_assoc]
    exact and_congr_left fun _ => by omega
  refine ⟨_, made, hmade.nodup, hmem, hdeclares, fun sc hsc => ?_⟩
  obtain ⟨m, hholds, himplements⟩ := hphases.holds hsc
  obtain ⟨own, hdeclared, hown, hassigned⟩ := himplements.temporaries
  have hsub : own ⊆ made := fun x hx => (hmade.mem_iff x).2 (hown x hx)
  refine ⟨m, ⟨hholds, s, s', himplements⟩, ⟨own, hsub, hdeclared, hassigned⟩, fun x _ hx => ?_⟩
  have hother : x ∉ made := fun hx' => hx ((hmem x).1 hx')
  exact ⟨hother, fun hx' => (hassigned x hx').resolve_left fun hx' => hother (hsub hx')⟩

end Freshness

/-- In a program with two conditionals and a call, no name of a scope is that of a temporary. -/
theorem flatten_fresh_choosing :
    ∃ drawn made, made.Nodup ∧ (∀ x, x ∈ made ↔ MadeUp drawn x) ∧
      Declares choosing made ((blocksOf .empty choosing).methods.flatMap Flow.Method.declared) ∧
      ∀ sc, ScopeOf choosing sc → ∃ m, IsBody (blocksOf .empty choosing) sc m ∧
        ∀ x ∈ sc.identifiers, x ∉ made ∧ (x ∈ m.assigned → x ∈ written sc.nodes) := by
  have hok : (flatten .empty choosing).1.toOption.isSome = true := by decide +kernel
  obtain ⟨drawn, made, hnodup, hmade, hdeclares, hbodies⟩ := flatten_fresh (flatten_eq_blocksOf hok)
  refine ⟨drawn, made, hnodup, hmade, hdeclares, fun sc hsc => ?_⟩
  obtain ⟨m, hbody, -, hnames⟩ := hbodies sc hsc
  refine ⟨m, hbody, fun x hx => hnames x hx ?_⟩
  rintro ⟨base, hbase, n, -, -, rfl⟩
  exact unreserved_choosing sc hsc _ hx ⟨base, hbase, n, rfl⟩

/-- The program `print(2 + 3); print(valname1)`, with 1 in the variable `valname1`. -/
def capturing : Tree.Program :=
  let sum : Tree.Expr :=
    .binary integer .plus (.literal integer (.num 2)) (.literal integer (.num 3))
  ⟨[], [⟨"valname1", .int, .num 1⟩], [],
    [.expr ⟨1, 1, 0⟩ (.builtin1 integer "print" sum),
      .expr ⟨1, 1, 0⟩ (.builtin1 integer "print" (.id integer "valname1"))]⟩

/-- Nothing in the program assigns its variable `valname1`, but the sum is kept under this name.  So
the variable is declared twice, and is printed as 5 and not as 1. -/
theorem flatten_fresh_captured :
    (flatten .empty capturing).1.toOption.isSome = true ∧ ScopeOf capturing (.ofProgram capturing) ∧
      "valname1" ∈ (Scope.ofProgram capturing).identifiers ∧
      "valname1" ∉ written (Scope.ofProgram capturing).nodes ∧
      (blocksOf .empty capturing).main.declared = ["valname1", "valname1"] ∧
      "valname1" ∈ (blocksOf .empty capturing).main.assigned ∧
      let ctx :=
        Optimization.topLevelContext (flatten .empty capturing).2 (blocksOf .empty capturing)
      let run := Flow.Machine.ofLiterals.after ctx (blocksOf .empty capturing).body fun _ => .num 1
      (run 0).store "valname1" = .num 1 ∧ (run 2).store "valname1" = .num 5 ∧
        Flow.Machine.next? (blocksOf .empty capturing).body (run 2) =
          some (.expr (.builtin1 "print" (.id "valname1"))) := by
  refine ⟨by decide +kernel, .topLevel, ?_⟩
  decide +kernel

end Midend.Linear
