import Midend.Proofs.Linear.Evaluation
/-!
# Connectives

The connectives `and` and `or` are operations on two values like any other: no branch depends on
the value of the left operand.  A run that is through with the left operand goes on with the right
one, and comes to the operation unless a statement of the right operand stops it
(`flatten_connectives`).

A run that enters the code of an expression leaves it at its end only, because no statement of it
returns from the body (`through_or_stopped`).
-/

namespace Midend.Flow

deriving instance DecidableEq for Place

end Midend.Flow

namespace Midend.Linear

open Midend.Flow (Label Machine Place Stmt Store Value)
open Build Code

/-! ## Code without returns -/

def isStaying : Item → Bool
  | .emit (.ret _) => false
  | _ => true

def Part.ofExpr : Part → Bool
  | .expr _ | .value _ | .values _ | .object _ _ | .filter _ _ => true
  | _ => false

/-- By induction on how the part is flattened.  The statements of a lambda go into a class of its
own and not into the code. -/
theorem Flattens.isStaying {part : Part} {s s' : State} {code : Code} {k : List Flow.Class}
    {r : Result} (h : Flattens part s code k r s') (hpart : part.ofExpr = true) :
    code.all isStaying = true := by
  induction h with
  | literal n value s | id n name s => rfl
  | binary n op _ _ ihleft ihright =>
      rw [List.all_append, List.all_append, ihleft rfl, ihright rfl]
      split <;> rfl
  | unary n op _ ih | builtin1 n name _ ih => exact ih rfl
  | builtin2 n name _ _ ihleft ihright =>
      rw [List.all_append, ihleft rfl, ihright rfl]
      rfl
  | call n _ _ ihcallee ihargs =>
      rw [List.all_append, List.all_cons, ihcallee rfl, ihargs rfl]
      rfl
  | lookup n _ _ _ ih =>
      rw [List.all_append, ih rfl]
      rfl
  | methodCall n _ _ _ ihobj ihargs =>
      rw [List.all_append, List.all_cons, ihobj rfl, ihargs rfl]
      rfl
  | construct n _ ih => exact ih rfl
  | listComp n elem _ _ _ _ _ _ _ _ ihiterable ihfilter ihitem =>
      simp [round, Linear.temporary, Code.guardObject, Code.guard, Linear.isStaying, ihiterable rfl,
        ihfilter rfl, ihitem rfl]
  | ifExpr n _ _ _ _ _ _ _ ihcond ihtrue ihfalse =>
      simp [choice, Linear.isStaying, ihcond rfl, ihtrue rfl, ihfalse rfl]
  | lambda n _ _ _ _ _ _ ih => exact ih rfl
  | settled _ ih => exact ih rfl
  | temporary _ _ _ ih =>
      rw [List.all_append, ih rfl]
      rfl
  | noValues s => rfl
  | moreValues _ _ ihe ihes =>
      rw [List.all_append, ihe rfl, ihes rfl]
      rfl
  | object _ _ _ _ => simp [objectCode, Linear.isStaying]
  | noFilter test s => rfl
  | filter _ _ ih =>
      rw [List.all_append, ih rfl]
      rfl
  | _ => exact absurd hpart Bool.false_ne_true

theorem Sealed.behind {done rest : Code} {target : Label}
    (h : Sealed (done ++ .mark target :: rest)) : Sealed rest := by
  generalize hcode : done ++ .mark target :: rest = code at h
  induction h generalizing done with
  | nil => exact absurd hcode (List.append_ne_nil_of_right_ne_nil _ (List.cons_ne_nil _ _))
  | declare name ty _ ih | emit _ _ ih =>
      cases done with
      | nil => exact nomatch hcode
      | cons item done => exact ih (List.cons.inj hcode).2
  | leave _ hrest ih =>
      -- the label may be the one right behind the statement
      match done with
      | [] => exact nomatch hcode
      | [_] =>
          obtain ⟨-, rfl⟩ := List.cons.inj (List.cons.inj hcode).2
          exact hrest
      | _ :: _ :: done => exact ih (List.cons.inj (List.cons.inj hcode).2).2

/-! ## Runs through a region -/

section Runs

variable {V : Type} {m : Machine V} {ctx : Context} {label : Label}
  {code front region back : Code} {σ : Store V} {k n : Nat}

/-- The run is in the region, or right behind it, and what it has before it there is sealed. -/
def Amid (label : Label) (code region back : Code) (place : Place V) : Prop :=
  ∃ done todo, region = done ++ todo ∧ Sealed todo ∧ Before label code (todo ++ back) place

variable (m ctx) in
/-- A run in the region is right behind it, or does a statement of the region and stays in it or
stops.  By induction on what it has before it. -/
theorem Amid.step (hnodup : (label :: code.marks).Nodup) (hcode : code = front ++ (region ++ back))
    (hsealed : Sealed region) (hresolves : Resolves [] region)
    (hstaying : region.all isStaying = true) {c : Flow.Config V}
    (h : Amid label code region back c.place) :
    Before label code back c.place ∨ (∃ s rest, .emit s ∈ region ∧
      Before label code (.emit s :: rest) c.place) ∧
      ((m.step ctx (code.blocks label) c).place = .stopped ∨
        Amid label code region back (m.step ctx (code.blocks label) c).place) := by
  obtain ⟨done, todo, hregion, htodo, hb⟩ := h
  induction htodo generalizing done with
  | nil => exact .inl hb
  | declare name ty _ ih => exact ih (done ++ [.declare name ty]) (by simp [hregion]) hb.declare
  | @emit s rest hends hrest ih =>
      have hmem : .emit s ∈ region := by simp [hregion]
      obtain ⟨l, i, hstep, hnext⟩ := hb.emit m ctx hnodup
      refine .inr ⟨⟨s, _, hmem, hb⟩, ?_⟩
      rw [hstep]
      rcases Machine.exec_of_inner hends with hcontrol | hcontrol <;> rw [hcontrol]
      · exact .inr ⟨done ++ [.emit s], rest, by simp [hregion], hrest, hnext⟩
      · exact .inl rfl
  | @leave s next rest hends hrest ih =>
      have hmem : .emit s ∈ region := by simp [hregion]
      obtain ⟨l, i, hstep, -⟩ := hb.emit m ctx hnodup
      refine .inr ⟨⟨s, _, hmem, hb⟩, ?_⟩
      rw [hstep]
      cases hcontrol : (m.exec ctx s c.store c.history).control with
      | next => exact nomatch hends.symm.trans (Machine.exec_eq_next hcontrol)
      | goto target =>
          have htarget := targets_subset hregion (Machine.exec_eq_goto hcontrol).2
          obtain ⟨done', todo', hregion'⟩ :=
            exists_mark ((hresolves target htarget).resolve_right List.not_mem_nil)
          refine .inr ⟨done' ++ [.mark target], todo', by simp [hregion'],
            (hregion' ▸ hsealed).behind, Before.of_mark ⟨front ++ done', ?_⟩⟩
          rw [hcode, hregion']
          simp
      | returned v =>
          obtain ⟨operand, rfl⟩ := Machine.exec_eq_returned hcontrol
          exact nomatch List.all_eq_true.1 hstaying _ hmem
      | stopped => exact .inl rfl

/-- A run that has come to the start of a region is on its way through it, or has come through to
the code behind, or has been stopped by a statement of the region. -/
theorem through_or_stopped (hnodup : (label :: code.marks).Nodup)
    (hcode : code = front ++ (region ++ back)) (hsealed : Sealed region)
    (hresolves : Resolves [] region) (hstaying : region.all isStaying = true)
    (hstart : Before label code (region ++ back) (m.after ctx (code.blocks label) σ k).place)
    (hle : k ≤ n) :
    Through m ctx label code region back σ k n ∧
        Amid label code region back (m.after ctx (code.blocks label) σ n).place ∨
      ∃ t ≤ n, Through m ctx label code region back σ k t ∧
        (Before label code back (m.after ctx (code.blocks label) σ t).place ∨
          (m.after ctx (code.blocks label) σ t).place = .stopped) := by
  induction hle with
  | refl =>
      refine .inl ⟨⟨Nat.le_refl k, hstart, fun t hlow hhigh => ?_⟩, [], region, rfl, hsealed,
        hstart⟩
      exact absurd hhigh (Nat.not_lt.2 hlow)
  | @step n _ ih =>
      rcases ih with ⟨hthrough, hamid⟩ | ⟨t, ht, hdone⟩
      · rcases hamid.step m ctx hnodup hcode hsealed hresolves hstaying with
          hb | ⟨⟨s, rest, hs, hb⟩, hnext⟩
        · exact .inr ⟨n, Nat.le_succ n, hthrough, .inl hb⟩
        · rw [← Machine.after_succ] at hnext
          have hthrough' := hthrough.step hs hb
          rcases hnext with hstopped | hamid'
          · exact .inr ⟨n + 1, Nat.le_refl _, hthrough', .inr hstopped⟩
          · exact .inl ⟨hthrough', hamid'⟩
      · exact .inr ⟨t, Nat.le_succ_of_le ht, hdone⟩

end Runs

/-! ## Operands that are both evaluated -/

/-- Two operands are evaluated one behind the other in every run, whatever their values are. -/
structure EvaluatesBoth (ctx : Context) (label : Label) (front left right back : Code) : Prop where
  /-- A run that is through with the left operand does the statements of the right one, until it
  comes to the code behind or one of these statements stops it. -/
  onward : ∀ (V : Type) (machine : Machine V) σ k n,
    let code := front ++ (left ++ (right ++ back))
    let run := machine.after ctx (code.blocks label) σ
    Before label code (right ++ back) (run k).place → k ≤ n →
      Through machine ctx label code right back σ k n ∨
        ∃ t ≤ n, Through machine ctx label code right back σ k t ∧
          (Before label code back (run t).place ∨ (run t).place = .stopped)
  /-- A run that comes to the code behind has come through the left operand and then through the
  right one. -/
  through : ∀ (V : Type) (machine : Machine V) σ n,
    let code := front ++ (left ++ (right ++ back))
    let run := machine.after ctx (code.blocks label) σ
    Before label code back (run n).place →
      ∃ j k, Through machine ctx label code left (right ++ back) σ j k ∧
        Through machine ctx label code right back σ k n

theorem evaluatesBoth {label : Label} {front left right back : Code} (ctx : Context)
    (hnodup : (label :: marks (front ++ (left ++ (right ++ back)))).Nodup)
    (hleft : Resolves [] left) (hright : Resolves [] right) (hsealed : Sealed right)
    (hstaying : right.all isStaying = true) (houtside : Resolves [] (front ++ back)) :
    EvaluatesBoth ctx label front left right back := by
  have hcode : front ++ (left ++ (right ++ back)) = (front ++ left) ++ (right ++ back) :=
    (List.append_assoc _ _ _).symm
  have haround : Resolves [] (front ++ (right ++ back)) := houtside.insert hright
  have hbefore : Resolves [] ((front ++ left) ++ back) := by
    rw [List.append_assoc]
    exact houtside.insert hleft
  constructor
  · intro V machine σ k n code run hb hle
    exact (through_or_stopped hnodup hcode hsealed hright hstaying hb hle).imp_left And.left
  · intro V machine σ n code run hb
    have hresolves : Resolves [] code := haround.insert hleft
    obtain ⟨k, hthrough⟩ :=
      hb.through hnodup hresolves hcode hbefore (List.append_nil right).symm
    obtain ⟨j, hthrough'⟩ :=
      hthrough.start.through hnodup hresolves rfl haround (List.append_nil left).symm
    exact ⟨j, k, hthrough', hthrough⟩

theorem Used.next {behind : Code} {r : Flow.Expr} (h : Used (.operation r) behind .nothing)
    (hr : ∀ v, r ≠ .value v) :
    ∃ use, (cut behind).1.head? = some use ∧ use.operation? = some r := by
  cases h with
  | assigned name r rest _ => exact ⟨_, rfl, rfl⟩
  | kept name ty r rest _ => exact ⟨_, rfl, rfl⟩
  | run r rest _ => exact ⟨_, rfl, rfl⟩
  | settled v _ _ => exact absurd rfl (hr v)

section Connectives

variable {sc : Scope} {flow : Flow.Program} {n : Tree.Note} {op : BinOp} {left right : Tree.Expr}

theorem Implements.evaluatesBoth {m : Flow.Method} {s s' : State}
    (h : Implements sc s flow.classes s' m) (hholds : Holds flow sc.kind m)
    (hlabels : flow.checkLabels = .ok ()) (hnode : .expr (.binary n op left right) ∈ sc.nodes)
    (hop : op = .and ∨ op = .or) :
    ∃ label front c₁ c₂ back l r use, m.body = Code.blocks label (front ++ (c₁ ++ (c₂ ++ back))) ∧
      Evaluates left c₁ l ∧ Evaluates right c₂ r ∧ (cut back).1.head? = some use ∧
      use.operation? = some (.binary op l r) ∧ ∀ ctx, EvaluatesBoth ctx label front c₁ c₂ back := by
  obtain @⟨label, s₁, s₁', code, k, hcode, -, -, -, hbody, -, -⟩ := h
  obtain @⟨part, t₁, t₁', c, front, back, k₁, result, hpart, hflattens, hwithin, hused, -, -, -,
    hresolves, -⟩ := hcode.within hnode
  cases hpart with
  | expr e =>
      cases hflattens with
      | @binary _ _ _ _ _ _ _ c₁ c₂ _ _ l r hleft hright =>
          -- only divisions are checked
          have hplain : ¬ (op = .idiv ∨ op = .mod) := by rcases hop with rfl | rfl <;> decide
          have hpieces : code = front ++ (c₁ ++ (c₂ ++ back)) := by
            rw [hwithin, if_neg hplain]
            simp
          obtain ⟨use, hnext, huse⟩ := hused.next nofun
          have hnodup := hholds.nodup hlabels hbody
          rw [hpieces] at hbody hnodup
          exact ⟨label, front, c₁, c₂, back, l, r, use, hbody, ⟨_, _, _, hleft⟩, ⟨_, _, _, hright⟩,
            hnext, huse, fun ctx => Linear.evaluatesBoth ctx hnodup hleft.resolves hright.resolves
              hright.shaped.isSealed (hright.isStaying rfl) hresolves⟩

/-- The code of both operands of `and` and `or` stands in front of the operation.  In every run the
code of the right one is entered behind that of the left one, whatever the value of the left one
is, and gone through to the operation unless one of its statements stops the run. -/
theorem flatten_connectives {catalog catalog' : Catalog} {p : Tree.Program}
    (hflow : flatten catalog p = (.ok flow, catalog')) (hsc : ScopeOf p sc)
    (hnode : .expr (.binary n op left right) ∈ sc.nodes) (hop : op = .and ∨ op = .or) :
    ∃ m, IsBody flow sc m ∧ ∃ label front c₁ c₂ back l r use,
      m.body = Code.blocks label (front ++ (c₁ ++ (c₂ ++ back))) ∧
      Evaluates left c₁ l ∧ Evaluates right c₂ r ∧ (cut back).1.head? = some use ∧
      use.operation? = some (.binary op l r) ∧ ∀ ctx, EvaluatesBoth ctx label front c₁ c₂ back := by
  obtain ⟨hlabels, -⟩ := flatten_eq_ok hflow
  obtain ⟨_, _, s, s', -, -, hlowers, -⟩ := flatten_lowers hflow
  obtain ⟨m, hholds, himplements⟩ := hlowers.methods sc hsc
  exact ⟨m, ⟨hholds, s, s', himplements⟩, himplements.evaluatesBoth hholds hlabels hnode hop⟩

end Connectives

/-! ## A test for zero in front of a division -/

def truth : Tree.Note := ⟨.bool, ⟨1, 1, 0⟩⟩

def isZero : Tree.Expr :=
  .binary truth .eq (.id integer "b") (.literal integer (.num 0))

def isTenth : Tree.Expr :=
  .binary truth .eq (.binary integer .idiv (.literal integer (.num 10)) (.id integer "b"))
    (.literal integer (.num 1))

/-- The function `def f(b: int) -> bool: return b == 0 or 10 // b == 1`. -/
def testingFunction : Tree.Function :=
  ⟨"f", [⟨"b", .int⟩], .bool, [], [.ret ⟨1, 1, 0⟩ (.binary truth .or isZero isTenth)], [],
    ⟨1, 1, 0⟩⟩

def testing : Tree.Program := ⟨[testingFunction], [], [], []⟩

def testingScope : Scope := .ofFunction [] [] testingFunction

theorem scopeOf_testingScope : ScopeOf testing testingScope :=
  .function List.mem_cons_self (.self _ _ _)

theorem mem_nodes_testingScope :
    .expr (.binary truth .or isZero isTenth) ∈ testingScope.nodes := by
  simp [Scope.nodes, Scope.sources, testingScope, Scope.ofFunction, testingFunction,
    Tree.Stmt.nodesOf, Tree.Stmt.nodes, Tree.Expr.nodes]

/-- The division of `b == 0 or 10 // b == 1` is checked and done whatever `b` is. -/
theorem flatten_connectives_test :
    ∃ m, IsBody (blocksOf .empty testing) testingScope m ∧ ∃ label front c₁ c₂ back,
      m.body = Code.blocks label (front ++ (c₁ ++ (c₂ ++ back))) ∧
      (∃ l, Evaluates isZero c₁ l) ∧ (∃ r, Evaluates isTenth c₂ r) ∧
      EvaluatesBoth (Optimization.methodContext m) label front c₁ c₂ back := by
  have hok : (flatten .empty testing).1.toOption.isSome = true := by decide +kernel
  obtain ⟨m, hm, label, front, c₁, c₂, back, l, r, use, hbody, hleft, hright, -, -, hboth⟩ :=
    flatten_connectives (flatten_eq_blocksOf hok) scopeOf_testingScope mem_nodes_testingScope
      (.inr rfl)
  exact ⟨m, hm, label, front, c₁, c₂, back, hbody, ⟨l, hleft⟩, ⟨r, hright⟩, hboth _⟩

/-- A partner that has no result for the check of a divisor that is 0. -/
def checking : Machine Value :=
  { Machine.ofLiterals with
    answer := fun
      | [] => ⟨some .none, fun _ => none⟩
      | (request, _) :: _ =>
        ⟨if Tree.Aborts Machine.ofLiterals request then none else some .none, fun _ => none⟩ }

def testingStart : Store Value := fun name => if name = "b" then .num 0 else .none

/-- The function is called with 0 for `b`.  The left operand of `or` is true, which decides the
result, but the check of the right one is next and stops the run. -/
theorem flatten_connectives_decided :
    (flatten .empty testing).1.toOption.isSome = true ∧ ScopeOf testing testingScope ∧
      .expr (.binary truth .or isZero isTenth) ∈ testingScope.nodes ∧
      ∃ cls ∈ (blocksOf .empty testing).classes, ∃ m ∈ cls.methods,
        let run := checking.after (Optimization.methodContext m) m.body testingStart
        (∀ v ∈ m.decls, testingStart v.name = v.value) ∧
        Flow.Machine.next? m.body (run 4) =
          some (.assign "valname1" (.binary .eq (.id "b") (.num 0))) ∧
        (run 5).store "valname1" = .bool true ∧
        Flow.Machine.next? m.body (run 5) =
          some (.expr (.call "$check_zero" [.id "b", .word 1, .word 1])) ∧
        (run 6).place = .stopped := by
  refine ⟨by decide +kernel, scopeOf_testingScope, mem_nodes_testingScope, ?_⟩
  decide +kernel

end Midend.Linear
