import Midend.Proofs.Linear.Pieces
/-!
# Flattened expressions

What the code of an expression does: it evaluates the operands from left to right and leaves
at most one operation (`ExprCode`), or it also performs that one and leaves a value
(`ValueCode`).  The operand of an operation keeps its value while the code of later operands
runs, because that code writes only to temporaries drawn after it (`Settled`).
-/

namespace Midend.Linear

open Midend.Flow (Block Config History Label Machine Stmt Store Value)
open Midend.Tree (Oracle builtinCalls eval orFail)
open NameSupply (Draws IsTemporary Unnumbered)
open Build Code

/-! ## What the code does -/

def Settled (s : NameSupply) (v : Value) : Prop := ∀ x, v = .id x → ¬ s.Upcoming x

variable {V : Type} [DecidableEq V]

def Agrees (σ : Store V) (c : Config V) : Prop := ∀ x, ¬ IsTemporary x → c.store x = σ x

section Definitions

variable (m : Machine V) (oracle : Oracle V) (ctx : Context)

def HaltsOn (body : List Block) (σ : Store V) (e : Tree.Expr) (c : Config V) : Prop :=
  ∃ why c', HaltedBy m oracle ctx body why c c' ∧
    runOn (eval m oracle σ e) (builtinCalls c.history) = (.error why, builtinCalls c'.history)

/-- The run comes to the end of some code, with an operation left that has the result of the
expression. -/
def Leaves (body : List Block) (s : NameSupply) (σ : Store V) (e : Tree.Expr) (r : Flow.Expr)
    (c c' : Config V) : Prop :=
  ∃ result history, Ran m oracle ctx body s c c' ∧ Yields m oracle ctx r c' result history ∧
    runOn (eval m oracle σ e) (builtinCalls c.history) =
      runOn (orFail result) (builtinCalls history)

/-- The run comes to the end of some code with the value of the expression. -/
def Delivers (body : List Block) (s : NameSupply) (σ : Store V) (e : Tree.Expr) (v : Value)
    (c c' : Config V) : Prop :=
  Ran m oracle ctx body s c c' ∧ runOn (eval m oracle σ e) (builtinCalls c.history) =
    (.ok (m.value c'.store v), builtinCalls c'.history)

structure ExprCode (e : Tree.Expr) (s : NameSupply) (piece : Code) (r : Flow.Expr)
    (s' : NameSupply) : Prop where
  makes : Makes (expr e) s (piece, r) s'
  labelled : Labelled [] s s' piece
  settled : ∀ v, r = .value v → Settled s' v
  runs : ∀ {label : Label} {code rest : Code} {σ : Store V} {c : Config V},
    (label :: code.marks).Nodup → Before label code (piece ++ rest) c.place → Agrees σ c →
    Passed m c.history →
    (∃ c', Before label code rest c'.place ∧
      Leaves m oracle ctx (code.blocks label) s σ e r c c') ∨
    HaltsOn m oracle ctx (code.blocks label) σ e c

structure ValueCode (e : Tree.Expr) (s : NameSupply) (piece : Code) (v : Value)
    (s' : NameSupply) : Prop where
  makes : ∃ code r s₀, Makes (expr e) s (code, r) s₀ ∧ Makes (toValue e.ty code r) s₀ (piece, v) s'
  labelled : Labelled [] s s' piece
  settled : Settled s' v
  runs : ∀ {label : Label} {code rest : Code} {σ : Store V} {c : Config V},
    (label :: code.marks).Nodup → Before label code (piece ++ rest) c.place → Agrees σ c →
    Passed m c.history →
    (∃ c', Before label code rest c'.place ∧
      Delivers m oracle ctx (code.blocks label) s σ e v c c') ∨
    HaltsOn m oracle ctx (code.blocks label) σ e c

end Definitions

variable {m : Machine V} {oracle : Oracle V} {ctx : Context} {body : List Block}
  {s s₁ s₂ s' : NameSupply} {c c' : Config V} {σ : Store V} {e left right : Tree.Expr}
  {piece piece₁ piece₂ : Code} {r : Flow.Expr} {v v₁ v₂ : Value}

theorem Ran.agrees (hr : Ran m oracle ctx body s c c') (ha : Agrees σ c) : Agrees σ c' :=
  fun x hx => (hr.source hx).trans (ha x hx)

theorem Ran.value (hr : Ran m oracle ctx body s c c') (hv : Settled s v) :
    m.value c'.store v = m.value c.store v := by
  cases v with
  | id x => exact hr.store x (hv x rfl)
  | _ => rfl

/-! ## Leaving a value -/

theorem Leaves.assign {label : Label} {code rest : Code} {name : String}
    (hl : Leaves m oracle ctx (code.blocks label) s σ e r c c')
    (hnodup : (label :: code.marks).Nodup)
    (hb : Before label code (.emit (.assign name r) :: rest) c'.place) (hname : s.Upcoming name) :
    (∃ c', Before label code rest c'.place ∧
      Delivers m oracle ctx (code.blocks label) s σ e (.id name) c c') ∨
    HaltsOn m oracle ctx (code.blocks label) σ e c := by
  obtain ⟨result, history, hran, hyields, heval⟩ := hl
  cases result with
  | some w =>
      obtain ⟨c'', hreaches, hb'', hstore, hhistory⟩ := hb.assign hnodup hyields
      refine .inl ⟨c'', hb'', ⟨hran.reaches.trans (hreaches.weaken (Nat.zero_le _)),
        fun x hx => ?_, ?_⟩, ?_⟩
      · have hne : x ≠ name := fun heq => hx (heq ▸ hname)
        rw [hstore, Function.update_of_ne hne, hran.store x hx]
      · rw [hhistory]
        exact hyields.2
      · have hvalue : m.value c''.store (.id name) = w := by
          rw [hstore]
          exact Function.update_self name w c'.store
        rw [heval, hvalue, hhistory]
        rfl
  | none =>
      obtain ⟨c'', hhalted, hhistory⟩ := hb.fail hnodup (.inr ⟨name, rfl⟩) hyields
      refine .inr ⟨.failed, c'', hran.halted hhalted, ?_⟩
      rw [heval, hhistory]
      rfl

theorem toValue_of_ne (ty : Ty) (code : Code) (hr : ∀ v, r ≠ .value v) :
    toValue ty code r = (do
      let name ← fresh "valname"
      return (code ++ [.declare name ty, .emit (.assign name r)], .id name)) := by
  cases r with
  | value v => exact absurd rfl (hr v)
  | _ => rfl

theorem ExprCode.toValue (he : ExprCode m oracle ctx e s piece r s₁) :
    ∃ piece' v s', ValueCode m oracle ctx e s piece' v s' := by
  by_cases hr : ∃ v, r = .value v
  · -- a value stays as it is
    obtain ⟨v, rfl⟩ := hr
    refine ⟨piece, v, s₁, ⟨piece, _, s₁, he.makes, makes_pure _ _⟩, he.labelled,
      he.settled v rfl, fun hnodup hb ha hp => ?_⟩
    refine (he.runs hnodup hb ha hp).imp_left ?_
    rintro ⟨c', hbefore, result, history, hran, hyields, heval⟩
    obtain ⟨hresult, hhistory⟩ := Prod.mk.inj
      ((yields_value v hran.passed).1.symm.trans hyields.1)
    obtain ⟨-, rfl⟩ := Prod.mk.inj hhistory
    rw [← hresult] at heval
    exact ⟨c', hbefore, hran, heval⟩
  · -- anything else goes into a temporary, which nothing before has drawn
    have hne : ∀ v, r ≠ .value v := fun v heq => hr ⟨v, heq⟩
    obtain ⟨name, s', hname⟩ : ∃ name s', s₁.fresh "valname" = (name, s') := ⟨_, _, rfl⟩
    have hmem : "valname" ∈ NameSupply.temporaryBases := List.mem_cons_self
    have hnew : Labelled [] s₁ s' [.declare name e.ty, .emit (.assign name r)] :=
      Labelled.plain (Draws.fresh hname (NameSupply.unnumbered_of_temporary hmem)).le rfl rfl
    refine ⟨piece ++ [.declare name e.ty, .emit (.assign name r)], .id name, s',
      ⟨piece, r, s₁, he.makes, ?_⟩, he.labelled.append hnew, ?_, fun hnodup hb ha hp => ?_⟩
    · rw [toValue_of_ne e.ty piece hne]
      exact (makes_fresh hname).bind (makes_pure _ _)
    · rintro x hx
      rw [← Value.id.inj hx]
      exact NameSupply.not_upcoming_fresh hname hmem
    · rw [List.append_assoc] at hb
      rcases he.runs hnodup hb ha hp with ⟨c₁, hb₁, hleaves⟩ | hhalts
      · exact hleaves.assign hnodup hb₁.declare
          ((NameSupply.upcoming_fresh hname hmem).mono he.labelled.draws.le)
      · exact .inr hhalts

/-! ## Operands -/

namespace ValueCode

theorem makes_value (hv : ValueCode m oracle ctx e s piece v s') :
    Makes (value e) s (piece, v) s' := by
  obtain ⟨code, r, s₀, hexpr, hvalue⟩ := hv.makes
  exact hexpr.bind hvalue

theorem operand (whole : Tree.Expr) {onward : V → Tree.Eval V V}
    (hv : ValueCode m oracle ctx e s piece v s')
    (hwhole : eval m oracle σ whole = eval m oracle σ e >>= onward) {label : Label}
    {code rest : Code} (hnodup : (label :: code.marks).Nodup)
    (hb : Before label code (piece ++ rest) c.place) (ha : Agrees σ c) (hp : Passed m c.history) :
    (∃ c', Before label code rest c'.place ∧ Ran m oracle ctx (code.blocks label) s c c' ∧
      runOn (eval m oracle σ whole) (builtinCalls c.history) =
        runOn (onward (m.value c'.store v)) (builtinCalls c'.history)) ∨
    HaltsOn m oracle ctx (code.blocks label) σ whole c := by
  rw [HaltsOn, hwhole]
  rcases hv.runs hnodup hb ha hp with ⟨c', hb', hran, heval⟩ | ⟨why, c', hhalted, heval⟩
  · exact .inl ⟨c', hb', hran, runOn_bind_ok heval⟩
  · exact .inr ⟨why, c', hhalted, runOn_bind_error heval⟩

theorem operands (whole : Tree.Expr) {onward : V → V → Tree.Eval V V}
    (hleft : ValueCode m oracle ctx left s piece₁ v₁ s₁)
    (hright : ValueCode m oracle ctx right s₁ piece₂ v₂ s')
    (hwhole : eval m oracle σ whole =
      eval m oracle σ left >>= fun a => eval m oracle σ right >>= onward a) {label : Label}
    {code rest : Code} (hnodup : (label :: code.marks).Nodup)
    (hb : Before label code (piece₁ ++ (piece₂ ++ rest)) c.place) (ha : Agrees σ c)
    (hp : Passed m c.history) :
    (∃ c', Before label code rest c'.place ∧ Ran m oracle ctx (code.blocks label) s c c' ∧
      runOn (eval m oracle σ whole) (builtinCalls c.history) =
        runOn (onward (m.value c'.store v₁) (m.value c'.store v₂)) (builtinCalls c'.history)) ∨
    HaltsOn m oracle ctx (code.blocks label) σ whole c := by
  rcases hleft.operand whole hwhole hnodup hb ha hp with ⟨c₁, hb₁, hran₁, heval₁⟩ | hhalts
  · rcases hright.runs hnodup hb₁ (hran₁.agrees ha) hran₁.passed with
      ⟨c₂, hb₂, hran₂, heval₂⟩ | ⟨why, c₂, hhalted, heval₂⟩
    · refine .inl ⟨c₂, hb₂, hran₁.trans hran₂ hleft.labelled.draws.le, ?_⟩
      rw [heval₁, runOn_bind_ok heval₂, hran₂.value hleft.settled]
    · refine .inr ⟨why, c₂, hran₁.halted hhalted, ?_⟩
      rw [heval₁, runOn_bind_error heval₂]
  · exact .inr hhalts

end ValueCode

/-! ## Each kind of expression -/

namespace ExprCode

theorem literal (n : Tree.Note) (value : Literal) (s : NameSupply) :
    ExprCode m oracle ctx (.literal n value) s [] (.value (Value.ofLiteral value)) s where
  makes := makes_pure _ _
  labelled := Labelled.nil [] s
  settled v hv x hx := by
    rw [← Flow.Expr.value.inj hv] at hx
    cases value <;> exact nomatch hx
  runs hnodup hb ha hp := by
    refine .inl ⟨_, hb, _, _, Ran.refl hp, yields_value _ hp, ?_⟩
    cases value <;> rfl

theorem id (n : Tree.Note) {name : String} (hname : ¬ IsTemporary name) (s : NameSupply) :
    ExprCode m oracle ctx (.id n name) s [] (.value (.id name)) s where
  makes := makes_pure _ _
  labelled := Labelled.nil [] s
  settled v hv x hx hup := by
    rw [← Flow.Expr.value.inj hv] at hx
    obtain rfl := Value.id.inj hx
    exact hname hup.isTemporary
  runs hnodup hb ha hp := by
    refine .inl ⟨_, hb, _, _, Ran.refl hp, yields_value _ hp, ?_⟩
    rw [eval, ← ha name hname]
    rfl

theorem unary (n : Tree.Note) (op : UniOp) (hv : ValueCode m oracle ctx e s piece v s') :
    ExprCode m oracle ctx (.unary n op e) s piece (.unary op v) s' where
  makes := by
    obtain ⟨code, r, s₀, hexpr, hvalue⟩ := hv.makes
    exact hexpr.bind (hvalue.bind (makes_pure _ _))
  labelled := hv.labelled
  settled v hv := nomatch hv
  runs hnodup hb ha hp := by
    refine (hv.operand (.unary n op e) rfl hnodup hb ha hp).imp_left ?_
    rintro ⟨c', hb', hran, heval⟩
    refine ⟨c', hb', m.unary op (m.value c'.store v), c'.history, hran, ⟨?_, hran.passed⟩, heval⟩
    rw [← value_withBuiltins oracle]
    rfl

/-- The partner answers a call of a builtin by the oracle. -/
theorem yields_builtin {call : Flow.Request V}
    (hrequest : (m.withBuiltins oracle).request? c.store r = some call)
    (hbuiltin : Tree.isBuiltin call = true) (hcall : r.isCall = false) (hp : Passed m c.history) :
    Yields m oracle ctx r c (oracle (call :: builtinCalls c.history))
      ((call, c.store) :: c.history) := by
  have hcalls : builtinCalls ((call, c.store) :: c.history) = call :: builtinCalls c.history := by
    simp [builtinCalls, hbuiltin]
  have hpasses : ¬ Tree.Aborts m call := by
    cases call with
    | call => exact absurd hbuiltin Bool.false_ne_true
    | _ => exact fun h => h
  refine ⟨?_, hp.cons hpasses⟩
  unfold Machine.compute
  rw [hrequest]
  simp [Machine.withBuiltins, hbuiltin, hcalls, hcall]

theorem builtin1 (n : Tree.Note) (name : String) (hv : ValueCode m oracle ctx e s piece v s') :
    ExprCode m oracle ctx (.builtin1 n name e) s piece (.builtin1 name v) s' where
  makes := by
    obtain ⟨code, r, s₀, hexpr, hvalue⟩ := hv.makes
    exact hexpr.bind (hvalue.bind (makes_pure _ _))
  labelled := hv.labelled
  settled v hv := nomatch hv
  runs hnodup hb ha hp := by
    refine (hv.operand (.builtin1 n name e) rfl hnodup hb ha hp).imp_left ?_
    rintro ⟨c', hb', hran, heval⟩
    have hrequest : (m.withBuiltins oracle).request? c'.store (.builtin1 name v) =
        some (.builtin1 name (m.value c'.store v)) := by
      rw [← value_withBuiltins oracle]
      rfl
    exact ⟨c', hb', _, _, hran, yields_builtin hrequest rfl rfl hran.passed, heval⟩

theorem builtin2 (n : Tree.Note) (name : String)
    (hleft : ValueCode m oracle ctx left s piece₁ v₁ s₁)
    (hright : ValueCode m oracle ctx right s₁ piece₂ v₂ s') :
    ExprCode m oracle ctx (.builtin2 n name left right) s (piece₁ ++ piece₂)
      (.builtin2 name v₁ v₂) s' where
  makes := by
    obtain ⟨code₁, r₁, t₁, hexpr₁, hvalue₁⟩ := hleft.makes
    obtain ⟨code₂, r₂, t₂, hexpr₂, hvalue₂⟩ := hright.makes
    exact hexpr₁.bind (hvalue₁.bind (hexpr₂.bind (hvalue₂.bind (makes_pure _ _))))
  labelled := hleft.labelled.append hright.labelled
  settled v hv := nomatch hv
  runs hnodup hb ha hp := by
    rw [List.append_assoc] at hb
    refine (hleft.operands (.builtin2 n name left right) hright rfl hnodup hb ha hp).imp_left ?_
    rintro ⟨c', hb', hran, heval⟩
    have hrequest : (m.withBuiltins oracle).request? c'.store (.builtin2 name v₁ v₂) =
        some (.builtin2 name (m.value c'.store v₁) (m.value c'.store v₂)) := by
      rw [← value_withBuiltins oracle, ← value_withBuiltins oracle]
      rfl
    exact ⟨c', hb', _, _, hran, yields_builtin hrequest rfl rfl hran.passed, heval⟩

theorem binary (n : Tree.Note) (op : BinOp)
    (hleft : ValueCode m oracle ctx left s piece₁ v₁ s₁)
    (hright : ValueCode m oracle ctx right s₁ piece₂ v₂ s') :
    ExprCode m oracle ctx (.binary n op left right) s
      (piece₁ ++ piece₂ ++ if op = .idiv ∨ op = .mod then [Code.guardDivisor v₂ n.loc] else [])
      (.binary op v₁ v₂) s' where
  makes := by
    obtain ⟨code₁, r₁, t₁, hexpr₁, hvalue₁⟩ := hleft.makes
    obtain ⟨code₂, r₂, t₂, hexpr₂, hvalue₂⟩ := hright.makes
    exact hexpr₁.bind (hvalue₁.bind (hexpr₂.bind (hvalue₂.bind (makes_pure _ _))))
  labelled := by
    refine (hleft.labelled.append hright.labelled).append
      (Labelled.plain (fun _ => Nat.le_refl _) ?_ ?_)
    · split <;> rfl
    · split <;> rfl
  settled v hv := nomatch hv
  runs {label code rest σ c} hnodup hb ha hp := by
    rw [List.append_assoc, List.append_assoc] at hb
    rcases hleft.operands (.binary n op left right) hright rfl hnodup hb ha hp with
      ⟨c', hb', hran, heval⟩ | hhalts
    · have hoperate : ∀ c'', c''.store = c'.store → Passed m c''.history →
          Yields m oracle ctx (.binary op v₁ v₂) c''
            (m.binary op (m.value c'.store v₁) (m.value c'.store v₂)) c''.history := by
        intro c'' hstore hp''
        refine ⟨?_, hp''⟩
        rw [← value_withBuiltins oracle, ← value_withBuiltins oracle, ← hstore]
        rfl
      by_cases hdivides : op = .idiv ∨ op = .mod
      · rw [if_pos hdivides] at hb'
        obtain ⟨c'', hcalls, hguard⟩ := hb'.guardDivisor hnodup hran.passed
        by_cases hzero : m.value c'.store v₂ = m.literal (.num 0)
        · rw [if_pos hzero] at hguard
          refine .inr ⟨.dividedByZero, c'', hran.halted hguard, ?_⟩
          rw [heval, hcalls]
          unfold Tree.divide
          rw [if_pos ⟨hdivides, hzero⟩]
          rfl
        · rw [if_neg hzero] at hguard
          obtain ⟨hguarded, hb'', hstore⟩ := hguard
          refine .inl ⟨c'', hb'', _, _, hran.trans hguarded fun _ => Nat.le_refl _,
            hoperate c'' hstore hguarded.passed, ?_⟩
          rw [heval, hcalls]
          unfold Tree.divide
          rw [if_neg fun hcase => hzero hcase.2]
          rfl
      · rw [if_neg hdivides] at hb'
        refine .inl ⟨c', hb', _, _, hran, hoperate c' rfl hran.passed, ?_⟩
        rw [heval]
        unfold Tree.divide
        rw [if_neg fun hcase => hdivides hcase.1]
        rfl
    · exact .inr hhalts

/-- One of the two ways through a conditional expression, where the run has come to from
`c₀`. -/
theorem way {whole : Tree.Expr} {label after tmp : String} {code rest tail : Code}
    {s₀ : NameSupply} {c₀ : Config V} (he : ExprCode m oracle ctx e s piece r s')
    (hle : ∀ base, s₀.next base ≤ s.next base) (htmp : s₀.Upcoming tmp)
    (hnodup : (label :: code.marks).Nodup)
    (hb : Before label code (piece ++ [.emit (.assign tmp r)] ++ .emit (.jump after) :: tail)
      c.place)
    (hafter : Item.mark after :: rest <:+ code) (ha : Agrees σ c)
    (hran : Ran m oracle ctx (code.blocks label) s₀ c₀ c)
    (hwhole : runOn (eval m oracle σ whole) (builtinCalls c₀.history) =
      runOn (eval m oracle σ e) (builtinCalls c.history)) :
    (∃ c', Before label code rest c'.place ∧
      Leaves m oracle ctx (code.blocks label) s₀ σ whole (.value (.id tmp)) c₀ c') ∨
    HaltsOn m oracle ctx (code.blocks label) σ whole c₀ := by
  rw [HaltsOn, hwhole]
  rw [List.append_assoc] at hb
  rcases he.runs hnodup hb ha hran.passed with
    ⟨c₁, hb₁, result, history, hran₁, hyields, heval⟩ | ⟨why, c₁, hhalted, heval⟩
  · have hleaves : Leaves m oracle ctx (code.blocks label) s₀ σ e r c c₁ :=
      ⟨result, history, hran₁.weaken hle, hyields, heval⟩
    rcases hleaves.assign hnodup hb₁ htmp with
      ⟨c₂, hb₂, hran₂, heval₂⟩ | ⟨why, c₂, hhalted, heval₂⟩
    · have hran₃ := (hran.trans hran₂ fun _ => Nat.le_refl _).moved
        (hb₂.jump m oracle ctx hnodup) rfl rfl
      exact .inl ⟨_, Before.of_mark hafter, _, _, hran₃, yields_value _ hran₃.passed,
        hwhole.trans heval₂⟩
    · exact .inr ⟨why, c₂, hran.halted hhalted, heval₂⟩
  · exact .inr ⟨why, c₁, hran.halted hhalted, heval⟩

theorem ifExpr (n : Tree.Note) {cond onTrue onFalse : Tree.Expr} {s₃ s₄ s₅ s₆ : NameSupply}
    {thenLabel elseLabel after tmp : String} {test yes no : Code} {t f : Flow.Expr}
    (hthen : s.fresh "$ifExprThen" = (thenLabel, s₁))
    (helse : s₁.fresh "$ifExprElse" = (elseLabel, s₂))
    (hend : s₂.fresh "$ifExprEnd" = (after, s₃)) (htmp : s₃.fresh "$ifExprTmp" = (tmp, s₄))
    (hcond : ValueCode m oracle ctx cond s₄ test v s₅)
    (htrue : ExprCode m oracle ctx onTrue s₅ yes t s₆)
    (hfalse : ExprCode m oracle ctx onFalse s₆ no f s') :
    ExprCode m oracle ctx (.ifExpr n cond onTrue onFalse) s
      (.declare tmp n.ty :: choice test v thenLabel elseLabel after
        (yes ++ [.emit (.assign tmp t)]) (no ++ [.emit (.assign tmp f)]))
      (.value (.id tmp)) s' := by
  have hmem : "$ifExprTmp" ∈ NameSupply.temporaryBases := by simp [NameSupply.temporaryBases]
  have hnames : Draws s s₄ [thenLabel, elseLabel, after] :=
    (Draws.three hthen helse hend (by decide +kernel)).weaken
      (Draws.fresh htmp (NameSupply.unnumbered_of_temporary hmem)).le
  have hup : s.Upcoming tmp := (NameSupply.upcoming_fresh htmp hmem).mono
    (Draws.three hthen helse hend (by decide +kernel)).le
  have hyes : ∀ base, s.next base ≤ s₅.next base := fun base =>
    Nat.le_trans (hnames.le base) (hcond.labelled.draws.le base)
  have hno : ∀ base, s.next base ≤ s₆.next base := fun base =>
    Nat.le_trans (hyes base) (htrue.labelled.draws.le base)
  have hplain : ∀ (s : NameSupply) (r : Flow.Expr), Labelled [] s s [.emit (.assign tmp r)] :=
    fun s r => Labelled.plain (fun _ => Nat.le_refl _) rfl rfl
  refine ⟨?_, ?_, fun w hw x hx hagain => ?_, fun {label code rest σ c} hnodup hb ha hp => ?_⟩
  · obtain ⟨code, r, s₀, hexpr, hvalue⟩ := hcond.makes
    refine (makes_fresh hthen).bind ((makes_fresh helse).bind ((makes_fresh hend).bind
      ((makes_fresh htmp).bind (hexpr.bind (hvalue.bind (htrue.makes.bind
        (hfalse.makes.bind (makes_pure_of_eq ?_ s'))))))))
    simp [choice]
  · have hchoice := Labelled.choice (v := v) hnames hcond.labelled
      (htrue.labelled.append (hplain s₆ t)) (hfalse.labelled.append (hplain s' f))
    exact ⟨hchoice.draws, hchoice.targets⟩
  · rw [← Flow.Expr.value.inj hw] at hx
    obtain rfl := Value.id.inj hx
    refine NameSupply.not_upcoming_fresh htmp hmem (hagain.mono ?_)
    exact ((hcond.labelled.draws.append htrue.labelled.draws).append hfalse.labelled.draws).le
  · have hb : Before label code (choice test v thenLabel elseLabel after
        (yes ++ [.emit (.assign tmp t)]) (no ++ [.emit (.assign tmp f)]) ++ rest) c.place :=
      hb.declare
    rw [choice_append] at hb
    rcases hcond.operand (.ifExpr n cond onTrue onFalse) rfl hnodup hb ha hp with
      ⟨c₁, hb₁, hran₁, heval₁⟩ | hhalts
    · obtain ⟨c₂, tail, hreaches, hb₂, hstore, hhistory, hafter⟩ :=
        hb₁.choice m oracle ctx hnodup
      have hran₂ : Ran m oracle ctx (code.blocks label) s c c₂ :=
        (hran₁.moved hreaches hstore hhistory).weaken hnames.le
      rw [← hhistory] at heval₁
      by_cases htest : m.isTrue (m.value c₁.store v) = true
      · rw [if_pos htest] at hb₂ heval₁
        exact htrue.way hyes hup hnodup hb₂ hafter (hran₂.agrees ha) hran₂ heval₁
      · rw [if_neg htest] at hb₂ heval₁
        exact hfalse.way hno hup hnodup hb₂ hafter (hran₂.agrees ha) hran₂ heval₁
    · exact .inr hhalts

end ExprCode

end Midend.Linear
