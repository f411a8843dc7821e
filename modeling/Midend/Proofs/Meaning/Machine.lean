import Midend.Analysis.Basic
import Midend.Flow.Arithmetic
import Midend.Flow.Operands
import Mathlib.Logic.Function.Basic
import Mathlib.Logic.Function.Iterate
/-!
# Runs of a body

What the statements of a body do to its variables, on machine values of any type.
Everything outside the body is a partner that answers requests: memory, builtins,
guards and other bodies.  Its answer may depend on all requests so far and on the
variables at each of them, and a call may change every variable that is not local.

A run may be compared with another one step by step: a configuration has the place in
the body, the variables, and all requests with the values of their operands.
-/

namespace Midend.Flow

abbrev Store (V : Type) := String → V

/-- What a statement asks of the partner. -/
inductive Request (V : Type) where
  | builtin1 (name : String) (arg : V)
  | builtin2 (name : String) (left right : V)
  | call (name : String) (args : List V)
  | callIndirect (callee : V) (args : List V)
  | alloc (amount : Nat) (refFields : UInt32)
  | load (start : V) (offset : Nat)
  | store (start : V) (offset : Nat) (value : V)

/-- The requests so far, the latest first, with the variables at each of them. -/
abbrev History (V : Type) := List (Request V × Store V)

/-- What the partner answers.  Without a result the run stops. -/
structure Answer (V : Type) where
  result : Option V
  /-- The variables that a call wants to change. -/
  writes : String → Option V

/-- A machine with its partner.  Where an operator has a value on literals, the machine
computes that value. -/
structure Machine (V : Type) where
  literal : Value → V
  isTrue : V → Bool
  binary : BinOp → V → V → Option V
  unary : UniOp → V → Option V
  answer : History V → Answer V
  binary_exact : ∀ op left right v, op.value? left right = some v →
    binary op (literal left) (literal right) = some (literal v)
  unary_exact : ∀ op operand v, op.value? operand = some v →
    unary op (literal operand) = some (literal v)

inductive Control (V : Type) where
  | next
  | goto (label : Label)
  | returned (value : V)
  /-- An operator or a request had no result. -/
  | stopped

structure Outcome (V : Type) where
  control : Control V
  store : Store V
  history : History V

inductive Place (V : Type) where
  /-- Before the statement of this index in a block. -/
  | inside (label : Label) (index : Nat)
  | returned (value : V)
  /-- Behind a block that no jump leaves. -/
  | ended
  | stopped

structure Config (V : Type) where
  place : Place V
  store : Store V
  history : History V

def Store.overwrite {V : Type} (σ : Store V) (ctx : Context) (writes : String → Option V) :
    Store V :=
  fun name => if ctx.isLocal name then σ name else (writes name).getD (σ name)

namespace Machine

variable {V : Type} (m : Machine V) (ctx : Context)

def value (σ : Store V) : Value → V
  | .id name => σ name
  | v => m.literal v

def operate (σ : Store V) : Expr → Option V
  | .value v => some (m.value σ v)
  | .binary op left right => m.binary op (m.value σ left) (m.value σ right)
  | .unary op operand => m.unary op (m.value σ operand)
  | _ => none

def request? (σ : Store V) : Expr → Option (Request V)
  | .builtin1 name arg => some (.builtin1 name (m.value σ arg))
  | .builtin2 name left right => some (.builtin2 name (m.value σ left) (m.value σ right))
  | .call name args => some (.call name (args.map (m.value σ)))
  | .callIndirect callee args =>
    some (.callIndirect (m.value σ callee) (args.map (m.value σ)))
  | .alloc amount refFields => some (.alloc amount refFields)
  | .load start offset => some (.load (m.value σ start) offset)
  | _ => none

def compute (e : Expr) (σ : Store V) (history : History V) : Option V × Store V × History V :=
  match m.request? σ e with
  | none => (m.operate σ e, σ, history)
  | some request =>
    let history := (request, σ) :: history
    let answer := m.answer history
    (answer.result, if e.isCall then σ.overwrite ctx answer.writes else σ, history)

def exec (s : Stmt) (σ : Store V) (history : History V) : Outcome V :=
  match s with
  | .assign name e =>
    match m.compute ctx e σ history with
    | (some v, σ, history) => ⟨.next, Function.update σ name v, history⟩
    | (none, σ, history) => ⟨.stopped, σ, history⟩
  | .expr e =>
    match m.compute ctx e σ history with
    | (some _, σ, history) => ⟨.next, σ, history⟩
    | (none, σ, history) => ⟨.stopped, σ, history⟩
  | .ret v => ⟨.returned (m.value σ v), σ, history⟩
  | .branch cond onTrue onFalse =>
    ⟨.goto (if m.isTrue (m.value σ cond) then onTrue else onFalse), σ, history⟩
  | .jump target => ⟨.goto target, σ, history⟩
  | .store start offset v =>
    let history := (.store (m.value σ start) offset (m.value σ v), σ) :: history
    ⟨if (m.answer history).result.isSome then .next else .stopped, σ, history⟩

def placeAfter (label : Label) (index : Nat) : Control V → Place V
  | .next => .inside label (index + 1)
  | .goto target => .inside target 0
  | .returned v => .returned v
  | .stopped => .stopped

def step (body : List Block) (c : Config V) : Config V :=
  match c.place with
  | .inside label index =>
    match body.find? fun b => b.label = label with
    | none => { c with place := .stopped }
    | some b =>
      match b.stmts[index]? with
      | none => { c with place := .ended }
      | some s =>
        let outcome := m.exec ctx s c.store c.history
        ⟨placeAfter label index outcome.control, outcome.store, outcome.history⟩
  | _ => c

def start (body : List Block) (σ : Store V) : Config V :=
  match body.head? with
  | none => ⟨.ended, σ, []⟩
  | some b => ⟨.inside b.label 0, σ, []⟩

def after (body : List Block) (σ : Store V) (steps : Nat) : Config V :=
  (m.step ctx body)^[steps] (start body σ)

/-- Every declared variable that is no parameter holds its initial value; of two
declarations of a variable the later one counts. -/
def Starts (σ : Store V) : Prop :=
  ∀ name v, name ∉ ctx.params.map (·.name) →
    ctx.decls.reverse.find? (fun v => v.name = name) = some v → σ name = m.literal v.value

/-- The machine whose values are the literals, with a partner that has nothing to say. -/
def ofLiterals : Machine Value where
  literal v := v
  isTrue v := v = .bool true
  binary op left right := op.value? left right
  unary op operand := op.value? operand
  answer _ := ⟨some .none, fun _ => none⟩
  binary_exact _ _ _ _ h := h
  unary_exact _ _ _ h := h

variable {m ctx} {σ : Store V} {history : History V}

theorem after_succ (body : List Block) (σ : Store V) (n : Nat) :
    m.after ctx body σ (n + 1) = m.step ctx body (m.after ctx body σ n) :=
  Function.iterate_succ_apply' _ _ _

/-! ## Only requests are added -/

variable (m ctx) in
theorem suffix_compute (e : Expr) (σ : Store V) (history : History V) :
    history <:+ (m.compute ctx e σ history).2.2 := by
  unfold compute
  split
  · exact List.suffix_rfl
  · exact List.suffix_cons _ _

theorem suffix_exec (s : Stmt) (σ : Store V) (history : History V) :
    history <:+ (m.exec ctx s σ history).history := by
  cases s with
  | assign name e | expr e =>
      have hcompute := suffix_compute m ctx e σ history
      unfold exec
      dsimp only
      split <;> rename_i heq <;> rw [heq] at hcompute <;> exact hcompute
  | store start offset v => exact List.suffix_cons _ _
  | _ => exact List.suffix_rfl

theorem suffix_step (body : List Block) (c : Config V) :
    c.history <:+ (m.step ctx body c).history := by
  unfold step
  split
  · split
    · exact List.suffix_rfl
    · split
      · exact List.suffix_rfl
      · exact suffix_exec _ _ _
  · exact List.suffix_rfl

theorem suffix_after (body : List Block) (σ : Store V) {n n' : Nat} (hle : n ≤ n') :
    (m.after ctx body σ n).history <:+ (m.after ctx body σ n').history := by
  induction hle with
  | refl => exact List.suffix_rfl
  | step hle ih =>
      rw [after_succ]
      exact ih.trans (suffix_step body _)

/-! ## Statements whose operands are replaced -/

variable {f : Value → Value}

theorem operate_map (hf : ∀ v, m.value σ (f v) = m.value σ v) (e : Expr) :
    m.operate σ (e.map f) = m.operate σ e := by
  cases e <;> simp only [operate, Expr.map, hf]

theorem request?_map (hf : ∀ v, m.value σ (f v) = m.value σ v) (e : Expr) :
    m.request? σ (e.map f) = m.request? σ e := by
  have hargs : ∀ args : List Value, (args.map f).map (m.value σ) = args.map (m.value σ) := by
    intro args
    rw [List.map_map]
    exact List.map_congr_left fun v _ => hf v
  cases e <;> simp only [request?, Expr.map, hf, hargs]

theorem compute_map (hf : ∀ v, m.value σ (f v) = m.value σ v) (e : Expr) :
    m.compute ctx (e.map f) σ history = m.compute ctx e σ history := by
  unfold compute
  rw [request?_map hf, operate_map hf, Expr.isCall_map]

theorem exec_map (hf : ∀ v, m.value σ (f v) = m.value σ v) (s : Stmt) :
    m.exec ctx (s.map f) σ history = m.exec ctx s σ history := by
  cases s <;> simp only [exec, Stmt.map, compute_map hf, hf]

/-! ## Where control goes -/

theorem exec_of_inner {s : Stmt} (hs : s.endsBlock = false) :
    (m.exec ctx s σ history).control = .next ∨ (m.exec ctx s σ history).control = .stopped := by
  cases s with
  | assign name e | expr e | store start offset v =>
      unfold exec
      dsimp only
      split
      · exact .inl rfl
      · exact .inr rfl
  | _ => exact nomatch hs

theorem exec_eq_next {s : Stmt} (h : (m.exec ctx s σ history).control = .next) :
    s.endsBlock = false := by
  cases s with
  | ret v => exact nomatch h
  | branch cond onTrue onFalse => exact nomatch h
  | jump target => exact nomatch h
  | _ => rfl

theorem exec_eq_goto {s : Stmt} {target : Label}
    (h : (m.exec ctx s σ history).control = .goto target) :
    s.endsBlock = true ∧ target ∈ s.targets := by
  cases hends : s.endsBlock with
  | false =>
      rcases exec_of_inner (m := m) hends with hcontrol | hcontrol <;>
        exact nomatch hcontrol.symm.trans h
  | true =>
      cases s with
      | branch cond onTrue onFalse =>
          obtain rfl := Control.goto.inj h
          refine ⟨rfl, ?_⟩
          by_cases hsame : onTrue = onFalse
          · simp [Stmt.targets, hsame]
          · cases m.isTrue (m.value σ cond) <;> simp [Stmt.targets, hsame]
      | jump target' =>
          obtain rfl := Control.goto.inj h
          exact ⟨rfl, List.mem_cons_self⟩
      | ret v => exact nomatch h
      | _ => exact nomatch hends

theorem exec_eq_returned {s : Stmt} {v : V}
    (h : (m.exec ctx s σ history).control = .returned v) : ∃ operand, s = .ret operand := by
  cases hends : s.endsBlock with
  | false =>
      rcases exec_of_inner (m := m) hends with hcontrol | hcontrol <;>
        exact nomatch hcontrol.symm.trans h
  | true =>
      cases s with
      | ret operand => exact ⟨operand, rfl⟩
      | branch cond onTrue onFalse => exact nomatch h
      | jump target => exact nomatch h
      | _ => exact nomatch hends

/-! ## What stays the same -/

theorem store_compute (e : Expr) {name : String}
    (hlocal : e.isCall = true → ctx.isLocal name = true) :
    (m.compute ctx e σ history).2.1 name = σ name := by
  unfold compute
  split
  · rfl
  · dsimp only
    split
    · rename_i hcall
      exact if_pos (hlocal hcall)
    · rfl

/-- A statement changes no variable but the one that it writes and, at a call, those that
are not local. -/
theorem store_exec {s : Stmt} {name : String} (hwrites : ∀ e, s ≠ .assign name e)
    (hlocal : s.hasCall = true → ctx.isLocal name = true) :
    (m.exec ctx s σ history).store name = σ name := by
  cases s with
  | assign written e =>
      have hne : name ≠ written := fun heq => hwrites e (heq ▸ rfl)
      have hcompute : (m.compute ctx e σ history).2.1 name = σ name := store_compute e hlocal
      unfold exec
      dsimp only
      split
      · rename_i heq
        rw [heq] at hcompute
        exact (Function.update_of_ne hne _ _).trans hcompute
      · rename_i heq
        rw [heq] at hcompute
        exact hcompute
  | expr e =>
      have hcompute : (m.compute ctx e σ history).2.1 name = σ name := store_compute e hlocal
      unfold exec
      dsimp only
      split
      · rename_i heq
        rw [heq] at hcompute
        exact hcompute
      · rename_i heq
        rw [heq] at hcompute
        exact hcompute
  | _ => rfl

end Machine

end Midend.Flow
