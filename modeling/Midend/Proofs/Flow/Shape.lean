import Midend.Flow.Arithmetic
import Midend.Flow.Operands
import Midend.Proofs.Flow.Graph
import Mathlib.Data.List.Forall2
/-!
# The shape of a program

What may change in a program when its statements are simplified (`Program.Becomes`): an operand that
is a variable, for any other operand, and an operator on literals, for its value.  All else stays,
so a program of the same shape has the same labels and jumps (`Program.Becomes.checkLabels`), every
call of a guard with the position that it reports (`Stmt.Becomes.guard?`), and every division by the
literal zero (`Stmt.Becomes.dividesByZero`), which has no value.

Each of these relations can be composed, so that it also describes what many rounds do.
-/

namespace Midend.Flow

/-! ## Operands and expressions -/

/-- An operand may be replaced, unless it is a literal or a word. -/
def Value.Becomes (v v' : Value) : Prop := v.isId = false → v' = v

theorem Value.Becomes.refl (v : Value) : v.Becomes v := fun _ => rfl

theorem Value.Becomes.trans {v v' v'' : Value} (h : v.Becomes v') (h' : v'.Becomes v'') :
    v.Becomes v'' := by
  intro hid
  obtain rfl := h hid
  exact h' hid

instance : IsTrans Value Value.Becomes := ⟨fun _ _ _ => .trans⟩

/-- An expression with its operands replaced, or an operator replaced by its value on what has been
put in place of its operands. -/
inductive Expr.Becomes : Expr → Expr → Prop
  | value {v v' : Value} (h : v.Becomes v') : Becomes (.value v) (.value v')
  | binary {op : BinOp} {left left' right right' : Value} (hleft : left.Becomes left')
      (hright : right.Becomes right') : Becomes (.binary op left right) (.binary op left' right')
  | binaryValue {op : BinOp} {left left' right right' v : Value} (hleft : left.Becomes left')
      (hright : right.Becomes right') (h : op.value? left' right' = some v) :
      Becomes (.binary op left right) (.value v)
  | unary {op : UniOp} {operand operand' : Value} (h : operand.Becomes operand') :
      Becomes (.unary op operand) (.unary op operand')
  | unaryValue {op : UniOp} {operand operand' v : Value} (hoperand : operand.Becomes operand')
      (h : op.value? operand' = some v) : Becomes (.unary op operand) (.value v)
  | builtin1 {name : String} {arg arg' : Value} (h : arg.Becomes arg') :
      Becomes (.builtin1 name arg) (.builtin1 name arg')
  | builtin2 {name : String} {left left' right right' : Value} (hleft : left.Becomes left')
      (hright : right.Becomes right') :
      Becomes (.builtin2 name left right) (.builtin2 name left' right')
  | call {name : String} {args args' : List Value} (h : List.Forall₂ Value.Becomes args args') :
      Becomes (.call name args) (.call name args')
  | callIndirect {callee callee' : Value} {args args' : List Value}
      (hcallee : callee.Becomes callee') (h : List.Forall₂ Value.Becomes args args') :
      Becomes (.callIndirect callee args) (.callIndirect callee' args')
  | alloc {amount : Nat} {refFields : UInt32} :
      Becomes (.alloc amount refFields) (.alloc amount refFields)
  | load {start start' : Value} {offset : Nat} (h : start.Becomes start') :
      Becomes (.load start offset) (.load start' offset)

theorem Expr.becomes_map {f : Value → Value} (hf : ∀ v : Value, v.Becomes (f v)) (e : Expr) :
    e.Becomes (e.map f) := by
  have hargs : ∀ args : List Value, List.Forall₂ Value.Becomes args (args.map f) :=
    fun args => List.forall₂_map_right_iff.2 (List.forall₂_same.2 fun v _ => hf v)
  cases e with
  | value v => exact .value (hf v)
  | binary op left right => exact .binary (hf left) (hf right)
  | unary op operand => exact .unary (hf operand)
  | builtin1 name arg => exact .builtin1 (hf arg)
  | builtin2 name left right => exact .builtin2 (hf left) (hf right)
  | call name args => exact .call (hargs args)
  | callIndirect callee args => exact .callIndirect (hf callee) (hargs args)
  | alloc amount refFields => exact .alloc
  | load start offset => exact .load (hf start)

theorem Expr.map_id (e : Expr) : e.map id = e := by
  cases e <;> simp [Expr.map]

theorem Expr.Becomes.refl (e : Expr) : e.Becomes e := by
  have h := e.becomes_map (f := id) Value.Becomes.refl
  rwa [e.map_id] at h

theorem Expr.Becomes.trans {e e' e'' : Expr} (h : e.Becomes e') (h' : e'.Becomes e'') :
    e.Becomes e'' := by
  cases h with
  | value h =>
      cases h' with
      | value h' => exact .value (h.trans h')
  | binary hleft hright =>
      cases h' with
      | binary hleft' hright' => exact .binary (hleft.trans hleft') (hright.trans hright')
      | binaryValue hleft' hright' h' =>
          exact .binaryValue (hleft.trans hleft') (hright.trans hright') h'
  | binaryValue hleft hright h =>
      cases h' with
      | value h' =>
          obtain rfl := h' (BinOp.isId_of_value? h)
          exact .binaryValue hleft hright h
  | unary h =>
      cases h' with
      | unary h' => exact .unary (h.trans h')
      | unaryValue hoperand' h' => exact .unaryValue (h.trans hoperand') h'
  | unaryValue hoperand h =>
      cases h' with
      | value h' =>
          obtain rfl := h' (UniOp.isId_of_value? h)
          exact .unaryValue hoperand h
  | builtin1 h =>
      cases h' with
      | builtin1 h' => exact .builtin1 (h.trans h')
  | builtin2 hleft hright =>
      cases h' with
      | builtin2 hleft' hright' => exact .builtin2 (hleft.trans hleft') (hright.trans hright')
  | call h =>
      cases h' with
      | call h' => exact .call (forall₂_trans h h')
  | callIndirect hcallee h =>
      cases h' with
      | callIndirect hcallee' h' =>
          exact .callIndirect (hcallee.trans hcallee') (forall₂_trans h h')
  | alloc => exact h'
  | load h =>
      cases h' with
      | load h' => exact .load (h.trans h')

def Expr.dividesByZero : Expr → Bool
  | .binary .idiv _ (.num 0) | .binary .mod _ (.num 0) => true
  | _ => false

/-- A division by the literal zero has no value, so it stays one. -/
theorem Expr.Becomes.dividesByZero {e e' : Expr} (h : e.Becomes e')
    (he : e.dividesByZero = true) : e'.dividesByZero = true := by
  unfold Expr.dividesByZero at he
  split at he
  · cases h with
    | binary _ hright => rw [hright rfl, Expr.dividesByZero]
    | @binaryValue _ _ left' _ _ _ _ hright h =>
        rw [hright rfl] at h
        cases left' <;> exact nomatch h
  · cases h with
    | binary _ hright => rw [hright rfl, Expr.dividesByZero]
    | @binaryValue _ _ left' _ _ _ _ hright h =>
        rw [hright rfl] at h
        cases left' <;> exact nomatch h
  · exact nomatch he

/-! ## Statements -/

inductive Stmt.Becomes : Stmt → Stmt → Prop
  | assign {name : String} {e e' : Expr} (h : e.Becomes e') :
      Becomes (.assign name e) (.assign name e')
  | ret {v v' : Value} (h : v.Becomes v') : Becomes (.ret v) (.ret v')
  | expr {e e' : Expr} (h : e.Becomes e') : Becomes (.expr e) (.expr e')
  | branch {cond cond' : Value} {onTrue onFalse : Label} (h : cond.Becomes cond') :
      Becomes (.branch cond onTrue onFalse) (.branch cond' onTrue onFalse)
  | jump {target : Label} : Becomes (.jump target) (.jump target)
  | store {start start' value value' : Value} {offset : Nat} (hstart : start.Becomes start')
      (hvalue : value.Becomes value') :
      Becomes (.store start offset value) (.store start' offset value')

theorem Stmt.becomes_map {f : Value → Value} (hf : ∀ v : Value, v.Becomes (f v)) (s : Stmt) :
    s.Becomes (s.map f) := by
  cases s with
  | assign name e => exact .assign (e.becomes_map hf)
  | ret v => exact .ret (hf v)
  | expr e => exact .expr (e.becomes_map hf)
  | branch cond onTrue onFalse => exact .branch (hf cond)
  | jump target => exact .jump
  | store start offset value => exact .store (hf start) (hf value)

theorem Stmt.Becomes.refl (s : Stmt) : s.Becomes s := by
  have hsame : s.map id = s := by
    cases s with
    | assign name e => exact congrArg (Stmt.assign name) e.map_id
    | expr e => exact congrArg Stmt.expr e.map_id
    | _ => rfl
  have h := s.becomes_map (f := id) Value.Becomes.refl
  rwa [hsame] at h

theorem Stmt.Becomes.trans {s s' s'' : Stmt} (h : s.Becomes s') (h' : s'.Becomes s'') :
    s.Becomes s'' := by
  cases h with
  | assign h =>
      cases h' with
      | assign h' => exact .assign (h.trans h')
  | ret h =>
      cases h' with
      | ret h' => exact .ret (h.trans h')
  | expr h =>
      cases h' with
      | expr h' => exact .expr (h.trans h')
  | branch h =>
      cases h' with
      | branch h' => exact .branch (h.trans h')
  | jump => exact h'
  | store hstart hvalue =>
      cases h' with
      | store hstart' hvalue' => exact .store (hstart.trans hstart') (hvalue.trans hvalue')

instance : IsTrans Stmt Stmt.Becomes := ⟨fun _ _ _ => .trans⟩

theorem Stmt.Becomes.targets_eq {s s' : Stmt} (h : s.Becomes s') : s'.targets = s.targets := by
  cases h <;> rfl

def Stmt.dividesByZero : Stmt → Bool
  | .assign _ e | .expr e => e.dividesByZero
  | _ => false

theorem Stmt.Becomes.dividesByZero {s s' : Stmt} (h : s.Becomes s')
    (hs : s.dividesByZero = true) : s'.dividesByZero = true := by
  cases h with
  | assign h => exact h.dividesByZero hs
  | expr h => exact h.dividesByZero hs
  | _ => exact nomatch hs

/-- The check that a statement calls as a guard, with the row and the column that it reports. -/
def Stmt.guard? : Stmt → Option (String × UInt32 × UInt32)
  | .expr (.call check [_, .word row, .word col]) => some (check, row, col)
  | _ => none

theorem Stmt.Becomes.guard? {s s' : Stmt} (h : s.Becomes s') {check : String} {row col : UInt32}
    (hs : s.guard? = some (check, row, col)) : s'.guard? = some (check, row, col) := by
  unfold Stmt.guard? at hs
  split at hs
  · obtain ⟨rfl, rfl, rfl⟩ : _ = check ∧ _ = row ∧ _ = col := by simpa using hs
    obtain _ | _ | h := h
    cases h with
    | call hargs =>
        obtain _ | ⟨-, _ | ⟨hrow, _ | ⟨hcol, _ | _⟩⟩⟩ := hargs
        rw [hrow rfl, hcol rfl, Stmt.guard?]
  · exact nomatch hs

/-! ## Programs -/

structure Block.Becomes (b b' : Block) : Prop where
  label_eq : b'.label = b.label
  stmts : List.Forall₂ Stmt.Becomes b.stmts b'.stmts

structure Method.Becomes (m m' : Method) : Prop where
  name_eq : m'.name = m.name
  params_eq : m'.params = m.params
  ret_eq : m'.ret = m.ret
  decls_eq : m'.decls = m.decls
  body : List.Forall₂ Block.Becomes m.body m'.body

structure Class.Becomes (c c' : Class) : Prop where
  name_eq : c'.name = c.name
  fields_eq : c'.fields = c.fields
  methods : List.Forall₂ Method.Becomes c.methods c'.methods

/-- The same program up to the operands and the values of operators in its statements: the same
declarations, the same classes with the same methods, and in every body the same labels in the same
order, each with as many statements of the same kinds. -/
structure Program.Becomes (p q : Program) : Prop where
  decls_eq : q.decls = p.decls
  classes : List.Forall₂ Class.Becomes p.classes q.classes
  body : List.Forall₂ Block.Becomes p.body q.body

theorem Block.Becomes.refl (b : Block) : b.Becomes b :=
  ⟨rfl, List.forall₂_same.2 fun s _ => .refl s⟩

theorem Block.Becomes.trans {b b' b'' : Block} (h : b.Becomes b') (h' : b'.Becomes b'') :
    b.Becomes b'' :=
  ⟨h'.label_eq.trans h.label_eq, forall₂_trans h.stmts h'.stmts⟩

instance : IsTrans Block Block.Becomes := ⟨fun _ _ _ => .trans⟩

theorem Method.Becomes.trans {m m' m'' : Method} (h : m.Becomes m') (h' : m'.Becomes m'') :
    m.Becomes m'' where
  name_eq := h'.name_eq.trans h.name_eq
  params_eq := h'.params_eq.trans h.params_eq
  ret_eq := h'.ret_eq.trans h.ret_eq
  decls_eq := h'.decls_eq.trans h.decls_eq
  body := forall₂_trans h.body h'.body

instance : IsTrans Method Method.Becomes := ⟨fun _ _ _ => .trans⟩

theorem Class.Becomes.trans {c c' c'' : Class} (h : c.Becomes c') (h' : c'.Becomes c'') :
    c.Becomes c'' where
  name_eq := h'.name_eq.trans h.name_eq
  fields_eq := h'.fields_eq.trans h.fields_eq
  methods := forall₂_trans h.methods h'.methods

instance : IsTrans Class Class.Becomes := ⟨fun _ _ _ => .trans⟩

theorem body_becomes_self (body : List Block) : List.Forall₂ Block.Becomes body body :=
  List.forall₂_same.2 fun b _ => .refl b

theorem Program.Becomes.refl (p : Program) : p.Becomes p := by
  have hmethod : ∀ m : Method, m.Becomes m := fun m => ⟨rfl, rfl, rfl, rfl, body_becomes_self _⟩
  have hclass : ∀ c : Class, c.Becomes c :=
    fun c => ⟨rfl, rfl, List.forall₂_same.2 fun m _ => hmethod m⟩
  exact ⟨rfl, List.forall₂_same.2 fun c _ => hclass c, body_becomes_self _⟩

theorem Program.Becomes.trans {p p' p'' : Program} (h : p.Becomes p') (h' : p'.Becomes p'') :
    p.Becomes p'' where
  decls_eq := h'.decls_eq.trans h.decls_eq
  classes := forall₂_trans h.classes h'.classes
  body := forall₂_trans h.body h'.body

/-! ## Labels and statements -/

theorem Block.Becomes.sameEdges {b b' : Block} (h : b.Becomes b') : b.SameEdges b' := by
  have htargets : b'.stmts.map Stmt.targets = b.stmts.map Stmt.targets := by
    have hstmts := h.stmts
    generalize b.stmts = ss at hstmts
    generalize b'.stmts = ss' at hstmts
    induction hstmts with
    | nil => rfl
    | cons hfirst _ ih => rw [List.map_cons, List.map_cons, hfirst.targets_eq, ih]
  refine ⟨h.label_eq, ?_⟩
  unfold Block.successors
  rw [← List.getLast?_map, ← List.getLast?_map, htargets]

theorem Program.Becomes.bodies {p q : Program} (h : p.Becomes q) :
    List.Forall₂ (fun x y => y.1 = x.1 ∧ List.Forall₂ Block.Becomes x.2 y.2) p.bodies q.bodies := by
  refine .cons ⟨rfl, h.body⟩ (List.rel_map ?_ (List.rel_flatMap h.classes fun _ _ hc => hc.methods))
  exact fun _ _ hm => ⟨hm.name_eq, hm.body⟩

theorem Program.Becomes.checkLabels {p q : Program} (h : p.Becomes q)
    (hp : p.checkLabels = .ok ()) : q.checkLabels = .ok () := by
  unfold Program.checkLabels at hp ⊢
  rw [forM_checkLabels_eq_ok_iff] at hp ⊢
  refine forall_mem_of_forall₂ h.bodies (fun x y hxy hx => ?_) hp
  exact hx.of_sameEdges (hxy.2.imp fun _ _ => Block.Becomes.sameEdges)

def Program.stmts (p : Program) : List Stmt :=
  p.bodies.flatMap fun entry => entry.2.flatMap (·.stmts)

theorem Program.Becomes.stmts {p q : Program} (h : p.Becomes q) :
    List.Forall₂ Stmt.Becomes p.stmts q.stmts :=
  List.rel_flatMap h.bodies fun _ _ hbody => List.rel_flatMap hbody.2 fun _ _ hb => hb.stmts

end Midend.Flow
