import Midend.Diagnostic
import Midend.Proofs.Linear.Growth
/-!
# The steps of building

Building code is made of a few kinds of steps: drawing a name, asking the catalog, entering a class,
taking note of functions and of global variables, keeping a class.  A property that all these steps
have and that goes from parts to the whole (`Stepwise`) holds of the building of every program
(`stepwise_program`).
-/

namespace Midend.Linear

open Build

def flatteningCodes : List FaultCode := [.e100, .e101, .e102, .e103]

/-- A question to the catalog: where there is no answer, the fault is one of flattening, and an
answer stays when the catalog grows. -/
structure Asked {α : Type} (look : Catalog → Except Fault α) : Prop where
  code : ∀ c fault, look c = .error fault → fault.code ∈ flatteningCodes
  lasts : ∀ c c' a, c.Extends c' → look c = .ok a → look c' = .ok a

/-- A property that all steps of building a body have and that goes from parts to the whole. -/
structure Steps (P : ∀ {α : Type}, Build α → Prop) : Prop where
  pure {α : Type} (a : α) : P (Pure.pure a)
  bind {α β : Type} {act : Build α} {next : α → Build β} (hact : P act)
    (hnext : ∀ a, P (next a)) : P (act >>= next)
  throw {α : Type} {fault : Fault} (hfault : fault.code ∈ flatteningCodes) :
    P (MonadExcept.throw fault : Build α)
  /-- No base that building asks for ends in a digit. -/
  fresh (base : String) (hbase : NameSupply.Unnumbered base := by decide +kernel) :
    P (Build.fresh base)
  ask {α : Type} {look : Catalog → Except Fault α} (hlook : Asked look) : P (Build.ask look)
  enterClosure (name : String) (params : List Parameter) : P (Build.enterClosure name params)
  keep (c : Flow.Class) : P (Build.keep c)

/-- A property that all steps of building a program with these classes have, too. -/
structure Stepwise (classes : List Tree.Class) (P : ∀ {α : Type}, Build α → Prop) : Prop extends
    Steps P where
  enterClass {c : Tree.Class} (hc : c ∈ classes) : P (Linear.enterClass c)
  recordPaths (enclosing : List String) (f : Tree.Function) :
    P (Linear.recordPaths enclosing f)
  addGlobals (names : List String) : P (update fun c => names.foldl Catalog.addGlobal c)
  /-- Whatever is read back of the state does not depend on the catalog. -/
  read {α : Type} {f : State → α}
    (hf : ∀ (s : State) (c : Catalog), f { s with catalog := c } = f s) :
    P (MonadState.get >>= fun s => (Pure.pure (f s) : Build α))

/-! ## Questions -/

theorem code_of_layoutOf {catalog : Catalog} {className : String} {fault : Fault}
    (h : catalog.layoutOf className = .error fault) : fault.code ∈ flatteningCodes := by
  unfold Catalog.layoutOf at h
  split at h
  · exact nomatch h
  · obtain rfl := Except.error.inj h
    simp [Fault.code, flatteningCodes]

theorem code_of_startOf {catalog : Catalog} {className : String} {fault : Fault}
    (h : catalog.startOf className = .error fault) : fault.code ∈ flatteningCodes := by
  unfold Catalog.startOf at h
  split at h
  · exact nomatch h
  · obtain rfl := Except.error.inj h
    simp [Fault.code, flatteningCodes]

theorem code_of_bitmapOf {catalog : Catalog} {className : String} {fault : Fault}
    (h : catalog.bitmapOf className = .error fault) : fault.code ∈ flatteningCodes := by
  unfold Catalog.bitmapOf at h
  cases hlayout : catalog.layoutOf className with
  | error found =>
      rw [hlayout] at h
      obtain rfl := Except.error.inj h
      exact code_of_layoutOf hlayout
  | ok layout =>
      rw [hlayout] at h
      exact nomatch h

theorem code_of_fieldOf {catalog : Catalog} {className field : String} {fault : Fault}
    (h : catalog.fieldOf className field = .error fault) : fault.code ∈ flatteningCodes := by
  unfold Catalog.fieldOf at h
  cases hlayout : catalog.layoutOf className with
  | error found =>
      rw [hlayout] at h
      obtain rfl := Except.error.inj h
      exact code_of_layoutOf hlayout
  | ok layout =>
      rw [hlayout] at h
      dsimp only [bind, Except.bind] at h
      split at h
      · exact nomatch h
      · obtain rfl := Except.error.inj h
        simp [Fault.code, flatteningCodes]

theorem asked_layoutOf (className : String) : Asked (·.layoutOf className) where
  code _ _ := code_of_layoutOf
  lasts _ _ layout h := h.layouts className layout

theorem asked_startOf (className : String) : Asked (·.startOf className) where
  code _ _ := code_of_startOf
  lasts _ _ slot h := h.starts className slot

theorem asked_bitmapOf (className : String) : Asked (·.bitmapOf className) where
  code _ _ := code_of_bitmapOf
  lasts _ _ _ h := h.bitmapOf

theorem asked_fieldOf (className field : String) : Asked (·.fieldOf className field) where
  code _ _ := code_of_fieldOf
  lasts _ _ _ h := h.fieldOf

/-! ## Parts -/

section Parts

variable {P : ∀ {α : Type}, Build α → Prop} (h : Steps P)

include h

theorem stepwise_forM {α : Type} {f : α → Build PUnit} (as : List α) (hf : ∀ a ∈ as, P (f a)) :
    P (as.forM f) := by
  induction as with
  | nil => exact h.pure _
  | cons a as ih =>
      obtain ⟨hfirst, hrest⟩ := List.forall_mem_cons.1 hf
      exact h.bind hfirst fun _ => ih hrest

theorem stepwise_mapM {α β : Type} {f : α → Build β} (hf : ∀ a, P (f a)) (as : List α) :
    P (as.mapM f) := by
  induction as with
  | nil => exact h.pure _
  | cons a as ih =>
      rw [List.mapM_cons]
      exact h.bind (hf a) fun _ => h.bind ih fun _ => h.pure _

theorem stepwise_classOf (use : ObjectUse) (ty : Ty) (loc : Location) :
    P (classOf use ty loc) := by
  unfold classOf
  split
  · exact h.pure _
  · exact h.throw (by simp [Fault.code, flatteningCodes])

theorem stepwise_toValue (ty : Ty) (code : Code) (e : Flow.Expr) :
    P (toValue ty code e) := by
  unfold toValue
  split
  · exact h.pure _
  · exact h.bind (h.fresh _) fun _ => h.pure _

theorem stepwise_make (className : String) (ty : Ty) : P (make className ty) :=
  h.bind (h.ask (asked_startOf _)) fun _ =>
    h.bind (h.ask (asked_bitmapOf _)) fun _ =>
      h.bind (h.ask (asked_layoutOf _)) fun _ =>
        h.bind (h.fresh _) fun _ => h.pure _

theorem stepwise_checkedCall (receiver : Flow.Value) (ty : Ty) (method : String)
    (loc : Location) : P (checkedCall receiver ty method loc) :=
  h.bind (stepwise_classOf h _ _ _) fun _ => h.pure _

theorem stepwise_leave (s : Flow.Stmt) : P (leave s) :=
  h.bind (h.fresh _) fun _ => h.pure _

theorem stepwise_closureClass (name : String) (params : List Parameter) (ret : Ty)
    (decls : List Flow.Decl) {body : Build Code} (hbody : P body) :
    P (closureClass name params ret decls body) :=
  h.bind (h.fresh _) fun _ => h.bind (h.fresh _) fun _ =>
    h.bind hbody fun _ => h.pure _

theorem stepwise_lambdaSignature (params : List String) (ty : Ty) :
    P (lambdaSignature params ty) := by
  unfold lambdaSignature
  split
  · split
    · exact h.pure _
    · exact h.throw (by simp [Fault.code, flatteningCodes])
  · exact h.throw (by simp [Fault.code, flatteningCodes])

/-! ## Bodies -/

mutual
theorem stepwise_expr (e : Tree.Expr) : P (expr e) := by
  match e with
  | .literal _ _ | .id _ _ => exact h.pure _
  | .binary _ _ left right | .builtin2 _ _ left right =>
      rw [expr]
      exact h.bind (stepwise_expr left) fun _ => h.bind (stepwise_toValue h _ _ _) fun _ =>
        h.bind (stepwise_expr right) fun _ => h.bind (stepwise_toValue h _ _ _) fun _ =>
          h.pure _
  | .unary _ _ operand =>
      rw [expr]
      exact h.bind (stepwise_expr operand) fun _ => h.bind (stepwise_toValue h _ _ _) fun _ =>
        h.pure _
  | .builtin1 _ _ arg =>
      rw [expr]
      exact h.bind (stepwise_expr arg) fun _ => h.bind (stepwise_toValue h _ _ _) fun _ =>
        h.pure _
  | .call _ callee args =>
      rw [expr]
      exact h.bind (stepwise_expr callee) fun _ => h.bind (stepwise_toValue h _ _ _) fun _ =>
        h.bind (stepwise_values args) fun _ => h.pure _
  | .lookup _ obj _ =>
      rw [expr]
      exact h.bind (stepwise_classOf h _ _ _) fun _ =>
        h.bind (h.ask (asked_fieldOf _ _)) fun _ =>
          h.bind (stepwise_expr obj) fun _ => h.bind (stepwise_toValue h _ _ _) fun _ =>
            h.pure _
  | .methodCall _ obj _ args =>
      rw [expr]
      exact h.bind (stepwise_classOf h _ _ _) fun _ =>
        h.bind (stepwise_expr obj) fun _ => h.bind (stepwise_toValue h _ _ _) fun _ =>
          h.bind (stepwise_values args) fun _ => h.pure _
  | .construct _ _ =>
      rw [expr]
      exact h.bind (stepwise_make h _ _) fun _ => h.pure _
  | .listComp _ item _ iterable cond =>
      rw [expr]
      refine h.bind (h.fresh _) fun test => h.bind (h.fresh _) fun _ =>
        h.bind (h.fresh _) fun _ => ?_
      exact h.bind (stepwise_expr iterable) fun _ => h.bind (stepwise_toValue h _ _ _) fun _ =>
        h.bind (stepwise_checkedCall h _ _ _ _) fun _ => h.bind (stepwise_toValue h _ _ _) fun _ =>
          h.bind (stepwise_checkedCall h _ _ _ _) fun _ =>
            h.bind (stepwise_keepIf test cond) fun _ => h.bind (stepwise_expr item) fun _ =>
              h.bind (stepwise_toValue h _ _ _) fun _ => h.pure _
  | .ifExpr _ cond onTrue onFalse =>
      rw [expr]
      refine h.bind (h.fresh _) fun _ => h.bind (h.fresh _) fun _ =>
        h.bind (h.fresh _) fun _ => h.bind (h.fresh _) fun _ => ?_
      exact h.bind (stepwise_expr cond) fun _ => h.bind (stepwise_toValue h _ _ _) fun _ =>
        h.bind (stepwise_expr onTrue) fun _ => h.bind (stepwise_expr onFalse) fun _ =>
          h.pure _
  | .lambda _ _ body =>
      rw [expr]
      have hbody := h.bind (stepwise_expr body) fun c =>
        h.bind (stepwise_toValue h body.ty c.1 c.2) fun v =>
          h.bind (stepwise_leave h (.ret v.2)) fun next => h.pure (v.1 ++ next)
      refine h.bind (stepwise_lambdaSignature h _ _) fun _ => h.bind (h.fresh _) fun _ =>
        h.bind (h.enterClosure _ _) fun _ => ?_
      exact h.bind (stepwise_closureClass h _ _ _ _ hbody) fun _ => h.bind (h.keep _) fun _ =>
        h.bind (stepwise_make h _ _) fun _ => h.pure _

theorem stepwise_values (es : List Tree.Expr) : P (values es) := by
  match es with
  | [] => exact h.pure _
  | e :: es =>
      rw [values]
      exact h.bind (stepwise_expr e) fun _ => h.bind (stepwise_toValue h _ _ _) fun _ =>
        h.bind (stepwise_values es) fun _ => h.pure _

theorem stepwise_keepIf (test : Flow.Label) (cond : Option Tree.Expr) :
    P (keepIf test cond) := by
  match cond with
  | none => exact h.pure _
  | some cond =>
      rw [keepIf]
      exact h.bind (h.fresh _) fun _ => h.bind (stepwise_expr cond) fun _ =>
        h.bind (stepwise_toValue h _ _ _) fun _ => h.pure _
end

theorem stepwise_value (e : Tree.Expr) : P (value e) :=
  h.bind (stepwise_expr h e) fun _ => stepwise_toValue h _ _ _

mutual
theorem stepwise_stmt (loop : Option LoopLabels) (source : Tree.Stmt) :
    P (stmt loop source) := by
  match source with
  | .assign _ _ e | .expr _ e =>
      rw [stmt]
      exact h.bind (stepwise_expr h e) fun _ => h.pure _
  | .ret _ e =>
      rw [stmt]
      exact h.bind (stepwise_value h e) fun _ => h.bind (stepwise_leave h _) fun _ => h.pure _
  | .pass _ =>
      rw [stmt]
      exact h.pure _
  | .continueLoop _ | .breakLoop _ =>
      cases loop with
      | none =>
          rw [stmt]
          exact h.pure _
      | some labels =>
          rw [stmt]
          exact stepwise_leave h _
  | .fieldAssign _ obj _ content =>
      rw [stmt]
      exact h.bind (stepwise_classOf h _ _ _) fun _ =>
        h.bind (h.ask (asked_fieldOf _ _)) fun _ =>
          h.bind (stepwise_value h obj) fun _ => h.bind (stepwise_value h content) fun _ =>
            h.pure _
  | .ifElse _ cond onTrue onFalse =>
      rw [stmt]
      refine h.bind (h.fresh _) fun _ => h.bind (h.fresh _) fun _ =>
        h.bind (h.fresh _) fun _ => ?_
      exact h.bind (stepwise_value h cond) fun _ => h.bind (stepwise_stmts loop onTrue) fun _ =>
        h.bind (stepwise_stmts loop onFalse) fun _ => h.pure _
  | .whileLoop _ cond body =>
      rw [stmt]
      refine h.bind (h.fresh _) fun _ => h.bind (h.fresh _) fun _ =>
        h.bind (h.fresh _) fun _ => ?_
      exact h.bind (stepwise_value h cond) fun _ => h.bind (stepwise_stmts _ body) fun _ =>
        h.pure _
  | .forLoop _ _ iterable body =>
      rw [stmt]
      refine h.bind (h.fresh _) fun _ => h.bind (h.fresh _) fun _ =>
        h.bind (h.fresh _) fun _ => ?_
      exact h.bind (stepwise_value h iterable) fun _ =>
        h.bind (stepwise_checkedCall h _ _ _ _) fun _ =>
        h.bind (stepwise_checkedCall h _ _ _ _) fun _ => h.bind (stepwise_toValue h _ _ _) fun _ =>
          h.bind (stepwise_checkedCall h _ _ _ _) fun _ => h.bind (stepwise_stmts _ body) fun _ =>
            h.pure _

theorem stepwise_stmts (loop : Option LoopLabels) (sources : List Tree.Stmt) :
    P (stmts loop sources) := by
  match sources with
  | [] => exact h.pure _
  | source :: sources =>
      rw [stmts]
      exact h.bind (stepwise_stmt loop source) fun _ => h.bind (stepwise_stmts loop sources)
        fun _ => h.pure _
end

/-! ## Functions -/

theorem stepwise_closure (c : Closure) : P (closure c) :=
  stepwise_closureClass h _ _ _ _ (stepwise_stmts h none c.body)

theorem stepwise_generate (closures : List Closure) : P (generate closures) :=
  h.bind (stepwise_forM h closures fun _ _ => h.enterClosure _ _) fun _ =>
    stepwise_forM h closures fun c _ => h.bind (stepwise_closure h c) fun _ => h.keep _

end Parts

/-! ## Programs -/

section Programs

variable {classes : List Tree.Class} {P : ∀ {α : Type}, Build α → Prop} (h : Stepwise classes P)

include h

theorem stepwise_prologue (enclosing : List String) (fs : List Tree.Function) :
    P (prologue enclosing fs) := by
  induction fs with
  | nil => exact h.pure _
  | cons f fs ih =>
      exact h.bind (h.recordPaths _ _) fun _ => h.bind (stepwise_generate h.toSteps _) fun _ =>
        h.bind (stepwise_stmt h.toSteps none _) fun _ => h.bind ih fun _ => h.pure _

theorem stepwise_method (className : String) (f : Tree.Function) :
    P (method className f) :=
  h.bind (h.fresh _) fun _ => h.bind (stepwise_prologue h _ f.children) fun _ =>
    h.bind (stepwise_stmts h.toSteps none f.body) fun _ => h.pure _

theorem stepwise_classDecl (c : Tree.Class) : P (classDecl c) :=
  h.bind (stepwise_mapM h.toSteps (stepwise_method h c.name) c.methods) fun _ => h.pure _

omit h in
theorem stepwise_program {p : Tree.Program} (h : Stepwise p.classes P) : P (program p) := by
  have hsteps := h.toSteps
  refine h.bind (h.fresh _) fun _ =>
    h.bind (stepwise_forM hsteps p.functions fun f _ => h.recordPaths [] f) fun _ =>
      h.bind (stepwise_forM hsteps _ fun _ _ => h.enterClosure _ _) fun _ =>
        h.bind (stepwise_forM hsteps p.classes fun _ hc => h.enterClass hc) fun _ => ?_
  exact h.bind (stepwise_mapM hsteps (stepwise_closure hsteps) _) fun _ =>
    h.bind (stepwise_mapM hsteps (stepwise_classDecl h) p.classes) fun _ =>
      h.bind (stepwise_stmts hsteps none _) fun _ =>
        h.bind (h.addGlobals _) fun _ => h.read fun _ _ => rfl

end Programs

end Midend.Linear
