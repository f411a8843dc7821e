import Midend.Linear.Program
import Midend.Proofs.Linear.Loops
/-!
# How a program is flattened

Everything that flattening can do, said once: a part of a program is flattened to code, and to
the classes that turn up on the way (`Flattens`).  Whatever is built without a fault has been
built in this way (`flattens_stmts`, `flattens_prologue`), so what holds of all flattened code is
proved by induction on it.
-/

namespace Midend.Linear

open Midend.Flow (Label Value)
open Build

def Builds {α : Type} (act : Build α) (s : State) (a : α) (s' : State) : Prop :=
  runOn act s = (.ok a, s')

/-- The catalog with a class entered into it.  The first layout of a class stays. -/
def withClass (catalog : Catalog) (name : String) (fields : List Tree.Decl)
    (methods : List (String × Nat)) : Catalog :=
  (if catalog.hasLayout name then catalog else catalog.addLayout name fields).addMethods name
    methods

/-! ## Parts and what they leave -/

inductive Part where
  | expr (e : Tree.Expr)
  /-- An expression that is to leave a value. -/
  | value (e : Tree.Expr)
  | values (es : List Tree.Expr)
  /-- The making of an object. -/
  | object (className : String) (ty : Ty)
  /-- The filter of a comprehension whose next turn starts at `test`. -/
  | filter (test : Label) (cond : Option Tree.Expr)
  | stmt (loop : Option LoopLabels) (source : Tree.Stmt)
  | stmts (loop : Option LoopLabels) (sources : List Tree.Stmt)
  /-- Classes of functions that turn up in the middle of a body. -/
  | closures (cs : List Closure)
  /-- The start of a body with functions nested in it. -/
  | prologue (enclosing : List String) (fs : List Tree.Function)

/-- What the code of a part leaves to be used. -/
inductive Result where
  | operation (r : Flow.Expr)
  | values (vs : List Value)
  | nothing

def temporary (name : String) (ty : Ty) (r : Flow.Expr) : Code :=
  [.declare name ty, .emit (.assign name r)]

def objectCode (className : String) (ty : Ty) (slot : Nat) (bitmap : UInt32) (layout : Layout)
    (name : String) : Code :=
  .declare name ty ::
  .emit (.assign name (.alloc (layout.length + 1) bitmap)) ::
  .emit (.store (.id name) 0 (.word (UInt32.ofNat slot))) ::
  layout.map (fun (_, field) =>
    Item.emit (.store (.id name) field.offset (Value.ofLiteral field.initial))) ++
  [.emit (.expr (.call (methodName className initName) [.id name]))]

def callOn (receiver : Value) (className method : String) : Flow.Expr :=
  .call (methodName className method) [receiver]

def Closure.classOf (c : Closure) (initLabel applyLabel : Label) (code : Code) : Flow.Class where
  name := c.name
  fields := []
  methods := [
    ⟨methodName c.name initName, [⟨selfName, .object c.name⟩], .none, [],
      Code.blocks initLabel []⟩,
    ⟨methodName c.name applyName, c.params, c.ret, code.temporaries ++ c.decls.map decl,
      code.blocks applyLabel⟩]

def lambdaClosure (name : String) (params : List Parameter) (ret : Ty) (body : Tree.Expr) :
    Closure :=
  ⟨name, Closure.receiver name :: params, ret, [], [.ret body.loc body]⟩

/-- A part is flattened to code and to the classes that turn up on the way. -/
inductive Flattens : Part → State → Code → List Flow.Class → Result → State → Prop
  -- expressions
  | literal (n : Tree.Note) (value : Literal) (s : State) :
      Flattens (.expr (.literal n value)) s [] [] (.operation (.value (Value.ofLiteral value))) s
  | id (n : Tree.Note) (name : String) (s : State) :
      Flattens (.expr (.id n name)) s [] [] (.operation (.value (.id name))) s
  | binary (n : Tree.Note) (op : BinOp) {left right : Tree.Expr} {s s₁ s' : State} {c₁ c₂ : Code}
      {k₁ k₂ : List Flow.Class} {l r : Value}
      (hleft : Flattens (.value left) s c₁ k₁ (.values [l]) s₁)
      (hright : Flattens (.value right) s₁ c₂ k₂ (.values [r]) s') :
      Flattens (.expr (.binary n op left right)) s
        (c₁ ++ c₂ ++ if op = .idiv ∨ op = .mod then [Code.guardDivisor r n.loc] else [])
        (k₁ ++ k₂) (.operation (.binary op l r)) s'
  | unary (n : Tree.Note) (op : UniOp) {operand : Tree.Expr} {s s' : State} {c : Code}
      {k : List Flow.Class} {v : Value}
      (hoperand : Flattens (.value operand) s c k (.values [v]) s') :
      Flattens (.expr (.unary n op operand)) s c k (.operation (.unary op v)) s'
  | builtin1 (n : Tree.Note) (name : String) {arg : Tree.Expr} {s s' : State} {c : Code}
      {k : List Flow.Class} {v : Value} (harg : Flattens (.value arg) s c k (.values [v]) s') :
      Flattens (.expr (.builtin1 n name arg)) s c k (.operation (.builtin1 name v)) s'
  | builtin2 (n : Tree.Note) (name : String) {left right : Tree.Expr} {s s₁ s' : State}
      {c₁ c₂ : Code} {k₁ k₂ : List Flow.Class} {l r : Value}
      (hleft : Flattens (.value left) s c₁ k₁ (.values [l]) s₁)
      (hright : Flattens (.value right) s₁ c₂ k₂ (.values [r]) s') :
      Flattens (.expr (.builtin2 n name left right)) s (c₁ ++ c₂) (k₁ ++ k₂)
        (.operation (.builtin2 name l r)) s'
  | call (n : Tree.Note) {callee : Tree.Expr} {args : List Tree.Expr} {s s₁ s' : State}
      {c₁ c₂ : Code} {k₁ k₂ : List Flow.Class} {f : Value} {vs : List Value}
      (hcallee : Flattens (.value callee) s c₁ k₁ (.values [f]) s₁)
      (hargs : Flattens (.values args) s₁ c₂ k₂ (.values vs) s') :
      Flattens (.expr (.call n callee args)) s (c₁ ++ Code.guardObject f n.loc :: c₂) (k₁ ++ k₂)
        (.operation (.callIndirect f vs)) s'
  | lookup (n : Tree.Note) {obj : Tree.Expr} {field className : String} {entry : Field}
      {s s' : State} {c : Code} {k : List Flow.Class} {v : Value}
      (hclass : obj.ty = .object className)
      (hentry : s.catalog.fieldOf className field = .ok entry)
      (hobj : Flattens (.value obj) s c k (.values [v]) s') :
      Flattens (.expr (.lookup n obj field)) s (c ++ [Code.guardObject v n.loc]) k
        (.operation (.load v entry.offset)) s'
  | methodCall (n : Tree.Note) {obj : Tree.Expr} {method className : String}
      {args : List Tree.Expr} {s s₁ s' : State} {c₁ c₂ : Code} {k₁ k₂ : List Flow.Class}
      {v : Value} {vs : List Value} (hclass : obj.ty = .object className)
      (hobj : Flattens (.value obj) s c₁ k₁ (.values [v]) s₁)
      (hargs : Flattens (.values args) s₁ c₂ k₂ (.values vs) s') :
      Flattens (.expr (.methodCall n obj method args)) s
        (c₁ ++ Code.guardObject v n.loc :: c₂) (k₁ ++ k₂)
        (.operation (.call (methodName className method) (v :: vs))) s'
  | construct (n : Tree.Note) {className : String} {s s' : State} {c : Code} {v : Value}
      (hmake : Flattens (.object className n.ty) s c [] (.values [v]) s') :
      Flattens (.expr (.construct n className)) s c [] (.operation (.value v)) s'
  | listComp (n : Tree.Note) (elem : String) {item iterable : Tree.Expr}
      {cond : Option Tree.Expr} {className more : String} {test body after : Label}
      {s s₁ s₂ s₃ s₄ s₅ s₆ s' : State} {c₁ c₂ c₃ : Code} {k₁ k₂ k₃ : List Flow.Class}
      {v i : Value} (htest : Builds (fresh "$compstart") s test s₁)
      (hbody : Builds (fresh "$compbody") s₁ body s₂)
      (hafter : Builds (fresh "$compend") s₂ after s₃)
      (hiterable : Flattens (.value iterable) s₃ c₁ k₁ (.values [v]) s₄)
      (hclass : iterable.ty = .object className)
      (hmore : Builds (fresh "valname") s₄ more s₅)
      (hfilter : Flattens (.filter test cond) s₅ c₂ k₂ .nothing s₆)
      (hitem : Flattens (.value item) s₆ c₃ k₃ (.values [i]) s') :
      Flattens (.expr (.listComp n item elem iterable cond)) s
        (c₁ ++ round test body after
          (Code.guardObject v n.loc :: temporary more .bool (callOn v className "hasNext"))
          (.id more)
          (Code.guardObject v n.loc :: .emit (.assign elem (callOn v className "next")) ::
            (c₂ ++ (c₃ ++ [.emit (.expr (.builtin1 "print" i))]))))
        (k₁ ++ (k₂ ++ k₃)) (.operation (.value (.id elem))) s'
  | ifExpr (n : Tree.Note) {cond onTrue onFalse : Tree.Expr}
      {thenLabel elseLabel after : Label} {tmp : String} {s s₁ s₂ s₃ s₄ s₅ s₆ s' : State}
      {c₁ c₂ c₃ : Code} {k₁ k₂ k₃ : List Flow.Class} {v : Value} {t f : Flow.Expr}
      (hthen : Builds (fresh "$ifExprThen") s thenLabel s₁)
      (helse : Builds (fresh "$ifExprElse") s₁ elseLabel s₂)
      (hafter : Builds (fresh "$ifExprEnd") s₂ after s₃)
      (htmp : Builds (fresh "$ifExprTmp") s₃ tmp s₄)
      (hcond : Flattens (.value cond) s₄ c₁ k₁ (.values [v]) s₅)
      (htrue : Flattens (.expr onTrue) s₅ c₂ k₂ (.operation t) s₆)
      (hfalse : Flattens (.expr onFalse) s₆ c₃ k₃ (.operation f) s') :
      Flattens (.expr (.ifExpr n cond onTrue onFalse)) s
        (.declare tmp n.ty :: choice c₁ v thenLabel elseLabel after
          (c₂ ++ [.emit (.assign tmp t)]) (c₃ ++ [.emit (.assign tmp f)]))
        (k₁ ++ (k₂ ++ k₃)) (.operation (.value (.id tmp))) s'
  | lambda (n : Tree.Note) {params : List String} {body : Tree.Expr} {ps : List Parameter}
      {ret : Ty} {name : String} {s s₁ s₂ s₃ s' : State} {c : Code} {k : List Flow.Class}
      {v : Value} (hsignature : Builds (lambdaSignature params n.ty) s (ps, ret) s)
      (hname : Builds (fresh "lambda") s name s₁)
      (henter : Builds (enterClosure name (Closure.receiver name :: ps)) s₁ () s₂)
      (hclosure : Flattens (.closures [lambdaClosure name ps ret body]) s₂ [] k .nothing s₃)
      (hmake : Flattens (.object name (.object name)) s₃ c [] (.values [v]) s') :
      Flattens (.expr (.lambda n params body)) s c k (.operation (.value v)) s'
  -- values
  | settled {e : Tree.Expr} {s s' : State} {c : Code} {k : List Flow.Class} {v : Value}
      (he : Flattens (.expr e) s c k (.operation (.value v)) s') :
      Flattens (.value e) s c k (.values [v]) s'
  | temporary {e : Tree.Expr} {name : String} {s s₁ s' : State} {c : Code} {k : List Flow.Class}
      {r : Flow.Expr} (he : Flattens (.expr e) s c k (.operation r) s₁)
      (hr : ∀ v, r ≠ .value v) (hname : Builds (fresh "valname") s₁ name s') :
      Flattens (.value e) s (c ++ temporary name e.ty r) k (.values [.id name]) s'
  | noValues (s : State) : Flattens (.values []) s [] [] (.values []) s
  | moreValues {e : Tree.Expr} {es : List Tree.Expr} {s s₁ s' : State} {c₁ c₂ : Code}
      {k₁ k₂ : List Flow.Class} {v : Value} {vs : List Value}
      (he : Flattens (.value e) s c₁ k₁ (.values [v]) s₁)
      (hes : Flattens (.values es) s₁ c₂ k₂ (.values vs) s') :
      Flattens (.values (e :: es)) s (c₁ ++ c₂) (k₁ ++ k₂) (.values (v :: vs)) s'
  | object {className name : String} {ty : Ty} {slot : Nat} {bitmap : UInt32} {layout : Layout}
      {s s' : State} (hslot : s.catalog.startOf className = .ok slot)
      (hbitmap : s.catalog.bitmapOf className = .ok bitmap)
      (hlayout : s.catalog.layoutOf className = .ok layout)
      (hname : Builds (fresh "newObj") s name s') :
      Flattens (.object className ty) s (objectCode className ty slot bitmap layout name) []
        (.values [.id name]) s'
  | noFilter (test : Label) (s : State) : Flattens (.filter test none) s [] [] .nothing s
  | filter {test add : Label} {cond : Tree.Expr} {s s₁ s' : State} {c : Code}
      {k : List Flow.Class} {v : Value} (hadd : Builds (fresh "$compadd") s add s₁)
      (hcond : Flattens (.value cond) s₁ c k (.values [v]) s') :
      Flattens (.filter test (some cond)) s
        (c ++ [.emit (.branch v add test), .mark add]) k .nothing s'
  -- statements
  | assign (loop : Option LoopLabels) (loc : Location) (name : String) {e : Tree.Expr}
      {s s' : State} {c : Code} {k : List Flow.Class} {r : Flow.Expr}
      (he : Flattens (.expr e) s c k (.operation r) s') :
      Flattens (.stmt loop (.assign loc name e)) s (c ++ [.emit (.assign name r)]) k .nothing s'
  | ret (loop : Option LoopLabels) (loc : Location) {e : Tree.Expr} {next : Label}
      {s s₁ s' : State} {c : Code} {k : List Flow.Class} {v : Value}
      (he : Flattens (.value e) s c k (.values [v]) s₁)
      (hnext : Builds (fresh "$unreachable") s₁ next s') :
      Flattens (.stmt loop (.ret loc e)) s (c ++ [.emit (.ret v), .mark next]) k .nothing s'
  | exprStmt (loop : Option LoopLabels) (loc : Location) {e : Tree.Expr} {s s' : State} {c : Code}
      {k : List Flow.Class} {r : Flow.Expr} (he : Flattens (.expr e) s c k (.operation r) s') :
      Flattens (.stmt loop (.expr loc e)) s (c ++ [.emit (.expr r)]) k .nothing s'
  | pass (loop : Option LoopLabels) (loc : Location) (s : State) :
      Flattens (.stmt loop (.pass loc)) s [] [] .nothing s
  | strayContinue (loc : Location) (s : State) :
      Flattens (.stmt none (.continueLoop loc)) s [] [] .nothing s
  | strayBreak (loc : Location) (s : State) :
      Flattens (.stmt none (.breakLoop loc)) s [] [] .nothing s
  | continueLoop (labels : LoopLabels) (loc : Location) {next : Label} {s s' : State}
      (hnext : Builds (fresh "$unreachable") s next s') :
      Flattens (.stmt (some labels) (.continueLoop loc)) s
        [.emit (.jump labels.test), .mark next] [] .nothing s'
  | breakLoop (labels : LoopLabels) (loc : Location) {next : Label} {s s' : State}
      (hnext : Builds (fresh "$unreachable") s next s') :
      Flattens (.stmt (some labels) (.breakLoop loc)) s
        [.emit (.jump labels.after), .mark next] [] .nothing s'
  | fieldAssign (loop : Option LoopLabels) (loc : Location) {obj content : Tree.Expr}
      {field className : String} {entry : Field} {s s₁ s' : State} {c₁ c₂ : Code}
      {k₁ k₂ : List Flow.Class} {o v : Value} (hclass : obj.ty = .object className)
      (hentry : s.catalog.fieldOf className field = .ok entry)
      (hobj : Flattens (.value obj) s c₁ k₁ (.values [o]) s₁)
      (hcontent : Flattens (.value content) s₁ c₂ k₂ (.values [v]) s') :
      Flattens (.stmt loop (.fieldAssign loc obj field content)) s
        (c₁ ++ c₂ ++ [Code.guardObject o loc, .emit (.store o entry.offset v)]) (k₁ ++ k₂)
        .nothing s'
  | ifElse (loop : Option LoopLabels) (loc : Location) {cond : Tree.Expr}
      {onTrue onFalse : List Tree.Stmt} {thenLabel elseLabel after : Label}
      {s s₁ s₂ s₃ s₄ s₅ s' : State} {c₁ c₂ c₃ : Code} {k₁ k₂ k₃ : List Flow.Class} {v : Value}
      (hthen : Builds (fresh "$then") s thenLabel s₁)
      (helse : Builds (fresh "$else") s₁ elseLabel s₂)
      (hafter : Builds (fresh "$end") s₂ after s₃)
      (hcond : Flattens (.value cond) s₃ c₁ k₁ (.values [v]) s₄)
      (htrue : Flattens (.stmts loop onTrue) s₄ c₂ k₂ .nothing s₅)
      (hfalse : Flattens (.stmts loop onFalse) s₅ c₃ k₃ .nothing s') :
      Flattens (.stmt loop (.ifElse loc cond onTrue onFalse)) s
        (choice c₁ v thenLabel elseLabel after c₂ c₃) (k₁ ++ (k₂ ++ k₃)) .nothing s'
  | whileLoop (loop : Option LoopLabels) (loc : Location) {cond : Tree.Expr}
      {sources : List Tree.Stmt} {test body after : Label} {s s₁ s₂ s₃ s₄ s' : State}
      {c₁ c₂ : Code} {k₁ k₂ : List Flow.Class} {v : Value}
      (htest : Builds (fresh "$whilestart") s test s₁)
      (hbody : Builds (fresh "$whilebody") s₁ body s₂)
      (hafter : Builds (fresh "$whileend") s₂ after s₃)
      (hcond : Flattens (.value cond) s₃ c₁ k₁ (.values [v]) s₄)
      (hsources : Flattens (.stmts (some ⟨test, after⟩) sources) s₄ c₂ k₂ .nothing s') :
      Flattens (.stmt loop (.whileLoop loc cond sources)) s
        (round test body after c₁ v c₂) (k₁ ++ k₂) .nothing s'
  | forLoop (loop : Option LoopLabels) (loc : Location) (elem : String) {iterable : Tree.Expr}
      {sources : List Tree.Stmt} {className more : String} {test body after : Label}
      {s s₁ s₂ s₃ s₄ s₅ s' : State} {c₁ c₂ : Code} {k₁ k₂ : List Flow.Class} {v : Value}
      (htest : Builds (fresh "$forstart") s test s₁)
      (hbody : Builds (fresh "$forbody") s₁ body s₂)
      (hafter : Builds (fresh "$forend") s₂ after s₃)
      (hiterable : Flattens (.value iterable) s₃ c₁ k₁ (.values [v]) s₄)
      (hclass : iterable.ty = .object className)
      (hmore : Builds (fresh "valname") s₄ more s₅)
      (hsources : Flattens (.stmts (some ⟨test, after⟩) sources) s₅ c₂ k₂ .nothing s') :
      Flattens (.stmt loop (.forLoop loc elem iterable sources)) s
        (c₁ ++ Code.guardObject v iterable.loc :: .emit (.expr (callOn v className "reset")) ::
          round test body after
            (Code.guardObject v iterable.loc ::
              temporary more .bool (callOn v className "hasNext"))
            (.id more)
            (Code.guardObject v iterable.loc ::
              .emit (.assign elem (callOn v className "next")) :: c₂))
        (k₁ ++ k₂) .nothing s'
  | noStmts (loop : Option LoopLabels) (s : State) : Flattens (.stmts loop []) s [] [] .nothing s
  | moreStmts {loop : Option LoopLabels} {source : Tree.Stmt} {sources : List Tree.Stmt}
      {s s₁ s' : State} {c₁ c₂ : Code} {k₁ k₂ : List Flow.Class}
      (hsource : Flattens (.stmt loop source) s c₁ k₁ .nothing s₁)
      (hsources : Flattens (.stmts loop sources) s₁ c₂ k₂ .nothing s') :
      Flattens (.stmts loop (source :: sources)) s (c₁ ++ c₂) (k₁ ++ k₂) .nothing s'
  -- functions inside a body
  | noClosures (s : State) : Flattens (.closures []) s [] [] .nothing s
  | moreClosures (closure : Closure) {cs : List Closure} {initLabel applyLabel : Label}
      {s s₁ s₂ s₃ s' : State} {code : Code} {k₁ k₂ : List Flow.Class}
      (hinit : Builds (fresh "$startFun") s initLabel s₁)
      (happly : Builds (fresh "$startFun") s₁ applyLabel s₂)
      (hbody : Flattens (.stmts none closure.body) s₂ code k₁ .nothing s₃)
      (hcs : Flattens (.closures cs)
        { s₃ with generated := s₃.generated ++ [closure.classOf initLabel applyLabel code] }
        [] k₂ .nothing s') :
      Flattens (.closures (closure :: cs)) s []
        (k₁ ++ closure.classOf initLabel applyLabel code :: k₂) .nothing s'
  | noFunctions (enclosing : List String) (s : State) :
      Flattens (.prologue enclosing []) s [] [] .nothing s
  | moreFunctions {enclosing : List String} {f : Tree.Function} {fs : List Tree.Function}
      {s s₁ s₂ s₃ s₄ s' : State} {c₁ c₂ : Code} {k₁ k₂ k₃ : List Flow.Class}
      (hpaths : Builds (recordPaths enclosing f) s () s₁)
      (henter : Builds ((Closure.ofFunction enclosing f).forM fun c =>
        enterClosure c.name c.params) s₁ () s₂)
      (hclosures : Flattens (.closures (Closure.ofFunction enclosing f)) s₂ [] k₁ .nothing s₃)
      (hconstruction : Flattens (.stmt none (Closure.construction enclosing f)) s₃ c₁ k₂
        .nothing s₄)
      (hfs : Flattens (.prologue enclosing fs) s₄ c₂ k₃ .nothing s') :
      Flattens (.prologue enclosing (f :: fs)) s (c₁ ++ c₂) (k₁ ++ (k₂ ++ k₃)) .nothing s'

/-! ## What building can do -/

section Steps

variable {α β : Type} {act : Build α} {next : α → Build β} {s s' : State} {a : α} {b : β}
  {c c' : Code} {r : Flow.Expr} {v : Value} {ty : Ty} {loc : Location} {className : String}

theorem Builds.bind_inv (h : Builds (act >>= next) s b s') :
    ∃ a s₁, Builds act s a s₁ ∧ Builds (next a) s₁ b s' :=
  runOn_bind_inv h

theorem builds_pure {a' : α} (h : Builds (pure a) s a' s') : a = a' ∧ s = s' :=
  ⟨Except.ok.inj (Prod.mk.inj h).1, (Prod.mk.inj h).2⟩

theorem builds_pure_pair {a' : α} {b' : β} (h : Builds (pure (a, b)) s (a', b') s') :
    a = a' ∧ b = b' ∧ s = s' := by
  obtain ⟨heq, hs⟩ := builds_pure h
  exact ⟨(Prod.mk.inj heq).1, (Prod.mk.inj heq).2, hs⟩

theorem builds_fresh {base name : String} (h : Builds (fresh base) s name s') :
    s.names.fresh base = (name, s'.names) ∧ s'.catalog = s.catalog ∧
      s'.generated = s.generated := by
  obtain ⟨hname, rfl⟩ := Prod.mk.inj h
  obtain rfl := Except.ok.inj hname
  exact ⟨rfl, rfl, rfl⟩

theorem builds_update {change : Catalog → Catalog} {a : Unit}
    (h : Builds (update change) s a s') : s' = { s with catalog := change s.catalog } :=
  (Prod.mk.inj h).2.symm

theorem builds_enter {name : String} {fields : List Tree.Decl} {methods : List (String × Nat)}
    {a : Unit} (h : Builds (enter name fields methods) s a s') :
    s' = { s with catalog := withClass s.catalog name fields methods } :=
  builds_update h

theorem builds_updates {f : α → Build PUnit}
    (hf : ∀ a s s', Builds (f a) s ⟨⟩ s' → ∃ catalog, s' = { s with catalog := catalog })
    {as : List α} (h : Builds (as.forM f) s ⟨⟩ s') :
    ∃ catalog, s' = { s with catalog := catalog } := by
  induction as generalizing s with
  | nil => exact ⟨s.catalog, (builds_pure h).2.symm⟩
  | cons a as ih =>
      obtain ⟨⟨⟩, s₁, hfirst, hrest⟩ := h.bind_inv
      obtain ⟨_, rfl⟩ := hf a s s₁ hfirst
      obtain ⟨catalog, rfl⟩ := ih hrest
      exact ⟨catalog, rfl⟩

theorem builds_recordPaths {enclosing : List String} {f : Tree.Function}
    (h : Builds (recordPaths enclosing f) s ⟨⟩ s') :
    ∃ catalog, s' = { s with catalog := catalog } := ⟨_, builds_update h⟩

theorem builds_enterClosures {cs : List Closure}
    (h : Builds (cs.forM fun c => enterClosure c.name c.params) s ⟨⟩ s') :
    ∃ catalog, s' = { s with catalog := catalog } :=
  builds_updates (fun _ _ _ henter => ⟨_, builds_enter henter⟩) h

theorem builds_ask {look : Catalog → Except Fault α} (h : Builds (ask look) s a s') :
    look s.catalog = .ok a ∧ s = s' :=
  Prod.mk.inj h

theorem builds_classOf {use : ObjectUse} (h : Builds (classOf use ty loc) s className s') :
    ty = .object className ∧ s = s' := by
  cases ty with
  | object name =>
      obtain ⟨rfl, hs⟩ := builds_pure h
      exact ⟨rfl, hs⟩
  | _ => exact nomatch (Prod.mk.inj h).1

theorem builds_lambdaSignature {params : List String} {signature : List Parameter × Ty}
    (h : Builds (lambdaSignature params ty) s signature s') : s = s' := by
  unfold lambdaSignature at h
  split at h
  · split at h
    · exact (builds_pure h).2
    · exact nomatch (Prod.mk.inj h).1
  · exact nomatch (Prod.mk.inj h).1

theorem builds_leave {stmt : Flow.Stmt} (h : Builds (leave stmt) s c s') :
    ∃ next, Builds (fresh "$unreachable") s next s' ∧ c = [.emit stmt, .mark next] := by
  obtain ⟨next, s₁, hnext, h⟩ := h.bind_inv
  obtain ⟨rfl, rfl⟩ := builds_pure h
  exact ⟨next, hnext, rfl⟩

theorem builds_checkedCall {receiver : Value} {method : String}
    (h : Builds (checkedCall receiver ty method loc) s (c, r) s') :
    ∃ className, ty = .object className ∧ c = [Code.guardObject receiver loc] ∧
      r = callOn receiver className method ∧ s = s' := by
  obtain ⟨className, s₁, hclass, h⟩ := h.bind_inv
  obtain ⟨rfl, rfl⟩ := builds_classOf hclass
  obtain ⟨rfl, rfl, rfl⟩ := builds_pure_pair h
  exact ⟨className, rfl, rfl, rfl, rfl⟩

theorem builds_temporary (h : Builds (toValue ty c r) s (c', v) s') (hr : ∀ v, r ≠ .value v) :
    ∃ name, Builds (fresh "valname") s name s' ∧ c' = c ++ temporary name ty r ∧ v = .id name := by
  rw [toValue_of_ne ty c hr] at h
  obtain ⟨name, s₁, hname, h⟩ := h.bind_inv
  obtain ⟨rfl, rfl, rfl⟩ := builds_pure_pair h
  exact ⟨name, hname, rfl, rfl⟩

theorem builds_keep {k : Flow.Class} {a : Unit} (h : Builds (keep k) s a s') :
    s' = { s with generated := s.generated ++ [k] } :=
  (Prod.mk.inj h).2.symm

theorem builds_closureClass {name : String} {params : List Parameter} {decls : List Flow.Decl}
    {body : Build Code} {k : Flow.Class}
    (h : Builds (closureClass name params ty decls body) s k s') :
    ∃ initLabel applyLabel code s₁ s₂, Builds (fresh "$startFun") s initLabel s₁ ∧
      Builds (fresh "$startFun") s₁ applyLabel s₂ ∧ Builds body s₂ code s' ∧
      k = ⟨name, [], [
        ⟨methodName name initName, [⟨selfName, .object name⟩], .none, [],
          Code.blocks initLabel []⟩,
        ⟨methodName name applyName, params, ty, code.temporaries ++ decls,
          code.blocks applyLabel⟩]⟩ := by
  obtain ⟨initLabel, s₁, hinit, h⟩ := h.bind_inv
  obtain ⟨applyLabel, s₂, happly, h⟩ := h.bind_inv
  obtain ⟨code, s₃, hbody, h⟩ := h.bind_inv
  obtain ⟨rfl, rfl⟩ := builds_pure h
  exact ⟨initLabel, applyLabel, code, s₁, s₂, hinit, happly, hbody, rfl⟩

theorem flattens_object (h : Builds (make className ty) s (c, v) s') :
    Flattens (.object className ty) s c [] (.values [v]) s' := by
  obtain ⟨slot, s₁, hask₁, h⟩ := h.bind_inv
  obtain ⟨hslot, rfl⟩ := builds_ask hask₁
  obtain ⟨bitmap, s₂, hask₂, h⟩ := h.bind_inv
  obtain ⟨hbitmap, rfl⟩ := builds_ask hask₂
  obtain ⟨layout, s₃, hask₃, h⟩ := h.bind_inv
  obtain ⟨hlayout, rfl⟩ := builds_ask hask₃
  obtain ⟨name, s₄, hname, h⟩ := h.bind_inv
  obtain ⟨rfl, rfl, rfl⟩ := builds_pure_pair h
  exact .object hslot hbitmap hlayout hname

theorem flattens_toValue {e : Tree.Expr} {s₁ : State} {k : List Flow.Class}
    (he : Flattens (.expr e) s c k (.operation r) s₁)
    (h : Builds (toValue e.ty c r) s₁ (c', v) s') :
    Flattens (.value e) s c' k (.values [v]) s' := by
  by_cases hr : ∃ w, r = .value w
  · obtain ⟨w, rfl⟩ := hr
    obtain ⟨rfl, rfl, rfl⟩ := builds_pure_pair h
    exact .settled he
  · have hne : ∀ w, r ≠ .value w := fun w heq => hr ⟨w, heq⟩
    obtain ⟨name, hname, rfl, rfl⟩ := builds_temporary h hne
    exact .temporary he hne hname

theorem flattens_ret {e : Tree.Expr} {s₁ : State} {k : List Flow.Class}
    (loop : Option LoopLabels) (loc : Location) (he : Flattens (.value e) s c k (.values [v]) s₁)
    (h : Builds (leave (.ret v)) s₁ c' s') :
    Flattens (.stmt loop (.ret loc e)) s (c ++ c') k .nothing s' := by
  obtain ⟨next, hnext, rfl⟩ := builds_leave h
  exact .ret loop loc he hnext

theorem Flattens.congr {part : Part} {result : Result} {k : List Flow.Class}
    (h : Flattens part s c k result s') (hc : c = c') : Flattens part s c' k result s' :=
  hc ▸ h

theorem Flattens.single {loop : Option LoopLabels} {source : Tree.Stmt} {k : List Flow.Class}
    (h : Flattens (.stmt loop source) s c k .nothing s') :
    Flattens (.stmts loop [source]) s c k .nothing s' := by
  simpa using Flattens.moreStmts h (.noStmts loop s')

end Steps

/-! ## Whatever is built is flattened -/

mutual
theorem flattens_expr (e : Tree.Expr) {s s' : State} {c : Code} {r : Flow.Expr}
    (h : Builds (expr e) s (c, r) s') :
    ∃ k, Flattens (.expr e) s c k (.operation r) s' := by
  match e with
  | .literal n value =>
      obtain ⟨rfl, rfl, rfl⟩ := builds_pure_pair h
      exact ⟨[], .literal n value s⟩
  | .id n name =>
      obtain ⟨rfl, rfl, rfl⟩ := builds_pure_pair h
      exact ⟨[], .id n name s⟩
  | .binary n op left right =>
      rw [expr] at h
      obtain ⟨⟨c₀, r₀⟩, s₀, hleft, h⟩ := h.bind_inv
      obtain ⟨⟨c₁, l⟩, s₁, hl, h⟩ := h.bind_inv
      obtain ⟨⟨c₂, r₂⟩, s₂, hright, h⟩ := h.bind_inv
      obtain ⟨⟨c₃, v⟩, s₃, hv, h⟩ := h.bind_inv
      obtain ⟨rfl, rfl, rfl⟩ := builds_pure_pair h
      obtain ⟨k₁, hleft⟩ := flattens_expr left hleft
      obtain ⟨k₂, hright⟩ := flattens_expr right hright
      exact ⟨_, .binary n op (flattens_toValue hleft hl) (flattens_toValue hright hv)⟩
  | .unary n op operand =>
      rw [expr] at h
      obtain ⟨⟨c₀, r₀⟩, s₀, hoperand, h⟩ := h.bind_inv
      obtain ⟨⟨c₁, v⟩, s₁, hv, h⟩ := h.bind_inv
      obtain ⟨rfl, rfl, rfl⟩ := builds_pure_pair h
      obtain ⟨k, hoperand⟩ := flattens_expr operand hoperand
      exact ⟨k, .unary n op (flattens_toValue hoperand hv)⟩
  | .builtin1 n name arg =>
      rw [expr] at h
      obtain ⟨⟨c₀, r₀⟩, s₀, harg, h⟩ := h.bind_inv
      obtain ⟨⟨c₁, v⟩, s₁, hv, h⟩ := h.bind_inv
      obtain ⟨rfl, rfl, rfl⟩ := builds_pure_pair h
      obtain ⟨k, harg⟩ := flattens_expr arg harg
      exact ⟨k, .builtin1 n name (flattens_toValue harg hv)⟩
  | .builtin2 n name left right =>
      rw [expr] at h
      obtain ⟨⟨c₀, r₀⟩, s₀, hleft, h⟩ := h.bind_inv
      obtain ⟨⟨c₁, l⟩, s₁, hl, h⟩ := h.bind_inv
      obtain ⟨⟨c₂, r₂⟩, s₂, hright, h⟩ := h.bind_inv
      obtain ⟨⟨c₃, v⟩, s₃, hv, h⟩ := h.bind_inv
      obtain ⟨rfl, rfl, rfl⟩ := builds_pure_pair h
      obtain ⟨k₁, hleft⟩ := flattens_expr left hleft
      obtain ⟨k₂, hright⟩ := flattens_expr right hright
      exact ⟨_, .builtin2 n name (flattens_toValue hleft hl) (flattens_toValue hright hv)⟩
  | .call n callee args =>
      rw [expr] at h
      obtain ⟨⟨c₀, r₀⟩, s₀, hcallee, h⟩ := h.bind_inv
      obtain ⟨⟨c₁, f⟩, s₁, hf, h⟩ := h.bind_inv
      obtain ⟨⟨c₂, vs⟩, s₂, hargs, h⟩ := h.bind_inv
      obtain ⟨rfl, rfl, rfl⟩ := builds_pure_pair h
      obtain ⟨k₁, hcallee⟩ := flattens_expr callee hcallee
      obtain ⟨k₂, hargs⟩ := flattens_values args hargs
      exact ⟨_, .call n (flattens_toValue hcallee hf) hargs⟩
  | .lookup n obj field =>
      rw [expr] at h
      obtain ⟨className, s₀, hobject, h⟩ := h.bind_inv
      obtain ⟨hclass, rfl⟩ := builds_classOf hobject
      obtain ⟨entry, s₁, hfield, h⟩ := h.bind_inv
      obtain ⟨hentry, rfl⟩ := builds_ask hfield
      obtain ⟨⟨c₀, r₀⟩, s₂, hobj, h⟩ := h.bind_inv
      obtain ⟨⟨c₁, v⟩, s₃, hv, h⟩ := h.bind_inv
      obtain ⟨rfl, rfl, rfl⟩ := builds_pure_pair h
      obtain ⟨k, hobj⟩ := flattens_expr obj hobj
      exact ⟨k, .lookup n hclass hentry (flattens_toValue hobj hv)⟩
  | .methodCall n obj method args =>
      rw [expr] at h
      obtain ⟨className, s₀, hobject, h⟩ := h.bind_inv
      obtain ⟨hclass, rfl⟩ := builds_classOf hobject
      obtain ⟨⟨c₀, r₀⟩, s₁, hobj, h⟩ := h.bind_inv
      obtain ⟨⟨c₁, v⟩, s₂, hv, h⟩ := h.bind_inv
      obtain ⟨⟨c₂, vs⟩, s₃, hargs, h⟩ := h.bind_inv
      obtain ⟨rfl, rfl, rfl⟩ := builds_pure_pair h
      obtain ⟨k₁, hobj⟩ := flattens_expr obj hobj
      obtain ⟨k₂, hargs⟩ := flattens_values args hargs
      exact ⟨_, .methodCall n hclass (flattens_toValue hobj hv) hargs⟩
  | .construct n className =>
      rw [expr] at h
      obtain ⟨⟨c₀, v⟩, s₀, hmake, h⟩ := h.bind_inv
      obtain ⟨rfl, rfl, rfl⟩ := builds_pure_pair h
      exact ⟨[], .construct n (flattens_object hmake)⟩
  | .listComp n item elem iterable cond =>
      rw [expr] at h
      obtain ⟨test, s₁, htest, h⟩ := h.bind_inv
      obtain ⟨body, s₂, hbody, h⟩ := h.bind_inv
      obtain ⟨after, s₃, hafter, h⟩ := h.bind_inv
      obtain ⟨⟨c₀, r₀⟩, s₄, hiterable, h⟩ := h.bind_inv
      obtain ⟨⟨c₁, v⟩, s₅, hv, h⟩ := h.bind_inv
      obtain ⟨⟨c₂, r₂⟩, s₆, hhasNext, h⟩ := h.bind_inv
      obtain ⟨className, hclass, rfl, rfl, rfl⟩ := builds_checkedCall hhasNext
      obtain ⟨⟨c₃, w⟩, s₇, hkeep, h⟩ := h.bind_inv
      obtain ⟨more, hmore, rfl, rfl⟩ := builds_temporary hkeep nofun
      obtain ⟨⟨c₄, r₄⟩, s₈, hnext, h⟩ := h.bind_inv
      obtain ⟨className', hclass', rfl, rfl, rfl⟩ := builds_checkedCall hnext
      obtain rfl := Ty.object.inj (hclass.symm.trans hclass')
      obtain ⟨c₅, s₉, hfilter, h⟩ := h.bind_inv
      obtain ⟨⟨c₆, r₆⟩, s₁₀, hitem, h⟩ := h.bind_inv
      obtain ⟨⟨c₇, i⟩, s₁₁, hi, h⟩ := h.bind_inv
      obtain ⟨rfl, rfl, rfl⟩ := builds_pure_pair h
      obtain ⟨k₁, hiterable⟩ := flattens_expr iterable hiterable
      obtain ⟨k₂, hfilter⟩ := flattens_filter test cond hfilter
      obtain ⟨k₃, hitem⟩ := flattens_expr item hitem
      have hflat := Flattens.listComp n elem htest hbody hafter (flattens_toValue hiterable hv)
        hclass hmore hfilter (flattens_toValue hitem hi)
      exact ⟨_, hflat.congr (by simp [round, temporary])⟩
  | .ifExpr n cond onTrue onFalse =>
      rw [expr] at h
      obtain ⟨thenLabel, s₁, hthen, h⟩ := h.bind_inv
      obtain ⟨elseLabel, s₂, helse, h⟩ := h.bind_inv
      obtain ⟨after, s₃, hafter, h⟩ := h.bind_inv
      obtain ⟨tmp, s₄, htmp, h⟩ := h.bind_inv
      obtain ⟨⟨c₀, r₀⟩, s₅, hcond, h⟩ := h.bind_inv
      obtain ⟨⟨c₁, v⟩, s₆, hv, h⟩ := h.bind_inv
      obtain ⟨⟨c₂, t⟩, s₇, htrue, h⟩ := h.bind_inv
      obtain ⟨⟨c₃, f⟩, s₈, hfalse, h⟩ := h.bind_inv
      obtain ⟨rfl, rfl, rfl⟩ := builds_pure_pair h
      obtain ⟨k₁, hcond⟩ := flattens_expr cond hcond
      obtain ⟨k₂, htrue⟩ := flattens_expr onTrue htrue
      obtain ⟨k₃, hfalse⟩ := flattens_expr onFalse hfalse
      have hflat := Flattens.ifExpr n hthen helse hafter htmp (flattens_toValue hcond hv) htrue
        hfalse
      exact ⟨_, hflat.congr (by simp [choice])⟩
  | .lambda n params body =>
      rw [expr] at h
      obtain ⟨⟨ps, ret⟩, s₀, hsignature, h⟩ := h.bind_inv
      obtain rfl := builds_lambdaSignature hsignature
      obtain ⟨name, s₁, hname, h⟩ := h.bind_inv
      obtain ⟨⟨⟩, s₂, henter, h⟩ := h.bind_inv
      obtain ⟨k, s₃, hclass, h⟩ := h.bind_inv
      obtain ⟨initLabel, applyLabel, code, s₄, s₅, hinit, happly, hbody, rfl⟩ :=
        builds_closureClass hclass
      obtain ⟨⟨⟩, s₆, hkeep, h⟩ := h.bind_inv
      obtain rfl := builds_keep hkeep
      obtain ⟨⟨c₁, v⟩, s₇, hmake, h⟩ := h.bind_inv
      obtain ⟨rfl, rfl, rfl⟩ := builds_pure_pair h
      obtain ⟨⟨c₂, r₂⟩, s₈, hexpr, hbody⟩ := hbody.bind_inv
      obtain ⟨⟨c₃, w⟩, s₉, hw, hbody⟩ := hbody.bind_inv
      obtain ⟨c₄, s₁₀, hleave, hbody⟩ := hbody.bind_inv
      obtain ⟨rfl, rfl⟩ := builds_pure hbody
      obtain ⟨k, hexpr⟩ := flattens_expr body hexpr
      have hret := (flattens_ret none body.loc (flattens_toValue hexpr hw) hleave).single
      exact ⟨_, .lambda n hsignature hname henter
        (.moreClosures (lambdaClosure name ps ret body) hinit happly hret (.noClosures _))
        (flattens_object hmake)⟩

theorem flattens_values (es : List Tree.Expr) {s s' : State} {c : Code} {vs : List Value}
    (h : Builds (values es) s (c, vs) s') :
    ∃ k, Flattens (.values es) s c k (.values vs) s' := by
  match es with
  | [] =>
      obtain ⟨rfl, rfl, rfl⟩ := builds_pure_pair h
      exact ⟨[], .noValues s⟩
  | e :: es =>
      rw [values] at h
      obtain ⟨⟨c₀, r₀⟩, s₀, he, h⟩ := h.bind_inv
      obtain ⟨⟨c₁, v⟩, s₁, hv, h⟩ := h.bind_inv
      obtain ⟨⟨c₂, vs⟩, s₂, hes, h⟩ := h.bind_inv
      obtain ⟨rfl, rfl, rfl⟩ := builds_pure_pair h
      obtain ⟨k₁, he⟩ := flattens_expr e he
      obtain ⟨k₂, hes⟩ := flattens_values es hes
      exact ⟨_, .moreValues (flattens_toValue he hv) hes⟩

theorem flattens_filter (test : Label) (cond : Option Tree.Expr) {s s' : State} {c : Code}
    (h : Builds (keepIf test cond) s c s') :
    ∃ k, Flattens (.filter test cond) s c k .nothing s' := by
  match cond with
  | none =>
      obtain ⟨rfl, rfl⟩ := builds_pure h
      exact ⟨[], .noFilter test s⟩
  | some cond =>
      rw [keepIf] at h
      obtain ⟨add, s₀, hadd, h⟩ := h.bind_inv
      obtain ⟨⟨c₁, r₁⟩, s₁, hcond, h⟩ := h.bind_inv
      obtain ⟨⟨c₂, v⟩, s₂, hv, h⟩ := h.bind_inv
      obtain ⟨rfl, rfl⟩ := builds_pure h
      obtain ⟨k, hcond⟩ := flattens_expr cond hcond
      exact ⟨k, .filter hadd (flattens_toValue hcond hv)⟩
end

theorem flattens_value {e : Tree.Expr} {s s' : State} {c : Code} {v : Value}
    (h : Builds (value e) s (c, v) s') : ∃ k, Flattens (.value e) s c k (.values [v]) s' := by
  obtain ⟨⟨c₀, r₀⟩, s₁, he, hv⟩ := h.bind_inv
  obtain ⟨k, he⟩ := flattens_expr e he
  exact ⟨k, flattens_toValue he hv⟩

mutual
theorem flattens_stmt (loop : Option LoopLabels) (source : Tree.Stmt) {s s' : State} {c : Code}
    (h : Builds (stmt loop source) s c s') :
    ∃ k, Flattens (.stmt loop source) s c k .nothing s' := by
  match source with
  | .assign loc name e =>
      rw [stmt] at h
      obtain ⟨⟨c₀, r⟩, s₁, he, h⟩ := h.bind_inv
      obtain ⟨rfl, rfl⟩ := builds_pure h
      obtain ⟨k, he⟩ := flattens_expr e he
      exact ⟨k, .assign loop loc name he⟩
  | .ret loc e =>
      rw [stmt] at h
      obtain ⟨⟨c₀, v⟩, s₁, he, h⟩ := h.bind_inv
      obtain ⟨c₁, s₂, hleave, h⟩ := h.bind_inv
      obtain ⟨rfl, rfl⟩ := builds_pure h
      obtain ⟨k, he⟩ := flattens_value he
      exact ⟨k, flattens_ret loop loc he hleave⟩
  | .expr loc e =>
      rw [stmt] at h
      obtain ⟨⟨c₀, r⟩, s₁, he, h⟩ := h.bind_inv
      obtain ⟨rfl, rfl⟩ := builds_pure h
      obtain ⟨k, he⟩ := flattens_expr e he
      exact ⟨k, .exprStmt loop loc he⟩
  | .pass loc =>
      rw [stmt] at h
      obtain ⟨rfl, rfl⟩ := builds_pure h
      exact ⟨[], .pass loop loc s⟩
  | .continueLoop loc =>
      cases loop with
      | none =>
          rw [stmt] at h
          obtain ⟨rfl, rfl⟩ := builds_pure h
          exact ⟨[], .strayContinue loc s⟩
      | some labels =>
          rw [stmt] at h
          obtain ⟨next, hnext, rfl⟩ := builds_leave h
          exact ⟨[], .continueLoop labels loc hnext⟩
  | .breakLoop loc =>
      cases loop with
      | none =>
          rw [stmt] at h
          obtain ⟨rfl, rfl⟩ := builds_pure h
          exact ⟨[], .strayBreak loc s⟩
      | some labels =>
          rw [stmt] at h
          obtain ⟨next, hnext, rfl⟩ := builds_leave h
          exact ⟨[], .breakLoop labels loc hnext⟩
  | .fieldAssign loc obj field content =>
      rw [stmt] at h
      obtain ⟨className, s₀, hobject, h⟩ := h.bind_inv
      obtain ⟨hclass, rfl⟩ := builds_classOf hobject
      obtain ⟨entry, s₁, hfield, h⟩ := h.bind_inv
      obtain ⟨hentry, rfl⟩ := builds_ask hfield
      obtain ⟨⟨c₀, o⟩, s₂, hobj, h⟩ := h.bind_inv
      obtain ⟨⟨c₁, v⟩, s₃, hcontent, h⟩ := h.bind_inv
      obtain ⟨rfl, rfl⟩ := builds_pure h
      obtain ⟨k₁, hobj⟩ := flattens_value hobj
      obtain ⟨k₂, hcontent⟩ := flattens_value hcontent
      exact ⟨_, .fieldAssign loop loc hclass hentry hobj hcontent⟩
  | .ifElse loc cond onTrue onFalse =>
      rw [stmt] at h
      obtain ⟨thenLabel, s₁, hthen, h⟩ := h.bind_inv
      obtain ⟨elseLabel, s₂, helse, h⟩ := h.bind_inv
      obtain ⟨after, s₃, hafter, h⟩ := h.bind_inv
      obtain ⟨⟨c₁, v⟩, s₄, hcond, h⟩ := h.bind_inv
      obtain ⟨c₂, s₅, htrue, h⟩ := h.bind_inv
      obtain ⟨c₃, s₆, hfalse, h⟩ := h.bind_inv
      obtain ⟨rfl, rfl⟩ := builds_pure h
      obtain ⟨k₁, hcond⟩ := flattens_value hcond
      obtain ⟨k₂, htrue⟩ := flattens_stmts loop onTrue htrue
      obtain ⟨k₃, hfalse⟩ := flattens_stmts loop onFalse hfalse
      have hflat := Flattens.ifElse loop loc hthen helse hafter hcond htrue hfalse
      exact ⟨_, hflat.congr (by simp [choice])⟩
  | .whileLoop loc cond sources =>
      rw [stmt] at h
      obtain ⟨test, s₁, htest, h⟩ := h.bind_inv
      obtain ⟨body, s₂, hbody, h⟩ := h.bind_inv
      obtain ⟨after, s₃, hafter, h⟩ := h.bind_inv
      obtain ⟨⟨c₁, v⟩, s₄, hcond, h⟩ := h.bind_inv
      obtain ⟨c₂, s₅, hsources, h⟩ := h.bind_inv
      obtain ⟨rfl, rfl⟩ := builds_pure h
      obtain ⟨k₁, hcond⟩ := flattens_value hcond
      obtain ⟨k₂, hsources⟩ := flattens_stmts (some ⟨test, after⟩) sources hsources
      have hflat := Flattens.whileLoop loop loc htest hbody hafter hcond hsources
      exact ⟨_, hflat.congr (by simp [round])⟩
  | .forLoop loc elem iterable sources =>
      rw [stmt] at h
      obtain ⟨test, s₁, htest, h⟩ := h.bind_inv
      obtain ⟨body, s₂, hbody, h⟩ := h.bind_inv
      obtain ⟨after, s₃, hafter, h⟩ := h.bind_inv
      obtain ⟨⟨c₁, v⟩, s₄, hiterable, h⟩ := h.bind_inv
      obtain ⟨⟨c₂, r₂⟩, s₅, hreset, h⟩ := h.bind_inv
      obtain ⟨className, hclass, rfl, rfl, rfl⟩ := builds_checkedCall hreset
      obtain ⟨⟨c₃, r₃⟩, s₆, hhasNext, h⟩ := h.bind_inv
      obtain ⟨className', hclass', rfl, rfl, rfl⟩ := builds_checkedCall hhasNext
      obtain rfl := Ty.object.inj (hclass.symm.trans hclass')
      obtain ⟨⟨c₄, w⟩, s₇, hkeep, h⟩ := h.bind_inv
      obtain ⟨more, hmore, rfl, rfl⟩ := builds_temporary hkeep nofun
      obtain ⟨⟨c₅, r₅⟩, s₈, hnext, h⟩ := h.bind_inv
      obtain ⟨className', hclass', rfl, rfl, rfl⟩ := builds_checkedCall hnext
      obtain rfl := Ty.object.inj (hclass.symm.trans hclass')
      obtain ⟨c₆, s₉, hsources, h⟩ := h.bind_inv
      obtain ⟨rfl, rfl⟩ := builds_pure h
      obtain ⟨k₁, hiterable⟩ := flattens_value hiterable
      obtain ⟨k₂, hsources⟩ := flattens_stmts (some ⟨test, after⟩) sources hsources
      have hflat := Flattens.forLoop loop loc elem htest hbody hafter hiterable hclass
        hmore hsources
      exact ⟨_, hflat.congr (by simp [round, temporary])⟩

theorem flattens_stmts (loop : Option LoopLabels) (sources : List Tree.Stmt) {s s' : State}
    {c : Code} (h : Builds (stmts loop sources) s c s') :
    ∃ k, Flattens (.stmts loop sources) s c k .nothing s' := by
  match sources with
  | [] =>
      obtain ⟨rfl, rfl⟩ := builds_pure h
      exact ⟨[], .noStmts loop s⟩
  | source :: sources =>
      rw [stmts] at h
      obtain ⟨c₁, s₁, hsource, h⟩ := h.bind_inv
      obtain ⟨c₂, s₂, hsources, h⟩ := h.bind_inv
      obtain ⟨rfl, rfl⟩ := builds_pure h
      obtain ⟨k₁, hsource⟩ := flattens_stmt loop source hsource
      obtain ⟨k₂, hsources⟩ := flattens_stmts loop sources hsources
      exact ⟨_, .moreStmts hsource hsources⟩
end

theorem flattens_closures {cs : List Closure} {s s' : State} {a : Unit}
    (h : Builds (cs.forM fun c => do keep (← closure c)) s a s') :
    ∃ k, Flattens (.closures cs) s [] k .nothing s' := by
  induction cs generalizing s with
  | nil =>
      obtain ⟨-, rfl⟩ := builds_pure h
      exact ⟨[], .noClosures s⟩
  | cons c cs ih =>
      obtain ⟨⟨⟩, s₁, hkept, h⟩ := h.bind_inv
      obtain ⟨k, s₂, hclass, hkept⟩ := hkept.bind_inv
      obtain ⟨initLabel, applyLabel, code, s₃, s₄, hinit, happly, hbody, rfl⟩ :=
        builds_closureClass hclass
      obtain rfl := builds_keep hkept
      obtain ⟨k₁, hbody⟩ := flattens_stmts none c.body hbody
      obtain ⟨k₂, hcs⟩ := ih h
      exact ⟨_, .moreClosures c hinit happly hbody hcs⟩

theorem flattens_prologue (enclosing : List String) {fs : List Tree.Function} {s s' : State}
    {c : Code} (h : Builds (prologue enclosing fs) s c s') :
    ∃ k, Flattens (.prologue enclosing fs) s c k .nothing s' := by
  induction fs generalizing s c with
  | nil =>
      obtain ⟨rfl, rfl⟩ := builds_pure h
      exact ⟨[], .noFunctions enclosing s⟩
  | cons f fs ih =>
      rw [prologue] at h
      obtain ⟨⟨⟩, s₁, hpaths, h⟩ := h.bind_inv
      obtain ⟨⟨⟩, s₂, hgenerate, h⟩ := h.bind_inv
      obtain ⟨⟨⟩, s₃, henter, hgenerate⟩ := hgenerate.bind_inv
      obtain ⟨c₁, s₄, hconstruction, h⟩ := h.bind_inv
      obtain ⟨c₂, s₅, hfs, h⟩ := h.bind_inv
      obtain ⟨rfl, rfl⟩ := builds_pure h
      obtain ⟨k₁, hclosures⟩ := flattens_closures hgenerate
      obtain ⟨k₂, hconstruction⟩ := flattens_stmt none _ hconstruction
      obtain ⟨k₃, hfs⟩ := ih hfs
      exact ⟨_, .moreFunctions hpaths henter hclosures hconstruction hfs⟩

end Midend.Linear
