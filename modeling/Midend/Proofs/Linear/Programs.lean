import Midend.Proofs.Linear.Flattening
/-!
# How a whole program is flattened

The bodies of a program one after another: the classes of its functions, the methods of its
classes and the code of its top level (`FlattensProgram`).  A program that is flattened without a
fault has been flattened in this way (`flattens_program`).

A relation that tracks building from step to step (`Tracks`) holds between the states before and
after any part, with the classes that turn up in between; one is that these are kept in order.
-/

namespace Midend.Linear

open Midend.Flow (Label)
open Build

/-- A list done entry by entry, with the classes that turn up on the way. -/
inductive Each {α β : Type} (R : α → State → β → List Flow.Class → State → Prop) :
    List α → State → List β → List Flow.Class → State → Prop
  | nil (s : State) : Each R [] s [] [] s
  | cons {x : α} {y : β} {xs : List α} {ys : List β} {k₁ k₂ : List Flow.Class}
      {s s₁ s' : State} (hfirst : R x s y k₁ s₁) (hrest : Each R xs s₁ ys k₂ s') :
      Each R (x :: xs) s (y :: ys) (k₁ ++ k₂) s'

inductive FlattensClosure (c : Closure) : State → Flow.Class → List Flow.Class → State → Prop
  | intro {initLabel applyLabel : Label} {s s₁ s₂ s' : State} {code : Code}
      {k : List Flow.Class} (hinit : Builds (fresh "$startFun") s initLabel s₁)
      (happly : Builds (fresh "$startFun") s₁ applyLabel s₂)
      (hbody : Flattens (.stmts none c.body) s₂ code k .nothing s') :
      FlattensClosure c s (c.classOf initLabel applyLabel code) k s'

inductive FlattensMethod (className : String) (f : Tree.Function) :
    State → Flow.Method → List Flow.Class → State → Prop
  | intro {label : Label} {s s₁ s₂ s' : State} {c₁ c₂ : Code} {k₁ k₂ : List Flow.Class}
      (hlabel : Builds (fresh "$startFun") s label s₁)
      (hprologue : Flattens (.prologue [className, f.name] f.children) s₁ c₁ k₁ .nothing s₂)
      (hbody : Flattens (.stmts none f.body) s₂ c₂ k₂ .nothing s') :
      FlattensMethod className f s
        ⟨methodName className f.name, f.params, f.ret,
          Code.temporaries (c₁ ++ c₂) ++
            (f.children.map (Closure.binding [className, f.name]) ++ f.decls).map decl,
          Code.blocks label (c₁ ++ c₂)⟩ (k₁ ++ k₂) s'

inductive FlattensClass (c : Tree.Class) :
    State → Flow.Class → List Flow.Class → State → Prop
  | intro {s s' : State} {methods : List Flow.Method} {k : List Flow.Class}
      (hmethods : Each (FlattensMethod c.name) c.methods s methods k s') :
      FlattensClass c s ⟨c.name, c.fields.map decl, methods⟩ k s'

/-- Enters everything that has a name at the top level into the catalog. -/
def enterAll (p : Tree.Program) : Build Unit := do
  p.functions.forM (recordPaths [])
  (Closure.ofFunctions [] p.functions).forM fun c => enterClosure c.name c.params
  p.classes.forM enterClass

inductive FlattensProgram (p : Tree.Program) : State → Flow.Program → State → Prop
  | intro {label : Label} {s s₁ s₂ s₃ s₄ s' : State} {functions classes : List Flow.Class}
      {code : Code} {k₁ k₂ k₃ : List Flow.Class}
      (hlabel : Builds (fresh "$startProg") s label s₁) (henter : Builds (enterAll p) s₁ () s₂)
      (hfunctions : Each FlattensClosure (Closure.ofFunctions [] p.functions) s₂ functions k₁ s₃)
      (hclasses : Each FlattensClass p.classes s₃ classes k₂ s₄)
      (hbody : Flattens (.stmts none (p.functions.map (Closure.construction []) ++ p.stmts)) s₄
        code k₃ .nothing s') :
      FlattensProgram p s
        ⟨code.temporaries ++ (p.functions.map (Closure.binding []) ++ p.decls).map decl,
          functions ++ classes ++ s'.generated, code.blocks label⟩
        { s' with
          catalog := (p.decls.map (·.name) ++ p.functions.map (·.name)).foldl Catalog.addGlobal
            s'.catalog }

/-! ## Whatever is built is flattened -/

theorem Builds.mapM {α β : Type} {f : α → Build β}
    {R : α → State → β → List Flow.Class → State → Prop}
    (hf : ∀ x s y s', Builds (f x) s y s' → ∃ k, R x s y k s') {xs : List α} {ys : List β}
    {s s' : State} (h : Builds (xs.mapM f) s ys s') : ∃ k, Each R xs s ys k s' := by
  induction xs generalizing s ys with
  | nil =>
      obtain ⟨rfl, rfl⟩ := builds_pure h
      exact ⟨[], .nil s⟩
  | cons x xs ih =>
      rw [List.mapM_cons] at h
      obtain ⟨y, s₁, hfirst, h⟩ := h.bind_inv
      obtain ⟨ys, s₂, hrest, h⟩ := h.bind_inv
      obtain ⟨rfl, rfl⟩ := builds_pure h
      obtain ⟨k₁, hfirst⟩ := hf x s y s₁ hfirst
      obtain ⟨k₂, hrest⟩ := ih hrest
      exact ⟨_, .cons hfirst hrest⟩

theorem flattens_closure (c : Closure) (s : State) (k : Flow.Class) (s' : State)
    (h : Builds (closure c) s k s') : ∃ ks, FlattensClosure c s k ks s' := by
  obtain ⟨initLabel, applyLabel, code, s₁, s₂, hinit, happly, hbody, rfl⟩ :=
    builds_closureClass h
  obtain ⟨ks, hbody⟩ := flattens_stmts none c.body hbody
  exact ⟨ks, .intro hinit happly hbody⟩

theorem flattens_method (className : String) (f : Tree.Function) (s : State) (m : Flow.Method)
    (s' : State) (h : Builds (method className f) s m s') :
    ∃ k, FlattensMethod className f s m k s' := by
  obtain ⟨label, s₁, hlabel, h⟩ := h.bind_inv
  obtain ⟨c₁, s₂, hprologue, h⟩ := h.bind_inv
  obtain ⟨c₂, s₃, hbody, h⟩ := h.bind_inv
  obtain ⟨rfl, rfl⟩ := builds_pure h
  obtain ⟨k₁, hprologue⟩ := flattens_prologue [className, f.name] hprologue
  obtain ⟨k₂, hbody⟩ := flattens_stmts none f.body hbody
  exact ⟨_, .intro hlabel hprologue hbody⟩

theorem flattens_class (c : Tree.Class) (s : State) (k : Flow.Class) (s' : State)
    (h : Builds (classDecl c) s k s') : ∃ ks, FlattensClass c s k ks s' := by
  obtain ⟨methods, s₁, hmethods, h⟩ := h.bind_inv
  obtain ⟨rfl, rfl⟩ := builds_pure h
  obtain ⟨ks, hmethods⟩ := hmethods.mapM (flattens_method c.name)
  exact ⟨ks, .intro hmethods⟩

theorem flattens_program {p : Tree.Program} {s s' : State} {flow : Flow.Program}
    (h : Builds (program p) s flow s') : FlattensProgram p s flow s' := by
  obtain ⟨label, s₁, hlabel, h⟩ := h.bind_inv
  obtain ⟨⟨⟩, t₁, hpaths, h⟩ := h.bind_inv
  obtain ⟨⟨⟩, t₂, hclosures, h⟩ := h.bind_inv
  obtain ⟨⟨⟩, s₂, hentered, h⟩ := h.bind_inv
  obtain ⟨functions, s₃, hfunctions, h⟩ := h.bind_inv
  obtain ⟨classes, s₄, hclasses, h⟩ := h.bind_inv
  obtain ⟨code, s₅, hbody, h⟩ := h.bind_inv
  obtain ⟨⟨⟩, s₆, hglobals, h⟩ := h.bind_inv
  obtain ⟨st, s₇, hget, h⟩ := h.bind_inv
  obtain ⟨rfl, rfl⟩ := builds_pure h
  obtain ⟨hst, rfl⟩ := Prod.mk.inj hget
  obtain rfl := Except.ok.inj hst
  obtain ⟨-, rfl⟩ := Prod.mk.inj hglobals
  have henter : Builds (enterAll p) s₁ () s₂ :=
    (runOn_bind_ok hpaths).trans ((runOn_bind_ok hclosures).trans hentered)
  obtain ⟨k₁, hfunctions⟩ := hfunctions.mapM flattens_closure
  obtain ⟨k₂, hclasses⟩ := hclasses.mapM flattens_class
  obtain ⟨k₃, hbody⟩ := flattens_stmts none _ hbody
  exact .intro hlabel henter hfunctions hclasses hbody

/-! ## What is kept on the way -/

theorem builds_enterClass {c : Tree.Class} {s s' : State} (h : Builds (enterClass c) s ⟨⟩ s') :
    ∃ catalog, s' = { s with catalog := catalog } := ⟨_, builds_enter h⟩

theorem builds_enterAll {p : Tree.Program} {s s' : State} (h : Builds (enterAll p) s () s') :
    ∃ catalog, s' = { s with catalog := catalog } := by
  obtain ⟨⟨⟩, s₁, hpaths, h⟩ := h.bind_inv
  obtain ⟨⟨⟩, s₂, hclosures, hclasses⟩ := h.bind_inv
  obtain ⟨_, rfl⟩ := builds_updates (fun _ _ _ => builds_recordPaths) hpaths
  obtain ⟨_, rfl⟩ := builds_enterClosures hclosures
  obtain ⟨catalog, rfl⟩ := builds_updates (fun _ _ _ => builds_enterClass) hclasses
  exact ⟨catalog, rfl⟩

/-- The closures that a part is to flatten whose classes have been entered before. -/
def Part.pending : Part → List Closure
  | .closures cs => cs
  | _ => []

/-- A relation between two states, some closures that are pending at the first and the classes that
turn up in between, that tracks building from step to step. -/
structure Tracks (R : State → List Closure → List Flow.Class → State → Prop) : Prop where
  refl (s : State) : R s [] [] s
  append {s s₁ s' : State} {cs cs' : List Closure} {k k' : List Flow.Class} :
    R s cs k s₁ → R s₁ cs' k' s' → R s (cs ++ cs') (k ++ k') s'
  fresh {s s' : State} {base name : String} : Builds (fresh base) s name s' → R s [] [] s'
  /-- The class of a pending closure is kept behind those that turn up in its body. -/
  closure {s s' : State} {c : Closure} {cls : Flow.Class} {k : List Flow.Class} :
    FlattensClosure c s cls k s' → R s [] k s' →
      R s [c] (k ++ [cls]) { s' with generated := s'.generated ++ [cls] }
  /-- A lambda is pending as soon as it has a name and its class is entered. -/
  lambda {s s₁ s₂ s' : State} {name : String} {c : Closure} {k : List Flow.Class} :
    Builds (Build.fresh "lambda") s name s₁ → Builds (enterClosure name c.params) s₁ () s₂ →
      c.name = name → R s₂ [c] k s' → R s [] k s'
  /-- So are the functions nested in a method. -/
  functions {s s₁ s₂ s' : State} {enclosing : List String} {f : Tree.Function}
    {k : List Flow.Class} : Builds (recordPaths enclosing f) s () s₁ →
      Builds ((Closure.ofFunction enclosing f).forM fun c => enterClosure c.name c.params) s₁ ()
        s₂ → R s₂ (Closure.ofFunction enclosing f) k s' → R s [] k s'

section Tracks

variable {R : State → List Closure → List Flow.Class → State → Prop}

namespace Tracks

variable (hR : Tracks R) {s s₁ s₂ s₃ s' : State} {k : List Flow.Class} {base₁ base₂ base₃ : String}
  {name₁ name₂ name₃ : String}
include hR

theorem trans {k' : List Flow.Class} (h : R s [] k s₁) (h' : R s₁ [] k' s') :
    R s [] (k ++ k') s' := hR.append h h'

theorem before {cs : List Closure} (h : R s [] [] s₁) (h' : R s₁ cs k s') : R s cs k s' :=
  hR.append h h'

theorem behind {cs : List Closure} (h : R s cs k s₁) (h' : R s₁ [] [] s') : R s cs k s' := by
  have happend := hR.append h h'
  rwa [List.append_nil, List.append_nil] at happend

theorem three (h₁ : Builds (Build.fresh base₁) s name₁ s₁)
    (h₂ : Builds (Build.fresh base₂) s₁ name₂ s₂) (h₃ : Builds (Build.fresh base₃) s₂ name₃ s₃) :
    R s [] [] s₃ :=
  hR.before (hR.fresh h₁) (hR.before (hR.fresh h₂) (hR.fresh h₃))

end Tracks

/-- By induction on how a part is flattened. -/
theorem Flattens.tracked (hR : Tracks R) {part : Part} {s s' : State} {code : Code}
    {classes : List Flow.Class} {result : Result} (h : Flattens part s code classes result s') :
    R s part.pending classes s' := by
  induction h with
  | binary n op _ _ ihleft ihright => exact hR.trans ihleft ihright
  | unary n op _ ih | builtin1 n name _ ih => exact ih
  | builtin2 n name _ _ ihleft ihright => exact hR.trans ihleft ihright
  | call n _ _ ihcallee ihargs => exact hR.trans ihcallee ihargs
  | lookup n _ _ _ ih => exact ih
  | methodCall n _ _ _ ihobj ihargs => exact hR.trans ihobj ihargs
  | construct n _ ih => exact ih
  | listComp n elem htest hbody hafter _ _ hmore _ _ ihiterable ihfilter ihitem =>
      have hturn := hR.before (hR.fresh hmore) (hR.trans ihfilter ihitem)
      exact hR.before (hR.three htest hbody hafter) (hR.trans ihiterable hturn)
  | ifExpr n hthen helse hafter htmp _ _ _ ihcond ihtrue ihfalse =>
      have hnames := hR.before (hR.three hthen helse hafter) (hR.fresh htmp)
      exact hR.before hnames (hR.trans ihcond (hR.trans ihtrue ihfalse))
  | lambda n _ hname henter _ _ ihclosure ihmake =>
      exact hR.behind (hR.lambda (c := lambdaClosure _ _ _ _) hname henter rfl ihclosure) ihmake
  | settled _ ih => exact ih
  | temporary _ _ hname ih => exact hR.behind ih (hR.fresh hname)
  | moreValues _ _ ihe ihes => exact hR.trans ihe ihes
  | object _ _ _ hname => exact hR.fresh hname
  | filter hadd _ ih => exact hR.before (hR.fresh hadd) ih
  | assign loop loc name _ ih => exact ih
  | ret loop loc _ hnext ih => exact hR.behind ih (hR.fresh hnext)
  | exprStmt loop loc _ ih => exact ih
  | continueLoop labels loc hnext | breakLoop labels loc hnext => exact hR.fresh hnext
  | fieldAssign loop loc _ _ _ _ ihobj ihcontent => exact hR.trans ihobj ihcontent
  | ifElse loop loc hthen helse hafter _ _ _ ihcond ihtrue ihfalse =>
      exact hR.before (hR.three hthen helse hafter)
        (hR.trans ihcond (hR.trans ihtrue ihfalse))
  | whileLoop loop loc htest hbody hafter _ _ ihcond ihsources =>
      exact hR.before (hR.three htest hbody hafter) (hR.trans ihcond ihsources)
  | forLoop loop loc elem htest hbody hafter _ _ hmore _ ihiterable ihsources =>
      have hturn := hR.before (hR.fresh hmore) ihsources
      exact hR.before (hR.three htest hbody hafter) (hR.trans ihiterable hturn)
  | moreStmts _ _ ihsource ihsources => exact hR.trans ihsource ihsources
  | moreClosures closure hinit happly hbody _ ihbody ihcs =>
      have hnames := hR.before (hR.fresh hinit) (hR.fresh happly)
      have hthis := hR.closure (.intro hinit happly hbody) (hR.before hnames ihbody)
      simpa [Part.pending] using hR.append hthis ihcs
  | moreFunctions hpaths henter _ _ _ ihclosures ihconstruction ihfs =>
      exact hR.trans (hR.functions hpaths henter ihclosures) (hR.trans ihconstruction ihfs)
  | _ => exact hR.refl _

theorem FlattensClosure.tracked (hR : Tracks R) {c : Closure} {s s' : State} {cls : Flow.Class}
    {k : List Flow.Class} (h : FlattensClosure c s cls k s') : R s [] k s' := by
  obtain ⟨hinit, happly, hbody⟩ := h
  exact hR.before (hR.before (hR.fresh hinit) (hR.fresh happly)) (hbody.tracked hR)

theorem FlattensMethod.tracked (hR : Tracks R) {className : String} {f : Tree.Function}
    {s s' : State} {m : Flow.Method} {k : List Flow.Class}
    (h : FlattensMethod className f s m k s') : R s [] k s' := by
  obtain ⟨hlabel, hprologue, hbody⟩ := h
  exact hR.before (hR.fresh hlabel) (hR.trans (hprologue.tracked hR) (hbody.tracked hR))

theorem Each.tracked (hR : Tracks R) {α β : Type}
    {S : α → State → β → List Flow.Class → State → Prop} {xs : List α} {ys : List β}
    {k : List Flow.Class} {s s' : State} (hS : ∀ {x s y k s'}, S x s y k s' → R s [] k s')
    (h : Each S xs s ys k s') : R s [] k s' := by
  induction h with
  | nil s => exact hR.refl s
  | cons hfirst _ ih => exact hR.trans (hS hfirst) ih

theorem FlattensClass.tracked (hR : Tracks R) {c : Tree.Class} {s s' : State} {cls : Flow.Class}
    {k : List Flow.Class} (h : FlattensClass c s cls k s') : R s [] k s' := by
  obtain ⟨hmethods⟩ := h
  exact hmethods.tracked hR (FlattensMethod.tracked hR)

end Tracks

/-- The classes that turn up on the way are kept in order. -/
theorem tracks_generated :
    Tracks fun s _ classes s' => s'.generated = s.generated ++ classes where
  refl s := (List.append_nil _).symm
  append h h' := by rw [h', h, List.append_assoc]
  fresh h := by rw [(builds_fresh h).2.2, List.append_nil]
  closure _ h := by rw [h, List.append_assoc]
  lambda hname henter _ h := by
    rw [h, builds_enter henter]
    exact congrArg (· ++ _) (builds_fresh hname).2.2
  functions hpaths henter h := by
    obtain ⟨_, rfl⟩ := builds_recordPaths hpaths
    obtain ⟨_, rfl⟩ := builds_enterClosures henter
    exact h

theorem Flattens.generated_eq {part : Part} {s s' : State} {code : Code}
    {classes : List Flow.Class} {result : Result} (h : Flattens part s code classes result s') :
    s'.generated = s.generated ++ classes := h.tracked tracks_generated

theorem Each.generated_eq {α β : Type} {R : α → State → β → List Flow.Class → State → Prop}
    (hR : ∀ {x s y k s'}, R x s y k s' → s'.generated = s.generated ++ k) {xs : List α}
    {ys : List β} {k : List Flow.Class} {s s' : State} (h : Each R xs s ys k s') :
    s'.generated = s.generated ++ k := h.tracked tracks_generated hR

theorem FlattensClosure.generated_eq {c : Closure} {s s' : State} {y : Flow.Class}
    {k : List Flow.Class} (h : FlattensClosure c s y k s') :
    s'.generated = s.generated ++ k := h.tracked tracks_generated

theorem FlattensClass.generated_eq {c : Tree.Class} {s s' : State} {y : Flow.Class}
    {k : List Flow.Class} (h : FlattensClass c s y k s') :
    s'.generated = s.generated ++ k := h.tracked tracks_generated

end Midend.Linear
