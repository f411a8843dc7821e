import Midend.Proofs.Linear.Nesting
import Midend.Proofs.Linear.Scopes
/-!
# Bodies of scopes

Every scope of a program is flattened to the body of a method, where the top-level body counts as
one (`FlattensProgram.lowers`), and every method but the empty constructors of closures holds the
code of a scope.
-/

namespace Midend.Flow

def Method.IsEmpty (m : Method) : Prop := m.decls = [] ∧ ∃ label, m.body = [⟨label, []⟩]

namespace Program

def main (p : Program) : Method := ⟨topLevel, [], .none, p.decls, p.body⟩

def methods (p : Program) : List Method := p.main :: p.classes.flatMap (·.methods)

end Program

end Midend.Flow

namespace Midend.Linear

open Midend.Flow (Label Value)
open NameSupply (generatedBases)
open Build Code

/-! ## The code of a scope -/

/-- The code of a scope.  In a method the functions nested in it are flattened on the way. -/
inductive BodyCode (sc : Scope) : State → Code → List Flow.Class → State → Prop
  | plain {s s' : State} {code : Code} {k : List Flow.Class}
      (h : Flattens (.stmts none sc.sources) s code k .nothing s') : BodyCode sc s code k s'
  | prologue {enclosing : List String} {fs : List Tree.Function} {s s₁ s' : State}
      {c₁ c₂ : Code} {k₁ k₂ : List Flow.Class}
      (hstart : sc.start = fs.map (Closure.construction enclosing))
      (hprologue : Flattens (.prologue enclosing fs) s c₁ k₁ .nothing s₁)
      (hbody : Flattens (.stmts none sc.body) s₁ c₂ k₂ .nothing s') :
      BodyCode sc s (c₁ ++ c₂) (k₁ ++ k₂) s'

section Start

variable {sc : Scope} {enclosing : List String} {fs : List Tree.Function}
  (hstart : sc.start = fs.map (Closure.construction enclosing))
include hstart

theorem Scope.nodes_of_start :
    sc.nodes = (Part.prologue enclosing fs).nodes ++ (Part.stmts none sc.body).nodes := by
  rw [Scope.nodes, Scope.sources, Tree.Stmt.nodesOf_append, hstart]
  rfl

theorem Scope.covers_of_start : Tree.Covers (Part.prologue enclosing fs).nodes sc.nodes ∧
    Tree.Covers (Part.stmts none sc.body).nodes sc.nodes := by
  rw [Scope.nodes_of_start hstart]
  exact Tree.Covers.append_iff.1 (.refl _)

end Start

namespace BodyCode

variable {sc : Scope} {s s' : State} {code : Code} {k : List Flow.Class} {node : Tree.Node}

theorem shaped (h : BodyCode sc s code k s') : Shaped [] s.names s'.names code k := by
  cases h with
  | plain h => exact h.shaped
  | prologue _ hprologue hbody => exact hprologue.shaped.append hbody.shaped

theorem within (h : BodyCode sc s code k s') (hnode : node ∈ sc.nodes) :
    Within node [] s code k .nothing s' := by
  cases h with
  | plain h => exact h.within hnode
  | prologue hstart hprologue hbody =>
      rw [Scope.nodes_of_start hstart, List.mem_append] at hnode
      rcases hnode with hnode | hnode
      · exact ((hprologue.within hnode).before (fun _ h => h) hbody.resolves).widen (.refl _)
          hbody.grows (by simp)
      · exact ((hbody.within hnode).behind (fun _ h => h) hprologue.resolves).widen
          hprologue.grows (.refl _) (by simp)

/-- The code mentions what its scope mentions, and temporaries of its own. -/
theorem carries (h : BodyCode sc s code k s') : Carries sc.nodes code.declared code := by
  cases h with
  | plain h => exact (h.contained sc.nodes _ (.refl _) (fun _ h => h)).carries
  | prologue hstart hprologue hbody =>
      have hcovers := Scope.covers_of_start hstart
      rw [declared_append]
      exact (hprologue.contained _ _ hcovers.1 (List.subset_append_left _ _)).carries.append
        (hbody.contained _ _ hcovers.2 (List.subset_append_right _ _)).carries

theorem nodup_declared (h : BodyCode sc s code k s') : code.declared.Nodup :=
  h.shaped.nodup_declared

end BodyCode

/-! ## Classes of closures -/

/-- Among some classes there is that of a closure, flattened between two states. -/
inductive Realized (c : Closure) (s : State) (classes : List Flow.Class) (s' : State) : Prop
  | intro {s₁ s₁' : State} {cls : Flow.Class} {k : List Flow.Class}
      (hflattens : FlattensClosure c s₁ cls k s₁') (hmem : cls ∈ classes) (hclasses : k ⊆ classes)
      (hbefore : Grows s s₁) (hbehind : Grows s₁' s') : Realized c s classes s'

theorem Realized.widen {c : Closure} {s s₁ s₁' s' : State} {k classes : List Flow.Class}
    (h : Realized c s₁ k s₁') (hbefore : Grows s s₁) (hbehind : Grows s₁' s')
    (hclasses : k ⊆ classes) : Realized c s classes s' := by
  obtain ⟨hflattens, hmem, hclasses', hbefore', hbehind'⟩ := h
  exact .intro hflattens (hclasses hmem) (fun _ h => hclasses (hclasses' h))
    (hbefore.trans hbefore') (hbehind'.trans hbehind)

theorem FlattensClosure.grows {c : Closure} {s s' : State} {cls : Flow.Class}
    {k : List Flow.Class} (h : FlattensClosure c s cls k s') : Grows s s' :=
  h.tracked tracks_grows

theorem realized_closures {cs : List Closure} {c : Closure} {s s' : State} {code : Code}
    {k : List Flow.Class} {r : Result} (h : Flattens (.closures cs) s code k r s') (hc : c ∈ cs) :
    Realized c s k s' := by
  induction cs generalizing s code k r with
  | nil => exact absurd hc List.not_mem_nil
  | cons c' cs ih =>
      cases h with
      | moreClosures _ hinit happly hbody hcs =>
          have hfirst := FlattensClosure.intro hinit happly hbody
          rcases List.mem_cons.1 hc with rfl | hc
          · exact .intro hfirst (by simp) (by simp) (.refl _) ((grows_keep _).trans hcs.grows)
          · refine (ih hcs hc).widen (hfirst.grows.trans (grows_keep _)) (.refl _)
              fun _ h => ?_
            simp [h]

theorem realized_prologue {enclosing : List String} {fs : List Tree.Function}
    {f : Tree.Function} {c : Closure} {s s' : State} {code : Code} {k : List Flow.Class}
    {r : Result} (h : Flattens (.prologue enclosing fs) s code k r s') (hf : f ∈ fs)
    (hc : c ∈ Closure.ofFunction enclosing f) : Realized c s k s' := by
  induction fs generalizing s code k r with
  | nil => exact absurd hf List.not_mem_nil
  | cons f' fs ih =>
      cases h with
      | moreFunctions hpaths henter hclosures hconstruction hfs =>
          have hentered := (grows_recordPaths hpaths).trans
            (grows_enterClosures (isClosureName_ofFunction _ _) henter)
          rcases List.mem_cons.1 hf with rfl | hf
          · exact (realized_closures hclosures hc).widen hentered
              (hconstruction.grows.trans hfs.grows) (by simp)
          · exact (ih hfs hf).widen
              (hentered.trans (hclosures.grows.trans hconstruction.grows)) (.refl _) (by simp)

theorem builds_signature {params : List String} {ty ret : Ty} {ps : List Parameter} {s s' : State}
    (h : Builds (lambdaSignature params ty) s (ps, ret) s') :
    ps = Scope.lambdaParams params ty ∧ ps.map (·.name) = params := by
  unfold lambdaSignature at h
  split at h
  · rename_i types ret'
    split at h
    · rename_i hlength
      obtain ⟨heq, -⟩ := builds_pure h
      obtain ⟨rfl, -⟩ := Prod.mk.inj heq
      refine ⟨rfl, ?_⟩
      clear h heq
      induction params generalizing types with
      | nil => rfl
      | cons param params ih =>
          cases types with
          | nil => exact nomatch hlength
          | cons type types =>
              exact congrArg (param :: ·) (ih types (Nat.succ.inj hlength))
    · exact nomatch (Prod.mk.inj h).1
  · exact nomatch (Prod.mk.inj h).1

theorem Scope.matches_lambda (outer params : List String) (ty ret : Ty) (name : String)
    (body : Tree.Expr) : (ofLambda outer params ty body).Matches
      (lambdaClosure name (lambdaParams params ty) ret body) := ⟨rfl, rfl, rfl, rfl⟩

theorem realized_lambda {n : Tree.Note} {params : List String} {body : Tree.Expr} {s s' : State}
    {code : Code} {k : List Flow.Class} {r : Result}
    (h : Flattens (.expr (.lambda n params body)) s code k r s') :
    ∃ name ret, Realized (lambdaClosure name (Scope.lambdaParams params n.ty) ret body) s k s' := by
  cases h with
  | lambda _ hsignature hname henter hclosure hmake =>
      obtain ⟨rfl, -⟩ := builds_signature hsignature
      exact ⟨_, _, (realized_closures hclosure List.mem_cons_self).widen
        (grows_enterLambda hname henter) hmake.grows (fun _ h => h)⟩

/-! ## Where classes come from -/

/-- A node that stands for a scope of the program does so. -/
def HasScope (p : Tree.Program) : Tree.Node → Prop
  | .expr (.lambda n params body) => ∃ outer, ScopeOf p (.ofLambda outer params n.ty body)
  | _ => True

theorem hasScope_of_mem {p : Tree.Program} {sc : Scope} (h : ScopeOf p sc) :
    ∀ node ∈ sc.nodes, HasScope p node := by
  intro node hnode
  match node with
  | .expr (.lambda n params body) => exact ⟨_, .lambda h hnode⟩
  | .expr (.literal _ _) | .expr (.id _ _) | .expr (.binary _ _ _ _) | .expr (.unary _ _ _)
  | .expr (.builtin1 _ _ _) | .expr (.builtin2 _ _ _ _) | .expr (.call _ _ _)
  | .expr (.lookup _ _ _) | .expr (.methodCall _ _ _ _) | .expr (.construct _ _)
  | .expr (.listComp _ _ _ _ _) | .expr (.ifExpr _ _ _ _) | .stmt _ => exact trivial

def Part.functions : Part → List Closure
  | .closures cs => cs
  | .prologue enclosing fs => Closure.ofFunctions enclosing fs
  | _ => []

/-- Building leads from one state to the other, and no temporaries are drawn on the way. -/
structure Quiet (s s' : State) : Prop extends Grows s s' where
  temporaries : ∀ base ∈ generatedBases, s'.names.next base = s.names.next base

section Quiet

variable {s s₁ s₂ s' : State} {base name : String}

theorem Quiet.trans (h : Quiet s s₁) (h' : Quiet s₁ s') : Quiet s s' :=
  ⟨h.toGrows.trans h'.toGrows, fun base hbase =>
    (h'.temporaries base hbase).trans (h.temporaries base hbase)⟩

theorem Quiet.refl (s : State) : Quiet s s := ⟨.refl s, fun _ _ => rfl⟩

theorem quiet_keep (k : Flow.Class) : Quiet s { s with generated := s.generated ++ [k] } :=
  ⟨grows_keep k, fun _ _ => rfl⟩

theorem quiet_fresh (h : Builds (fresh base) s name s') (hbase : base ∉ generatedBases) :
    Quiet s s' := by
  refine ⟨grows_fresh h, fun other hother => ?_⟩
  have hne : other ≠ base := fun heq => hbase (heq ▸ hother)
  rw [NameSupply.next_fresh (builds_fresh h).1, if_neg hne, Nat.add_zero]

theorem quiet_three {base₁ base₂ base₃ name₁ name₂ name₃ : String}
    (h₁ : Builds (fresh base₁) s name₁ s₁) (h₂ : Builds (fresh base₂) s₁ name₂ s₂)
    (h₃ : Builds (fresh base₃) s₂ name₃ s')
    (hbases : ∀ base ∈ [base₁, base₂, base₃], base ∉ generatedBases) : Quiet s s' :=
  (quiet_fresh h₁ (hbases _ (by simp))).trans
    ((quiet_fresh h₂ (hbases _ (by simp))).trans (quiet_fresh h₃ (hbases _ (by simp))))

theorem quiet_enterLambda {params : List Parameter} (hname : Builds (fresh "lambda") s name s₁)
    (h : Builds (enterClosure name params) s₁ () s') : Quiet s s' := by
  refine ⟨grows_enterLambda hname h, ?_⟩
  obtain rfl := builds_enter h
  exact (quiet_fresh hname (by decide)).temporaries

theorem quiet_enterFunctions {enclosing : List String} {f : Tree.Function}
    (hpaths : Builds (recordPaths enclosing f) s () s₁)
    (henter : Builds ((Closure.ofFunction enclosing f).forM fun c =>
      enterClosure c.name c.params) s₁ () s') : Quiet s s' := by
  refine ⟨(grows_recordPaths hpaths).trans
    (grows_enterClosures (isClosureName_ofFunction _ _) henter), ?_⟩
  obtain ⟨_, rfl⟩ := builds_recordPaths hpaths
  obtain ⟨_, rfl⟩ := builds_enterClosures henter
  exact fun _ _ => rfl

end Quiet

/-- A relation between two states, the temporaries that are declared in between and the classes that
turn up, that traces how the scopes of a program are flattened. -/
structure Traces (p : Tree.Program)
    (R : State → List String → List Flow.Class → State → Prop) : Prop where
  quiet {s s' : State} : Quiet s s' → R s [] [] s'
  append {s s₁ s' : State} {names names' : List String} {k k' : List Flow.Class} :
    R s names k s₁ → R s₁ names' k' s' → R s (names ++ names') (k ++ k') s'
  temporary {s s' : State} {base name : String} : base ∈ generatedBases →
    Builds (fresh base) s name s' → R s [name] [] s'
  /-- The class of a scope stands behind those that turn up in its body. -/
  closure {s s' : State} {sc : Scope} {c : Closure} {initLabel applyLabel : Label} {code : Code}
    {k : List Flow.Class} : ScopeOf p sc → sc.Matches c →
      FlattensClosure c s (c.classOf initLabel applyLabel code) k s' → R s code.declared k s' →
      R s [] (k ++ [c.classOf initLabel applyLabel code]) s'

section Traces

variable {p : Tree.Program} {R : State → List String → List Flow.Class → State → Prop}

namespace Traces

variable (hR : Traces p R) {s s₁ s' : State} {names : List String} {k : List Flow.Class}
include hR

theorem before (h : Quiet s s₁) (h' : R s₁ names k s') : R s names k s' :=
  hR.append (hR.quiet h) h'

theorem behind (h : R s names k s₁) (h' : Quiet s₁ s') : R s names k s' := by
  simpa using hR.append h (hR.quiet h')

end Traces

/-- By induction on how the part is flattened: a class is that of a closure of the part, of a
lambda in it, or of one inside of these. -/
theorem Flattens.traced (hR : Traces p R) {part : Part} {s s' : State} {code : Code}
    {classes : List Flow.Class} {result : Result} (h : Flattens part s code classes result s')
    (hnodes : ∀ node ∈ part.nodes, HasScope p node)
    (hclosures : ∀ c ∈ part.functions, ∃ sc, ScopeOf p sc ∧ sc.Matches c) :
    R s code.declared classes s' := by
  induction h with
  | binary n op _ _ ihleft ihright =>
      simp only [Part.nodes, Tree.Expr.nodes, List.forall_mem_cons, List.forall_mem_append]
        at hnodes
      have hboth := hR.append (ihleft hnodes.2.1 hclosures) (ihright hnodes.2.2 hclosures)
      -- the check of a divisor declares nothing
      split <;> simpa [guardDivisor, Code.guard] using hboth
  | unary n op _ ih | builtin1 n name _ ih => exact ih (List.forall_mem_cons.1 hnodes).2 hclosures
  | builtin2 n name _ _ ihleft ihright =>
      simp only [Part.nodes, Tree.Expr.nodes, List.forall_mem_cons, List.forall_mem_append]
        at hnodes
      simpa using hR.append (ihleft hnodes.2.1 hclosures) (ihright hnodes.2.2 hclosures)
  | call n _ _ ihcallee ihargs =>
      simp only [Part.nodes, Tree.Expr.nodes, List.forall_mem_cons, List.forall_mem_append]
        at hnodes
      simpa using hR.append (ihcallee hnodes.2.1 hclosures) (ihargs hnodes.2.2 hclosures)
  | lookup n _ _ _ ih => simpa using ih (List.forall_mem_cons.1 hnodes).2 hclosures
  | methodCall n _ _ _ ihobj ihargs =>
      simp only [Part.nodes, Tree.Expr.nodes, List.forall_mem_cons, List.forall_mem_append]
        at hnodes
      simpa using hR.append (ihobj hnodes.2.1 hclosures) (ihargs hnodes.2.2 hclosures)
  | construct n _ ih => exact ih (List.forall_mem_singleton.2 trivial) hclosures
  | listComp n elem htest hbody hafter _ _ hmore _ _ ihiterable ihfilter ihitem =>
      simp only [Part.nodes, Tree.Expr.nodes, List.forall_mem_cons, List.forall_mem_append]
        at hnodes
      obtain ⟨-, hnodes₁, hnodes₂, hnodes₃⟩ := hnodes
      have hturn := hR.append (hR.temporary (by decide) hmore)
        (hR.append (ihfilter hnodes₂ hclosures) (ihitem hnodes₃ hclosures))
      simpa using hR.before (quiet_three htest hbody hafter (by decide))
        (hR.append (ihiterable hnodes₁ hclosures) hturn)
  | ifExpr n hthen helse hafter htmp _ _ _ ihcond ihtrue ihfalse =>
      simp only [Part.nodes, Tree.Expr.nodes, List.forall_mem_cons, List.forall_mem_append]
        at hnodes
      have hways := hR.append (ihcond hnodes.2.1 hclosures)
        (hR.append (ihtrue hnodes.2.2.1 hclosures) (ihfalse hnodes.2.2.2 hclosures))
      simpa using hR.before (quiet_three hthen helse hafter (by decide))
        (hR.append (hR.temporary (by decide) htmp) hways)
  | lambda n hsignature hname henter _ _ ihclosure ihmake =>
      obtain ⟨rfl, -⟩ := builds_signature hsignature
      obtain ⟨outer, hscope⟩ := hnodes _ List.mem_cons_self
      have hclosure := ihclosure (fun _ h => absurd h List.not_mem_nil)
        (fun c hc => by
          obtain rfl := List.mem_singleton.1 hc
          exact ⟨_, hscope, Scope.matches_lambda _ _ _ _ _ _⟩)
      have hmade := hR.append hclosure (ihmake (List.forall_mem_singleton.2 trivial)
        fun _ h => absurd h List.not_mem_nil)
      simpa using hR.before (quiet_enterLambda hname henter) hmade
  | settled _ ih => exact ih hnodes hclosures
  | temporary _ _ hname ih =>
      simpa using hR.append (ih hnodes hclosures) (hR.temporary (by decide) hname)
  | moreValues _ _ ihe ihes =>
      simp only [Part.nodes, Tree.Expr.nodesOf, List.forall_mem_append] at hnodes
      simpa using hR.append (ihe hnodes.1 hclosures) (ihes hnodes.2 hclosures)
  | object _ _ _ hname => simpa using hR.temporary (by decide) hname
  | filter hadd _ ih => simpa using hR.before (quiet_fresh hadd (by decide)) (ih hnodes hclosures)
  | assign loop loc name _ ih => simpa using ih (List.forall_mem_cons.1 hnodes).2 hclosures
  | ret loop loc _ hnext ih =>
      simpa using hR.behind (ih (List.forall_mem_cons.1 hnodes).2 hclosures)
        (quiet_fresh hnext (by decide))
  | exprStmt loop loc _ ih => simpa using ih (List.forall_mem_cons.1 hnodes).2 hclosures
  | continueLoop labels loc hnext | breakLoop labels loc hnext =>
      exact hR.quiet (quiet_fresh hnext (by decide))
  | fieldAssign loop loc _ _ _ _ ihobj ihcontent =>
      simp only [Part.nodes, Tree.Stmt.nodes, List.forall_mem_cons, List.forall_mem_append]
        at hnodes
      simpa using hR.append (ihobj hnodes.2.1 hclosures) (ihcontent hnodes.2.2 hclosures)
  | ifElse loop loc hthen helse hafter _ _ _ ihcond ihtrue ihfalse =>
      simp only [Part.nodes, Tree.Stmt.nodes, List.forall_mem_cons, List.forall_mem_append]
        at hnodes
      simpa using hR.before (quiet_three hthen helse hafter (by decide))
        (hR.append (ihcond hnodes.2.1 hclosures)
          (hR.append (ihtrue hnodes.2.2.1 hclosures) (ihfalse hnodes.2.2.2 hclosures)))
  | whileLoop loop loc htest hbody hafter _ _ ihcond ihsources =>
      simp only [Part.nodes, Tree.Stmt.nodes, List.forall_mem_cons, List.forall_mem_append]
        at hnodes
      simpa using hR.before (quiet_three htest hbody hafter (by decide))
        (hR.append (ihcond hnodes.2.1 hclosures) (ihsources hnodes.2.2 hclosures))
  | forLoop loop loc elem htest hbody hafter _ _ hmore _ ihiterable ihsources =>
      simp only [Part.nodes, Tree.Stmt.nodes, List.forall_mem_cons, List.forall_mem_append]
        at hnodes
      have hturn := hR.append (hR.temporary (by decide) hmore) (ihsources hnodes.2.2 hclosures)
      simpa using hR.before (quiet_three htest hbody hafter (by decide))
        (hR.append (ihiterable hnodes.2.1 hclosures) hturn)
  | moreStmts _ _ ihsource ihsources =>
      simp only [Part.nodes, Tree.Stmt.nodesOf, List.forall_mem_append] at hnodes
      simpa using hR.append (ihsource hnodes.1 hclosures) (ihsources hnodes.2 hclosures)
  | moreClosures closure hinit happly hbody _ ihbody ihcs =>
      obtain ⟨⟨sc, hscope, hmatches⟩, hrest⟩ := List.forall_mem_cons.1 hclosures
      have hnodes_body : ∀ node ∈ Tree.Stmt.nodesOf closure.body, HasScope p node := by
        rw [hmatches.body]
        exact hasScope_of_mem hscope
      have hbody_traced := ihbody hnodes_body fun _ h => absurd h List.not_mem_nil
      have hnames := (quiet_fresh hinit (by decide)).trans (quiet_fresh happly (by decide))
      have hthis := hR.closure hscope hmatches (.intro hinit happly hbody)
        (hR.before hnames hbody_traced)
      simpa using hR.append (hR.behind hthis (quiet_keep _))
        (ihcs (fun _ h => absurd h List.not_mem_nil) hrest)
  | moreFunctions hpaths henter _ _ _ ihclosures ihconstruction ihfs =>
      simp only [Part.nodes, List.map_cons, Tree.Stmt.nodesOf, List.forall_mem_append] at hnodes
      simp only [Part.functions, Closure.ofFunctions, List.forall_mem_append] at hclosures
      simpa using hR.before (quiet_enterFunctions hpaths henter)
        (hR.append (ihclosures (fun _ h => absurd h List.not_mem_nil) hclosures.1)
          (hR.append (ihconstruction hnodes.1 fun _ h => absurd h List.not_mem_nil)
            (ihfs hnodes.2 hclosures.2)))
  | _ => exact hR.quiet (.refl _)

theorem FlattensClosure.traced (hR : Traces p R) {sc : Scope} {c : Closure} {cls : Flow.Class}
    {k : List Flow.Class} {s s' : State} (hscope : ScopeOf p sc) (hmatches : sc.Matches c)
    (h : FlattensClosure c s cls k s') : ∃ initLabel applyLabel code,
      cls = c.classOf initLabel applyLabel code ∧ R s code.declared k s' := by
  obtain ⟨hinit, happly, hbody⟩ := h
  have hnames := (quiet_fresh hinit (by decide)).trans (quiet_fresh happly (by decide))
  refine ⟨_, _, _, rfl, hR.before hnames ?_⟩
  rw [hmatches.body] at hbody
  exact hbody.traced hR (hasScope_of_mem hscope) fun _ h => absurd h List.not_mem_nil

theorem FlattensMethod.traced (hR : Traces p R) {c : Tree.Class} {f : Tree.Function}
    {m : Flow.Method} {k : List Flow.Class} {s s' : State} (hc : c ∈ p.classes)
    (hf : f ∈ c.methods) (h : FlattensMethod c.name f s m k s') : ∃ code : Code,
      m.decls = code.temporaries ++ (Scope.ofMethod c.name f).decls.map decl ∧
        R s code.declared k s' := by
  obtain ⟨hlabel, hprologue, hbody⟩ := h
  have hnodes := hasScope_of_mem (.method hc hf : ScopeOf p (.ofMethod c.name f))
  rw [Scope.nodes, Scope.sources, Tree.Stmt.nodesOf_append, List.forall_mem_append] at hnodes
  have hstart := hprologue.traced hR hnodes.1 fun g hg => by
    obtain ⟨child, hchild, sc, hfunction, hmatches⟩ := functionScopes_of_closures
      (Scope.ofMethod c.name f).inside [c.name, f.name] f.children g hg
    exact ⟨sc, .methodFunction hc hf hchild hfunction, hmatches⟩
  refine ⟨_, rfl, ?_⟩
  rw [declared_append]
  exact hR.before (quiet_fresh hlabel (by decide))
    (hR.append hstart (hbody.traced hR hnodes.2 fun _ h => absurd h List.not_mem_nil))

end Traces

inductive Stems (p : Tree.Program) (s : State) (classes : List Flow.Class) (s' : State)
    (cls : Flow.Class) : Prop
  | intro {sc : Scope} {c : Closure} {s₁ s₁' : State} {k : List Flow.Class}
      (hscope : ScopeOf p sc) (hmatches : sc.Matches c)
      (hflattens : FlattensClosure c s₁ cls k s₁') (hclasses : k ⊆ classes)
      (hbefore : Grows s s₁) (hbehind : Grows s₁' s') : Stems p s classes s' cls

structure Rooted (p : Tree.Program) (s : State) (classes : List Flow.Class) (s' : State) :
    Prop where
  grows : Grows s s'
  stems : ∀ cls ∈ classes, Stems p s classes s' cls

namespace Rooted

variable {p : Tree.Program} {s s₁ s' : State} {k k' : List Flow.Class}

theorem nil (h : Grows s s') : Rooted p s [] s' := ⟨h, fun _ h => absurd h List.not_mem_nil⟩

theorem append (h : Rooted p s k s₁) (h' : Rooted p s₁ k' s') : Rooted p s (k ++ k') s' := by
  refine ⟨h.grows.trans h'.grows, List.forall_mem_append.2 ⟨fun cls hcls => ?_, fun cls hcls => ?_⟩⟩
  · obtain ⟨hscope, hmatches, hflattens, hclasses, hbefore, hbehind⟩ := h.stems cls hcls
    exact .intro hscope hmatches hflattens (List.subset_append_of_subset_left _ hclasses) hbefore
      (hbehind.trans h'.grows)
  · obtain ⟨hscope, hmatches, hflattens, hclasses, hbefore, hbehind⟩ := h'.stems cls hcls
    exact .intro hscope hmatches hflattens (List.subset_append_of_subset_right _ hclasses)
      (h.grows.trans hbefore) hbehind

theorem closure {sc : Scope} {c : Closure} {cls : Flow.Class} (hscope : ScopeOf p sc)
    (hmatches : sc.Matches c) (hflattens : FlattensClosure c s cls k s') (h : Rooted p s k s') :
    Rooted p s (k ++ [cls]) s' := by
  refine ⟨h.grows, List.forall_mem_append.2 ⟨?_, List.forall_mem_singleton.2 ?_⟩⟩
  · intro cls hcls
    obtain ⟨hscope, hmatches, hflattens, hclasses, hbefore, hbehind⟩ := h.stems cls hcls
    exact .intro hscope hmatches hflattens (List.subset_append_of_subset_left _ hclasses) hbefore
      hbehind
  · exact .intro hscope hmatches hflattens (List.subset_append_left _ _) (.refl s) (.refl s')

end Rooted

theorem traces_rooted (p : Tree.Program) : Traces p fun s _ k s' => Rooted p s k s' where
  quiet h := .nil h.toGrows
  append := .append
  temporary _ hname := .nil (grows_fresh hname)
  closure := .closure

theorem Flattens.rooted {p : Tree.Program} {part : Part} {s s' : State} {code : Code}
    {classes : List Flow.Class} {result : Result} (h : Flattens part s code classes result s')
    (hnodes : ∀ node ∈ part.nodes, HasScope p node)
    (hclosures : ∀ c ∈ part.functions, ∃ sc, ScopeOf p sc ∧ sc.Matches c) :
    Rooted p s classes s' := h.traced (traces_rooted p) hnodes hclosures

/-! ## Methods -/

/-- The parameters are those of the scope, behind the receiver of a closure. -/
def Scope.Takes (sc : Scope) (params : List Parameter) : Prop :=
  match sc.kind with
  | .closure => ∃ className, params = Closure.receiver className :: sc.params
  | .topLevel | .method => params = sc.params

theorem Scope.Takes.mem_names {sc : Scope} {params : List Parameter} (h : sc.Takes params)
    {x : String} : x ∈ params.map (·.name) ↔
      sc.kind = .closure ∧ x = selfName ∨ x ∈ sc.params.map (·.name) := by
  unfold Scope.Takes at h
  split at h
  · rename_i hkind
    obtain ⟨className, rfl⟩ := h
    rw [List.map_cons, List.mem_cons, hkind]
    simp [Closure.receiver]
  · rename_i hkind
    rw [h, hkind]
    simp
  · rename_i hkind
    rw [h, hkind]
    simp

theorem decls_names {sc : Scope} {m : Flow.Method} {code : Code}
    (hdecls : m.decls = code.temporaries ++ sc.decls.map decl) :
    m.decls.map (·.name) = code.declared ++ sc.decls.map (·.name) := by
  rw [hdecls, List.map_append, List.map_map]
  rfl

inductive Implements (sc : Scope) (s : State) (classes : List Flow.Class) (s' : State)
    (m : Flow.Method) : Prop
  | intro {label : Label} {s₁ s₁' : State} {code : Code} {k : List Flow.Class}
      (hcode : BodyCode sc s₁ code k s₁') (hclasses : k ⊆ classes) (hbefore : Grows s s₁)
      (hbehind : Grows s₁' s') (hbody : m.body = code.blocks label)
      (hdecls : m.decls = code.temporaries ++ sc.decls.map decl) (hparams : sc.Takes m.params) :
      Implements sc s classes s' m

/-- A scope of this kind may become the method.  Objects of closures have no fields. -/
def Holds (flow : Flow.Program) : ScopeKind → Flow.Method → Prop
  | .topLevel, m => m = flow.main
  | .method, m => ∃ cls ∈ flow.classes, m ∈ cls.methods
  | .closure, m => ∃ cls ∈ flow.classes, cls.fields = [] ∧ m ∈ cls.methods

/-- The method is the body of the scope in a block program. -/
def IsBody (flow : Flow.Program) (sc : Scope) (m : Flow.Method) : Prop :=
  Holds flow sc.kind m ∧ ∃ s s', Implements sc s flow.classes s' m

/-- The scopes of a program become the methods of a block program, and the other way round. -/
structure Lowers (p : Tree.Program) (flow : Flow.Program) (s s' : State) : Prop where
  methods : ∀ sc, ScopeOf p sc → ∃ m, Holds flow sc.kind m ∧ Implements sc s flow.classes s' m
  scopes : ∀ m ∈ flow.methods, m.IsEmpty ∨
    ∃ sc, ScopeOf p sc ∧ Holds flow sc.kind m ∧ Implements sc s flow.classes s' m

/-- A closure has an empty constructor, and its scope becomes `apply`. -/
theorem FlattensClosure.methods {sc : Scope} {c : Closure} {cls : Flow.Class}
    {k classes : List Flow.Class} {s s₁ s₁' s' : State} (h : FlattensClosure c s₁ cls k s₁')
    (hmatches : sc.Matches c) (hclasses : k ⊆ classes) (hbefore : Grows s s₁)
    (hbehind : Grows s₁' s') : cls.name = c.name ∧ cls.fields = [] ∧
      ∃ init apply, cls.methods = [init, apply] ∧ init.IsEmpty ∧
        apply.name = methodName c.name applyName ∧ Implements sc s classes s' apply := by
  obtain @⟨initLabel, applyLabel, _, t, t', _, code, _, hinit, happly, hbody⟩ := h
  refine ⟨rfl, rfl, _, _, rfl, ⟨rfl, initLabel, rfl⟩, rfl, ?_⟩
  rw [hmatches.body] at hbody
  refine .intro (.plain hbody) hclasses (hbefore.trans ((grows_fresh hinit).trans
    (grows_fresh happly))) hbehind rfl ?_ ?_
  · rw [← hmatches.decls]
  · unfold Scope.Takes
    rw [hmatches.kind]
    exact ⟨c.name, hmatches.params⟩

theorem Realized.apply {sc : Scope} {c : Closure} {k classes : List Flow.Class} {s s' : State}
    (h : Realized c s k s') (hmatches : sc.Matches c) (hk : k ⊆ classes) :
    ∃ cls ∈ classes, cls.name = c.name ∧ cls.fields = [] ∧
      ∃ m ∈ cls.methods, m.name = methodName c.name applyName ∧
        Implements sc s classes s' m := by
  obtain ⟨hflattens, hmem, hclasses, hbefore, hbehind⟩ := h
  obtain ⟨hname, hfields, init, apply, hmethods, -, happly, himplements⟩ :=
    hflattens.methods hmatches (fun _ h => hk (hclasses h)) hbefore hbehind
  exact ⟨_, hk hmem, hname, hfields, apply, by simp [hmethods], happly, himplements⟩

theorem Realized.holds {sc : Scope} {c : Closure} {flow : Flow.Program} {k : List Flow.Class}
    {s s' : State} (h : Realized c s k s') (hmatches : sc.Matches c) (hk : k ⊆ flow.classes) :
    ∃ m, Holds flow sc.kind m ∧ Implements sc s flow.classes s' m := by
  obtain ⟨cls, hcls, -, hfields, m, hm, -, himplements⟩ := h.apply hmatches hk
  refine ⟨m, ?_, himplements⟩
  rw [hmatches.kind]
  exact ⟨cls, hcls, hfields, hm⟩

theorem Implements.widen {sc : Scope} {m : Flow.Method} {k classes : List Flow.Class}
    {s s₁ s₁' s' : State} (h : Implements sc s₁ k s₁' m) (hbefore : Grows s s₁)
    (hbehind : Grows s₁' s') (hclasses : k ⊆ classes) : Implements sc s classes s' m := by
  obtain ⟨hcode, hclasses', hbefore', hbehind', hbody, hdecls, hparams⟩ := h
  exact .intro hcode (fun _ h => hclasses (hclasses' h)) (hbefore.trans hbefore')
    (hbehind'.trans hbehind) hbody hdecls hparams

/-! ## Lists of classes and methods -/

section Each

variable {α β : Type} {R : α → State → β → List Flow.Class → State → Prop} {xs : List α}
  {ys : List β} {k : List Flow.Class} {s s' : State} {x : α} {y : β}

inductive Entry (R : α → State → β → List Flow.Class → State → Prop) (x : α) (s : State) (y : β)
    (k : List Flow.Class) (s' : State) : Prop
  | intro {s₁ s₁' : State} {k₁ : List Flow.Class} (hentry : R x s₁ y k₁ s₁') (hclasses : k₁ ⊆ k)
      (hbefore : Grows s s₁) (hbehind : Grows s₁' s') : Entry R x s y k s'

theorem Each.grows (hR : ∀ {x s y k s'}, R x s y k s' → Grows s s') (h : Each R xs s ys k s') :
    Grows s s' := h.tracked tracks_grows hR

theorem Each.entry (hR : ∀ {x s y k s'}, R x s y k s' → Grows s s') (h : Each R xs s ys k s') :
    (∀ x ∈ xs, ∃ y ∈ ys, Entry R x s y k s') ∧ ∀ y ∈ ys, ∃ x ∈ xs, Entry R x s y k s' := by
  induction h with
  | nil s => exact ⟨fun _ h => absurd h List.not_mem_nil, fun _ h => absurd h List.not_mem_nil⟩
  | @cons x y xs ys k₁ k₂ s s₁ s' hfirst hrest ih =>
      have hentry : Entry R x s y (k₁ ++ k₂) s' :=
        .intro hfirst (List.subset_append_left _ _) (.refl s) (hrest.grows hR)
      have hlater : ∀ {x y}, Entry R x s₁ y k₂ s' → Entry R x s y (k₁ ++ k₂) s' := by
        rintro x y ⟨hentry, hclasses, hbefore, hbehind⟩
        exact .intro hentry (List.subset_append_of_subset_right _ hclasses)
          ((hR hfirst).trans hbefore) hbehind
      refine ⟨List.forall_mem_cons.2 ⟨⟨y, List.mem_cons_self, hentry⟩, fun x hx => ?_⟩,
        List.forall_mem_cons.2 ⟨⟨x, List.mem_cons_self, hentry⟩, fun y hy => ?_⟩⟩
      · obtain ⟨y, hy, hentry⟩ := ih.1 x hx
        exact ⟨y, List.mem_cons_of_mem _ hy, hlater hentry⟩
      · obtain ⟨x, hx, hentry⟩ := ih.2 y hy
        exact ⟨x, List.mem_cons_of_mem _ hx, hlater hentry⟩

theorem Each.rooted {p : Tree.Program}
    (hR : ∀ x ∈ xs, ∀ {s y k s'}, R x s y k s' → Rooted p s k s') (h : Each R xs s ys k s') :
    Rooted p s k s' := by
  induction h with
  | nil s => exact .nil (.refl s)
  | cons hfirst _ ih =>
      obtain ⟨hx, hxs⟩ := List.forall_mem_cons.1 hR
      exact (hx hfirst).append (ih hxs)

end Each

theorem FlattensMethod.grows {className : String} {f : Tree.Function} {s s' : State}
    {m : Flow.Method} {k : List Flow.Class} (h : FlattensMethod className f s m k s') :
    Grows s s' := h.tracked tracks_grows

theorem FlattensClass.grows {c : Tree.Class} {s s' : State} {cls : Flow.Class}
    {k : List Flow.Class} (h : FlattensClass c s cls k s') : Grows s s' := h.tracked tracks_grows

theorem FlattensMethod.implements {className : String} {f : Tree.Function} {s s' : State}
    {m : Flow.Method} {k : List Flow.Class} (h : FlattensMethod className f s m k s') :
    Implements (.ofMethod className f) s k s' m := by
  obtain ⟨hlabel, hprologue, hbody⟩ := h
  exact .intro (.prologue rfl hprologue hbody) (fun _ h => h) (grows_fresh hlabel) (.refl s') rfl
    rfl rfl

/-! ## Whole programs -/

theorem Implements.lambda {sc : Scope} {m : Flow.Method} {flow : Flow.Program} {s s' : State}
    {n : Tree.Note} {params : List String} {body : Tree.Expr}
    (h : Implements sc s flow.classes s' m)
    (hnode : .expr (.lambda n params body) ∈ sc.nodes) :
    ∃ m', Holds flow .closure m' ∧
      Implements (.ofLambda sc.inside params n.ty body) s flow.classes s' m' := by
  obtain ⟨hcode, hclasses, hbefore, hbehind, -, -, -⟩ := h
  obtain ⟨hpart, hflattens, -, -, hclasses', hbefore', hbehind', -, -⟩ := hcode.within hnode
  cases hpart with
  | expr _ =>
      obtain ⟨name, ret, hrealized⟩ := realized_lambda hflattens
      exact (hrealized.widen (hbefore.trans hbefore') (hbehind'.trans hbehind)
        fun _ h => hclasses (hclasses' h)).holds
          (Scope.matches_lambda _ _ _ _ _ _) (fun _ h => h)

theorem rooted_functions {p : Tree.Program} {s s' : State} {functions k : List Flow.Class}
    (h : Each FlattensClosure (Closure.ofFunctions [] p.functions) s functions k s') :
    Rooted p s k s' := by
  refine h.rooted fun c hc s cls k s' hclosure => ?_
  obtain ⟨f, hf, sc, hscope, hmatches⟩ := functionScopes_of_closures [] [] p.functions c hc
  obtain ⟨_, _, _, -, hrooted⟩ :=
    hclosure.traced (traces_rooted p) (.function hf hscope) hmatches
  exact hrooted

theorem rooted_classes {p : Tree.Program} {s s' : State} {classes k : List Flow.Class}
    (h : Each FlattensClass p.classes s classes k s') : Rooted p s k s' := by
  refine h.rooted fun c hc s cls k s' hclass => ?_
  obtain ⟨hmethods⟩ := hclass
  refine hmethods.rooted fun f hf s m k s' hmethod => ?_
  obtain ⟨_, -, hrooted⟩ := hmethod.traced (traces_rooted p) hc hf
  exact hrooted

/-- The methods of a class that comes from a scope are its empty constructor and that scope. -/
theorem Stems.methods {p : Tree.Program} {s s' : State} {classes : List Flow.Class}
    {cls : Flow.Class} {m : Flow.Method} (h : Stems p s classes s' cls) (hm : m ∈ cls.methods) :
    m.IsEmpty ∨ cls.fields = [] ∧
      ∃ sc, ScopeOf p sc ∧ sc.kind = .closure ∧ Implements sc s classes s' m := by
  obtain ⟨hscope, hmatches, hflattens, hclasses, hbefore, hbehind⟩ := h
  obtain ⟨-, hfields, init, apply, hmethods, hempty, -, himplements⟩ :=
    hflattens.methods hmatches hclasses hbefore hbehind
  rw [hmethods] at hm
  rcases List.mem_cons.1 hm with rfl | hm
  · exact .inl hempty
  · obtain rfl := List.mem_singleton.1 hm
    exact .inr ⟨hfields, _, hscope, hmatches.kind, himplements⟩

theorem Stems.widen {p : Tree.Program} {s s₁ s₁' s' : State} {k classes : List Flow.Class}
    {cls : Flow.Class} (h : Stems p s₁ k s₁' cls) (hbefore : Grows s s₁) (hbehind : Grows s₁' s')
    (hclasses : k ⊆ classes) : Stems p s classes s' cls := by
  obtain ⟨hscope, hmatches, hflattens, hclasses', hbefore', hbehind'⟩ := h
  exact .intro hscope hmatches hflattens (fun _ h => hclasses (hclasses' h))
    (hbefore.trans hbefore') (hbehind'.trans hbehind)

theorem entry_method {cs : List Tree.Class} {classes k : List Flow.Class} {s s' : State}
    (h : Each FlattensClass cs s classes k s') {c : Tree.Class} {f : Tree.Function} (hc : c ∈ cs)
    (hf : f ∈ c.methods) :
    ∃ cls ∈ classes, ∃ m ∈ cls.methods, Entry (FlattensMethod c.name) f s m k s' := by
  obtain ⟨cls, hcls, hclass, hclasses, hbefore, hbehind⟩ :=
    (h.entry FlattensClass.grows).1 c hc
  obtain ⟨hmethods⟩ := hclass
  obtain ⟨m, hm, hmethod, hclasses', hbefore', hbehind'⟩ :=
    (hmethods.entry FlattensMethod.grows).1 f hf
  exact ⟨_, hcls, m, hm, .intro hmethod (fun _ h => hclasses (hclasses' h))
    (hbefore.trans hbefore') (hbehind'.trans hbehind)⟩

theorem source_method {cs : List Tree.Class} {classes k : List Flow.Class} {s s' : State}
    (h : Each FlattensClass cs s classes k s') {cls : Flow.Class} {m : Flow.Method}
    (hcls : cls ∈ classes) (hm : m ∈ cls.methods) :
    ∃ c ∈ cs, ∃ f ∈ c.methods, Entry (FlattensMethod c.name) f s m k s' := by
  obtain ⟨c, hc, hclass, hclasses, hbefore, hbehind⟩ :=
    (h.entry FlattensClass.grows).2 cls hcls
  obtain ⟨hmethods⟩ := hclass
  obtain ⟨f, hf, hmethod, hclasses', hbefore', hbehind'⟩ :=
    (hmethods.entry FlattensMethod.grows).2 m hm
  exact ⟨c, hc, f, hf, .intro hmethod (fun _ h => hclasses (hclasses' h))
    (hbefore.trans hbefore') (hbehind'.trans hbehind)⟩

/-- The functions, the classes and the top level of a program are flattened one after another. -/
structure Phases (p : Tree.Program) (flow : Flow.Program) (label : Label) (s s₁ s₂ s' : State)
    (functions classes k₁ k₂ k₃ : List Flow.Class) (code : Code) : Prop where
  closures : Each FlattensClosure (Closure.ofFunctions [] p.functions) s functions k₁ s₁
  declared : Each FlattensClass p.classes s₁ classes k₂ s₂
  body : Flattens (.stmts none (p.functions.map (Closure.construction []) ++ p.stmts)) s₂ code k₃
    .nothing s'
  flow_eq : flow =
    ⟨code.temporaries ++ (p.functions.map (Closure.binding []) ++ p.decls).map decl,
      functions ++ classes ++ (k₁ ++ k₂ ++ k₃), code.blocks label⟩

section Phases

variable {p : Tree.Program} {flow : Flow.Program} {label : Label} {s s₁ s₂ s' : State}
  {functions classes k₁ k₂ k₃ : List Flow.Class} {code : Code} {sc : Scope} {m : Flow.Method}

namespace Phases

variable (h : Phases p flow label s s₁ s₂ s' functions classes k₁ k₂ k₃ code)
include h

theorem grows_functions : Grows s s₁ := h.closures.grows FlattensClosure.grows

theorem grows_classes : Grows s₁ s₂ := h.declared.grows FlattensClass.grows

theorem mem_classes {cls : Flow.Class} :
    cls ∈ flow.classes ↔
      cls ∈ functions ∨ cls ∈ classes ∨ cls ∈ k₁ ∨ cls ∈ k₂ ∨ cls ∈ k₃ := by
  rw [h.flow_eq]
  simp

theorem implements_main : Implements (.ofProgram p) s flow.classes s' flow.main := by
  have hbody : flow.main.body = code.blocks label := by
    rw [h.flow_eq]
    rfl
  have hdecls : flow.main.decls = code.temporaries ++ (Scope.ofProgram p).decls.map decl := by
    rw [h.flow_eq]
    rfl
  exact .intro (.plain h.body) (fun cls hcls => h.mem_classes.2 (.inr (.inr (.inr (.inr hcls)))))
    (h.grows_functions.trans h.grows_classes) (.refl s') hbody hdecls rfl

theorem subset_functions : k₁ ⊆ flow.classes := fun _ hcls =>
  h.mem_classes.2 (.inr (.inr (.inl hcls)))

theorem subset_classes : k₂ ⊆ flow.classes := fun _ hcls =>
  h.mem_classes.2 (.inr (.inr (.inr (.inl hcls))))

theorem realized_function {c : Closure} (hc : c ∈ Closure.ofFunctions [] p.functions) :
    Realized c s flow.classes s' := by
  obtain ⟨cls, hcls, hclosure, hk, hbefore, hbehind⟩ :=
    (h.closures.entry FlattensClosure.grows).1 c hc
  exact .intro hclosure (h.mem_classes.2 (.inl hcls)) (fun _ hmem => h.subset_functions (hk hmem))
    hbefore (hbehind.trans (h.grows_classes.trans h.body.grows))

theorem realized_nested {c : Tree.Class} {f child : Tree.Function} {c' : Closure}
    (hc : c ∈ p.classes) (hf : f ∈ c.methods) (hchild : child ∈ f.children)
    (hc' : c' ∈ Closure.ofFunction [c.name, f.name] child) : Realized c' s flow.classes s' := by
  obtain ⟨_, _, _, _, hmethod, hk, hbefore, hbehind⟩ := entry_method h.declared hc hf
  obtain ⟨hlabel, hprologue, hbody⟩ := hmethod
  exact (realized_prologue hprologue hchild hc').widen
    (h.grows_functions.trans (hbefore.trans (grows_fresh hlabel)))
    (hbody.grows.trans (hbehind.trans h.body.grows))
    fun _ hmem => h.subset_classes (hk (List.mem_append_left _ hmem))

theorem holds (hsc : ScopeOf p sc) : ∃ m, Holds flow sc.kind m ∧
    Implements sc s flow.classes s' m := by
  induction hsc with
  | topLevel => exact ⟨_, rfl, h.implements_main⟩
  | function hf hscope =>
      obtain ⟨c, hc, hmatches⟩ := hscope.closure
      exact (h.realized_function (Closure.mem_ofFunctions.2 ⟨_, hf, hc⟩)).holds hmatches
        fun _ h => h
  | method hc hm =>
      obtain ⟨cls, hcls, m, hm, hmethod, hk, hbefore, hbehind⟩ := entry_method h.declared hc hm
      refine ⟨m, ⟨cls, h.mem_classes.2 (.inr (.inl hcls)), hm⟩, ?_⟩
      exact hmethod.implements.widen (h.grows_functions.trans hbefore)
        (hbehind.trans h.body.grows) fun _ hmem => h.subset_classes (hk hmem)
  | methodFunction hc hm hf hscope =>
      obtain ⟨c, hc', hmatches⟩ := hscope.closure
      exact (h.realized_nested hc hm hf hc').holds hmatches fun _ h => h
  | lambda _ hnode ih =>
      obtain ⟨m, -, himplements⟩ := ih
      exact himplements.lambda hnode

theorem stems {cls : Flow.Class} (hcls : cls ∈ flow.classes) :
    cls ∈ classes ∨ Stems p s flow.classes s' cls := by
  have hrooted : Rooted p s (k₁ ++ (k₂ ++ k₃)) s' :=
    (rooted_functions h.closures).append ((rooted_classes h.declared).append
      (h.body.rooted (hasScope_of_mem .topLevel) fun _ h => absurd h List.not_mem_nil))
  have hkept : k₁ ++ (k₂ ++ k₃) ⊆ flow.classes := fun cls hcls =>
    h.mem_classes.2 (.inr (.inr (by simpa using hcls)))
  rcases h.mem_classes.1 hcls with hmem | hmem | hmem
  · obtain ⟨c, hc, hentry, hk, hbefore, hbehind⟩ :=
      (h.closures.entry FlattensClosure.grows).2 cls hmem
    obtain ⟨f, hf, sc, hscope, hmatches⟩ := functionScopes_of_closures [] [] p.functions c hc
    exact .inr (.intro (.function hf hscope) hmatches hentry
      (fun _ h => hkept (List.mem_append_left _ (hk h))) hbefore
      (hbehind.trans (h.grows_classes.trans h.body.grows)))
  · exact .inl hmem
  · exact .inr ((hrooted.stems cls (by simpa using hmem)).widen (.refl _) (.refl _)
      hkept)

/-- Every method but the empty constructors holds the code of a scope. -/
theorem scopes (hm : m ∈ flow.methods) : m.IsEmpty ∨
    ∃ sc, ScopeOf p sc ∧ Holds flow sc.kind m ∧ Implements sc s flow.classes s' m := by
  rcases List.mem_cons.1 hm with rfl | hm
  · exact .inr ⟨_, .topLevel, rfl, h.implements_main⟩
  obtain ⟨cls, hcls, hm⟩ := List.mem_flatMap.1 hm
  rcases h.stems hcls with hmem | hstems
  · obtain ⟨c, hc, f, hf, hmethod, hk, hbefore, hbehind⟩ := source_method h.declared hmem hm
    refine .inr ⟨_, .method hc hf, ⟨cls, hcls, hm⟩, ?_⟩
    exact hmethod.implements.widen (h.grows_functions.trans hbefore)
      (hbehind.trans h.body.grows) fun _ hcls =>
        h.mem_classes.2 (.inr (.inr (.inr (.inl (hk hcls)))))
  · refine (hstems.methods hm).imp_right fun ⟨hfields, sc, hscope, hkind, himplements⟩ => ?_
    refine ⟨sc, hscope, ?_, himplements⟩
    rw [hkind]
    exact ⟨cls, hcls, hfields, hm⟩

end Phases

end Phases

/-- A program is entered into the catalog, then flattened in three phases. -/
theorem FlattensProgram.phases {p : Tree.Program} {s s' : State} {flow : Flow.Program}
    (h : FlattensProgram p s flow s') (hs : s.generated = []) :
    ∃ label s₁ s₂ s₃ s₄ s₅ functions classes k₁ k₂ k₃ code,
      Builds (fresh "$startProg") s label s₁ ∧ Builds (enterAll p) s₁ () s₂ ∧
      Phases p flow label s₂ s₃ s₄ s₅ functions classes k₁ k₂ k₃ code ∧ s'.catalog =
        (p.decls.map (·.name) ++ p.functions.map (·.name)).foldl Catalog.addGlobal s₅.catalog := by
  obtain @⟨label, _, s₁, s₂, s₃, s₄, s', functions, classes, code, k₁, k₂, k₃, hlabel, henter,
    hfunctions, hclasses, hbody⟩ := h
  have hkept : s'.generated = k₁ ++ k₂ ++ k₃ := by
    obtain ⟨_, rfl⟩ := builds_enterAll henter
    rw [hbody.generated_eq, hclasses.generated_eq FlattensClass.generated_eq,
      hfunctions.generated_eq FlattensClosure.generated_eq, (builds_fresh hlabel).2.2, hs]
    rfl
  rw [hkept]
  exact ⟨label, s₁, s₂, s₃, s₄, s', functions, classes, k₁, k₂, k₃, code, hlabel, henter,
    ⟨hfunctions, hclasses, hbody, rfl⟩, rfl⟩

theorem FlattensProgram.lowers {p : Tree.Program} {s s' : State} {flow : Flow.Program}
    (h : FlattensProgram p s flow s') (hs : s.generated = []) :
    ∃ label s₁ s₂ s₃, Builds (fresh "$startProg") s label s₁ ∧ Builds (enterAll p) s₁ () s₂ ∧
      Lowers p flow s₂ s₃ ∧ s'.catalog =
        (p.decls.map (·.name) ++ p.functions.map (·.name)).foldl Catalog.addGlobal s₃.catalog := by
  obtain ⟨label, s₁, s₂, s₃, s₄, s₅, functions, classes, k₁, k₂, k₃, code, hlabel, henter, hphases,
    hcatalog⟩ := h.phases hs
  exact ⟨label, s₁, s₂, s₅, hlabel, henter, ⟨fun _ => hphases.holds, fun _ => hphases.scopes⟩,
    hcatalog⟩

/-- What a compilation without a fault has gone through. -/
theorem flatten_lowers {catalog catalog' : Catalog} {p : Tree.Program} {flow : Flow.Program}
    (h : flatten catalog p = (.ok flow, catalog')) :
    ∃ label s₁ s₂ s₃, Builds (fresh "$startProg") ⟨catalog, .empty, []⟩ label s₁ ∧
      Builds (enterAll p) s₁ () s₂ ∧ Lowers p flow s₂ s₃ ∧ catalog' =
        (p.decls.map (·.name) ++ p.functions.map (·.name)).foldl Catalog.addGlobal
          s₃.catalog := by
  obtain ⟨-, st, hrun, rfl⟩ := flatten_eq_ok_iff.1 h
  exact (flattens_program hrun).lowers rfl

def blocksOf (catalog : Catalog) (p : Tree.Program) : Flow.Program :=
  (flatten catalog p).1.toOption.getD default

theorem flatten_eq_blocksOf {catalog : Catalog} {p : Tree.Program}
    (hok : (flatten catalog p).1.toOption.isSome = true) :
    flatten catalog p = (.ok (blocksOf catalog p), (flatten catalog p).2) := by
  unfold blocksOf
  generalize flatten catalog p = result at hok ⊢
  obtain ⟨fault | flow, catalog'⟩ := result
  · exact nomatch hok
  · rfl

end Midend.Linear
