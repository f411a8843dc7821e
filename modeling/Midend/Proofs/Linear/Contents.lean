import Midend.Proofs.Linear.ControlFlow
import Midend.Proofs.Tree.Nodes
/-!
# What flattened code mentions

Flattened code reads and assigns the variables that its part of the program mentions, and
temporaries that it declares itself.  It runs other code only where its part does, but for checks
(`Flattens.carries`).
-/

namespace Midend.Flow

def ids (vs : List Value) : List String := vs.filterMap Value.id?

theorem ids_cons (v : Value) (vs : List Value) : ids (v :: vs) = ids [v] ++ ids vs :=
  List.filterMap_append (l := [v])

theorem forall_ids_cons {P : String → Prop} {v : Value} {vs : List Value} :
    (∀ x ∈ ids (v :: vs), P x) ↔ (∀ x ∈ ids [v], P x) ∧ ∀ x ∈ ids vs, P x := by
  rw [ids_cons, List.forall_mem_append]

def Expr.operands : Expr → List Value
  | .value v | .unary _ v | .builtin1 _ v | .load v _ => [v]
  | .binary _ left right | .builtin2 _ left right => [left, right]
  | .call _ args => args
  | .callIndirect callee args => callee :: args
  | .alloc _ _ => []

namespace Stmt

def operands : Stmt → List Value
  | .assign _ e | .expr e => e.operands
  | .ret v | .branch v _ _ => [v]
  | .jump _ => []
  | .store start _ v => [start, v]

def writes : Stmt → List String
  | .assign name _ => [name]
  | _ => []

def mentions (s : Stmt) : List String := s.writes ++ ids s.operands

def isCheck : Stmt → Bool
  | .expr (.call name _) => name = "$check_none" || name = "$check_zero"
  | _ => false

end Stmt

end Midend.Flow

namespace Midend.NameSupply

def generatedBases : List String := ["valname", "newObj", "$ifExprTmp"]

def IsGenerated (name : String) : Prop := ∃ base ∈ generatedBases, ∃ n, name = numbered base n

theorem unnumbered_of_generated {base : String} (hbase : base ∈ generatedBases) :
    Unnumbered base := by
  have hall : ∀ base ∈ generatedBases, Unnumbered base := by decide +kernel
  exact hall base hbase

end Midend.NameSupply

namespace Midend.Linear

open Midend.Flow (Label Value)
open NameSupply (IsGenerated generatedBases)
open Midend.Tree (Covers mentioned written someCalls)
open Build Code

def Result.ids : Result → List String
  | .operation r => Flow.ids r.operands
  | .values vs => Flow.ids vs
  | .nothing => []

def Result.isCall : Result → Bool
  | .operation r => r.isCall
  | _ => false

def Part.nodes : Part → List Tree.Node
  | .expr e | .value e => e.nodes
  | .values es => Tree.Expr.nodesOf es
  | .object className ty => [.expr (.construct ⟨ty, default⟩ className)]
  | .filter _ cond => Tree.Expr.nodesIf cond
  | .stmt _ source => source.nodes
  | .stmts _ sources => Tree.Stmt.nodesOf sources
  | .closures _ => []
  | .prologue enclosing fs => Tree.Stmt.nodesOf (fs.map (Closure.construction enclosing))

def Known (nodes : List Tree.Node) (declared : List String) (name : String) : Prop :=
  name ∈ mentioned nodes ∨ name ∈ declared

/-- What a statement may do when it belongs to some nodes. -/
structure Fits (nodes : List Tree.Node) (declared : List String) (s : Flow.Stmt) : Prop where
  reads : ∀ x ∈ Flow.ids s.operands, Known nodes declared x
  writes : ∀ x ∈ s.writes, x ∈ written nodes ∨ x ∈ declared
  calls : s.hasCall = true → s.isCheck = true ∨ someCalls nodes = true

/-- All statements of the code fit, and the temporaries have made-up names. -/
structure Carries (nodes : List Tree.Node) (declared : List String) (code : Code) : Prop where
  fits : ∀ s, .emit s ∈ code → Fits nodes declared s
  generated : ∀ name ∈ code.declared, IsGenerated name

section Carries

variable {nodes : List Tree.Node} {declared : List String} {code rest : Code} {s : Flow.Stmt}
  {v : Value}

namespace Carries

theorem nil : Carries nodes declared [] :=
  ⟨fun _ h => absurd h List.not_mem_nil, fun _ h => absurd h List.not_mem_nil⟩

theorem append (h : Carries nodes declared code) (h' : Carries nodes declared rest) :
    Carries nodes declared (code ++ rest) where
  fits s hs := (List.mem_append.1 hs).elim (h.fits s) (h'.fits s)
  generated name hname := by
    rw [declared_append] at hname
    exact (List.mem_append.1 hname).elim (h.generated name) (h'.generated name)

theorem emit (hs : Fits nodes declared s) (h : Carries nodes declared code) :
    Carries nodes declared (.emit s :: code) where
  fits s' hs' := by
    rcases List.mem_cons.1 hs' with heq | hs'
    · obtain rfl := Item.emit.inj heq
      exact hs
    · exact h.fits s' hs'
  generated := h.generated

theorem mark (label : Label) (h : Carries nodes declared code) :
    Carries nodes declared (.mark label :: code) :=
  ⟨fun s hs => h.fits s ((List.mem_cons.1 hs).resolve_left nofun), h.generated⟩

theorem declare {name : String} (ty : Ty) (hname : IsGenerated name)
    (h : Carries nodes declared code) : Carries nodes declared (.declare name ty :: code) :=
  ⟨fun s hs => h.fits s ((List.mem_cons.1 hs).resolve_left nofun),
    List.forall_mem_cons.2 ⟨hname, h.generated⟩⟩

end Carries

theorem fits_jump (target : Label) : Fits nodes declared (.jump target) :=
  ⟨nofun, nofun, nofun⟩

theorem fits_branch {onTrue onFalse : Label}
    (hv : ∀ x ∈ Flow.ids [v], Known nodes declared x) :
    Fits nodes declared (.branch v onTrue onFalse) :=
  ⟨hv, nofun, nofun⟩

theorem fits_ret (hv : ∀ x ∈ Flow.ids [v], Known nodes declared x) :
    Fits nodes declared (.ret v) :=
  ⟨hv, nofun, nofun⟩

theorem fits_expr {r : Flow.Expr} (hr : ∀ x ∈ Flow.ids r.operands, Known nodes declared x)
    (hcall : r.isCall = true → someCalls nodes = true) : Fits nodes declared (.expr r) :=
  ⟨hr, nofun, fun h => .inr (hcall h)⟩

theorem fits_assign {name : String} {r : Flow.Expr}
    (hname : name ∈ written nodes ∨ name ∈ declared)
    (hr : ∀ x ∈ Flow.ids r.operands, Known nodes declared x)
    (hcall : r.isCall = true → someCalls nodes = true) : Fits nodes declared (.assign name r) :=
  ⟨hr, List.forall_mem_singleton.2 hname, fun h => .inr (hcall h)⟩

theorem fits_store {start : Value} {offset : Nat}
    (hstart : ∀ x ∈ Flow.ids [start], Known nodes declared x)
    (hv : ∀ x ∈ Flow.ids [v], Known nodes declared x) :
    Fits nodes declared (.store start offset v) :=
  ⟨Flow.forall_ids_cons.2 ⟨hstart, hv⟩, nofun, nofun⟩

theorem carries_print (hv : ∀ x ∈ Flow.ids [v], Known nodes declared x) :
    Carries nodes declared [.emit (.expr (.builtin1 "print" v))] :=
  .emit (fits_expr hv nofun) .nil

theorem known_id {name : String} (hname : name ∈ mentioned nodes ∨ name ∈ declared) :
    ∀ x ∈ Flow.ids [.id name], Known nodes declared x := fun _ hx =>
  (List.mem_singleton.1 hx).symm ▸ hname

theorem known_ofLiteral (value : Literal) :
    ∀ x ∈ Flow.ids [Value.ofLiteral value], Known nodes declared x := by
  cases value <;> exact nofun

theorem carries_check {check : String} (hcheck : check = "$check_none" ∨ check = "$check_zero")
    (hv : ∀ x ∈ Flow.ids [v], Known nodes declared x) (loc : Location) :
    Carries nodes declared [Code.guard check v loc] := by
  refine .emit ⟨fun x hx => hv x ?_, nofun, fun _ => .inl ?_⟩ .nil
  · simpa [Flow.ids, Flow.Stmt.operands, Flow.Expr.operands, Flow.Value.id?] using hx
  · simpa [Flow.Stmt.isCheck] using hcheck

end Carries

/-! ## All flattened code -/

structure Contained (nodes : List Tree.Node) (declared : List String) (code : Code)
    (result : Result) : Prop where
  carries : Carries nodes declared code
  known : ∀ x ∈ result.ids, Known nodes declared x
  calls : result.isCall = true → someCalls nodes = true

section Contained

variable {nodes : List Tree.Node} {declared : List String} {test yes no check body rest : Code}
  {v : Value} {onTrue onFalse after again : Label}

namespace Contained

variable {code : Code} {r : Flow.Expr} {vs : List Value}

theorem operation (h : Carries nodes declared code)
    (hr : ∀ x ∈ Flow.ids r.operands, Known nodes declared x) (hcall : r.isCall = false) :
    Contained nodes declared code (.operation r) :=
  ⟨h, hr, fun h' => absurd (hcall.symm.trans h') Bool.false_ne_true⟩

theorem values (h : Carries nodes declared code) (hvs : ∀ x ∈ Flow.ids vs, Known nodes declared x) :
    Contained nodes declared code (.values vs) := ⟨h, hvs, nofun⟩

theorem nothing (h : Carries nodes declared code) : Contained nodes declared code .nothing :=
  ⟨h, nofun, nofun⟩

end Contained

theorem Carries.choice (htest : Contained nodes declared test (.values [v]))
    (hyes : Carries nodes declared yes) (hno : Carries nodes declared no) :
    Carries nodes declared (choice test v onTrue onFalse after yes no) :=
  htest.carries.append (.emit (fits_branch htest.known) (.mark _ (hyes.append
    (.emit (fits_jump _) (.mark _ (hno.append (.emit (fits_jump _) (.mark _ .nil))))))))

theorem Carries.round (hcheck : Contained nodes declared check (.values [v]))
    (hbody : Carries nodes declared body) :
    Carries nodes declared (round again onTrue after check v body) :=
  .emit (fits_jump _) (.mark _ (hcheck.carries.append (.emit (fits_branch hcheck.known)
    (.mark _ (hbody.append (.emit (fits_jump _) (.mark _ .nil)))))))

theorem Carries.assignCall {name className method : String}
    (hv : ∀ x ∈ Flow.ids [v], Known nodes declared x) (hcalls : someCalls nodes = true)
    (loc : Location) (hname : name ∈ written nodes ∨ name ∈ declared)
    (hrest : Carries nodes declared rest) :
    Carries nodes declared
      (Code.guardObject v loc :: .emit (.assign name (callOn v className method)) :: rest) :=
  (carries_check (.inl rfl) hv loc).append (.emit (fits_assign hname hv fun _ => hcalls) hrest)

theorem Contained.hasNext {more className : String}
    (hv : ∀ x ∈ Flow.ids [v], Known nodes declared x) (hcalls : someCalls nodes = true)
    (loc : Location) (hmore : more ∈ declared) (hgenerated : IsGenerated more) :
    Contained nodes declared (Code.guardObject v loc ::
      temporary more .bool (callOn v className "hasNext")) (.values [.id more]) :=
  .values ((carries_check (.inl rfl) hv loc).append (.declare _ hgenerated
    (.emit (fits_assign (.inr hmore) hv fun _ => hcalls) .nil))) (known_id (.inr hmore))

theorem carries_initials {name : String} (hname : name ∈ declared) (layout : Layout) :
    Carries nodes declared (layout.map fun (_, field) =>
      Item.emit (.store (.id name) field.offset (Value.ofLiteral field.initial))) := by
  induction layout with
  | nil => exact .nil
  | cons entry layout ih =>
      exact .emit (fits_store (known_id (.inr hname)) (known_ofLiteral entry.2.initial)) ih

theorem Contained.object {className name : String} {ty : Ty} {slot : Nat} {bitmap : UInt32}
    {layout : Layout} (hgenerated : IsGenerated name) (hcalls : someCalls nodes = true)
    (hname : name ∈ declared) :
    Contained nodes declared (objectCode className ty slot bitmap layout name)
      (.values [.id name]) := by
  have hknown : ∀ x ∈ Flow.ids [.id name], Known nodes declared x := known_id (.inr hname)
  have hslot : Fits nodes declared (.store (.id name) 0 (.word (UInt32.ofNat slot))) :=
    fits_store hknown nofun
  have hinit := (carries_initials hname layout).append
    (.emit (fits_expr (r := .call (methodName className initName) [.id name]) hknown
      fun _ => hcalls) .nil)
  exact .values (.declare ty hgenerated (.emit (fits_assign (.inr hname) nofun nofun)
    (.emit hslot hinit))) hknown

end Contained

theorem generated_of_builds {base name : String} {s s' : State}
    (h : Builds (fresh base) s name s') (hbase : base ∈ generatedBases) : IsGenerated name :=
  ⟨base, hbase, _, NameSupply.fresh_eq (builds_fresh h).1⟩

theorem Flattens.contained {part : Part} {s s' : State} {code : Code} {classes : List Flow.Class}
    {result : Result} (h : Flattens part s code classes result s') (nodes : List Tree.Node)
    (names : List String) (hnodes : Covers part.nodes nodes) (hnames : code.declared ⊆ names) :
    Contained nodes names code result := by
  induction h with
  | literal n value s =>
      exact .operation .nil (known_ofLiteral value) rfl
  | id n name s =>
      exact .operation .nil (known_id (.inl (hnodes.mentions List.mem_cons_self))) rfl
  | binary n op _ _ ihleft ihright =>
      simp only [Part.nodes, Tree.Expr.nodes, Covers.cons_append_iff] at hnodes
      simp only [declared_append, List.append_subset] at hnames
      obtain ⟨hl, hlv, -⟩ := ihleft hnodes.2.1 hnames.1.1
      obtain ⟨hr, hrv, -⟩ := ihright hnodes.2.2 hnames.1.2
      refine .operation ((hl.append hr).append ?_) (Flow.forall_ids_cons.2 ⟨hlv, hrv⟩) rfl
      split
      · exact carries_check (.inr rfl) hrv n.loc
      · exact .nil
  | unary n op _ ih | builtin1 n name _ ih =>
      simp only [Part.nodes, Tree.Expr.nodes] at hnodes
      obtain ⟨hc, hv, -⟩ := ih hnodes.tail hnames
      exact .operation hc hv rfl
  | builtin2 n name _ _ ihleft ihright =>
      simp only [Part.nodes, Tree.Expr.nodes, Covers.cons_append_iff] at hnodes
      simp only [declared_append, List.append_subset] at hnames
      obtain ⟨hl, hlv, -⟩ := ihleft hnodes.2.1 hnames.1
      obtain ⟨hr, hrv, -⟩ := ihright hnodes.2.2 hnames.2
      exact .operation (hl.append hr) (Flow.forall_ids_cons.2 ⟨hlv, hrv⟩) rfl
  | call n _ _ ihcallee ihargs =>
      simp only [Part.nodes, Tree.Expr.nodes, Covers.cons_append_iff] at hnodes
      simp only [declared_append, declared_guardObject, List.append_subset] at hnames
      obtain ⟨hf, hfv, -⟩ := ihcallee hnodes.2.1 hnames.1
      obtain ⟨hargs, hvs, -⟩ := ihargs hnodes.2.2 hnames.2
      exact ⟨hf.append ((carries_check (.inl rfl) hfv n.loc).append hargs),
        Flow.forall_ids_cons.2 ⟨hfv, hvs⟩, fun _ => hnodes.1.someCalls rfl⟩
  | lookup n _ _ _ ih =>
      simp only [Part.nodes, Tree.Expr.nodes] at hnodes
      simp only [declared_append, List.append_subset] at hnames
      obtain ⟨hobj, hv, -⟩ := ih hnodes.tail hnames.1
      exact .operation (hobj.append (carries_check (.inl rfl) hv n.loc)) hv rfl
  | methodCall n _ _ _ ihobj ihargs =>
      simp only [Part.nodes, Tree.Expr.nodes, Covers.cons_append_iff] at hnodes
      simp only [declared_append, declared_guardObject, List.append_subset] at hnames
      obtain ⟨hobj, hv, -⟩ := ihobj hnodes.2.1 hnames.1
      obtain ⟨hargs, hvs, -⟩ := ihargs hnodes.2.2 hnames.2
      exact ⟨hobj.append ((carries_check (.inl rfl) hv n.loc).append hargs),
        Flow.forall_ids_cons.2 ⟨hv, hvs⟩, fun _ => hnodes.1.someCalls rfl⟩
  | construct n _ ih =>
      obtain ⟨hc, hv, -⟩ := ih ⟨hnodes.mentioned, hnodes.written, hnodes.calls⟩ hnames
      exact .operation hc hv rfl
  | listComp n elem _ _ _ _ _ hmore _ _ ihiterable ihfilter ihitem =>
      simp only [Part.nodes, Tree.Expr.nodes, Covers.cons_append_iff, Covers.append_iff] at hnodes
      obtain ⟨hself, hnodes₁, hnodes₂, hnodes₃⟩ := hnodes
      simp only [declared_append, declared_round, declared_guardObject, declared_temporary,
        declared_emit, declared_nil, List.append_nil, List.append_subset] at hnames
      obtain ⟨hnames₁, hmore_mem, hnames₂, hnames₃⟩ := hnames
      obtain ⟨hc₁, hv, -⟩ := ihiterable hnodes₁ hnames₁
      obtain ⟨hc₂, -, -⟩ := ihfilter hnodes₂ hnames₂
      obtain ⟨hc₃, hi, -⟩ := ihitem hnodes₃ hnames₃
      have hcalls : someCalls nodes = true := hself.someCalls rfl
      have helem : elem ∈ written nodes := hself.writes List.mem_cons_self
      have hprint := hc₂.append (hc₃.append (carries_print hi))
      exact .operation (hc₁.append
          (.round (.hasNext hv hcalls n.loc (hmore_mem List.mem_cons_self)
              (generated_of_builds hmore (by decide)))
            (.assignCall hv hcalls n.loc (.inl helem) hprint)))
        (known_id (.inl (Tree.written_subset_mentioned nodes helem))) rfl
  | ifExpr n _ _ _ htmp _ _ _ ihcond ihtrue ihfalse =>
      simp only [Part.nodes, Tree.Expr.nodes, Covers.cons_append_iff, Covers.append_iff] at hnodes
      simp only [declared_declare, declared_choice, declared_append, declared_emit, declared_nil,
        List.append_nil, List.cons_subset, List.append_subset] at hnames
      obtain ⟨htmp_mem, hnames₁, hnames₂, hnames₃⟩ := hnames
      obtain ⟨-, hnodes₁, hnodes₂, hnodes₃⟩ := hnodes
      have hcond := ihcond hnodes₁ hnames₁
      obtain ⟨hc₂, ht, htcall⟩ := ihtrue hnodes₂ hnames₂
      obtain ⟨hc₃, hf, hfcall⟩ := ihfalse hnodes₃ hnames₃
      exact .operation (.declare _ (generated_of_builds htmp (by decide)) (.choice hcond
        (hc₂.append (.emit (fits_assign (.inr htmp_mem) ht htcall) .nil))
        (hc₃.append (.emit (fits_assign (.inr htmp_mem) hf hfcall) .nil))))
        (known_id (.inr htmp_mem)) rfl
  | lambda n _ _ _ _ _ _ ihmake =>
      obtain ⟨hc, hv, -⟩ := ihmake ⟨hnodes.mentioned, hnodes.written, hnodes.calls⟩ hnames
      exact .operation hc hv rfl
  | settled _ ih =>
      obtain ⟨hc, hv, -⟩ := ih hnodes hnames
      exact .values hc hv
  | temporary he hr hname ih =>
      simp only [declared_append, declared_temporary, List.append_subset] at hnames
      obtain ⟨hc, hv, hcall⟩ := ih hnodes hnames.1
      have hmem := hnames.2 List.mem_cons_self
      exact .values (hc.append (.declare _ (generated_of_builds hname (by decide))
        (.emit (fits_assign (.inr hmem) hv hcall) .nil))) (known_id (.inr hmem))
  | noValues s => exact .values .nil fun _ hx => absurd hx List.not_mem_nil
  | moreValues _ _ ihe ihes =>
      simp only [Part.nodes, Tree.Expr.nodesOf, Covers.append_iff] at hnodes
      simp only [declared_append, List.append_subset] at hnames
      obtain ⟨hc₁, hv, -⟩ := ihe hnodes.1 hnames.1
      obtain ⟨hc₂, hvs, -⟩ := ihes hnodes.2 hnames.2
      exact .values (hc₁.append hc₂) (Flow.forall_ids_cons.2 ⟨hv, hvs⟩)
  | object _ _ _ hname =>
      have hcalls : someCalls nodes = true := hnodes.someCalls rfl
      exact Contained.object (generated_of_builds hname (by decide)) hcalls
        (hnames List.mem_cons_self)
  | noFilter test s => exact .nothing .nil
  | filter hadd _ ih =>
      simp only [declared_append, List.append_subset] at hnames
      obtain ⟨hc, hv, -⟩ := ih hnodes hnames.1
      exact .nothing (hc.append (.emit (fits_branch hv) (.mark _ .nil)))
  | assign loop loc name _ ih =>
      simp only [Part.nodes, Tree.Stmt.nodes] at hnodes
      simp only [declared_append, List.append_subset] at hnames
      obtain ⟨hc, hr, hcall⟩ := ih hnodes.tail hnames.1
      have hname : name ∈ written nodes := hnodes.head.writes List.mem_cons_self
      exact .nothing (hc.append (.emit (fits_assign (.inl hname) hr hcall) .nil))
  | ret loop loc _ _ ih =>
      simp only [Part.nodes, Tree.Stmt.nodes] at hnodes
      simp only [declared_append, List.append_subset] at hnames
      obtain ⟨hc, hv, -⟩ := ih hnodes.tail hnames.1
      exact .nothing (hc.append (.emit (fits_ret hv) (.mark _ .nil)))
  | exprStmt loop loc _ ih =>
      simp only [Part.nodes, Tree.Stmt.nodes] at hnodes
      simp only [declared_append, List.append_subset] at hnames
      obtain ⟨hc, hr, hcall⟩ := ih hnodes.tail hnames.1
      exact .nothing (hc.append (.emit (fits_expr hr hcall) .nil))
  | pass loop loc s | strayContinue loc s | strayBreak loc s => exact .nothing .nil
  | continueLoop labels loc hnext | breakLoop labels loc hnext =>
      exact .nothing (.emit (fits_jump _) (.mark _ .nil))
  | fieldAssign loop loc _ _ _ _ ihobj ihcontent =>
      simp only [Part.nodes, Tree.Stmt.nodes, Covers.cons_append_iff] at hnodes
      simp only [declared_append, List.append_subset] at hnames
      obtain ⟨hc₁, ho, -⟩ := ihobj hnodes.2.1 hnames.1.1
      obtain ⟨hc₂, hv, -⟩ := ihcontent hnodes.2.2 hnames.1.2
      exact .nothing ((hc₁.append hc₂).append ((carries_check (.inl rfl) ho loc).append
        (.emit (fits_store ho hv) .nil)))
  | ifElse loop loc _ _ _ _ _ _ ihcond ihtrue ihfalse =>
      simp only [Part.nodes, Tree.Stmt.nodes, Covers.cons_append_iff, Covers.append_iff] at hnodes
      simp only [declared_choice, List.append_subset] at hnames
      exact .nothing (.choice (ihcond hnodes.2.1 hnames.1) (ihtrue hnodes.2.2.1 hnames.2.1).carries
        (ihfalse hnodes.2.2.2 hnames.2.2).carries)
  | whileLoop loop loc _ _ _ _ _ ihcond ihsources =>
      simp only [Part.nodes, Tree.Stmt.nodes, Covers.cons_append_iff] at hnodes
      simp only [declared_round, List.append_subset] at hnames
      exact .nothing (.round (ihcond hnodes.2.1 hnames.1) (ihsources hnodes.2.2 hnames.2).carries)
  | forLoop loop loc elem _ _ _ _ _ hmore _ ihiterable ihsources =>
      simp only [Part.nodes, Tree.Stmt.nodes, Covers.cons_append_iff] at hnodes
      simp only [declared_append, declared_round, declared_guardObject, declared_temporary,
        declared_emit, List.append_subset] at hnames
      obtain ⟨hself, hnodes₁, hnodes₂⟩ := hnodes
      obtain ⟨hnames₁, hmore_mem, hnames₂⟩ := hnames
      obtain ⟨hc₁, hv, -⟩ := ihiterable hnodes₁ hnames₁
      obtain ⟨hc₂, -, -⟩ := ihsources hnodes₂ hnames₂
      have hcalls : someCalls nodes = true := hself.someCalls rfl
      have helem : elem ∈ written nodes := hself.writes List.mem_cons_self
      have hgenerated : IsGenerated _ := generated_of_builds hmore (by decide)
      exact .nothing (hc₁.append ((carries_check (.inl rfl) hv _).append
        (.emit (fits_expr hv fun _ => hcalls) (.round (.hasNext hv hcalls _
          (hmore_mem List.mem_cons_self) hgenerated) (.assignCall hv hcalls _ (.inl helem) hc₂)))))
  | noStmts loop s => exact .nothing .nil
  | moreStmts _ _ ihsource ihsources =>
      simp only [Part.nodes, Tree.Stmt.nodesOf, Covers.append_iff] at hnodes
      simp only [declared_append, List.append_subset] at hnames
      exact .nothing ((ihsource hnodes.1 hnames.1).carries.append
        (ihsources hnodes.2 hnames.2).carries)
  | noClosures s => exact .nothing .nil
  | moreClosures closure _ _ _ _ _ _ => exact .nothing .nil
  | noFunctions enclosing s => exact .nothing .nil
  | moreFunctions _ _ _ _ _ _ ihconstruction ihfs =>
      simp only [Part.nodes, List.map_cons, Tree.Stmt.nodesOf, Covers.append_iff] at hnodes
      simp only [declared_append, List.append_subset] at hnames
      exact .nothing ((ihconstruction hnodes.1 hnames.1).carries.append
        (ihfs hnodes.2 hnames.2).carries)

theorem Flattens.generated {part : Part} {s s' : State} {code : Code} {classes : List Flow.Class}
    {result : Result} (h : Flattens part s code classes result s') :
    ∀ x ∈ code.declared, IsGenerated x :=
  (h.contained _ _ (.refl _) (fun _ h => h)).carries.generated

end Midend.Linear
