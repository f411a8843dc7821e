import Midend.Proofs.Linear.Assignments
/-!
# Temporaries are assigned before they are read

Code that stands behind assignments of the temporaries that it takes over assigns its own before it
reads them, on every way, and leaves those assigned that are read behind it (`Supplies`).  This
holds of whatever is flattened (`Flattens.prepares`).
-/

namespace Midend.Linear

open Midend.Flow (Label Value ids ids_cons)
open NameSupply (IsGenerated generatedBases)
open Midend.Tree (Covers mentioned)
open Build Code

/-- The variable is assigned on every way to the place behind a front part, or is no temporary. -/
def Ready (whole front : Code) (x : String) : Prop := IsGenerated x → Assigned whole front x

/-- Wherever the code stands behind assignments of the given variables, every temporary is assigned
before it is read, and those that the code leaves are assigned behind it. -/
structure Supplies (outer : List Label) (given : List String) (code : Code) (left : List String) :
    Prop where
  resolves : Resolves outer code
  reads : ∀ {label whole front back}, Stands label whole outer front code back →
    (∀ x ∈ given, Ready whole front x) →
    Everywhere (fun place s => ∀ x ∈ ids s.operands, Ready whole place x) front code
  leaves : ∀ {label whole front back}, Stands label whole outer front code back →
    (∀ x ∈ given, Ready whole front x) → ∀ x ∈ left, Ready whole (front ++ code) x

section Supplies

variable {label : Label} {outer outer' : List Label} {given given' left left' all : List String}
  {whole front back piece code rest test yes no check body : Code} {v : Value}
  {again onTrue onFalse after next : Label} {x name : String} {ty : Ty} {stmt : Flow.Stmt}
  {r : Flow.Expr}

theorem Ready.inside (hx : Ready whole front x) (h : Stands label whole outer front piece back)
    (inner todo : Code) (hpiece : piece = inner ++ todo) : Ready whole (front ++ inner) x :=
  fun hgenerated => (hx hgenerated).inside h hpiece

theorem Ready.behind (hx : Ready whole front x) (h : Stands label whole outer front piece back) :
    Ready whole (front ++ piece) x := hx.inside h piece [] (List.append_nil piece).symm

theorem ready_jump (target : Label) : ∀ x ∈ ids (Flow.Stmt.jump target).operands,
    Ready whole front x := fun _ hx => absurd hx List.not_mem_nil

theorem Ready.inYes (hx : Ready whole front x) (h : Stands label whole outer front
      (choice test v onTrue onFalse after yes no) back) :
    Ready whole (front ++ (test ++ [.emit (.branch v onTrue onFalse), .mark onTrue])) x :=
  hx.inside h _ _ (by simp [choice]; rfl)

theorem Ready.inNo (hx : Ready whole front x) (h : Stands label whole outer front
      (choice test v onTrue onFalse after yes no) back) :
    Ready whole (front ++ (test ++ .emit (.branch v onTrue onFalse) :: .mark onTrue ::
      (yes ++ [.emit (.jump after), .mark onFalse]))) x :=
  hx.inside h _ _ (by simp [choice]; rfl)

theorem Ready.inCheck (hx : Ready whole front x) (h : Stands label whole outer front
      (round again onTrue after check v body) back) :
    Ready whole (front ++ [.emit (.jump again), .mark again]) x := hx.inside h _ _ rfl

theorem Ready.inBody (hx : Ready whole front x) (h : Stands label whole outer front
      (round again onTrue after check v body) back) :
    Ready whole (front ++ (.emit (.jump again) :: .mark again ::
      (check ++ [.emit (.branch v onTrue after), .mark onTrue]))) x :=
  hx.inside h _ _ (by simp [round]; rfl)

namespace Supplies

theorem nil (outer : List Label) (given : List String) : Supplies outer given [] given where
  resolves := .nil outer
  reads _ _ := trivial
  leaves {_ _ front _} _ hgiven := by rwa [List.append_nil]

theorem stay (outer : List Label) (hends : stmt.endsBlock = false)
    (hreads : ids stmt.operands ⊆ given) : Supplies outer given [.emit stmt] [] where
  resolves := resolves_inner (by simp [isInner, hends])
  reads _ hgiven := ⟨fun x hx => hgiven x (hreads hx), trivial⟩
  leaves _ _ _ hx := absurd hx List.not_mem_nil

theorem assign (outer : List Label) (name : String) (hreads : ids r.operands ⊆ given) :
    Supplies outer given [.emit (.assign name r)] [name] where
  resolves := resolves_inner rfl
  reads _ hgiven := ⟨fun x hx => hgiven x (hreads hx), trivial⟩
  leaves {_ _ front _} _ _ x hx _ := by
    rw [List.mem_singleton.1 hx]
    exact .of_assign front name r

theorem leave (htargets : stmt.targets ⊆ next :: outer) (hreads : ids stmt.operands ⊆ given) :
    Supplies outer given [.emit stmt, .mark next] [] where
  resolves target htarget := by
    have htarget : target ∈ stmt.targets := by simpa [targets] using htarget
    simpa using htargets htarget
  reads _ hgiven := ⟨fun x hx => hgiven x (hreads hx), trivial⟩
  leaves _ _ _ hx := absurd hx List.not_mem_nil

theorem append (h : Supplies outer given code left) (h' : Supplies outer given' rest left')
    (hgiven : given' ⊆ left ++ given) (hall : all ⊆ left ++ left') :
    Supplies outer given (code ++ rest) all := by
  have hready : ∀ {label whole front back}, Stands label whole outer front (code ++ rest) back →
      (∀ x ∈ given, Ready whole front x) → ∀ x ∈ given', Ready whole (front ++ code) x := by
    intro label whole front back hstands hfront x hx
    have hfirst := hstands.left h'.resolves
    rcases List.mem_append.1 (hgiven hx) with hx | hx
    · exact h.leaves hfirst hfront x hx
    · exact (hfront x hx).behind hfirst
  refine ⟨h.resolves.append h'.resolves, fun hstands hfront => ?_, fun hstands hfront x hx => ?_⟩
  · rw [everywhere_append]
    exact ⟨h.reads (hstands.left h'.resolves) hfront,
      h'.reads (hstands.right h.resolves) (hready hstands hfront)⟩
  · rw [← List.append_assoc]
    rcases List.mem_append.1 (hall hx) with hx | hx
    · exact (h.leaves (hstands.left h'.resolves) hfront x hx).behind (hstands.right h.resolves)
    · exact h'.leaves (hstands.right h.resolves) (hready hstands hfront) x hx

theorem declare (name : String) (ty : Ty) (h : Supplies outer given code left) :
    Supplies outer given (.declare name ty :: code) left := by
  have hdeclare : Supplies outer given [.declare name ty] [] :=
    ⟨resolves_inner rfl, fun _ _ => trivial, fun _ _ _ hx => absurd hx List.not_mem_nil⟩
  exact hdeclare.append h (List.subset_append_right _ _) (List.subset_append_right _ _)

theorem mono (h : Supplies outer given code left) (houter : outer ⊆ outer')
    (hgiven : given ⊆ given') : Supplies outer' given' code left where
  resolves := h.resolves.mono houter
  reads hstands hfront := h.reads { hstands with outer := List.Subset.trans houter hstands.outer }
    fun x hx => hfront x (hgiven hx)
  leaves hstands hfront := h.leaves { hstands with outer := List.Subset.trans houter hstands.outer }
    fun x hx => hfront x (hgiven hx)

/-- What both ways of a choice leave is left behind it. -/
theorem choice (htest : Supplies [] given test (ids [v])) (hyes : Supplies outer given yes left)
    (hno : Supplies outer given no left) :
    Supplies outer given (choice test v onTrue onFalse after yes no) left where
  resolves := htest.resolves.choice hyes.resolves hno.resolves
  reads hstands hfront := by
    obtain ⟨_, htest_at⟩ := hstands.inTest hyes.resolves hno.resolves
    obtain ⟨_, hyes_at⟩ := hstands.inYes htest.resolves hno.resolves
    obtain ⟨_, hno_at⟩ := hstands.inNo htest.resolves hyes.resolves
    have hyes_reads := hyes.reads hyes_at fun x hx => (hfront x hx).inYes hstands
    have hno_reads := hno.reads hno_at fun x hx => (hfront x hx).inNo hstands
    simp only [Linear.choice, everywhere_append, everywhere_emit, everywhere_mark, everywhere_nil,
      List.append_assoc, List.cons_append, List.nil_append, and_true] at hyes_reads hno_reads ⊢
    exact ⟨htest.reads htest_at hfront, htest.leaves htest_at hfront, hyes_reads,
      ready_jump after, hno_reads, ready_jump after⟩
  leaves hstands hfront x hx hgenerated := by
    obtain ⟨_, hyes_at⟩ := hstands.inYes htest.resolves hno.resolves
    obtain ⟨_, hno_at⟩ := hstands.inNo htest.resolves hyes.resolves
    refine hstands.join htest.resolves hyes.resolves hno.resolves ?_ ?_
    · simpa using hyes.leaves hyes_at (fun x hx => (hfront x hx).inYes hstands) x hx hgenerated
    · simpa using hno.leaves hno_at (fun x hx => (hfront x hx).inNo hstands) x hx hgenerated

theorem round (hcheck : Supplies [] given check (ids [v]))
    (hbody : Supplies [again, after] given body left) :
    Supplies outer given (round again onTrue after check v body) [] where
  resolves := hcheck.resolves.round hbody.resolves
  reads hstands hfront := by
    obtain ⟨_, hcheck_at⟩ := hstands.inCheck hbody.resolves
    obtain ⟨_, hbody_at⟩ := hstands.inBody hcheck.resolves
    have hcheck_front := fun x hx => (hfront x hx).inCheck hstands
    have hcheck_reads := hcheck.reads hcheck_at hcheck_front
    have hcheck_leaves := hcheck.leaves hcheck_at hcheck_front
    have hbody_reads := hbody.reads hbody_at fun x hx => (hfront x hx).inBody hstands
    simp only [Linear.round, everywhere_append, everywhere_emit, everywhere_mark, everywhere_nil,
      List.append_assoc, List.cons_append, List.nil_append, and_true]
      at hcheck_reads hcheck_leaves hbody_reads ⊢
    exact ⟨ready_jump again, hcheck_reads, hcheck_leaves, hbody_reads, ready_jump again⟩
  leaves _ _ _ hx := absurd hx List.not_mem_nil

end Supplies

/-! ## Prepared code -/

/-- The code assigns its temporaries as often as it should, and before it reads them. -/
structure Prepares (outer : List Label) (given : List String) (code : Code) (left : List String) :
    Prop extends Supplies outer given code left where
  assigns : Assigns code

namespace Prepares

variable {base className : String} {s s' : State} {t f : Flow.Expr}

theorem mono (h : Prepares outer given code left) (houter : outer ⊆ outer')
    (hgiven : given ⊆ given') : Prepares outer' given' code left :=
  ⟨h.toSupplies.mono houter hgiven, h.assigns⟩

theorem weaken (h : Prepares [] [] code left) : Prepares outer given code left :=
  h.mono (List.nil_subset _) (List.nil_subset _)

theorem leaving (h : Prepares outer given code left)
    (hleft : ∀ x ∈ left', x ∈ left ∨ ¬ IsGenerated x) : Prepares outer given code left' where
  resolves := h.resolves
  reads := h.reads
  leaves hstands hfront x hx hgenerated := by
    have hmem := (hleft x hx).resolve_right (not_not.2 hgenerated)
    exact h.leaves hstands hfront x hmem hgenerated
  assigns := h.assigns

theorem nil (outer : List Label) (given : List String) (hleft : ∀ x ∈ left, ¬ IsGenerated x) :
    Prepares outer given [] left :=
  have hnil : Prepares outer given [] given :=
    ⟨.nil outer given, .plain rfl fun _ hx => absurd hx List.not_mem_nil⟩
  hnil.leaving fun x hx => .inr (hleft x hx)

theorem append (h : Prepares outer given code left) (h' : Prepares outer given' rest left')
    (hgiven : given' ⊆ left ++ given) (hall : all ⊆ left ++ left') :
    Prepares outer given (code ++ rest) all :=
  ⟨h.toSupplies.append h'.toSupplies hgiven hall, h.assigns.append h'.assigns⟩

theorem followedBy (h : Prepares outer given code left) (h' : Prepares outer given rest left') :
    Prepares outer given (code ++ rest) left' :=
  h.append h' (List.subset_append_right _ _) (List.subset_append_right _ _)

theorem into (h : Prepares outer given code left) (h' : Prepares outer left rest left') :
    Prepares outer given (code ++ rest) left' :=
  h.append h' (List.subset_append_left _ _) (List.subset_append_right _ _)

theorem keeping (h : Prepares outer given code left) (h' : Prepares outer left rest left') :
    Prepares outer given (code ++ rest) left :=
  h.append h' (List.subset_append_left _ _) (List.subset_append_left _ _)

theorem both {vs : List Value} (h : Prepares outer [] code (ids [v]))
    (h' : Prepares outer [] rest (ids vs)) : Prepares outer [] (code ++ rest) (ids (v :: vs)) := by
  rw [ids_cons]
  exact h.append h' (List.nil_subset _) (List.Subset.refl _)

theorem stay (outer : List Label) (hends : stmt.endsBlock = false) (hwrites : stmt.writes = [])
    (hreads : ids stmt.operands ⊆ given) : Prepares outer given [.emit stmt] [] :=
  ⟨.stay outer hends hreads, .plain rfl (by simp [hwrites])⟩

theorem assign (outer : List Label) (hname : ¬ IsGenerated name)
    (hreads : ids r.operands ⊆ given) : Prepares outer given [.emit (.assign name r)] [] :=
  ⟨.stay outer rfl hreads, .plain rfl (by simpa [Flow.Stmt.writes] using hname)⟩

theorem guard (outer : List Label) (check : String) (loc : Location) (hv : ids [v] ⊆ given) :
    Prepares outer given [Code.guard check v loc] [] := by
  refine stay outer rfl rfl fun x hx => hv ?_
  simpa [ids, Flow.Stmt.operands, Flow.Expr.operands, Flow.Value.id?] using hx

/-- The check of a receiver stands behind its code and in front of that of the arguments. -/
theorem bothChecked {vs : List Value} (loc : Location) (h : Prepares outer [] code (ids [v]))
    (h' : Prepares outer [] rest (ids vs)) :
    Prepares outer [] (code ++ Code.guardObject v loc :: rest) (ids (v :: vs)) := by
  have hchecked : Prepares outer [] (code ++ [Code.guardObject v loc]) (ids [v]) :=
    h.keeping (guard outer _ loc (List.Subset.refl _))
  simpa using hchecked.both h'

theorem leave (htargets : stmt.targets ⊆ next :: outer) (hwrites : stmt.writes = [])
    (hreads : ids stmt.operands ⊆ given) : Prepares outer given [.emit stmt, .mark next] [] :=
  ⟨.leave htargets hreads, .leave next hwrites⟩

theorem temporary (outer : List Label) (ty : Ty) (hbase : base ∈ generatedBases)
    (hother : base ≠ conditionalBase) (hname : Builds (fresh base) s name s')
    (hreads : ids r.operands ⊆ given) : Prepares outer given (temporary name ty r) [name] :=
  ⟨.declare name ty (.assign outer name hreads), .single hbase hother hname rfl rfl⟩

theorem stores (outer : List Label) (name : String) (layout : Layout) :
    Prepares outer [name] (layout.map fun (_, field) =>
      Item.emit (.store (.id name) field.offset (Value.ofLiteral field.initial))) [] := by
  induction layout with
  | nil => exact nil outer _ fun x hx => absurd hx List.not_mem_nil
  | cons entry layout ih =>
      have hstore : ids [.id name, Value.ofLiteral entry.2.initial] ⊆ [name] := by
        cases entry.2.initial <;> exact fun x hx => hx
      exact (stay outer rfl rfl hstore).followedBy ih

theorem object (outer : List Label) (ty : Ty) (slot : Nat) (bitmap : UInt32) (layout : Layout)
    (hname : Builds (fresh "newObj") s name s') :
    Prepares outer given (objectCode className ty slot bitmap layout name) [name] := by
  have halloc : Prepares outer given
      (Linear.temporary name ty (.alloc (layout.length + 1) bitmap)) [name] :=
    temporary outer ty (by decide) (by decide) hname (List.nil_subset _)
  have hslot : Prepares outer [name]
      [.emit (.store (.id name) 0 (.word (UInt32.ofNat slot)))] [] :=
    stay outer rfl rfl (List.Subset.refl _)
  have hinit : Prepares outer [name]
      [.emit (.expr (.call (methodName className initName) [.id name]))] [] :=
    stay outer rfl rfl (List.Subset.refl _)
  exact halloc.keeping (hslot.followedBy ((stores outer name layout).followedBy hinit))

theorem choice (htest : Prepares [] [] test (ids [v])) (hyes : Prepares outer given yes left)
    (hno : Prepares outer given no left) :
    Prepares outer given (Linear.choice test v onTrue onFalse after yes no) left :=
  ⟨(htest.toSupplies.mono (List.nil_subset _) (List.nil_subset _)).choice hyes.toSupplies
    hno.toSupplies, .choice htest.assigns hyes.assigns hno.assigns⟩

theorem conditional (ty : Ty) (hname : Builds (fresh conditionalBase) s name s')
    (htest : Prepares [] [] test (ids [v])) (hyes : Prepares outer [] yes (ids t.operands))
    (hno : Prepares outer [] no (ids f.operands)) :
    Prepares outer [] (.declare name ty :: Linear.choice test v onTrue onFalse after
      (yes ++ [.emit (.assign name t)]) (no ++ [.emit (.assign name f)])) [name] where
  toSupplies := by
    have hway : ∀ {way : Code} {r : Flow.Expr}, Supplies outer [] way (ids r.operands) →
        Supplies outer [] (way ++ [.emit (.assign name r)]) [name] := fun hway =>
      hway.append (.assign outer name (List.Subset.refl _)) (by simp) (by simp)
    exact .declare name ty (htest.toSupplies.choice (hway hyes.toSupplies) (hway hno.toSupplies))
  assigns := .conditional hname htest.assigns hyes.assigns hno.assigns t f

theorem round (hcheck : Prepares [] given check (ids [v]))
    (hbody : Prepares [again, after] given body left) :
    Prepares outer given (Linear.round again onTrue after check v body) [] :=
  ⟨hcheck.toSupplies.round hbody.toSupplies, .round hcheck.assigns hbody.assigns⟩

theorem iterate {more elem : String} (onTrue : Label) (className : String) (loc : Location)
    (hmore : Builds (fresh "valname") s more s') (helem : ¬ IsGenerated elem)
    (hrest : Prepares [again, after] [] rest left) :
    Prepares outer (ids [v]) (Linear.round again onTrue after
      (Code.guardObject v loc :: Linear.temporary more .bool (callOn v className "hasNext"))
      (.id more)
      (Code.guardObject v loc :: .emit (.assign elem (callOn v className "next")) :: rest)) [] := by
  have hcheck : ∀ outer, Prepares outer (ids [v]) [Code.guardObject v loc] [] := fun outer =>
    guard outer _ loc (List.Subset.refl _)
  have hasNext : Prepares [] (ids [v])
      (Linear.temporary more .bool (callOn v className "hasNext")) [more] :=
    temporary [] .bool (by decide) (by decide) hmore (List.Subset.refl _)
  have hnext : Prepares [again, after] (ids [v])
      [.emit (.assign elem (callOn v className "next"))] [] :=
    assign _ helem (List.Subset.refl _)
  exact round ((hcheck []).followedBy hasNext) ((hcheck _).followedBy (hnext.into hrest))

end Prepares

end Supplies

/-- By induction on how the part is flattened. -/
theorem Flattens.prepares {part : Part} {s s' : State} {code : Code} {classes : List Flow.Class}
    {result : Result} (h : Flattens part s code classes result s') {nodes : List Tree.Node}
    (hnodes : Covers part.nodes nodes) (hplain : ∀ x ∈ mentioned nodes, ¬ IsGenerated x) :
    Prepares part.outer [] code result.ids := by
  have hwritten : ∀ x ∈ Tree.written nodes, ¬ IsGenerated x := fun x hx =>
    hplain x (Tree.written_subset_mentioned nodes hx)
  induction h with
  | literal n value s =>
      refine .nil _ _ ?_
      cases value <;> exact fun x hx => absurd hx List.not_mem_nil
  | id n name s =>
      exact .nil _ _ (List.forall_mem_singleton.2 (hplain _ (hnodes.mentions List.mem_cons_self)))
  | @binary n op left right s s₁ s' c₁ c₂ k₁ k₂ l r _ _ ihleft ihright =>
      simp only [Part.nodes, Tree.Expr.nodes, Covers.cons_append_iff] at hnodes
      have hcheck : Prepares [] (ids [l, r])
          (if op = .idiv ∨ op = .mod then [Code.guardDivisor r n.loc] else []) [] := by
        split
        · exact .guard [] _ n.loc (ids_cons l [r] ▸ List.subset_append_right _ _)
        · exact .nil [] _ fun x hx => absurd hx List.not_mem_nil
      exact ((ihleft hnodes.2.1).both (ihright hnodes.2.2)).keeping hcheck
  | unary n op _ ih | builtin1 n name _ ih =>
      simp only [Part.nodes, Tree.Expr.nodes] at hnodes
      exact ih hnodes.tail
  | builtin2 n name _ _ ihleft ihright =>
      simp only [Part.nodes, Tree.Expr.nodes, Covers.cons_append_iff] at hnodes
      exact (ihleft hnodes.2.1).both (ihright hnodes.2.2)
  | call n _ _ ihcallee ihargs =>
      simp only [Part.nodes, Tree.Expr.nodes, Covers.cons_append_iff] at hnodes
      exact (ihcallee hnodes.2.1).bothChecked n.loc (ihargs hnodes.2.2)
  | lookup n _ _ _ ih =>
      simp only [Part.nodes, Tree.Expr.nodes] at hnodes
      exact (ih hnodes.tail).keeping (.guard [] _ n.loc (List.Subset.refl _))
  | methodCall n _ _ _ ihobj ihargs =>
      simp only [Part.nodes, Tree.Expr.nodes, Covers.cons_append_iff] at hnodes
      exact (ihobj hnodes.2.1).bothChecked n.loc (ihargs hnodes.2.2)
  | construct n _ ih => exact ih ⟨hnodes.mentioned, hnodes.written, hnodes.calls⟩
  | @listComp n elem item iterable cond className more test body after s s₁ s₂ s₃ s₄ s₅ s₆ s' c₁
      c₂ c₃ k₁ k₂ k₃ v i htest hbody hafter _ _ hmore _ _ ihiterable ihfilter ihitem =>
      simp only [Part.nodes, Tree.Expr.nodes, Covers.cons_append_iff, Covers.append_iff] at hnodes
      obtain ⟨hself, hnodes₁, hnodes₂, hnodes₃⟩ := hnodes
      have helem : ¬ IsGenerated elem := hwritten elem (hself.writes List.mem_cons_self)
      have hfilter : Prepares [test, after] [] c₂ [] :=
        (ihfilter hnodes₂).mono (by simp [Part.outer]) (List.nil_subset _)
      have hprint : Prepares [test, after] (ids [i]) [.emit (.expr (.builtin1 "print" i))] [] :=
        .stay _ rfl rfl (List.Subset.refl _)
      refine ((ihiterable hnodes₁).into (.iterate body className n.loc hmore helem
        (hfilter.into ((ihitem hnodes₃).weaken.into hprint)))).leaving ?_
      exact List.forall_mem_singleton.2 (.inr helem)
  | ifExpr n hthen helse hafter htmp _ _ _ ihcond ihtrue ihfalse =>
      simp only [Part.nodes, Tree.Expr.nodes, Covers.cons_append_iff, Covers.append_iff] at hnodes
      obtain ⟨-, hnodes₁, hnodes₂, hnodes₃⟩ := hnodes
      exact .conditional n.ty htmp (ihcond hnodes₁) (ihtrue hnodes₂) (ihfalse hnodes₃)
  | lambda n _ _ _ _ _ _ ihmake => exact ihmake ⟨hnodes.mentioned, hnodes.written, hnodes.calls⟩
  | settled _ ih => exact ih hnodes
  | temporary _ _ hname ih =>
      exact (ih hnodes).into
        (.temporary [] _ (by decide) (by decide) hname (List.Subset.refl _))
  | noValues s => exact .nil _ _ fun x hx => absurd hx List.not_mem_nil
  | moreValues _ _ ihe ihes =>
      simp only [Part.nodes, Tree.Expr.nodesOf, Covers.append_iff] at hnodes
      exact (ihe hnodes.1).both (ihes hnodes.2)
  | object _ _ _ hname => exact .object [] _ _ _ _ hname
  | noFilter test s => exact .nil _ _ fun x hx => absurd hx List.not_mem_nil
  | filter hadd _ ih =>
      refine (ih hnodes).weaken.into (.leave (fun target htarget => ?_) rfl (List.Subset.refl _))
      rcases mem_targets_branch htarget with rfl | rfl <;> simp [Part.outer]
  | assign loop loc name _ ih =>
      simp only [Part.nodes, Tree.Stmt.nodes] at hnodes
      have hname : ¬ IsGenerated name := hwritten name (hnodes.head.writes List.mem_cons_self)
      exact (ih hnodes.tail).weaken.into (.assign _ hname (List.Subset.refl _))
  | ret loop loc _ hnext ih =>
      simp only [Part.nodes, Tree.Stmt.nodes] at hnodes
      exact (ih hnodes.tail).weaken.into (.leave (List.nil_subset _) rfl (List.Subset.refl _))
  | exprStmt loop loc _ ih =>
      simp only [Part.nodes, Tree.Stmt.nodes] at hnodes
      exact (ih hnodes.tail).weaken.into (.stay _ rfl rfl (List.Subset.refl _))
  | pass loop loc s | strayContinue loc s | strayBreak loc s =>
      exact .nil _ _ fun x hx => absurd hx List.not_mem_nil
  | continueLoop labels loc hnext | breakLoop labels loc hnext =>
      exact .leave (by simp [Flow.Stmt.targets, Part.outer, LoopLabels.outer]) rfl
        (List.nil_subset _)
  | @fieldAssign loop loc obj content field className entry s s₁ s' c₁ c₂ k₁ k₂ o v _ _ _ _ ihobj
      ihcontent =>
      simp only [Part.nodes, Tree.Stmt.nodes, Covers.cons_append_iff] at hnodes
      have hcheck : Prepares (LoopLabels.outer loop) (ids [o, v]) [Code.guardObject o loc] [] :=
        .guard _ _ loc (ids_cons o [v] ▸ List.subset_append_left _ _)
      have hstore : Prepares (LoopLabels.outer loop) (ids [o, v])
          [.emit (.store o entry.offset v)] [] := .stay _ rfl rfl (List.Subset.refl _)
      exact ((ihobj hnodes.2.1).both (ihcontent hnodes.2.2)).weaken.into
        (hcheck.followedBy hstore)
  | ifElse loop loc _ _ _ _ _ _ ihcond ihtrue ihfalse =>
      simp only [Part.nodes, Tree.Stmt.nodes, Covers.cons_append_iff, Covers.append_iff] at hnodes
      exact .choice (ihcond hnodes.2.1) (ihtrue hnodes.2.2.1) (ihfalse hnodes.2.2.2)
  | whileLoop loop loc _ _ _ _ _ ihcond ihsources =>
      simp only [Part.nodes, Tree.Stmt.nodes, Covers.cons_append_iff] at hnodes
      exact .round (ihcond hnodes.2.1) (ihsources hnodes.2.2)
  | @forLoop loop loc elem iterable sources className more test body after s s₁ s₂ s₃ s₄ s₅ s' c₁
      c₂ k₁ k₂ v htest hbody hafter _ _ hmore _ ihiterable ihsources =>
      simp only [Part.nodes, Tree.Stmt.nodes, Covers.cons_append_iff] at hnodes
      obtain ⟨hself, hnodes₁, hnodes₂⟩ := hnodes
      have helem : ¬ IsGenerated elem := hwritten elem (hself.writes List.mem_cons_self)
      have hcheck : Prepares (LoopLabels.outer loop) (ids [v])
          [Code.guardObject v iterable.loc] [] := .guard _ _ _ (List.Subset.refl _)
      have hreset : Prepares (LoopLabels.outer loop) (ids [v])
          [.emit (.expr (callOn v className "reset"))] [] :=
        .stay _ rfl rfl (List.Subset.refl _)
      have hloop := hreset.followedBy
        (.iterate body className iterable.loc hmore helem (ihsources hnodes₂))
      exact (ihiterable hnodes₁).weaken.into (hcheck.followedBy hloop)
  | noStmts loop s => exact .nil _ _ fun x hx => absurd hx List.not_mem_nil
  | moreStmts _ _ ihsource ihsources =>
      simp only [Part.nodes, Tree.Stmt.nodesOf, Covers.append_iff] at hnodes
      exact (ihsource hnodes.1).into (ihsources hnodes.2)
  | noClosures s => exact .nil _ _ fun x hx => absurd hx List.not_mem_nil
  | moreClosures closure _ _ _ _ _ _ => exact .nil _ _ fun x hx => absurd hx List.not_mem_nil
  | noFunctions enclosing s => exact .nil _ _ fun x hx => absurd hx List.not_mem_nil
  | moreFunctions _ _ _ _ _ _ ihconstruction ihfs =>
      simp only [Part.nodes, List.map_cons, Tree.Stmt.nodesOf, Covers.append_iff] at hnodes
      exact (ihconstruction hnodes.1).into (ihfs hnodes.2)

end Midend.Linear
