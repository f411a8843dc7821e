import Midend.Proofs.Linear.Contents
import Midend.Proofs.Linear.Growth
/-!
# Nodes in the course of a body

Every node of a part is flattened in the course of the part (`Flattens.within`): its code is a
piece of the code of the part that no jump from outside enters, behind it stands what performs its
operation, and the catalog only grows before and after.
-/

namespace Midend.Linear

open Midend.Flow (Label Value)
open Build Code

inductive Part.IsOf : Part → Tree.Node → Prop
  | expr (e : Tree.Expr) : IsOf (.expr e) (.expr e)
  | stmt (loop : Option LoopLabels) (source : Tree.Stmt) : IsOf (.stmt loop source) (.stmt source)

/-- Behind the code of an operation stands the statement that performs it, unless the operation
is what is left to be used. -/
inductive Used : Result → Code → Result → Prop
  | left (result : Result) : Used result [] result
  | assigned (name : String) (r : Flow.Expr) (rest : Code) (result : Result) :
      Used (.operation r) (.emit (.assign name r) :: rest) result
  | kept (name : String) (ty : Ty) (r : Flow.Expr) (rest : Code) (result : Result) :
      Used (.operation r) (.declare name ty :: .emit (.assign name r) :: rest) result
  | run (r : Flow.Expr) (rest : Code) (result : Result) :
      Used (.operation r) (.emit (.expr r) :: rest) result
  | settled (v : Value) (rest : Code) (result : Result) :
      Used (.operation (.value v)) rest result
  | values (vs : List Value) (rest : Code) (result : Result) : Used (.values vs) rest result
  | nothing (rest : Code) (result : Result) : Used .nothing rest result

theorem Used.trans {r₁ r₂ r₃ : Result} {code rest : Code} (h : Used r₁ code r₂)
    (h' : Used r₂ rest r₃) : Used r₁ (code ++ rest) r₃ := by
  cases h with
  | left _ => exact h'
  | assigned name r _ _ => exact .assigned name r _ _
  | kept name ty r _ _ => exact .kept name ty r _ _
  | run r _ _ => exact .run r _ _
  | settled v _ _ => exact .settled v _ _
  | values vs _ _ => exact .values vs _ _
  | nothing _ _ => exact .nothing _ _

/-- A node is flattened in the course of a part.  What stands before and behind its code makes
sense without it: no jump from there goes into the code of the node. -/
inductive Within (node : Tree.Node) (outer : List Label) (s : State) (code : Code)
    (classes : List Flow.Class) (result : Result) (s' : State) : Prop
  | intro {part : Part} {s₁ s₁' : State} {c before behind : Code} {k : List Flow.Class}
      {r : Result} (hpart : part.IsOf node) (hflattens : Flattens part s₁ c k r s₁')
      (hcode : code = before ++ (c ++ behind)) (hused : Used r behind result)
      (hclasses : k ⊆ classes) (hbefore : Grows s s₁) (hbehind : Grows s₁' s')
      (hresolves : Resolves outer (before ++ behind))
      (houter : part.outer ⊆ marks (before ++ behind) ++ outer) :
      Within node outer s code classes result s'

theorem resolves_iterate {outer : List Label} {v : Value} {className more elem : String}
    {again onTrue after : Label} {body : Code} (loc : Location)
    (hbody : Resolves [again, after] body) :
    Resolves outer (round again onTrue after
      (Code.guardObject v loc :: Linear.temporary more .bool (callOn v className "hasNext"))
      (.id more)
      (Code.guardObject v loc :: .emit (.assign elem (callOn v className "next")) :: body)) := by
  have hcheck : Resolves [] (Code.guardObject v loc ::
      Linear.temporary more .bool (callOn v className "hasNext")) := resolves_inner rfl
  have hnext : Resolves [again, after] [Code.guardObject v loc,
      .emit (.assign elem (callOn v className "next"))] := resolves_inner rfl
  exact hcheck.round (hnext.append hbody)

section Within

variable {node : Tree.Node} {outer outer₁ : List Label} {s s₁ s₁' s' : State}
  {c code rest test yes no check body : Code} {k k' classes : List Flow.Class}
  {r result : Result} {v : Value} {onTrue onFalse after again : Label}

theorem Within.self {part : Part} (hpart : part.IsOf node)
    (h : Flattens part s code classes result s') :
    Within node part.outer s code classes result s' := by
  have hcode : code = [] ++ (code ++ []) := by rw [List.nil_append, List.append_nil]
  exact .intro hpart h hcode (.left result) (fun _ h => h) (.refl s) (.refl s')
    (Resolves.nil part.outer) (fun _ h => h)

theorem Within.widen (h : Within node outer s₁ c k r s₁') (hbefore : Grows s s₁)
    (hbehind : Grows s₁' s') (hclasses : k ⊆ classes) : Within node outer s c classes r s' := by
  obtain ⟨hpart, hflattens, hcode, hused, hclasses', hbefore', hbehind', hresolves, houter⟩ := h
  exact .intro hpart hflattens hcode hused (fun _ h => hclasses (hclasses' h))
    (hbefore.trans hbefore') (hbehind'.trans hbehind) hresolves houter

/-- Code that stands in a piece of code stands in all code around the piece. -/
theorem Within.amid (before behind : Code) (h : Within node outer₁ s c k r s')
    (hcode : code = before ++ (c ++ behind)) (hused : Used r behind result)
    (hresolves : Resolves outer (before ++ behind))
    (houter : outer₁ ⊆ marks (before ++ behind) ++ outer) :
    Within node outer s code k result s' := by
  obtain @⟨part, t, t', c', before', behind', k', r', hpart, hflattens, hcode', hused', hclasses,
    hbefore, hbehind, hresolves', houter'⟩ := h
  have hmarks : marks (before ++ before' ++ (behind' ++ behind)) =
      before.marks ++ (before'.marks ++ (behind'.marks ++ behind.marks)) := by simp
  have hknown : marks (before ++ behind) ⊆ marks (before ++ before' ++ (behind' ++ behind)) := by
    intro target htarget
    rw [marks_append, List.mem_append] at htarget
    rw [hmarks]
    rcases htarget with h | h <;> simp [h]
  have hknown' : ∀ target ∈ marks (before' ++ behind') ++ outer₁,
      target ∈ marks (before ++ before' ++ (behind' ++ behind)) ++ outer := by
    intro target htarget
    rcases List.mem_append.1 htarget with htarget | htarget
    · rw [marks_append, List.mem_append] at htarget
      rw [hmarks]
      rcases htarget with h | h <;> simp [h]
    · refine List.mem_append.2 ((List.mem_append.1 (houter htarget)).imp_left fun h => ?_)
      exact hknown h
  have hcode'' : code = (before ++ before') ++ (c' ++ (behind' ++ behind)) := by
    rw [hcode, hcode']
    simp
  refine .intro hpart hflattens hcode'' (hused'.trans hused) hclasses hbefore hbehind
    (fun target htarget => ?_) (fun label hlabel => hknown' label (houter' hlabel))
  · have htargets : target ∈ targets (before ++ behind) ∨
        target ∈ targets (before' ++ behind') := by
      simp only [targets_append, List.mem_append] at htarget ⊢
      tauto
    rcases htargets with htarget | htarget
    · exact (hresolves target htarget).imp_left fun h => hknown h
    · exact List.mem_append.1 (hknown' target (List.mem_append.2 (hresolves' target htarget)))

/-- Code that leaves values leaves nothing to be performed. -/
theorem Within.settle {vs : List Value} (h : Within node outer s c k (.values vs) s') :
    Within node outer s c k result s' :=
  h.amid [] [] (by simp) (.values _ _ _) (.nil outer) (by simp)

theorem Within.before (h : Within node outer₁ s c k .nothing s') (hsub : outer₁ ⊆ outer)
    (hrest : Resolves outer rest) : Within node outer s (c ++ rest) k result s' :=
  h.amid [] rest (by simp) (.nothing _ _) hrest fun _ h => List.mem_append_right _ (hsub h)

theorem Within.behind (h : Within node outer₁ s c k .nothing s') (hsub : outer₁ ⊆ outer)
    (hrest : Resolves outer rest) : Within node outer s (rest ++ c) k result s' :=
  h.amid rest [] (by simp) (.nothing _ _) (by simpa using hrest) fun _ h =>
    List.mem_append_right _ (hsub h)

/-- The first of two pieces of code, each with the classes that it leaves. -/
theorem Within.first (h : Within node outer s c k .nothing s₁) (hrest : Resolves outer rest)
    (hgrows : Grows s₁ s') : Within node outer s (c ++ rest) (k ++ k') result s' :=
  (h.before (fun _ h => h) hrest).widen (.refl s) hgrows (List.subset_append_left _ _)

theorem Within.second (h : Within node outer s₁ c k' .nothing s') (hrest : Resolves outer rest)
    (hgrows : Grows s s₁) : Within node outer s (rest ++ c) (k ++ k') result s' :=
  (h.behind (fun _ h => h) hrest).widen hgrows (.refl s') (List.subset_append_right _ _)

theorem Within.inTest (h : Within node [] s test k .nothing s') (hyes : Resolves outer yes)
    (hno : Resolves outer no) :
    Within node outer s (choice test v onTrue onFalse after yes no) k result s' :=
  h.amid [] _ rfl (.nothing _ _) ((Resolves.nil []).choice hyes hno) (List.nil_subset _)

theorem Within.inYes (h : Within node outer s yes k .nothing s') (htest : Resolves [] test)
    (hno : Resolves outer no) :
    Within node outer s (choice test v onTrue onFalse after yes no) k result s' := by
  refine h.amid (test ++ [.emit (.branch v onTrue onFalse), .mark onTrue]) _
    (by simp [choice]; rfl) (.nothing _ _) ?_ (List.subset_append_right _ _)
  have hframe : Resolves outer (choice test v onTrue onFalse after [] no) :=
    htest.choice (.nil outer) hno
  simpa [choice] using hframe

theorem Within.inNo (h : Within node outer s no k .nothing s') (htest : Resolves [] test)
    (hyes : Resolves outer yes) :
    Within node outer s (choice test v onTrue onFalse after yes no) k result s' := by
  refine h.amid (test ++ .emit (.branch v onTrue onFalse) :: .mark onTrue ::
    (yes ++ [.emit (.jump after), .mark onFalse])) _ (by simp [choice]; rfl) (.nothing _ _) ?_
    (List.subset_append_right _ _)
  have hframe : Resolves outer (choice test v onTrue onFalse after yes []) :=
    htest.choice hyes (.nil outer)
  simpa [choice] using hframe

theorem Within.inCheck (h : Within node [] s check k .nothing s')
    (hbody : Resolves [again, after] body) :
    Within node outer s (round again onTrue after check v body) k result s' :=
  h.amid [.emit (.jump again), .mark again] _ rfl (.nothing _ _)
    ((Resolves.nil []).round hbody) (List.nil_subset _)

theorem Within.inBody (h : Within node [again, after] s body k .nothing s')
    (hcheck : Resolves [] check) :
    Within node outer s (round again onTrue after check v body) k result s' := by
  refine h.amid (.emit (.jump again) :: .mark again ::
    (check ++ [.emit (.branch v onTrue after), .mark onTrue])) _ (by simp [round]; rfl)
    (.nothing _ _) ?_ ?_
  · have hframe : Resolves outer (round again onTrue after check v []) := hcheck.round (.nil _)
    simpa [round] using hframe
  · intro label hlabel
    simp only [List.mem_cons, List.not_mem_nil, or_false] at hlabel
    rcases hlabel with rfl | rfl <;> simp

theorem Within.inTurn {className more elem : String} (loc : Location)
    (h : Within node [again, after] s body k .nothing s') :
    Within node outer s (round again onTrue after
      (Code.guardObject v loc :: Linear.temporary more .bool (callOn v className "hasNext"))
      (.id more)
      (Code.guardObject v loc :: .emit (.assign elem (callOn v className "next")) :: body))
      k result s' := by
  have hnext : Resolves [again, after] [Code.guardObject v loc,
      .emit (.assign elem (callOn v className "next"))] := resolves_inner rfl
  have hturn : Within node [again, after] s _ k .nothing s' := h.behind (fun _ h => h) hnext
  exact hturn.inBody (resolves_inner rfl)

end Within

theorem Flattens.resolves {part : Part} {s s' : State} {code : Code} {classes : List Flow.Class}
    {result : Result} (h : Flattens part s code classes result s') :
    Resolves part.outer code := h.shaped.resolves

theorem grows_three {base₁ base₂ base₃ name₁ name₂ name₃ : String} {s s₁ s₂ s' : State}
    (h₁ : Builds (fresh base₁) s name₁ s₁) (h₂ : Builds (fresh base₂) s₁ name₂ s₂)
    (h₃ : Builds (fresh base₃) s₂ name₃ s') : Grows s s' :=
  (grows_fresh h₁).trans ((grows_fresh h₂).trans (grows_fresh h₃))

/-- By induction on how the part is flattened: each case says where in the code of the part the
code of a smaller part stands. -/
theorem Flattens.within {node : Tree.Node} {part : Part} {s s' : State} {code : Code}
    {classes : List Flow.Class} {result : Result} (h : Flattens part s code classes result s')
    (hnode : node ∈ part.nodes) : Within node part.outer s code classes result s' := by
  induction h with
  | literal n value s =>
      obtain rfl := List.mem_singleton.1 hnode
      exact .self (.expr _) (.literal n value s)
  | id n name s =>
      obtain rfl := List.mem_singleton.1 hnode
      exact .self (.expr _) (.id n name s)
  | binary n op hleft hright ihleft ihright =>
      simp only [Part.nodes, Tree.Expr.nodes, List.mem_cons, List.mem_append] at hnode
      rcases hnode with rfl | hnode | hnode
      · exact .self (.expr _) (.binary n op hleft hright)
      · exact ((ihleft hnode).settle.first hright.resolves hright.grows).before (fun _ h => h)
          (resolves_inner (by split <;> rfl))
      · exact ((ihright hnode).settle.second hleft.resolves hleft.grows).before (fun _ h => h)
          (resolves_inner (by split <;> rfl))
  | unary n op hoperand ih =>
      rcases List.mem_cons.1 hnode with rfl | hnode
      · exact .self (.expr _) (.unary n op hoperand)
      · exact (ih hnode).settle
  | builtin1 n name harg ih =>
      rcases List.mem_cons.1 hnode with rfl | hnode
      · exact .self (.expr _) (.builtin1 n name harg)
      · exact (ih hnode).settle
  | builtin2 n name hleft hright ihleft ihright =>
      simp only [Part.nodes, Tree.Expr.nodes, List.mem_cons, List.mem_append] at hnode
      rcases hnode with rfl | hnode | hnode
      · exact .self (.expr _) (.builtin2 n name hleft hright)
      · exact (ihleft hnode).settle.first hright.resolves hright.grows
      · exact (ihright hnode).settle.second hleft.resolves hleft.grows
  | @call n callee args s s₁ s' c₁ c₂ k₁ k₂ f vs hcallee hargs ihcallee ihargs =>
      simp only [Part.nodes, Tree.Expr.nodes, List.mem_cons, List.mem_append] at hnode
      have hcheck : Resolves [] [Code.guardObject f n.loc] := resolves_inner rfl
      rcases hnode with rfl | hnode | hnode
      · exact .self (.expr _) (.call n hcallee hargs)
      · exact (ihcallee hnode).settle.first (hcheck.append hargs.resolves) hargs.grows
      · exact ((ihargs hnode).settle.behind (fun _ h => h) hcheck).second hcallee.resolves
          hcallee.grows
  | lookup n hclass hentry hobj ih =>
      rcases List.mem_cons.1 hnode with rfl | hnode
      · exact .self (.expr _) (.lookup n hclass hentry hobj)
      · exact (ih hnode).settle.before (fun _ h => h) (resolves_inner rfl)
  | @methodCall n obj method className args s s₁ s' c₁ c₂ k₁ k₂ v vs hclass hobj hargs ihobj
      ihargs =>
      simp only [Part.nodes, Tree.Expr.nodes, List.mem_cons, List.mem_append] at hnode
      have hcheck : Resolves [] [Code.guardObject v n.loc] := resolves_inner rfl
      rcases hnode with rfl | hnode | hnode
      · exact .self (.expr _) (.methodCall n hclass hobj hargs)
      · exact (ihobj hnode).settle.first (hcheck.append hargs.resolves) hargs.grows
      · exact ((ihargs hnode).settle.behind (fun _ h => h) hcheck).second hobj.resolves hobj.grows
  | construct n hmake _ =>
      obtain rfl := List.mem_singleton.1 hnode
      exact .self (.expr _) (.construct n hmake)
  | @listComp n elem item iterable cond className more test body after s s₁ s₂ s₃ s₄ s₅ s₆ s' c₁
      c₂ c₃ k₁ k₂ k₃ v i htest hbody hafter hiterable hclass hmore hfilter hitem ihiterable
      ihfilter ihitem =>
      simp only [Part.nodes, Tree.Expr.nodes, List.mem_cons, List.mem_append] at hnode
      have hnames := grows_three htest hbody hafter
      have hprint : Resolves [test, after] [.emit (.expr (.builtin1 "print" i))] :=
        resolves_inner rfl
      have hfilter_resolves : Resolves [test, after] c₂ :=
        hfilter.resolves.mono (by simp [Part.outer])
      have hitem_resolves : Resolves [test, after] (c₃ ++ [.emit (.expr (.builtin1 "print" i))]) :=
        (hitem.resolves.mono (List.nil_subset _)).append hprint
      rcases hnode with rfl | hnode | hnode | hnode
      · exact .self (.expr _) (.listComp n elem htest hbody hafter hiterable hclass hmore hfilter
          hitem)
      · exact ((ihiterable hnode).settle.before (fun _ h => h)
          (resolves_iterate n.loc (hfilter_resolves.append hitem_resolves))).widen hnames
          ((grows_fresh hmore).trans (hfilter.grows.trans hitem.grows)) (by simp)
      · have hturn : Within node [test, after] _ _ _ .nothing _ :=
          (ihfilter hnode).before (by simp [Part.outer]) hitem_resolves
        exact ((hturn.inTurn n.loc).behind (fun _ h => h) hiterable.resolves).widen
          (hnames.trans (hiterable.grows.trans (grows_fresh hmore))) hitem.grows (by simp)
      · have hturn : Within node [test, after] _ _ _ .nothing _ :=
          ((ihitem hnode).settle.before (List.nil_subset _) hprint).behind (fun _ h => h)
            hfilter_resolves
        exact ((hturn.inTurn n.loc).behind (fun _ h => h) hiterable.resolves).widen
          (hnames.trans (hiterable.grows.trans ((grows_fresh hmore).trans hfilter.grows)))
          (.refl _) (by simp)
  | @ifExpr n cond onTrue onFalse thenLabel elseLabel after tmp s s₁ s₂ s₃ s₄ s₅ s₆ s' c₁ c₂ c₃
      k₁ k₂ k₃ v t f hthen helse hafter htmp hcond htrue hfalse ihcond ihtrue ihfalse =>
      simp only [Part.nodes, Tree.Expr.nodes, List.mem_cons, List.mem_append] at hnode
      have hnames := (grows_three hthen helse hafter).trans (grows_fresh htmp)
      have hdeclare : Resolves [] [.declare tmp n.ty] := resolves_inner rfl
      have hyes : Resolves [] (c₂ ++ [.emit (.assign tmp t)]) :=
        htrue.resolves.append (resolves_inner rfl)
      have hno : Resolves [] (c₃ ++ [.emit (.assign tmp f)]) :=
        hfalse.resolves.append (resolves_inner rfl)
      rcases hnode with rfl | hnode | hnode | hnode
      · exact .self (.expr _) (.ifExpr n hthen helse hafter htmp hcond htrue hfalse)
      · exact (((ihcond hnode).settle.inTest hyes hno).behind (fun _ h => h) hdeclare).widen hnames
          (htrue.grows.trans hfalse.grows) (by simp)
      · have hway : Within node [] _ _ _ .nothing _ :=
          (ihtrue hnode).amid [] [.emit (.assign tmp t)] rfl (.assigned tmp t [] .nothing)
            (resolves_inner rfl) (List.nil_subset _)
        exact ((hway.inYes hcond.resolves hno).behind (fun _ h => h) hdeclare).widen
          (hnames.trans hcond.grows) hfalse.grows (by simp)
      · have hway : Within node [] _ _ _ .nothing _ :=
          (ihfalse hnode).amid [] [.emit (.assign tmp f)] rfl (.assigned tmp f [] .nothing)
            (resolves_inner rfl) (List.nil_subset _)
        exact ((hway.inNo hcond.resolves hyes).behind (fun _ h => h) hdeclare).widen
          (hnames.trans (hcond.grows.trans htrue.grows)) (.refl _) (by simp)
  | lambda n hsignature hname henter hclosure hmake _ _ =>
      obtain rfl := List.mem_singleton.1 hnode
      exact .self (.expr _) (.lambda n hsignature hname henter hclosure hmake)
  | @settled e s s' c k v he ih =>
      exact (ih hnode).amid [] [] (by simp) (.settled v _ _) (resolves_inner rfl)
        (List.nil_subset _)
  | @temporary e name s s₁ s' c k r he hr hname ih =>
      exact ((ih hnode).amid [] (Linear.temporary name e.ty r) rfl (.kept name e.ty r _ _)
        (resolves_inner rfl) (List.nil_subset _)).widen (.refl _) (grows_fresh hname)
        (fun _ h => h)
  | noValues s => exact absurd hnode List.not_mem_nil
  | moreValues he hes ihe ihes =>
      simp only [Part.nodes, Tree.Expr.nodesOf, List.mem_append] at hnode
      rcases hnode with hnode | hnode
      · exact (ihe hnode).settle.first hes.resolves hes.grows
      · exact (ihes hnode).settle.second he.resolves he.grows
  | @object className name ty slot bitmap layout s s' hslot hbitmap hlayout hname =>
      obtain rfl := List.mem_singleton.1 hnode
      exact (Within.self (.expr _) (.construct ⟨ty, default⟩
        (.object hslot hbitmap hlayout hname))).amid [] [] (by simp) (.settled _ _ _)
        (resolves_inner rfl) (List.nil_subset _)
  | noFilter test s => exact absurd hnode List.not_mem_nil
  | @filter test add cond s s₁ s' c k v hadd hcond ih =>
      exact ((ih hnode).settle.before (List.nil_subset _) (Resolves.gate v add test)).widen
        (grows_fresh hadd) (.refl _) (fun _ h => h)
  | assign loop loc name he ih =>
      rcases List.mem_cons.1 hnode with rfl | hnode
      · exact .self (.stmt loop _) (.assign loop loc name he)
      · exact (ih hnode).amid [] _ rfl (.assigned name _ [] _) (resolves_inner rfl)
          (List.nil_subset _)
  | ret loop loc he hnext ih =>
      rcases List.mem_cons.1 hnode with rfl | hnode
      · exact .self (.stmt loop _) (.ret loop loc he hnext)
      · exact ((ih hnode).settle.before (List.nil_subset _) (Resolves.plain rfl)).widen (.refl _)
          (grows_fresh hnext) (fun _ h => h)
  | exprStmt loop loc he ih =>
      rcases List.mem_cons.1 hnode with rfl | hnode
      · exact .self (.stmt loop _) (.exprStmt loop loc he)
      · exact (ih hnode).amid [] _ rfl (.run _ [] _) (resolves_inner rfl) (List.nil_subset _)
  | pass loop loc s =>
      obtain rfl := List.mem_singleton.1 hnode
      exact .self (.stmt loop _) (.pass loop loc s)
  | strayContinue loc s =>
      obtain rfl := List.mem_singleton.1 hnode
      exact .self (.stmt none _) (.strayContinue loc s)
  | strayBreak loc s =>
      obtain rfl := List.mem_singleton.1 hnode
      exact .self (.stmt none _) (.strayBreak loc s)
  | continueLoop labels loc hnext =>
      obtain rfl := List.mem_singleton.1 hnode
      exact .self (.stmt (some labels) _) (.continueLoop labels loc hnext)
  | breakLoop labels loc hnext =>
      obtain rfl := List.mem_singleton.1 hnode
      exact .self (.stmt (some labels) _) (.breakLoop labels loc hnext)
  | fieldAssign loop loc hclass hentry hobj hcontent ihobj ihcontent =>
      simp only [Part.nodes, Tree.Stmt.nodes, List.mem_cons, List.mem_append] at hnode
      rcases hnode with rfl | hnode | hnode
      · exact .self (.stmt loop _) (.fieldAssign loop loc hclass hentry hobj hcontent)
      · exact ((ihobj hnode).settle.first hcontent.resolves hcontent.grows).before
          (List.nil_subset _) (resolves_inner rfl)
      · exact ((ihcontent hnode).settle.second hobj.resolves hobj.grows).before
          (List.nil_subset _) (resolves_inner rfl)
  | ifElse loop loc hthen helse hafter hcond htrue hfalse ihcond ihtrue ihfalse =>
      simp only [Part.nodes, Tree.Stmt.nodes, List.mem_cons, List.mem_append] at hnode
      have hnames := grows_three hthen helse hafter
      rcases hnode with rfl | hnode | hnode | hnode
      · exact .self (.stmt loop _) (.ifElse loop loc hthen helse hafter hcond htrue hfalse)
      · exact ((ihcond hnode).settle.inTest htrue.resolves hfalse.resolves).widen hnames
          (htrue.grows.trans hfalse.grows) (by simp)
      · exact ((ihtrue hnode).inYes hcond.resolves hfalse.resolves).widen
          (hnames.trans hcond.grows) hfalse.grows (by simp)
      · exact ((ihfalse hnode).inNo hcond.resolves htrue.resolves).widen
          (hnames.trans (hcond.grows.trans htrue.grows)) (.refl _) (by simp)
  | whileLoop loop loc htest hbody hafter hcond hsources ihcond ihsources =>
      simp only [Part.nodes, Tree.Stmt.nodes, List.mem_cons, List.mem_append] at hnode
      have hnames := grows_three htest hbody hafter
      rcases hnode with rfl | hnode | hnode
      · exact .self (.stmt loop _) (.whileLoop loop loc htest hbody hafter hcond hsources)
      · exact ((ihcond hnode).settle.inCheck hsources.resolves).widen hnames hsources.grows
          (by simp)
      · exact ((ihsources hnode).inBody hcond.resolves).widen (hnames.trans hcond.grows) (.refl _)
          (by simp)
  | @forLoop loop loc elem iterable sources className more test body after s s₁ s₂ s₃ s₄ s₅ s' c₁
      c₂ k₁ k₂ v htest hbody hafter hiterable hclass hmore hsources ihiterable ihsources =>
      simp only [Part.nodes, Tree.Stmt.nodes, List.mem_cons, List.mem_append] at hnode
      have hnames := grows_three htest hbody hafter
      have hreset : Resolves (LoopLabels.outer loop) [Code.guardObject v iterable.loc,
          .emit (.expr (callOn v className "reset"))] := resolves_inner rfl
      rcases hnode with rfl | hnode | hnode
      · exact .self (.stmt loop _) (.forLoop loop loc elem htest hbody hafter hiterable hclass
          hmore hsources)
      · exact ((ihiterable hnode).settle.before (List.nil_subset _)
          (hreset.append (resolves_iterate iterable.loc hsources.resolves))).widen hnames
          ((grows_fresh hmore).trans hsources.grows) (by simp)
      · exact ((((ihsources hnode).inTurn iterable.loc).behind (fun _ h => h) hreset).behind
          (fun _ h => h) (hiterable.resolves.mono (List.nil_subset _))).widen
          (hnames.trans (hiterable.grows.trans (grows_fresh hmore))) (.refl _) (by simp)
  | noStmts loop s => exact absurd hnode List.not_mem_nil
  | moreStmts hsource hsources ihsource ihsources =>
      simp only [Part.nodes, Tree.Stmt.nodesOf, List.mem_append] at hnode
      rcases hnode with hnode | hnode
      · exact (ihsource hnode).first hsources.resolves hsources.grows
      · exact (ihsources hnode).second hsource.resolves hsource.grows
  | noClosures s => exact absurd hnode List.not_mem_nil
  | moreClosures closure _ _ _ _ _ _ => exact absurd hnode List.not_mem_nil
  | noFunctions enclosing s => exact absurd hnode List.not_mem_nil
  | moreFunctions hpaths henter hclosures hconstruction hfs _ ihconstruction ihfs =>
      simp only [Part.nodes, List.map_cons, Tree.Stmt.nodesOf, List.mem_append] at hnode
      have hentered := (grows_recordPaths hpaths).trans
        ((grows_enterClosures (isClosureName_ofFunction _ _) henter).trans hclosures.grows)
      rcases hnode with hnode | hnode
      · exact ((ihconstruction hnode).before (fun _ h => h) hfs.resolves).widen hentered hfs.grows
          (by simp)
      · exact ((ihfs hnode).behind (fun _ h => h) hconstruction.resolves).widen
          (hentered.trans hconstruction.grows) (.refl _) (by simp)

end Midend.Linear
