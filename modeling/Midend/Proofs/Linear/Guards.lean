import Midend.Proofs.Linear.Temporaries
/-!
# Objects are checked before they are used

Whatever works on an object stands behind a check that the object is not `none`, on every path.
The check stands right in front of it, but a call evaluates its arguments in between
(`flatten_guards`).
-/

namespace Midend.Tree.Node

/-- What a call is made on, with the arguments that are evaluated behind it. -/
def receiver? : Node → Option (Expr × List Expr)
  | .expr (.call _ callee args) => some (callee, args)
  | .expr (.methodCall _ obj _ args) => some (obj, args)
  | _ => none

end Midend.Tree.Node

namespace Midend.Flow

def Expr.dereferences : Expr → Option Value
  | .load start _ => some start
  | .callIndirect callee _ => some callee
  | .call name args => if (Stmt.expr (.call name args)).isCheck then none else args.head?
  | _ => none

namespace Stmt

def dereferences : Stmt → Option Value
  | .assign _ e | .expr e => e.dereferences
  | .store start _ _ => some start
  | _ => none

def checks : Stmt → Option Value
  | .expr (.call name args) => if name = "$check_none" then args.head? else none
  | _ => none

def Keeps (ctx : Context) (v : Value) (s : Stmt) : Prop := ∀ x, v = .id x → s.Spares ctx x

instance (ctx : Context) (x : String) (s : Stmt) : Decidable (s.Spares ctx x) :=
  decidable_of_iff (x ∉ s.writes ∧ (s.hasCall = true → s.isCheck = true ∨ ctx.isLocal x = true))
    ⟨fun h => ⟨h.1, h.2⟩, fun h => ⟨h.writes, h.calls⟩⟩

instance (ctx : Context) (v : Value) : DecidablePred (Keeps ctx v) := fun s =>
  decidable_of_iff (∀ x ∈ v.id?, s.Spares ctx x) (by cases v <;> simp [Value.id?, Keeps])

theorem dereferences_of_operation {s : Stmt} {e : Expr} (h : s.operation? = some e) :
    s.dereferences = e.dereferences := by
  unfold operation? at h
  split at h
  · exact Option.some.inj h ▸ rfl
  · exact Option.some.inj h ▸ rfl
  · exact nomatch h

end Stmt

/-- Behind some statements, the latest first, a value is known not to be `none`: it has been
checked, and nothing since then can have changed it. -/
def Checked (ctx : Context) (v : Value) : List Stmt → Prop
  | [] => False
  | s :: earlier => s.checks = some v ∨ s.Keeps ctx v ∧ Checked ctx v earlier

instance Checked.decidable (ctx : Context) (v : Value) : DecidablePred (Checked ctx v)
  | [] => inferInstanceAs (Decidable False)
  | s :: earlier =>
    have := Checked.decidable ctx v earlier
    inferInstanceAs (Decidable (s.checks = some v ∨ s.Keeps ctx v ∧ Checked ctx v earlier))

theorem Checked.append {ctx : Context} {v : Value} {between earlier : List Stmt}
    (hbetween : ∀ s ∈ between, s.Keeps ctx v) (h : Checked ctx v earlier) :
    Checked ctx v (between ++ earlier) := by
  induction between with
  | nil => exact h
  | cons s between ih =>
      obtain ⟨hs, hbetween⟩ := List.forall_mem_cons.1 hbetween
      exact .inr ⟨hs, ih hbetween⟩

end Midend.Flow

namespace Midend.Linear

open Midend.Flow (Checked Label Path Stmt Value)
open NameSupply (IsGenerated numbered)
open Build Code

/-! ## What is guarded -/

/-- Some statements, the latest first, have allocated an object and stored into it since. -/
def Allocated (x : String) (done : List Stmt) : Prop :=
  ∃ stores size bitmap earlier, done = stores ++ .assign x (.alloc size bitmap) :: earlier ∧
    ∀ s ∈ stores, ∃ offset content, s = .store (.id x) offset content

/-- The statement fills in the object that has just been allocated, or calls its constructor. -/
inductive Initializes (done : List Stmt) : Stmt → Value → Prop
  | store {n offset : Nat} {content : Value} (h : Allocated (numbered "newObj" n) done) :
      Initializes done (.store (.id (numbered "newObj" n)) offset content)
        (.id (numbered "newObj" n))
  | init {n : Nat} (className : String) (h : Allocated (numbered "newObj" n) done) :
      Initializes done (.expr (.call (methodName className initName) [.id (numbered "newObj" n)]))
        (.id (numbered "newObj" n))

/-- Why a statement may work on an object, behind the statements done so far. -/
inductive Guarded (ctx : Context) (nodes : List Tree.Node) (done : List Stmt) (s : Stmt)
    (v : Value) : Prop
  | initializes (h : Initializes done s v)
  /-- The check stands right in front of the statement. -/
  | adjacent {check : Stmt} {earlier : List Stmt} (hdone : done = check :: earlier)
      (hcheck : check.checks = some v)
  /-- The statement makes a call of the program.  Between the check of the receiver and the call
  the arguments are evaluated and nothing else.  If they leave the receiver alone, it is still
  known not to be `none`. -/
  | call {node : Tree.Node} {receiver : Tree.Expr} {args : List Tree.Expr} {vs : List Value}
      {between earlier : List Stmt} {check : Stmt} (hnode : node ∈ nodes)
      (hcall : node.receiver? = some (receiver, args)) (hperforms : Performs s node (v :: vs))
      (hdone : done = between ++ check :: earlier) (hcheck : check.checks = some v)
      (hbetween : ∃ t t' code, Operands args t code vs t' ∧ ∀ s ∈ between, .emit s ∈ code)
      (hsteady : Steady ctx receiver (Tree.Expr.nodesOf args) → Checked ctx v done)

/-! ## Guarded code -/

/-- The code of a body, with what its runs may assume and the nodes that it comes from. -/
structure Surroundings where
  label : Label
  whole : Code
  ctx : Context
  nodes : List Tree.Node

/-- On every way to a statement behind some code the object that it works on is guarded. -/
def Surroundings.Secure (body : Surroundings) (place : Code) (s : Stmt) : Prop :=
  ∀ done v, Way body.whole done place → s.dereferences = some v →
    Guarded body.ctx body.nodes done s v

/-- Wherever the code stands in the body, all that works on objects in it is guarded, and so is an
operation that it leaves. -/
structure Guards (body : Surroundings) (outer : List Label) (code : Code) (result : Result) :
    Prop where
  resolves : Resolves outer code
  inside : ∀ {front back}, Stands body.label body.whole outer front code back →
    Everywhere body.Secure front code
  behind : ∀ {front back r use}, Stands body.label body.whole outer front code back →
    result = .operation r → use.operation? = some r → body.Secure (front ++ code) use

section Guards

variable {body : Surroundings} {outer outer' : List Label} {code rest front back : Code}
  {result result' : Result} {r : Flow.Expr} {s stmt : Stmt} {v : Value} {name : String}

theorem secure_of_none (h : s.dereferences = none) : body.Secure front s := by
  intro done v _ hv
  rw [h] at hv
  exact nomatch hv

theorem secure_behind_check {check : Stmt} (hcheck : check.checks = some v)
    (hs : ∀ w, s.dereferences = some w → w = v) : body.Secure (front ++ [.emit check]) s := by
  intro done w hway hw
  obtain rfl := hs w hw
  obtain ⟨earlier, rfl, -⟩ := hway.of_emit
  exact .adjacent rfl hcheck

theorem resolves_of_operation (h : s.operation? = some r) : Resolves outer [.emit s] :=
  resolves_inner (by cases s <;> first | rfl | exact nomatch h)

theorem dereferences_of_isCheck {check : String} {args : List Value}
    (h : (Stmt.expr (.call check args)).isCheck = true) :
    (Stmt.expr (.call check args)).dereferences = none := if_pos h

theorem dereferences_call {name : String} {args : List Value} :
    ∀ w, (Flow.Expr.call name (v :: args)).dereferences = some w → w = v := by
  intro w hw
  have hw : (if (Stmt.expr (.call name (v :: args))).isCheck then none else some v) = some w := hw
  split at hw
  · exact nomatch hw
  · exact (Option.some.inj hw).symm

/-- While an object is filled in, everything that works on it does so right behind its
allocation. -/
theorem everywhere_filling {n : Nat} {stores : Code} (className : String)
    (hstores : ∀ item ∈ stores, ∃ offset content,
      item = .emit (.store (.id (numbered "newObj" n)) offset content))
    (hfront : ∀ done, Way body.whole done front → Allocated (numbered "newObj" n) done) :
    Everywhere body.Secure front (stores ++
      [.emit (.expr (.call (methodName className initName) [.id (numbered "newObj" n)]))]) := by
  induction stores generalizing front with
  | nil =>
      refine ⟨fun done v hway hv => ?_, trivial⟩
      obtain rfl := dereferences_call v hv
      exact .initializes (.init className (hfront done hway))
  | cons item stores ih =>
      obtain ⟨⟨offset, content, rfl⟩, hrest⟩ := List.forall_mem_cons.1 hstores
      refine ⟨fun done v hway hv => ?_, ih hrest fun done hway => ?_⟩
      · obtain rfl := Option.some.inj hv
        exact .initializes (.store (hfront done hway))
      · obtain ⟨earlier, rfl, hearlier⟩ := hway.of_emit
        obtain ⟨stores, size, bitmap, before, rfl, hbehind⟩ := hfront earlier hearlier
        exact ⟨_ :: stores, size, bitmap, before, rfl,
          List.forall_mem_cons.2 ⟨⟨offset, content, rfl⟩, hbehind⟩⟩

namespace Guards

theorem mono (h : Guards body outer code result) (houter : outer ⊆ outer') :
    Guards body outer' code result where
  resolves := h.resolves.mono houter
  inside hstands := h.inside { hstands with outer := List.Subset.trans houter hstands.outer }
  behind hstands := h.behind { hstands with outer := List.Subset.trans houter hstands.outer }

theorem weaken (h : Guards body [] code result) : Guards body outer code result :=
  h.mono (List.nil_subset _)

theorem operation (h : Guards body outer code result) (hr : r.dereferences = none) :
    Guards body outer code (.operation r) where
  resolves := h.resolves
  inside := h.inside
  behind _ hresult huse := by
    obtain rfl := Result.operation.inj hresult
    exact secure_of_none ((Flow.Stmt.dereferences_of_operation huse).trans hr)

theorem values (h : Guards body outer code result) (vs : List Value) :
    Guards body outer code (.values vs) where
  resolves := h.resolves
  inside := h.inside
  behind _ hresult := nomatch hresult

theorem nil (outer : List Label) : Guards body outer [] .nothing where
  resolves := .nil outer
  inside _ := trivial
  behind _ hresult := nomatch hresult

theorem stay (outer : List Label) (hends : stmt.endsBlock = false)
    (hnone : stmt.dereferences = none) : Guards body outer [.emit stmt] .nothing where
  resolves := resolves_inner (by simp [isInner, hends])
  inside _ := ⟨secure_of_none hnone, trivial⟩
  behind _ hresult := nomatch hresult

theorem check (outer : List Label) (v : Value) (loc : Location) {name : String}
    (hcheck : (Stmt.expr (.call name [v, .word loc.row, .word loc.col])).isCheck = true) :
    Guards body outer [Code.guard name v loc] .nothing :=
  .stay outer rfl (dereferences_of_isCheck hcheck)

theorem leave {next : Label} (htargets : stmt.targets ⊆ next :: outer)
    (hnone : stmt.dereferences = none) :
    Guards body outer [.emit stmt, .mark next] .nothing where
  resolves target htarget := by
    have htarget : target ∈ stmt.targets := by simpa [targets] using htarget
    simpa using htargets htarget
  inside _ := ⟨secure_of_none hnone, trivial⟩
  behind _ hresult := nomatch hresult

theorem append (h : Guards body outer code result) (h' : Guards body outer rest result') :
    Guards body outer (code ++ rest) result' where
  resolves := h.resolves.append h'.resolves
  inside hstands := by
    rw [everywhere_append]
    exact ⟨h.inside (hstands.left h'.resolves), h'.inside (hstands.right h.resolves)⟩
  behind hstands hresult huse := by
    rw [← List.append_assoc]
    exact h'.behind (hstands.right h.resolves) hresult huse

theorem declare (name : String) (ty : Ty) (h : Guards body outer code result) :
    Guards body outer (code ++ [.declare name ty]) result where
  resolves := h.resolves.append (resolves_inner rfl)
  inside hstands := by
    rw [everywhere_append]
    exact ⟨h.inside (hstands.left (resolves_inner rfl)), trivial⟩
  behind hstands hresult huse done v hway hv := by
    rw [← List.append_assoc] at hway
    exact h.behind (hstands.left (resolves_inner rfl)) hresult huse done v hway.of_declare hv

theorem performed {use : Stmt} (h : Guards body outer code (.operation r))
    (huse : use.operation? = some r) : Guards body outer (code ++ [.emit use]) .nothing where
  resolves := h.resolves.append (resolves_of_operation huse)
  inside hstands := by
    have hstands := hstands.left (resolves_of_operation huse)
    rw [everywhere_append]
    exact ⟨h.inside hstands, h.behind hstands rfl huse, trivial⟩
  behind _ hresult := nomatch hresult

theorem kept (name : String) (ty : Ty) (h : Guards body outer code (.operation r)) :
    Guards body outer (code ++ temporary name ty r) .nothing := by
  have hkept : Guards body outer (code ++ [.declare name ty] ++ [.emit (.assign name r)])
      .nothing := (h.declare name ty).performed rfl
  simpa [temporary] using hkept

theorem checked (loc : Location) (h : Guards body outer code result)
    (hr : ∀ w, r.dereferences = some w → w = v) :
    Guards body outer (code ++ [Code.guardObject v loc]) (.operation r) where
  resolves := h.resolves.append (resolves_inner rfl)
  inside hstands := by
    rw [everywhere_append]
    exact ⟨h.inside (hstands.left (resolves_inner rfl)), secure_of_none rfl, trivial⟩
  behind _ hresult huse := by
    obtain rfl := Result.operation.inj hresult
    rw [← List.append_assoc]
    refine secure_behind_check rfl ?_
    rwa [Flow.Stmt.dereferences_of_operation huse]

theorem store (outer : List Label) (loc : Location) (offset : Nat) (content : Value) :
    Guards body outer [Code.guardObject v loc, .emit (.store v offset content)] .nothing where
  resolves := resolves_inner rfl
  inside _ := ⟨secure_of_none rfl,
    secure_behind_check rfl fun _ hw => (Option.some.inj hw).symm, trivial⟩
  behind _ hresult := nomatch hresult

theorem choice {test yes no : Code} {onTrue onFalse after : Label} {r₁ r₂ r₃ : Result}
    (htest : Guards body [] test r₁) (hyes : Guards body outer yes r₂)
    (hno : Guards body outer no r₃) :
    Guards body outer (Linear.choice test v onTrue onFalse after yes no) .nothing where
  resolves := htest.resolves.choice hyes.resolves hno.resolves
  inside hstands := by
    obtain ⟨_, htest_at⟩ := hstands.inTest hyes.resolves hno.resolves
    obtain ⟨_, hyes_at⟩ := hstands.inYes htest.resolves hno.resolves
    obtain ⟨_, hno_at⟩ := hstands.inNo htest.resolves hyes.resolves
    have hyes_inside := hyes.inside hyes_at
    have hno_inside := hno.inside hno_at
    simp only [Linear.choice, everywhere_append, everywhere_emit, everywhere_mark, everywhere_nil,
      List.append_assoc, List.cons_append, List.nil_append, and_true] at hyes_inside hno_inside ⊢
    exact ⟨htest.inside htest_at, secure_of_none rfl, hyes_inside, secure_of_none rfl, hno_inside,
      secure_of_none rfl⟩
  behind _ hresult := nomatch hresult

theorem round {check turn : Code} {again onTrue after : Label} {r₁ r₂ : Result}
    (hcheck : Guards body [] check r₁) (hturn : Guards body [again, after] turn r₂) :
    Guards body outer (Linear.round again onTrue after check v turn) .nothing where
  resolves := hcheck.resolves.round hturn.resolves
  inside hstands := by
    obtain ⟨_, hcheck_at⟩ := hstands.inCheck hturn.resolves
    obtain ⟨_, hturn_at⟩ := hstands.inBody hcheck.resolves
    have hcheck_inside := hcheck.inside hcheck_at
    have hturn_inside := hturn.inside hturn_at
    simp only [Linear.round, everywhere_append, everywhere_emit, everywhere_mark, everywhere_nil,
      List.append_assoc, List.cons_append, List.nil_append, and_true]
      at hcheck_inside hturn_inside ⊢
    exact ⟨secure_of_none rfl, hcheck_inside, secure_of_none rfl, hturn_inside,
      secure_of_none rfl⟩
  behind _ hresult := nomatch hresult

theorem iterate (outer : List Label) (again onTrue after : Label) (more elem className : String)
    (loc : Location) (hturn : Guards body [again, after] code result) :
    Guards body outer (Linear.round again onTrue after
      (Code.guardObject v loc :: temporary more .bool (callOn v className "hasNext")) (.id more)
      (Code.guardObject v loc :: .emit (.assign elem (callOn v className "next")) :: code))
      .nothing := by
  have hcheck : ∀ outer method, Guards body outer [Code.guardObject v loc]
      (.operation (callOn v className method)) := fun outer method =>
    (Guards.nil outer).checked loc dereferences_call
  have hnext : Guards body [again, after]
      [Code.guardObject v loc, .emit (.assign elem (callOn v className "next"))] .nothing :=
    (hcheck _ "next").performed rfl
  exact ((hcheck [] "hasNext").kept more .bool).round (hnext.append hturn)

theorem call {node : Tree.Node} {receiver : Tree.Expr} {args : List Tree.Expr} {s₀ s₁ s' : State}
    {c₁ c₂ : Code} {k₁ k₂ : List Flow.Class} {vs : List Value} {r₁ r₂ : Result} (loc : Location)
    (hlocal : ∀ x ∈ body.whole.declared, body.ctx.isLocal x = true) (hnode : node ∈ body.nodes)
    (hcall : node.receiver? = some (receiver, args))
    (hown : Flattens (.value receiver) s₀ c₁ k₁ (.values [v]) s₁)
    (hargs : Flattens (.values args) s₁ c₂ k₂ (.values vs) s')
    (hnodup : (declared (c₁ ++ c₂)).Nodup)
    (hperforms : ∀ use, use.operation? = some r → Performs use node (v :: vs))
    (hr : ∀ w, r.dereferences = some w → w = v)
    (h₁ : Guards body [] c₁ r₁) (h₂ : Guards body [] c₂ r₂) :
    Guards body [] (c₁ ++ Code.guardObject v loc :: c₂) (.operation r) := by
  have hchecked := (h₁.checked (r := r) loc hr).append h₂
  rw [List.append_assoc, List.singleton_append] at hchecked
  refine ⟨hchecked.resolves, hchecked.inside, fun {front back r' use} hstands hresult huse => ?_⟩
  obtain rfl := Result.operation.inj hresult
  intro done w hway hw
  obtain rfl := hr w (Flow.Stmt.dereferences_of_operation huse ▸ hw)
  have hargs_at : Stands body.label body.whole [] (front ++ (c₁ ++ [Code.guardObject w loc])) c₂
      back := by
    refine Stands.right ?_ (h₁.resolves.append (resolves_inner rfl))
    simpa using hstands
  obtain ⟨between, done', rfl, hbetween, hway'⟩ :=
    hargs_at.through (List.append_nil c₂).symm hway (by simp)
  rw [← List.append_assoc] at hway'
  obtain ⟨earlier, rfl, -⟩ := hway'.of_emit
  refine .call hnode hcall (hperforms use huse) rfl rfl ⟨_, _, _, .of_flattens hargs, hbetween⟩
    fun hsteady => .append (fun t ht x hx => ?_) (.inl rfl)
  have hgenerated : ∀ y ∈ declared (c₁ ++ c₂), IsGenerated y := by
    rw [declared_append]
    exact List.forall_mem_append.2 ⟨hown.generated, hargs.generated⟩
  have hown_local : ∀ y ∈ c₁.declared, body.ctx.isLocal y = true := fun y hy =>
    hlocal y (by simp [hstands.code_eq, hy])
  obtain ⟨hwritten, hdeclared, hcalls⟩ :=
    hsteady.untouched hown hgenerated hnodup hown_local hx
  exact (Operands.of_flattens hargs).spares hwritten hdeclared hcalls t (hbetween t ht)

theorem object (outer : List Label) {className name : String} (ty : Ty) (slot : Nat)
    (bitmap : UInt32) (layout : Layout) {s s' : State} (hname : Builds (fresh "newObj") s name s') :
    Guards body outer (objectCode className ty slot bitmap layout name) .nothing where
  resolves := resolves_inner (by simp [objectCode, isInner, Flow.Stmt.endsBlock])
  inside {front _} _ := by
    obtain rfl := NameSupply.fresh_eq (builds_fresh hname).1
    refine ⟨secure_of_none rfl, ?_⟩
    change Everywhere _ _ (_ :: _ ++ _)
    refine everywhere_filling className (List.forall_mem_cons.2 ⟨⟨_, _, rfl⟩, ?_⟩) ?_
    · intro item hitem
      obtain ⟨entry, -, rfl⟩ := List.mem_map.1 hitem
      exact ⟨_, _, rfl⟩
    · intro done hway
      obtain ⟨earlier, rfl, -⟩ := hway.of_emit
      exact ⟨[], _, _, earlier, rfl, fun _ hs => absurd hs List.not_mem_nil⟩
  behind _ hresult := nomatch hresult

end Guards

end Guards

/-- By induction on how the part is flattened. -/
theorem Flattens.guards {part : Part} {s s' : State} {code : Code} {classes : List Flow.Class}
    {result : Result} (h : Flattens part s code classes result s') {body : Surroundings}
    (hlocal : ∀ x ∈ body.whole.declared, body.ctx.isLocal x = true)
    (hnodes : ∀ node ∈ part.nodes, node.operands ≠ [] → node ∈ body.nodes) :
    Guards body part.outer code result := by
  have hmaking : ∀ {className : String} {ty : Ty}, ∀ node ∈ (Part.object className ty).nodes,
      node.operands ≠ [] → node ∈ body.nodes := fun node hnode hoperands => by
    obtain rfl := List.mem_singleton.1 hnode
    exact absurd rfl hoperands
  induction h with
  | literal n value s | id n name s => exact (Guards.nil []).operation rfl
  | @binary n op left right s s₁ s' c₁ c₂ k₁ k₂ l r _ _ ihleft ihright =>
      simp only [Part.nodes, Tree.Expr.nodes, List.forall_mem_cons, List.forall_mem_append]
        at hnodes
      have hcheck : Guards body []
          (if op = .idiv ∨ op = .mod then [Code.guardDivisor r n.loc] else []) .nothing := by
        split
        · exact .check [] r n.loc rfl
        · exact .nil []
      exact (((ihleft hnodes.2.1).append (ihright hnodes.2.2)).append hcheck).operation rfl
  | unary n op _ ih | builtin1 n name _ ih =>
      exact (ih (List.forall_mem_cons.1 hnodes).2).operation rfl
  | builtin2 n name _ _ ihleft ihright =>
      simp only [Part.nodes, Tree.Expr.nodes, List.forall_mem_cons, List.forall_mem_append]
        at hnodes
      exact ((ihleft hnodes.2.1).append (ihright hnodes.2.2)).operation rfl
  | @call n callee args s s₁ s' c₁ c₂ k₁ k₂ f vs hcallee hargs ihcallee ihargs =>
      have hnodup := (Flattens.call n hcallee hargs).shaped.nodup_declared
      simp only [Part.nodes, Tree.Expr.nodes, List.forall_mem_cons, List.forall_mem_append]
        at hnodes
      exact .call n.loc hlocal (hnodes.1 (List.cons_ne_nil _ _)) rfl hcallee hargs
        (by simpa using hnodup) (fun use huse => .call n callee args huse)
        (fun w hw => (Option.some.inj hw).symm) (ihcallee hnodes.2.1) (ihargs hnodes.2.2)
  | lookup n _ _ _ ih =>
      exact (ih (List.forall_mem_cons.1 hnodes).2).checked n.loc
        fun w hw => (Option.some.inj hw).symm
  | @methodCall n obj method className args s s₁ s' c₁ c₂ k₁ k₂ v vs hclass hobj hargs ihobj
      ihargs =>
      have hflattens : Flattens (.expr (.methodCall n obj method args)) _ _ _ _ _ :=
        .methodCall n hclass hobj hargs
      have hnodup := hflattens.shaped.nodup_declared
      simp only [Part.nodes, Tree.Expr.nodes, List.forall_mem_cons, List.forall_mem_append]
        at hnodes
      exact .call n.loc hlocal (hnodes.1 (List.cons_ne_nil _ _)) rfl hobj hargs
        (by simpa using hnodup) (fun use huse => .methodCall n args hclass huse)
        dereferences_call (ihobj hnodes.2.1) (ihargs hnodes.2.2)
  | construct n _ ih => exact (ih hmaking).operation rfl
  | @listComp n elem item iterable cond className more test turn after s s₁ s₂ s₃ s₄ s₅ s₆ s' c₁
      c₂ c₃ k₁ k₂ k₃ v i _ _ _ _ _ _ _ _ ihiterable ihfilter ihitem =>
      simp only [Part.nodes, Tree.Expr.nodes, List.forall_mem_cons, List.forall_mem_append]
        at hnodes
      obtain ⟨-, hnodes₁, hnodes₂, hnodes₃⟩ := hnodes
      have hfilter : Guards body [test, after] c₂ .nothing :=
        (ihfilter hnodes₂).mono (by simp [Part.outer])
      have hprint : Guards body [test, after] [.emit (.expr (.builtin1 "print" i))] .nothing :=
        .stay _ rfl rfl
      exact ((ihiterable hnodes₁).append (.iterate [] test turn after more elem className n.loc
        (hfilter.append ((ihitem hnodes₃).weaken.append hprint)))).operation rfl
  | ifExpr n _ _ _ _ _ _ _ ihcond ihtrue ihfalse =>
      simp only [Part.nodes, Tree.Expr.nodes, List.forall_mem_cons, List.forall_mem_append]
        at hnodes
      obtain ⟨-, hnodes₁, hnodes₂, hnodes₃⟩ := hnodes
      exact (((Guards.nil []).declare _ n.ty).append ((ihcond hnodes₁).choice
        ((ihtrue hnodes₂).performed rfl) ((ihfalse hnodes₃).performed rfl))).operation rfl
  | lambda n _ _ _ _ _ _ ihmake => exact (ihmake hmaking).operation rfl
  | settled _ ih => exact (ih hnodes).values _
  | temporary _ _ _ ih => exact ((ih hnodes).kept _ _).values _
  | noValues s => exact (Guards.nil []).values _
  | moreValues _ _ ihe ihes =>
      simp only [Part.nodes, Tree.Expr.nodesOf, List.forall_mem_append] at hnodes
      exact ((ihe hnodes.1).append (ihes hnodes.2)).values _
  | object _ _ _ hname => exact (Guards.object [] _ _ _ _ hname).values _
  | noFilter test s => exact .nil _
  | filter _ _ ih =>
      refine (ih hnodes).weaken.append (.leave (fun target htarget => ?_) rfl)
      rcases mem_targets_branch htarget with rfl | rfl <;> simp [Part.outer]
  | assign loop loc name _ ih =>
      exact (ih (List.forall_mem_cons.1 hnodes).2).weaken.performed rfl
  | ret loop loc _ _ ih =>
      exact (ih (List.forall_mem_cons.1 hnodes).2).weaken.append (.leave (List.nil_subset _) rfl)
  | exprStmt loop loc _ ih => exact (ih (List.forall_mem_cons.1 hnodes).2).weaken.performed rfl
  | pass loop loc s | strayContinue loc s | strayBreak loc s => exact .nil _
  | continueLoop labels loc _ | breakLoop labels loc _ =>
      exact .leave (by simp [Flow.Stmt.targets, Part.outer, LoopLabels.outer]) rfl
  | fieldAssign loop loc _ _ _ _ ihobj ihcontent =>
      simp only [Part.nodes, Tree.Stmt.nodes, List.forall_mem_cons, List.forall_mem_append]
        at hnodes
      exact ((ihobj hnodes.2.1).append (ihcontent hnodes.2.2)).weaken.append (.store _ loc _ _)
  | ifElse loop loc _ _ _ _ _ _ ihcond ihtrue ihfalse =>
      simp only [Part.nodes, Tree.Stmt.nodes, List.forall_mem_cons, List.forall_mem_append]
        at hnodes
      exact (ihcond hnodes.2.1).choice (ihtrue hnodes.2.2.1) (ihfalse hnodes.2.2.2)
  | whileLoop loop loc _ _ _ _ _ ihcond ihsources =>
      simp only [Part.nodes, Tree.Stmt.nodes, List.forall_mem_cons, List.forall_mem_append]
        at hnodes
      exact (ihcond hnodes.2.1).round (ihsources hnodes.2.2)
  | @forLoop loop loc elem iterable sources className more test turn after s s₁ s₂ s₃ s₄ s₅ s' c₁
      c₂ k₁ k₂ v _ _ _ _ _ _ _ ihiterable ihsources =>
      simp only [Part.nodes, Tree.Stmt.nodes, List.forall_mem_cons, List.forall_mem_append]
        at hnodes
      have hreset : Guards body (LoopLabels.outer loop)
          [Code.guardObject v iterable.loc, .emit (.expr (callOn v className "reset"))] .nothing :=
        ((Guards.nil _).checked iterable.loc dereferences_call).performed rfl
      exact (ihiterable hnodes.2.1).weaken.append (hreset.append
        (.iterate _ test turn after more elem className iterable.loc (ihsources hnodes.2.2)))
  | noStmts loop s => exact .nil _
  | moreStmts _ _ ihsource ihsources =>
      simp only [Part.nodes, Tree.Stmt.nodesOf, List.forall_mem_append] at hnodes
      exact (ihsource hnodes.1).append (ihsources hnodes.2)
  | noClosures s => exact .nil _
  | moreClosures closure _ _ _ _ _ _ => exact .nil _
  | noFunctions enclosing s => exact .nil _
  | moreFunctions _ _ _ _ _ _ ihconstruction ihfs =>
      simp only [Part.nodes, List.map_cons, Tree.Stmt.nodesOf, List.forall_mem_append] at hnodes
      exact (ihconstruction hnodes.1).append (ihfs hnodes.2)

/-! ## Bodies -/

section Bodies

variable {sc : Scope} {code : Code} {k : List Flow.Class} {label : Label} {m : Flow.Method}
  {flow : Flow.Program} {s s' : State}

theorem BodyCode.guards (h : BodyCode sc s code k s') {body : Surroundings}
    (hlocal : ∀ x ∈ body.whole.declared, body.ctx.isLocal x = true)
    (hnodes : sc.nodes ⊆ body.nodes) : Guards body [] code .nothing := by
  cases h with
  | plain h => exact h.guards hlocal fun node hnode _ => hnodes hnode
  | prologue hstart hprologue hbody =>
      rw [Scope.nodes_of_start hstart, List.append_subset] at hnodes
      exact (hprologue.guards hlocal fun node hnode _ => hnodes.1 hnode).append
        (hbody.guards hlocal fun node hnode _ => hnodes.2 hnode)

theorem Guards.of_path {body : Surroundings} {result : Result}
    (h : Guards body [] body.whole result) (hnodup : (body.label :: body.whole.marks).Nodup)
    {done : List Stmt} {b : Flow.Block} {i : Nat} {s : Stmt} {v : Value}
    (hpath : Path (body.whole.blocks body.label) done b.label i)
    (hb : b ∈ body.whole.blocks body.label) (hs : b.stmts[i]? = some s)
    (hv : s.dereferences = some v) : Guarded body.ctx body.nodes done s v := by
  obtain ⟨front, rest, hcode, hway, hspot⟩ := way_of_path hnodup h.resolves hpath
  obtain ⟨front', rest', hcode', hway', -⟩ := hway.at_statement hnodup hcode hspot hb hs
  exact (h.inside (.whole hnodup)).at hcode' done v hway' hv

theorem Implements.guarded (h : Implements sc s flow.classes s' m) (hholds : Holds flow sc.kind m)
    (hlabels : flow.checkLabels = .ok ()) {done : List Stmt} {b : Flow.Block} {i : Nat}
    {stmt : Stmt} {v : Value} (hpath : Path m.body done b.label i) (hb : b ∈ m.body)
    (hs : b.stmts[i]? = some stmt) (hv : stmt.dereferences = some v) :
    Guarded (Optimization.methodContext m) sc.nodes done stmt v := by
  obtain @⟨label, s₁, s₁', code, k, hcode, -, -, -, hbody, hdecls, -⟩ := h
  have hlocal : ∀ x ∈ code.declared, (Optimization.methodContext m).isLocal x = true :=
    fun x hx => isLocal_methodContext (by simp [decls_names hdecls, hx])
  let body : Surroundings := ⟨label, code, Optimization.methodContext m, sc.nodes⟩
  have hguards : Guards body [] code .nothing := hcode.guards hlocal (List.Subset.refl _)
  rw [hbody] at hpath hb
  exact hguards.of_path (hholds.nodup hlabels hbody) hpath hb hs hv

/-- On every path to a statement that works on an object the object is checked before, or has just
been made.  The check stands right in front of the statement, or only the arguments of a call stand
between them.  Then the object is still known not to be `none` at the call, unless an argument
assigns the variable that the receiver names, or makes a call that may change it. -/
theorem flatten_guards {catalog catalog' : Catalog} {p : Tree.Program}
    (hflow : flatten catalog p = (.ok flow, catalog')) (hm : m ∈ flow.methods) {done : List Stmt}
    {b : Flow.Block} {i : Nat} {stmt : Stmt} {v : Value} (hpath : Path m.body done b.label i)
    (hb : b ∈ m.body) (hs : b.stmts[i]? = some stmt) (hv : stmt.dereferences = some v) :
    ∃ sc, ScopeOf p sc ∧ IsBody flow sc m ∧
      Guarded (Optimization.methodContext m) sc.nodes done stmt v := by
  obtain ⟨hlabels, -⟩ := flatten_eq_ok hflow
  obtain ⟨_, _, s, s', -, -, hlowers, -⟩ := flatten_lowers hflow
  rcases hlowers.scopes m hm with ⟨-, label, hempty⟩ | ⟨sc, hsc, hholds, himplements⟩
  · rw [hempty] at hb
    obtain rfl := List.mem_singleton.1 hb
    exact nomatch hs
  · exact ⟨sc, hsc, ⟨hholds, s, s', himplements⟩,
      himplements.guarded hholds hlabels hpath hb hs hv⟩

end Bodies

/-! ## A receiver that an argument sets to `none` -/

def cellType : Ty := .object "Cell"

def putMethod : Tree.Function :=
  ⟨"put", [⟨"self", cellType⟩, ⟨"n", .int⟩], .int, [],
    [.ret ⟨1, 1, 0⟩ (.id ⟨.int, ⟨1, 1, 0⟩⟩ "n")], [], ⟨1, 1, 0⟩⟩

def emptyFunction : Tree.Function :=
  ⟨"empty", [], .int, [], [.assign ⟨1, 1, 0⟩ "cell" (.literal ⟨.none, ⟨1, 1, 0⟩⟩ .none),
    .ret ⟨1, 1, 0⟩ (.literal ⟨.int, ⟨1, 1, 0⟩⟩ (.num 0))], [], ⟨1, 1, 0⟩⟩

def runFunction (name : String) : Tree.Function :=
  ⟨"run", [⟨"c", cellType⟩], .int, [], [.ret ⟨1, 1, 0⟩ (.methodCall ⟨.int, ⟨1, 1, 0⟩⟩
    (.id ⟨cellType, ⟨1, 1, 0⟩⟩ name) "put"
    [.call ⟨.int, ⟨1, 1, 0⟩⟩ (.id ⟨.callable [] .int, ⟨1, 1, 0⟩⟩ "empty") []])], [], ⟨1, 1, 0⟩⟩

/-- A program with these functions, the global variable `cell` and the class `Cell`. -/
def putting (name : String) : Tree.Program :=
  ⟨[emptyFunction, runFunction name], [⟨"cell", cellType, .none⟩], [⟨"Cell", [], [putMethod]⟩], []⟩

def putCall (name : String) : Stmt :=
  .assign "valname2" (.call "Cell$put" [.id name, .id "valname1"])

/-- The parameter of `run` is still known not to be `none` where its method is called. -/
theorem flatten_guards_put : ∃ m ∈ (blocksOf .empty (putting "c")).methods, ∃ b ∈ m.body,
    b.stmts[7]? = some (putCall "c") ∧ ∃ sc, ScopeOf (putting "c") sc ∧
      IsBody (blocksOf .empty (putting "c")) sc m ∧
      Guarded (Optimization.methodContext m) sc.nodes (b.stmts.take 7).reverse (putCall "c")
        (.id "c") := by
  have hok : (flatten .empty (putting "c")).1.toOption.isSome = true := by decide +kernel
  obtain ⟨m, hm, b, hb, hhead, hlength, hends, hs⟩ :
      ∃ m ∈ (blocksOf .empty (putting "c")).methods, ∃ b ∈ m.body, m.body.head? = some b ∧
        7 ≤ b.stmts.length ∧ (∀ s ∈ b.stmts.take 7, s.endsBlock = false) ∧
        b.stmts[7]? = some (putCall "c") := by decide +kernel
  exact ⟨m, hm, b, hb, hs, flatten_guards (flatten_eq_blocksOf hok) hm
    (.in_block hhead hlength hends) hb hs rfl⟩

/-- The global variable `cell` is checked before `empty` is called, and `empty` sets it to
`none`. -/
theorem flatten_guards_overtaken : (flatten .empty (putting "cell")).1.toOption.isSome = true ∧
    ∃ m ∈ (blocksOf .empty (putting "cell")).methods, ∃ b ∈ m.body,
      Path m.body (b.stmts.take 7).reverse b.label 7 ∧ b.stmts[7]? = some (putCall "cell") ∧
      (putCall "cell").dereferences = some (.id "cell") ∧
      ¬ Initializes (b.stmts.take 7).reverse (putCall "cell") (.id "cell") ∧
      ¬ Checked (Optimization.methodContext m) (.id "cell") (b.stmts.take 7).reverse := by
  refine ⟨by decide +kernel, ?_⟩
  obtain ⟨m, hm, b, hb, hhead, hlength, hends, hs, hchecked⟩ :
      ∃ m ∈ (blocksOf .empty (putting "cell")).methods, ∃ b ∈ m.body, m.body.head? = some b ∧
        7 ≤ b.stmts.length ∧ (∀ s ∈ b.stmts.take 7, s.endsBlock = false) ∧
        b.stmts[7]? = some (putCall "cell") ∧
        ¬ Checked (Optimization.methodContext m) (.id "cell") (b.stmts.take 7).reverse := by
    decide +kernel
  exact ⟨m, hm, b, hb, .in_block hhead hlength hends, hs, rfl, nofun, hchecked⟩

end Midend.Linear
