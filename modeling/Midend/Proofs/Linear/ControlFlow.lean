import Midend.Proofs.Flow.Graph
import Midend.Proofs.Linear.Faults
import Midend.Proofs.Linear.Meaning
import Midend.Proofs.Linear.Programs
/-!
# Flattened control flow is well formed

Code is sealed when the statements that end a block and the labels that start one come in pairs.
Whatever is flattened is sealed, its jumps stay in it, and its labels and those of all bodies that
turn up on the way are drawn from one supply (`Flattens.shaped`).  So the labels of a flattened
program need no check (`flatten_wellFormed`).
-/

namespace Midend.Flow

def labels (body : List Block) : List Label := body.map (·.label)

/-- Control leaves every block but the last at its end, and no block before its end. -/
structure Chained (body : List Block) : Prop where
  ends_last : ∀ b ∈ body, ∀ s ∈ b.stmts.dropLast, s.endsBlock = false
  closed : ∀ b ∈ body.dropLast, b.isClosed = true
  last_open : ∃ b ∈ body.getLast?, b.isClosed = false

/-- The blocks of a body hang together: every statement that goes on somewhere else goes on to a
block of the body. -/
structure WellShaped (body : List Block) : Prop extends Chained body where
  resolved : ∀ b ∈ body, ∀ s ∈ b.stmts, ∀ target ∈ s.targets, target ∈ labels body

/-- All blocks of a program have different labels, and every body is well shaped. -/
structure Program.WellFormed (p : Program) : Prop where
  distinct : (p.bodies.flatMap fun entry => labels entry.2).Nodup
  shaped : ∀ entry ∈ p.bodies, WellShaped entry.2

def Class.bodies (c : Class) : List (List Block) := c.methods.map (·.body)

def classLabels (classes : List Class) : List Label :=
  (classes.flatMap Class.bodies).flatMap labels

@[simp] theorem classLabels_nil : classLabels [] = [] := rfl

@[simp] theorem classLabels_append (classes classes' : List Class) :
    classLabels (classes ++ classes') = classLabels classes ++ classLabels classes' := by
  simp [classLabels]

@[simp] theorem classLabels_cons (c : Class) (classes : List Class) :
    classLabels (c :: classes) = c.bodies.flatMap labels ++ classLabels classes := by
  simp [classLabels]

namespace Chained

variable {stmts : List Stmt} {label : Label} {body : List Block} {last : Stmt}

theorem single (h : ∀ s ∈ stmts, s.endsBlock = false) : Chained [⟨label, stmts⟩] where
  ends_last b hb s hs := by
    obtain rfl := List.mem_singleton.1 hb
    exact h s (List.dropLast_subset _ hs)
  closed := fun _ hb => absurd hb List.not_mem_nil
  last_open := by
    refine ⟨⟨label, stmts⟩, rfl, ?_⟩
    unfold Block.isClosed
    cases hlast : stmts.getLast? with
    | none => rfl
    | some s => exact h s (List.mem_of_getLast? hlast)

/-- A block that control leaves by its last statement, and blocks after it. -/
theorem cons (h : ∀ s ∈ stmts, s.endsBlock = false) (hlast : last.endsBlock = true)
    (hbody : Chained body) : Chained (⟨label, stmts ++ [last]⟩ :: body) := by
  have hne : body ≠ [] := by
    rintro rfl
    obtain ⟨b, hb, -⟩ := hbody.last_open
    exact nomatch hb
  refine ⟨fun b hb s hs => ?_, fun b hb => ?_, ?_⟩
  · rcases List.mem_cons.1 hb with rfl | hb
    · exact h s (by simpa using hs)
    · exact hbody.ends_last b hb s hs
  · rw [List.dropLast_cons_of_ne_nil hne] at hb
    rcases List.mem_cons.1 hb with rfl | hb
    · unfold Block.isClosed
      rw [List.getLast?_concat]
      exact hlast
    · exact hbody.closed b hb
  · rw [List.getLast?_cons_of_ne_nil hne]
    exact hbody.last_open

end Chained

theorem Program.map_bodies (p : Program) :
    p.bodies.map (·.2) = p.body :: p.classes.flatMap Class.bodies := by
  unfold bodies
  rw [List.map_cons, List.map_map, List.map_flatMap]
  rfl

theorem Program.WellFormed.checkLabels {p : Program} (h : p.WellFormed) :
    p.checkLabels = .ok () := by
  refine (forM_checkLabels_eq_ok_iff p.bodies).2 fun entry hentry => ⟨?_, ?_⟩
  · exact (List.nodup_flatMap.1 h.distinct).1 entry hentry
  · intro b hb target htarget
    unfold Block.successors at htarget
    cases hlast : b.stmts.getLast? with
    | none =>
        rw [hlast] at htarget
        exact absurd htarget List.not_mem_nil
    | some s =>
        rw [hlast] at htarget
        exact (h.shaped entry hentry).resolved b hb s (List.mem_of_getLast? hlast) target htarget

end Midend.Flow

namespace Midend.Linear

open Midend.Flow (Label Value WellShaped classLabels)
open NameSupply (Draws Unnumbered)
open Build Code

/-! ## Sealed code -/

/-- Every statement that ends a block stands right before a label, and every label right behind
such a statement. -/
inductive Sealed : Code → Prop
  | nil : Sealed []
  | declare (name : String) (ty : Ty) {rest : Code} (hrest : Sealed rest) :
      Sealed (.declare name ty :: rest)
  | emit {s : Flow.Stmt} {rest : Code} (hs : s.endsBlock = false) (hrest : Sealed rest) :
      Sealed (.emit s :: rest)
  | leave {s : Flow.Stmt} {label : Label} {rest : Code} (hs : s.endsBlock = true)
      (hrest : Sealed rest) : Sealed (.emit s :: .mark label :: rest)

def isInner : Item → Bool
  | .emit s => !s.endsBlock
  | .mark _ => false
  | .declare _ _ => true

namespace Sealed

variable {code rest test yes no check body : Code} {v : Value} {onTrue onFalse after again : Label}

theorem append (h : Sealed code) (hrest : Sealed rest) : Sealed (code ++ rest) := by
  induction h with
  | nil => exact hrest
  | declare name ty _ ih => exact .declare name ty ih
  | emit hs _ ih => exact .emit hs ih
  | leave hs _ ih => exact .leave hs ih

theorem inner (h : code.all isInner = true) : Sealed code := by
  induction code with
  | nil => exact .nil
  | cons item rest ih =>
      rw [List.all_cons, Bool.and_eq_true] at h
      cases item with
      | emit s => exact .emit (by simpa [isInner] using h.1) (ih h.2)
      | mark label => exact nomatch h.1
      | declare name ty => exact .declare name ty (ih h.2)

theorem choice (htest : Sealed test) (hyes : Sealed yes) (hno : Sealed no) :
    Sealed (choice test v onTrue onFalse after yes no) :=
  htest.append (.leave rfl (hyes.append (.leave rfl (hno.append (.leave rfl .nil)))))

theorem round (hcheck : Sealed check) (hbody : Sealed body) :
    Sealed (round again onTrue after check v body) :=
  .leave rfl (hcheck.append (.leave rfl (hbody.append (.leave rfl .nil))))

/-- The blocks of sealed code, with some statements of the first block done already. -/
theorem chained_cut (h : Sealed code) (label : Label) {done : List Flow.Stmt}
    (hdone : ∀ s ∈ done, s.endsBlock = false) :
    Flow.Chained (⟨label, done ++ (cut code).1⟩ :: (cut code).2) := by
  induction h generalizing label done with
  | nil => exact .single (by simpa [cut] using hdone)
  | declare name ty _ ih => exact ih label hdone
  | emit hs _ ih =>
      have hnext := ih label (List.forall_mem_append.2 ⟨hdone, List.forall_mem_singleton.2 hs⟩)
      rw [List.append_assoc] at hnext
      exact hnext
  | leave hs _ ih => exact .cons hdone hs (ih _ (List.forall_mem_nil _))

theorem wellShaped (h : Sealed code) (hresolves : Resolves [] code) (label : Label) :
    WellShaped (code.blocks label) where
  toChained := h.chained_cut label (List.forall_mem_nil _)
  resolved b hb s hs target htarget := by
    have hmem : target ∈ code.targets := by
      have hblocks : target ∈ (code.blocks label).flatMap fun b =>
          b.stmts.flatMap Flow.Stmt.targets :=
        List.mem_flatMap.2 ⟨b, hb, List.mem_flatMap.2 ⟨s, hs, htarget⟩⟩
      rw [← targets_cut]
      exact hblocks
    unfold Flow.labels
    rw [labels_blocks]
    exact List.mem_cons_of_mem _ ((hresolves target hmem).resolve_right List.not_mem_nil)

end Sealed

theorem marks_of_inner {code : Code} (h : code.all isInner = true) : code.marks = [] := by
  induction code with
  | nil => rfl
  | cons item rest ih =>
      rw [List.all_cons, Bool.and_eq_true] at h
      cases item with
      | mark label => exact nomatch h.1
      | _ => exact ih h.2

theorem targets_of_inner {code : Code} (h : code.all isInner = true) : code.targets = [] := by
  induction code with
  | nil => rfl
  | cons item rest ih =>
      rw [List.all_cons, Bool.and_eq_true] at h
      cases item with
      | emit s =>
          cases s with
          | ret _ => exact nomatch h.1
          | branch _ _ _ => exact nomatch h.1
          | jump _ => exact nomatch h.1
          | _ => exact ih h.2
      | mark label => exact nomatch h.1
      | declare name ty => exact ih h.2

theorem resolves_inner {outer : List Label} {code : Code} (h : code.all isInner = true) :
    Resolves outer code := Resolves.plain (targets_of_inner h)

/-! ## Names that are drawn -/

theorem drawn {base name : String} {s s' : State} (h : Builds (fresh base) s name s')
    (hbase : Unnumbered base) : Draws s.names s'.names [name] :=
  Draws.fresh (builds_fresh h).1 hbase

theorem drawn_three {base₁ base₂ base₃ name₁ name₂ name₃ : String} {s s₁ s₂ s' : State}
    (h₁ : Builds (fresh base₁) s name₁ s₁) (h₂ : Builds (fresh base₂) s₁ name₂ s₂)
    (h₃ : Builds (fresh base₃) s₂ name₃ s')
    (hbases : ∀ base ∈ [base₁, base₂, base₃], Unnumbered base) :
    Draws s.names s'.names [name₁, name₂, name₃] :=
  Draws.three (builds_fresh h₁).1 (builds_fresh h₂).1 (builds_fresh h₃).1 hbases

/-! ## The shape of code -/

def Code.declared (code : Code) : List String := code.temporaries.map (·.name)

section Declared

variable {code rest test yes no check body : Code} {v : Value} {label onTrue onFalse after : Label}

@[simp] theorem declared_nil : declared [] = [] := rfl

@[simp] theorem declared_emit (s : Flow.Stmt) (rest : Code) :
    declared (.emit s :: rest) = declared rest := rfl

@[simp] theorem declared_mark (label : Label) (rest : Code) :
    declared (.mark label :: rest) = declared rest := rfl

@[simp] theorem declared_declare (name : String) (ty : Ty) (rest : Code) :
    declared (.declare name ty :: rest) = name :: declared rest := rfl

@[simp] theorem declared_append (code rest : Code) :
    declared (code ++ rest) = declared code ++ declared rest := by
  simp [declared, temporaries]

@[simp] theorem declared_choice : declared (choice test v onTrue onFalse after yes no) =
    declared test ++ (declared yes ++ declared no) := by
  simp [choice]

@[simp] theorem declared_round : declared (round label onTrue after check v body) =
    declared check ++ declared body := by
  simp [round]

@[simp] theorem declared_guardObject (v : Value) (loc : Location) (rest : Code) :
    declared (Code.guardObject v loc :: rest) = declared rest := rfl

theorem declared_stores (layout : Layout) (store : String × Field → Flow.Stmt) :
    declared (layout.map fun entry => Item.emit (store entry)) = [] := by
  induction layout with
  | nil => rfl
  | cons entry layout ih => exact ih

@[simp] theorem declared_objectCode (className : String) (ty : Ty) (slot : Nat) (bitmap : UInt32)
    (layout : Layout) (name : String) :
    declared (objectCode className ty slot bitmap layout name) = [name] := by
  simp [objectCode, declared_stores]

@[simp] theorem declared_temporary (name : String) (ty : Ty) (r : Flow.Expr) :
    declared (temporary name ty r) = [name] := rfl

end Declared

/-- What holds of every piece of code and of the classes that turn up on the way: all labels and
temporaries are drawn, the code is sealed and its jumps stay in it or go to labels outside that are
known, and the bodies of the classes are well shaped. -/
structure Shaped (outer : List Label) (s s' : NameSupply) (code : Code)
    (classes : List Flow.Class) : Prop where
  draws : Draws s s' (code.marks ++ (code.declared ++ classLabels classes))
  resolves : Resolves outer code
  isSealed : Sealed code
  bodies : ∀ body ∈ classes.flatMap Flow.Class.bodies, WellShaped body

namespace Shaped

variable {outer : List Label} {s s₁ s₂ s₃ s₄ s' : NameSupply} {code code' test yes no : Code}
  {check body before : Code} {classes classes' k₀ k₁ k₂ k₃ : List Flow.Class} {v : Value}
  {onTrue onFalse after again : Label}

theorem nodup_declared (h : Shaped outer s s' code classes) : code.declared.Nodup :=
  (List.nodup_append.1 (List.nodup_append.1 h.draws.nodup).2.1).1

theorem inner (outer : List Label) (code : Code) (hnames : Draws s s' code.declared)
    (h : code.all isInner = true) : Shaped outer s s' code [] where
  draws := by
    rw [marks_of_inner h]
    simpa using hnames
  resolves := resolves_inner h
  isSealed := .inner h
  bodies := List.forall_mem_nil _

theorem nil (outer : List Label) (s : NameSupply) : Shaped outer s s [] [] :=
  inner outer [] (Draws.nil s) rfl

theorem append (h : Shaped outer s s₁ code classes) (h' : Shaped outer s₁ s' code' classes') :
    Shaped outer s s' (code ++ code') (classes ++ classes') where
  draws := by
    refine (h.draws.append h'.draws).perm ?_
    rw [List.perm_iff_count]
    intro label
    simp only [marks_append, declared_append, Flow.classLabels_append, List.count_append]
    omega
  resolves := h.resolves.append h'.resolves
  isSealed := h.isSealed.append h'.isSealed
  bodies := by
    rw [List.flatMap_append]
    exact List.forall_mem_append.2 ⟨h.bodies, h'.bodies⟩

theorem behind (h : Shaped outer s s₁ code classes) (hnames : Draws s₁ s' code'.declared)
    (hinner : code'.all isInner = true) : Shaped outer s s' (code ++ code') classes := by
  simpa using h.append (inner outer code' hnames hinner)

theorem followedBy (h : Shaped outer s s' code classes) (hdeclared : code'.declared = [])
    (hinner : code'.all isInner = true) : Shaped outer s s' (code ++ code') classes :=
  h.behind (hdeclared ▸ Draws.nil s') hinner

theorem precededBy (code : Code) (hdeclared : code.declared = [])
    (hinner : code.all isInner = true) (h : Shaped outer s s' code' classes) :
    Shaped outer s s' (code ++ code') classes :=
  (inner outer code (hdeclared ▸ Draws.nil s) hinner).append h

theorem mono (h : Shaped outer s s' code classes) {outer' : List Label} (hsub : outer ⊆ outer') :
    Shaped outer' s s' code classes :=
  { h with resolves := h.resolves.mono hsub }

theorem weaken (h : Shaped [] s s' code classes) : Shaped outer s s' code classes :=
  h.mono (List.nil_subset _)

/-- Names may be drawn before the code that are no labels. -/
theorem later (h : Shaped outer s₁ s' code classes)
    (hle : ∀ base, s.next base ≤ s₁.next base) : Shaped outer s s' code classes :=
  { h with draws := ((Draws.nil s).weaken hle).append h.draws }

/-- A statement that leaves its block. -/
theorem leave {next : Label} {stmt : Flow.Stmt} {t t' : State}
    (hnext : Builds (fresh "$unreachable") t next t') (hends : stmt.endsBlock = true)
    (htargets : stmt.targets ⊆ outer) :
    Shaped outer t.names t'.names [.emit stmt, .mark next] [] where
  draws := drawn hnext (by decide +kernel)
  resolves target htarget := .inr (htargets (by simpa [targets] using htarget))
  isSealed := .leave hends .nil
  bodies := List.forall_mem_nil _

/-- Two ways behind some code; the labels of the ways are drawn first. -/
theorem choice (hnames : Draws s s₁ [onTrue, onFalse, after])
    (hbefore : Shaped outer s₁ s₂ before k₀) (htest : Shaped [] s₂ s₃ test k₁)
    (hyes : Shaped outer s₃ s₄ yes k₂) (hno : Shaped outer s₄ s' no k₃) :
    Shaped outer s s' (before ++ choice test v onTrue onFalse after yes no)
      (k₀ ++ (k₁ ++ (k₂ ++ k₃))) where
  draws := by
    refine (hnames.append (hbefore.draws.append (htest.draws.append
      (hyes.draws.append hno.draws)))).perm ?_
    rw [List.perm_iff_count]
    intro label
    simp only [marks_append, marks_choice, declared_append, declared_choice,
      Flow.classLabels_append, List.count_append, List.count_cons, List.count_nil]
    omega
  resolves := hbefore.resolves.append (htest.resolves.choice hyes.resolves hno.resolves)
  isSealed := hbefore.isSealed.append (htest.isSealed.choice hyes.isSealed hno.isSealed)
  bodies := by
    simp only [List.flatMap_append, List.forall_mem_append]
    exact ⟨hbefore.bodies, htest.bodies, hyes.bodies, hno.bodies⟩

/-- A loop behind some code that runs once; the labels of the loop are drawn first. -/
theorem round (v : Value) (hnames : Draws s s₁ [again, onTrue, after])
    (hbefore : Shaped outer s₁ s₂ before k₁) (hcheck : Shaped [] s₂ s₃ check k₂)
    (hbody : Shaped [again, after] s₃ s' body k₃) :
    Shaped outer s s' (before ++ round again onTrue after check v body) (k₁ ++ (k₂ ++ k₃)) where
  draws := by
    refine (hnames.append (hbefore.draws.append (hcheck.draws.append hbody.draws))).perm ?_
    rw [List.perm_iff_count]
    intro label
    simp only [marks_append, marks_round, declared_append, declared_round,
      Flow.classLabels_append, List.count_append, List.count_cons, List.count_nil]
    omega
  resolves := hbefore.resolves.append (hcheck.resolves.round hbody.resolves)
  isSealed := hbefore.isSealed.append (hcheck.isSealed.round hbody.isSealed)
  bodies := by
    simp only [List.flatMap_append, List.forall_mem_append]
    exact ⟨hbefore.bodies, hcheck.bodies, hbody.bodies⟩

theorem method {label : Label} (hlabel : Draws s s₁ [label])
    (hcode : Shaped [] s₁ s' code classes) {c : Flow.Class} {m : Flow.Method}
    (hmethods : c.methods = [m]) (hbody : m.body = code.blocks label) :
    Shaped [] s s' [] (c :: classes) where
  draws := by
    have hdraws : Draws s s' (code.declared ++ classLabels (c :: classes)) := by
      refine (hlabel.append hcode.draws).perm ?_
      rw [List.perm_iff_count]
      intro l
      simp only [Flow.classLabels_cons, Flow.Class.bodies, hmethods, hbody, List.map_cons,
        List.map_nil, List.flatMap_cons, List.flatMap_nil, Flow.labels, labels_blocks,
        List.count_append, List.count_cons, List.count_nil]
      omega
    -- the temporaries of the code are of no interest outside its body
    exact hdraws.sublist (List.sublist_append_right _ _)
  resolves := Resolves.plain rfl
  isSealed := .nil
  bodies := by
    rw [List.flatMap_cons]
    refine List.forall_mem_append.2 ⟨?_, hcode.bodies⟩
    unfold Flow.Class.bodies
    rw [hmethods, List.map_cons, List.map_nil, hbody]
    exact List.forall_mem_singleton.2 (hcode.isSealed.wellShaped hcode.resolves label)

/-- Only the bodies of classes count, in any order. -/
theorem regroup (h : Shaped outer s s' code classes) {classes' : List Flow.Class}
    (hperm : (classes.flatMap Flow.Class.bodies).Perm (classes'.flatMap Flow.Class.bodies)) :
    Shaped outer s s' code classes' :=
  { h with
    draws := h.draws.perm (((hperm.flatMap_right _).append_left _).append_left _)
    bodies := fun body hbody => h.bodies body (hperm.mem_iff.2 hbody) }

end Shaped

def Part.outer : Part → List Label
  | .filter test _ => [test]
  | .stmt loop _ | .stmts loop _ => LoopLabels.outer loop
  | _ => []

theorem Shaped.closure {s s₁ s₂ s' : State} {initLabel applyLabel : Label} {code : Code}
    {classes : List Flow.Class} (c : Closure) (hinit : Builds (fresh "$startFun") s initLabel s₁)
    (happly : Builds (fresh "$startFun") s₁ applyLabel s₂)
    (hcode : Shaped [] s₂.names s'.names code classes) :
    Shaped [] s.names s'.names [] (c.classOf initLabel applyLabel code :: classes) := by
  have hbase : Unnumbered "$startFun" := by decide +kernel
  have happly := Shaped.method (drawn happly hbase) hcode
    (c := ⟨c.name, [], [⟨methodName c.name applyName, c.params, c.ret,
      code.temporaries ++ c.decls.map decl, code.blocks applyLabel⟩]⟩) rfl rfl
  have hconstructor := Shaped.method (drawn hinit hbase) (Shaped.nil [] s₁.names)
    (c := ⟨c.name, [], [⟨methodName c.name initName, [⟨selfName, .object c.name⟩], .none, [],
      Code.blocks initLabel []⟩]⟩) rfl rfl
  exact (hconstructor.append happly).regroup (List.Perm.refl _)

/-- A test behind which control goes on in a new block, or to a label outside. -/
theorem Shaped.gate {s s₁ s' : State} {test add : Label} {code : Code} {v : Value}
    {classes : List Flow.Class} (hadd : Builds (fresh "$compadd") s add s₁)
    (hcode : Shaped [] s₁.names s'.names code classes) :
    Shaped [test] s.names s'.names (code ++ [.emit (.branch v add test), .mark add]) classes where
  draws := by
    refine ((drawn hadd (by decide +kernel)).append hcode.draws).perm ?_
    rw [List.perm_iff_count]
    intro label
    simp only [marks_append, marks_emit, marks_mark, marks_nil, declared_append, declared_emit,
      declared_mark, declared_nil, List.count_append, List.count_cons, List.count_nil]
    omega
  resolves := (hcode.resolves.mono (List.nil_subset _)).append (.gate v add test)
  isSealed := hcode.isSealed.append (.leave rfl .nil)
  bodies := hcode.bodies

theorem Shaped.hasNext (v : Value) (className : String) (loc : Location) {more : String}
    {s s' : State} (hmore : Builds (fresh "valname") s more s') :
    Shaped [] s.names s'.names (Code.guardObject v loc ::
      temporary more .bool (callOn v className "hasNext")) [] :=
  .inner _ _ (drawn hmore (by decide +kernel)) rfl

/-- By induction on how the part is flattened. -/
theorem Flattens.shaped {part : Part} {s s' : State} {code : Code} {classes : List Flow.Class}
    {result : Result} (h : Flattens part s code classes result s') :
    Shaped part.outer s.names s'.names code classes := by
  induction h with
  | literal n value s | id n name s => exact Shaped.nil _ s.names
  | binary n op _ _ ihleft ihright =>
      exact (ihleft.append ihright).followedBy (by split <;> rfl) (by split <;> rfl)
  | unary n op _ ih | builtin1 n name _ ih => exact ih
  | builtin2 n name _ _ ihleft ihright => exact ihleft.append ihright
  | call n _ _ ihcallee ihargs =>
      exact ihcallee.append (ihargs.precededBy [Code.guardObject _ n.loc] rfl rfl)
  | lookup n _ _ _ ih => exact ih.followedBy rfl rfl
  | methodCall n _ _ _ ihobj ihargs =>
      exact ihobj.append (ihargs.precededBy [Code.guardObject _ n.loc] rfl rfl)
  | construct n _ ih => exact ih
  | @listComp n elem item iterable cond className more test body after s s₁ s₂ s₃ s₄ s₅ s₆ s' c₁
      c₂ c₃ k₁ k₂ k₃ v i htest hbody hafter _ _ hmore _ _ ihiterable ihfilter ihitem =>
      have hfilter : Shaped [test, after] s₅.names s₆.names c₂ k₂ :=
        ihfilter.mono (by simp [Part.outer])
      have hturn : Shaped [test, after] s₅.names s'.names
          (c₂ ++ (c₃ ++ [.emit (.expr (.builtin1 "print" i))])) (k₂ ++ k₃) :=
        hfilter.append (ihitem.weaken.followedBy rfl rfl)
      have hround := Shaped.round (.id more) (drawn_three htest hbody hafter (by decide +kernel))
        ihiterable
        (Shaped.hasNext v className n.loc hmore) (hturn.precededBy [Code.guardObject v n.loc,
          .emit (.assign elem (callOn v className "next"))] rfl rfl)
      exact hround
  | ifExpr n hthen helse hafter htmp _ _ _ ihcond ihtrue ihfalse =>
      exact Shaped.choice (drawn_three hthen helse hafter (by decide +kernel))
        (Shaped.inner _ [.declare _ n.ty] (drawn htmp (by decide +kernel)) rfl) ihcond
        (ihtrue.followedBy rfl rfl) (ihfalse.followedBy rfl rfl)
  | @lambda n params body ps ret name s s₁ s₂ s₃ s' c k v _ hname henter _ _ ihclosure ihmake =>
      have hle : ∀ base, s.names.next base ≤ s₂.names.next base := by
        intro base
        have hnames : s₂.names = s₁.names := by rw [builds_enter henter]
        rw [hnames]
        exact (drawn hname (by decide +kernel)).le base
      have hmade := (ihclosure.append ihmake).later hle
      rw [List.append_nil] at hmade
      exact hmade
  | settled _ ih => exact ih
  | temporary _ _ hname ih => exact ih.behind (drawn hname (by decide +kernel)) rfl
  | noValues s => exact Shaped.nil _ s.names
  | moreValues _ _ ihe ihes => exact ihe.append ihes
  | object _ _ _ hname =>
      refine Shaped.inner _ _ ?_ (by simp [objectCode, isInner, Flow.Stmt.endsBlock])
      rw [declared_objectCode]
      exact drawn hname (by decide +kernel)
  | noFilter test s => exact Shaped.nil _ s.names
  | @filter test add cond s s₁ s' c k v hadd _ ih => exact Shaped.gate hadd ih
  | assign loop loc name _ ih => exact ih.weaken.followedBy rfl rfl
  | ret loop loc _ hnext ih =>
      simpa using ih.weaken.append (Shaped.leave hnext rfl (List.nil_subset _))
  | exprStmt loop loc _ ih => exact ih.weaken.followedBy rfl rfl
  | pass loop loc s | strayContinue loc s | strayBreak loc s => exact Shaped.nil _ s.names
  | continueLoop labels loc hnext | breakLoop labels loc hnext =>
      exact Shaped.leave hnext rfl (by simp [Flow.Stmt.targets, Part.outer, LoopLabels.outer])
  | fieldAssign loop loc _ _ _ _ ihobj ihcontent =>
      exact (ihobj.append ihcontent).weaken.followedBy rfl rfl
  | ifElse loop loc hthen helse hafter _ _ _ ihcond ihtrue ihfalse =>
      exact Shaped.choice (drawn_three hthen helse hafter (by decide +kernel)) (Shaped.nil _ _)
        ihcond ihtrue ihfalse
  | whileLoop loop loc htest hbody hafter _ _ ihcond ihsources =>
      exact Shaped.round _ (drawn_three htest hbody hafter (by decide +kernel))
        (Shaped.nil _ _) ihcond ihsources
  | @forLoop loop loc elem iterable sources className more test body after s s₁ s₂ s₃ s₄ s₅ s' c₁
      c₂ k₁ k₂ v htest hbody hafter _ _ hmore _ ihiterable ihsources =>
      have hbefore : Shaped (LoopLabels.outer loop) s₃.names s₄.names
          (c₁ ++ [Code.guardObject v iterable.loc,
            .emit (.expr (callOn v className "reset"))]) k₁ :=
        ihiterable.weaken.followedBy rfl rfl
      have hround := Shaped.round (.id more) (drawn_three htest hbody hafter (by decide +kernel))
        hbefore
        (Shaped.hasNext v className iterable.loc hmore)
        (ihsources.precededBy [Code.guardObject v iterable.loc,
          .emit (.assign elem (callOn v className "next"))] rfl rfl)
      rw [List.append_assoc] at hround
      exact hround
  | noStmts loop s => exact Shaped.nil _ s.names
  | moreStmts _ _ ihsource ihsources => exact ihsource.append ihsources
  | noClosures s => exact Shaped.nil _ s.names
  | moreClosures closure hinit happly _ _ ihbody ihcs =>
      exact ((Shaped.closure closure hinit happly ihbody).append ihcs).regroup
        (List.perm_middle.symm.flatMap_right _)
  | noFunctions enclosing s => exact Shaped.nil _ s.names
  | moreFunctions hpaths henter _ _ _ ihclosures ihconstruction ihfs =>
      obtain ⟨_, rfl⟩ := builds_recordPaths hpaths
      obtain ⟨_, rfl⟩ := builds_enterClosures henter
      exact ihclosures.append (ihconstruction.append ihfs)

/-! ## Whole programs -/

theorem FlattensClosure.shaped {c : Closure} {s s' : State} {y : Flow.Class}
    {k : List Flow.Class} (h : FlattensClosure c s y k s') :
    Shaped [] s.names s'.names [] (y :: k) := by
  obtain ⟨hinit, happly, hbody⟩ := h
  exact Shaped.closure c hinit happly hbody.shaped

theorem FlattensMethod.shaped {className : String} {f : Tree.Function} {s s' : State}
    {m : Flow.Method} {k : List Flow.Class} (h : FlattensMethod className f s m k s')
    (name : String) (fields : List Flow.Decl) :
    Shaped [] s.names s'.names [] (⟨name, fields, [m]⟩ :: k) := by
  obtain ⟨hlabel, hprologue, hbody⟩ := h
  exact Shaped.method (drawn hlabel (by decide +kernel)) (hprologue.shaped.append hbody.shaped)
    rfl rfl

theorem shaped_methods {className name : String} {fields : List Flow.Decl} {s s' : State}
    {fs : List Tree.Function} {ms : List Flow.Method} {k : List Flow.Class}
    (h : Each (FlattensMethod className) fs s ms k s') :
    Shaped [] s.names s'.names [] (⟨name, fields, ms⟩ :: k) := by
  induction h with
  | nil s => exact (Shaped.nil [] s.names).regroup (List.Perm.refl _)
  | cons hfirst _ ih =>
      refine ((hfirst.shaped name fields).append ih).regroup ?_
      simpa [Flow.Class.bodies] using List.perm_append_comm_assoc _ _ _

theorem FlattensClass.shaped {c : Tree.Class} {s s' : State} {y : Flow.Class}
    {k : List Flow.Class} (h : FlattensClass c s y k s') :
    Shaped [] s.names s'.names [] (y :: k) := by
  obtain ⟨hmethods⟩ := h
  exact shaped_methods hmethods

theorem Each.shaped {α : Type} {R : α → State → Flow.Class → List Flow.Class → State → Prop}
    (hR : ∀ {x s y k s'}, R x s y k s' → Shaped [] s.names s'.names [] (y :: k)) {xs : List α}
    {ys k : List Flow.Class} {s s' : State} (h : Each R xs s ys k s') :
    Shaped [] s.names s'.names [] (ys ++ k) := by
  induction h with
  | nil s => exact Shaped.nil [] s.names
  | cons hfirst _ ih =>
      refine ((hR hfirst).append ih).regroup (List.Perm.flatMap_right _ ?_)
      exact (List.perm_append_comm_assoc _ _ _).cons _

theorem Shaped.wellFormed {s s' : NameSupply} {p : Flow.Program} {main : Flow.Class}
    (h : Shaped [] s s' [] (main :: p.classes)) (hmain : main.bodies = [p.body]) :
    p.WellFormed where
  distinct := by
    have hnodup := h.draws.nodup
    rw [Flow.classLabels_cons, hmain] at hnodup
    rw [← List.flatMap_map, p.map_bodies]
    simpa [classLabels] using hnodup
  shaped entry hentry := by
    have hmem := List.mem_map_of_mem (f := (·.2)) hentry
    rw [p.map_bodies] at hmem
    refine h.bodies entry.2 ?_
    rw [List.flatMap_cons, hmain]
    exact hmem

theorem FlattensProgram.wellFormed {p : Tree.Program} {s s' : State} {flow : Flow.Program}
    (h : FlattensProgram p s flow s') (hs : s.generated = []) : flow.WellFormed := by
  obtain @⟨label, _, s₁, s₂, s₃, s₄, s', functions, classes, code, k₁, k₂, k₃, hlabel, henter,
    hfunctions, hclasses, hbody⟩ := h
  obtain ⟨_, rfl⟩ := builds_enterAll henter
  have hfunctions_kept := hfunctions.generated_eq FlattensClosure.generated_eq
  have hclasses_kept := hclasses.generated_eq FlattensClass.generated_eq
  have hkept : s'.generated = k₁ ++ k₂ ++ k₃ := by
    rw [hbody.generated_eq, hclasses_kept, hfunctions_kept, (builds_fresh hlabel).2.2, hs]
    rfl
  -- the top level is shaped like the only method of a class in front of all others
  let main : Flow.Class := ⟨"", [], [⟨"", [], .none, [], code.blocks label⟩]⟩
  have hcode := (hfunctions.shaped FlattensClosure.shaped).append
    ((hclasses.shaped FlattensClass.shaped).append hbody.shaped)
  have hmain := Shaped.method (c := main) (drawn hlabel (by decide +kernel)) hcode rfl rfl
  refine Shaped.wellFormed (hmain.regroup ((List.Perm.cons main ?_).flatMap_right _)) rfl
  rw [hkept]
  simp only [List.append_assoc]
  exact (List.perm_append_comm_assoc k₁ classes (k₂ ++ k₃)).append_left functions

/-- Flattening makes well-formed programs of whatever it does not refuse, so its check of labels
changes nothing. -/
theorem flatten_wellFormed (catalog : Catalog) (p : Tree.Program) :
    (match (flatten catalog p).1 with
      | .ok flow => flow.WellFormed
      | .error fault => fault.code ∈ flatteningCodes) ∧
    (flatten catalog p).1 = (runOn (program p) ⟨catalog, .empty, []⟩).1 := by
  rw [flatten_eq]
  cases hrun : runOn (program p) ⟨catalog, .empty, []⟩ with
  | mk ended s' =>
      cases ended with
      | error fault => exact ⟨(orderly_program p).code _ _ _ hrun, rfl⟩
      | ok flow =>
          have hflow := (flattens_program hrun).wellFormed rfl
          have hok : (Except.ok flow >>= fun flow => flow.checkLabels >>= fun _ => pure flow) =
              (Except.ok flow : Except Fault Flow.Program) := by
            dsimp only [bind, Except.bind]
            rw [hflow.checkLabels]
            rfl
          refine ⟨?_, hok⟩
          dsimp only
          rw [hok]
          exact hflow

end Midend.Linear
