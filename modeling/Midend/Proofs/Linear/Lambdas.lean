import Midend.Proofs.Linear.Bodies
/-!
# Classes of lambdas

A lambda becomes a class with a name that is drawn when its code is built.  No two classes of a
program have it unless a class is declared with it (`FlattensProgram.occurrences_le`).  If it is
new, the class gets an entry of its own in the dispatch table (`flattens_lambda`).
-/

namespace Midend.Linear

open Midend.Flow (Label Value)
open NameSupply (numbered)
open Build Code

/-! ## How often a class is there -/

def occurrences (name : String) (classes : List Flow.Class) : Nat :=
  classes.countP fun cls => cls.name = name

@[simp] theorem occurrences_nil (name : String) : occurrences name [] = 0 := rfl

@[simp] theorem occurrences_append (name : String) (classes classes' : List Flow.Class) :
    occurrences name (classes ++ classes') =
      occurrences name classes + occurrences name classes' := List.countP_append

@[simp] theorem occurrences_cons (name : String) (cls : Flow.Class) (classes : List Flow.Class) :
    occurrences name (cls :: classes) =
      occurrences name classes + if cls.name = name then 1 else 0 := by
  simp [occurrences, List.countP_cons]

theorem occurrences_eq_zero {name : String} {classes : List Flow.Class}
    (h : ∀ cls ∈ classes, cls.name ≠ name) : occurrences name classes = 0 :=
  List.countP_eq_zero.2 fun cls hcls => by simpa using h cls hcls

def lambdasOf (n : Nat) (cs : List Closure) : Nat :=
  cs.countP fun c => c.name = numbered "lambda" n

theorem lambdasOf_eq_zero {n : Nat} {cs : List Closure} (h : ∀ c ∈ cs, IsClosureName c.name) :
    lambdasOf n cs = 0 :=
  List.countP_eq_zero.2 fun c hc => by simpa using (h c hc).ne_numbered "lambda" n

/-- Between two states classes turn up: those of some closures, and each lambda once. -/
structure Apart (s : State) (cs : List Closure) (classes : List Flow.Class) (s' : State) :
    Prop where
  grows : Grows s s'
  once : ∀ n, occurrences (numbered "lambda" n) classes ≤ lambdasOf n cs +
    if s.names.next "lambda" ≤ n ∧ n < s'.names.next "lambda" then 1 else 0

namespace Apart

variable {s s₁ s' : State} {cs cs' : List Closure} {k k' : List Flow.Class}

theorem nil (h : Grows s s') : Apart s [] [] s' := ⟨h, fun _ => Nat.zero_le _⟩

theorem append (h : Apart s cs k s₁) (h' : Apart s₁ cs' k' s') :
    Apart s (cs ++ cs') (k ++ k') s' := by
  refine ⟨h.grows.trans h'.grows, fun n => ?_⟩
  have hfirst := h.once n
  have hsecond := h'.once n
  have hlow := h.grows.names "lambda"
  have hhigh := h'.grows.names "lambda"
  rw [occurrences_append, lambdasOf, List.countP_append, ← lambdasOf, ← lambdasOf]
  split_ifs at hfirst hsecond ⊢ <;> omega

theorem trans (h : Apart s [] k s₁) (h' : Apart s₁ [] k' s') : Apart s [] (k ++ k') s' :=
  h.append h'

theorem ofFunctions (hcs : ∀ c ∈ cs, IsClosureName c.name) (h : Apart s cs k s') :
    Apart s [] k s' := by
  refine ⟨h.grows, fun n => ?_⟩
  have honce := h.once n
  rwa [lambdasOf_eq_zero hcs] at honce

theorem closure {c : Closure} {cls : Flow.Class} (hclosure : FlattensClosure c s cls k s')
    (h : Apart s [] k s') :
    Apart s [c] (k ++ [cls]) { s' with generated := s'.generated ++ [cls] } := by
  refine ⟨h.grows.trans (grows_keep cls), fun n => ?_⟩
  have honce := h.once n
  have hsame : occurrences (numbered "lambda" n) [cls] = lambdasOf n [c] := by
    obtain ⟨-, -, -⟩ := hclosure
    simp [lambdasOf, Closure.classOf, List.countP_cons]
  have hnone : lambdasOf n [] = 0 := rfl
  rw [occurrences_append, hsame]
  dsimp only
  omega

theorem lambda {name : String} {params : List Parameter} {c : Closure} {s₂ : State}
    (hname : Builds (fresh "lambda") s name s₁)
    (henter : Builds (enterClosure name params) s₁ () s₂)
    (hc : c.name = name) (h : Apart s₂ [c] k s') : Apart s [] k s' := by
  refine ⟨(grows_enterLambda hname henter).trans h.grows, fun n => ?_⟩
  have honce := h.once n
  have hnames := (builds_fresh hname).1
  have hnext : s₂.names.next "lambda" = s.names.next "lambda" + 1 := by
    rw [builds_enter henter]
    exact (NameSupply.next_fresh hnames "lambda").trans (by rw [if_pos rfl])
  have hcount : lambdasOf n [c] = if s.names.next "lambda" = n then 1 else 0 := by
    have hbase : NameSupply.Unnumbered "lambda" := by decide +kernel
    simp only [lambdasOf, List.countP_cons, List.countP_nil, hc, NameSupply.fresh_eq hnames,
      decide_eq_true_eq, Nat.zero_add]
    refine if_congr ⟨fun h => (NameSupply.numbered_inj hbase hbase h).2, ?_⟩ rfl rfl
    rintro rfl
    rfl
  have hhigh := h.grows.names "lambda"
  have hnone : lambdasOf n [] = 0 := rfl
  rw [hcount] at honce
  split_ifs at honce ⊢ <;> omega

end Apart

/-- Classes turn up for pending closures and for lambdas, each once. -/
theorem tracks_apart : Tracks Apart where
  refl s := .nil (.refl s)
  append := Apart.append
  fresh h := .nil (grows_fresh h)
  closure hclosure h := h.closure hclosure
  lambda hname henter hc h := h.lambda hname henter hc
  functions hpaths henter h := by
    have hentered := (grows_recordPaths hpaths).trans
      (grows_enterClosures (isClosureName_ofFunction _ _) henter)
    exact (Apart.nil hentered).append (h.ofFunctions (isClosureName_ofFunction _ _))

/-- Where no declared class has the name of a lambda, no two classes have it. -/
theorem FlattensProgram.occurrences_le {p : Tree.Program} {flow : Flow.Program} {s s' : State}
    (h : FlattensProgram p s flow s') (hs : s.generated = []) {n : Nat}
    (hdeclared : ∀ c ∈ p.classes, c.name ≠ numbered "lambda" n) :
    occurrences (numbered "lambda" n) flow.classes ≤ 1 := by
  obtain @⟨label, _, s₁, s₂, s₃, s₄, s', functions, classes, code, k₁, k₂, k₃, hlabel, henter,
    hfunctions, hclasses, hbody⟩ := h
  have hkept : s'.generated = k₁ ++ (k₂ ++ k₃) := by
    obtain ⟨_, rfl⟩ := builds_enterAll henter
    rw [hbody.generated_eq, hclasses.generated_eq FlattensClass.generated_eq,
      hfunctions.generated_eq FlattensClosure.generated_eq, (builds_fresh hlabel).2.2, hs]
    simp
  have hnone_function : ∀ cls ∈ functions, cls.name ≠ numbered "lambda" n := by
    intro cls hcls
    obtain ⟨c, hc, hclosure, -, -, -⟩ := (hfunctions.entry FlattensClosure.grows).2 cls hcls
    obtain ⟨-, -, -⟩ := hclosure
    exact (isClosureName_ofFunctions [] p.functions c hc).ne_numbered "lambda" n
  have hnone_class : ∀ cls ∈ classes, cls.name ≠ numbered "lambda" n := by
    intro cls hcls
    obtain ⟨c, hc, hclass, -, -, -⟩ := (hclasses.entry FlattensClass.grows).2 cls hcls
    obtain ⟨-⟩ := hclass
    exact hdeclared c hc
  have hapart : Apart s₂ [] (k₁ ++ (k₂ ++ k₃)) s' :=
    (hfunctions.tracked tracks_apart (FlattensClosure.tracked tracks_apart)).trans
      ((hclasses.tracked tracks_apart (FlattensClass.tracked tracks_apart)).trans
        (hbody.tracked tracks_apart))
  have honce := hapart.once n
  rw [occurrences_append, occurrences_append, occurrences_eq_zero hnone_function,
    occurrences_eq_zero hnone_class, hkept, Nat.zero_add]
  have hnone : lambdasOf n [] = 0 := rfl
  split_ifs at honce <;> omega

/-! ## Names that are new -/

section Registered

variable {α : Type} {f : α → Build PUnit} {as : List α} {s s' : State} {name : String}

/-- A name that is there after a list of steps was there before, or one of the steps enters it. -/
theorem registered_forM {P : α → Prop}
    (hf : ∀ a s s', Builds (f a) s ⟨⟩ s' → s'.catalog.Registered name →
      s.catalog.Registered name ∨ P a)
    (h : Builds (as.forM f) s ⟨⟩ s') (hname : s'.catalog.Registered name) :
    s.catalog.Registered name ∨ ∃ a ∈ as, P a := by
  induction as generalizing s with
  | nil => exact .inl ((builds_pure h).2 ▸ hname)
  | cons a as ih =>
      obtain ⟨⟨⟩, s₁, hfirst, hrest⟩ := h.bind_inv
      rcases ih hrest with hname | ⟨a', ha', hP⟩
      · refine (hf a s s₁ hfirst hname).imp_right fun hP => ⟨a, List.mem_cons_self, hP⟩
      · exact .inr ⟨a', List.mem_cons_of_mem _ ha', hP⟩

theorem registered_enter {className : String} {fields : List Tree.Decl}
    {methods : List (String × Nat)} {a : Unit} (h : Builds (enter className fields methods) s a s')
    (hname : s'.catalog.Registered name) : s.catalog.Registered name ∨ name = className := by
  rw [builds_enter h] at hname
  exact registered_withClass.1 hname

end Registered

theorem registered_enterAll {p : Tree.Program} {s s' : State} {n : Nat}
    (h : Builds (enterAll p) s () s') (hn : s'.catalog.Registered (numbered "lambda" n)) :
    s.catalog.Registered (numbered "lambda" n) ∨
      ∃ c ∈ p.classes, c.name = numbered "lambda" n := by
  obtain ⟨⟨⟩, s₁, hpaths, h⟩ := h.bind_inv
  obtain ⟨⟨⟩, s₂, hclosures, hclasses⟩ := h.bind_inv
  have hclass := registered_forM (P := fun c : Tree.Class => c.name = numbered "lambda" n)
    (fun c _ _ henter hn => (registered_enter henter hn).imp_right Eq.symm) hclasses hn
  refine hclass.imp_left fun hn => ?_
  have hgrows := (grows_forM (fun f _ _ _ => grows_recordPaths) hpaths).trans
    (grows_enterClosures (isClosureName_ofFunctions [] p.functions) hclosures)
  refine (hgrows.lambdas n hn).resolve_right ?_
  -- no names are drawn on the way
  rintro ⟨hlow, hhigh⟩
  obtain ⟨_, rfl⟩ := builds_updates (fun _ _ _ => builds_recordPaths) hpaths
  obtain ⟨_, rfl⟩ := builds_enterClosures hclosures
  exact absurd hhigh (Nat.not_lt.2 hlow)

/-! ## Objects of lambdas -/

theorem entry_enterClosure {name : String} {params : List Parameter} {a : Unit} {s s' : State}
    (h : Builds (enterClosure name params) s a s') (hnew : ¬ s.catalog.Registered name) :
    ∃ slot, s'.catalog.startOf name = .ok slot ∧
      s'.catalog.dispatch[slot]? = some ⟨methodName name applyName, params.length⟩ := by
  obtain rfl := builds_enter h
  have hdifferent : applyName ≠ initName := by decide
  have hentries : Catalog.entriesOf name [(initName, 1), (applyName, params.length)] =
      [⟨methodName name applyName, params.length⟩] := by
    simp [Catalog.entriesOf, hdifferent]
  obtain ⟨-, hstart, hdispatch⟩ := withClass_of_new hnew
  refine ⟨s.catalog.dispatch.length, hstart, ?_⟩
  change (withClass _ _ _ _).dispatch[_]? = _
  rw [hdispatch, hentries, List.getElem?_append_right (Nat.le_refl _), Nat.sub_self]
  rfl

/-- What the code of a lambda does: it enters a class and makes an object of it.  If the name of
the class is new, the object denotes the method of this class. -/
theorem flattens_lambda {n : Tree.Note} {params : List String} {body : Tree.Expr} {s s' : State}
    {code : Code} {k : List Flow.Class} {r : Result}
    (h : Flattens (.expr (.lambda n params body)) s code k r s') :
    ∃ name ret slot bitmap layout t, name = numbered "lambda" (s.names.next "lambda") ∧
      code = objectCode name (.object name) slot bitmap layout t ∧
      Realized (lambdaClosure name (Scope.lambdaParams params n.ty) ret body) s k s' ∧
      (Scope.lambdaParams params n.ty).map (·.name) = params ∧
      s'.catalog.startOf name = .ok slot ∧ (¬ s.catalog.Registered name →
        s'.catalog.dispatch[slot]? = some ⟨methodName name applyName, params.length + 1⟩) := by
  cases h with
  | @lambda _ _ _ ps ret name _ s₁ s₂ s₃ _ _ _ _ hsignature hname henter hclosure hmake =>
      obtain ⟨rfl, hparams⟩ := builds_signature hsignature
      obtain ⟨hfresh, hcatalog, -⟩ := builds_fresh hname
      have hrealized := (realized_closures hclosure List.mem_cons_self).widen
        (grows_enterLambda hname henter) hmake.grows (fun _ h => h)
      have hmade := hmake.grows.catalog
      cases hmake with
      | @object _ t _ slot bitmap layout _ _ hslot _ _ _ =>
          refine ⟨name, ret, slot, bitmap, layout, t, NameSupply.fresh_eq hfresh, rfl, hrealized,
            hparams, hmade.starts name slot hslot, fun hnew => ?_⟩
          rw [← hcatalog] at hnew
          have hlength : (Scope.lambdaParams params n.ty).length = params.length := by
            rw [← congrArg List.length hparams, List.length_map]
          obtain ⟨slot', hstart, hentry⟩ := entry_enterClosure henter hnew
          have hsame := hclosure.grows.catalog.starts name slot' hstart
          obtain rfl := Except.ok.inj (hsame.symm.trans hslot)
          rw [List.length_cons, hlength] at hentry
          exact (hclosure.grows.catalog.trans hmade).entry hentry

end Midend.Linear
