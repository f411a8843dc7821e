import Midend.Proofs.Linear.Binding
/-!
# Declarations of temporaries

All bodies of a program draw their temporaries from one supply.  Every number that is used up is
that of one temporary, which one body declares (`Phases.numbers`).  Where the program itself uses no
such names, no two declared temporaries are the same, in one body or in two (`Phases.handsOut`).
-/

namespace Midend.Flow

def Method.declared (m : Method) : List String := m.decls.map (·.name)

def Class.declared (c : Class) : List String := c.methods.flatMap Method.declared

theorem Program.declared_methods (p : Program) : p.methods.flatMap Method.declared =
    p.main.declared ++ p.classes.flatMap Class.declared := by
  rw [methods, List.flatMap_cons, List.flatMap_assoc]
  rfl

end Midend.Flow

namespace Midend.NameSupply

variable {s s₁ s' : NameSupply} {names names' : List String} {base name : String}

/-- The temporaries are all those numbered between two states of a supply, each of them once. -/
structure Exhausts (s s' : NameSupply) (names : List String) : Prop where
  le : ∀ base ∈ generatedBases, s.next base ≤ s'.next base
  nodup : names.Nodup
  mem_iff : ∀ x, x ∈ names ↔
    ∃ base ∈ generatedBases, ∃ n, s.next base ≤ n ∧ n < s'.next base ∧ x = numbered base n

namespace Exhausts

theorem nil (h : ∀ base ∈ generatedBases, s'.next base = s.next base) : Exhausts s s' [] := by
  refine ⟨fun base hbase => Nat.le_of_eq (h base hbase).symm, List.nodup_nil, fun x => ?_⟩
  refine ⟨fun hx => absurd hx List.not_mem_nil, ?_⟩
  rintro ⟨base, hbase, n, hlow, hhigh, -⟩
  have hsame := h base hbase
  omega

theorem fresh (h : s.fresh base = (name, s')) (hbase : base ∈ generatedBases) :
    Exhausts s s' [name] := by
  refine ⟨fun other _ => ?_, List.nodup_singleton _, fun x => ?_⟩
  · rw [next_fresh h]
    exact Nat.le_add_right _ _
  · rw [List.mem_singleton, fresh_eq h]
    constructor
    · rintro rfl
      refine ⟨base, hbase, s.next base, Nat.le_refl _, ?_, rfl⟩
      rw [next_fresh h, if_pos rfl]
      exact Nat.lt_succ_self _
    · rintro ⟨other, hother, n, hlow, hhigh, rfl⟩
      rw [next_fresh h] at hhigh
      split at hhigh
      · rename_i heq
        obtain rfl := heq
        rw [Nat.le_antisymm (Nat.le_of_lt_succ hhigh) hlow]
      · omega

/-- By cases on where a number lies: the interval splits at the state in between. -/
theorem append (h : Exhausts s s₁ names) (h' : Exhausts s₁ s' names') :
    Exhausts s s' (names ++ names') := by
  refine ⟨fun base hbase => Nat.le_trans (h.le base hbase) (h'.le base hbase),
    List.nodup_append.2 ⟨h.nodup, h'.nodup, ?_⟩, fun x => ?_⟩
  · rintro x hx _ hx' rfl
    obtain ⟨base, hbase, n, -, hhigh, rfl⟩ := (h.mem_iff x).1 hx
    obtain ⟨base', hbase', n', hlow', -, heq⟩ := (h'.mem_iff _).1 hx'
    obtain ⟨rfl, rfl⟩ :=
      numbered_inj (unnumbered_of_generated hbase) (unnumbered_of_generated hbase') heq
    omega
  · rw [List.mem_append, h.mem_iff, h'.mem_iff]
    constructor
    · rintro (⟨base, hbase, n, hlow, hhigh, hx⟩ | ⟨base, hbase, n, hlow, hhigh, hx⟩)
      · exact ⟨base, hbase, n, hlow, Nat.lt_of_lt_of_le hhigh (h'.le base hbase), hx⟩
      · exact ⟨base, hbase, n, Nat.le_trans (h.le base hbase) hlow, hhigh, hx⟩
    · rintro ⟨base, hbase, n, hlow, hhigh, hx⟩
      rcases Nat.lt_or_ge n (s₁.next base) with hlt | hge
      · exact .inl ⟨base, hbase, n, hlow, hlt, hx⟩
      · exact .inr ⟨base, hbase, n, hge, hhigh, hx⟩

theorem perm (h : Exhausts s s' names) (hperm : names.Perm names') : Exhausts s s' names' :=
  ⟨h.le, hperm.nodup_iff.1 h.nodup, fun x => hperm.mem_iff.symm.trans (h.mem_iff x)⟩

end Exhausts

end Midend.NameSupply

namespace Midend.Linear

open NameSupply (Draws Exhausts IsGenerated generatedBases)
open Midend.Tree (mentioned)
open Build Code

/-! ## What bodies declare -/

def Declares (p : Tree.Program) (made declared : List String) : Prop :=
  ∃ sources, declared.Perm (made ++ sources) ∧
    ∀ x ∈ sources, ∃ sc, ScopeOf p sc ∧ x ∈ sc.decls.map (·.name)

/-- The temporaries numbered between two states are `names` and those among what is declared. -/
def Numbers (p : Tree.Program) (s : State) (names declared : List String) (s' : State) : Prop :=
  ∃ made, Exhausts s.names s'.names (names ++ made) ∧ Declares p made declared

section Numbers

variable {p : Tree.Program} {s s₁ s' : State} {names names' declared declared' : List String}
  {k : List Flow.Class} {sc : Scope}

namespace Numbers

theorem quiet (h : Quiet s s') : Numbers p s [] [] s' :=
  ⟨[], .nil h.temporaries, [], .nil, fun _ h => absurd h List.not_mem_nil⟩

theorem temporary {base name : String} (hbase : base ∈ generatedBases)
    (hname : Builds (fresh base) s name s') : Numbers p s [name] [] s' :=
  ⟨[], .fresh (builds_fresh hname).1 hbase, [], .nil, fun _ h => absurd h List.not_mem_nil⟩

theorem append (h : Numbers p s names declared s₁) (h' : Numbers p s₁ names' declared' s') :
    Numbers p s (names ++ names') (declared ++ declared') s' := by
  obtain ⟨made, hmade, sources, hdeclared, hsources⟩ := h
  obtain ⟨made', hmade', sources', hdeclared', hsources'⟩ := h'
  refine ⟨made ++ made', (hmade.append hmade').perm ?_, sources ++ sources', ?_,
    List.forall_mem_append.2 ⟨hsources, hsources'⟩⟩
  · rw [List.append_assoc, List.append_assoc]
    exact (List.perm_append_comm_assoc _ _ _).append_left names
  · refine (hdeclared.append hdeclared').trans ?_
    rw [List.append_assoc, List.append_assoc]
    exact (List.perm_append_comm_assoc _ _ _).append_left made

theorem perm (h : Numbers p s names declared s') (hperm : declared.Perm declared') :
    Numbers p s names declared' s' := by
  obtain ⟨made, hmade, sources, hdeclared, hsources⟩ := h
  exact ⟨made, hmade, sources, hperm.symm.trans hdeclared, hsources⟩

theorem body (hsc : ScopeOf p sc) (h : Numbers p s names declared s') :
    Numbers p s [] ((names ++ sc.decls.map (·.name)) ++ declared) s' := by
  obtain ⟨made, hmade, sources, hdeclared, hsources⟩ := h
  refine ⟨names ++ made, hmade, sc.decls.map (·.name) ++ sources, ?_,
    List.forall_mem_append.2 ⟨fun x hx => ⟨sc, hsc, hx⟩, hsources⟩⟩
  rw [List.append_assoc, List.append_assoc]
  refine List.Perm.append_left names ((hdeclared.append_left _).trans ?_)
  exact List.perm_append_comm_assoc _ _ _

end Numbers

theorem declared_classOf (c : Closure) (initLabel applyLabel : Flow.Label) (code : Code) :
    (c.classOf initLabel applyLabel code).declared = code.declared ++ c.decls.map (·.name) := by
  simp [Closure.classOf, Flow.Class.declared, Flow.Method.declared, declared, decl]

theorem Numbers.classOf {c : Closure} {code : Code} (hsc : ScopeOf p sc) (hmatches : sc.Matches c)
    (initLabel applyLabel : Flow.Label) (h : Numbers p s code.declared declared s') :
    Numbers p s [] ((c.classOf initLabel applyLabel code).declared ++ declared) s' := by
  rw [declared_classOf, hmatches.decls]
  exact h.body hsc

theorem traces_numbers (p : Tree.Program) :
    Traces p fun s names k s' => Numbers p s names (k.flatMap Flow.Class.declared) s' where
  quiet := .quiet
  append h h' := by
    rw [List.flatMap_append]
    exact h.append h'
  temporary hbase hname := .temporary hbase hname
  closure {s s' sc c initLabel applyLabel code k} hsc hmatches _ h := by
    refine (h.classOf hsc hmatches initLabel applyLabel).perm ?_
    rw [List.flatMap_append, List.flatMap_singleton]
    exact List.perm_append_comm

/-! ## Classes and methods -/

theorem FlattensClosure.numbers {c : Closure} {cls : Flow.Class} (hsc : ScopeOf p sc)
    (hmatches : sc.Matches c) (h : FlattensClosure c s cls k s') :
    Numbers p s [] (cls.declared ++ k.flatMap Flow.Class.declared) s' := by
  obtain ⟨_, _, code, rfl, hcode⟩ := h.traced (traces_numbers p) hsc hmatches
  exact hcode.classOf hsc hmatches _ _

theorem FlattensMethod.numbers {c : Tree.Class} {f : Tree.Function} {m : Flow.Method}
    (hc : c ∈ p.classes) (hf : f ∈ c.methods) (h : FlattensMethod c.name f s m k s') :
    Numbers p s [] (m.declared ++ k.flatMap Flow.Class.declared) s' := by
  obtain ⟨code, hdecls, hcode⟩ := h.traced (traces_numbers p) hc hf
  unfold Flow.Method.declared
  rw [decls_names hdecls]
  exact hcode.body (.method hc hf)

theorem Each.numbers {α β : Type} {R : α → State → β → List Flow.Class → State → Prop}
    {xs : List α} {ys : List β} {names : β → List String}
    (hR : ∀ x ∈ xs, ∀ {s y k s'}, R x s y k s' →
      Numbers p s [] (names y ++ k.flatMap Flow.Class.declared) s')
    (h : Each R xs s ys k s') :
    Numbers p s [] (ys.flatMap names ++ k.flatMap Flow.Class.declared) s' := by
  induction h with
  | nil s => exact .quiet (.refl s)
  | cons hfirst _ ih =>
      obtain ⟨hx, hxs⟩ := List.forall_mem_cons.1 hR
      refine ((hx hfirst).append (ih hxs)).perm ?_
      rw [List.flatMap_cons, List.flatMap_append, List.append_assoc, List.append_assoc]
      exact (List.perm_append_comm_assoc _ _ _).append_left _

theorem FlattensClass.numbers {c : Tree.Class} {cls : Flow.Class} (hc : c ∈ p.classes)
    (h : FlattensClass c s cls k s') :
    Numbers p s [] (cls.declared ++ k.flatMap Flow.Class.declared) s' := by
  obtain ⟨hmethods⟩ := h
  exact hmethods.numbers fun f hf _ _ _ _ h => h.numbers hc hf

/-! ## Whole programs -/

section Phases

variable {flow : Flow.Program} {label : Flow.Label} {s₂ : State}
  {functions classes k₁ k₂ k₃ : List Flow.Class} {code : Code}

/-- The methods of a program declare every temporary that is numbered on the way, each of them once,
and variables of the source. -/
theorem Phases.numbers (h : Phases p flow label s s₁ s₂ s' functions classes k₁ k₂ k₃ code) :
    Numbers p s [] (flow.methods.flatMap Flow.Method.declared) s' := by
  have hfunctions : Numbers p s [] (functions.flatMap Flow.Class.declared ++
      k₁.flatMap Flow.Class.declared) s₁ := by
    refine h.closures.numbers fun c hc _ _ _ _ hclosure => ?_
    obtain ⟨f, hf, sc, hscope, hmatches⟩ := functionScopes_of_closures [] [] p.functions c hc
    exact hclosure.numbers (.function hf hscope) hmatches
  have hclasses : Numbers p s₁ [] (classes.flatMap Flow.Class.declared ++
      k₂.flatMap Flow.Class.declared) s₂ :=
    h.declared.numbers fun c hc _ _ _ _ hclass => hclass.numbers hc
  have hbody : Numbers p s₂ code.declared (k₃.flatMap Flow.Class.declared) s' :=
    h.body.traced (traces_numbers p) (hasScope_of_mem .topLevel)
      fun _ h => absurd h List.not_mem_nil
  have hmain : flow.main.declared = code.declared ++ (Scope.ofProgram p).decls.map (·.name) := by
    refine decls_names ?_
    rw [h.flow_eq]
    rfl
  refine ((hfunctions.append hclasses).append (hbody.body .topLevel)).perm ?_
  rw [Flow.Program.declared_methods, hmain, h.flow_eq, List.perm_iff_count]
  intro x
  simp only [List.flatMap_append, List.count_append]
  omega

end Phases

end Numbers

/-! ## Programs that use no names of temporaries -/

/-- No scope of the program binds or mentions a name that has the form of a temporary. -/
def Unreserved (p : Tree.Program) : Prop :=
  ∀ sc, ScopeOf p sc → ∀ x ∈ sc.names ++ mentioned sc.nodes, ¬ IsGenerated x

theorem Unreserved.decls {p : Tree.Program} (hfree : Unreserved p) {sc : Scope}
    (hsc : ScopeOf p sc) : ∀ x ∈ sc.decls.map (·.name), ¬ IsGenerated x := fun x hx =>
  hfree sc hsc x (List.mem_append_left _ (List.mem_append_right _ hx))

open Classical in
def HandsOut (s : State) (names : List String) (s' : State) : Prop :=
  Draws s.names s'.names (names.filter fun x => IsGenerated x)

theorem HandsOut.count_le {s s' : State} {names : List String} {x : String}
    (h : HandsOut s names s') (hx : IsGenerated x) : names.count x ≤ 1 := by
  classical
  have hcount := List.nodup_iff_count_le_one.1 h.nodup x
  rwa [List.count_filter (by simpa using hx)] at hcount

/-- Every temporary of a program is declared once. -/
theorem Phases.handsOut {p : Tree.Program} (hfree : Unreserved p) {flow : Flow.Program}
    {label : Flow.Label} {s s₁ s₂ s' : State} {functions classes k₁ k₂ k₃ : List Flow.Class}
    {code : Code} (h : Phases p flow label s s₁ s₂ s' functions classes k₁ k₂ k₃ code) :
    HandsOut s (flow.methods.flatMap Flow.Method.declared) s' := by
  classical
  obtain ⟨made, hmade, sources, hdeclared, hsources⟩ := h.numbers
  rw [List.nil_append] at hmade
  have hall : made.filter (fun x => IsGenerated x) = made := List.filter_eq_self.2 fun x hx => by
    obtain ⟨base, hbase, n, -, -, rfl⟩ := (hmade.mem_iff x).1 hx
    exact decide_eq_true ⟨base, hbase, n, rfl⟩
  have hnone : sources.filter (fun x => IsGenerated x) = [] :=
    List.filter_eq_nil_iff.2 fun x hx => by
      obtain ⟨sc, hsc, hx⟩ := hsources x hx
      simpa using hfree.decls hsc x hx
  have hgrows : Grows s s' := h.grows_functions.trans (h.grows_classes.trans h.body.grows)
  have hdraws : Draws s.names s'.names made := by
    refine ⟨hgrows.names, fun x hx => ?_, hmade.nodup⟩
    obtain ⟨base, hbase, n, hlow, hhigh, rfl⟩ := (hmade.mem_iff x).1 hx
    exact ⟨base, n, NameSupply.unnumbered_of_generated hbase, rfl, hlow, hhigh⟩
  refine hdraws.perm ?_
  have hfilter := hdeclared.filter fun x => IsGenerated x
  rw [List.filter_append, hall, hnone, List.append_nil] at hfilter
  exact hfilter.symm

end Midend.Linear
