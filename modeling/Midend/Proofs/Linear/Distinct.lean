import Midend.Proofs.Linear.Additions
import Midend.Proofs.Linear.Dispatch
/-!
# Names that flattening makes

A class of a block program is declared, or stands for a function or for a lambda.  Which names the
first two have can be read off the program (`FlattensProgram.count_names`), and each lambda has a
number of its own.  So where functions, classes and methods side by side have distinct names without
dollars and dots, all classes have distinct names, and so have all methods; and the class that the
catalog has for a function holds its body (`flatten_names_distinct`).
-/

namespace Midend.Tree

def Program.classNames (p : Program) : List String :=
  p.positions.map Position.className ++ p.classes.map (·.name)

theorem dollar_mem_className (x : Position) : '$' ∈ x.className.toList := by
  simp [Position.className, closureClassName]

theorem Program.nodup_classNames {p : Program} (h : p.Distinct)
    (hfree : ∀ name ∈ p.names, '$' ∉ name.toList) : p.classNames.Nodup := by
  refine List.nodup_append.2 ⟨?_, h.classes, ?_⟩
  · have hroutes := h.nodup_routes
    refine List.Nodup.map_on (fun x hx y hy heq => ?_) hroutes.of_map
    refine List.inj_on_of_nodup_map hroutes hx hy ?_
    exact closureClassName_inj (fun name hname => hfree name (names_of_route hx name hname))
      (fun name hname => hfree name (names_of_route hy name hname)) heq
  · refine List.forall_mem_map.2 fun x _ => List.forall_mem_map.2 fun c hc heq => ?_
    have hname : c.name ∈ p.names :=
      List.mem_append_right _ (List.mem_flatMap.2 ⟨c, hc, List.mem_cons_self⟩)
    exact hfree c.name hname (heq ▸ dollar_mem_className x)

end Midend.Tree

namespace Midend.Linear

open NameSupply (numbered)
open Midend.Tree (Position)

/-! ## The classes of functions -/

mutual
theorem names_ofFunction (enclosing : List String) (f : Tree.Function) :
    (Closure.ofFunction enclosing f).map (·.name) =
      (f.positions enclosing).map Position.className := by
  match f with
  | ⟨name, params, ret, decls, body, children, loc⟩ =>
      rw [Closure.ofFunction, Tree.Function.positions, List.map_cons, List.map_cons,
        names_ofFunctions]
      rfl

theorem names_ofFunctions (enclosing : List String) (fs : List Tree.Function) :
    (Closure.ofFunctions enclosing fs).map (·.name) =
      (Tree.Function.positionsAll enclosing fs).map Position.className := by
  match fs with
  | [] => rfl
  | f :: fs =>
      rw [Closure.ofFunctions, Tree.Function.positionsAll, List.map_append, List.map_append,
        names_ofFunction, names_ofFunctions]
end

/-! ## How often a name is there -/

section Counts

variable {name : String} {s s' : State} {k : List Flow.Class}

/-- By induction on how a part is flattened: a name that no lambda gets is there once for each of
the functions to flatten that has it. -/
theorem Flattens.count_names {part : Part} {code : Code} {r : Result}
    (hname : ∀ n, name ≠ numbered "lambda" n) (h : Flattens part s code k r s') :
    (k.map (·.name)).count name = (part.functions.map (·.name)).count name := by
  induction h with
  | lambda n hsignature hfresh henter hclosure hmake ihclosure ihmake =>
      rw [ihclosure]
      refine List.count_eq_zero.2 fun hmem => ?_
      obtain rfl := List.mem_singleton.1 hmem
      exact hname _ (NameSupply.fresh_eq (builds_fresh hfresh).1)
  | moreClosures c _ _ _ _ ihbody ihcs =>
      rw [List.map_append, List.count_append, ihbody, List.map_cons, List.count_cons, ihcs]
      simp [Part.functions, Closure.classOf, List.count_cons]
  | moreFunctions _ _ _ _ _ ihclosures ihconstruction ihfs =>
      rw [List.map_append, List.map_append, List.count_append, List.count_append, ihclosures,
        ihconstruction, ihfs]
      simp [Part.functions, Closure.ofFunctions]
  -- nothing else has functions of its own, so there is nothing to count
  | _ => simp_all [Part.functions, Closure.ofFunctions]

theorem FlattensClosure.count_names {c : Closure} {cls : Flow.Class}
    (hname : ∀ n, name ≠ numbered "lambda" n) (h : FlattensClosure c s cls k s') :
    (k.map (·.name)).count name = 0 := by
  obtain ⟨-, -, hbody⟩ := h
  exact hbody.count_names hname

theorem FlattensMethod.count_names {className : String} {f : Tree.Function} {m : Flow.Method}
    (hname : ∀ n, name ≠ numbered "lambda" n) (h : FlattensMethod className f s m k s') :
    (k.map (·.name)).count name =
      ((Tree.Function.positionsAll [className, f.name] f.children).map
        Position.className).count name := by
  obtain ⟨-, hprologue, hbody⟩ := h
  rw [List.map_append, List.count_append, hprologue.count_names hname, hbody.count_names hname,
    ← names_ofFunctions]
  exact Nat.add_zero _

theorem Each.count_names {α β : Type} {R : α → State → β → List Flow.Class → State → Prop}
    {names : α → List String} (hR : ∀ {x s y k s'}, R x s y k s' →
      (k.map (·.name)).count name = (names x).count name) {xs : List α} {ys : List β}
    (h : Each R xs s ys k s') : (k.map (·.name)).count name = (xs.flatMap names).count name := by
  induction h with
  | nil s => rfl
  | cons hfirst _ ih =>
      rw [List.map_append, List.count_append, hR hfirst, ih, List.flatMap_cons, List.count_append]

theorem Each.count_eq_zero {α β : Type} {R : α → State → β → List Flow.Class → State → Prop}
    (hR : ∀ {x s y k s'}, R x s y k s' → (k.map (·.name)).count name = 0) {xs : List α}
    {ys : List β} (h : Each R xs s ys k s') : (k.map (·.name)).count name = 0 := by
  have hnone : (xs.flatMap fun _ => ([] : List String)) = [] :=
    List.flatMap_eq_nil_iff.2 fun _ _ => rfl
  have hcount : (k.map (·.name)).count name =
    (xs.flatMap fun _ => ([] : List String)).count name := h.count_names hR
  rw [hcount, hnone, List.count_nil]

theorem FlattensClass.count_names {c : Tree.Class} {cls : Flow.Class}
    (hname : ∀ n, name ≠ numbered "lambda" n) (h : FlattensClass c s cls k s') :
    (k.map (·.name)).count name = (c.positions.map Position.className).count name := by
  obtain ⟨hmethods⟩ := h
  rw [Tree.Class.positions, List.map_flatMap]
  exact hmethods.count_names fun h => h.count_names hname

theorem FlattensProgram.count_names {p : Tree.Program} {flow : Flow.Program}
    (hname : ∀ n, name ≠ numbered "lambda" n) (h : FlattensProgram p s flow s')
    (hs : s.generated = []) : (flow.classes.map (·.name)).count name = p.classNames.count name := by
  obtain ⟨label, s₁, s₂, s₃, s₄, s₅, functions, classes, k₁, k₂, k₃, code, -, -,
    ⟨hclosures, hdeclared, hbody, rfl⟩, -⟩ := h.phases hs
  have hfunctions : functions.map (·.name) = (Closure.ofFunctions [] p.functions).map (·.name) :=
    hclosures.map_eq fun h => congrArg Prod.fst h.listing
  have hclasses : classes.map (·.name) = p.classes.map (·.name) :=
    hdeclared.map_eq fun h => h.entries.1
  have hkept₁ : (k₁.map (·.name)).count name = 0 := hclosures.count_eq_zero fun h =>
    h.count_names hname
  have hkept₂ := hdeclared.count_names fun h => h.count_names hname
  have hkept₃ : (k₃.map (·.name)).count name = 0 := hbody.count_names hname
  simp only [Tree.Program.classNames, Tree.Program.positions, List.map_append, List.count_append,
    hfunctions, hclasses, hkept₁, hkept₂, hkept₃, names_ofFunctions, List.map_flatMap]
  omega

end Counts

theorem FlattensProgram.nodup_classes {p : Tree.Program} {s s' : State} {flow : Flow.Program}
    (h : FlattensProgram p s flow s') (hs : s.generated = []) (hnames : p.classNames.Nodup)
    (hlambdas : ∀ c ∈ p.classes, ∀ n, c.name ≠ numbered "lambda" n) :
    (flow.classes.map (·.name)).Nodup := by
  refine List.nodup_iff_count_le_one.2 fun name => ?_
  by_cases hname : ∀ n, name ≠ numbered "lambda" n
  · rw [h.count_names hname hs]
    exact List.nodup_iff_count_le_one.1 hnames name
  · obtain ⟨n, hn⟩ := not_forall.1 hname
    have honce := h.occurrences_le hs fun c hc => hlambdas c hc n
    rw [← not_not.1 hn] at honce
    rw [List.count_eq_countP, List.countP_map]
    exact honce

/-! ## Methods -/

/-- The methods of a class are named from the class and from distinct names without dollars. -/
theorem FlattensProgram.methods_named {p : Tree.Program} {s s' : State} {flow : Flow.Program}
    (h : FlattensProgram p s flow s') (hs : s.generated = []) (hdistinct : p.Distinct)
    (hfree : ∀ name ∈ p.names, '$' ∉ name.toList) {cls : Flow.Class} (hcls : cls ∈ flow.classes) :
    ∃ methods : List String, cls.methods.map (·.name) = methods.map (methodName cls.name) ∧
      methods.Nodup ∧ ∀ method ∈ methods, '$' ∉ method.toList := by
  rcases h.declared_or_closure hs hcls with ⟨c, hc, _, _, _, hclass⟩ | hclosure
  · obtain ⟨hname, hentries⟩ := hclass.entries
    refine ⟨c.methods.map (·.name), ?_, hdistinct.methods c hc,
      List.forall_mem_map.2 fun m hm => ?_⟩
    · have hnames := congrArg (List.map DispatchEntry.name) hentries
      rw [List.map_map, List.map_map] at hnames
      rw [hname, List.map_map]
      exact hnames
    · refine hfree m.name (List.mem_append_right _ (List.mem_flatMap.2 ⟨c, hc, ?_⟩))
      refine List.mem_cons_of_mem _ (Tree.Function.mem_namesAll.2 ⟨m, hm, ?_⟩)
      rw [Tree.Function.names_eq]
      exact List.mem_cons_self
  · obtain ⟨init, apply, hmethods, hinit, happly⟩ := hclosure
    exact ⟨[initName, applyName], by simp [hmethods, hinit, happly], by decide, by decide⟩

theorem nodup_methods {classes : List Flow.Class} (hclasses : (classes.map (·.name)).Nodup)
    (hmethods : ∀ cls ∈ classes, ∃ methods : List String,
      cls.methods.map (·.name) = methods.map (methodName cls.name) ∧
        methods.Nodup ∧ ∀ method ∈ methods, '$' ∉ method.toList) :
    ((classes.flatMap (·.methods)).map (·.name)).Nodup := by
  rw [List.map_flatMap, List.nodup_flatMap]
  refine ⟨fun cls hcls => ?_, (List.pairwise_map.1 hclasses).imp_of_mem ?_⟩
  · obtain ⟨methods, hnames, hnodup, -⟩ := hmethods cls hcls
    rw [hnames]
    exact hnodup.map (methodName_right_injective cls.name)
  · intro cls cls' hcls hcls' hne name hname hname'
    obtain ⟨methods, hnames, -, hfree⟩ := hmethods cls hcls
    obtain ⟨methods', hnames', -, hfree'⟩ := hmethods cls' hcls'
    change name ∈ cls.methods.map (·.name) at hname
    change name ∈ cls'.methods.map (·.name) at hname'
    rw [hnames] at hname
    rw [hnames'] at hname'
    obtain ⟨method, hmem, rfl⟩ := List.mem_map.1 hname
    obtain ⟨method', hmem', heq⟩ := List.mem_map.1 hname'
    exact hne (methodName_inj (hfree method hmem) (hfree' method' hmem') heq.symm).1

/-! ## The class of a function holds its body -/

mutual
/-- A function has a scope and a closure of its own, with the name that the catalog has for it. -/
theorem exists_scope (outer enclosing : List String) (f : Tree.Function) :
    ∀ x ∈ f.positions enclosing, ∃ outer',
      FunctionScope outer enclosing f (.ofFunction outer' x.enclosing x.function) ∧
      ∃ c ∈ Closure.ofFunction enclosing f, c.name = x.className ∧
        (Scope.ofFunction outer' x.enclosing x.function).Matches c := by
  match f with
  | ⟨name, params, ret, decls, body, children, loc⟩ =>
      let f : Tree.Function := ⟨name, params, ret, decls, body, children, loc⟩
      rw [Tree.Function.positions]
      refine List.forall_mem_cons.2 ⟨⟨outer, .self outer enclosing f, ?_⟩, fun x hx => ?_⟩
      · rw [Closure.ofFunction]
        exact ⟨_, List.mem_cons_self, rfl, rfl, rfl, rfl, rfl⟩
      · obtain ⟨child, hchild, outer', hscope, c, hc, hmatches⟩ := exists_scopes
          (Scope.ofFunction outer enclosing f).inside (enclosing ++ [name]) children x hx
        exact ⟨outer', .nested hchild hscope, c, Closure.mem_of_child (f := f) hchild hc, hmatches⟩

theorem exists_scopes (outer enclosing : List String) (fs : List Tree.Function) :
    ∀ x ∈ Tree.Function.positionsAll enclosing fs, ∃ f ∈ fs, ∃ outer',
      FunctionScope outer enclosing f (.ofFunction outer' x.enclosing x.function) ∧
      ∃ c ∈ Closure.ofFunction enclosing f, c.name = x.className ∧
        (Scope.ofFunction outer' x.enclosing x.function).Matches c := by
  match fs with
  | [] => exact fun x hx => absurd hx List.not_mem_nil
  | f :: fs =>
      rw [Tree.Function.positionsAll]
      refine List.forall_mem_append.2 ⟨fun x hx => ?_, fun x hx => ?_⟩
      · exact ⟨f, List.mem_cons_self, exists_scope outer enclosing f x hx⟩
      · obtain ⟨g, hg, hscope⟩ := exists_scopes outer enclosing fs x hx
        exact ⟨g, List.mem_cons_of_mem _ hg, hscope⟩
end

/-- The class holds the body of a function: it is its method `apply`. -/
def HoldsBody (p : Tree.Program) (flow : Flow.Program) (x : Position) (cls : Flow.Class) : Prop :=
  ∃ m ∈ cls.methods, m.name = methodName cls.name applyName ∧
    ∃ outer, ScopeOf p (.ofFunction outer x.enclosing x.function) ∧
      IsBody flow (.ofFunction outer x.enclosing x.function) m

theorem Realized.holdsBody {p : Tree.Program} {flow : Flow.Program} {s s' : State} {x : Position}
    {outer : List String} {c : Closure} (h : Realized c s flow.classes s')
    (hscope : ScopeOf p (.ofFunction outer x.enclosing x.function))
    (hmatches : (Scope.ofFunction outer x.enclosing x.function).Matches c) :
    ∃ cls ∈ flow.classes, cls.name = c.name ∧ HoldsBody p flow x cls := by
  obtain ⟨cls, hcls, hname, hfields, m, hm, hmethod, himplements⟩ :=
    h.apply hmatches fun _ h => h
  rw [← hname] at hmethod
  exact ⟨cls, hcls, hname, m, hm, hmethod, outer, hscope, ⟨cls, hcls, hfields, hm⟩, s, s',
    himplements⟩

theorem Phases.realized_position {p : Tree.Program} {flow : Flow.Program} {label : Flow.Label}
    {s s₁ s₂ s' : State} {functions classes k₁ k₂ k₃ : List Flow.Class} {code : Code}
    (h : Phases p flow label s s₁ s₂ s' functions classes k₁ k₂ k₃ code) {x : Position}
    (hx : x ∈ p.positions) : ∃ outer c, ScopeOf p (.ofFunction outer x.enclosing x.function) ∧
      (Scope.ofFunction outer x.enclosing x.function).Matches c ∧ c.name = x.className ∧
      Realized c s flow.classes s' := by
  rcases List.mem_append.1 hx with hx | hx
  · obtain ⟨f, hf, outer, hscope, c, hc, hname, hmatches⟩ := exists_scopes [] [] p.functions x hx
    exact ⟨outer, c, .function hf hscope, hmatches, hname,
      h.realized_function (Closure.mem_ofFunctions.2 ⟨f, hf, hc⟩)⟩
  · obtain ⟨c, hc, hx⟩ := List.mem_flatMap.1 hx
    obtain ⟨m, hm, hx⟩ := List.mem_flatMap.1 hx
    obtain ⟨f, hf, outer, hscope, c', hc', hname, hmatches⟩ :=
      exists_scopes (Scope.ofMethod c.name m).inside [c.name, m.name] m.children x hx
    exact ⟨outer, c', .methodFunction hc hm hf hscope, hmatches, hname,
      h.realized_nested hc hm hf hc'⟩

theorem FlattensProgram.holdsBody {p : Tree.Program} {s s' : State} {flow : Flow.Program}
    (h : FlattensProgram p s flow s') (hs : s.generated = []) {x : Position}
    (hx : x ∈ p.positions) :
    ∃ cls ∈ flow.classes, cls.name = x.className ∧ HoldsBody p flow x cls := by
  obtain ⟨label, s₁, s₂, s₃, s₄, s₅, functions, classes, k₁, k₂, k₃, code, -, -, hphases, -⟩ :=
    h.phases hs
  obtain ⟨outer, c, hscope, hmatches, hname, hrealized⟩ := hphases.realized_position hx
  rw [← hname]
  exact hrealized.holdsBody hscope hmatches

/-! ## Programs -/

/-- Where functions, classes and methods side by side have distinct names without dollars and dots,
no function of the top level is named like a class, and no class is named like a lambda, all classes
that a program becomes have distinct names, and so have all their methods.  The class that the
catalog has for the path of a function holds its body. -/
theorem flatten_names_distinct {catalog catalog' : Catalog} {p : Tree.Program}
    {flow : Flow.Program} (hdistinct : p.Distinct)
    (hfree : ∀ name ∈ p.names, '$' ∉ name.toList ∧ '.' ∉ name.toList)
    (hlambdas : ∀ c ∈ p.classes, ∀ n, c.name ≠ numbered "lambda" n)
    (hflow : flatten catalog p = (.ok flow, catalog')) :
    (flow.classes.map (·.name)).Nodup ∧ ((flow.classes.flatMap (·.methods)).map (·.name)).Nodup ∧
      ∀ x ∈ p.positions, ∃ cls ∈ flow.classes, catalog'.closure? x.path = some cls.name ∧
        HoldsBody p flow x cls := by
  obtain ⟨-, st, hrun, rfl⟩ := flatten_eq_ok_iff.1 hflow
  have hprogram := flattens_program hrun
  have hdollars : ∀ name ∈ p.names, '$' ∉ name.toList := fun name hname => (hfree name hname).1
  have hclasses := hprogram.nodup_classes rfl (p.nodup_classNames hdistinct hdollars) hlambdas
  refine ⟨hclasses, nodup_methods hclasses fun cls hcls =>
    hprogram.methods_named rfl hdistinct hdollars hcls, fun x hx => ?_⟩
  obtain ⟨cls, hcls, hname, hholds⟩ := hprogram.holdsBody rfl hx
  refine ⟨cls, hcls, ?_, hholds⟩
  rw [hname]
  exact closure?_flatten (fun name hname => (hfree name hname).2) hflow hx

/-- A function of the top level and one in a method have the same name, but not the same class. -/
theorem flatten_names_distinct_counter :
    let flow := blocksOf .empty countProgram
    flow.classes.map (·.name) =
        ["next_$closure$", "Counter", "Counter_$step_$next_$closure$", "lambda1"] ∧
      (flow.classes.map (·.name)).Nodup ∧ ((flow.classes.flatMap (·.methods)).map (·.name)).Nodup ∧
      ∀ x ∈ countProgram.positions, ∃ cls ∈ flow.classes,
        (flatten .empty countProgram).2.closure? x.path = some cls.name ∧
          HoldsBody countProgram flow x cls := by
  have hok : (flatten .empty countProgram).1.toOption.isSome = true := by decide +kernel
  have hnames : (blocksOf .empty countProgram).classes.map (·.name) =
      ["next_$closure$", "Counter", "Counter_$step_$next_$closure$", "lambda1"] := by
    decide +kernel
  have hdistinct : countProgram.Distinct :=
    ⟨by decide, by decide, by decide, by decide, by decide, by decide⟩
  have hlambdas : ∀ c ∈ countProgram.classes, ∀ n, c.name ≠ numbered "lambda" n := by
    intro c hc n heq
    obtain rfl := List.mem_singleton.1 hc
    have hfirst := congrArg (fun name => name.toList.head?) heq
    simp [counterClass, numbered] at hfirst
  exact ⟨hnames, flatten_names_distinct hdistinct (by decide) hlambdas (flatten_eq_blocksOf hok)⟩

end Midend.Linear
