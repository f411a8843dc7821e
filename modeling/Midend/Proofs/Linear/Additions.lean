import Midend.Proofs.Linear.ControlFlow
import Midend.Proofs.Linear.Repetition
import Midend.Proofs.Linear.Layouts
import Midend.Proofs.Name.Derived
import Midend.Proofs.Tree.Positions
/-!
# What a program adds to the catalog

All that building does to the catalog is to enter classes, each with a layout and a slot at once,
and to take notes of functions, one after another (`Adds`); the global variables are noted when
nothing can fail any more (`flatten_beginning`).  So whether a program is flattened or refused half
way, what the catalog had stays, and what it gets is whole.  Where no name has a dot, a function is
noted under a path of its own, and the note stays for ever (`flatten_only_adds`).
-/

namespace Midend.Tree

def Position.note (x : Position) : String × String := (x.path, x.className)

def Program.notes (p : Program) : List (String × String) := p.positions.map Position.note

def Program.DotFree (p : Program) : Prop := ∀ name ∈ p.names, '.' ∉ name.toList

instance (p : Program) : Decidable p.DotFree :=
  inferInstanceAs (Decidable (∀ name ∈ p.names, '.' ∉ name.toList))

/-- Without dots in names a dotted path stands for one class, in whatever programs it occurs. -/
theorem Program.DotFree.agree {p q : Program} (hp : p.DotFree) (hq : q.DotFree)
    {note note' : String × String} (hnote : note ∈ p.notes) (hnote' : note' ∈ q.notes)
    (h : note'.1 = note.1) : note'.2 = note.2 := by
  obtain ⟨x, hx, rfl⟩ := List.mem_map.1 hnote
  obtain ⟨y, hy, rfl⟩ := List.mem_map.1 hnote'
  have hroute := dottedPath_inj (fun name hname => hq name (names_of_route hy name hname))
    (fun name hname => hp name (names_of_route hx name hname)) h
  unfold Position.note Position.className closureClassName
  rw [hroute]

end Midend.Tree

namespace Midend.Catalog

open Linear

def Complete (c : Catalog) (name : String) : Prop :=
  (∃ layout, c.layoutOf name = .ok layout) ∧ ∃ slot, c.startOf name = .ok slot

theorem Complete.extends {c c' : Catalog} {name : String} (h : c.Complete name)
    (hextends : c.Extends c') : c'.Complete name := by
  obtain ⟨⟨layout, hlayout⟩, slot, hslot⟩ := h
  exact ⟨⟨layout, hextends.layouts name layout hlayout⟩, slot, hextends.starts name slot hslot⟩

theorem complete_withClass (c : Catalog) (name : String) (fields : List Tree.Decl)
    (methods : List (String × Nat)) : (withClass c name fields methods).Complete name :=
  ⟨exists_layoutOf_withClass c name fields methods, exists_startOf_addMethods _ name methods⟩

end Midend.Catalog

namespace Midend.Linear

open Build
open Midend.Flow (Label)

/-! ## Classes one after another -/

structure Signature where
  name : String
  fields : List Tree.Decl
  methods : List (String × Nat)

def withClasses (catalog : Catalog) (entered : List Signature) : Catalog :=
  entered.foldl (fun c e => withClass c e.name e.fields e.methods) catalog

variable {catalog : Catalog} {entered entered' : List Signature} {names : List String}
  {paths paths' : List (String × String)}

theorem withClasses_append : withClasses catalog (entered ++ entered') =
    withClasses (withClasses catalog entered) entered' := List.foldl_append

theorem extends_withClasses (catalog : Catalog) (entered : List Signature) :
    catalog.Extends (withClasses catalog entered) := by
  induction entered generalizing catalog with
  | nil => exact .refl catalog
  | cons e entered ih => exact (extends_withClass catalog _ _ _).trans (ih _)

theorem sameNotes_withClasses (catalog : Catalog) (entered : List Signature) :
    catalog.SameNotes (withClasses catalog entered) := by
  induction entered generalizing catalog with
  | nil => exact ⟨rfl, rfl⟩
  | cons e entered ih => exact (sameNotes_withClass catalog _ _ _).trans (ih _)

theorem complete_withClasses (catalog : Catalog) (entered : List Signature) :
    ∀ e ∈ entered, (withClasses catalog entered).Complete e.name := by
  induction entered generalizing catalog with
  | nil => exact fun e he => absurd he List.not_mem_nil
  | cons e entered ih =>
      refine List.forall_mem_cons.2 ⟨?_, ih _⟩
      exact (catalog.complete_withClass e.name e.fields e.methods).extends
        (extends_withClasses _ entered)

theorem withClass_note (name : String) (fields : List Tree.Decl) (methods : List (String × Nat)) :
    withClass (catalog.note paths names) name fields methods =
      (withClass catalog name fields methods).note paths names := by
  unfold withClass Catalog.addMethods Catalog.addLayout Catalog.hasLayout Catalog.note
  split <;> split <;> rfl

theorem withClasses_note : withClasses (catalog.note paths names) entered =
    (withClasses catalog entered).note paths names := by
  induction entered generalizing catalog with
  | nil => rfl
  | cons e entered ih =>
      change withClasses (withClass _ e.name e.fields e.methods) entered = _
      rw [withClass_note, ih]
      rfl

/-! ## What building adds -/

/-- All that building does to the catalog is to enter classes and to take these notes of functions,
one after another.  Where it fails, it has taken the first of them. -/
def Adds (paths : List (String × String)) {α : Type} (act : Build α) : Prop :=
  ∀ s, ∃ entered noted, noted <+: paths ∧ (∀ a, (runOn act s).1 = .ok a → noted = paths) ∧
    (runOn act s).2.catalog = (withClasses s.catalog entered).note noted []

section Adds

variable {α β : Type} {act : Build α} {next : α → Build β}

theorem Adds.bind (hact : Adds paths act) (hnext : ∀ a, Adds paths' (next a)) :
    Adds (paths ++ paths') (act >>= next) := by
  intro s
  obtain ⟨entered, noted, hprefix, hall, hcatalog⟩ := hact s
  rw [runOn_bind]
  cases hrun : runOn act s with
  | mk ended s₁ =>
      rw [hrun] at hall hcatalog
      cases ended with
      | error fault =>
          refine ⟨entered, noted, hprefix.trans (List.prefix_append _ _), fun b h => ?_, hcatalog⟩
          exact nomatch h
      | ok a =>
          obtain rfl := hall a rfl
          obtain ⟨entered', noted', hprefix', hall', hcatalog'⟩ := hnext a s₁
          refine ⟨entered ++ entered', noted ++ noted',
            (List.prefix_append_right_inj _).2 hprefix', fun b h => ?_, ?_⟩
          · rw [hall' b h]
          · change s₁.catalog = _ at hcatalog
            refine hcatalog'.trans ?_
            rw [hcatalog, withClasses_note, Catalog.note_note, withClasses_append]
            rfl

theorem Adds.before (hact : Adds [] act) (hnext : ∀ a, Adds paths (next a)) :
    Adds paths (act >>= next) := hact.bind hnext

theorem Adds.behind (hact : Adds paths act) (hnext : ∀ a, Adds [] (next a)) :
    Adds paths (act >>= next) := by
  have hbind := hact.bind hnext
  rwa [List.append_nil] at hbind

theorem adds_nil (h : ∀ s : State, (runOn act s).2.catalog = s.catalog) : Adds [] act :=
  fun s => ⟨[], [], List.prefix_rfl, fun _ _ => rfl, h s⟩

theorem adds_enter (name : String) (fields : List Tree.Decl) (methods : List (String × Nat)) :
    Adds [] (enter name fields methods) := fun _ =>
  ⟨[⟨name, fields, methods⟩], [], List.prefix_rfl, fun _ _ => rfl, rfl⟩

theorem steps_adds : Steps (Adds []) where
  pure _ := adds_nil fun _ => rfl
  bind := Adds.before
  throw _ := adds_nil fun _ => rfl
  fresh _ _ := adds_nil fun _ => rfl
  ask _ := adds_nil fun _ => rfl
  enterClosure _ _ := adds_enter _ _ _
  keep _ := adds_nil fun _ => rfl

theorem adds_forM {f : α → Build PUnit} {paths : α → List (String × String)}
    (hf : ∀ a, Adds (paths a) (f a)) (as : List α) : Adds (as.flatMap paths) (as.forM f) := by
  induction as with
  | nil => exact steps_adds.pure _
  | cons a as ih => exact (hf a).bind fun _ => ih

theorem adds_mapM {f : α → Build β} {paths : α → List (String × String)}
    (hf : ∀ a, Adds (paths a) (f a)) (as : List α) : Adds (as.flatMap paths) (as.mapM f) := by
  induction as with
  | nil => exact steps_adds.pure _
  | cons a as ih =>
      rw [List.mapM_cons]
      exact (hf a).bind fun _ => ih.behind fun _ => steps_adds.pure _

end Adds

/-! ## Functions, methods and classes -/

mutual
theorem paths_eq (enclosing : List String) (f : Tree.Function) :
    Closure.paths enclosing f = (f.positions enclosing).map Tree.Position.note := by
  match f with
  | ⟨name, params, ret, decls, body, children, loc⟩ =>
      rw [Closure.paths, Tree.Function.positions, allPaths_eq, List.map_cons]
      rfl

theorem allPaths_eq (enclosing : List String) (fs : List Tree.Function) :
    Closure.allPaths enclosing fs =
      (Tree.Function.positionsAll enclosing fs).map Tree.Position.note := by
  match fs with
  | [] => rfl
  | f :: fs =>
      rw [Closure.allPaths, Tree.Function.positionsAll, paths_eq, allPaths_eq, List.map_append]
end

theorem adds_recordPaths (enclosing : List String) (f : Tree.Function) :
    Adds ((f.positions enclosing).map Tree.Position.note) (recordPaths enclosing f) := by
  rw [← paths_eq]
  exact fun s => ⟨[], _, List.prefix_rfl, fun _ _ => rfl,
    Catalog.setClosures_eq_note (Closure.paths enclosing f) s.catalog⟩

theorem adds_prologue (enclosing : List String) (fs : List Tree.Function) :
    Adds ((Tree.Function.positionsAll enclosing fs).map Tree.Position.note)
      (prologue enclosing fs) := by
  induction fs with
  | nil => exact steps_adds.pure _
  | cons f fs ih =>
      rw [Tree.Function.positionsAll, List.map_append]
      refine (adds_recordPaths enclosing f).bind fun _ => ?_
      refine (stepwise_generate steps_adds _).before fun _ => ?_
      refine (stepwise_stmt steps_adds none _).before fun _ => ?_
      exact ih.behind fun _ => steps_adds.pure _

theorem adds_method (className : String) (f : Tree.Function) :
    Adds ((Tree.Function.positionsAll [className, f.name] f.children).map Tree.Position.note)
      (method className f) := by
  refine (steps_adds.fresh _).before fun _ => (adds_prologue _ _).behind fun _ => ?_
  exact (stepwise_stmts steps_adds none f.body).before fun _ => steps_adds.pure _

theorem adds_classDecl (c : Tree.Class) :
    Adds (c.positions.map Tree.Position.note) (classDecl c) := by
  rw [Tree.Class.positions, List.map_flatMap]
  exact (adds_mapM (adds_method c.name) c.methods).behind fun _ => steps_adds.pure _

/-! ## Programs -/

/-- All that is built before note is taken of the global variables. -/
def beginning (p : Tree.Program) : Build (Label × List Flow.Class × List Flow.Class × Code) := do
  let label ← fresh "$startProg"
  p.functions.forM (recordPaths [])
  let closures := Closure.ofFunctions [] p.functions
  closures.forM fun c => enterClosure c.name c.params
  p.classes.forM enterClass
  let closureClasses ← closures.mapM closure
  let classes ← p.classes.mapM classDecl
  let code ← stmts none (p.functions.map (Closure.construction []) ++ p.stmts)
  return (label, closureClasses, classes, code)

def globalNames (p : Tree.Program) : List String :=
  p.decls.map (·.name) ++ p.functions.map (·.name)

def assembled (p : Tree.Program) (label : Label) (closureClasses classes : List Flow.Class)
    (code : Code) (generated : List Flow.Class) : Flow.Program where
  decls := code.temporaries ++ (p.functions.map (Closure.binding []) ++ p.decls).map decl
  classes := closureClasses ++ classes ++ generated
  body := code.blocks label

theorem adds_beginning (p : Tree.Program) : Adds p.notes (beginning p) := by
  have hfunctions : Adds ((Tree.Function.positionsAll [] p.functions).map Tree.Position.note)
      (p.functions.forM (recordPaths [])) := by
    rw [Tree.Function.positionsAll_eq, List.map_flatMap]
    exact adds_forM (adds_recordPaths []) p.functions
  have hclasses : Adds ((p.classes.flatMap Tree.Class.positions).map Tree.Position.note)
      (p.classes.mapM classDecl) := by
    rw [List.map_flatMap]
    exact adds_mapM adds_classDecl p.classes
  have hclosure := stepwise_closure steps_adds
  rw [Tree.Program.notes, Tree.Program.positions, List.map_append]
  refine (steps_adds.fresh _).before fun _ => hfunctions.bind fun _ => ?_
  refine (stepwise_forM steps_adds _ fun _ _ => steps_adds.enterClosure _ _).before fun _ => ?_
  refine (stepwise_forM steps_adds p.classes fun _ _ => adds_enter _ _ _).before fun _ => ?_
  refine (stepwise_mapM steps_adds hclosure _).before fun _ => hclasses.behind fun _ => ?_
  exact (stepwise_stmts steps_adds none _).before fun _ => steps_adds.pure _

theorem runOn_program (p : Tree.Program) (s : State) :
    runOn (program p) s = match runOn (beginning p) s with
      | (.ok (label, closureClasses, classes, code), s') =>
        (.ok (assembled p label closureClasses classes code s'.generated),
          { s' with catalog := s'.catalog.note [] (globalNames p) })
      | (.error fault, s') => (.error fault, s') := by
  have hsplit : program p = beginning p >>= fun (label, closureClasses, classes, code) => do
      update fun c => (globalNames p).foldl Catalog.addGlobal c
      return assembled p label closureClasses classes code (← get).generated := by
    simp only [program, beginning, bind_assoc, pure_bind]
    rfl
  rw [hsplit, runOn_bind]
  cases runOn (beginning p) s with
  | mk ended s' =>
      cases ended with
      | error fault => rfl
      | ok built =>
          obtain ⟨label, closureClasses, classes, code⟩ := built
          have hnote := Catalog.addGlobals_eq_note (globalNames p) s'.catalog
          exact congrArg (fun c => (Except.ok (assembled p label closureClasses classes code
            s'.generated), { s' with catalog := c })) hnote

/-- A program whose bodies are built is flattened: its labels pass the check. -/
theorem flatten_fst (catalog : Catalog) (p : Tree.Program) :
    (flatten catalog p).1 = (runOn (program p) ⟨catalog, .empty, []⟩).1 := by
  rw [flatten_eq]
  cases hrun : runOn (program p) ⟨catalog, .empty, []⟩ with
  | mk ended s' =>
      cases ended with
      | error fault => rfl
      | ok flow =>
          have hflow := (flattens_program hrun).wellFormed rfl
          dsimp only [bind, Except.bind]
          rw [hflow.checkLabels]
          rfl

/-- The global variables are noted last, and from there on nothing fails. -/
theorem flatten_beginning (catalog : Catalog) (p : Tree.Program) :
    flatten catalog p = match runOn (beginning p) ⟨catalog, .empty, []⟩ with
      | (.ok (label, closureClasses, classes, code), s') =>
        (.ok (assembled p label closureClasses classes code s'.generated),
          s'.catalog.note [] (globalNames p))
      | (.error fault, s') => (.error fault, s'.catalog) := by
  refine (Prod.ext (flatten_fst catalog p) rfl : flatten catalog p =
    ((runOn (program p) _).1, (runOn (program p) _).2.catalog)).trans ?_
  rw [runOn_program]
  cases runOn (beginning p) ⟨catalog, .empty, []⟩ with
  | mk ended s' => cases ended <;> rfl

/-! ## Notes that stay -/

def globalsMade (p : Tree.Program) : Except Fault Flow.Program → List String
  | .ok _ => globalNames p
  | .error _ => []

/-- A program adds classes and notes to the catalog, and nothing else. -/
theorem exists_flatten_snd (catalog : Catalog) (p : Tree.Program) :
    ∃ entered noted, noted <+: p.notes ∧
      (∀ flow, (flatten catalog p).1 = .ok flow → noted = p.notes) ∧
      (flatten catalog p).2 =
        (withClasses catalog entered).note noted (globalsMade p (flatten catalog p).1) := by
  obtain ⟨entered, noted, hprefix, hall, hcatalog⟩ :=
    adds_beginning p ⟨catalog, .empty, []⟩
  rw [flatten_beginning]
  cases hrun : runOn (beginning p) ⟨catalog, .empty, []⟩ with
  | mk ended s' =>
      rw [hrun] at hall hcatalog
      change s'.catalog = _ at hcatalog
      cases ended with
      | error fault =>
          refine ⟨entered, noted, hprefix, fun flow h => ?_, hcatalog⟩
          exact absurd h (by simp)
      | ok built =>
          refine ⟨entered, noted, hprefix, fun _ _ => hall built rfl, ?_⟩
          change s'.catalog.note [] (globalNames p) = _
          rw [hcatalog, Catalog.note_note, List.append_nil]
          rfl

/-- Where no name has a dot, a function that is noted in the course of a program, or was before, has
its own class. -/
theorem closure?_note {p q : Tree.Program} (hp : p.DotFree) (hq : q.DotFree)
    {note : String × String} (hnote : note ∈ p.notes) {noted : List (String × String)}
    (hnoted : noted ⊆ q.notes) (h : note ∈ noted ∨ catalog.closure? note.1 = some note.2) :
    ((withClasses catalog entered).note noted names).closure? note.1 = some note.2 := by
  refine NameMap.get?_foldl_insert_of_agree
    (fun pair hpair heq => hp.agree hq hnote (hnoted hpair) heq) (h.imp_right fun h => ?_)
  rwa [(sameNotes_withClasses catalog entered).closures]

theorem closure?_catalogAfter {p : Tree.Program} (hp : p.DotFree) {later : List Tree.Program}
    (hlater : ∀ q ∈ later, q.DotFree) {note : String × String} (hnote : note ∈ p.notes)
    (h : catalog.closure? note.1 = some note.2) :
    (catalogAfter catalog later).closure? note.1 = some note.2 := by
  induction later generalizing catalog with
  | nil => exact h
  | cons q later ih =>
      obtain ⟨hq, hlater⟩ := List.forall_mem_cons.1 hlater
      obtain ⟨entered, noted, hprefix, -, hcatalog⟩ := exists_flatten_snd catalog q
      have hkept : (flatten catalog q).2.closure? note.1 = some note.2 := by
        rw [hcatalog]
        exact closure?_note hp hq hnote hprefix.subset (.inr h)
      exact ih hlater hkept

/-- Behind a program that is flattened, all its functions are known by their classes. -/
theorem closure?_flatten {p : Tree.Program} {flow : Flow.Program} {catalog' : Catalog}
    (hp : p.DotFree) (hflow : flatten catalog p = (.ok flow, catalog')) {x : Tree.Position}
    (hx : x ∈ p.positions) : catalog'.closure? x.path = some x.className := by
  obtain ⟨entered, noted, -, hall, hcatalog⟩ := exists_flatten_snd catalog p
  rw [hflow] at hall hcatalog
  obtain rfl := hall flow rfl
  have hnote : x.note ∈ p.notes := List.mem_map_of_mem hx
  change catalog' = _ at hcatalog
  rw [hcatalog]
  exact closure?_note hp hp hnote (List.Subset.refl _) (.inl hnote)

/-- What a program leaves in the catalog, whether it is flattened or refused: some classes entered
and some functions noted, and nothing taken away. -/
structure Additions (catalog : Catalog) (p : Tree.Program) (entered : List Signature)
    (noted : List (String × String)) : Prop where
  eq : (flatten catalog p).2 =
    (withClasses catalog entered).note noted (globalsMade p (flatten catalog p).1)
  dispatch : catalog.dispatch <+: (flatten catalog p).2.dispatch
  starts : ∀ name slot, catalog.startOf name = .ok slot →
    (flatten catalog p).2.startOf name = .ok slot
  layouts : ∀ name layout, catalog.layoutOf name = .ok layout →
    (flatten catalog p).2.layoutOf name = .ok layout
  globals : ∀ name, catalog.isGlobal name = true → (flatten catalog p).2.isGlobal name = true
  refused : ∀ fault, (flatten catalog p).1 = .error fault →
    (flatten catalog p).2.globals = catalog.globals
  complete : ∀ e ∈ entered, (flatten catalog p).2.Complete e.name
  noted_prefix : noted <+: p.notes
  noted_eq : ∀ flow, (flatten catalog p).1 = .ok flow → noted = p.notes
  /-- A function keeps the class that it is noted with, whatever comes later. -/
  lasts : p.DotFree → ∀ later, (∀ q ∈ later, q.DotFree) → ∀ note ∈ noted,
    (catalogAfter (flatten catalog p).2 later).closure? note.1 = some note.2

/-- Flattening a program only adds to the catalog, also where it stops half way.  What was there
stays: entries of the dispatch table, slots, layouts and global variables.  A class that is entered
gets both a layout and a slot, a program that is refused makes no global variables, and where no
names have dots, functions keep the classes that they are noted with. -/
theorem flatten_only_adds (catalog : Catalog) (p : Tree.Program) :
    ∃ entered noted, Additions catalog p entered noted := by
  obtain ⟨entered, noted, hprefix, hall, hcatalog⟩ := exists_flatten_snd catalog p
  have hextends := extends_flatten catalog p
  have hglobals : (withClasses catalog entered).globals = catalog.globals :=
    (sameNotes_withClasses catalog entered).globals
  refine ⟨entered, noted, hcatalog, hextends.dispatch, hextends.starts, hextends.layouts,
    fun name h => ?_, fun fault h => ?_, fun e he => ?_, hprefix, hall,
    fun hp later hlater note hnote => ?_⟩
  · rw [hcatalog]
    refine (NameSet.contains_foldl_add _ _ name).2 (.inr ?_)
    rwa [hglobals]
  · rw [hcatalog, h]
    exact hglobals
  · rw [hcatalog]
    exact (complete_withClasses catalog entered e he).extends (Catalog.extends_note _ _ _)
  · have hmem := hprefix.subset hnote
    refine closure?_catalogAfter hp hlater hmem ?_
    rw [hcatalog]
    exact closure?_note hp hp hmem hprefix.subset (.inl hnote)

/-- A program with a function inside another one that makes an object of a class that there is
not. -/
def refusedProgram : Tree.Program :=
  ⟨[⟨"turn", [], .int, [], [], [nextFunction], here⟩], [], [],
    [.expr here (.construct ⟨.object "Missing", here⟩ "Missing")]⟩

/-- Behind a program that is refused, the function in the method of the program before is still
known by its class.  The functions of the refused program are noted, too, and their classes have
slots, but they are no global variables. -/
theorem flatten_only_adds_refused :
    let first := (flatten .empty countProgram).2
    let left := (flatten first refusedProgram).2
    (flatten first refusedProgram).1.toOption.isNone = true ∧
      left.starts.contains "turn_$next_$closure$" = true ∧ left.isGlobal "next" = true ∧
      left.isGlobal "turn" = false ∧
      left.closure? "turn.next" = some "turn_$next_$closure$" ∧
      left.closure? "Counter.step.next" = some "Counter_$step_$next_$closure$" := by
  obtain ⟨entered, noted, hadditions⟩ := flatten_only_adds .empty countProgram
  have hok : (flatten .empty countProgram).1.toOption.isSome = true := by decide +kernel
  have hall := hadditions.noted_eq _ (congrArg Prod.fst (flatten_eq_blocksOf hok))
  have hmem : ("Counter.step.next", "Counter_$step_$next_$closure$") ∈ noted := by
    rw [hall]
    decide +kernel
  have hkept := hadditions.lasts (by decide) [refusedProgram] (by decide) _ hmem
  have hleft : (flatten (flatten .empty countProgram).2 refusedProgram).1.toOption.isNone = true ∧
      let left := (flatten (flatten .empty countProgram).2 refusedProgram).2
      left.starts.contains "turn_$next_$closure$" = true ∧ left.isGlobal "next" = true ∧
        left.isGlobal "turn" = false ∧
        left.closure? "turn.next" = some "turn_$next_$closure$" := by decide +kernel
  obtain ⟨hrefused, hslot, hglobal, hnot, hnoted⟩ := hleft
  exact ⟨hrefused, hslot, hglobal, hnot, hnoted, hkept⟩

end Midend.Linear
