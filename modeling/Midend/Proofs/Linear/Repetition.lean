import Midend.Proofs.Linear.Meaning
import Midend.Proofs.Linear.Stepwise
import Midend.Session
/-!
# Compiling a program again

Whatever building has asked of the catalog, it gets the same answer from every catalog that has come
of it, and classes that it has entered are there already.  So building again from such a catalog
draws the same names and ends in the same way (`Repeats`): all that it does to the catalog is to
take the same notes of functions and of global variables, which are there already too.

Therefore a program that has been compiled is compiled to the same blocks again, and the catalog
stays as it is (`compile_again`).
-/

namespace Midend.Catalog

/-- The catalog with some notes taken: of the classes that stand for functions, and of global
variables. -/
def note (paths : List (String × String)) (names : List String) (c : Catalog) : Catalog where
  globals := names.foldl NameSet.add c.globals
  layouts := c.layouts
  starts := c.starts
  closures := paths.foldl (fun closures path => closures.insert path.1 path.2) c.closures
  dispatch := c.dispatch

variable {c c' : Catalog} {paths paths' : List (String × String)} {names names' : List String}

theorem setClosures_eq_note (paths : List (String × String)) (c : Catalog) :
    paths.foldl (fun c (path, name) => c.setClosure path name) c = c.note paths [] := by
  induction paths generalizing c with
  | nil => rfl
  | cons path paths ih => exact ih (c.setClosure path.1 path.2)

theorem addGlobals_eq_note (names : List String) (c : Catalog) :
    names.foldl addGlobal c = c.note [] names := by
  induction names generalizing c with
  | nil => rfl
  | cons name names ih => exact ih (c.addGlobal name)

theorem note_note : (c.note paths names).note paths' names' =
    c.note (paths ++ paths') (names ++ names') := by
  unfold note
  simp only [List.foldl_append]

theorem extends_note (c : Catalog) (paths : List (String × String)) (names : List String) :
    c.Extends (c.note paths names) := extends_of_eq rfl rfl rfl

structure SameNotes (c c' : Catalog) : Prop where
  globals : c'.globals = c.globals
  closures : c'.closures = c.closures

theorem SameNotes.note (h : c.SameNotes c') :
    (c.note paths names).SameNotes (c'.note paths names) := by
  unfold Catalog.note
  rw [h.globals, h.closures]
  exact ⟨rfl, rfl⟩

theorem SameNotes.trans {c'' : Catalog} (h : c.SameNotes c') (h' : c'.SameNotes c'') :
    c.SameNotes c'' :=
  ⟨h'.globals.trans h.globals, h'.closures.trans h.closures⟩

theorem SameNotes.note_eq_self (h : (c.note paths names).SameNotes c') :
    c'.note paths names = c' := by
  have hglobals : names.foldl NameSet.add c'.globals = c'.globals := by
    rw [h.globals]
    exact NameSet.foldl_add_again names c.globals
  have hclosures : paths.foldl (fun closures path => closures.insert path.1 path.2) c'.closures =
      c'.closures := by
    rw [h.closures]
    exact NameMap.foldl_insert_again paths c.closures
  unfold Catalog.note
  rw [hglobals, hclosures]

end Midend.Catalog

namespace Midend.Linear

open Build

/-! ## Classes that are there already -/

theorem exists_startOf_addMethods (c : Catalog) (name : String) (methods : List (String × Nat)) :
    ∃ slot, (c.addMethods name methods).startOf name = .ok slot := by
  unfold Catalog.addMethods
  split
  · rename_i hstarts
    obtain ⟨slot, hslot⟩ := Option.isSome_iff_exists.1 hstarts
    exact ⟨slot, Catalog.startOf_eq_ok.2 hslot⟩
  · exact ⟨_, Catalog.startOf_eq_ok.2 (NameMap.get?_insert_self _ _ _)⟩

theorem exists_layoutOf_withClass (c : Catalog) (name : String) (fields : List Tree.Decl)
    (methods : List (String × Nat)) :
    ∃ layout, (withClass c name fields methods).layoutOf name = .ok layout := by
  unfold withClass
  split
  · rename_i hhas
    obtain ⟨layout, hlayout⟩ := Option.isSome_iff_exists.1 hhas
    exact ⟨layout, (Catalog.extends_addMethods c name methods).layouts name layout
      (Catalog.layoutOf_eq_ok.2 hlayout)⟩
  · have hlayout : (c.addLayout name fields).layoutOf name = .ok (Layout.ofFields fields) :=
      Catalog.layoutOf_eq_ok.2 (NameMap.get?_insert_self _ _ _)
    exact ⟨_, (Catalog.extends_addMethods _ name methods).layouts name _ hlayout⟩

theorem sameNotes_withClass (c : Catalog) (name : String) (fields : List Tree.Decl)
    (methods : List (String × Nat)) : c.SameNotes (withClass c name fields methods) := by
  unfold withClass Catalog.addMethods Catalog.addLayout
  split <;> split <;> exact ⟨rfl, rfl⟩

theorem withClass_of_known {c : Catalog} {name : String} {fields : List Tree.Decl}
    {methods : List (String × Nat)} {layout : Layout} {slot : Nat}
    (hlayout : c.layoutOf name = .ok layout) (hslot : c.startOf name = .ok slot) :
    withClass c name fields methods = c := by
  have hlayout : c.hasLayout name = true := by
    rw [Catalog.hasLayout, NameMap.contains, Catalog.layoutOf_eq_ok.1 hlayout]
    rfl
  have hstarts : c.starts.contains name = true := by
    rw [NameMap.contains, Catalog.startOf_eq_ok.1 hslot]
    rfl
  unfold withClass Catalog.addMethods
  rw [if_pos hlayout, if_pos hstarts]

/-! ## Building again -/

def State.over (s : State) (c : Catalog) : State := { s with catalog := c }

/-- Building over a catalog that has come of it ends in the same way, and only takes the same notes
again. -/
def Repeats {α : Type} (act : Build α) : Prop :=
  ∀ s a s', Builds act s a s' → s.catalog.Extends s'.catalog ∧
    ∃ paths names, (s.catalog.note paths names).SameNotes s'.catalog ∧
      ∀ c, s'.catalog.Extends c → Builds act (s.over c) a (s'.over (c.note paths names))

section Steps

variable {α β : Type} {act : Build α} {next : α → Build β}

/-- What leaves the catalog alone and does not depend on it. -/
theorem repeats_of_stays (h : ∀ s a s', Builds act s a s' → s'.catalog = s.catalog ∧
      ∀ c, s.catalog.Extends c → Builds act (s.over c) a (s'.over c)) : Repeats act := by
  intro s a s' hact
  obtain ⟨hcatalog, hagain⟩ := h s a s' hact
  refine ⟨hcatalog ▸ .refl _, [], [], ⟨congrArg _ hcatalog, congrArg _ hcatalog⟩, fun c hc => ?_⟩
  exact hagain c (hcatalog ▸ hc)

theorem Repeats.bind (hact : Repeats act) (hnext : ∀ a, Repeats (next a)) :
    Repeats (act >>= next) := by
  intro s b s' h
  obtain ⟨a, s₁, hfirst, hrest⟩ := h.bind_inv
  obtain ⟨hextends, paths, names, hnotes, hagain⟩ := hact s a s₁ hfirst
  obtain ⟨hextends', paths', names', hnotes', hagain'⟩ := hnext a s₁ b s' hrest
  refine ⟨hextends.trans hextends', paths ++ paths', names ++ names', ?_, fun c hc => ?_⟩
  · rw [← Catalog.note_note]
    exact hnotes.note.trans hnotes'
  · rw [← Catalog.note_note]
    have hfirst' := hagain c (hextends'.trans hc)
    exact (runOn_bind_ok hfirst').trans
      (hagain' (c.note paths names) (hc.trans (Catalog.extends_note c paths names)))

theorem repeats_ask {look : Catalog → Except Fault α} (h : Asked look) : Repeats (ask look) := by
  refine repeats_of_stays fun s a s' hlook => ?_
  obtain ⟨hok, rfl⟩ := builds_ask hlook
  refine ⟨rfl, fun c hc => Prod.ext (h.lasts s.catalog c a hc hok) rfl⟩

theorem repeats_enter (name : String) (fields : List Tree.Decl) (methods : List (String × Nat)) :
    Repeats (enter name fields methods) := by
  intro s a s' h
  obtain rfl := builds_enter h
  obtain ⟨layout, hlayout⟩ := exists_layoutOf_withClass s.catalog name fields methods
  obtain ⟨slot, hslot⟩ : ∃ slot,
      (withClass s.catalog name fields methods).startOf name = .ok slot :=
    exists_startOf_addMethods _ name methods
  refine ⟨extends_withClass _ _ _ _, [], [], sameNotes_withClass _ _ _ _, fun c hc => ?_⟩
  have hsame : withClass c name fields methods = c :=
    withClass_of_known (hc.layouts name layout hlayout) (hc.starts name slot hslot)
  exact congrArg (fun c => (Except.ok a, s.over c)) hsame

theorem repeats_note {change : Catalog → Catalog} {paths : List (String × String)}
    {names : List String} (hchange : ∀ c, change c = c.note paths names) :
    Repeats (update change) := by
  intro s a s' h
  obtain rfl := builds_update h
  have hsame : change s.catalog = s.catalog.note paths names := hchange s.catalog
  refine ⟨hsame ▸ Catalog.extends_note s.catalog paths names, paths, names, ?_, fun c _ => ?_⟩
  · exact hsame ▸ ⟨rfl, rfl⟩
  · exact congrArg (fun c => (Except.ok a, s.over c)) (hchange c)

end Steps

theorem stepwise_repeats (classes : List Tree.Class) : Stepwise classes Repeats where
  pure a := repeats_of_stays fun s b s' h => by
    obtain ⟨rfl, rfl⟩ := builds_pure h
    exact ⟨rfl, fun _ _ => rfl⟩
  bind := Repeats.bind
  throw _ := fun _ _ _ h => nomatch (Prod.mk.inj h).1
  fresh base _ := repeats_of_stays fun s name s' h => by
    obtain ⟨hname, rfl⟩ := Prod.mk.inj h
    obtain rfl := Except.ok.inj hname
    exact ⟨rfl, fun _ _ => rfl⟩
  ask := repeats_ask
  enterClosure _ _ := repeats_enter _ _ _
  enterClass _ := repeats_enter _ _ _
  recordPaths enclosing f := repeats_note (Catalog.setClosures_eq_note (Closure.paths enclosing f))
  addGlobals names := repeats_note (Catalog.addGlobals_eq_note names)
  keep k := repeats_of_stays fun s a s' h => by
    obtain rfl := builds_keep h
    exact ⟨rfl, fun _ _ => rfl⟩
  read hf := repeats_of_stays fun s a s' h => by
    obtain ⟨ha, rfl⟩ := Prod.mk.inj h
    exact ⟨rfl, fun c _ => Prod.ext ((congrArg Except.ok (hf s c)).trans ha) rfl⟩

/-! ## Programs -/

variable {catalog catalog' : Catalog} {p : Tree.Program} {flow : Flow.Program}

theorem flatten_again (h : flatten catalog p = (.ok flow, catalog')) :
    flatten catalog' p = (.ok flow, catalog') := by
  obtain ⟨hlabels, st, hrun, rfl⟩ := flatten_eq_ok_iff.1 h
  obtain ⟨-, paths, names, hnotes, hagain⟩ :=
    stepwise_program (stepwise_repeats p.classes) ⟨catalog, .empty, []⟩ flow st hrun
  have hrun' := hagain st.catalog (.refl _)
  rw [hnotes.note_eq_self] at hrun'
  exact flatten_eq_ok_iff.2 ⟨hlabels, st, hrun', rfl⟩

/-- A program that has been compiled is compiled to the same blocks again from the catalog that this
left, and leaves the same catalog. -/
theorem compile_again (fuel : Nat) (options : Options) (catalog catalog' : Catalog)
    (p : Tree.Program) (flow : Flow.Program)
    (h : compile fuel catalog options p = (.ok flow, catalog')) :
    compile fuel catalog' options p = (.ok flow, catalog') := by
  unfold compile at h ⊢
  cases hflatten : flatten catalog p with
  | mk ended left =>
      rw [hflatten] at h
      cases ended with
      | error fault => exact nomatch (Prod.mk.inj h).1
      | ok blocks =>
          -- the optimizer sees the same blocks and the same catalog as before
          obtain rfl : left = catalog' := (Prod.mk.inj h).2
          rw [flatten_again hflatten]
          exact h

/-! ## A class with a function and a lambda inside -/

def here : Location := ⟨1, 1, 0⟩

def nextFunction : Tree.Function :=
  ⟨"next", [⟨"x", .int⟩], .int, [], [.ret here (.id ⟨.int, here⟩ "x")], [], here⟩

/-- A method that sets a field and returns a lambda, with a function inside. -/
def stepMethod : Tree.Function :=
  ⟨"step", [⟨selfName, .object "Counter"⟩], .callable [.int] .int, [],
    [.fieldAssign here (.id ⟨.object "Counter", here⟩ selfName) "count"
        (.literal ⟨.int, here⟩ (.num 1)),
      .ret here (.lambda ⟨.callable [.int] .int, here⟩ ["x"] (.id ⟨.int, here⟩ "x"))],
    [nextFunction], here⟩

def counterClass (fields : List Tree.Decl) : Tree.Class :=
  ⟨"Counter", fields,
    [⟨initName, [⟨selfName, .object "Counter"⟩], .none, [], [], [], here⟩, stepMethod]⟩

def counterProgram (fields : List Tree.Decl) : Tree.Program :=
  ⟨[nextFunction], [⟨"c", .object "Counter", .none⟩], [counterClass fields],
    [.assign here "c" (.construct ⟨.object "Counter", here⟩ "Counter")]⟩

theorem compile_again_counter :
    ∃ flow catalog,
      compile 100 .empty .standard (counterProgram [⟨"count", .int, .num 0⟩]) =
        (.ok flow, catalog) ∧
      compile 100 catalog .standard (counterProgram [⟨"count", .int, .num 0⟩]) =
        (.ok flow, catalog) := by
  have hok : (compile 100 .empty .standard
      (counterProgram [⟨"count", .int, .num 0⟩])).1.toOption.isSome = true := by decide +kernel
  cases hcompile : compile 100 .empty .standard (counterProgram [⟨"count", .int, .num 0⟩]) with
  | mk ended catalog =>
      rw [hcompile] at hok
      cases ended with
      | error stop => exact nomatch hok
      | ok flow =>
          exact ⟨flow, catalog, rfl, compile_again 100 .standard .empty catalog _ flow hcompile⟩

end Midend.Linear
