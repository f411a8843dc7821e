import Midend.Proofs.Linear.Layouts
/-!
# Dispatch tables

Classes are entered into the catalog at three different moments: all that have a name at the top
level before any body is flattened, the functions nested in a method before its code, a lambda where
it stands.  Each of them is a class of the block program in the end (`FlattensProgram.enrolled`).
So where the names of these classes are distinct and new, the entries of the classes fill the new
part of the dispatch table without gaps, and the word in an object leads to the entries of its own
class (`flatten_dispatch`).
-/

namespace Midend.Flow

def Method.entry (m : Method) : DispatchEntry := ⟨m.name, m.params.length⟩

namespace Class

/-- The methods that a dispatch table has entries for: all but the constructor. -/
def dispatched (c : Class) : List Method :=
  c.methods.filter fun m => m.name ≠ methodName c.name initName

def entries (c : Class) : List DispatchEntry := c.dispatched.map Method.entry

def IsClosure (c : Class) : Prop :=
  ∃ init apply, c.methods = [init, apply] ∧ init.name = methodName c.name initName ∧
    apply.name = methodName c.name applyName

end Class

end Midend.Flow

namespace Midend

theorem methodName_right_injective (className : String) :
    Function.Injective (methodName className) := by
  intro method method' h
  exact (String.append_right_inj _).1 h

/-! ## Tables -/

/-- The part of a catalog that indirect calls go by. -/
structure Table where
  starts : NameMap Nat
  entries : List DispatchEntry

abbrev Listing := String × List DispatchEntry

namespace Table

/-- The table with the entries of a class.  A class that is there already keeps those it has. -/
def add (t : Table) (l : Listing) : Table :=
  if t.starts.contains l.1 then t else ⟨t.starts.insert l.1 t.entries.length, t.entries ++ l.2⟩

variable {t : Table} {roster : List Listing} {l : Listing} {name : String} {slot : Nat}

theorem add_of_new (h : t.starts.contains l.1 = false) :
    t.add l = ⟨t.starts.insert l.1 t.entries.length, t.entries ++ l.2⟩ :=
  if_neg (Bool.eq_false_iff.1 h)

theorem starts_add (h : t.starts.get? name = some slot) :
    (t.add l).starts.get? name = some slot := by
  unfold add
  split
  · exact h
  · rename_i hnew
    have hne : name ≠ l.1 := by
      rintro rfl
      exact hnew (by rw [NameMap.contains, h]; rfl)
    exact (NameMap.get?_insert _ _ _ _).trans ((if_neg hne).trans h)

theorem starts_foldl_add (h : t.starts.get? name = some slot) :
    (roster.foldl add t).starts.get? name = some slot := by
  induction roster generalizing t with
  | nil => exact h
  | cons l roster ih => exact ih (starts_add h)

/-- New classes with distinct names lie one behind the other, each at the slot behind the entries of
those before it. -/
theorem foldl_add_of_new (hnodup : (roster.map (·.1)).Nodup)
    (hnew : ∀ l ∈ roster, t.starts.contains l.1 = false) :
    (roster.foldl add t).entries = t.entries ++ roster.flatMap (·.2) ∧
      ∀ before l behind, roster = before ++ l :: behind →
        (roster.foldl add t).starts.get? l.1 =
          some (t.entries.length + (before.flatMap (·.2)).length) := by
  induction roster generalizing t with
  | nil => exact ⟨(List.append_nil _).symm, fun before l behind h => absurd h (by simp)⟩
  | cons first roster ih =>
      obtain ⟨hfirst, hrest⟩ := List.forall_mem_cons.1 hnew
      have hnot : first.1 ∉ roster.map (·.1) := (List.nodup_cons.1 hnodup).1
      have hadd := add_of_new hfirst
      have hnew' : ∀ l ∈ roster, (t.add first).starts.contains l.1 = false := by
        intro l hl
        have hmem : l.1 ∈ roster.map (·.1) := List.mem_map_of_mem hl
        have hne : l.1 ≠ first.1 := fun heq => hnot (heq ▸ hmem)
        rw [hadd, NameMap.contains, NameMap.get?_insert, if_neg hne]
        exact hrest l hl
      obtain ⟨hentries, hstarts⟩ := ih (List.nodup_cons.1 hnodup).2 hnew'
      refine ⟨?_, fun before l behind hsplit => ?_⟩
      · rw [List.foldl_cons, hentries, hadd, List.append_assoc, List.flatMap_cons]
      · rw [List.foldl_cons]
        cases before with
        | nil =>
            obtain ⟨rfl, -⟩ := List.cons.inj hsplit
            refine starts_foldl_add ?_
            rw [hadd, NameMap.get?_insert, if_pos rfl]
            rfl
        | cons other before =>
            obtain ⟨rfl, hbehind⟩ := List.cons.inj hsplit
            rw [hstarts before l behind hbehind, hadd, List.flatMap_cons]
            simp only [List.length_append, Nat.add_assoc]

end Table

namespace Catalog

open Linear

def table (c : Catalog) : Table := ⟨c.starts, c.dispatch⟩

variable {c c' : Catalog} {name : String} {fields : List Tree.Decl} {methods : List (String × Nat)}

theorem table_addMethods : (c.addMethods name methods).table =
    c.table.add (name, entriesOf name methods) := by
  unfold addMethods Table.add table
  split <;> rfl

theorem table_withClass : (withClass c name fields methods).table =
    c.table.add (name, entriesOf name methods) := by
  unfold withClass
  rw [table_addMethods]
  split <;> rfl

theorem table_eq (hstarts : c'.starts = c.starts) (hdispatch : c'.dispatch = c.dispatch) :
    c'.table = c.table := by
  unfold table
  rw [hstarts, hdispatch]

/-- The constructor, which has no entry, is known by its name. -/
theorem entriesOf_eq_filter (name : String) (methods : List (String × Nat)) :
    entriesOf name methods = (methods.map fun m => ⟨methodName name m.1, m.2⟩).filter
      fun entry => entry.name ≠ methodName name initName := by
  unfold entriesOf
  rw [List.filter_map]
  refine congrArg _ (List.filter_congr fun m _ => ?_)
  simp [(methodName_right_injective name).eq_iff]

end Catalog

end Midend

namespace Midend.Flow.Class

def listing (c : Class) : Listing := (c.name, c.entries)

theorem entries_eq_filter (c : Class) : c.entries =
    (c.methods.map Method.entry).filter fun entry => entry.name ≠ methodName c.name initName := by
  unfold entries dispatched
  rw [List.filter_map]
  rfl

end Midend.Flow.Class

namespace Midend.Linear

open Midend.Flow (Block Stmt Value construction)
open Build

/-! ## Classes are entered -/

def Closure.listing (c : Closure) : Listing :=
  (c.name, Catalog.entriesOf c.name [(initName, 1), (applyName, c.params.length)])

def listingOf (c : Tree.Class) : Listing :=
  (c.name, Catalog.entriesOf c.name (c.methods.map fun m => (m.name, m.params.length)))

section Entering

variable {s s' : State} {roster : List Listing}

theorem table_recordPaths {enclosing : List String} {f : Tree.Function}
    (h : Builds (recordPaths enclosing f) s ⟨⟩ s') : s'.catalog.table = s.catalog.table := by
  obtain rfl := builds_update h
  obtain ⟨-, hstarts, hdispatch⟩ :=
    Catalog.setClosures_eq (Closure.paths enclosing f) s.catalog
  exact Catalog.table_eq hstarts hdispatch

theorem table_enterClosure {name : String} {params : List Parameter} {c : Closure} {a : Unit}
    (hname : c.name = name) (hparams : c.params = params)
    (h : Builds (enterClosure name params) s a s') :
    s'.catalog.table = s.catalog.table.add c.listing := by
  obtain rfl := builds_enter h
  rw [Catalog.table_withClass, Closure.listing, hname, hparams]

theorem table_enterClass {c : Tree.Class} {a : Unit} (h : Builds (enterClass c) s a s') :
    s'.catalog.table = s.catalog.table.add (listingOf c) := by
  obtain rfl := builds_enter h
  exact Catalog.table_withClass

theorem table_forM {α : Type} {f : α → Build PUnit} {listings : α → List Listing}
    (hf : ∀ a s s', Builds (f a) s ⟨⟩ s' →
      s'.catalog.table = (listings a).foldl Table.add s.catalog.table)
    {as : List α} (h : Builds (as.forM f) s ⟨⟩ s') :
    s'.catalog.table = (as.flatMap listings).foldl Table.add s.catalog.table := by
  induction as generalizing s with
  | nil => exact (builds_pure h).2 ▸ rfl
  | cons a as ih =>
      obtain ⟨⟨⟩, s₁, hfirst, hrest⟩ := h.bind_inv
      rw [ih hrest, hf a s s₁ hfirst, List.flatMap_cons, List.foldl_append]

theorem table_enterClosures {cs : List Closure}
    (h : Builds (cs.forM fun c => enterClosure c.name c.params) s ⟨⟩ s') :
    s'.catalog.table = (cs.map Closure.listing).foldl Table.add s.catalog.table := by
  have henter : ∀ c s s', Builds (enterClosure c.name c.params) s ⟨⟩ s' →
      s'.catalog.table = [Closure.listing c].foldl Table.add s.catalog.table :=
    fun c s s' => table_enterClosure rfl rfl
  rw [List.map_eq_flatMap]
  exact table_forM henter h

theorem table_enterAll {p : Tree.Program} (h : Builds (enterAll p) s () s') :
    s'.catalog.table =
      ((Closure.ofFunctions [] p.functions).map Closure.listing ++ p.classes.map listingOf).foldl
        Table.add s.catalog.table := by
  obtain ⟨⟨⟩, s₁, hpaths, h⟩ := h.bind_inv
  obtain ⟨⟨⟩, s₂, hclosures, hclasses⟩ := h.bind_inv
  have hpath : ∀ f s s', Builds (recordPaths [] f) s ⟨⟩ s' →
      s'.catalog.table = ([] : List Listing).foldl Table.add s.catalog.table :=
    fun f s s' => table_recordPaths
  have hclass : ∀ c s s', Builds (enterClass c) s ⟨⟩ s' →
      s'.catalog.table = [listingOf c].foldl Table.add s.catalog.table :=
    fun c s s' => table_enterClass
  have hnone : p.functions.flatMap (fun _ => ([] : List Listing)) = [] := by simp
  rw [table_forM hclass hclasses, table_enterClosures hclosures, table_forM hpath hpaths, hnone,
    ← List.map_eq_flatMap, List.foldl_append]
  rfl

end Entering

/-! ## Classes that are entered turn up -/

/-- Between two states the classes of a roster are entered: together with those that are pending at
the first state they are the classes that turn up. -/
def Enrolls (s : State) (pending : List Closure) (classes : List Flow.Class) (s' : State) : Prop :=
  ∃ roster : List Listing, s'.catalog.table = roster.foldl Table.add s.catalog.table ∧
    (roster ++ pending.map Closure.listing).Perm (classes.map Flow.Class.listing)

theorem FlattensClosure.listing {c : Closure} {s s' : State} {cls : Flow.Class}
    {k : List Flow.Class} (h : FlattensClosure c s cls k s') : cls.listing = c.listing := by
  obtain @⟨initLabel, applyLabel, _, _, _, _, code, _, hinit, happly, hbody⟩ := h
  have hentries : (c.classOf initLabel applyLabel code).entries =
      Catalog.entriesOf c.name [(initName, 1), (applyName, c.params.length)] := by
    rw [Flow.Class.entries_eq_filter, Catalog.entriesOf_eq_filter]
    rfl
  exact congrArg (Prod.mk c.name) hentries

/-- By cases on where a class is entered. -/
theorem tracks_enrolls : Tracks Enrolls where
  refl s := ⟨[], rfl, .nil⟩
  append := by
    rintro s s₁ s' cs cs' k k' ⟨roster, htable, hperm⟩ ⟨roster', htable', hperm'⟩
    refine ⟨roster ++ roster', ?_, ?_⟩
    · rw [htable', htable, List.foldl_append]
    · rw [List.map_append, List.map_append]
      have hboth := hperm.append hperm'
      refine List.Perm.trans ?_ hboth
      rw [List.append_assoc, List.append_assoc]
      refine List.Perm.append_left roster ?_
      rw [← List.append_assoc, ← List.append_assoc]
      exact List.perm_append_comm.append_right _
  fresh h := ⟨[], congrArg Catalog.table (builds_fresh h).2.1, .nil⟩
  closure := by
    rintro s s' c cls k hflattens ⟨roster, htable, hperm⟩
    refine ⟨roster, htable, ?_⟩
    rw [List.map_nil, List.append_nil] at hperm
    rw [List.map_append, List.map_singleton, List.map_singleton, hflattens.listing]
    exact hperm.append_right _
  lambda := by
    rintro s s₁ s₂ s' name c k hname henter hc ⟨roster, htable, hperm⟩
    refine ⟨c.listing :: roster, ?_, ?_⟩
    · rw [List.foldl_cons, htable, table_enterClosure hc rfl henter]
      exact congrArg (fun catalog => roster.foldl Table.add (catalog.table.add c.listing))
        (builds_fresh hname).2.1
    · rw [List.map_nil, List.append_nil]
      exact (List.perm_append_singleton c.listing roster).symm.trans hperm
  functions := by
    rintro s s₁ s₂ s' enclosing f k hpaths henter ⟨roster, htable, hperm⟩
    refine ⟨(Closure.ofFunction enclosing f).map Closure.listing ++ roster, ?_, ?_⟩
    · rw [List.foldl_append, htable, table_enterClosures henter, table_recordPaths hpaths]
    · rw [List.map_nil, List.append_nil]
      exact List.perm_append_comm.trans hperm

theorem FlattensClosure.isClosure {c : Closure} {s s' : State} {cls : Flow.Class}
    {k : List Flow.Class} (h : FlattensClosure c s cls k s') : cls.IsClosure := by
  obtain ⟨-, -, -⟩ := h
  exact ⟨_, _, rfl, rfl, rfl⟩

theorem tracks_closures : Tracks fun _ _ k _ => ∀ cls ∈ k, cls.IsClosure where
  refl _ := fun _ h => absurd h List.not_mem_nil
  append h h' := List.forall_mem_append.2 ⟨h, h'⟩
  fresh _ := fun _ h => absurd h List.not_mem_nil
  closure hflattens h :=
    List.forall_mem_append.2 ⟨h, List.forall_mem_singleton.2 hflattens.isClosure⟩
  lambda _ _ _ h := h
  functions _ _ h := h

/-! ## Programs -/

theorem Each.map_eq {α β γ : Type} {R : α → State → β → List Flow.Class → State → Prop}
    {f : α → γ} {g : β → γ} (hR : ∀ {x s y k s'}, R x s y k s' → g y = f x) {xs : List α}
    {ys : List β} {k : List Flow.Class} {s s' : State} (h : Each R xs s ys k s') :
    ys.map g = xs.map f := by
  induction h with
  | nil s => rfl
  | cons hfirst _ ih => rw [List.map_cons, List.map_cons, hR hfirst, ih]

theorem FlattensMethod.entry {className : String} {f : Tree.Function} {s s' : State}
    {m : Flow.Method} {k : List Flow.Class} (h : FlattensMethod className f s m k s') :
    m.entry = ⟨methodName className f.name, f.params.length⟩ := by
  obtain ⟨-, -, -⟩ := h
  rfl

theorem FlattensClass.entries {c : Tree.Class} {s s' : State} {cls : Flow.Class}
    {k : List Flow.Class} (h : FlattensClass c s cls k s') : cls.name = c.name ∧
      cls.methods.map Flow.Method.entry =
        c.methods.map fun f => ⟨methodName c.name f.name, f.params.length⟩ := by
  obtain ⟨hmethods⟩ := h
  exact ⟨rfl, Each.map_eq (R := FlattensMethod c.name) (·.entry) hmethods⟩

theorem FlattensClass.listing {c : Tree.Class} {s s' : State} {cls : Flow.Class}
    {k : List Flow.Class} (h : FlattensClass c s cls k s') : cls.listing = listingOf c := by
  obtain ⟨hname, hentries⟩ := h.entries
  unfold Flow.Class.listing listingOf
  rw [Flow.Class.entries_eq_filter, Catalog.entriesOf_eq_filter, hentries, hname, List.map_map]
  rfl

/-- The classes of a block program are those that have been entered into the catalog. -/
theorem FlattensProgram.enrolled {p : Tree.Program} {s s' : State} {flow : Flow.Program}
    (h : FlattensProgram p s flow s') (hs : s.generated = []) :
    ∃ roster : List Listing, s'.catalog.table = roster.foldl Table.add s.catalog.table ∧
      roster.Perm (flow.classes.map Flow.Class.listing) := by
  obtain ⟨label, s₁, s₂, s₃, s₄, s₅, functions, classes, k₁, k₂, k₃, code, hlabel, henter,
    ⟨hclosures, hdeclared, hbody, rfl⟩, hcatalog⟩ := h.phases hs
  obtain ⟨r₁, htable₁, hperm₁⟩ := hclosures.tracked tracks_enrolls (·.tracked tracks_enrolls)
  obtain ⟨r₂, htable₂, hperm₂⟩ := hdeclared.tracked tracks_enrolls (·.tracked tracks_enrolls)
  obtain ⟨r₃, htable₃, hperm₃⟩ := hbody.tracked tracks_enrolls
  have hfunctions : functions.map Flow.Class.listing =
      (Closure.ofFunctions [] p.functions).map Closure.listing :=
    hclosures.map_eq fun h => h.listing
  have hclasses : classes.map Flow.Class.listing = p.classes.map listingOf :=
    hdeclared.map_eq fun h => h.listing
  obtain ⟨-, hstarts, hdispatch⟩ :=
    Catalog.addGlobals_eq (p.decls.map (·.name) ++ p.functions.map (·.name)) s₅.catalog
  refine ⟨(functions ++ classes).map Flow.Class.listing ++ (r₁ ++ (r₂ ++ r₃)), ?_, ?_⟩
  · rw [hcatalog, Catalog.table_eq hstarts hdispatch, htable₃, htable₂, htable₁,
      table_enterAll henter, (builds_fresh hlabel).2.1, List.map_append, hfunctions, hclasses]
    simp only [List.foldl_append]
  · simp only [Part.pending, List.map_nil, List.append_nil] at hperm₁ hperm₂ hperm₃
    have hkept := hperm₁.append (hperm₂.append hperm₃)
    simpa [List.append_assoc] using hkept.append_left ((functions ++ classes).map _)

theorem FlattensProgram.declared_or_closure {p : Tree.Program} {s s' : State} {flow : Flow.Program}
    (h : FlattensProgram p s flow s') (hs : s.generated = []) {cls : Flow.Class}
    (hcls : cls ∈ flow.classes) :
    (∃ c ∈ p.classes, ∃ t t' k, FlattensClass c t cls k t') ∨ cls.IsClosure := by
  obtain ⟨label, s₁, s₂, s₃, s₄, s₅, functions, classes, k₁, k₂, k₃, code, -, -, hphases, -⟩ :=
    h.phases hs
  rcases hphases.mem_classes.1 hcls with hmem | hmem | hmem | hmem | hmem
  · obtain ⟨c, hc, hclosure, -⟩ := (hphases.closures.entry FlattensClosure.grows).2 cls hmem
    exact .inr hclosure.isClosure
  · obtain ⟨c, hc, hclass, -⟩ := (hphases.declared.entry FlattensClass.grows).2 cls hmem
    exact .inl ⟨c, hc, _, _, _, hclass⟩
  · exact .inr (hphases.closures.tracked tracks_closures (·.tracked tracks_closures) cls hmem)
  · exact .inr (hphases.declared.tracked tracks_closures (·.tracked tracks_closures) cls hmem)
  · exact .inr (hphases.body.tracked tracks_closures cls hmem)

theorem FlattensProgram.named {p : Tree.Program} {s s' : State} {flow : Flow.Program}
    (h : FlattensProgram p s flow s') (hs : s.generated = []) {cls : Flow.Class}
    (hcls : cls ∈ flow.classes) : ((∃ c ∈ p.classes, c.name = cls.name) ∨ cls.IsClosure) ∧
      ∀ m ∈ cls.methods, ∃ method, m.name = methodName cls.name method := by
  rcases h.declared_or_closure hs hcls with ⟨c, hc, _, _, _, hclass⟩ | hclosure
  · obtain ⟨hname, hentries⟩ := hclass.entries
    refine ⟨.inl ⟨c, hc, hname.symm⟩, fun m hm => ?_⟩
    have hentry : m.entry ∈ c.methods.map fun f => ⟨methodName c.name f.name, f.params.length⟩ :=
      hentries ▸ List.mem_map_of_mem hm
    obtain ⟨f, -, heq⟩ := List.mem_map.1 hentry
    exact ⟨f.name, hname ▸ (congrArg DispatchEntry.name heq).symm⟩
  · refine ⟨.inr hclosure, fun m hm => ?_⟩
    obtain ⟨init, apply, hmethods, hinit, happly⟩ := hclosure
    rw [hmethods, List.mem_cons, List.mem_singleton] at hm
    rcases hm with rfl | rfl
    · exact ⟨initName, hinit⟩
    · exact ⟨applyName, happly⟩

/-! ## Slots -/

theorem findIdx?_entry {entries rest : List DispatchEntry}
    (hnodup : (entries.map (·.name)).Nodup) {i : Nat} {entry : DispatchEntry}
    (hentry : entries[i]? = some entry) :
    (entries ++ rest).findIdx? (fun other => other.name = entry.name) = some i := by
  induction entries generalizing i with
  | nil => exact nomatch hentry
  | cons first entries ih =>
      have hfirst : first.name ∉ entries.map (·.name) := (List.nodup_cons.1 hnodup).1
      cases i with
      | zero =>
          obtain rfl := Option.some.inj hentry
          simp [List.findIdx?_cons]
      | succ i =>
          rw [List.getElem?_cons_succ] at hentry
          have hmem : entry.name ∈ entries.map (·.name) :=
            List.mem_map_of_mem (List.mem_of_getElem? hentry)
          have hne : first.name ≠ entry.name := fun heq => hfirst (heq ▸ hmem)
          rw [List.cons_append, List.findIdx?_cons, ih (List.nodup_cons.1 hnodup).2 hentry]
          simp [hne]

/-- A class has its entries in the table of a catalog from a slot on, one for each method but the
constructor, and the slots of its methods are those of their entries. -/
structure Placed (catalog : Catalog) (cls : Flow.Class) (start : Nat) : Prop where
  startOf_eq : catalog.startOf cls.name = .ok start
  entries_eq : (catalog.dispatch.drop start).take cls.dispatched.length =
    cls.dispatched.map fun m => ⟨m.name, m.params.length⟩
  slots : ∀ (i : Nat) (m : Flow.Method), cls.dispatched[i]? = some m →
    ∃ method, m.name = methodName cls.name method ∧
      catalog.dispatchSlot cls.name method = .ok (start + i) ∧
      catalog.dispatch[start + i]? = some ⟨m.name, m.params.length⟩

theorem placed_of_drop {catalog : Catalog} {cls : Flow.Class} {start : Nat}
    {rest : List DispatchEntry} (hstart : catalog.startOf cls.name = .ok start)
    (hdrop : catalog.dispatch.drop start = cls.entries ++ rest)
    (hnames : ∀ m ∈ cls.methods, ∃ method, m.name = methodName cls.name method)
    (hnodup : (cls.methods.map (·.name)).Nodup) : Placed catalog cls start := by
  have hlength : cls.dispatched.length = cls.entries.length := (List.length_map _).symm
  refine ⟨hstart, ?_, fun i m hm => ?_⟩
  · rw [hdrop, hlength, List.take_left]
    rfl
  · have hmem : m ∈ cls.methods := (List.mem_filter.1 (List.mem_of_getElem? hm)).1
    obtain ⟨method, hname⟩ := hnames m hmem
    have hentry : cls.entries[i]? = some m.entry := by
      rw [Flow.Class.entries, List.getElem?_map, hm]
      rfl
    have hentries : (cls.entries.map (·.name)).Nodup := by
      rw [Flow.Class.entries, List.map_map]
      exact hnodup.sublist (List.filter_sublist.map _)
    refine ⟨method, hname, ?_, ?_⟩
    · have hfound : (cls.entries ++ rest).findIdx? (fun other => other.name = m.entry.name) =
          some i := findIdx?_entry hentries hentry
      rw [Flow.Method.entry, hname] at hfound
      unfold Catalog.dispatchSlot
      rw [hstart]
      dsimp only [bind, Except.bind]
      rw [hdrop, hfound]
      rfl
    · obtain ⟨hi, -⟩ := List.getElem?_eq_some_iff.1 hentry
      rw [← List.getElem?_drop, hdrop, List.getElem?_append_left hi, hentry]
      rfl

/-- New classes with distinct names fill the new part of the dispatch table without gaps. -/
theorem FlattensProgram.tiles {p : Tree.Program} {s s' : State} {flow : Flow.Program}
    (h : FlattensProgram p s flow s') (hs : s.generated = [])
    (hclasses : (flow.classes.map (·.name)).Nodup)
    (hnew : ∀ cls ∈ flow.classes, s.catalog.starts.contains cls.name = false) :
    ∃ order : List Flow.Class, order.Perm flow.classes ∧
      s'.catalog.dispatch = s.catalog.dispatch ++ order.flatMap Flow.Class.entries ∧
      ∀ before cls behind, order = before ++ cls :: behind → s'.catalog.startOf cls.name =
        .ok (s.catalog.dispatch.length + (before.flatMap Flow.Class.entries).length) := by
  obtain ⟨roster, htable, hperm⟩ := h.enrolled hs
  obtain ⟨order, rfl, horder⟩ :
      ∃ order : List Flow.Class,
        roster = order.map Flow.Class.listing ∧ order.Perm flow.classes := by
    have hcomp := congrFun₂ (List.eq_map_comp_perm Flow.Class.listing) roster flow.classes
    exact hcomp.mpr hperm
  have hnodup : ((order.map Flow.Class.listing).map (·.1)).Nodup := by
    rw [List.map_map]
    exact (horder.map (·.name)).nodup_iff.2 hclasses
  have hnew' : ∀ l ∈ order.map Flow.Class.listing,
      s.catalog.table.starts.contains l.1 = false := by
    intro l hl
    obtain ⟨cls, hcls, rfl⟩ := List.mem_map.1 hl
    exact hnew cls (horder.mem_iff.1 hcls)
  have hflat : ∀ classes : List Flow.Class, (classes.map Flow.Class.listing).flatMap (·.2) =
      classes.flatMap Flow.Class.entries := fun classes => List.flatMap_map _ _ classes
  obtain ⟨hentries, hstarts⟩ := Table.foldl_add_of_new hnodup hnew'
  rw [← htable] at hentries hstarts
  refine ⟨order, horder, ?_, fun before cls behind hsplit => ?_⟩
  · exact hentries.trans (congrArg (s.catalog.dispatch ++ ·) (hflat order))
  · have hslot := hstarts (before.map Flow.Class.listing) cls.listing
      (behind.map Flow.Class.listing) (by rw [hsplit, List.map_append, List.map_cons])
    rw [hflat] at hslot
    exact Catalog.startOf_eq_ok.2 hslot

/-- Calls through an object of a class reach the entries of this class: the class has its entries at
its slot, every object of it carries this slot in its first word, and the word in the object of a
function selects `apply` of its own class. -/
structure Dispatches (p : Tree.Program) (flow : Flow.Program) (catalog catalog' : Catalog)
    (cls : Flow.Class) (start : Nat) : Prop where
  placed : Placed catalog' cls start
  objects : ∀ m ∈ flow.methods, ∀ b ∈ m.body, ∀ t amount bitmap words,
    construction cls.name t amount bitmap words <:+: b.stmts →
      ∃ rest, words = (0, .word (UInt32.ofNat start)) :: rest ∧
        (catalog.hasLayout cls.name = false → ∀ word ∈ rest, word.1 ≠ 0)
  closures : (∀ c ∈ p.classes, c.name ≠ cls.name) → ∃ init apply,
    cls.methods = [init, apply] ∧ init.name = methodName cls.name initName ∧
      apply.name = methodName cls.name applyName ∧ (start < UInt32.size →
        catalog'.dispatch[(UInt32.ofNat start).toNat]? = some ⟨apply.name, apply.params.length⟩)

theorem dispatched_of_isClosure {cls : Flow.Class} {init apply : Flow.Method}
    (hmethods : cls.methods = [init, apply]) (hinit : init.name = methodName cls.name initName)
    (happly : apply.name = methodName cls.name applyName) : cls.dispatched[0]? = some apply := by
  have hne : methodName cls.name applyName ≠ methodName cls.name initName :=
    (methodName_right_injective cls.name).ne (by decide)
  unfold Flow.Class.dispatched
  rw [hmethods]
  simp [hinit, happly, hne]

/-- An object carries the slot of its class in its first word.  Nothing else is stored there where
the class is new to the catalog. -/
theorem flatten_first_word {catalog catalog' : Catalog} {p : Tree.Program} {flow : Flow.Program}
    (hflow : flatten catalog p = (.ok flow, catalog')) {m : Flow.Method} (hm : m ∈ flow.methods)
    {b : Block} (hb : b ∈ m.body) {className t : String} {amount : Nat} {bitmap : UInt32}
    {words : List (Nat × Value)}
    (hmakes : construction className t amount bitmap words <:+: b.stmts) :
    ∃ slot rest, catalog'.startOf className = .ok slot ∧
      words = (0, .word (UInt32.ofNat slot)) :: rest ∧
      (catalog.hasLayout className = false → ∀ word ∈ rest, word.1 ≠ 0) := by
  have hlayouts : catalog'.AllLayouts fun name layout =>
      catalog.layoutOf name = .ok layout ∨ ∀ other ∈ layout, 0 < other.2.offset := by
    have hold : catalog.AllLayouts fun name layout =>
        catalog.layoutOf name = .ok layout ∨ ∀ other ∈ layout, 0 < other.2.offset :=
      fun _ _ h => .inl h
    have hkept := hold.flatten (p := p) (fun _ => .inr fun _ h => absurd h List.not_mem_nil)
      fun _ _ => .inr fun _ => Layout.offset_pos_of_mem_ofFields
    rwa [hflow] at hkept
  obtain ⟨fields, hcomposed, -⟩ := flatten_composed hflow hm
  obtain ⟨slot, layout, hslot, hlayout, -, -, rfl⟩ := (hcomposed b hb).construction_eq hmakes
  refine ⟨slot, _, hslot, rfl, fun hfresh word hword => ?_⟩
  obtain ⟨other, hother, rfl⟩ := List.mem_map.1 hword
  rcases hlayouts className layout hlayout with hold | hpos
  · have hhas : catalog.hasLayout className = true := by
      rw [Catalog.hasLayout, NameMap.contains, Catalog.layoutOf_eq_ok.1 hold]
      rfl
    exact absurd (hfresh.symm.trans hhas) Bool.false_ne_true
  · exact Nat.ne_of_gt (hpos other hother)

/-- The classes of a program that is flattened fill the new part of the dispatch table without gaps,
in the order in which they have been entered, where their names are distinct and new.  Each of them
has an entry for each of its methods but the constructor, every object carries the slot of its own
class, and room is made for objects nowhere else. -/
theorem flatten_dispatch {catalog catalog' : Catalog} {p : Tree.Program} {flow : Flow.Program}
    (hflow : flatten catalog p = (.ok flow, catalog'))
    (hclasses : (flow.classes.map (·.name)).Nodup)
    (hnew : ∀ cls ∈ flow.classes, catalog.starts.contains cls.name = false)
    (hmethods : ∀ cls ∈ flow.classes, (cls.methods.map (·.name)).Nodup) :
    (∃ order : List Flow.Class, order.Perm flow.classes ∧
      catalog'.dispatch = catalog.dispatch ++ order.flatMap Flow.Class.entries ∧
      ∀ before cls behind, order = before ++ cls :: behind → catalog'.startOf cls.name =
        .ok (catalog.dispatch.length + (before.flatMap Flow.Class.entries).length)) ∧
    (∀ cls ∈ flow.classes, ∃ start, Dispatches p flow catalog catalog' cls start) ∧
    ∀ m ∈ flow.methods, ∀ b ∈ m.body, ∀ before s behind, b.stmts = before ++ s :: behind →
      s.allocates = true → ∃ className t amount bitmap words,
        construction className t amount bitmap words <+: s :: behind := by
  obtain ⟨-, st, hrun, rfl⟩ := flatten_eq_ok_iff.1 hflow
  have hprogram := flattens_program hrun
  obtain ⟨order, horder, hdispatch, hstarts⟩ := hprogram.tiles rfl hclasses hnew
  refine ⟨⟨order, horder, hdispatch, hstarts⟩, fun cls hcls => ?_,
    fun m hm b hb _ _ _ => flatten_allocates hflow hm hb⟩
  obtain ⟨before, behind, hsplit⟩ := List.append_of_mem (horder.mem_iff.2 hcls)
  have hstart := hstarts before cls behind hsplit
  obtain ⟨hkind, hnames⟩ := hprogram.named rfl hcls
  have hdrop : st.catalog.dispatch.drop
      (catalog.dispatch.length + (before.flatMap Flow.Class.entries).length) =
        cls.entries ++ behind.flatMap Flow.Class.entries := by
    rw [hdispatch, hsplit, List.drop_append, List.drop_eq_nil_of_le (Nat.le_add_right _ _),
      Nat.add_sub_cancel_left, List.nil_append, List.flatMap_append, List.drop_left,
      List.flatMap_cons]
  have hplaced := placed_of_drop hstart hdrop hnames (hmethods cls hcls)
  refine ⟨_, hplaced, fun m hm b hb t amount bitmap words hmakes => ?_, fun hundeclared => ?_⟩
  · obtain ⟨slot, rest, hslot, hwords, hrest⟩ := flatten_first_word hflow hm hb hmakes
    obtain rfl := Except.ok.inj (hstart.symm.trans hslot)
    exact ⟨rest, hwords, hrest⟩
  · rcases hkind with ⟨c, hc, hname⟩ | ⟨init, apply, hpair, hinit, happly⟩
    · exact absurd hname (hundeclared c hc)
    · refine ⟨init, apply, hpair, hinit, happly, fun hsize => ?_⟩
      have hfirst := dispatched_of_isClosure hpair hinit happly
      obtain ⟨-, -, -, hentry⟩ := hplaced.slots 0 apply hfirst
      rwa [UInt32.toNat_ofNat_of_lt' hsize]

/-- The classes of a function, of a class, of a function in a method and of a lambda. -/
theorem flatten_dispatch_counter :
    ((blocksOf .empty countProgram).classes.map (·.name) =
      ["next_$closure$", "Counter", "Counter_$step_$next_$closure$", "lambda1"]) ∧
    ∀ cls ∈ (blocksOf .empty countProgram).classes, ∃ start,
      Dispatches countProgram (blocksOf .empty countProgram) .empty
        (flatten .empty countProgram).2 cls start := by
  have hok : (flatten .empty countProgram).1.toOption.isSome = true := by decide +kernel
  have hclasses : ((blocksOf .empty countProgram).classes.map (·.name)).Nodup := by
    decide +kernel
  have hnew : ∀ cls ∈ (blocksOf .empty countProgram).classes,
      Catalog.empty.starts.contains cls.name = false := fun _ _ => rfl
  have hmethods : ∀ cls ∈ (blocksOf .empty countProgram).classes,
      (cls.methods.map (·.name)).Nodup := by decide +kernel
  obtain ⟨-, hdispatches, -⟩ :=
    flatten_dispatch (flatten_eq_blocksOf hok) hclasses hnew hmethods
  exact ⟨by decide +kernel, hdispatches⟩

end Midend.Linear
