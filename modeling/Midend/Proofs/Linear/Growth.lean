import Midend.Proofs.Linear.Programs
/-!
# How the catalog grows

Building only adds to the catalog: a class keeps its layout and its entries (`Catalog.Extends`).
A class with the name of a lambda turns up only where that name is drawn (`Flattens.grows`).
-/

namespace Midend.Catalog

def Registered (c : Catalog) (name : String) : Prop :=
  c.hasLayout name = true ∨ c.starts.contains name = true

structure Extends (c c' : Catalog) : Prop where
  layouts : ∀ name layout, c.layoutOf name = .ok layout → c'.layoutOf name = .ok layout
  starts : ∀ name slot, c.startOf name = .ok slot → c'.startOf name = .ok slot
  dispatch : c.dispatch <+: c'.dispatch

variable {c c' c'' : Catalog} {name other className : String} {methods : List (String × Nat)}

theorem registered_iff :
    c.Registered name ↔ (c.layouts.get? name).isSome ∨ (c.starts.get? name).isSome := Iff.rfl

theorem layoutOf_eq_ok {layout : Layout} :
    c.layoutOf name = .ok layout ↔ c.layouts.get? name = some layout := by
  unfold layoutOf
  cases c.layouts.get? name <;> simp

theorem startOf_eq_ok {slot : Nat} :
    c.startOf name = .ok slot ↔ c.starts.get? name = some slot := by
  unfold startOf
  cases c.starts.get? name <;> simp

theorem bitmapOf_eq_ok {bits : UInt32} :
    c.bitmapOf name = .ok bits ↔ ∃ layout, c.layoutOf name = .ok layout ∧ layout.bitmap = bits := by
  unfold bitmapOf
  cases c.layoutOf name <;> simp [Functor.map, Except.map]

theorem fieldOf_eq_ok {field : String} {entry : Field} :
    c.fieldOf name field = .ok entry ↔
      ∃ layout, c.layoutOf name = .ok layout ∧ layout.lookup field = some entry := by
  unfold fieldOf
  cases c.layoutOf name with
  | error fault => simp [bind, Except.bind]
  | ok layout =>
      simp only [bind, Except.bind, Except.ok.injEq, exists_eq_left']
      cases layout.lookup field with
      | none => simp [throw, throwThe, MonadExceptOf.throw]
      | some found => simp [pure, Except.pure]

namespace Extends

theorem refl (c : Catalog) : c.Extends c :=
  ⟨fun _ _ h => h, fun _ _ h => h, List.prefix_rfl⟩

theorem trans (h : c.Extends c') (h' : c'.Extends c'') : c.Extends c'' where
  layouts name layout hlayout := h'.layouts name layout (h.layouts name layout hlayout)
  starts name slot hslot := h'.starts name slot (h.starts name slot hslot)
  dispatch := h.dispatch.trans h'.dispatch

theorem fieldOf (h : c.Extends c') {field : String} {entry : Field}
    (hentry : c.fieldOf name field = .ok entry) : c'.fieldOf name field = .ok entry := by
  obtain ⟨layout, hlayout, hlookup⟩ := fieldOf_eq_ok.1 hentry
  exact fieldOf_eq_ok.2 ⟨layout, h.layouts name layout hlayout, hlookup⟩

theorem bitmapOf (h : c.Extends c') {bits : UInt32} (hbits : c.bitmapOf name = .ok bits) :
    c'.bitmapOf name = .ok bits := by
  obtain ⟨layout, hlayout, heq⟩ := bitmapOf_eq_ok.1 hbits
  exact bitmapOf_eq_ok.2 ⟨layout, h.layouts name layout hlayout, heq⟩

theorem entry (h : c.Extends c') {slot : Nat} {entry : DispatchEntry}
    (hentry : c.dispatch[slot]? = some entry) : c'.dispatch[slot]? = some entry := by
  obtain ⟨rest, heq⟩ := h.dispatch
  obtain ⟨hslot, -⟩ := List.getElem?_eq_some_iff.1 hentry
  rw [← heq, List.getElem?_append_left hslot, hentry]

end Extends

theorem extends_of_eq (hlayouts : c'.layouts = c.layouts) (hstarts : c'.starts = c.starts)
    (hdispatch : c'.dispatch = c.dispatch) : c.Extends c' where
  layouts name layout h := by
    rw [layoutOf_eq_ok] at h ⊢
    rwa [hlayouts]
  starts name slot h := by
    rw [startOf_eq_ok] at h ⊢
    rwa [hstarts]
  dispatch := hdispatch ▸ List.prefix_rfl

/-- Recording the classes of functions leaves all classes alone. -/
theorem setClosures_eq (paths : List (String × String)) (c : Catalog) :
    let c' := paths.foldl (fun c (path, name) => c.setClosure path name) c
    c'.layouts = c.layouts ∧ c'.starts = c.starts ∧ c'.dispatch = c.dispatch := by
  induction paths generalizing c with
  | nil => exact ⟨rfl, rfl, rfl⟩
  | cons path paths ih => exact ih (c.setClosure path.1 path.2)

theorem addGlobals_eq (names : List String) (c : Catalog) :
    let c' := names.foldl addGlobal c
    c'.layouts = c.layouts ∧ c'.starts = c.starts ∧ c'.dispatch = c.dispatch := by
  induction names generalizing c with
  | nil => exact ⟨rfl, rfl, rfl⟩
  | cons name names ih => exact ih (c.addGlobal name)

theorem extends_setClosures (paths : List (String × String)) (c : Catalog) :
    c.Extends (paths.foldl (fun c (path, name) => c.setClosure path name) c) := by
  obtain ⟨hlayouts, hstarts, hdispatch⟩ := setClosures_eq paths c
  exact extends_of_eq hlayouts hstarts hdispatch

theorem extends_addGlobals (names : List String) (c : Catalog) :
    c.Extends (names.foldl addGlobal c) := by
  obtain ⟨hlayouts, hstarts, hdispatch⟩ := addGlobals_eq names c
  exact extends_of_eq hlayouts hstarts hdispatch

theorem extends_addLayout {fields : List Tree.Decl} (h : c.hasLayout name = false) :
    c.Extends (c.addLayout name fields) where
  layouts other layout hother := by
    rw [layoutOf_eq_ok] at hother ⊢
    have hne : other ≠ name := by
      rintro rfl
      rw [hasLayout, NameMap.contains, hother] at h
      simp at h
    rw [addLayout, NameMap.get?_insert, if_neg hne, hother]
  starts _ _ h := h
  dispatch := List.prefix_rfl

theorem extends_addMethods (c : Catalog) (name : String) (methods : List (String × Nat)) :
    c.Extends (c.addMethods name methods) := by
  unfold addMethods
  split
  · exact .refl c
  · rename_i hnew
    refine ⟨fun _ _ h => h, fun other slot hother => ?_, List.prefix_append _ _⟩
    rw [startOf_eq_ok] at hother ⊢
    have hne : other ≠ name := by
      rintro rfl
      rw [NameMap.contains, hother] at hnew
      exact hnew rfl
    rw [NameMap.get?_insert, if_neg hne, hother]

theorem addMethods_of_new (h : c.starts.contains className = false) :
    c.addMethods className methods =
      { c with
        starts := c.starts.insert className c.dispatch.length
        dispatch := c.dispatch ++ entriesOf className methods } := by
  unfold addMethods
  rw [if_neg (by rw [h]; exact nofun)]

theorem registered_addMethods :
    (c.addMethods className methods).Registered name ↔ c.Registered name ∨ name = className := by
  cases hstarts : c.starts.contains className with
  | true =>
      have hsame : c.addMethods className methods = c := if_pos hstarts
      rw [hsame]
      refine ⟨.inl, fun h => h.elim id ?_⟩
      rintro rfl
      exact .inr hstarts
  | false =>
      rw [addMethods_of_new hstarts, registered_iff, registered_iff, NameMap.get?_insert]
      split
      · rename_i heq
        simp [heq]
      · rename_i hne
        simp [hne]

theorem registered_addLayout {fields : List Tree.Decl} :
    (c.addLayout className fields).Registered name ↔ c.Registered name ∨ name = className := by
  rw [registered_iff, registered_iff, addLayout, NameMap.get?_insert]
  split
  · rename_i heq
    simp [heq]
  · rename_i hne
    simp [hne]

end Midend.Catalog

namespace Midend.Linear

open Build
open NameSupply (numbered)

variable {c : Catalog} {name other : String} {fields : List Tree.Decl}
  {methods : List (String × Nat)}

/-! ## Entering a class -/

theorem extends_withClass (c : Catalog) (name : String) (fields : List Tree.Decl)
    (methods : List (String × Nat)) : c.Extends (withClass c name fields methods) := by
  unfold withClass
  split
  · exact Catalog.extends_addMethods _ _ _
  · rename_i hnew
    exact (Catalog.extends_addLayout (Bool.eq_false_iff.2 hnew)).trans
      (Catalog.extends_addMethods _ _ _)

theorem registered_withClass :
    (withClass c name fields methods).Registered other ↔ c.Registered other ∨ other = name := by
  unfold withClass
  rw [Catalog.registered_addMethods]
  split
  · exact Iff.rfl
  · rw [Catalog.registered_addLayout, or_assoc, or_self]

/-- A class with a new name gets the next entries of the dispatch table. -/
theorem withClass_of_new (h : ¬ c.Registered name) :
    (withClass c name fields methods).layoutOf name = .ok (Layout.ofFields fields) ∧
      (withClass c name fields methods).startOf name = .ok c.dispatch.length ∧
      (withClass c name fields methods).dispatch =
        c.dispatch ++ Catalog.entriesOf name methods := by
  obtain ⟨hlayout, hstarts⟩ := not_or.1 h
  have hnew : (c.addLayout name fields).starts.contains name = false :=
    Bool.eq_false_iff.2 hstarts
  unfold withClass
  rw [if_neg hlayout, Catalog.addMethods_of_new hnew]
  exact ⟨Catalog.layoutOf_eq_ok.2 (NameMap.get?_insert_self _ _ _),
    Catalog.startOf_eq_ok.2 (NameMap.get?_insert_self _ _ _), rfl⟩

/-! ## Names of classes -/

theorem unnumbered_closureClassName (function : String) (enclosing : List String) :
    NameSupply.Unnumbered (closureClassName function enclosing) := by
  intro c hc
  rw [closureClassName, String.toList_append, List.getLast?_append_of_ne_nil _ (by decide)] at hc
  have hdollar : c = '$' := (Option.some.inj hc).symm
  rw [hdollar]
  decide

theorem closureClassName_ne_numbered (function : String) (enclosing : List String) (base : String)
    (n : Nat) : closureClassName function enclosing ≠ numbered base n := fun h =>
  NameSupply.not_unnumbered_numbered base n (h ▸ unnumbered_closureClassName function enclosing)

def IsClosureName (name : String) : Prop :=
  ∃ function enclosing, name = closureClassName function enclosing

theorem IsClosureName.ne_numbered (h : IsClosureName name) (base : String) (n : Nat) :
    name ≠ numbered base n := by
  obtain ⟨function, enclosing, rfl⟩ := h
  exact closureClassName_ne_numbered function enclosing base n

mutual
theorem isClosureName_ofFunction (enclosing : List String) (f : Tree.Function) :
    ∀ c ∈ Closure.ofFunction enclosing f, IsClosureName c.name := by
  match f with
  | ⟨name, params, ret, decls, body, children, loc⟩ =>
      rw [Closure.ofFunction]
      exact List.forall_mem_cons.2
        ⟨⟨name, enclosing, rfl⟩, isClosureName_ofFunctions (enclosing ++ [name]) children⟩

theorem isClosureName_ofFunctions (enclosing : List String) (fs : List Tree.Function) :
    ∀ c ∈ Closure.ofFunctions enclosing fs, IsClosureName c.name := by
  match fs with
  | [] => exact fun c hc => absurd hc List.not_mem_nil
  | f :: fs =>
      rw [Closure.ofFunctions]
      exact List.forall_mem_append.2
        ⟨isClosureName_ofFunction enclosing f, isClosureName_ofFunctions enclosing fs⟩
end

/-! ## Growing states -/

/-- Building leads from one state to the other: names are used up, classes stay, and a class with
the name of a lambda turns up only when that name is drawn. -/
structure Grows (s s' : State) : Prop where
  names : ∀ base, s.names.next base ≤ s'.names.next base
  catalog : s.catalog.Extends s'.catalog
  lambdas : ∀ n, s'.catalog.Registered (numbered "lambda" n) →
    s.catalog.Registered (numbered "lambda" n) ∨
      s.names.next "lambda" ≤ n ∧ n < s'.names.next "lambda"

namespace Grows

variable {s s₁ s' : State}

theorem refl (s : State) : Grows s s :=
  ⟨fun _ => Nat.le_refl _, Catalog.Extends.refl _, fun _ => .inl⟩

theorem trans (h : Grows s s₁) (h' : Grows s₁ s') : Grows s s' where
  names base := Nat.le_trans (h.names base) (h'.names base)
  catalog := h.catalog.trans h'.catalog
  lambdas n hn := by
    rcases h'.lambdas n hn with hn | ⟨hlow, hhigh⟩
    · refine (h.lambdas n hn).imp_right fun ⟨hlow, hhigh⟩ => ⟨hlow, ?_⟩
      exact Nat.lt_of_lt_of_le hhigh (h'.names "lambda")
    · exact .inr ⟨Nat.le_trans (h.names "lambda") hlow, hhigh⟩

theorem of_catalog (hnames : s'.names = s.names) (hcatalog : s.catalog.Extends s'.catalog)
    (hlambdas : ∀ n, s'.catalog.Registered (numbered "lambda" n) →
      s.catalog.Registered (numbered "lambda" n)) : Grows s s' :=
  ⟨fun _ => hnames ▸ Nat.le_refl _, hcatalog, fun n hn => .inl (hlambdas n hn)⟩

end Grows

section Steps

variable {s s₁ s₂ s' : State} {base : String}

theorem grows_fresh (h : Builds (fresh base) s name s') : Grows s s' := by
  obtain ⟨hname, hcatalog, -⟩ := builds_fresh h
  refine ⟨fun _ => ?_, hcatalog ▸ Catalog.Extends.refl _, fun n hn => .inl ?_⟩
  · rw [NameSupply.next_fresh hname]
    exact Nat.le_add_right _ _
  · rwa [hcatalog] at hn

theorem grows_keep (k : Flow.Class) : Grows s { s with generated := s.generated ++ [k] } :=
  .of_catalog rfl (Catalog.Extends.refl _) fun _ => id

theorem grows_enter (hname : ∀ n, name ≠ numbered "lambda" n) {a : Unit}
    (h : Builds (enter name fields methods) s a s') : Grows s s' := by
  obtain rfl := builds_enter h
  refine .of_catalog rfl (extends_withClass _ _ _ _) fun n hn => ?_
  exact (registered_withClass.1 hn).resolve_right fun heq => hname n heq.symm

/-- Entering the class of a lambda under a name just drawn. -/
theorem grows_enterLambda {params : List Parameter} {a : Unit}
    (hname : Builds (fresh "lambda") s name s₁)
    (h : Builds (enterClosure name params) s₁ a s') : Grows s s' := by
  have hgrows := grows_fresh hname
  obtain ⟨hfresh, hcatalog, -⟩ := builds_fresh hname
  obtain rfl := builds_enter h
  refine ⟨hgrows.names, hgrows.catalog.trans (extends_withClass _ _ _ _), fun n hn => ?_⟩
  rcases registered_withClass.1 hn with hn | hn
  · rw [hcatalog] at hn
    exact .inl hn
  · have hbase : NameSupply.Unnumbered "lambda" := by decide +kernel
    obtain ⟨-, rfl⟩ := NameSupply.numbered_inj hbase hbase (hn.trans (NameSupply.fresh_eq hfresh))
    refine .inr ⟨Nat.le_refl _, ?_⟩
    change _ < s₁.names.next "lambda"
    rw [NameSupply.next_fresh hfresh, if_pos rfl]
    exact Nat.lt_succ_self _

theorem grows_recordPaths {enclosing : List String} {f : Tree.Function}
    (h : Builds (recordPaths enclosing f) s ⟨⟩ s') : Grows s s' := by
  obtain rfl := builds_update h
  obtain ⟨hlayouts, hstarts, hdispatch⟩ :=
    Catalog.setClosures_eq (Closure.paths enclosing f) s.catalog
  refine .of_catalog rfl (Catalog.extends_of_eq hlayouts hstarts hdispatch) fun n hn => ?_
  unfold Catalog.Registered Catalog.hasLayout at hn ⊢
  rwa [hlayouts, hstarts] at hn

theorem grows_forM {α : Type} {f : α → Build PUnit} {as : List α}
    (hf : ∀ a ∈ as, ∀ s s', Builds (f a) s ⟨⟩ s' → Grows s s')
    (h : Builds (as.forM f) s ⟨⟩ s') : Grows s s' := by
  induction as generalizing s with
  | nil => exact (builds_pure h).2 ▸ .refl s
  | cons a as ih =>
      obtain ⟨⟨⟩, s₁, hfirst, hrest⟩ := h.bind_inv
      exact (hf a List.mem_cons_self s s₁ hfirst).trans
        (ih (fun a ha => hf a (List.mem_cons_of_mem _ ha)) hrest)

theorem grows_enterClosures {cs : List Closure} (hcs : ∀ c ∈ cs, IsClosureName c.name)
    (h : Builds (cs.forM fun c => enterClosure c.name c.params) s ⟨⟩ s') : Grows s s' :=
  grows_forM (fun c hc _ _ henter => grows_enter (fun n => (hcs c hc).ne_numbered _ n) henter) h

end Steps

theorem tracks_grows : Tracks fun s _ _ s' => Grows s s' where
  refl := Grows.refl
  append := Grows.trans
  fresh := grows_fresh
  closure _ h := h.trans (grows_keep _)
  lambda hname henter _ h := (grows_enterLambda hname henter).trans h
  functions hpaths henter h :=
    (grows_recordPaths hpaths).trans
      ((grows_enterClosures (isClosureName_ofFunction _ _) henter).trans h)

theorem Flattens.grows {part : Part} {s s' : State} {code : Code} {classes : List Flow.Class}
    {result : Result} (h : Flattens part s code classes result s') : Grows s s' :=
  h.tracked tracks_grows

end Midend.Linear
