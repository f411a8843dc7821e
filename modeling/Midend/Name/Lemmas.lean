import Midend.Name.Map
/-!
# Look-ups after each operation

What `NameMap.get?` gives after each operation on maps, and that a map is known by its look-ups
(`NameMap.ext`).
-/

namespace Midend.NameMap

variable {α β γ : Type}

theorem lookup_cons (e : String × α) (es : List (String × α)) (name : String) :
    (e :: es).lookup name = if name = e.1 then some e.2 else es.lookup name := by
  obtain ⟨k, v⟩ := e
  by_cases h : name = k
  · rw [if_pos h, h, List.lookup_cons_self]
  · rw [if_neg h, List.lookup_cons, beq_eq_false_iff_ne.2 h]

theorem lookup_put (es : List (String × α)) (name other : String) (value : α) :
    (put name value es).lookup other = if other = name then some value else es.lookup other := by
  induction es with
  | nil => simp [put, lookup_cons]
  | cons e es ih =>
    unfold put
    split
    · rw [lookup_cons]
    · split
      · rename_i eq
        rw [lookup_cons, lookup_cons, eq]
        by_cases h : other = e.1 <;> simp [h]
      · rename_i ne
        rw [lookup_cons, lookup_cons, ih]
        by_cases h : other = name
        · simp [h, ne]
        · simp [h]

theorem lookup_eq_none_of_lt {es : List (String × α)} {name : String}
    (h : ∀ e ∈ es, name < e.1) : es.lookup name = none := by
  induction es with
  | nil => rfl
  | cons e es ih =>
    have ne : name ≠ e.1 := Std.ne_of_lt (h e List.mem_cons_self)
    rw [lookup_cons, if_neg ne]
    exact ih fun d hd => h d (List.mem_cons_of_mem _ hd)

theorem lookup_head (e : String × α) (es : List (String × α)) :
    (e :: es).lookup e.1 = some e.2 := by
  rw [lookup_cons, if_pos rfl]

theorem lookup_eq_none_of_lt_head {e : String × α} {es : List (String × α)} {name : String}
    (h : (e :: es).Pairwise fun a b => a.1 < b.1) (lt : name < e.1) :
    (e :: es).lookup name = none :=
  lookup_eq_none_of_lt fun d hd => by
    rcases List.mem_cons.1 hd with rfl | hd
    · exact lt
    · exact String.lt_trans lt ((List.pairwise_cons.1 h).1 d hd)

theorem eq_of_lookup {xs ys : List (String × α)} (hx : xs.Pairwise fun a b => a.1 < b.1)
    (hy : ys.Pairwise fun a b => a.1 < b.1) (h : ∀ name, xs.lookup name = ys.lookup name) :
    xs = ys := by
  induction xs generalizing ys with
  | nil =>
    cases ys with
    | nil => rfl
    | cons y ys => exact absurd ((h y.1).trans (lookup_head y ys)) (by simp)
  | cons x xs ih =>
    cases ys with
    | nil => exact absurd ((h x.1).symm.trans (lookup_head x xs)) (by simp)
    | cons y ys =>
      have ⟨firstX, restX⟩ := List.pairwise_cons.1 hx
      have ⟨firstY, restY⟩ := List.pairwise_cons.1 hy
      have name : x.1 = y.1 := by
        rcases Decidable.em (x.1 < y.1) with lt | nlt
        · have := h x.1
          rw [lookup_head, lookup_eq_none_of_lt_head hy lt] at this
          exact absurd this (by simp)
        · rcases Decidable.em (y.1 < x.1) with lt | nlt'
          · have := h y.1
            rw [lookup_head, lookup_eq_none_of_lt_head hx lt] at this
            exact absurd this (by simp)
          · exact String.le_antisymm (String.not_lt.1 nlt') (String.not_lt.1 nlt)
      have value : x.2 = y.2 := by
        have := h x.1
        rw [lookup_head, name, lookup_head] at this
        exact Option.some.inj this
      have tails : xs = ys := ih restX restY fun other => by
        have := h other
        rw [lookup_cons, lookup_cons, name, value] at this
        rcases Decidable.em (other = y.1) with rfl | ne
        · rw [lookup_eq_none_of_lt firstY, ← name, lookup_eq_none_of_lt firstX]
        · rwa [if_neg ne, if_neg ne] at this
      rw [tails, Prod.ext name value]

@[ext] theorem ext {a b : NameMap α} (h : ∀ name, a.get? name = b.get? name) : a = b := by
  cases a
  cases b
  congr
  exact eq_of_lookup ‹_› ‹_› h

@[simp] theorem get?_empty (name : String) : (empty : NameMap α).get? name = none := rfl

theorem get?_insert (m : NameMap α) (name other : String) (value : α) :
    (m.insert name value).get? other = if other = name then some value else m.get? other :=
  lookup_put m.entries name other value

@[simp] theorem get?_insert_self (m : NameMap α) (name : String) (value : α) :
    (m.insert name value).get? name = some value := by
  simp [get?_insert]

theorem lookup_filter_ne (es : List (String × α)) (name other : String) :
    (es.filter fun e => e.1 ≠ name).lookup other =
      if other = name then none else es.lookup other := by
  induction es with
  | nil => simp
  | cons e es ih =>
    rw [List.filter_cons, lookup_cons]
    by_cases he : e.1 = name
    · rw [if_neg (by simp [he]), ih, he]
      by_cases ho : other = name
      · rw [if_pos ho, if_pos ho]
      · rw [if_neg ho, if_neg ho, if_neg ho]
    · rw [if_pos (by simp [he]), lookup_cons, ih]
      by_cases h : other = e.1
      · rw [if_pos h, if_pos h, if_neg (h ▸ he)]
      · rw [if_neg h, if_neg h]

theorem get?_erase (m : NameMap α) (name other : String) :
    (m.erase name).get? other = if other = name then none else m.get? other :=
  lookup_filter_ne m.entries name other

theorem lookup_map (f : String → α → β) (es : List (String × α)) (name : String) :
    (es.map fun e => (e.1, f e.1 e.2)).lookup name = (es.lookup name).map (f name) := by
  induction es with
  | nil => rfl
  | cons e es ih =>
    rw [List.map_cons, lookup_cons, lookup_cons, ih]
    by_cases h : name = e.1 <;> simp [h]

theorem get?_map (f : String → α → β) (m : NameMap α) (name : String) :
    (m.map f).get? name = (m.get? name).map (f name) :=
  lookup_map f m.entries name

theorem get?_foldl_insert (names : List String) (f : String → α) (m : NameMap α) (name : String) :
    (names.foldl (fun m name => m.insert name (f name)) m).get? name =
      if name ∈ names then some (f name) else m.get? name := by
  induction names generalizing m with
  | nil => simp
  | cons n ns ih =>
    rw [List.foldl_cons, ih, get?_insert]
    by_cases h : name = n <;> by_cases hs : name ∈ ns <;> simp_all

theorem get?_ofNames (names : List String) (f : String → α) (name : String) :
    (ofNames names f).get? name = if name ∈ names then some (f name) else none := by
  rw [ofNames, get?_foldl_insert, get?_empty]

theorem mem_map_fst_iff (es : List (String × α)) (name : String) :
    name ∈ es.map (·.1) ↔ (es.lookup name).isSome := by
  induction es with
  | nil => simp
  | cons e es ih =>
    rw [List.map_cons, List.mem_cons, lookup_cons, ih]
    by_cases h : name = e.1 <;> simp [h]

theorem mem_keys {m : NameMap α} {name : String} : name ∈ m.keys ↔ (m.get? name).isSome :=
  mem_map_fst_iff m.entries name

theorem get?_combine (f : Option α → Option β → γ) (a : NameMap α) (b : NameMap β) (name : String) :
    (combine f a b).get? name =
      if (a.get? name).isSome ∨ (b.get? name).isSome then some (f (a.get? name) (b.get? name))
      else none := by
  simp only [combine, get?_ofNames, List.mem_append, mem_keys]

theorem lookup_eq_some_iff {es : List (String × α)} (h : es.Pairwise fun a b => a.1 < b.1)
    {name : String} {value : α} : es.lookup name = some value ↔ (name, value) ∈ es := by
  induction es with
  | nil => simp
  | cons e es ih =>
    have ⟨first, rest⟩ := List.pairwise_cons.1 h
    rw [lookup_cons, List.mem_cons]
    by_cases eq : name = e.1
    · have new : (name, value) ∉ es := fun mem => Std.lt_irrefl (eq ▸ first _ mem)
      rw [if_pos eq]
      constructor
      · intro h
        exact .inl (Prod.ext eq (Option.some.inj h).symm)
      · rintro (h | h)
        · rw [← h]
        · exact absurd h new
    · rw [if_neg eq, ih rest]
      simp [Prod.ext_iff, eq]

theorem get?_eq_some_iff {m : NameMap α} {name : String} {value : α} :
    m.get? name = some value ↔ (name, value) ∈ m.entries :=
  lookup_eq_some_iff m.increasing

theorem get?_foldl_insert_pair (pairs : List (String × α)) (m : NameMap α) (name : String) :
    (pairs.foldl (fun m pair => m.insert pair.1 pair.2) m).get? name =
      ((pairs.reverse.find? fun pair => pair.1 = name).map (·.2)).or (m.get? name) := by
  induction pairs generalizing m with
  | nil => simp
  | cons pair pairs ih =>
    rw [List.foldl_cons, ih, get?_insert, List.reverse_cons, List.find?_append]
    by_cases eq : name = pair.1
    · cases pairs.reverse.find? fun p => p.1 = name <;> simp [eq]
    · cases pairs.reverse.find? fun p => p.1 = name <;> simp [eq, Ne.symm eq]

theorem get?_foldl_insert_of_agree {pairs : List (String × α)} {m : NameMap α} {name : String}
    {value : α} (hagree : ∀ pair ∈ pairs, pair.1 = name → pair.2 = value)
    (h : (name, value) ∈ pairs ∨ m.get? name = some value) :
    (pairs.foldl (fun m pair => m.insert pair.1 pair.2) m).get? name = some value := by
  rw [get?_foldl_insert_pair]
  cases hfind : pairs.reverse.find? fun pair => pair.1 = name with
  | none =>
    rw [List.find?_eq_none] at hfind
    refine h.resolve_left fun hmem => hfind _ (List.mem_reverse.2 hmem) ?_
    exact decide_eq_true rfl
  | some pair =>
    have hname : pair.1 = name := by simpa using List.find?_some hfind
    have hmem := List.mem_reverse.1 (List.mem_of_find?_eq_some hfind)
    exact congrArg some (hagree pair hmem hname)

/-- Pairs that have been inserted change nothing when they are inserted again. -/
theorem foldl_insert_again (pairs : List (String × α)) (m : NameMap α) :
    pairs.foldl (fun m pair => m.insert pair.1 pair.2)
        (pairs.foldl (fun m pair => m.insert pair.1 pair.2) m) =
      pairs.foldl (fun m pair => m.insert pair.1 pair.2) m := by
  refine NameMap.ext fun name => ?_
  rw [get?_foldl_insert_pair, get?_foldl_insert_pair, ← Option.or_assoc, Option.or_self]

theorem get?_ofList (pairs : List (String × α)) (name : String) :
    (ofList pairs).get? name = (pairs.reverse.find? fun pair => pair.1 = name).map (·.2) := by
  rw [ofList, get?_foldl_insert_pair, get?_empty, Option.or_none]

end Midend.NameMap

namespace Midend.NameSet

/-- Names that have been added change nothing when they are added again. -/
theorem foldl_add_again (names : List String) (s : NameSet) :
    names.foldl add (names.foldl add s) = names.foldl add s := by
  refine NameMap.ext fun name => ?_
  unfold add
  rw [NameMap.get?_foldl_insert, NameMap.get?_foldl_insert]
  split <;> rfl

theorem contains_foldl_add (names : List String) (s : NameSet) (name : String) :
    NameMap.contains (names.foldl add s) name = true ↔
      name ∈ names ∨ NameMap.contains s name = true := by
  unfold add NameMap.contains
  rw [NameMap.get?_foldl_insert]
  split <;> simp_all

@[simp] theorem contains_ofList (names : List String) (name : String) :
    NameMap.contains (ofList names) name = true ↔ name ∈ names := by
  rw [NameMap.contains, ofList, NameMap.get?_ofNames]
  split <;> simp_all

theorem mem_keys_ofList {names : List String} {name : String} :
    name ∈ (ofList names).keys ↔ name ∈ names := by
  rw [NameMap.mem_keys, ofList, NameMap.get?_ofNames]
  split <;> simp_all

end Midend.NameSet
