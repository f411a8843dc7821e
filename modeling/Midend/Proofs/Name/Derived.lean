import Mathlib.Data.List.Basic
import Midend.Name.Derived
/-!
# Derived names tell where they come from

A dotted path can be split again where no name in it has a dot.  The name of a closure class and the
name of a method outside its class can be split at `$`, although the names of functions may begin or
end with `_`.
-/

namespace Midend

variable {function function' className className' method method' : String}
  {enclosing enclosing' names names' : List String}

/-- Names joined by a character that none of them has are told from the joined text. -/
theorem intercalate_inj {sep : Char} (hne : names ≠ []) (hne' : names' ≠ [])
    (hfree : ∀ name ∈ names, sep ∉ name.toList) (hfree' : ∀ name ∈ names', sep ∉ name.toList)
    (h : (String.singleton sep).intercalate names = (String.singleton sep).intercalate names') :
    names = names' := by
  have hsplit : ∀ {names : List String}, names ≠ [] → (∀ name ∈ names, sep ∉ name.toList) →
      ((String.singleton sep).intercalate names).toList.splitOn sep =
        names.map String.toList := by
    intro names hne hfree
    rw [String.toList_intercalate, String.toList_singleton]
    exact List.splitOn_intercalate sep (List.forall_mem_map.2 hfree) (by simpa using hne)
  have hmap : names.map String.toList = names'.map String.toList := by
    rw [← hsplit hne hfree, ← hsplit hne' hfree', h]
  exact List.map_injective_iff.2 (fun _ _ => String.toList_inj.1) hmap

/-- The dotted path of a function names all functions on the way to it. -/
theorem dottedPath_inj (hfree : ∀ name ∈ enclosing ++ [function], '.' ∉ name.toList)
    (hfree' : ∀ name ∈ enclosing' ++ [function'], '.' ∉ name.toList)
    (h : dottedPath function enclosing = dottedPath function' enclosing') :
    enclosing ++ [function] = enclosing' ++ [function'] :=
  intercalate_inj (by simp) (by simp) hfree hfree' h

/-- The name of a closure class, taken apart at its dollars. -/
theorem closureClassName_eq (function : String) (enclosing : List String) :
    closureClassName function enclosing =
      "$".intercalate ((enclosing ++ [function]).map (· ++ "_") ++ ["closure", ""]) := by
  unfold closureClassName
  generalize hnames : enclosing ++ [function] = names
  have hne : names ≠ [] := by simp [← hnames]
  clear hnames
  induction names with
  | nil => exact absurd rfl hne
  | cons name names ih =>
      cases names with
      | nil => simp [String.append_assoc]
      | cons next names =>
          have ih := ih (List.cons_ne_nil _ _)
          simp only [String.intercalate_cons_cons, List.map_cons, List.cons_append,
            String.append_assoc] at ih ⊢
          rw [ih]
          rfl

theorem closureClassName_inj (hfree : ∀ name ∈ enclosing ++ [function], '$' ∉ name.toList)
    (hfree' : ∀ name ∈ enclosing' ++ [function'], '$' ∉ name.toList)
    (h : closureClassName function enclosing = closureClassName function' enclosing') :
    enclosing ++ [function] = enclosing' ++ [function'] := by
  have hparts : ∀ {names : List String}, (∀ name ∈ names, '$' ∉ name.toList) →
      ∀ part ∈ names.map (· ++ "_") ++ ["closure", ""], '$' ∉ part.toList := by
    intro names hfree
    rw [List.forall_mem_append, List.forall_mem_map]
    exact ⟨fun name hname => by simpa using hfree name hname, by decide⟩
  rw [closureClassName_eq, closureClassName_eq] at h
  have hsame := intercalate_inj (by simp) (by simp) (hparts hfree) (hparts hfree') h
  have hinj : Function.Injective (· ++ "_") := fun _ _ => (String.append_left_inj "_").1
  exact List.map_injective_iff.2 hinj (List.append_cancel_right hsame)

theorem append_dollar_inj {front front' behind behind' : List Char} (hfree : '$' ∉ behind)
    (hfree' : '$' ∉ behind') (h : front ++ '$' :: behind = front' ++ '$' :: behind') :
    front = front' ∧ behind = behind' := by
  have hnone : ∀ {middle behind behind' : List Char}, '$' ∉ behind →
      '$' :: behind = middle ++ '$' :: behind' → middle = [] := by
    intro middle behind behind' hfree heq
    cases middle with
    | nil => rfl
    | cons c middle =>
        rw [List.cons_append, List.cons.injEq] at heq
        exact absurd (heq.2 ▸ List.mem_append_right _ List.mem_cons_self) hfree
  rcases List.append_eq_append_iff.1 h with ⟨middle, rfl, heq⟩ | ⟨middle, rfl, heq⟩
  · obtain rfl := hnone hfree heq
    simpa using heq
  · obtain rfl := hnone hfree' heq
    simpa using heq.symm

/-- The name of a method outside its class tells both, whatever the class is called. -/
theorem methodName_inj (hfree : '$' ∉ method.toList) (hfree' : '$' ∉ method'.toList)
    (h : methodName className method = methodName className' method') :
    className = className' ∧ method = method' := by
  have hchars : className.toList ++ '$' :: method.toList =
      className'.toList ++ '$' :: method'.toList := by
    simpa [methodName] using congrArg String.toList h
  obtain ⟨hclass, hmethod⟩ := append_dollar_inj hfree hfree' hchars
  exact ⟨String.toList_inj.1 hclass, String.toList_inj.1 hmethod⟩

end Midend
