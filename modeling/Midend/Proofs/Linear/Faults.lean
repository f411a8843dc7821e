import Midend.Proofs.Linear.Stepwise
/-!
# Faults of flattening

Flattening fails in a few ways of its own: a tree or a catalog disagrees with itself.  None of its
faults is about the labels of the blocks that it makes (`orderly_program`).  Whether it fails or
not, flattening a program only adds to the catalog (`extends_flatten`).
-/

namespace Midend.Linear

open Build

/-- Building only adds to the catalog, and where it fails, the fault is one of flattening. -/
structure Orderly {α : Type} (act : Build α) : Prop where
  extends_run : ∀ s : State, s.catalog.Extends (runOn act s).2.catalog
  code : ∀ s fault s', runOn act s = (.error fault, s') → fault.code ∈ flatteningCodes

section Steps

variable {α β : Type} {act : Build α} {next : α → Build β}

theorem orderly_pure (a : α) : Orderly (pure a : Build α) :=
  ⟨fun s => .refl s.catalog, fun _ _ _ h => nomatch (Prod.mk.inj h).1⟩

theorem orderly_throw {fault : Fault} (h : fault.code ∈ flatteningCodes) :
    Orderly (throw fault : Build α) where
  extends_run s := .refl s.catalog
  code s found s' hrun := by
    obtain rfl := Except.error.inj (Prod.mk.inj hrun).1
    exact h

theorem orderly_modify {change : State → α × State}
    (h : ∀ s : State, s.catalog.Extends (change s).2.catalog) :
    Orderly (modifyGet change : Build α) :=
  ⟨h, fun _ _ _ h => nomatch (Prod.mk.inj h).1⟩

theorem Orderly.bind (hact : Orderly act) (hnext : ∀ a, Orderly (next a)) :
    Orderly (act >>= next) where
  extends_run := runOn_bind_trans (R := fun s s' : State => s.catalog.Extends s'.catalog)
    Catalog.Extends.trans hact.extends_run fun a => (hnext a).extends_run
  code s fault s' h := by
    rw [runOn_bind] at h
    cases hrun : runOn act s with
    | mk ended s₁ =>
        rw [hrun] at h
        cases ended with
        | ok a => exact (hnext a).code s₁ fault s' h
        | error found =>
            obtain rfl := Except.error.inj (Prod.mk.inj h).1
            exact hact.code s found s₁ hrun

theorem orderly_ask {look : Catalog → Except Fault α} (h : Asked look) : Orderly (ask look) :=
  ⟨fun s => .refl s.catalog, fun s fault _ hrun => h.code s.catalog fault (Prod.mk.inj hrun).1⟩

end Steps

/-! ## Programs -/

theorem orderly_get : Orderly (get : Build State) := orderly_modify fun s => .refl s.catalog

theorem orderly_enter (name : String) (fields : List Tree.Decl) (methods : List (String × Nat)) :
    Orderly (enter name fields methods) :=
  orderly_modify fun s => extends_withClass s.catalog name fields methods

theorem stepwise_orderly (classes : List Tree.Class) : Stepwise classes Orderly where
  pure := orderly_pure
  bind := Orderly.bind
  throw := orderly_throw
  fresh _ _ := orderly_modify fun s => .refl s.catalog
  ask := orderly_ask
  enterClosure _ _ := orderly_enter _ _ _
  enterClass _ := orderly_enter _ _ _
  recordPaths enclosing f :=
    orderly_modify fun s => Catalog.extends_setClosures (Closure.paths enclosing f) s.catalog
  addGlobals names := orderly_modify fun s => Catalog.extends_addGlobals names s.catalog
  keep _ := orderly_modify fun s => .refl s.catalog
  read _ := orderly_get.bind fun _ => orderly_pure _

theorem orderly_program (p : Tree.Program) : Orderly (program p) :=
  stepwise_program (stepwise_orderly p.classes)

theorem extends_flatten (catalog : Catalog) (p : Tree.Program) :
    catalog.Extends (flatten catalog p).2 :=
  (orderly_program p).extends_run ⟨catalog, .empty, []⟩

end Midend.Linear
