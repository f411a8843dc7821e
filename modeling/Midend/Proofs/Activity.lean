/-!
# Activities with a state

An activity that may fail and keeps a state either way: how it ends, and how activities end
one after another.
-/

namespace Midend

variable {ε σ α β : Type} {act : ExceptT ε (StateM σ) α} {next : α → ExceptT ε (StateM σ) β}
  {s s' : σ} {a : α} {fault : ε}

def runOn (act : ExceptT ε (StateM σ) α) (s : σ) : Except ε α × σ := StateT.run (ExceptT.run act) s

theorem runOn_bind (act : ExceptT ε (StateM σ) α) (next : α → ExceptT ε (StateM σ) β) (s : σ) :
    runOn (act >>= next) s = match runOn act s with
      | (.ok a, s') => runOn (next a) s'
      | (.error fault, s') => (.error fault, s') := by
  unfold runOn ExceptT.run StateT.run
  simp only [bind, ExceptT.bind, ExceptT.mk, StateT.bind]
  cases act s with
  | mk ended s' =>
      cases ended with
      | ok a => rfl
      | error fault => rfl

theorem runOn_bind_ok (hrun : runOn act s = (.ok a, s')) :
    runOn (act >>= next) s = runOn (next a) s' := by
  rw [runOn_bind, hrun]

theorem runOn_bind_error (hrun : runOn act s = (.error fault, s')) :
    runOn (act >>= next) s = (.error fault, s') := by
  rw [runOn_bind, hrun]

/-- What two activities do to the state, one after the other, is done where the first one fails,
too, if it goes on transitively. -/
theorem runOn_bind_trans {R : σ → σ → Prop} (htrans : ∀ {s s₁ s'}, R s s₁ → R s₁ s' → R s s')
    (hact : ∀ s, R s (runOn act s).2) (hnext : ∀ a s, R s (runOn (next a) s).2) (s : σ) :
    R s (runOn (act >>= next) s).2 := by
  have hfirst := hact s
  cases hrun : runOn act s with
  | mk ended s₁ =>
      rw [hrun] at hfirst
      cases ended with
      | ok a =>
          rw [runOn_bind_ok hrun]
          exact htrans hfirst (hnext a s₁)
      | error fault =>
          rw [runOn_bind_error hrun]
          exact hfirst

theorem runOn_bind_inv {b : β} (h : runOn (act >>= next) s = (.ok b, s')) :
    ∃ a s₁, runOn act s = (.ok a, s₁) ∧ runOn (next a) s₁ = (.ok b, s') := by
  rw [runOn_bind] at h
  cases hact : runOn act s with
  | mk ended s₁ =>
      rw [hact] at h
      cases ended with
      | ok a => exact ⟨a, s₁, rfl, h⟩
      | error fault => exact nomatch (Prod.mk.inj h).1

end Midend
