import Midend.Proofs.Flow.Graph
import Mathlib.Data.List.Dedup
/-!
# The check of labels and the graph of a body

The labels of a body are looked at twice, by the check and when its graph is made.  Both refuse the
same bodies, for the same label, and the graph of a body that they accept tells the same of its
jumps from both ends (`ofBody_agrees`).
-/

namespace Midend.Flow

/-! ## Jumps -/

def Stmt.jumps : Stmt → List Label
  | branch _ onTrue onFalse => [onTrue, onFalse]
  | jump target => [target]
  | _ => []

def Block.jumps (b : Block) : List Label := (b.stmts.getLast?.map Stmt.jumps).getD []

theorem Stmt.targets_eq_dedup (s : Stmt) : s.targets = s.jumps.dedup := by
  cases s with
  | branch cond onTrue onFalse =>
      by_cases hsame : onTrue = onFalse <;> simp [targets, jumps, hsame]
  | _ => rfl

theorem Block.successors_eq_dedup (b : Block) : b.successors = b.jumps.dedup := by
  unfold successors jumps
  cases b.stmts.getLast? with
  | none => rfl
  | some s => exact s.targets_eq_dedup

namespace Graph

variable {scope : String} {body : List Block} {g : Graph} {labels : List Label}

/-! ## The first offence -/

/-- The blocks of a body come to a halt at the label that the check finds repeated. -/
theorem foldlM_addBlock_of_repeated (hg : Bare g labels) {seen : List Label}
    (hseen : ∀ l, l ∈ seen ↔ l ∈ labels) {label : Label}
    (h : repeated? seen (body.map (·.label)) = some label) :
    body.foldlM (addBlock scope) g = .error (.repeatedLabel label scope) := by
  induction body generalizing g labels seen with
  | nil => exact nomatch h
  | cons b bs ih =>
      rw [List.map_cons, repeated?] at h
      rw [List.foldlM_cons]
      by_cases hb : b.label ∈ seen
      · rw [if_pos hb] at h
        obtain rfl := Option.some.inj h
        rw [addBlock_of_mem hg scope ((hseen _).1 hb)]
        rfl
      · rw [if_neg hb] at h
        obtain ⟨g₁, hadd, hg₁⟩ := hg.addBlock scope (mt (hseen _).2 hb)
        rw [hadd]
        refine ih hg₁ (fun l => ?_) h
        rw [List.mem_cons, hseen, List.mem_append, List.mem_singleton, or_comm]

theorem foldlM_addEdgeOf_of_missing (hg : g.HasNodes labels) {es : List (Label × Label)}
    {e : Label × Label} (h : es.find? (fun e => e.2 ∉ labels) = some e) :
    es.foldlM (addEdgeOf scope) g = .error (.missingLabel e.2 scope) := by
  induction es generalizing g with
  | nil => exact nomatch h
  | cons d es ih =>
      rw [List.foldlM_cons]
      by_cases hd : d.2 ∈ labels
      · rw [List.find?_cons_of_neg (by simpa using hd)] at h
        obtain ⟨g₁, hadd⟩ : ∃ g₁, addEdgeOf scope g d = .ok g₁ :=
          addEdgeOf_ok_iff.2 ((hg d.2).2 hd)
        rw [hadd]
        exact ih (fun l => ((edgeAdded_of_addEdgeOf hadd).nodes l).trans (hg l)) h
      · rw [List.find?_cons_of_pos (by simpa using hd)] at h
        obtain rfl := Option.some.inj h
        have hnone : g.preds.get? d.2 = none :=
          Option.not_isSome_iff_eq_none.1 (mt (hg d.2).1 hd)
        rw [addEdgeOf, addEdge, hnone]
        rfl

theorem missing?_eq (labels : List Label) (body : List Block) :
    missing? labels body = ((edges body).find? fun e => e.2 ∉ labels).map (·.2) := by
  have htargets : body.flatMap Block.successors = (edges body).map (·.2) := by
    simp [edges, List.map_flatMap, Function.comp_def]
  rw [missing?, htargets, List.find?_map]
  rfl

/-- What the check of labels finds wrong, the graph of the body stops at. -/
theorem ofBody_eq_error {cause : Fault} (h : checkLabels scope body = .error cause) :
    ofBody scope body = .error cause := by
  unfold checkLabels at h
  dsimp only at h
  unfold ofBody
  cases hrepeated : repeated? [] (body.map (·.label)) with
  | some label =>
      rw [hrepeated] at h
      obtain rfl := Except.error.inj h
      rw [foldlM_addBlock_of_repeated bare_empty (fun _ => Iff.rfl) hrepeated]
      rfl
  | none =>
      obtain ⟨hdistinct, -⟩ := repeated?_eq_none_iff.1 hrepeated
      obtain ⟨g₀, hnodes, hbare⟩ := bare_empty.foldlM_addBlock scope body hdistinct
      rw [hrepeated, missing?_eq] at h
      cases hmissing : (edges body).find? fun e => e.2 ∉ body.map (·.label) with
      | none =>
          rw [hmissing] at h
          exact nomatch h
      | some e =>
          rw [hmissing] at h
          obtain rfl := Except.error.inj h
          rw [hnodes]
          exact (foldlM_addEdge scope body g₀).trans
            (foldlM_addEdgeOf_of_missing hbare.hasNodes hmissing)

/-! ## Both ends of the edges -/

/-- The graph tells of every jump of the body once, and the same from both ends. -/
structure Mirrors (g : Graph) (body : List Block) : Prop where
  labels_eq : g.labels = body.map (·.label)
  succs_eq : ∀ b ∈ body, g.succsOf b.label = b.jumps.dedup
  mem_preds_iff : ∀ source target, source ∈ g.predsOf target ↔ target ∈ g.succsOf source
  nodup_preds : ∀ label, (g.predsOf label).Nodup
  nodup_succs : ∀ label, (g.succsOf label).Nodup

theorem mirrors_of_ofBody (h : ofBody scope body = .ok g) : g.Mirrors body := by
  have hg := describes_of_ofBody h
  obtain ⟨-, g₀, hbare, hadded⟩ := edgesAdded_of_ofBody h
  have hpreds : ∀ l, g.predsOf l = (sourcesOf (edges body) l).foldl addOnce [] := fun l => by
    rw [hadded.preds_eq, hbare.predsOf_eq]
  have hsuccs : ∀ l, g.succsOf l = (targetsOf (edges body) l).foldl addOnce [] := fun l => by
    rw [hadded.succs_eq, hbare.succsOf_eq]
  refine ⟨hg.labels_eq, fun b hb => ?_, fun source target => ?_, fun l => ?_, fun l => ?_⟩
  · rw [hg.succs_eq b hb, b.successors_eq_dedup]
  · rw [hpreds, hsuccs, mem_foldl_addOnce, mem_foldl_addOnce, mem_sourcesOf, mem_targetsOf]
    simp only [List.not_mem_nil, false_or]
  · rw [hpreds]
    exact nodup_foldl_addOnce List.nodup_nil
  · rw [hsuccs]
    exact nodup_foldl_addOnce List.nodup_nil

/-- A body has no graph exactly when the check of its labels refuses it, and both report the same
fault.  Otherwise the successors of a block are the labels that its last statement names, each once,
the predecessors say the same from the other end, and no list has a label twice. -/
theorem ofBody_agrees (scope : String) (body : List Block) :
    match ofBody scope body with
    | .ok g => checkLabels scope body = .ok () ∧ g.Mirrors body
    | .error cause => checkLabels scope body = .error cause := by
  cases hbody : ofBody scope body with
  | ok g => exact ⟨checkLabels_eq_ok_iff.2 (describes_of_ofBody hbody).wellLabelled,
      mirrors_of_ofBody hbody⟩
  | error cause =>
      cases hcheck : checkLabels scope body with
      | ok _ =>
          obtain ⟨g, hg⟩ := exists_ofBody_iff.2 (checkLabels_eq_ok_iff.1 hcheck)
          exact nomatch hbody.symm.trans hg
      | error cause' =>
          exact congrArg _ (Except.error.inj ((ofBody_eq_error hcheck).symm.trans hbody))

end Graph

end Midend.Flow
