import Midend.Flow.Graph
import Midend.Flow.Labels
import Midend.Name.Lemmas
import Mathlib.Data.List.Forall2
import Mathlib.Data.List.Nodup
import Mathlib.Order.Defs.Unbundled
/-!
# The graph of a body

A body has a graph exactly when its labels are distinct and its jumps land in it
(`exists_ofBody_iff`), and that is what the check of labels accepts
(`checkLabels_eq_ok_iff`).  The graph then has an edge for every jump and no
other (`describes_of_ofBody`).

Both depend only on the labels and the jumps of the blocks (`Block.SameEdges`).
-/

namespace Midend.Flow

/-! ## Lists entry by entry -/

theorem forall_mem_of_forall₂ {α β : Type} {R : α → β → Prop} {P : α → Prop} {Q : β → Prop}
    {xs : List α} {ys : List β} (h : List.Forall₂ R xs ys) (hR : ∀ x y, R x y → P x → Q y)
    (hxs : ∀ x ∈ xs, P x) : ∀ y ∈ ys, Q y := by
  induction h with
  | nil => exact fun y hy => nomatch hy
  | cons hfirst _ ih =>
      rw [List.forall_mem_cons] at hxs ⊢
      exact ⟨hR _ _ hfirst hxs.1, ih hxs.2⟩

theorem forall₂_trans {α : Type} {R : α → α → Prop} [IsTrans α R] {xs ys zs : List α}
    (h : List.Forall₂ R xs ys) (h' : List.Forall₂ R ys zs) : List.Forall₂ R xs zs := by
  induction h generalizing zs with
  | nil => exact h'
  | cons hfirst _ ih =>
      cases h' with
      | cons hfirst' hrest' => exact .cons (IsTrans.trans _ _ _ hfirst hfirst') (ih hrest')

/-! ## Labels -/

structure WellLabelled (body : List Block) : Prop where
  distinct : (body.map (·.label)).Nodup
  resolved : ∀ b ∈ body, ∀ target ∈ b.successors, target ∈ body.map (·.label)

structure Block.SameEdges (b b' : Block) : Prop where
  label_eq : b'.label = b.label
  successors_eq : b'.successors = b.successors

theorem WellLabelled.of_sameEdges {body body' : List Block} (hbody : WellLabelled body)
    (h : List.Forall₂ Block.SameEdges body body') : WellLabelled body' := by
  have hlabels : body'.map (·.label) = body.map (·.label) := by
    clear hbody
    induction h with
    | nil => rfl
    | cons hb _ ih => rw [List.map_cons, List.map_cons, ih, hb.label_eq]
  have hjumps : body'.map Block.successors = body.map Block.successors := by
    clear hbody hlabels
    induction h with
    | nil => rfl
    | cons hb _ ih => rw [List.map_cons, List.map_cons, ih, hb.successors_eq]
  refine ⟨hlabels ▸ hbody.distinct, fun b' hb' target htarget => ?_⟩
  have hmem : b'.successors ∈ body.map Block.successors := hjumps ▸ List.mem_map_of_mem hb'
  obtain ⟨b, hb, hsuccs⟩ := List.mem_map.1 hmem
  rw [hlabels]
  exact hbody.resolved b hb target (hsuccs ▸ htarget)

/-! ## The check of labels -/

theorem repeated?_eq_none_iff {seen labels : List Label} :
    repeated? seen labels = none ↔
      labels.Nodup ∧ ∀ l ∈ labels, l ∉ seen := by
  induction labels generalizing seen with
  | nil => simp [repeated?]
  | cons l ls ih =>
      unfold repeated?
      split
      · rename_i hl
        simp [hl]
      · rename_i hl
        rw [ih, List.nodup_cons]
        constructor
        · rintro ⟨hnodup, hnew⟩
          refine ⟨⟨fun hmem => ?_, hnodup⟩, fun x hx => ?_⟩
          · exact hnew l hmem List.mem_cons_self
          · rcases List.mem_cons.1 hx with rfl | hx
            · exact hl
            · exact fun hseen => hnew x hx (List.mem_cons_of_mem _ hseen)
        · rintro ⟨⟨hfirst, hnodup⟩, hnew⟩
          refine ⟨hnodup, fun x hx hseen => ?_⟩
          rcases List.mem_cons.1 hseen with rfl | hseen
          · exact hfirst hx
          · exact hnew x (List.mem_cons_of_mem _ hx) hseen

theorem missing?_eq_none_iff {labels : List Label} {body : List Block} :
    missing? labels body = none ↔
      ∀ b ∈ body, ∀ target ∈ b.successors, target ∈ labels := by
  simp only [missing?, List.find?_eq_none, List.mem_flatMap]
  constructor
  · intro h b hb target ht
    simpa using h target ⟨b, hb, ht⟩
  · rintro h target ⟨b, hb, ht⟩
    simpa using h b hb target ht

theorem checkLabels_eq_ok_iff {scope : String} {body : List Block} :
    checkLabels scope body = .ok () ↔ WellLabelled body := by
  have hiff : WellLabelled body ↔
      repeated? [] (body.map (·.label)) = none ∧
        missing? (body.map (·.label)) body = none := by
    rw [repeated?_eq_none_iff, missing?_eq_none_iff]
    constructor
    · rintro ⟨hdistinct, hresolved⟩
      exact ⟨⟨hdistinct, fun _ _ => List.not_mem_nil⟩, hresolved⟩
    · rintro ⟨⟨hdistinct, -⟩, hresolved⟩
      exact ⟨hdistinct, hresolved⟩
  rw [hiff]
  unfold checkLabels
  dsimp only
  split <;> simp_all

theorem forM_checkLabels_eq_ok_iff (bodies : List (String × List Block)) :
    (bodies.forM fun (scope, body) => checkLabels scope body) = .ok () ↔
      ∀ entry ∈ bodies, WellLabelled entry.2 := by
  induction bodies with
  | nil => simp [pure, Except.pure]
  | cons entry bodies ih =>
      obtain ⟨scope, body⟩ := entry
      have hcons : (((scope, body) :: bodies).forM fun (scope, body) =>
          checkLabels scope body) = (do
            checkLabels scope body
            bodies.forM fun (scope, body) => checkLabels scope body) := rfl
      have hfirst : checkLabels scope body = .ok () ↔ WellLabelled body :=
        checkLabels_eq_ok_iff
      rw [hcons, List.forall_mem_cons, ← ih, ← hfirst]
      cases checkLabels scope body <;> simp [bind, Except.bind]

/-! ## Edges -/

namespace Graph

def edges (body : List Block) : List (Label × Label) :=
  body.flatMap fun b => b.successors.map fun target => (b.label, target)

theorem mem_edges {body : List Block} {source target : Label} :
    (source, target) ∈ edges body ↔
      ∃ b ∈ body, b.label = source ∧ target ∈ b.successors := by
  simp only [edges, List.mem_flatMap, List.mem_map, Prod.mk.injEq]
  constructor
  · rintro ⟨b, hb, t, ht, rfl, rfl⟩
    exact ⟨b, hb, rfl, ht⟩
  · rintro ⟨b, hb, rfl, ht⟩
    exact ⟨b, hb, target, ht, rfl, rfl⟩

def addEdgeOf (scope : String) (g : Graph) (edge : Label × Label) : Except Fault Graph :=
  addEdge scope edge.1 g edge.2

theorem foldlM_addEdge (scope : String) (body : List Block) (g : Graph) :
    body.foldlM (fun g b => b.successors.foldlM (addEdge scope b.label) g) g =
      (edges body).foldlM (addEdgeOf scope) g := by
  induction body generalizing g with
  | nil => rfl
  | cons b bs ih =>
      rw [List.foldlM_cons, edges, List.flatMap_cons, List.foldlM_append, List.foldlM_map]
      exact congrArg _ (funext ih)

/-! ## Lists in which a label is put once -/

theorem mem_foldl_addOnce {news labels : List Label} {l : Label} :
    l ∈ news.foldl addOnce labels ↔ l ∈ labels ∨ l ∈ news := by
  induction news generalizing labels with
  | nil => simp
  | cons n news ih =>
      rw [List.foldl_cons, ih, addOnce]
      split
      · rename_i hn
        constructor
        · rintro (h | h)
          · exact .inl h
          · exact .inr (List.mem_cons_of_mem _ h)
        · rintro (h | h)
          · exact .inl h
          · rcases List.mem_cons.1 h with rfl | h
            · exact .inl hn
            · exact .inr h
      · simp [or_assoc]

theorem nodup_foldl_addOnce {news labels : List Label} (h : labels.Nodup) :
    (news.foldl addOnce labels).Nodup := by
  induction news generalizing labels with
  | nil => exact h
  | cons n news ih =>
      refine ih ?_
      unfold addOnce
      split
      · exact h
      · rename_i hn
        exact List.nodup_append.2 ⟨h, List.nodup_singleton n, fun x hx y hy heq =>
          hn (List.mem_singleton.1 hy ▸ heq ▸ hx)⟩

theorem foldl_addOnce_of_nodup {news labels : List Label} (h : (labels ++ news).Nodup) :
    news.foldl addOnce labels = labels ++ news := by
  induction news generalizing labels with
  | nil => simp
  | cons n news ih =>
      have hn : n ∉ labels := by
        intro hmem
        exact (List.nodup_append.1 h).2.2 n hmem n List.mem_cons_self rfl
      rw [List.foldl_cons, addOnce, if_neg hn, ih (by simpa using h)]
      simp

theorem nodup_successors (b : Block) : b.successors.Nodup := by
  unfold Block.successors
  cases b.stmts.getLast? with
  | none => simp
  | some s =>
      cases s <;> simp only [Option.map_some, Option.getD_some, Stmt.targets]
      case branch cond onTrue onFalse => split <;> simp_all
      all_goals simp

/-! ## The nodes of a graph -/

structure Bare (g : Graph) (labels : List Label) : Prop where
  labels_eq : g.labels = labels
  preds_eq : ∀ l, g.preds.get? l = if l ∈ labels then some [] else none
  succs_eq : ∀ l, g.succs.get? l = if l ∈ labels then some [] else none

theorem bare_empty : Bare empty [] := by
  constructor <;> intros <;> rfl

theorem Bare.contains_iff {g : Graph} {labels : List Label} (hg : Bare g labels) (l : Label) :
    g.preds.contains l = true ↔ l ∈ labels := by
  rw [NameMap.contains, hg.preds_eq]
  split <;> simp_all

theorem Bare.predsOf_eq {g : Graph} {labels : List Label} (hg : Bare g labels) (l : Label) :
    g.predsOf l = [] := by
  rw [predsOf, hg.preds_eq]
  split <;> rfl

theorem Bare.succsOf_eq {g : Graph} {labels : List Label} (hg : Bare g labels) (l : Label) :
    g.succsOf l = [] := by
  rw [succsOf, hg.succs_eq]
  split <;> rfl

theorem Bare.addBlock {g : Graph} {labels : List Label} {b : Block} (hg : Bare g labels)
    (scope : String) (hb : b.label ∉ labels) :
    ∃ g', addBlock scope g b = .ok g' ∧ Bare g' (labels ++ [b.label]) := by
  have hnew : ¬ g.preds.contains b.label = true := fun h => hb ((hg.contains_iff _).1 h)
  refine ⟨_, by rw [Graph.addBlock, if_neg hnew], ?_, fun l => ?_, fun l => ?_⟩
  · simp [hg.labels_eq]
  · rw [NameMap.get?_insert, hg.preds_eq]
    by_cases hl : l = b.label <;> simp [hl]
  · rw [NameMap.get?_insert, hg.succs_eq]
    by_cases hl : l = b.label <;> simp [hl]

theorem addBlock_of_mem {g : Graph} {labels : List Label} {b : Block} (hg : Bare g labels)
    (scope : String) (hb : b.label ∈ labels) :
    addBlock scope g b = .error (.repeatedLabel b.label scope) := by
  rw [Graph.addBlock, if_pos ((hg.contains_iff _).2 hb)]

theorem Bare.foldlM_addBlock {g : Graph} {labels : List Label} (hg : Bare g labels)
    (scope : String) (body : List Block) (hnodup : (labels ++ body.map (·.label)).Nodup) :
    ∃ g', body.foldlM (Graph.addBlock scope) g = .ok g' ∧
      Bare g' (labels ++ body.map (·.label)) := by
  induction body generalizing g labels with
  | nil => exact ⟨g, rfl, by simpa using hg⟩
  | cons b bs ih =>
      have hb : b.label ∉ labels := fun hmem =>
        (List.nodup_append.1 hnodup).2.2 _ hmem _ List.mem_cons_self rfl
      obtain ⟨g₁, hadd, hg₁⟩ := hg.addBlock scope hb
      obtain ⟨g', hfold, hg'⟩ := ih hg₁ (by simpa using hnodup)
      refine ⟨g', ?_, by simpa using hg'⟩
      rw [List.foldlM_cons, hadd]
      exact hfold

theorem nodup_of_foldlM_addBlock {g g' : Graph} {labels : List Label} {scope : String}
    {body : List Block} (hg : Bare g labels) (hnodup : labels.Nodup)
    (h : body.foldlM (Graph.addBlock scope) g = .ok g') :
    (labels ++ body.map (·.label)).Nodup := by
  induction body generalizing g labels with
  | nil => simpa using hnodup
  | cons b bs ih =>
      rw [List.foldlM_cons] at h
      by_cases hb : b.label ∈ labels
      · rw [addBlock_of_mem hg scope hb] at h
        exact nomatch h
      · obtain ⟨g₁, hadd, hg₁⟩ := hg.addBlock scope hb
        rw [hadd] at h
        have hone : (labels ++ [b.label]).Nodup :=
          List.nodup_append.2 ⟨hnodup, List.nodup_singleton _, by
            intro x hx y hy hxy
            exact hb (List.mem_singleton.1 hy ▸ hxy ▸ hx)⟩
        simpa using ih hg₁ hone h

/-! ## The edges of a graph -/

def HasNodes (g : Graph) (labels : List Label) : Prop :=
  ∀ l, (g.preds.get? l).isSome ↔ l ∈ labels

theorem Bare.hasNodes {g : Graph} {labels : List Label} (hg : Bare g labels) :
    g.HasNodes labels := by
  intro l
  rw [hg.preds_eq]
  split <;> simp_all

structure EdgeAdded (g g' : Graph) (edge : Label × Label) : Prop where
  labels_eq : g'.labels = g.labels
  nodes : ∀ l, (g'.preds.get? l).isSome ↔ (g.preds.get? l).isSome
  preds_eq : ∀ l, g'.predsOf l = if l = edge.2 then addOnce (g.predsOf l) edge.1 else g.predsOf l
  succs_eq : ∀ l, g'.succsOf l = if l = edge.1 then addOnce (g.succsOf l) edge.2 else g.succsOf l

theorem edgeAdded_of_addEdgeOf {scope : String} {g g' : Graph} {edge : Label × Label}
    (h : addEdgeOf scope g edge = .ok g') : EdgeAdded g g' edge := by
  unfold addEdgeOf addEdge at h
  split at h
  · exact nomatch h
  · rename_i preds hpreds
    obtain rfl := Except.ok.inj h
    refine ⟨rfl, fun l => ?_, fun l => ?_, fun l => ?_⟩
    · rw [NameMap.get?_insert]
      split <;> simp_all
    · simp only [predsOf, NameMap.get?_insert]
      split <;> simp_all
    · simp only [succsOf, NameMap.get?_insert]
      split <;> simp_all

theorem addEdgeOf_ok_iff {scope : String} {g : Graph} {edge : Label × Label} :
    (∃ g', addEdgeOf scope g edge = .ok g') ↔ (g.preds.get? edge.2).isSome := by
  unfold addEdgeOf addEdge
  split <;> simp_all

def sourcesOf (es : List (Label × Label)) (target : Label) : List Label :=
  (es.filter fun e => e.2 = target).map (·.1)

def targetsOf (es : List (Label × Label)) (source : Label) : List Label :=
  (es.filter fun e => e.1 = source).map (·.2)

theorem mem_sourcesOf {es : List (Label × Label)} {source target : Label} :
    source ∈ sourcesOf es target ↔ (source, target) ∈ es := by
  simp [sourcesOf]

theorem mem_targetsOf {es : List (Label × Label)} {source target : Label} :
    target ∈ targetsOf es source ↔ (source, target) ∈ es := by
  simp [targetsOf]

structure EdgesAdded (g g' : Graph) (es : List (Label × Label)) : Prop where
  labels_eq : g'.labels = g.labels
  nodes : ∀ l, (g'.preds.get? l).isSome ↔ (g.preds.get? l).isSome
  preds_eq : ∀ l, g'.predsOf l = (sourcesOf es l).foldl addOnce (g.predsOf l)
  succs_eq : ∀ l, g'.succsOf l = (targetsOf es l).foldl addOnce (g.succsOf l)
  resolved : ∀ e ∈ es, (g.preds.get? e.2).isSome

theorem edgesAdded_of_foldlM {scope : String} {g g' : Graph} {es : List (Label × Label)}
    (h : es.foldlM (addEdgeOf scope) g = .ok g') : EdgesAdded g g' es := by
  induction es generalizing g with
  | nil =>
      obtain rfl := Except.ok.inj h
      exact ⟨rfl, fun _ => Iff.rfl, fun _ => rfl, fun _ => rfl, by simp⟩
  | cons e es ih =>
      rw [List.foldlM_cons] at h
      cases hadd : addEdgeOf scope g e with
      | error cause =>
          rw [hadd] at h
          exact nomatch h
      | ok g₁ =>
          rw [hadd] at h
          have hone := edgeAdded_of_addEdgeOf hadd
          have hrest := ih h
          refine ⟨hrest.labels_eq.trans hone.labels_eq,
            fun l => (hrest.nodes l).trans (hone.nodes l), fun l => ?_, fun l => ?_, ?_⟩
          · rw [hrest.preds_eq, hone.preds_eq, sourcesOf, sourcesOf, List.filter_cons]
            by_cases hl : l = e.2
            · simp [hl]
            · simp [hl, Ne.symm hl]
          · rw [hrest.succs_eq, hone.succs_eq, targetsOf, targetsOf, List.filter_cons]
            by_cases hl : l = e.1
            · simp [hl]
            · simp [hl, Ne.symm hl]
          · intro d hd
            rcases List.mem_cons.1 hd with rfl | hd
            · exact addEdgeOf_ok_iff.1 ⟨g₁, hadd⟩
            · exact (hone.nodes d.2).1 (hrest.resolved d hd)

theorem exists_foldlM_addEdgeOf {scope : String} {g : Graph} {es : List (Label × Label)}
    (h : ∀ e ∈ es, (g.preds.get? e.2).isSome) :
    ∃ g', es.foldlM (addEdgeOf scope) g = .ok g' := by
  induction es generalizing g with
  | nil => exact ⟨g, rfl⟩
  | cons e es ih =>
      obtain ⟨g₁, hadd⟩ : ∃ g₁, addEdgeOf scope g e = .ok g₁ :=
        addEdgeOf_ok_iff.2 (h e List.mem_cons_self)
      have hone := edgeAdded_of_addEdgeOf hadd
      obtain ⟨g', hfold⟩ := ih (g := g₁) fun d hd =>
        (hone.nodes d.2).2 (h d (List.mem_cons_of_mem _ hd))
      refine ⟨g', ?_⟩
      rw [List.foldlM_cons, hadd]
      exact hfold

/-! ## The graph of a body -/

structure Describes (g : Graph) (body : List Block) : Prop where
  wellLabelled : WellLabelled body
  labels_eq : g.labels = body.map (·.label)
  succs_eq : ∀ b ∈ body, g.succsOf b.label = b.successors
  mem_preds : ∀ source target,
    source ∈ g.predsOf target ↔ ∃ b ∈ body, b.label = source ∧ target ∈ b.successors

theorem Describes.entry?_eq_some_iff {g : Graph} {body : List Block} (hg : g.Describes body)
    {label : Label} : g.entry? = some label ↔ ∃ b, body.head? = some b ∧ b.label = label := by
  rw [Graph.entry?, hg.labels_eq, List.head?_map, Option.map_eq_some_iff]

theorem targetsOf_edges {body : List Block} (hdistinct : (body.map (·.label)).Nodup)
    {b : Block} (hb : b ∈ body) : targetsOf (edges body) b.label = b.successors := by
  induction body with
  | nil => exact nomatch hb
  | cons d ds ih =>
      have ⟨hfirst, hrest⟩ := List.nodup_cons.1 hdistinct
      have hsplit : targetsOf (edges (d :: ds)) b.label =
          targetsOf (d.successors.map fun t => (d.label, t)) b.label ++
            targetsOf (edges ds) b.label := by
        simp [targetsOf, edges]
      have hown : ∀ l, targetsOf (d.successors.map fun t => (d.label, t)) l =
          if d.label = l then d.successors else [] := by
        intro l
        by_cases hl : d.label = l <;> simp [targetsOf, List.filter_map, Function.comp_def, hl]
      rw [hsplit, hown]
      rcases List.mem_cons.1 hb with rfl | hb
      · have hnone : targetsOf (edges ds) b.label = [] := by
          rw [targetsOf, List.map_eq_nil_iff, List.filter_eq_nil_iff]
          rintro ⟨source, target⟩ he
          obtain ⟨c, hc, rfl, -⟩ := mem_edges.1 he
          have hne : c.label ≠ b.label := fun heq => hfirst (List.mem_map.2 ⟨c, hc, heq⟩)
          simpa using hne
        simp [hnone]
      · have hne : d.label ≠ b.label := fun heq => hfirst (List.mem_map.2 ⟨b, hb, heq.symm⟩)
        simp [hne, ih hrest hb]

theorem edgesAdded_of_ofBody {scope : String} {body : List Block} {g : Graph}
    (h : ofBody scope body = .ok g) : (body.map (·.label)).Nodup ∧
      ∃ g₀, Bare g₀ (body.map (·.label)) ∧ EdgesAdded g₀ g (edges body) := by
  unfold ofBody at h
  cases hnodes : body.foldlM (addBlock scope) empty with
  | error cause =>
      rw [hnodes] at h
      exact nomatch h
  | ok g₀ =>
      rw [hnodes] at h
      have hdistinct := nodup_of_foldlM_addBlock bare_empty List.nodup_nil hnodes
      obtain ⟨g₁, hfold, hbare⟩ := bare_empty.foldlM_addBlock scope body hdistinct
      obtain rfl : g₀ = g₁ := Except.ok.inj (hnodes.symm.trans hfold)
      exact ⟨hdistinct, g₀, hbare,
        edgesAdded_of_foldlM ((foldlM_addEdge scope body g₀).symm.trans h)⟩

theorem describes_of_ofBody {scope : String} {body : List Block} {g : Graph}
    (h : ofBody scope body = .ok g) : g.Describes body := by
  obtain ⟨hdistinct, g₀, hbare, hadded⟩ := edgesAdded_of_ofBody h
  refine ⟨⟨hdistinct, fun b hb target ht => ?_⟩, ?_, fun b hb => ?_, fun s t => ?_⟩
  · have := hadded.resolved (b.label, target) (mem_edges.2 ⟨b, hb, rfl, ht⟩)
    simpa using (hbare.hasNodes target).1 this
  · simpa using hadded.labels_eq.trans hbare.labels_eq
  · rw [hadded.succs_eq, hbare.succsOf_eq, targetsOf_edges hdistinct hb]
    exact foldl_addOnce_of_nodup (by simpa using nodup_successors b)
  · rw [hadded.preds_eq, hbare.predsOf_eq, mem_foldl_addOnce, mem_sourcesOf, mem_edges]
    simp

theorem exists_ofBody_iff {scope : String} {body : List Block} :
    (∃ g, ofBody scope body = .ok g) ↔ WellLabelled body := by
  refine ⟨fun ⟨g, h⟩ => (describes_of_ofBody h).wellLabelled, fun h => ?_⟩
  obtain ⟨g₀, hnodes, hbare⟩ := bare_empty.foldlM_addBlock scope body
    (by simpa using h.distinct)
  obtain ⟨g, hedges⟩ : ∃ g, (edges body).foldlM (addEdgeOf scope) g₀ = .ok g := by
    refine exists_foldlM_addEdgeOf fun e he => (hbare.hasNodes e.2).2 ?_
    obtain ⟨b, hb, -, ht⟩ := mem_edges.1 he
    simpa using h.resolved b hb e.2 ht
  refine ⟨g, ?_⟩
  unfold ofBody
  rw [hnodes]
  exact (foldlM_addEdge scope body g₀).trans hedges

theorem ofBody_of_sameEdges {body body' : List Block}
    (h : List.Forall₂ Block.SameEdges body body') (scope : String) :
    ofBody scope body' = ofBody scope body := by
  have hfold : ∀ f : Graph → Block → Except Fault Graph,
      (∀ b b', b.SameEdges b' → ∀ g, f g b' = f g b) → ∀ g, body'.foldlM f g = body.foldlM f g := by
    intro f hf
    induction h with
    | nil => exact fun _ => rfl
    | cons hb _ ih =>
        intro g
        rw [List.foldlM_cons, List.foldlM_cons, hf _ _ hb]
        exact congrArg _ (funext ih)
  have hnodes := hfold (addBlock scope) fun b b' hb g => by
    unfold addBlock
    rw [hb.label_eq]
  have hedges := hfold (fun g b => b.successors.foldlM (addEdge scope b.label) g)
    fun b b' hb g => by rw [hb.label_eq, hb.successors_eq]
  unfold ofBody
  rw [hnodes, funext hedges]

end Graph

end Midend.Flow
