import Midend.Proofs.Linear.Contents
import Midend.Proofs.Linear.Regions
/-!
# Ways through code

A path through a body goes on from statement to statement and along jumps, whatever the values of
the conditions are (`Flow.Path`).  In the code of the body it is told by the code behind it (`Way`).

No jump from outside goes into a region of code, so all ways into it come in at its start: what is
assigned on every way to the start is assigned on every way to each place in the region
(`Assigned.inside`).
-/

namespace Midend.Flow

/-- Control may come to the statement of this index in a block, behind these statements, the latest
first. -/
inductive Path (body : List Block) : List Stmt → Label → Nat → Prop
  | start {b : Block} (hb : body.head? = some b) : Path body [] b.label 0
  | next {done : List Stmt} {b : Block} {i : Nat} {s : Stmt} (h : Path body done b.label i)
      (hb : b ∈ body) (hs : b.stmts[i]? = some s) (hends : s.endsBlock = false) :
      Path body (s :: done) b.label (i + 1)
  | jump {done : List Stmt} {b : Block} {i : Nat} {s : Stmt} {target : Label}
      (h : Path body done b.label i) (hb : b ∈ body) (hs : b.stmts[i]? = some s)
      (htarget : target ∈ s.targets) : Path body (s :: done) target 0

theorem Path.in_block {body : List Block} {b : Block} (hb : body.head? = some b) {i : Nat}
    (hi : i ≤ b.stmts.length) (hends : ∀ s ∈ b.stmts.take i, s.endsBlock = false) :
    Path body (b.stmts.take i).reverse b.label i := by
  induction i with
  | zero => exact .start hb
  | succ i ih =>
      have hs : b.stmts[i]? = some b.stmts[i] := List.getElem?_eq_getElem hi
      rw [List.take_add_one, hs, Option.toList_some] at hends ⊢
      obtain ⟨hearlier, hlast⟩ := List.forall_mem_append.1 hends
      rw [List.reverse_append, List.reverse_singleton, List.singleton_append]
      exact (ih (Nat.le_of_succ_le hi) hearlier).next (List.mem_of_head? hb) hs
        (hlast _ List.mem_cons_self)

/-- On every path to a statement that reads the variable there is an assignment of it. -/
def AssignsFirst (body : List Block) (x : String) : Prop :=
  ∀ done b i s, Path body done b.label i → b ∈ body → b.stmts[i]? = some s →
    x ∈ ids s.operands → ∃ e, .assign x e ∈ done

end Midend.Flow

namespace Midend.Linear

open Midend.Flow (Block Label Path Stmt Value)
open Code

/-- Control may come to the place behind a front part of some code, behind these statements, the
latest first. -/
inductive Way (code : Code) : List Stmt → Code → Prop
  | start : Way code [] []
  | next {done : List Stmt} {front rest : Code} {s : Stmt} (h : Way code done front)
      (hcode : code = front ++ .emit s :: rest) (hends : s.endsBlock = false) :
      Way code (s :: done) (front ++ [.emit s])
  | declare {done : List Stmt} {front rest : Code} {name : String} {ty : Ty}
      (h : Way code done front) (hcode : code = front ++ .declare name ty :: rest) :
      Way code done (front ++ [.declare name ty])
  | jump {done : List Stmt} {front rest before behind : Code} {s : Stmt} {target : Label}
      (h : Way code done front) (hcode : code = front ++ .emit s :: rest)
      (htarget : target ∈ s.targets) (hmark : code = before ++ .mark target :: behind) :
      Way code (s :: done) (before ++ [.mark target])

/-! ## Paths are ways -/

section Paths

variable {code front rest : Code} {done : List Stmt} {label l : Label} {i : Nat} {s : Stmt}
  {b : Block}

/-- Temporaries that are declared in front of a statement are passed by. -/
theorem Way.to_statement (h : Way code done front) (hcode : code = front ++ rest)
    (hs : (cut rest).1.head? = some s) : ∃ front' rest', code = front' ++ .emit s :: rest' ∧
      Way code done front' ∧ spot label front' = spot label front := by
  induction rest generalizing front with
  | nil => exact nomatch hs
  | cons item rest ih =>
      cases item with
      | emit s' =>
          obtain rfl := Option.some.inj hs
          exact ⟨front, rest, hcode, h, rfl⟩
      | mark next => exact nomatch hs
      | declare name ty =>
          obtain ⟨front', rest', hcode', hway, hspot⟩ :=
            ih (h.declare hcode) (by simp [hcode]) hs
          exact ⟨front', rest', hcode', hway, hspot.trans (spot_append label front _)⟩

theorem eq_of_label (hnodup : (label :: code.marks).Nodup) {b' : Block}
    (hb : b ∈ code.blocks label) (hb' : b' ∈ code.blocks label) (hlabel : b'.label = b.label) :
    b' = b := by
  have hlabels : ((code.blocks label).map (·.label)).Nodup := by rwa [labels_blocks]
  exact List.inj_on_of_nodup_map hlabels hb' hb hlabel

/-- The statement at the place to which a way leads. -/
theorem Way.at_statement (hnodup : (label :: code.marks).Nodup) (h : Way code done front)
    (hcode : code = front ++ rest) (hspot : spot label front = (b.label, i))
    (hb : b ∈ code.blocks label) (hs : b.stmts[i]? = some s) :
    ∃ front' rest', code = front' ++ .emit s :: rest' ∧ Way code done front' ∧
      spot label front' = (b.label, i) := by
  subst hcode
  obtain ⟨b', hfind, hdrop⟩ := find_block [] hnodup
  have hfound : ((front ++ rest).blocks label).find? (fun b => b.label = (spot label front).1) =
      some b' := hfind
  have hlabel : b'.label = (spot label front).1 := by simpa using List.find?_some hfound
  obtain rfl := eq_of_label hnodup hb (List.mem_of_find?_eq_some hfound)
    (hlabel.trans (congrArg Prod.fst hspot))
  have hstmts : b'.stmts.drop (spot label front).2 = (cut rest).1 := hdrop
  rw [hspot] at hstmts
  rw [← hspot]
  refine h.to_statement rfl ?_
  rw [← hstmts, List.head?_drop]
  exact hs

/-- By induction on the path. -/
theorem way_of_path (hnodup : (label :: code.marks).Nodup) (hresolves : Resolves [] code)
    (h : Path (code.blocks label) done l i) :
    ∃ front rest, code = front ++ rest ∧ Way code done front ∧ spot label front = (l, i) := by
  induction h with
  | start hb =>
      obtain rfl := Option.some.inj hb
      exact ⟨[], code, rfl, .start, rfl⟩
  | next _ hb hs hends ih =>
      obtain ⟨front, rest, hcode, hway, hspot⟩ := ih
      obtain ⟨front', rest', hcode', hway', hspot'⟩ :=
        hway.at_statement hnodup hcode hspot hb hs
      refine ⟨_, rest', by simp [hcode'], hway'.next hcode' hends, ?_⟩
      rw [spot_append, hspot']
      rfl
  | jump _ hb hs htarget ih =>
      obtain ⟨front, rest, hcode, hway, hspot⟩ := ih
      obtain ⟨front', rest', hcode', hway', -⟩ := hway.at_statement hnodup hcode hspot hb hs
      have hmark := hresolves _ (targets_subset hcode' htarget)
      obtain ⟨before, behind, hmark⟩ := exists_mark (hmark.resolve_right List.not_mem_nil)
      refine ⟨_, behind, by simp [hmark], hway'.jump hcode' htarget hmark, ?_⟩
      rw [spot_append]
      rfl

end Paths

/-! ## Regions -/

/-- A piece stands in the code of a body between a front and a back part.  No jump from there goes
into it, and the labels outside that it may jump to are there. -/
structure Stands (label : Label) (code : Code) (outer : List Label) (front piece back : Code) :
    Prop where
  code_eq : code = front ++ (piece ++ back)
  nodup : (label :: code.marks).Nodup
  outside : Resolves [] (front ++ back)
  outer : outer ⊆ marks (front ++ back)

def Assigned (code front : Code) (x : String) : Prop :=
  ∀ done, Way code done front → ∃ e, .assign x e ∈ done

section Regions

variable {label : Label} {code front piece back inner todo c : Code}
  {outer outer' : List Label} {done : List Stmt} {x : String} {s : Stmt} {target : Label}

theorem Stands.focus (h : Stands label code outer front piece back) (before c behind : Code)
    (hpiece : piece = before ++ (c ++ behind)) (hresolves : Resolves outer (before ++ behind))
    (houter : outer' ⊆ marks (before ++ behind) ++ outer) :
    Stands label code outer' (front ++ before) c (behind ++ back) where
  code_eq := by simp [h.code_eq, hpiece]
  nodup := h.nodup
  outside target htarget := by
    have houtside := h.outside target
    have hinside := hresolves target
    have hknown : target ∈ outer → target ∈ marks (front ++ back) := fun ht => h.outer ht
    simp only [targets_append, marks_append, List.mem_append, List.not_mem_nil, or_false]
      at htarget houtside hinside hknown ⊢
    tauto
  outer := fun target htarget => by
    have hinside := houter htarget
    have hknown : target ∈ outer → target ∈ marks (front ++ back) := fun ht => h.outer ht
    simp only [marks_append, List.mem_append] at hinside hknown ⊢
    tauto

theorem Stands.left (h : Stands label code outer front (piece ++ c) back)
    (hresolves : Resolves outer c) : Stands label code outer front piece (c ++ back) := by
  simpa using h.focus [] piece c rfl hresolves (List.subset_append_right _ _)

theorem Stands.right (h : Stands label code outer front (piece ++ c) back)
    (hresolves : Resolves outer piece) : Stands label code outer (front ++ piece) c back := by
  have hright := h.focus piece c [] (by simp) (by simpa using hresolves)
    (List.subset_append_right _ _)
  simpa using hright

section Pieces

variable {test yes no check body : Code} {v : Flow.Value} {onTrue onFalse after again : Label}

theorem Stands.inTest (h : Stands label code outer front
      (choice test v onTrue onFalse after yes no) back)
    (hyes : Resolves outer yes) (hno : Resolves outer no) :
    ∃ back', Stands label code [] front test back' := by
  have htest := h.focus [] test _ rfl ((Resolves.nil []).choice hyes hno) (List.nil_subset _)
  rw [List.append_nil] at htest
  exact ⟨_, htest⟩

theorem Stands.inYes (h : Stands label code outer front
      (choice test v onTrue onFalse after yes no) back)
    (htest : Resolves [] test) (hno : Resolves outer no) : ∃ back', Stands label code outer
      (front ++ (test ++ [.emit (.branch v onTrue onFalse), .mark onTrue])) yes back' := by
  have hframe : Resolves outer (choice test v onTrue onFalse after [] no) :=
    htest.choice (.nil outer) hno
  exact ⟨_, h.focus _ yes _ (by simp [choice]; rfl) (by simpa [choice] using hframe)
    (List.subset_append_right _ _)⟩

theorem Stands.inNo (h : Stands label code outer front
      (choice test v onTrue onFalse after yes no) back)
    (htest : Resolves [] test) (hyes : Resolves outer yes) : ∃ back', Stands label code outer
      (front ++ (test ++ .emit (.branch v onTrue onFalse) :: .mark onTrue ::
        (yes ++ [.emit (.jump after), .mark onFalse]))) no back' := by
  have hframe : Resolves outer (choice test v onTrue onFalse after yes []) :=
    htest.choice hyes (.nil outer)
  exact ⟨_, h.focus _ no _ (by simp [choice]; rfl) (by simpa [choice] using hframe)
    (List.subset_append_right _ _)⟩

theorem Stands.inCheck (h : Stands label code outer front
      (round again onTrue after check v body) back) (hbody : Resolves [again, after] body) :
    ∃ back', Stands label code [] (front ++ [.emit (.jump again), .mark again]) check back' :=
  ⟨_, h.focus _ check _ rfl ((Resolves.nil []).round hbody) (List.nil_subset _)⟩

theorem Stands.inBody (h : Stands label code outer front
      (round again onTrue after check v body) back) (hcheck : Resolves [] check) :
    ∃ back', Stands label code [again, after] (front ++ (.emit (.jump again) :: .mark again ::
      (check ++ [.emit (.branch v onTrue after), .mark onTrue]))) body back' := by
  have hframe : Resolves outer (round again onTrue after check v []) := hcheck.round (.nil _)
  refine ⟨_, h.focus _ body _ (by simp [round]; rfl) (by simpa [round] using hframe) ?_⟩
  simp

end Pieces

/-- All ways into a region come in at its start, and have only done statements of the region since.
By induction on the way. -/
theorem Stands.through (h : Stands label code outer front piece back)
    (hpiece : piece = inner ++ todo) {place : Code} (hway : Way code done place)
    (hplace : place = front ++ inner) : ∃ inside done', done = inside ++ done' ∧
      (∀ s ∈ inside, .emit s ∈ piece) ∧ Way code done' front := by
  have hstart : ∀ {done}, Way code done front → ∃ inside done', done = inside ++ done' ∧
      (∀ s ∈ inside, .emit s ∈ piece) ∧ Way code done' front := fun hway =>
    ⟨[], _, rfl, fun _ hs => absurd hs List.not_mem_nil, hway⟩
  induction hway generalizing inner todo with
  | start =>
      obtain ⟨rfl, -⟩ := List.append_eq_nil_iff.1 hplace.symm
      exact hstart .start
  | @next done place rest s hway hcode hends ih =>
      rcases List.eq_nil_or_concat inner with rfl | ⟨inner, item, rfl⟩
      · rw [List.append_nil] at hplace
        exact hstart (hplace ▸ hway.next hcode hends)
      · rw [List.concat_eq_append, ← List.append_assoc] at hplace
        obtain ⟨hfront, hitem⟩ := List.append_inj' hplace rfl
        obtain ⟨inside, done', rfl, hinside, hway'⟩ := ih (by simpa using hpiece) hfront
        refine ⟨s :: inside, done', rfl, List.forall_mem_cons.2 ⟨?_, hinside⟩, hway'⟩
        rw [hpiece, List.concat_eq_append, ← hitem]
        simp
  | @declare done place rest name ty hway hcode ih =>
      rcases List.eq_nil_or_concat inner with rfl | ⟨inner, item, rfl⟩
      · rw [List.append_nil] at hplace
        exact hstart (hplace ▸ hway.declare hcode)
      · rw [List.concat_eq_append, ← List.append_assoc] at hplace
        exact ih (by simpa using hpiece) (List.append_inj' hplace rfl).1
  | @jump done place rest before behind s target hway hcode htarget hmark ih =>
      rcases List.eq_nil_or_concat inner with rfl | ⟨inner, item, rfl⟩
      · rw [List.append_nil] at hplace
        exact hstart (hplace ▸ hway.jump hcode htarget hmark)
      · rw [List.concat_eq_append, ← List.append_assoc] at hplace
        obtain ⟨-, hitem⟩ := List.append_inj' hplace rfl
        obtain rfl := (List.cons.inj hitem).1
        -- the mark is in the region, so the jump comes from there
        obtain ⟨inner', todo', hpiece', hfront⟩ := of_jump h.nodup h.code_eq h.outside hcode
          (by simpa using hpiece) htarget
        obtain ⟨inside, done', rfl, hinside, hway'⟩ := ih hpiece' hfront
        refine ⟨s :: inside, done', rfl, List.forall_mem_cons.2 ⟨?_, hinside⟩, hway'⟩
        simp [hpiece']

/-- What is assigned at the start of a region is assigned everywhere in it, and behind it. -/
theorem Assigned.inside (hx : Assigned code front x) (h : Stands label code outer front piece back)
    (hpiece : piece = inner ++ todo) : Assigned code (front ++ inner) x := by
  intro done hway
  obtain ⟨inside, done', rfl, -, hstart⟩ := h.through hpiece hway rfl
  obtain ⟨e, he⟩ := hx done' hstart
  exact ⟨e, List.mem_append_right _ he⟩

/-- To the place behind a statement control comes only past it. -/
theorem Way.of_emit (h : Way code done (front ++ [.emit s])) :
    ∃ done', done = s :: done' ∧ Way code done' front := by
  generalize hplace : front ++ [Item.emit s] = place at h
  cases h with
  | start => simp at hplace
  | next hway _ _ =>
      obtain ⟨rfl, hitem⟩ := List.append_inj' hplace rfl
      obtain rfl := Item.emit.inj (List.cons.inj hitem).1
      exact ⟨_, rfl, hway⟩
  | declare _ _ => exact nomatch (List.append_inj' hplace rfl).2
  | jump _ _ _ _ => exact nomatch (List.append_inj' hplace rfl).2

theorem Way.of_declare {name : String} {ty : Ty}
    (h : Way code done (front ++ [.declare name ty])) : Way code done front := by
  generalize hplace : front ++ [Item.declare name ty] = place at h
  cases h with
  | start => simp at hplace
  | next _ _ _ => exact nomatch (List.append_inj' hplace rfl).2
  | declare hway _ =>
      obtain ⟨rfl, -⟩ := List.append_inj' hplace rfl
      exact hway
  | jump _ _ _ _ => exact nomatch (List.append_inj' hplace rfl).2

theorem Assigned.of_assign (front : Code) (x : String) (e : Flow.Expr) :
    Assigned code (front ++ [.emit (.assign x e)]) x := by
  intro done hway
  obtain ⟨done', rfl, -⟩ := hway.of_emit
  exact ⟨e, List.mem_cons_self⟩

end Regions

/-! ## Joins -/

def Everywhere (P : Code → Stmt → Prop) : Code → Code → Prop
  | _, [] => True
  | front, .emit s :: rest => P front s ∧ Everywhere P (front ++ [.emit s]) rest
  | front, item :: rest => Everywhere P (front ++ [item]) rest

section Everywhere

variable {P Q : Code → Stmt → Prop} {front code rest : Code} {s : Stmt}

@[simp] theorem everywhere_nil : Everywhere P front [] := trivial

@[simp] theorem everywhere_emit : Everywhere P front (.emit s :: rest) ↔
    P front s ∧ Everywhere P (front ++ [.emit s]) rest := Iff.rfl

@[simp] theorem everywhere_mark (label : Label) : Everywhere P front (.mark label :: rest) ↔
    Everywhere P (front ++ [.mark label]) rest := Iff.rfl

@[simp] theorem everywhere_declare (name : String) (ty : Ty) :
    Everywhere P front (.declare name ty :: rest) ↔
      Everywhere P (front ++ [.declare name ty]) rest := Iff.rfl

@[simp] theorem everywhere_append : Everywhere P front (code ++ rest) ↔
    Everywhere P front code ∧ Everywhere P (front ++ code) rest := by
  induction code generalizing front with
  | nil => simp
  | cons item code ih => cases item <;> simp [ih, and_assoc]

theorem everywhere_of_forall (h : ∀ front s, .emit s ∈ code → P front s) (front : Code) :
    Everywhere P front code := by
  induction code generalizing front with
  | nil => exact trivial
  | cons item code ih =>
      have hrest := ih fun front s hs => h front s (List.mem_cons_of_mem _ hs)
      cases item with
      | emit s => exact ⟨h front s List.mem_cons_self, hrest _⟩
      | mark label => exact hrest _
      | declare name ty => exact hrest _

theorem Everywhere.at (h : Everywhere P [] code) (hcode : code = front ++ .emit s :: rest) :
    P front s := by
  rw [hcode, everywhere_append, everywhere_emit, List.nil_append] at h
  exact h.2.1

end Everywhere

section Joins

variable {label : Label} {code front back test yes no before : Code} {outer : List Label}
  {x : String} {v : Value} {onTrue onFalse after target : Label}

/-- A variable that is assigned before every jump to a mark is assigned behind the mark. -/
theorem Assigned.behind_mark (before : Code)
    (h : Everywhere (fun front s => target ∈ s.targets → Assigned code front x) [] code) :
    Assigned code (before ++ [.mark target]) x := by
  intro done hway
  generalize hplace : before ++ [Item.mark target] = place at hway
  cases hway with
  | start => simp at hplace
  | next _ _ _ => exact nomatch (List.append_inj' hplace rfl).2
  | declare _ _ => exact nomatch (List.append_inj' hplace rfl).2
  | jump hfrom hcode htarget _ =>
      obtain ⟨-, hitem⟩ := List.append_inj' hplace rfl
      obtain rfl := Item.mark.inj (List.cons.inj hitem).1
      obtain ⟨e, he⟩ := h.at hcode htarget _ hfrom
      exact ⟨e, List.mem_cons_of_mem _ he⟩

theorem everywhere_of_no_target {piece : Code} (h : target ∉ piece.targets) (front : Code) :
    Everywhere (fun front s => target ∈ s.targets → Assigned code front x) front piece := by
  refine everywhere_of_forall (fun front s hs htarget => absurd ?_ h) front
  obtain ⟨pre, rest, hpiece⟩ := List.append_of_mem hs
  exact targets_subset hpiece htarget

/-- A variable that is assigned at the end of both ways of a choice is assigned behind it: nothing
else goes on there. -/
theorem Stands.join
    (h : Stands label code outer front (choice test v onTrue onFalse after yes no) back)
    (htest : Resolves [] test) (hyes : Resolves outer yes) (hno : Resolves outer no)
    (hx : Assigned code (front ++ (test ++ .emit (.branch v onTrue onFalse) :: .mark onTrue :: yes))
      x)
    (hx' : Assigned code (front ++ (test ++ .emit (.branch v onTrue onFalse) :: .mark onTrue ::
      (yes ++ .emit (.jump after) :: .mark onFalse :: no))) x) :
    Assigned code (front ++ choice test v onTrue onFalse after yes no) x := by
  have hcount := List.nodup_iff_count_le_one.1 (List.nodup_cons.1 h.nodup).2 after
  simp only [h.code_eq, marks_append, marks_choice, List.count_append, List.count_cons,
    List.count_nil, beq_self_eq_true, if_true] at hcount
  have habsent : ∀ {labels : List Label}, labels.count after = 0 → after ∉ labels :=
    fun hzero => List.count_eq_zero.1 hzero
  have houtside : after ∉ targets (front ++ back) := fun htarget => by
    have hmark := (h.outside after htarget).resolve_right List.not_mem_nil
    rw [marks_append] at hmark
    exact habsent (by rw [List.count_append]; omega) hmark
  have houter : after ∉ outer := fun hmem => by
    have hmark := h.outer hmem
    rw [marks_append] at hmark
    exact habsent (by rw [List.count_append]; omega) hmark
  have hnone : ∀ {piece : Code}, Resolves outer piece → piece.marks.count after = 0 →
      after ∉ piece.targets := fun hpiece hzero htarget =>
    (hpiece after htarget).elim (habsent hzero) houter
  have hbranch : after ∉ (Stmt.branch v onTrue onFalse).targets := fun htarget => by
    rcases mem_targets_branch htarget with rfl | rfl <;> simp at hcount <;> omega
  have hall : Everywhere (fun front s => after ∈ s.targets → Assigned code front x) []
      (front ++ (choice test v onTrue onFalse after yes no ++ back)) := by
    simp only [choice_append, everywhere_append, everywhere_emit, everywhere_mark, List.nil_append,
      List.append_assoc, List.cons_append]
    simp only [targets_append, List.mem_append, not_or] at houtside
    refine ⟨everywhere_of_no_target houtside.1 _, everywhere_of_no_target ?_ _,
      fun htarget => absurd htarget hbranch, everywhere_of_no_target (hnone hyes (by omega)) _,
      fun _ => hx, everywhere_of_no_target (hnone hno (by omega)) _, fun _ => hx',
      everywhere_of_no_target houtside.2 _⟩
    exact hnone (htest.mono (List.nil_subset _)) (by omega)
  rw [← h.code_eq] at hall
  have hplace : front ++ choice test v onTrue onFalse after yes no =
      front ++ (test ++ .emit (.branch v onTrue onFalse) :: .mark onTrue ::
        (yes ++ .emit (.jump after) :: .mark onFalse :: (no ++ [.emit (.jump after)]))) ++
      [.mark after] := by simp [choice]
  rw [hplace]
  exact Assigned.behind_mark _ hall

end Joins

end Midend.Linear
