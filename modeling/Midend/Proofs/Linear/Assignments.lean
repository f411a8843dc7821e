import Midend.Proofs.Linear.Ways
/-!
# Assignments of temporaries

Each temporary that some code declares is assigned by one statement of the code, or at the end of
both ways of a conditional (`Assigns`).
-/

namespace Midend.Linear

open Midend.Flow (Label Value)
open NameSupply (IsGenerated generatedBases numbered unnumbered_of_generated)
open Build Code

namespace Code

/-- The variables that code assigns, one entry for each statement. -/
def assigned : Code → List String
  | [] => []
  | .emit s :: rest => s.writes ++ assigned rest
  | _ :: rest => assigned rest

variable {code rest test yes no check body : Code} {v : Value} {label onTrue onFalse after : Label}

@[simp] theorem assigned_nil : assigned [] = [] := rfl

@[simp] theorem assigned_emit (s : Flow.Stmt) (rest : Code) :
    assigned (.emit s :: rest) = s.writes ++ assigned rest := rfl

@[simp] theorem assigned_mark (label : Label) (rest : Code) :
    assigned (.mark label :: rest) = assigned rest := rfl

@[simp] theorem assigned_declare (name : String) (ty : Ty) (rest : Code) :
    assigned (.declare name ty :: rest) = assigned rest := rfl

@[simp] theorem assigned_append (code rest : Code) :
    assigned (code ++ rest) = assigned code ++ assigned rest := by
  induction code with
  | nil => rfl
  | cons item code ih => cases item <;> simp [ih]

theorem assigned_cut (code : Code) :
    (cut code).1.flatMap Flow.Stmt.writes ++
      (cut code).2.flatMap (fun b => b.stmts.flatMap Flow.Stmt.writes) = code.assigned := by
  induction code with
  | nil => rfl
  | cons item rest ih =>
      cases item with
      | emit s =>
          rw [cut, List.flatMap_cons, List.append_assoc, ih]
          rfl
      | mark label => exact ih
      | declare name ty => exact ih

end Code

/-! ## How often a temporary is assigned -/

/-- The base of the temporary that a conditional leaves its value in. -/
def conditionalBase : String := "$ifExprTmp"

def assignments (base : String) : Nat := if base = conditionalBase then 2 else 1

/-- The code goes two ways somewhere, and the variable is assigned at the end of both. -/
inductive InBothWays (x : String) : Code → Prop
  | intro (before : Code) (ty : Ty) (test : Code) (v : Value) (onTrue onFalse after : Label)
      (yes no : Code) (t f : Flow.Expr) (behind : Code) :
      InBothWays x (before ++ (.declare x ty :: choice test v onTrue onFalse after
        (yes ++ [.emit (.assign x t)]) (no ++ [.emit (.assign x f)]) ++ behind))

theorem InBothWays.amid {x : String} {code : Code} (before behind : Code) (h : InBothWays x code) :
    InBothWays x (before ++ (code ++ behind)) := by
  obtain ⟨before', ty, test, v, onTrue, onFalse, after, yes, no, t, f, behind'⟩ := h
  have hin := InBothWays.intro (x := x) (before ++ before') ty test v onTrue onFalse after yes no t
    f (behind' ++ behind)
  simpa using hin

/-- The temporaries that some code declares are assigned in it as often as they should be. -/
structure Assigns (code : Code) : Prop where
  counts : ∀ base ∈ generatedBases, ∀ n, code.assigned.count (numbered base n) =
    assignments base * code.declared.count (numbered base n)
  ways : ∀ n, numbered conditionalBase n ∈ code.declared →
    InBothWays (numbered conditionalBase n) code

/-- A name that is drawn with a base tells the base. -/
theorem count_drawn {base base' name : String} {s s' : State} (hbase : base ∈ generatedBases)
    (hbase' : base' ∈ generatedBases) (hname : Builds (fresh base') s name s') (n : Nat) :
    assignments base' * [name].count (numbered base n) =
      assignments base * [name].count (numbered base n) := by
  by_cases heq : name = numbered base n
  · obtain ⟨rfl, -⟩ := NameSupply.numbered_inj (unnumbered_of_generated hbase')
      (unnumbered_of_generated hbase) ((NameSupply.fresh_eq (builds_fresh hname).1).symm.trans heq)
    rfl
  · rw [List.count_eq_zero.2 (by simpa using Ne.symm heq)]
    simp

namespace Assigns

variable {code rest test yes no check body : Code} {v : Value} {again onTrue onFalse after : Label}
  {name : String} {ty : Ty} {s s' : State}

theorem plain (hdeclared : code.declared = [])
    (hassigned : ∀ x ∈ code.assigned, ¬ IsGenerated x) : Assigns code where
  counts base hbase n := by
    rw [hdeclared, List.count_nil, Nat.mul_zero]
    exact List.count_eq_zero.2 fun hmem => hassigned _ hmem ⟨base, hbase, n, rfl⟩
  ways n hn := by
    rw [hdeclared] at hn
    exact absurd hn List.not_mem_nil

theorem append (h : Assigns code) (h' : Assigns rest) : Assigns (code ++ rest) where
  counts base hbase n := by
    rw [assigned_append, declared_append, List.count_append, List.count_append,
      h.counts base hbase n, h'.counts base hbase n, Nat.mul_add]
  ways n hn := by
    rw [declared_append] at hn
    rcases List.mem_append.1 hn with hn | hn
    · exact (h.ways n hn).amid [] rest
    · simpa using (h'.ways n hn).amid code []

theorem single {base : String} (hbase : base ∈ generatedBases) (hother : base ≠ conditionalBase)
    (hname : Builds (fresh base) s name s') (hdeclared : code.declared = [name])
    (hassigned : code.assigned = [name]) : Assigns code where
  counts base' hbase' n := by
    have hcount := count_drawn hbase' hbase hname n
    rw [hdeclared, hassigned, ← hcount, assignments, if_neg hother, Nat.one_mul]
  ways n hn := by
    rw [hdeclared, List.mem_singleton] at hn
    have hbase_eq := (NameSupply.numbered_inj (unnumbered_of_generated (by decide))
      (unnumbered_of_generated hbase) (hn.trans (NameSupply.fresh_eq (builds_fresh hname).1))).1
    exact absurd hbase_eq.symm hother

theorem leave (label : Label) {stmt : Flow.Stmt} (hwrites : stmt.writes = []) :
    Assigns [.emit stmt, .mark label] := plain rfl (by simp [hwrites])

theorem choice (htest : Assigns test) (hyes : Assigns yes) (hno : Assigns no) :
    Assigns (choice test v onTrue onFalse after yes no) := by
  have hbranch : Assigns [.emit (.branch v onTrue onFalse), .mark onTrue] := leave onTrue rfl
  have hjump : ∀ label, Assigns [.emit (.jump after), .mark label] := fun label => leave label rfl
  have hall := (htest.append hbranch).append
    ((hyes.append (hjump onFalse)).append (hno.append (hjump after)))
  simpa [Linear.choice] using hall

theorem round (hcheck : Assigns check) (hbody : Assigns body) :
    Assigns (round again onTrue after check v body) := by
  have hbranch : Assigns [.emit (.branch v onTrue after), .mark onTrue] := leave onTrue rfl
  have hjump : ∀ label, Assigns [.emit (.jump again), .mark label] := fun label => leave label rfl
  have hall := (hjump again).append
    ((hcheck.append hbranch).append (hbody.append (hjump after)))
  simpa [Linear.round] using hall

/-- A conditional: its value is in a temporary at the end of both ways. -/
theorem conditional (hname : Builds (fresh conditionalBase) s name s') (htest : Assigns test)
    (hyes : Assigns yes) (hno : Assigns no) (t f : Flow.Expr) :
    Assigns (.declare name ty :: Linear.choice test v onTrue onFalse after
      (yes ++ [.emit (.assign name t)]) (no ++ [.emit (.assign name f)])) where
  counts base hbase n := by
    have htests := htest.counts base hbase n
    have hyeses := hyes.counts base hbase n
    have hnos := hno.counts base hbase n
    have hdrawn := count_drawn hbase (by decide) hname n
    rw [assignments, if_pos rfl] at hdrawn
    simp only [Linear.choice, assigned_declare, assigned_append, assigned_emit, assigned_mark,
      assigned_nil, declared_declare, declared_append, declared_emit, declared_mark, declared_nil,
      Flow.Stmt.writes, List.nil_append, List.append_nil, List.count_append, List.count_cons,
      List.count_nil, Nat.mul_add, Nat.zero_add] at hdrawn ⊢
    omega
  ways n hn := by
    rw [declared_declare, declared_choice] at hn
    rcases List.mem_cons.1 hn with rfl | hn
    · simpa using InBothWays.intro (x := numbered conditionalBase n) [] ty test v onTrue onFalse
        after yes no t f []
    simp only [declared_append, declared_emit, declared_nil, List.append_nil, List.mem_append] at hn
    rcases hn with hn | hn | hn
    · have hin := (htest.ways n hn).amid [.declare name ty] (.emit (.branch v onTrue onFalse) ::
        .mark onTrue :: (yes ++ .emit (.assign name t) :: .emit (.jump after) :: .mark onFalse ::
          (no ++ [.emit (.assign name f), .emit (.jump after), .mark after])))
      simpa [Linear.choice] using hin
    · have hin := (hyes.ways n hn).amid (.declare name ty :: (test ++
        [.emit (.branch v onTrue onFalse), .mark onTrue])) (.emit (.assign name t) ::
          .emit (.jump after) :: .mark onFalse ::
            (no ++ [.emit (.assign name f), .emit (.jump after), .mark after]))
      simpa [Linear.choice] using hin
    · have hin := (hno.ways n hn).amid (.declare name ty :: (test ++
        .emit (.branch v onTrue onFalse) :: .mark onTrue ::
          (yes ++ [.emit (.assign name t), .emit (.jump after), .mark onFalse])))
        [.emit (.assign name f), .emit (.jump after), .mark after]
      simpa [Linear.choice] using hin

end Assigns

end Midend.Linear
