import Midend.Proofs.Linear.Distinct
import Midend.Proofs.Linear.Evaluation
import Midend.Proofs.Linear.Objects
/-!
# Entry of functions

A function starts by making objects for itself and for the functions directly nested in it, and
then does its own statements.  A run comes to these only after all statements in front of them, in
order (`executes_of_place`).  So it finds its arguments, the initial values of its variables and
the new objects there, as far as no two of them share a name (`flatten_starts`).
-/

namespace Midend.Flow.Machine

variable {V : Type}

def fillings (m : Machine V) (className : String) (words : List (Nat × Value)) (obj : V) :
    List (Request V) :=
  words.map (fun (offset, v) => .store obj offset (m.literal v)) ++
    [.call (methodName className initName) [obj]]

/-- Somewhere in the history room is made for the object, right behind that it gets the words, and
then its constructor is called. -/
def Made (m : Machine V) (className : String) (amount : Nat) (bitmap : UInt32)
    (words : List (Nat × Value)) (history : History V) (obj : V) : Prop :=
  ∃ later filled σ earlier,
    history = later ++ (filled ++ (.alloc amount bitmap, σ) :: earlier) ∧
    (m.answer ((.alloc amount bitmap, σ) :: earlier)).result = some obj ∧
    (filled.map (·.1)).reverse = m.fillings className words obj

theorem Made.mono {m : Machine V} {className : String} {amount : Nat} {bitmap : UInt32}
    {words : List (Nat × Value)} {history history' : History V} {obj : V}
    (h : m.Made className amount bitmap words history obj) (hsuffix : history <:+ history') :
    m.Made className amount bitmap words history' obj := by
  obtain ⟨later, filled, σ, earlier, rfl, hanswer, hfilled⟩ := h
  obtain ⟨last, rfl⟩ := hsuffix
  exact ⟨last ++ later, filled, σ, earlier, by simp, hanswer, hfilled⟩

end Midend.Flow.Machine

namespace Midend.Linear

open Midend.Flow (Expr History Label Machine Place Stmt Store Value)
open NameSupply (numbered)
open Midend.Tree (Position)
open Build Code

/-! ## Code that is done in order -/

section Executes

variable {V : Type} {m : Machine V} {ctx : Context} {code code' : Code} {σ σ' : Store V}
  {history history' : History V}

variable (m ctx) in
/-- The statements of the code go on one to the next, from some variables and requests to others. -/
inductive Executes : Code → Store V → History V → Store V → History V → Prop
  | nil (σ : Store V) (history : History V) : Executes [] σ history σ history
  | declare (name : String) (ty : Ty) {rest : Code} {σ σ' : Store V} {history history' : History V}
      (hrest : Executes rest σ history σ' history') :
      Executes (.declare name ty :: rest) σ history σ' history'
  | emit {s : Stmt} {rest : Code} {σ σ' : Store V} {history history' : History V}
      (hnext : (m.exec ctx s σ history).control = .next)
      (hrest : Executes rest (m.exec ctx s σ history).store (m.exec ctx s σ history).history σ'
        history') : Executes (.emit s :: rest) σ history σ' history'

namespace Executes

theorem append_iff : Executes m ctx (code ++ code') σ history σ' history' ↔
    ∃ σ₁ history₁, Executes m ctx code σ history σ₁ history₁ ∧
      Executes m ctx code' σ₁ history₁ σ' history' := by
  constructor
  · intro h
    induction code generalizing σ history with
    | nil => exact ⟨σ, history, .nil σ history, h⟩
    | cons item code ih =>
        cases h with
        | declare name ty hrest =>
            obtain ⟨σ₁, history₁, hcode, hcode'⟩ := ih hrest
            exact ⟨σ₁, history₁, .declare name ty hcode, hcode'⟩
        | emit hnext hrest =>
            obtain ⟨σ₁, history₁, hcode, hcode'⟩ := ih hrest
            exact ⟨σ₁, history₁, .emit hnext hcode, hcode'⟩
  · rintro ⟨σ₁, history₁, h, h'⟩
    induction h with
    | nil => exact h'
    | declare name ty _ ih => exact .declare name ty (ih h')
    | emit hnext _ ih => exact .emit hnext (ih h')

theorem suffix (h : Executes m ctx code σ history σ' history') : history <:+ history' := by
  induction h with
  | nil => exact List.suffix_rfl
  | declare _ _ _ ih => exact ih
  | emit _ _ ih => exact (Machine.suffix_exec _ _ _).trans ih

theorem store_eq {x : String} (h : Executes m ctx code σ history σ' history')
    (hlocal : ctx.isLocal x = true) (hwrites : ∀ e, .emit (.assign x e) ∉ code) : σ' x = σ x := by
  induction h with
  | nil => rfl
  | declare _ _ _ ih => exact ih fun e he => hwrites e (List.mem_cons_of_mem _ he)
  | emit _ _ ih =>
      refine (ih fun e he => hwrites e (List.mem_cons_of_mem _ he)).trans ?_
      refine Machine.store_exec (fun e heq => hwrites e ?_) fun _ => hlocal
      rw [heq]
      exact List.mem_cons_self

end Executes

theorem eq_zero_of_place {label : Label} {n : Nat} (hnodup : (label :: code.marks).Nodup)
    (hresolves : Resolves [] code)
    (h : (m.after ctx (code.blocks label) σ n).place = .inside label 0) : n = 0 := by
  cases n with
  | zero => rfl
  | succ n =>
      obtain ⟨pre, s, rest, hcode, -, hnext⟩ := predecessor hnodup hresolves σ n h
      rw [spot_append] at hnext
      obtain ⟨-, htarget⟩ := hnext.resolve_left fun hspot => nomatch (Prod.mk.inj hspot).2
      have hmark := (hresolves label (targets_subset hcode htarget)).resolve_right List.not_mem_nil
      exact absurd hmark (List.nodup_cons.1 hnodup).1

/-- A run that is right behind a statement has just done it, and the statement went on. -/
theorem done_of_place {label : Label} {pre rest : Code} {s : Stmt} {n : Nat}
    (hnodup : (label :: marks (pre ++ .emit s :: rest)).Nodup)
    (hresolves : Resolves [] (pre ++ .emit s :: rest))
    (h : (m.after ctx (Code.blocks label (pre ++ .emit s :: rest)) σ n).place =
      .inside (spot label pre).1 ((spot label pre).2 + 1)) :
    ∃ k, let run := m.after ctx (Code.blocks label (pre ++ .emit s :: rest)) σ
      (run k).place = .inside (spot label pre).1 (spot label pre).2 ∧
        (m.exec ctx s (run k).store (run k).history).control = .next ∧
        (run n).store = (m.exec ctx s (run k).store (run k).history).store ∧
        (run n).history = (m.exec ctx s (run k).store (run k).history).history := by
  cases n with
  | zero => exact nomatch (Place.inside.inj h).2
  | succ k =>
      obtain ⟨pre', s', rest', hcode, hplace, hnext⟩ := predecessor hnodup hresolves σ k h
      rw [spot_append] at hnext
      obtain ⟨hl, hi⟩ := Prod.mk.inj (hnext.resolve_right fun hjump => nomatch hjump.1)
      obtain rfl := eq_of_spot_eq hnodup rfl hcode (Prod.ext hl (Nat.add_right_cancel hi))
      have hb : Before label (pre ++ .emit s :: rest) (.emit s :: rest)
          (m.after ctx (Code.blocks label (pre ++ .emit s :: rest)) σ k).place :=
        ⟨pre, rfl, hplace⟩
      obtain ⟨l, i, hstep, -⟩ := hb.emit m ctx hnodup
      have hdone := (Machine.after_succ _ σ k).trans hstep
      rw [hdone] at h
      refine ⟨k, hplace, ?_, congrArg (·.store) hdone, congrArg (·.history) hdone⟩
      generalize (m.exec ctx s _ _).control = control at h ⊢
      cases control with
      | next => rfl
      | goto target => exact nomatch (Place.inside.inj h).2
      | returned v => exact nomatch h
      | stopped => exact nomatch h

/-- A run that is behind a piece of code without labels has done the statements of this piece and
nothing else.  By induction on the piece, from its end. -/
theorem executes_of_place {label : Label} {pre rest : Code} {n : Nat}
    (hnodup : (label :: marks (pre ++ rest)).Nodup) (hresolves : Resolves [] (pre ++ rest))
    (hpre : pre.marks = [])
    (h : (m.after ctx (Code.blocks label (pre ++ rest)) σ n).place =
      .inside (spot label pre).1 (spot label pre).2) :
    Executes m ctx pre σ [] (m.after ctx (Code.blocks label (pre ++ rest)) σ n).store
      (m.after ctx (Code.blocks label (pre ++ rest)) σ n).history := by
  induction pre using List.reverseRecOn generalizing rest n with
  | nil =>
      obtain rfl := eq_zero_of_place hnodup hresolves h
      exact .nil σ []
  | append_singleton pre item ih =>
      rw [spot_append] at h
      rw [marks_append, List.append_eq_nil_iff] at hpre
      have hsplit : pre ++ [item] ++ rest = pre ++ item :: rest := by simp
      rw [hsplit] at hnodup hresolves h ⊢
      cases item with
      | emit s =>
          obtain ⟨k, hplace, hcontrol, hstore, hhistory⟩ := done_of_place hnodup hresolves h
          rw [hstore, hhistory]
          exact Executes.append_iff.2
            ⟨_, _, ih hnodup hresolves hpre.1 hplace, .emit hcontrol (.nil _ _)⟩
      | mark target => exact nomatch hpre.2
      | declare name ty =>
          have hdone := ih hnodup hresolves hpre.1 h
          exact Executes.append_iff.2 ⟨_, _, hdone, .declare name ty (.nil _ _)⟩

end Executes

/-! ## Objects that are made on the way -/

section Making

variable {V : Type} {m : Machine V} {ctx : Context} {σ σ' : Store V}
  {history history' : History V} {className t : String} {amount : Nat} {bitmap : UInt32}
  {words : List (Nat × Value)}

theorem Executes.alloc (h : Executes m ctx [.emit (.assign t (.alloc amount bitmap))] σ history σ'
    history') : ∃ obj, (m.answer ((.alloc amount bitmap, σ) :: history)).result = some obj ∧
      σ' = Function.update σ t obj ∧ history' = (.alloc amount bitmap, σ) :: history := by
  cases h with
  | emit hnext hrest =>
      cases hrest
      unfold Machine.exec Machine.compute Machine.request? at hnext ⊢
      dsimp only at hnext ⊢
      cases hanswer : (m.answer ((.alloc amount bitmap, σ) :: history)).result with
      | none =>
          rw [hanswer] at hnext
          exact nomatch hnext
      | some obj => exact ⟨obj, rfl, rfl, rfl⟩

theorem Executes.stores
    (h : Executes m ctx (words.map fun (offset, v) => .emit (.store (.id t) offset v)) σ history σ'
      history') : σ' = σ ∧ ∃ done, history' = done ++ history ∧
        (done.map (·.1)).reverse =
          words.map fun (offset, v) => .store (σ t) offset (m.value σ v) := by
  induction words generalizing history with
  | nil =>
      cases h
      exact ⟨rfl, [], rfl, rfl⟩
  | cons word words ih =>
      cases h with
      | emit hnext hrest =>
          obtain ⟨rfl, done, rfl, hdone⟩ := ih hrest
          refine ⟨rfl, done ++ [(.store (σ' t) word.1 (m.value σ' word.2), σ')], ?_, ?_⟩
          · rw [List.append_assoc]
            rfl
          · rw [List.map_append, List.reverse_append, hdone]
            rfl

theorem Executes.constructor {method : String} {v : Value}
    (h : Executes m ctx [.emit (.expr (.call method [v]))] σ history σ' history') :
    history' = (.call method [m.value σ v], σ) :: history := by
  cases h with
  | emit hnext hrest =>
      cases hrest
      unfold Machine.exec Machine.compute Machine.request?
      dsimp only [List.map]
      split <;> rename_i heq <;> exact (Prod.mk.inj (Prod.mk.inj heq).2).2.symm

theorem Executes.construction (hlocal : ctx.isLocal t = true)
    (hwords : ∀ word ∈ words, ∀ σ, m.value σ word.2 = m.literal word.2)
    (h : Executes m ctx ((Flow.construction className t amount bitmap words).map .emit) σ history σ'
      history') : m.Made className amount bitmap words history' (σ' t) := by
  have hcode : (Flow.construction className t amount bitmap words).map Item.emit =
      [.emit (.assign t (.alloc amount bitmap))] ++
        (words.map (fun (offset, v) => .emit (.store (.id t) offset v)) ++
          [.emit (.expr (.call (methodName className initName) [.id t]))]) := by
    simp [Flow.construction, Function.comp_def]
  rw [hcode] at h
  obtain ⟨σ₁, history₁, halloc, hrest⟩ := append_iff.1 h
  obtain ⟨σ₂, history₂, hstores, hcall⟩ := append_iff.1 hrest
  obtain ⟨obj, hobj, rfl, rfl⟩ := halloc.alloc
  obtain ⟨rfl, done, rfl, hdone⟩ := hstores.stores
  have hkept : σ' t = obj := by
    rw [hcall.store_eq hlocal (by simp)]
    exact Function.update_self _ _ _
  have hvalue : m.value (Function.update σ t obj) (.id t) = obj := Function.update_self _ _ _
  rw [hcall.constructor, hkept, hvalue]
  refine ⟨[], (.call (methodName className initName) [obj], Function.update σ t obj) :: done, σ,
    history, rfl, hobj, ?_⟩
  rw [List.map_cons, List.reverse_cons, hdone, Function.update_self]
  unfold Machine.fillings
  congr 1
  exact List.map_congr_left fun word hword =>
    congrArg (Flow.Request.store obj word.1) (hwords word hword _)

theorem value_ofLiteral (σ : Store V) (v : Literal) :
    m.value σ (Value.ofLiteral v) = m.literal (Value.ofLiteral v) := by
  cases v <;> rfl

theorem value_of_mem_objectWords {slot : Nat} {layout : Layout} :
    ∀ word ∈ objectWords slot layout, ∀ σ : Store V, m.value σ word.2 = m.literal word.2 :=
  List.forall_mem_cons.2 ⟨fun _ => rfl, List.forall_mem_map.2 fun entry _ σ =>
    value_ofLiteral σ entry.2.initial⟩

theorem Executes.boundObject {ty : Ty} {slot : Nat} {layout : Layout} {name : String}
    (h : Executes m ctx (objectCode className ty slot bitmap layout t ++
      [.emit (.assign name (.value (.id t)))]) σ history σ' history')
    (hlocal : ctx.isLocal t = true) : m.Made className (layout.length + 1) bitmap
      (objectWords slot layout) history' (σ' name) := by
  obtain ⟨σ₁, history₁, hobject, hassign⟩ := append_iff.1 h
  rw [objectCode_eq_construction] at hobject
  cases hobject with
  | declare _ _ hobject =>
      have hmade := hobject.construction hlocal value_of_mem_objectWords
      cases hassign with
      | emit _ hend =>
          cases hend
          have hbound : (m.exec ctx (.assign name (.value (.id t))) σ₁ history₁).store name =
              σ₁ t := Function.update_self _ _ _
          rw [hbound]
          exact hmade

end Making

/-! ## The code of a function in front of its statements -/

/-- The code that makes an object for each of the functions, one after another, and binds the name
of the function to it. -/
inductive EntryCode (catalog : Catalog) : List Position → Code → Prop
  | nil : EntryCode catalog [] []
  | cons {y : Position} {ys : List Position} {t : String} {slot : Nat} {layout : Layout}
      {rest : Code} (ht : ∃ n, t = numbered "newObj" n)
      (hslot : catalog.startOf y.className = .ok slot)
      (hlayout : catalog.layoutOf y.className = .ok layout) (hrest : EntryCode catalog ys rest) :
      EntryCode catalog (y :: ys)
        (objectCode y.className (.object y.className) slot layout.bitmap layout t ++
          .emit (.assign y.function.name (.value (.id t))) :: rest)

def bindingOf (y : Position) : Tree.Stmt := Closure.construction y.enclosing y.function

theorem start_ofFunction (outer : List String) (x : Position) :
    (Scope.ofFunction outer x.enclosing x.function).start = x.bound.map bindingOf := by
  simp [Scope.ofFunction, Position.bound, bindingOf, Position.route, Function.comp_def]

section Entry

variable {catalog : Catalog} {x y : Position} {ys : List Position} {entry : Code} {sc : Scope}
  {s s' : State} {code : Code} {k : List Flow.Class} {r : Result}

theorem Flattens.bindsFunction {loop : Option LoopLabels} {rest : Code}
    (h : Flattens (.stmt loop (bindingOf y)) s code k r s') (hcatalog : s'.catalog.Extends catalog)
    (hrest : EntryCode catalog ys rest) : EntryCode catalog (y :: ys) (code ++ rest) := by
  cases h with
  | assign _ _ _ he =>
      cases he with
      | construct _ hmake =>
          cases hmake with
          | @object _ t _ _ _ _ _ _ hslot hbitmap hlayout hname =>
              have hextends := (grows_fresh hname).catalog.trans hcatalog
              obtain ⟨layout, hlayout', rfl⟩ := Catalog.bitmapOf_eq_ok.1 hbitmap
              obtain rfl := Except.ok.inj (hlayout.symm.trans hlayout')
              rw [List.append_assoc]
              exact .cons ⟨_, NameSupply.fresh_eq (builds_fresh hname).1⟩
                (hextends.starts _ _ hslot) (hextends.layouts _ _ hlayout) hrest

theorem entry_of_stmts {body : List Tree.Stmt}
    (h : Flattens (.stmts none (ys.map bindingOf ++ body)) s code k r s')
    (hcatalog : s'.catalog.Extends catalog) : ∃ entry rest s₁ k',
      code = entry ++ rest ∧ EntryCode catalog ys entry ∧
        Flattens (.stmts none body) s₁ rest k' .nothing s' := by
  induction ys generalizing s code k r with
  | nil =>
      cases h with
      | noStmts => exact ⟨[], [], _, [], rfl, .nil, .noStmts _ _⟩
      | moreStmts hsource hsources => exact ⟨[], _, _, _, rfl, .nil, .moreStmts hsource hsources⟩
  | cons y ys ih =>
      cases h with
      | moreStmts hsource hsources =>
          obtain ⟨entry, rest, s₁, k', rfl, hentry, hbody⟩ := ih hsources
          refine ⟨_, rest, s₁, k', (List.append_assoc _ _ _).symm, ?_, hbody⟩
          exact hsource.bindsFunction (hsources.grows.catalog.trans hcatalog) hentry

theorem entry_of_prologue {enclosing : List String} {fs : List Tree.Function}
    (h : Flattens (.prologue enclosing fs) s code k r s') (hcatalog : s'.catalog.Extends catalog)
    (hys : ys.map bindingOf = fs.map (Closure.construction enclosing)) :
    EntryCode catalog ys code := by
  induction fs generalizing ys s code k r with
  | nil =>
      obtain rfl := List.map_eq_nil_iff.1 hys
      cases h
      exact .nil
  | cons f fs ih =>
      cases ys with
      | nil => exact nomatch hys
      | cons y ys =>
          obtain ⟨hy, hys⟩ := List.cons.inj hys
          cases h with
          | moreFunctions _ _ _ hconstruction hfs =>
              rw [← hy] at hconstruction
              exact hconstruction.bindsFunction (hfs.grows.catalog.trans hcatalog) (ih hfs hys)

/-- The code of a scope starts with the objects of the functions that it binds. -/
theorem BodyCode.enters (h : BodyCode sc s code k s') (hcatalog : s'.catalog.Extends catalog)
    (hstart : sc.start = ys.map bindingOf) : ∃ entry rest s₁ k',
      code = entry ++ rest ∧ EntryCode catalog ys entry ∧
        Flattens (.stmts none sc.body) s₁ rest k' .nothing s' := by
  cases h with
  | plain h =>
      rw [Scope.sources, hstart] at h
      exact entry_of_stmts h hcatalog
  | prologue hfs hprologue hbody =>
      exact ⟨_, _, _, _, rfl, entry_of_prologue hprologue (hbody.grows.catalog.trans hcatalog)
        (hstart.symm.trans hfs), hbody⟩

namespace EntryCode

theorem inner (h : EntryCode catalog ys entry) : entry.all isInner = true := by
  induction h with
  | nil => rfl
  | cons _ _ _ _ ih =>
      rw [List.all_append, List.all_cons, ih]
      simp [objectCode, isInner, Stmt.endsBlock]

theorem temporaries (h : EntryCode catalog ys entry) :
    ∀ t ∈ entry.declared, ∃ n, t = numbered "newObj" n := by
  induction h with
  | nil => exact fun t ht => absurd ht List.not_mem_nil
  | cons ht _ _ _ ih =>
      rw [declared_append, declared_objectCode]
      exact List.forall_mem_cons.2 ⟨ht, ih⟩

theorem assigns (h : EntryCode catalog ys entry) {name : String} {e : Expr}
    (hassign : .emit (.assign name e) ∈ entry) :
    name ∈ entry.declared ∨ ∃ y ∈ ys, y.function.name = name := by
  induction h with
  | nil => exact absurd hassign List.not_mem_nil
  | cons _ _ _ _ ih =>
      rw [declared_append, declared_objectCode]
      rcases List.mem_append.1 hassign with hassign | hassign
      · rw [objectCode_eq_construction] at hassign
        simp [Flow.construction] at hassign
        simp [hassign.1]
      · rcases List.mem_cons.1 hassign with heq | hassign
        · obtain ⟨rfl, -⟩ := Stmt.assign.inj (Item.emit.inj heq)
          exact .inr ⟨_, List.mem_cons_self, rfl⟩
        · rcases ih hassign with hname | ⟨y, hy, hname⟩
          · exact .inl (by simp [hname])
          · exact .inr ⟨y, List.mem_cons_of_mem _ hy, hname⟩

end EntryCode

/-! ## Where the statements of the function start -/

variable {V : Type} {m : Machine V} {ctx : Context} {σ σ' : Store V}
  {history history' : History V} {obj : V}

variable (m catalog y) in
/-- Somewhere in the history the value is made as an object of the class of the function. -/
def IsObjectOf (history : History V) (obj : V) : Prop :=
  ∃ slot layout, catalog.startOf y.className = .ok slot ∧
    catalog.layoutOf y.className = .ok layout ∧
    m.Made y.className (layout.length + 1) layout.bitmap (objectWords slot layout) history obj

theorem IsObjectOf.mono (h : IsObjectOf catalog y m history obj) (hsuffix : history <:+ history') :
    IsObjectOf catalog y m history' obj := by
  obtain ⟨slot, layout, hslot, hlayout, hmade⟩ := h
  exact ⟨slot, layout, hslot, hlayout, hmade.mono hsuffix⟩

/-- Behind the code of a function in front of its statements, the name of each function is bound to
an object that is made for it there, unless it is assigned once more. -/
theorem EntryCode.binds (h : EntryCode catalog ys entry)
    (hrun : Executes m ctx entry σ history σ' history')
    (hlocal : ∀ t ∈ entry.declared, ctx.isLocal t = true) {earlier later : List Position}
    (hys : ys = earlier ++ y :: later) (hname : ctx.isLocal y.function.name = true)
    (hlast : ∀ z ∈ later, z.function.name ≠ y.function.name)
    (hplain : y.function.name ∉ entry.declared) :
    IsObjectOf catalog y m history' (σ' y.function.name) := by
  induction h generalizing earlier σ history with
  | nil => exact absurd hys (by simp)
  | @cons z zs t slot layout rest _ hslot hlayout hrest ih =>
      rw [List.append_cons] at hrun
      obtain ⟨σ₂, history₂, hfirst, hrun⟩ := Executes.append_iff.1 hrun
      rw [declared_append, declared_objectCode, declared_emit] at hlocal hplain
      rw [List.mem_append, not_or] at hplain
      have hbehind : ∀ t ∈ rest.declared, ctx.isLocal t = true := fun t ht =>
        hlocal t (List.mem_append_right _ ht)
      cases earlier with
      | nil =>
          obtain ⟨rfl, rfl⟩ := List.cons.inj hys
          have hmade := hfirst.boundObject (hlocal t (by simp))
          have hkept : σ' z.function.name = σ₂ z.function.name :=
            hrun.store_eq hname fun e he => (hrest.assigns he).elim hplain.2
              fun ⟨z', hz', heq⟩ => hlast z' hz' heq
          rw [hkept]
          exact IsObjectOf.mono ⟨slot, layout, hslot, hlayout, hmade⟩ hrun.suffix
      | cons _ earlier =>
          exact ih hrun hbehind (List.cons.inj hys).2 hplain.2

end Entry

section Functions

variable {V : Type} {catalog catalog' : Catalog} {p : Tree.Program} {flow : Flow.Program}
  {x : Position}

/-- A call has put these values into the parameters.  Of two parameters of one name only one has its
value there. -/
def Receives (params : List Parameter) (args : List V) (σ : Store V) : Prop :=
  ∀ (i : Nat) (param : Parameter) v, params[i]? = some param → args[i]? = some v →
    (∀ (j : Nat) (other : Parameter), params[j]? = some other → other.name = param.name → j = i) →
      σ param.name = v

/-- Nothing that a function gets in front of its statements has the name: its receiver, the
functions that it binds and the temporaries for their objects. -/
structure Unshared (x : Position) (temporaries : List String) (name : String) : Prop where
  receiver : name ≠ selfName
  functions : ∀ y ∈ x.bound, y.function.name ≠ name
  temporaries : name ∉ temporaries

/-- What a run has in the variables of a function where its statements start. -/
structure Entered (catalog : Catalog) (m : Machine V) (x : Position) (temporaries : List String)
    (args : List V) (c : Flow.Config V) : Prop where
  params : ∀ (i : Nat) (param : Parameter) v, x.function.params[i]? = some param →
    args[i]? = some v → Unshared x temporaries param.name → c.store param.name = v
  locals : ∀ v ∈ x.function.decls, Unshared x temporaries v.name →
    c.store v.name = m.literal (Value.ofLiteral v.value)
  /-- Of functions with the same name the last one counts. -/
  functions : ∀ earlier y later, x.bound = earlier ++ y :: later →
    (∀ z ∈ later, z.function.name ≠ y.function.name) → y.function.name ∉ temporaries →
    IsObjectOf catalog y m c.history (c.store y.function.name)

theorem Receives.source {receiver : Parameter} {params : List Parameter} {r : V} {args : List V}
    {σ : Store V} (h : Receives (receiver :: params) (r :: args) σ)
    (hparams : (params.map (·.name)).Nodup) {i : Nat} {param : Parameter} {v : V}
    (hparam : params[i]? = some param) (harg : args[i]? = some v)
    (hname : param.name ≠ receiver.name) : σ param.name = v := by
  refine h (i + 1) param v hparam harg fun j other hother heq => ?_
  cases j with
  | zero =>
      obtain rfl := Option.some.inj hother
      exact absurd heq.symm hname
  | succ j =>
      have hi : (params.map (·.name))[i]? = some param.name := by simp [hparam]
      have hj : (params.map (·.name))[j]? = some param.name := by
        rw [List.getElem?_cons_succ] at hother
        simp [hother, heq]
      obtain ⟨hlt, -⟩ := List.getElem?_eq_some_iff.1 hi
      exact congrArg Nat.succ ((List.getElem?_inj hlt hparams).1 (hi.trans hj.symm)).symm

theorem find?_decl {front : List Flow.Decl} {decls : List Tree.Decl} {v : Tree.Decl}
    (hdecls : (decls.map (·.name)).Nodup) (hv : v ∈ decls) :
    (front ++ decls.map decl).reverse.find? (fun d => d.name = v.name) = some (decl v) := by
  have hsome : ((decls.map decl).reverse.find? fun d => d.name = v.name).isSome = true :=
    List.find?_isSome.2 ⟨decl v, by simpa using ⟨v, hv, rfl⟩, by simp [decl]⟩
  obtain ⟨d, hd⟩ := Option.isSome_iff_exists.1 hsome
  obtain ⟨w, hw, rfl⟩ := List.mem_map.1 (List.mem_reverse.1 (List.mem_of_find?_eq_some hd))
  have hname : (decl w).name = v.name := by simpa using List.find?_some hd
  obtain rfl := List.inj_on_of_nodup_map hdecls hw hv hname
  rw [List.reverse_append, List.find?_append, hd]
  rfl

theorem name_mem_decls_of_bound (outer : List String) {y : Position} (hy : y ∈ x.bound) :
    y.function.name ∈ (Scope.ofFunction outer x.enclosing x.function).decls.map (·.name) := by
  rcases List.mem_cons.1 hy with rfl | hy
  · exact List.mem_cons_self
  · obtain ⟨child, hchild, rfl⟩ := List.mem_map.1 hy
    simp only [Scope.ofFunction, List.map_cons, List.map_append, List.map_map]
    exact List.mem_cons_of_mem _ (List.mem_append_left _ (List.mem_map.2 ⟨child, hchild, rfl⟩))

theorem name_mem_decls_of_decl (outer : List String) {v : Tree.Decl} (hv : v ∈ x.function.decls) :
    v.name ∈ (Scope.ofFunction outer x.enclosing x.function).decls.map (·.name) := by
  simp only [Scope.ofFunction, List.map_cons, List.map_append]
  exact List.mem_cons_of_mem _ (List.mem_append_right _ (List.mem_map_of_mem hv))

/-- The declarations of the source stand behind all others, so a declared variable starts with its
own initial value. -/
theorem initial_of_starts {m : Flow.Method} {machine : Machine V} {temporaries : List Flow.Decl}
    {σ : Store V} {outer : List String} {v : Tree.Decl}
    (h : machine.Starts (Optimization.methodContext m) σ)
    (hdistinct : (x.function.decls.map (·.name)).Nodup) (hv : v ∈ x.function.decls)
    (hdecls : m.decls = temporaries ++
      (Scope.ofFunction outer x.enclosing x.function).decls.map decl)
    (hparam : v.name ∉ m.params.map (·.name)) :
    σ v.name = machine.literal (Value.ofLiteral v.value) := by
  refine h v.name (decl v) hparam ?_
  have hfront : m.decls = (temporaries ++ (Closure.binding x.enclosing x.function ::
      x.function.children.map (Closure.binding (x.enclosing ++ [x.function.name]))).map decl) ++
        x.function.decls.map decl := by
    rw [hdecls]
    simp [Scope.ofFunction]
  change m.decls.reverse.find? _ = _
  rw [hfront]
  exact find?_decl hdistinct hv

/-- What a run finds in the variables of a function behind the code in front of its statements. -/
theorem entered_of_executes {m : Flow.Method} {machine : Machine V} {code entry : Code}
    {className : String} {σ : Store V} {receiver : V} {args : List V} {c : Flow.Config V}
    {outer : List String} (hentry : EntryCode catalog x.bound entry)
    (hnames : (x.function.params.map (·.name) ++ x.function.decls.map (·.name)).Nodup)
    (hdecls : m.decls = code.temporaries ++
      (Scope.ofFunction outer x.enclosing x.function).decls.map decl)
    (hparams : m.params = Closure.receiver className :: x.function.params)
    (htemporaries : entry.declared ⊆ code.declared)
    (hargs : Receives m.params (receiver :: args) σ)
    (hstarts : machine.Starts (Optimization.methodContext m) σ)
    (hrun : Executes machine (Optimization.methodContext m) entry σ [] c.store c.history) :
    Entered catalog machine x entry.declared args c := by
  obtain ⟨hdistinct, hdistinct', hdisjoint⟩ := List.nodup_append.1 hnames
  have hlocal : ∀ name ∈ m.decls.map (·.name) ++ m.params.map (·.name),
      (Optimization.methodContext m).isLocal name = true := fun _ => isLocal_methodContext
  -- nothing in front of the statements assigns a name that is not shared
  have hkept : ∀ name ∈ m.decls.map (·.name) ++ m.params.map (·.name),
      Unshared x entry.declared name → c.store name = σ name := fun name hname hunshared =>
    hrun.store_eq (hlocal name hname) fun e he => (hentry.assigns he).elim hunshared.temporaries
      fun ⟨y, hy, heq⟩ => hunshared.functions y hy heq
  rw [decls_names hdecls, hparams] at hlocal hkept
  rw [hparams] at hargs
  refine ⟨fun i param v hparam harg hunshared => ?_, fun v hv hunshared => ?_,
    fun earlier y later hys hlast hplain => ?_⟩
  · have hmem : param ∈ x.function.params := List.mem_of_getElem? hparam
    rw [hkept param.name (by simp [List.mem_map_of_mem hmem]) hunshared]
    exact hargs.source hdistinct hparam harg hunshared.receiver
  · have hmem := name_mem_decls_of_decl outer hv
    rw [hkept v.name (by simp [hmem]) hunshared]
    refine initial_of_starts hstarts hdistinct' hv hdecls ?_
    rw [hparams, List.map_cons, List.mem_cons, not_or]
    exact ⟨hunshared.receiver, fun hparam => hdisjoint _ hparam _ (List.mem_map_of_mem hv) rfl⟩
  · have hy : y ∈ x.bound := by simp [hys]
    have hmem := name_mem_decls_of_bound outer hy
    refine hentry.binds hrun (fun t ht => hlocal t ?_) hys (hlocal _ (by simp [hmem])) hlast hplain
    exact List.mem_append_left _ (List.mem_append_left _ (htemporaries ht))

/-- Where the statements of a function start, a run finds its arguments in the parameters, the
initial values in the declared variables, and new objects in the names of the function itself and of
the functions directly nested in it.  A name that is there twice counts for what is done last. -/
theorem flatten_enters (hflow : flatten catalog p = (.ok flow, catalog')) (hx : x ∈ p.positions)
    (hnames : (x.function.params.map (·.name) ++ x.function.decls.map (·.name)).Nodup) :
    (∀ y ∈ x.bound, ∃ cls ∈ flow.classes, cls.name = y.className ∧ HoldsBody p flow y cls) ∧
    ∃ cls ∈ flow.classes, cls.name = x.className ∧ ∃ m ∈ cls.methods,
      m.name = methodName x.className applyName ∧
      (∃ outer, IsBody flow (.ofFunction outer x.enclosing x.function) m) ∧
      ∃ label entry body, m.body = Code.blocks label (entry ++ body) ∧
        (∃ s k s', Flattens (.stmts none x.function.body) s body k .nothing s') ∧
        (∀ t ∈ entry.declared, ∃ n, t = numbered "newObj" n) ∧
        ∀ (V : Type) (machine : Machine V) σ receiver args n,
          let run := machine.after (Optimization.methodContext m) m.body σ
          Receives m.params (receiver :: args) σ →
          machine.Starts (Optimization.methodContext m) σ →
          Before label (entry ++ body) body (run n).place →
            Entered catalog' machine x entry.declared args (run n) := by
  obtain ⟨hlabels, st, hrun, rfl⟩ := flatten_eq_ok_iff.1 hflow
  have hprogram := flattens_program hrun
  refine ⟨fun y hy => hprogram.holdsBody rfl (p.bound_subset hx hy), ?_⟩
  obtain ⟨_, _, s, _, _, s', _, _, _, _, _, _, -, -, hphases, hcatalog⟩ := hprogram.phases rfl
  obtain ⟨outer, c, -, hmatches, hname, hrealized⟩ := hphases.realized_position hx
  obtain ⟨cls, hcls, hclass, hfields, m, hm, hmethod, himplements⟩ :=
    hrealized.apply hmatches fun _ h => h
  have hholds : Holds flow .closure m := ⟨cls, hcls, hfields, hm⟩
  refine ⟨cls, hcls, hclass.trans hname, m, hm, hname ▸ hmethod,
    ⟨outer, hholds, s, s', himplements⟩, ?_⟩
  obtain @⟨label, t, t', code, k, hcode, -, -, hbehind, hbody, hdecls, className, hparams⟩ :=
    himplements
  have hextends : t'.catalog.Extends st.catalog := by
    rw [hcatalog]
    exact hbehind.catalog.trans (Catalog.extends_addGlobals _ _)
  obtain ⟨entry, body, t₁, k', rfl, hentry, hrest⟩ :=
    hcode.enters hextends (start_ofFunction outer x)
  refine ⟨label, entry, body, hbody, ⟨t₁, k', t', hrest⟩, hentry.temporaries, ?_⟩
  intro V machine σ receiver args n run hargs hstarts hb
  refine entered_of_executes hentry hnames hdecls hparams (by simp) hargs hstarts ?_
  obtain ⟨pre, hpre, hplace⟩ := hb
  obtain rfl := List.append_cancel_right hpre
  unfold run at hplace ⊢
  rw [hbody] at hplace ⊢
  exact executes_of_place (hholds.nodup hlabels hbody) hcode.shaped.resolves
    (marks_of_inner hentry.inner) hplace

end Functions

/-! ## A parameter with the name of its function -/

/-- The function `def f(name: int) -> int: x: int = 7; def g() -> int: return 0; return name`. -/
def returning (name : String) : Tree.Function :=
  let inner : Tree.Function :=
    ⟨"g", [], .int, [], [.ret ⟨1, 1, 0⟩ (.literal integer (.num 0))], [], ⟨1, 1, 0⟩⟩
  ⟨"f", [⟨name, .int⟩], .int, [⟨"x", .int, .num 7⟩], [.ret ⟨1, 1, 0⟩ (.id integer name)], [inner],
    ⟨1, 1, 0⟩⟩

def returningProgram (name : String) : Tree.Program := ⟨[returning name], [], [], []⟩

/-- The function starts with its argument in `a`, with 7 in `x` and with an object of `g` in `g`. -/
theorem flatten_enters_nested :
    ∃ cls ∈ (blocksOf .empty (returningProgram "a")).classes, ∃ m ∈ cls.methods,
      m.name = "f_$closure$$apply" ∧ ∃ label entry body,
        m.body = Code.blocks label (entry ++ body) ∧
        ∀ (V : Type) (machine : Machine V) σ receiver v n,
          let run := machine.after (Optimization.methodContext m) m.body σ
          Receives m.params [receiver, v] σ → machine.Starts (Optimization.methodContext m) σ →
          Before label (entry ++ body) body (run n).place →
            (run n).store "a" = v ∧ (run n).store "x" = machine.literal (.num 7) ∧
              ∀ y ∈ (⟨[], returning "a"⟩ : Position).bound, IsObjectOf
                (flatten .empty (returningProgram "a")).2 y machine (run n).history
                  ((run n).store y.function.name) := by
  have hok : (flatten .empty (returningProgram "a")).1.toOption.isSome = true := by decide +kernel
  obtain ⟨-, cls, hcls, -, m, hm, hname, -, label, entry, body, hbody, -, hnew, hstarts⟩ :=
    flatten_enters (x := ⟨[], returning "a"⟩) (flatten_eq_blocksOf hok) List.mem_cons_self
      (by decide)
  have hplain : ∀ name : String, name.length < 6 → name ∉ entry.declared := by
    intro name hshort hmem
    obtain ⟨n, hn⟩ := hnew name hmem
    exact not_isGenerated_of_length hshort ⟨"newObj", by decide, n, hn⟩
  refine ⟨cls, hcls, m, hm, hname, label, entry, body, hbody, ?_⟩
  intro V machine σ receiver v n run hargs hinitial hb
  obtain ⟨hparams, hlocals, hfunctions⟩ := hstarts V machine σ receiver [v] n hargs hinitial hb
  refine ⟨?_, ?_, ?_⟩
  · exact hparams 0 ⟨"a", .int⟩ v rfl rfl ⟨by decide, by decide, hplain "a" (by decide)⟩
  · exact hlocals ⟨"x", .int, .num 7⟩ List.mem_cons_self
      ⟨by decide, by decide, hplain "x" (by decide)⟩
  · have hf := hfunctions [] ⟨[], returning "a"⟩ _ rfl (by decide) (hplain "f" (by decide))
    have hg := hfunctions [⟨[], returning "a"⟩] _ [] rfl nofun (hplain "g" (by decide))
    exact List.forall_mem_cons.2 ⟨hf, List.forall_mem_singleton.2 hg⟩

def constant : Machine Value :=
  { Machine.ofLiterals with answer := fun _ => ⟨some (.word 9), fun _ => none⟩ }

def returningStart : Store Value := fun name =>
  if name = "f" then .num 5 else if name = "x" then .num 7 else .none

/-- The function is called with 5 for its parameter `f`.  At its first statement, which returns `f`,
an object of the function itself is there. -/
theorem flatten_enters_shadowed :
    (flatten .empty (returningProgram "f")).1.toOption.isSome = true ∧
      ⟨[], returning "f"⟩ ∈ (returningProgram "f").positions ∧
      (((returning "f").params.map (·.name) ++ (returning "f").decls.map (·.name)).Nodup) ∧
      (∀ child ∈ (returning "f").children, child.name ≠ "f") ∧
      ∃ cls ∈ (blocksOf .empty (returningProgram "f")).classes, ∃ m ∈ cls.methods,
        let run := constant.after (Optimization.methodContext m) m.body returningStart
        m.name = "f_$closure$$apply" ∧ m.params.map (·.name) = ["self", "f"] ∧
        (∀ v ∈ m.decls, v.name ∉ m.params.map (·.name) → returningStart v.name = v.value) ∧
        returningStart "f" = .num 5 ∧ Flow.Machine.next? m.body (run 8) = some (.ret (.id "f")) ∧
        (run 8).store "f" = .word 9 := by
  refine ⟨by decide +kernel, List.mem_cons_self, by decide, by decide, ?_⟩
  decide +kernel

end Midend.Linear
