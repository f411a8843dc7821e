import Midend.Proofs.Linear.Placement
import Midend.Proofs.Meaning.Structured
/-!
# Steps of flattened code

The few kinds of statements that flattened code is made of, each run with builtins as the
partner.  In between, a run changes no variable of the source, only temporaries (`Ran`), and
where it halts it has changed none of them either (`HaltedBy`).
-/

namespace Midend.Linear

open Midend.Flow (Block Config History Label Machine Request Stmt Store Value)
open Midend.Tree (Aborts Halt Oracle builtinCalls isBuiltin)
open NameSupply (IsTemporary Upcoming)

variable {V : Type}

def Passed (m : Machine V) (history : History V) : Prop := ∀ q ∈ history, ¬ Aborts m q.1

theorem Passed.cons {m : Machine V} {history : History V} {call : Request V} {σ : Store V}
    (hp : Passed m history) (hcall : ¬ Aborts m call) : Passed m ((call, σ) :: history) :=
  List.forall_mem_cons.2 ⟨hcall, hp⟩

/-- The history tells why a run halts: the failed check of a divisor comes last, or no such
check has failed. -/
def Tells (m : Machine V) (history : History V) : Halt → Prop
  | .dividedByZero => ∃ q ∈ history.head?, Aborts m q.1
  | .failed => Passed m history

variable [DecidableEq V]

section Definitions

variable (m : Machine V) (oracle : Oracle V) (ctx : Context) (body : List Block)

/-- A run has gone on from one configuration to another, and of all variables only upcoming
temporaries have changed. -/
structure Ran (s : NameSupply) (c c' : Config V) : Prop where
  reaches : Reaches (m.withBuiltins oracle) ctx body 0 c c'
  store : ∀ x, ¬ s.Upcoming x → c'.store x = c.store x
  passed : Passed m c'.history

structure HaltedBy (why : Halt) (c c' : Config V) : Prop where
  reaches : Reaches (m.withBuiltins oracle) ctx body 0 c c'
  place : c'.place = .stopped
  store : ∀ x, ¬ IsTemporary x → c'.store x = c.store x
  tells : Tells m c'.history why

end Definitions

variable {m : Machine V} {oracle : Oracle V} {ctx : Context} {body : List Block}
  {s s' : NameSupply} {c c' c'' : Config V} {why : Halt} {label : Label} {code rest : Code}
  {history : History V}

theorem value_withBuiltins (oracle : Oracle V) (σ : Store V) (v : Value) :
    (m.withBuiltins oracle).value σ v = m.value σ v := by
  cases v <;> rfl

namespace Ran

theorem refl (hp : Passed m c.history) : Ran m oracle ctx body s c c :=
  ⟨Reaches.refl c, fun _ _ => rfl, hp⟩

theorem trans (hr : Ran m oracle ctx body s c c') (hr' : Ran m oracle ctx body s' c' c'')
    (hle : ∀ base, s.next base ≤ s'.next base) : Ran m oracle ctx body s c c'' where
  reaches := hr.reaches.trans hr'.reaches
  store x hx := (hr'.store x fun hup => hx (hup.mono hle)).trans (hr.store x hx)
  passed := hr'.passed

theorem weaken (hr : Ran m oracle ctx body s' c c') (hle : ∀ base, s.next base ≤ s'.next base) :
    Ran m oracle ctx body s c c' :=
  ⟨hr.reaches, fun x hx => hr.store x fun hup => hx (hup.mono hle), hr.passed⟩

theorem moved {k : Nat} (hr : Ran m oracle ctx body s c c')
    (hreaches : Reaches (m.withBuiltins oracle) ctx body k c' c'')
    (hstore : c''.store = c'.store) (hhistory : c''.history = c'.history) :
    Ran m oracle ctx body s c c'' where
  reaches := hr.reaches.trans (hreaches.weaken (Nat.zero_le _))
  store x hx := (congrFun hstore x).trans (hr.store x hx)
  passed := hhistory ▸ hr.passed

theorem source (hr : Ran m oracle ctx body s c c') {x : String} (hx : ¬ IsTemporary x) :
    c'.store x = c.store x :=
  hr.store x fun hup => hx hup.isTemporary

theorem halted (hr : Ran m oracle ctx body s c c') (hh : HaltedBy m oracle ctx body why c' c'') :
    HaltedBy m oracle ctx body why c c'' where
  reaches := hr.reaches.trans hh.reaches
  place := hh.place
  store x hx := (hh.store x hx).trans (hr.source hx)
  tells := hh.tells

end Ran

/-! ## Single statements -/

def Yields (m : Machine V) (oracle : Oracle V) (ctx : Context) (r : Flow.Expr) (c : Config V)
    (result : Option V) (history : History V) : Prop :=
  (m.withBuiltins oracle).compute ctx r c.store c.history = (result, c.store, history) ∧
    Passed m history

theorem yields_value (v : Value) (hp : Passed m c.history) :
    Yields m oracle ctx (.value v) c (some (m.value c.store v)) c.history := by
  refine ⟨?_, hp⟩
  rw [← value_withBuiltins oracle]
  rfl

namespace Before

variable {r : Flow.Expr} {v : V}

theorem next {stmt : Stmt} {store : Store V} (hnodup : (label :: code.marks).Nodup)
    (hb : Before label code (.emit stmt :: rest) c.place)
    (hexec : (m.withBuiltins oracle).exec ctx stmt c.store c.history = ⟨.next, store, history⟩) :
    ∃ c', Reaches (m.withBuiltins oracle) ctx (code.blocks label) 1 c c' ∧
      Before label code rest c'.place ∧ c'.store = store ∧ c'.history = history := by
  obtain ⟨l, i, hstep, hnext⟩ := hb.emit (m.withBuiltins oracle) ctx hnodup
  rw [hexec] at hstep
  exact ⟨_, Reaches.one hstep, hnext, rfl, rfl⟩

theorem stop {stmt : Stmt} (hnodup : (label :: code.marks).Nodup)
    (hb : Before label code (.emit stmt :: rest) c.place)
    (hexec : (m.withBuiltins oracle).exec ctx stmt c.store c.history =
      ⟨.stopped, c.store, history⟩) :
    ∃ c', Reaches (m.withBuiltins oracle) ctx (code.blocks label) 1 c c' ∧ c'.place = .stopped ∧
      c'.store = c.store ∧ c'.history = history := by
  obtain ⟨l, i, hstep, -⟩ := hb.emit (m.withBuiltins oracle) ctx hnodup
  rw [hexec] at hstep
  exact ⟨_, Reaches.one hstep, rfl, rfl, rfl⟩

theorem fail {stmt : Stmt} (hnodup : (label :: code.marks).Nodup)
    (hb : Before label code (.emit stmt :: rest) c.place)
    (hstmt : stmt = .expr r ∨ ∃ name, stmt = .assign name r)
    (hy : Yields m oracle ctx r c none history) :
    ∃ c', HaltedBy m oracle ctx (code.blocks label) .failed c c' ∧ c'.history = history := by
  have hexec : (m.withBuiltins oracle).exec ctx stmt c.store c.history =
      ⟨.stopped, c.store, history⟩ := by
    rcases hstmt with rfl | ⟨name, rfl⟩
    · unfold Machine.exec
      dsimp only
      rw [hy.1]
    · unfold Machine.exec
      dsimp only
      rw [hy.1]
  obtain ⟨c', hreaches, hplace, hstore, hhistory⟩ := hb.stop hnodup hexec
  refine ⟨c', ⟨hreaches.weaken (Nat.zero_le _), hplace, fun x _ => by rw [hstore], ?_⟩, hhistory⟩
  rw [hhistory]
  exact hy.2

theorem assign {name : String} (hnodup : (label :: code.marks).Nodup)
    (hb : Before label code (.emit (.assign name r) :: rest) c.place)
    (hy : Yields m oracle ctx r c (some v) history) :
    ∃ c', Reaches (m.withBuiltins oracle) ctx (code.blocks label) 1 c c' ∧
      Before label code rest c'.place ∧ c'.store = Function.update c.store name v ∧
      c'.history = history := by
  refine hb.next hnodup ?_
  unfold Machine.exec
  dsimp only
  rw [hy.1]

theorem expr (hnodup : (label :: code.marks).Nodup)
    (hb : Before label code (.emit (.expr r) :: rest) c.place)
    (hy : Yields m oracle ctx r c (some v) history) :
    ∃ c', Reaches (m.withBuiltins oracle) ctx (code.blocks label) 1 c c' ∧
      Before label code rest c'.place ∧ c'.store = c.store ∧ c'.history = history := by
  refine hb.next hnodup ?_
  unfold Machine.exec
  dsimp only
  rw [hy.1]

variable (m oracle ctx) in
theorem jump {target : Label} (hnodup : (label :: code.marks).Nodup)
    (hb : Before label code (.emit (.jump target) :: rest) c.place) :
    Reaches (m.withBuiltins oracle) ctx (code.blocks label) 1 c
      ⟨.inside target 0, c.store, c.history⟩ := by
  obtain ⟨l, i, hstep, -⟩ := hb.emit (m.withBuiltins oracle) ctx hnodup
  exact Reaches.one hstep

variable (m oracle ctx) in
theorem ret {v : Value} (hnodup : (label :: code.marks).Nodup)
    (hb : Before label code (.emit (.ret v) :: rest) c.place) :
    Reaches (m.withBuiltins oracle) ctx (code.blocks label) 1 c
      ⟨.returned (m.value c.store v), c.store, c.history⟩ := by
  obtain ⟨l, i, hstep, -⟩ := hb.emit (m.withBuiltins oracle) ctx hnodup
  refine Reaches.one (hstep.trans ?_)
  rw [← value_withBuiltins oracle]
  rfl

variable (m oracle ctx) in
theorem branch {cond : Value} {onTrue onFalse : Label} (hnodup : (label :: code.marks).Nodup)
    (hb : Before label code (.emit (.branch cond onTrue onFalse) :: rest) c.place) :
    Reaches (m.withBuiltins oracle) ctx (code.blocks label) 1 c
      ⟨.inside (if m.isTrue (m.value c.store cond) then onTrue else onFalse) 0,
        c.store, c.history⟩ := by
  obtain ⟨l, i, hstep, -⟩ := hb.emit (m.withBuiltins oracle) ctx hnodup
  refine Reaches.one (hstep.trans ?_)
  rw [← value_withBuiltins oracle]
  rfl

/-- The check of a divisor halts the run if the divisor is 0 and changes nothing else. -/
theorem guardDivisor {v : Value} {loc : Location} (hnodup : (label :: code.marks).Nodup)
    (hb : Before label code (Code.guardDivisor v loc :: rest) c.place) (hp : Passed m c.history) :
    ∃ c', builtinCalls c'.history = builtinCalls c.history ∧
      if m.value c.store v = m.literal (.num 0) then
        HaltedBy m oracle ctx (code.blocks label) .dividedByZero c c'
      else
        Ran m oracle ctx (code.blocks label) s c c' ∧ Before label code rest c'.place ∧
          c'.store = c.store := by
  let call : Request V := .call "$check_zero"
    ([v, .word loc.row, .word loc.col].map ((m.withBuiltins oracle).value c.store))
  have haborts : Aborts m call ↔ m.value c.store v = m.literal (.num 0) := by
    rw [← value_withBuiltins oracle]
    simp [call, Aborts]
  have hcalls : builtinCalls ((call, c.store) :: c.history) = builtinCalls c.history := by
    simp [builtinCalls, isBuiltin, call]
  have hcompute : (m.withBuiltins oracle).compute ctx
      (.call "$check_zero" [v, .word loc.row, .word loc.col]) c.store c.history =
      (if Aborts m call then none else some (m.literal .none), c.store,
        (call, c.store) :: c.history) := by
    have hstore : (c.store.overwrite ctx fun _ => none) = c.store :=
      funext fun x => ite_self (c.store x)
    unfold Machine.compute
    dsimp only [Machine.request?]
    exact Prod.ext rfl (Prod.ext hstore rfl)
  by_cases hzero : m.value c.store v = m.literal (.num 0)
  · rw [if_pos (haborts.2 hzero)] at hcompute
    have hexec : (m.withBuiltins oracle).exec ctx
        (.expr (.call "$check_zero" [v, .word loc.row, .word loc.col])) c.store c.history =
        ⟨.stopped, c.store, (call, c.store) :: c.history⟩ := by
      unfold Machine.exec
      dsimp only
      rw [hcompute]
    obtain ⟨c', hreaches, hplace, hstore, hhistory⟩ := hb.stop hnodup hexec
    refine ⟨c', by rw [hhistory, hcalls], ?_⟩
    rw [if_pos hzero]
    refine ⟨hreaches.weaken (Nat.zero_le _), hplace, fun x _ => by rw [hstore], ?_⟩
    rw [hhistory]
    exact ⟨_, rfl, haborts.2 hzero⟩
  · rw [if_neg fun hab => hzero (haborts.1 hab)] at hcompute
    have hpassed := hp.cons (σ := c.store) fun hab => hzero (haborts.1 hab)
    obtain ⟨c', hreaches, hbefore, hstore, hhistory⟩ := hb.expr hnodup ⟨hcompute, hpassed⟩
    refine ⟨c', by rw [hhistory, hcalls], ?_⟩
    rw [if_neg hzero]
    refine ⟨⟨hreaches.weaken (Nat.zero_le _), fun x _ => by rw [hstore], ?_⟩, hbefore, hstore⟩
    rw [hhistory]
    exact hpassed

end Before

end Midend.Linear
