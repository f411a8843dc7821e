import Midend.Proofs.Heap.Making
import Midend.Proofs.Heap.Stores
/-!
# Disciplined programs

A program that holds only what is alive, lets go only of its own roots and stores only
what is alive never loses an object that it can still reach: in every state of its run
all roots and everything in the fields of living objects are alive.

Counts are words of 32 bits, so this is said of programs none of whose objects ever has
`2 ^ 32 - 1` holders (`Full`).  Nothing keeps a program from holding an object in `2 ^ 32` scopes,
and then no count is enough (`HeldBy.not_safe`).
-/

namespace Midend.Heap

inductive Request where
  | make (fields : Nat) (bitmap : UInt32)
  | makePlain (fields : Nat)
  | read (r : Ref) (offset : Nat)
  | write (r : Ref) (offset : Nat) (value : UInt32)
  | openScope
  | closeScope
  | compact
  | hold (r : Ref)
  | letGo (r : Ref)

/-- The heap after a request, whether it succeeded or failed. -/
def serve (h : Heap) : Request → Heap
  | .make fields bitmap => (run (make fields bitmap) h).2
  | .makePlain fields => (run (makePlain fields) h).2
  | .read r offset => (run (inspect (·.read r offset)) h).2
  | .write r offset value => (run (write r offset value) h).2
  | .openScope => (run openScope h).2
  | .closeScope => (run closeScope h).2
  | .compact => (run compact h).2
  | .hold r => (run (hold r) h).2
  | .letGo r => (run (letGo r) h).2

def served (h : Heap) (requests : List Request) : Heap := requests.foldl serve h

theorem served_cons (h : Heap) (request : Request) (rest : List Request) :
    h.served (request :: rest) = (h.serve request).served rest := rfl

/-- The object is in the table, and its count is not zero. -/
def Alive (h : Heap) (r : Ref) : Prop := ∃ count, h.count r = .ok count ∧ count ≠ 0

/-- A disciplined program may ask for this. -/
def Allowed (h : Heap) : Request → Prop
  | .write r offset value =>
    h.Alive r ∧ (h.tracesField r offset = .ok true → value = 0 ∨ h.Alive value)
  | .hold r => r = 0 ∨ h.Alive r
  | .letGo r => r = 0 ∨ r ∈ h.roots
  | _ => True

/-- Each request of a program is allowed when it is made. -/
def Disciplined (h : Heap) : List Request → Prop
  | [] => True
  | request :: rest => Allowed h request ∧ Disciplined (h.serve request) rest

def Succeeds {α : Type} (act : Action α) (h : Heap) : Prop := ∃ a h', run act h = (.ok a, h')

/-- Nothing that is still held has been given up. -/
structure Safe (h : Heap) : Prop where
  roots_alive : ∀ scope ∈ h.roots :: h.outer, ∀ r ∈ scope, h.Alive r
  fields_alive : ∀ r offset w, h.Alive r → h.tracesField r offset = .ok true →
    h.read r offset = .ok w → w ≠ 0 → h.Alive w
  counted : ∀ r count, h.count r = .ok count → h.holders r ≤ count.toNat
  closeScope : h.outer ≠ [] → Succeeds closeScope h
  hold : ∀ r, Allowed h (.hold r) → Succeeds (hold r) h
  letGo : ∀ r, Allowed h (.letGo r) → Succeeds (letGo r) h
  write : ∀ r offset value addr, Allowed h (.write r offset value) → h.address r = .ok addr →
    offset < h.fieldsAt addr → Succeeds (write r offset value) h

variable {h : Heap} {r : Ref}

theorem mem_table_of_address {addr : Nat} (haddr : h.address r = .ok addr) :
    (r, addr) ∈ h.table := by
  unfold address at haddr
  split at haddr
  · rename_i addr' hlookup
    obtain rfl : addr' = addr := Except.ok.inj haddr
    exact mem_of_lookup_eq_some hlookup
  · exact nomatch haddr

theorem countOf_of_count {count : UInt32} (hcount : h.count r = .ok count) :
    h.countOf r = count.toNat := by
  unfold Heap.count address at hcount
  unfold countOf
  cases hlookup : h.table.lookup r with
  | none =>
      rw [hlookup] at hcount
      exact nomatch hcount
  | some addr =>
      rw [hlookup] at hcount
      exact congrArg UInt32.toNat (Except.ok.inj hcount)

theorem alive_iff : h.Alive r ↔ 0 < h.countOf r := by
  constructor
  · rintro ⟨count, hcount, hne⟩
    rw [countOf_of_count hcount]
    exact Nat.pos_of_ne_zero fun hzero => hne (eq_zero_iff.2 hzero)
  · intro hpos
    unfold countOf at hpos
    unfold Alive count address
    cases hlookup : h.table.lookup r with
    | none =>
        rw [hlookup] at hpos
        exact absurd hpos (Nat.lt_irrefl 0)
    | some addr =>
        rw [hlookup] at hpos
        exact ⟨h.countAt addr, rfl, fun hzero => absurd (eq_zero_iff.1 hzero) (Nat.ne_of_gt hpos)⟩

theorem mem_table_of_alive (halive : h.Alive r) : ∃ addr, (r, addr) ∈ h.table :=
  mem_inUse.1 (mem_inUse_of_countOf (alive_iff.1 halive))

instance (h : Heap) (r : Ref) : Decidable (h.Alive r) := decidable_of_iff' _ alive_iff

instance (h : Heap) : (request : Request) → Decidable (Allowed h request)
  | .write r offset value =>
    inferInstanceAs (Decidable (h.Alive r ∧
      (h.tracesField r offset = .ok true → value = 0 ∨ h.Alive value)))
  | .hold r => inferInstanceAs (Decidable (r = 0 ∨ h.Alive r))
  | .letGo r => inferInstanceAs (Decidable (r = 0 ∨ r ∈ h.roots))
  | .make .. | .makePlain _ | .read .. | .openScope | .closeScope | .compact => .isTrue trivial

instance decidableDisciplined : (h : Heap) → (requests : List Request) →
    Decidable (Disciplined h requests)
  | _, [] => .isTrue trivial
  | h, request :: rest =>
    have := decidableDisciplined (h.serve request) rest
    inferInstanceAs (Decidable (Allowed h request ∧ Disciplined (h.serve request) rest))

/-! ## One request -/

theorem Covered.of_run {act : Action Unit}
    (hended : ∃ h', run act h = (.ok (), h') ∧ Sound h') : Sound (run act h).2 := by
  obtain ⟨h', hrun, hs'⟩ := hended
  rw [hrun]
  exact hs'

theorem Covered.usable (hs : Sound h) (halive : h.Alive r) : r ∈ h.inUse ∧ Backed h r :=
  ⟨mem_inUse_of_countOf (alive_iff.1 halive), hs.backed (alive_iff.1 halive)⟩

theorem Covered.write_allowed (hs : Sound h) (hroom : ¬ Full h) {offset : Nat} {value : UInt32}
    (hallowed : Allowed h (.write r offset value)) {addr : Nat} (hmem : (r, addr) ∈ h.table)
    (hoffset : offset < h.fieldsAt addr) :
    ∃ h', run (Heap.write r offset value) h = (.ok (), h') ∧ Sound h' := by
  obtain ⟨halive, hvalue⟩ := hallowed
  rw [tracesField_eq hs.laid hmem] at hvalue
  refine hs.write hmem (alive_iff.1 halive) hoffset (fun htraced => ?_) hroom
  exact (hvalue (congrArg Except.ok htraced)).imp_right hs.usable

theorem Covered.serve (hs : Sound h) (hroom : ¬ Full h) {request : Request}
    (hallowed : Allowed h request) : Sound (h.serve request) := by
  cases request with
  | make fields bitmap => exact hs.make fields bitmap
  | makePlain fields => exact hs.make fields 0
  | read r offset => exact hs
  | write r offset value =>
      rcases write_cases hs.laid r offset value with ⟨fault, hrun⟩ | ⟨addr, hmem, hoffset, -, -⟩
      · change Sound (run (Heap.write r offset value) h).2
        rw [hrun]
        exact hs
      · exact of_run (hs.write_allowed hroom hallowed hmem hoffset)
  | openScope => exact hs.openScope
  | closeScope =>
      by_cases houter : h.outer = []
      · rcases closeScope_cases h with ⟨-, hrun⟩ | ⟨scope, outer, hcase, -⟩
        · change Sound (run Heap.closeScope h).2
          rw [hrun]
          exact hs
        · rw [houter] at hcase
          exact nomatch hcase
      · exact of_run (hs.closeScope houter)
  | compact => exact hs.compacted
  | hold r => exact of_run (hs.hold (hallowed.imp_right hs.usable) hroom)
  | letGo r => exact of_run (hs.letGo hallowed)

/-! ## Whole runs -/

theorem Covered.new (limits : HeapLimits) : Sound (new limits) where
  laid := ⟨.nil, Nat.le_max_left _ _, fun _ he => absurd he List.not_mem_nil, List.nodup_nil⟩
  numbered := by
    refine ⟨List.nodup_nil, fun r => ⟨fun hmem => (List.not_mem_nil hmem).elim, ?_⟩, ?_⟩
    · rintro ⟨hne, hle⟩
      exact absurd (UInt32.le_zero_iff.1 hle) hne
    · exact UInt32.zero_le
  nodup_scopes scope hscope := by
    rw [List.mem_singleton.1 hscope]
    exact List.nodup_nil
  enough r := Nat.le_refl 0

/-- Where each request leaves the counts right as long as there is room for more holders, so does
the run, and there is still room behind it, unless there was none at some time. -/
theorem Covered.full_or_served {Q : Heap → List Request → Prop}
    (hstep : ∀ {h : Heap} {request : Request} {rest : List Request}, Sound h → ¬ Full h →
      Q h (request :: rest) → Sound (h.serve request) ∧ Q (h.serve request) rest)
    (hs : Sound h) {requests : List Request} (hd : Q h requests) :
    (∃ n ≤ requests.length, Full (h.served (requests.take n))) ∨
      Sound (h.served requests) ∧ ¬ Full (h.served requests) := by
  induction requests generalizing h with
  | nil =>
      by_cases hroom : Full h
      · exact .inl ⟨0, Nat.le_refl _, hroom⟩
      · exact .inr ⟨hs, hroom⟩
  | cons request rest ih =>
      by_cases hroom : Full h
      · exact .inl ⟨0, Nat.zero_le _, hroom⟩
      · obtain ⟨hs', hd'⟩ := hstep hs hroom hd
        exact (ih hs' hd').imp_left fun ⟨n, hn, hfull⟩ => ⟨n + 1, Nat.succ_le_succ hn, hfull⟩

theorem not_full_of_few {requests : List Request}
    (hfew : ∀ n ≤ requests.length, (h.served (requests.take n)).outer.length + 1 +
      (h.served (requests.take n)).table.length * bitmapBits < 2 ^ 32 - 1) :
    ¬ ∃ n ≤ requests.length, Full (h.served (requests.take n)) :=
  fun ⟨n, hn, hfull⟩ => absurd hfull.large (Nat.not_le_of_lt (hfew n hn))

theorem Covered.safe (hs : Sound h) (hroom : ¬ Full h) : Safe h where
  roots_alive scope hscope r hr := alive_iff.2 (hs.live_of_mem_scope hscope hr)
  fields_alive r offset w halive htraced hread hne := by
    obtain ⟨addr, hmem⟩ := mem_table_of_alive halive
    rw [tracesField_eq hs.laid hmem] at htraced
    unfold Heap.read at hread
    rw [addressOfField_eq hs.laid hmem] at hread
    by_cases hoffset : h.fieldsAt addr ≤ offset
    · rw [if_pos hoffset] at hread
      exact nomatch hread
    · rw [if_neg hoffset] at hread
      obtain rfl := Except.ok.inj hread
      have hsize : offset < h.sizeAt addr := by
        rw [← hs.laid.sized _ hmem]
        exact Nat.lt_of_not_le hoffset
      exact alive_iff.2 (hs.live_of_mem_refsOf (alive_iff.1 halive)
        (mem_refsOf hs.laid hmem hsize (Except.ok.inj htraced) hne))
  counted r count hcount := by
    have henough := hs.enough r
    rw [countOf_of_count hcount] at henough
    omega
  closeScope houter := by
    obtain ⟨h', hrun, -⟩ := hs.closeScope houter
    exact ⟨(), h', hrun⟩
  hold r hallowed := by
    obtain ⟨h', hrun, -⟩ := hs.hold (hallowed.imp_right hs.usable) hroom
    exact ⟨(), h', hrun⟩
  letGo r hallowed := by
    obtain ⟨h', hrun, -⟩ := hs.letGo hallowed
    exact ⟨(), h', hrun⟩
  write r offset value addr hallowed haddr hoffset := by
    obtain ⟨h', hrun, -⟩ :=
      hs.write_allowed hroom hallowed (mem_table_of_address haddr) hoffset
    exact ⟨(), h', hrun⟩

/-- In every state of a disciplined run nothing that is still held has been given up,
unless some object has had as many holders as a count can stand for. -/
theorem disciplined_safe (limits : HeapLimits) {requests : List Request}
    (hd : Disciplined (new limits) requests) :
    (∃ n ≤ requests.length, Full ((new limits).served (requests.take n))) ∨
      Safe ((new limits).served requests) := by
  have hruns := Covered.full_or_served (Q := Disciplined)
    (fun hs hroom hd => ⟨hs.serve hroom hd.1, hd.2⟩) (Covered.new limits) hd
  exact hruns.imp_right fun ⟨hs, hroom⟩ => hs.safe hroom

/-- An object made in an inner scope outlives it in a field of an object of the outer one. -/
theorem disciplined_safe_handover :
    let limits : HeapLimits := { capacity := 16, maxRef := 2 }
    let requests : List Request := [.make 1 1, .openScope, .makePlain 2, .write 1 0 2,
      .closeScope, .compact, .hold 2, .write 1 0 0, .makePlain 1]
    Disciplined (new limits) requests ∧ Safe ((new limits).served requests) := by
  intro limits requests
  have hd : Disciplined (new limits) requests := by decide +kernel
  have hroom : ¬ ∃ n ≤ requests.length, Full ((new limits).served (requests.take n)) :=
    not_full_of_few (by decide +kernel)
  exact ⟨hd, (disciplined_safe limits hd).resolve_left hroom⟩

/-! ## More holders than a count can stand for -/

/-- Opens scopes one in the other, each of which holds the object. -/
def holdInScopes (r : Ref) : Nat → List Request
  | 0 => []
  | n + 1 => .openScope :: .hold r :: holdInScopes r n

structure HeldBy (h : Heap) (r : Ref) (n : Nat) : Prop extends Tidy h where
  alive : h.Alive r
  holders_eq : h.holders r = n

namespace HeldBy

variable {n : Nat}

theorem openScope (hh : HeldBy h r n) : HeldBy (h.serve .openScope) r n where
  toTidy := hh.withScopes (List.forall_mem_cons.2 ⟨List.nodup_nil, hh.nodup_scopes⟩)
  alive := hh.alive
  holders_eq := (holders_opened h r).trans hh.holders_eq

/-- The count goes up or is at its end; there is one holder more in any case. -/
theorem hold (hh : HeldBy h r n) (hnew : r ∉ h.roots) : HeldBy (h.serve (.hold r)) r (n + 1) := by
  have hpos := alive_iff.1 hh.alive
  have hused := mem_inUse_of_countOf hpos
  rcases hold_cases hh.laid r with ⟨hzero | hrooted, -⟩ | ⟨-, hunused, -⟩ | ⟨-, -, hrun⟩
  · exact absurd hzero (ne_of_mem_of_not_mem hused hh.toTidy.zero_notMem_inUse)
  · exact absurd hrooted hnew
  · exact absurd hused hunused
  · obtain ⟨h', hup, -, ht', hcount, hholders⟩ :=
      (hh.withScopes (nodup_root hh.nodup_scopes hnew)).increment hused (.inl rfl) false
    have hserve : h.serve (.hold r) = h' := congrArg Prod.snd (hrun.trans hup)
    have hregained := regained_of_live
      (h := { h with roots := h.roots ++ [r], outer := h.outer }) hpos r
    rw [hserve]
    refine ⟨ht', alive_iff.2 ?_, ?_⟩
    · rw [hcount, if_pos rfl]
      omega
    · rw [hholders, hregained, holders_rooted hnew, hh.holders_eq, if_pos rfl]

theorem holdInScopes (hh : HeldBy h r n) (k : Nat) : Disciplined h (holdInScopes r k) ∧
    HeldBy (h.served (holdInScopes r k)) r (n + k) := by
  induction k generalizing h n with
  | zero => exact ⟨trivial, hh⟩
  | succ k ih =>
      have hopened := hh.openScope
      obtain ⟨hd, hheld⟩ := ih (hopened.hold List.not_mem_nil)
      rw [Nat.add_right_comm] at hheld
      exact ⟨⟨trivial, .inr hopened.alive, hd⟩, hheld⟩

/-- No count is as large as `2 ^ 32`. -/
theorem not_safe (hh : HeldBy h r n) (hn : 2 ^ 32 ≤ n) : ¬ Safe h := by
  intro hsafe
  obtain ⟨count, hcount, -⟩ := hh.alive
  have hcounted := hsafe.counted r count hcount
  rw [hh.holders_eq] at hcounted
  exact absurd count.toNat_lt (Nat.not_lt_of_le (Nat.le_trans hn hcounted))

end HeldBy

/-- `2 ^ 32` scopes hold one object. -/
theorem disciplined_not_counted :
    let limits : HeapLimits := { capacity := 5, maxRef := 1 }
    let requests : List Request := .makePlain 0 :: holdInScopes 1 (2 ^ 32 - 1)
    Disciplined (new limits) requests ∧ ((new limits).served requests).holders 1 = 2 ^ 32 ∧
      ¬ Safe ((new limits).served requests) := by
  intro limits requests
  have hmade : HeldBy ((new limits).serve (.makePlain 0)) 1 1 :=
    ⟨((Covered.new limits).make 0 0).toTidy, by decide +kernel, by decide +kernel⟩
  obtain ⟨hd, hheld⟩ := hmade.holdInScopes (2 ^ 32 - 1)
  rw [← served_cons] at hheld
  exact ⟨⟨trivial, hd⟩, hheld.holders_eq, hheld.not_safe (Nat.le_refl _)⟩

end Midend.Heap
