import Mathlib.Data.List.Induction
import Midend.Proofs.Linear.Names
import Midend.Proofs.Linear.Stepwise
/-!
# Requests for names

For a list of requests a supply gives out each base with the numbers behind it, without gaps
(`mem_drawn_iff`).  Whatever is asked for among some bases, the names are all different exactly when
none of the bases is another one with a positive number behind (`nodup_drawn_iff`).  The bases that
flattening asks for end in no digit, so this holds of them (`requested_names_distinct`).
-/

namespace Midend.NameSupply

variable {base base' name : String} {bases requests : List String} {n n' : Nat} {s : NameSupply}

/-- The names given out for requests one after another.  A label is asked for as any other name. -/
def drawn (s : NameSupply) : List String → List String
  | [] => []
  | base :: requests => (s.fresh base).1 :: (s.fresh base).2.drawn requests

def after (s : NameSupply) (requests : List String) : NameSupply :=
  requests.foldl (fun s base => (s.fresh base).2) s

theorem after_cons (s : NameSupply) (base : String) (requests : List String) :
    s.after (base :: requests) = (s.fresh base).2.after requests := rfl

theorem after_append (s : NameSupply) (requests rest : List String) :
    s.after (requests ++ rest) = (s.after requests).after rest := List.foldl_append

theorem drawn_append (s : NameSupply) (requests rest : List String) :
    s.drawn (requests ++ rest) = s.drawn requests ++ (s.after requests).drawn rest := by
  induction requests generalizing s with
  | nil => rfl
  | cons base requests ih => rw [List.cons_append, drawn, drawn, ih, after_cons, List.cons_append]

/-! ## Numbers -/

theorem next_pos (s : NameSupply) (base : String) : 0 < s.next base := Nat.succ_pos _

theorem next_fresh_snd (s : NameSupply) (base base' : String) :
    (s.fresh base).2.next base' = s.next base' + [base].count base' := by
  have hfresh : s.fresh base = ((s.fresh base).1, (s.fresh base).2) := rfl
  rw [next_fresh hfresh, List.count_singleton]
  simp only [beq_iff_eq, eq_comm (a := base)]

theorem next_after (s : NameSupply) (requests : List String) (base : String) :
    (s.after requests).next base = s.next base + requests.count base := by
  induction requests generalizing s with
  | nil => rfl
  | cons first requests ih =>
      calc (s.after (first :: requests)).next base
          = s.next base + [first].count base + requests.count base := by
            rw [after_cons, ih, next_fresh_snd]
        _ = s.next base + ([first] ++ requests).count base := by
            rw [List.count_append, Nat.add_assoc]

/-- The names given out are the bases with the numbers that the requests use up. -/
theorem mem_drawn_iff : name ∈ s.drawn requests ↔
    ∃ base n, s.next base ≤ n ∧ n < (s.after requests).next base ∧ name = numbered base n := by
  induction requests generalizing s with
  | nil =>
      refine ⟨fun h => absurd h List.not_mem_nil, fun ⟨base, n, hlow, hhigh, _⟩ => ?_⟩
      exact absurd hhigh (Nat.not_lt.2 hlow)
  | cons first requests ih =>
      have hle : ∀ base, (s.fresh first).2.next base ≤ (s.after (first :: requests)).next base := by
        intro base
        rw [after_cons, next_after]
        exact Nat.le_add_right _ _
      rw [drawn, List.mem_cons, ih]
      constructor
      · rintro (hname | ⟨base, n, hlow, hhigh, hname⟩)
        · refine ⟨first, s.next first, Nat.le_refl _, Nat.lt_of_lt_of_le ?_ (hle first), hname⟩
          rw [next_fresh_snd, List.count_singleton_self]
          exact Nat.lt_succ_self _
        · rw [next_fresh_snd] at hlow
          exact ⟨base, n, Nat.le_of_add_right_le hlow, hhigh, hname⟩
      · rintro ⟨base, n, hlow, hhigh, hname⟩
        -- Either this number is the one that the first request uses up, or it comes later.
        by_cases hlater : (s.fresh first).2.next base ≤ n
        · exact .inr ⟨base, n, hlater, hhigh, hname⟩
        · rw [next_fresh_snd, List.count_singleton] at hlater
          split at hlater
          · rename_i heq
            obtain rfl : first = base := by simpa using heq
            obtain rfl : n = s.next first := by omega
            exact .inl hname
          · exact absurd hlow hlater

/-! ## Digits -/

/-- What the digits of a number start with are the digits of a number. -/
theorem digits_of_append {front rest : List Char} (hn : 0 < n) (hne : front ≠ [])
    (h : Decimal.digits n = front ++ rest) : ∃ k, 0 < k ∧ front = Decimal.digits k := by
  induction rest using List.reverseRecOn generalizing n with
  | nil => exact ⟨n, hn, by rw [h, List.append_nil]⟩
  | append_singleton rest c ih =>
      rw [← List.append_assoc] at h
      by_cases hsmall : n < 10
      · have hone : front ++ rest ++ [c] = [] ++ [Nat.digitChar n] :=
          h.symm.trans (Nat.toDigits_of_lt_base hsmall)
        exact absurd (List.append_eq_nil_iff.1 (List.append_inj' hone rfl).1).1 hne
      · have hlast : Decimal.digits n = Decimal.digits (n / 10) ++ [Nat.digitChar (n % 10)] :=
          Nat.toDigits_of_base_le (by decide) (Nat.not_lt.1 hsmall)
        exact ih (by omega) (List.append_inj' (h.symm.trans hlast) rfl).1.symm

/-! ## Bases that do not get in each other's way -/

def Apart (bases : List String) : Prop := ∀ base ∈ bases, ∀ n, 0 < n → numbered base n ∉ bases

namespace Apart

theorem middle_eq_nil {middle : List Char} (h : Apart bases) (hbase : base ∈ bases)
    (hbase' : base' ∈ bases) (hn : 0 < n) (hfront : base'.toList = base.toList ++ middle)
    (hback : Decimal.digits n = middle ++ Decimal.digits n') : middle = [] := by
  by_contra hne
  obtain ⟨k, hk, rfl⟩ := digits_of_append hn hne hback
  rw [← toList_numbered, String.toList_inj] at hfront
  exact h base hbase k hk (hfront ▸ hbase')

theorem numbered_inj (h : Apart bases) (hbase : base ∈ bases) (hbase' : base' ∈ bases)
    (hn : 0 < n) (hn' : 0 < n') (heq : numbered base n = numbered base' n') :
    base = base' ∧ n = n' := by
  have hlists := congrArg String.toList heq
  rw [toList_numbered, toList_numbered] at hlists
  rcases List.append_eq_append_iff.1 hlists with ⟨middle, hfront, hback⟩ | ⟨middle, hfront, hback⟩
  · obtain rfl := h.middle_eq_nil hbase hbase' hn hfront hback
    rw [List.append_nil] at hfront
    exact ⟨(String.toList_inj.1 hfront).symm, digits_inj hback⟩
  · obtain rfl := h.middle_eq_nil hbase' hbase hn' hfront hback
    rw [List.append_nil] at hfront
    exact ⟨String.toList_inj.1 hfront, (digits_inj hback).symm⟩

/-- Requests among bases that are apart are answered by different names. -/
theorem nodup_drawn (h : Apart bases) (hsub : requests ⊆ bases) (s : NameSupply) :
    (s.drawn requests).Nodup := by
  induction requests generalizing s with
  | nil => exact List.nodup_nil
  | cons first requests ih =>
      obtain ⟨hfirst, hrest⟩ := List.cons_subset.1 hsub
      refine List.nodup_cons.2 ⟨fun hmem => ?_, ih hrest _⟩
      obtain ⟨base, n, hlow, hhigh, heq⟩ := mem_drawn_iff.1 hmem
      have hcount : 0 < requests.count base := by
        rw [next_after] at hhigh
        omega
      obtain ⟨rfl, rfl⟩ := h.numbered_inj hfirst (hrest (List.count_pos_iff.1 hcount))
        (next_pos s first) (Nat.lt_of_lt_of_le (next_pos _ base) hlow) heq
      rw [next_fresh_snd, List.count_singleton_self] at hlow
      omega

end Apart

theorem apart_of_unnumbered (h : ∀ base ∈ bases, Unnumbered base) : Apart bases :=
  fun base _ n _ hmem => not_unnumbered_numbered base n (h _ hmem)

/-- A base with `k` behind gives with 1 the name that the base gives with `10 * k + 1`. -/
theorem numbered_numbered {k : Nat} (hk : 0 < k) :
    numbered (numbered base k) 1 = numbered base (10 * k + 1) := by
  have hdigits : Decimal.digits k ++ Decimal.digits 1 = Decimal.digits (10 * k + 1) :=
    Nat.toDigits_append_toDigits (by decide) hk (by decide)
  rw [← String.toList_inj, toList_numbered, toList_numbered, toList_numbered, ← hdigits,
    List.append_assoc]

theorem numbered_ne_self (base : String) (n : Nat) : numbered base n ≠ base := by
  intro h
  have hlists := congrArg String.toList h
  rw [toList_numbered, List.append_right_eq_self] at hlists
  exact Nat.toDigits_ne_nil hlists

/-- Ask for a base until its number is `10 * k + 1`, and then for the base with `k` behind. -/
theorem not_nodup_drawn {k : Nat} (hk : 0 < k) (base : String) :
    ¬ (empty.drawn (List.replicate (10 * k + 1) base ++ [numbered base k])).Nodup := by
  intro hnodup
  rw [drawn_append] at hnodup
  have hother : (List.replicate (10 * k + 1) base).count (numbered base k) = 0 := by
    rw [List.count_replicate, if_neg (by simpa using (numbered_ne_self base k).symm)]
  refine (List.nodup_append.1 hnodup).2.2 (numbered base (10 * k + 1)) ?_
    (numbered (numbered base k) 1) ?_ (numbered_numbered hk).symm
  · refine mem_drawn_iff.2 ⟨base, 10 * k + 1, Nat.le_add_left 1 _, ?_, rfl⟩
    rw [next_after, List.count_replicate_self]
    exact Nat.lt_add_of_pos_left Nat.one_pos
  · refine mem_drawn_iff.2 ⟨numbered base k, 1, ?_, ?_, rfl⟩
    · rw [next_after, hother]
      exact Nat.le_refl 1
    · rw [next_after, List.count_singleton_self]
      exact Nat.lt_add_of_pos_left (next_pos _ _)

/-- All requests among some bases are answered by different names exactly when the bases are
apart. -/
theorem nodup_drawn_iff : (∀ requests ⊆ bases, (empty.drawn requests).Nodup) ↔ Apart bases := by
  constructor
  · intro h base hbase k hk hmem
    have hsub : List.replicate (10 * k + 1) base ++ [numbered base k] ⊆ bases :=
      List.append_subset.2 ⟨fun x hx => List.eq_of_mem_replicate hx ▸ hbase, by simpa using hmem⟩
    exact not_nodup_drawn hk base (h _ hsub)
  · exact fun h requests hsub => h.nodup_drawn hsub empty

example : ¬ (empty.drawn (List.replicate 11 "a" ++ ["a1"])).Nodup := by decide +kernel

/-- The supply `s'` is `s` after requests whose bases end in no digit. -/
def Served (s s' : NameSupply) : Prop :=
  ∃ requests : List String, (∀ base ∈ requests, Unnumbered base) ∧ s' = s.after requests

namespace Served

theorem refl (s : NameSupply) : Served s s := ⟨[], fun _ h => absurd h List.not_mem_nil, rfl⟩

theorem fresh (h : Unnumbered base) (s : NameSupply) : Served s (s.fresh base).2 :=
  ⟨[base], List.forall_mem_singleton.2 h, rfl⟩

theorem trans {s₁ s' : NameSupply} (h : Served s s₁) (h' : Served s₁ s') : Served s s' := by
  obtain ⟨requests, hrequests, rfl⟩ := h
  obtain ⟨rest, hrest, rfl⟩ := h'
  exact ⟨requests ++ rest, List.forall_mem_append.2 ⟨hrequests, hrest⟩,
    (after_append s requests rest).symm⟩

end Served

end Midend.NameSupply

namespace Midend.Linear

open NameSupply (Unnumbered Served)

section Draws

variable {α β : Type} {act : Build α} {next : α → Build β}

/-- Whether building fails or not, it asks for names with bases that end in no digit only. -/
def DrawsUnnumbered (act : Build α) : Prop := ∀ s : State, Served s.names (runOn act s).2.names

theorem drawsUnnumbered_of_eq (h : ∀ s : State, (runOn act s).2.names = s.names) :
    DrawsUnnumbered act := by
  intro s
  rw [h s]
  exact .refl s.names

theorem DrawsUnnumbered.bind (hact : DrawsUnnumbered act) (hnext : ∀ a, DrawsUnnumbered (next a)) :
    DrawsUnnumbered (act >>= next) :=
  runOn_bind_trans (R := fun s s' : State => Served s.names s'.names) Served.trans hact hnext

theorem stepwise_drawsUnnumbered (classes : List Tree.Class) :
    Stepwise classes DrawsUnnumbered where
  pure _ := drawsUnnumbered_of_eq fun _ => rfl
  bind := DrawsUnnumbered.bind
  throw _ := drawsUnnumbered_of_eq fun _ => rfl
  fresh _ hbase s := .fresh hbase s.names
  ask _ := drawsUnnumbered_of_eq fun _ => rfl
  enterClosure _ _ := drawsUnnumbered_of_eq fun _ => rfl
  enterClass _ := drawsUnnumbered_of_eq fun _ => rfl
  recordPaths _ _ := drawsUnnumbered_of_eq fun _ => rfl
  addGlobals _ := drawsUnnumbered_of_eq fun _ => rfl
  keep _ := drawsUnnumbered_of_eq fun _ => rfl
  read _ := drawsUnnumbered_of_eq fun _ => rfl

end Draws

/-- Names are never given out twice for requests whose bases end in no digit, however long the
requests go on and whatever the bases have in common.  Flattening asks for no other names. -/
theorem requested_names_distinct :
    (∀ requests : List String, (∀ base ∈ requests, Unnumbered base) →
      (NameSupply.empty.drawn requests).Nodup) ∧
    ∀ (catalog : Catalog) (p : Tree.Program), ∃ requests : List String,
      (∀ base ∈ requests, Unnumbered base) ∧
      (runOn (program p) ⟨catalog, .empty, []⟩).2.names = NameSupply.empty.after requests := by
  refine ⟨fun requests h => ?_, fun catalog p => ?_⟩
  · have hapart := NameSupply.apart_of_unnumbered h
    exact NameSupply.nodup_drawn_iff.2 hapart requests (List.Subset.refl requests)
  · exact stepwise_program (stepwise_drawsUnnumbered p.classes) ⟨catalog, .empty, []⟩

/-- Bases that others begin with, or that have digits inside, and a number of two digits. -/
theorem requested_names_distinct_prefixes :
    let requests := List.replicate 11 "a" ++ ["ab", "", "a1b", "a"]
    (∀ base ∈ requests, Unnumbered base) ∧
      NameSupply.empty.drawn requests =
        ["a1", "a2", "a3", "a4", "a5", "a6", "a7", "a8", "a9", "a10", "a11", "ab1", "1", "a1b1",
          "a12"] ∧
      (NameSupply.empty.drawn requests).Nodup :=
  ⟨by decide +kernel, by decide +kernel, requested_names_distinct.1 _ (by decide +kernel)⟩

end Midend.Linear
