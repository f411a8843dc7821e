import Midend.Proofs.Linear.Bodies
/-!
# Names in flattened bodies

A body binds the names that its scope binds, and its temporaries.  All other names are free in it,
those of enclosing functions as well as those of the top level: a closure takes nothing along
(`Implements.binds`).
-/

namespace Midend.Flow.Method

def bound (m : Method) : List String := m.params.map (·.name) ++ m.decls.map (·.name)

def mentions (m : Method) : List String :=
  m.body.flatMap fun b => b.stmts.flatMap Stmt.mentions

end Midend.Flow.Method

namespace Midend.Linear

open Midend.Flow (Label)
open NameSupply (IsGenerated)
open Midend.Tree (mentioned)
open Code

/-! ## Statements of blocks -/

theorem emit_mem_of_cut {code : Code} {s : Flow.Stmt}
    (h : s ∈ (cut code).1 ∨ ∃ b ∈ (cut code).2, s ∈ b.stmts) : .emit s ∈ code := by
  induction code with
  | nil =>
      rcases h with h | ⟨b, hb, -⟩
      · exact absurd h List.not_mem_nil
      · exact absurd hb List.not_mem_nil
  | cons item rest ih =>
      cases item with
      | emit s' =>
          rcases h with h | h
          · rcases List.mem_cons.1 h with rfl | h
            · exact List.mem_cons_self
            · exact List.mem_cons_of_mem _ (ih (.inl h))
          · exact List.mem_cons_of_mem _ (ih (.inr h))
      | mark label =>
          rcases h with h | ⟨b, hb, hs⟩
          · exact absurd h List.not_mem_nil
          · rcases List.mem_cons.1 hb with rfl | hb
            · exact List.mem_cons_of_mem _ (ih (.inl hs))
            · exact List.mem_cons_of_mem _ (ih (.inr ⟨b, hb, hs⟩))
      | declare name ty => exact List.mem_cons_of_mem _ (ih h)

theorem emit_mem_of_blocks {code : Code} {label : Label} {b : Flow.Block} {s : Flow.Stmt}
    (hb : b ∈ code.blocks label) (hs : s ∈ b.stmts) : .emit s ∈ code := by
  rcases List.mem_cons.1 hb with rfl | hb
  · exact emit_mem_of_cut (.inl hs)
  · exact emit_mem_of_cut (.inr ⟨b, hb, hs⟩)

theorem Carries.mentions {nodes : List Tree.Node} {declared : List String} {code : Code}
    {label : Label} {b : Flow.Block} {s : Flow.Stmt} {x : String}
    (h : Carries nodes declared code) (hb : b ∈ code.blocks label) (hs : s ∈ b.stmts)
    (hx : x ∈ s.mentions) : Known nodes declared x := by
  have hfits := h.fits s (emit_mem_of_blocks hb hs)
  rcases List.mem_append.1 hx with hx | hx
  · exact (hfits.writes x hx).imp_left fun h => Tree.written_subset_mentioned nodes h
  · exact hfits.reads x hx

/-! ## Well-scoped programs -/

/-- Every name that a scope mentions is bound by it, by a scope around it, or at the top level. -/
def WellScoped (global : String → Prop) (p : Tree.Program) : Prop :=
  ∀ sc, ScopeOf p sc → ∀ x ∈ mentioned sc.nodes, x ∈ sc.names ∨ x ∈ sc.outer ∨ global x

/-- A method binds what a scope binds, and its temporaries.  Any other name of the scope is free in
the method, unless it is one of the temporaries or, in a closure, `self`. -/
structure Binds (global : String → Prop) (sc : Scope) (temporaries : List Flow.Decl)
    (m : Flow.Method) : Prop where
  params : sc.Takes m.params
  decls : m.decls = temporaries ++ sc.decls.map decl
  distinct : (temporaries.map (·.name)).Nodup
  generated : ∀ v ∈ temporaries, IsGenerated v.name
  mentions : ∀ x ∈ m.mentions, x ∈ mentioned sc.nodes ∨ x ∈ temporaries.map (·.name)
  own : ∀ x ∈ sc.names, x ∈ m.bound
  uncaptured : ∀ x ∈ mentioned sc.nodes, x ∉ sc.names → x ∉ temporaries.map (·.name) →
    (sc.kind = .closure → x ≠ selfName) → x ∉ m.bound
  free : ∀ x ∈ m.mentions, x ∉ m.bound → x ∈ sc.outer ∨ global x

theorem Implements.binds {global : String → Prop} {sc : Scope} {m : Flow.Method} {s s' : State}
    {classes : List Flow.Class} (h : Implements sc s classes s' m)
    (hscoped : ∀ x ∈ mentioned sc.nodes, x ∈ sc.names ∨ x ∈ sc.outer ∨ global x) :
    ∃ temporaries, Binds global sc temporaries m := by
  obtain @⟨label, s₁, s₁', code, k, hcode, -, -, -, hbody, hdecls, hparams⟩ := h
  have hcarries := hcode.carries
  have hbound : ∀ x, x ∈ m.bound ↔
      (sc.kind = .closure ∧ x = selfName) ∨ x ∈ code.declared ∨ x ∈ sc.names := by
    intro x
    unfold Flow.Method.bound Scope.names
    rw [decls_names hdecls]
    simp only [List.mem_append, hparams.mem_names]
    tauto
  have hmentions : ∀ x ∈ m.mentions, x ∈ mentioned sc.nodes ∨ x ∈ code.declared := by
    intro x hx
    obtain ⟨b, hb, hx⟩ := List.mem_flatMap.1 hx
    obtain ⟨s, hs, hx⟩ := List.mem_flatMap.1 hx
    rw [hbody] at hb
    exact hcarries.mentions hb hs hx
  refine ⟨code.temporaries, hparams, hdecls, ?_, ?_, hmentions,
    fun x hx => (hbound x).2 (.inr (.inr hx)), fun x _ hname htemporary hself => ?_,
    fun x hx hfree => ?_⟩
  · exact hcode.nodup_declared
  · exact fun v hv => hcarries.generated v.name (List.mem_map_of_mem hv)
  · rw [hbound, not_or, not_or, not_and]
    exact ⟨hself, htemporary, hname⟩
  · rw [hbound, not_or, not_or] at hfree
    obtain ⟨-, htemporary, hname⟩ := hfree
    exact (hscoped x ((hmentions x hx).resolve_right htemporary)).resolve_left hname

/-! ## Whole programs -/

/-- The scopes of a well-scoped program become the bodies of its flattening, and each body binds
what its scope binds: its parameters, its declared variables and the functions in it, with their
types and initial values.  A closure finds no name of the functions around it. -/
theorem flatten_binds {catalog catalog' : Catalog} {p : Tree.Program} {flow : Flow.Program}
    (hflow : flatten catalog p = (.ok flow, catalog'))
    (hscoped : WellScoped (catalog'.isGlobal · = true) p) :
    (∀ sc, ScopeOf p sc → ∃ m, IsBody flow sc m ∧
      ∃ temporaries, Binds (catalog'.isGlobal · = true) sc temporaries m) ∧
    ∀ m ∈ flow.methods, m.IsEmpty ∨ ∃ sc, ScopeOf p sc ∧ IsBody flow sc m ∧
      ∃ temporaries, Binds (catalog'.isGlobal · = true) sc temporaries m := by
  obtain ⟨_, _, s, s', -, -, hlowers, -⟩ := flatten_lowers hflow
  constructor
  · intro sc hsc
    obtain ⟨m, hholds, himplements⟩ := hlowers.methods sc hsc
    exact ⟨m, ⟨hholds, s, s', himplements⟩, himplements.binds (hscoped sc hsc)⟩
  · intro m hm
    refine (hlowers.scopes m hm).imp_right ?_
    rintro ⟨sc, hsc, hholds, himplements⟩
    exact ⟨sc, hsc, ⟨hholds, s, s', himplements⟩, himplements.binds (hscoped sc hsc)⟩

/-! ## A function in a function -/

def innerFunction : Tree.Function :=
  ⟨"inner", [], .int, [], [.ret ⟨2, 5, 0⟩ (.id ⟨.int, ⟨2, 5, 0⟩⟩ "x")], [], ⟨1, 1, 0⟩⟩

/-- The source `def outer(x): return inner()`, with `def inner(): return x` in it. -/
def outerFunction : Tree.Function :=
  ⟨"outer", [⟨"x", .int⟩], .int, [],
    [.ret ⟨3, 3, 0⟩ (.call ⟨.int, ⟨3, 3, 0⟩⟩ (.id ⟨.callable [] .int, ⟨3, 3, 0⟩⟩ "inner") [])],
    [innerFunction], ⟨1, 1, 0⟩⟩

def nested : Tree.Program := ⟨[outerFunction], [], [], []⟩

def outerScope : Scope := .ofFunction [] [] outerFunction

def innerScope : Scope := .ofFunction outerScope.inside ["outer"] innerFunction

theorem scopeOf_innerScope : ScopeOf nested innerScope :=
  .function List.mem_cons_self (.nested List.mem_cons_self (.self _ _ _))

theorem mem_scopes_nested {sc : Scope} (h : ScopeOf nested sc) :
    sc ∈ [.ofProgram nested, outerScope, innerScope] := by
  induction h with
  | topLevel => exact List.mem_cons_self
  | function hf h =>
      obtain rfl := List.mem_singleton.1 hf
      cases h with
      | self => exact List.mem_cons_of_mem _ List.mem_cons_self
      | nested hchild h =>
          obtain rfl := List.mem_singleton.1 hchild
          cases h with
          | self => exact List.mem_cons_of_mem _ (List.mem_cons_of_mem _ List.mem_cons_self)
          | nested hchild _ => exact nomatch hchild
  | method hc => exact nomatch hc
  | methodFunction hc => exact nomatch hc
  | lambda _ hnode ih =>
      -- none of the three has a lambda
      simp only [List.mem_cons, List.not_mem_nil, or_false] at ih
      rcases ih with rfl | rfl | rfl <;> exact nomatch hnode

theorem wellScoped_nested :
    WellScoped ((flatten .empty nested).2.isGlobal · = true) nested := by
  have hscopes : ∀ sc ∈ [.ofProgram nested, outerScope, innerScope], ∀ x ∈ mentioned sc.nodes,
      x ∈ sc.names ∨ x ∈ sc.outer ∨ (flatten .empty nested).2.isGlobal x = true := by
    decide +kernel
  exact fun sc hsc => hscopes sc (mem_scopes_nested hsc)

theorem flatten_nested :
    flatten .empty nested = (.ok (blocksOf .empty nested), (flatten .empty nested).2) :=
  flatten_eq_blocksOf (by decide +kernel)

theorem flatten_binds_nested :
    flatten .empty nested = (.ok (blocksOf .empty nested), (flatten .empty nested).2) ∧
      WellScoped ((flatten .empty nested).2.isGlobal · = true) nested ∧
      ∃ m, IsBody (blocksOf .empty nested) innerScope m ∧ ∃ temporaries,
        Binds ((flatten .empty nested).2.isGlobal · = true) innerScope temporaries m :=
  ⟨flatten_nested, wellScoped_nested,
    (flatten_binds flatten_nested wellScoped_nested).1 innerScope scopeOf_innerScope⟩

/-- The function inside reads a parameter of the function around it that its class does not have
and its body does not bind. -/
theorem flatten_nested_unbound :
    WellScoped ((flatten .empty nested).2.isGlobal · = true) nested ∧
      flatten .empty nested = (.ok (blocksOf .empty nested), (flatten .empty nested).2) ∧
      "x" ∈ innerScope.outer ∧ (flatten .empty nested).2.isGlobal "x" = false ∧
      ∃ cls ∈ (blocksOf .empty nested).classes, cls.name = closureClassName "inner" ["outer"] ∧
        cls.fields.length = 0 ∧ ∃ m ∈ cls.methods, "x" ∈ m.mentions ∧ "x" ∉ m.bound :=
  ⟨wellScoped_nested, flatten_nested, by decide +kernel⟩

end Midend.Linear
