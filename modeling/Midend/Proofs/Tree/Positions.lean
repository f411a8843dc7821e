import Mathlib.Data.List.Nodup
import Midend.Name.Derived
import Midend.Tree.Basic
/-!
# Where the functions of a program stand

Every function of a program, at any depth, with the names of what encloses it: the functions around
it, and in a method the class and the method before these (`Program.positions`).  Where functions
side by side have distinct names, no two positions have the same names on the way to them
(`Program.nodup_routes`).
-/

namespace Midend.Tree

/-- A function with the names of what encloses it, outermost first. -/
structure Position where
  enclosing : List String
  function : Function

namespace Position

def route (x : Position) : List String := x.enclosing ++ [x.function.name]

def path (x : Position) : String := dottedPath x.function.name x.enclosing

def className (x : Position) : String := closureClassName x.function.name x.enclosing

/-- The position and those of the functions directly nested in its function. -/
def bound (x : Position) : List Position :=
  x :: x.function.children.map fun child => ⟨x.route, child⟩

end Position

mutual
def Function.positions (enclosing : List String) : Function → List Position
  | ⟨name, params, ret, decls, body, children, loc⟩ =>
    ⟨enclosing, ⟨name, params, ret, decls, body, children, loc⟩⟩ ::
      positionsAll (enclosing ++ [name]) children

def Function.positionsAll (enclosing : List String) : List Function → List Position
  | [] => []
  | f :: fs => f.positions enclosing ++ positionsAll enclosing fs
end

def Class.positions (c : Class) : List Position :=
  c.methods.flatMap fun m => Function.positionsAll [c.name, m.name] m.children

def Program.positions (p : Program) : List Position :=
  Function.positionsAll [] p.functions ++ p.classes.flatMap Class.positions

mutual
def Function.names : Function → List String
  | ⟨name, _, _, _, _, children, _⟩ => name :: namesAll children

def Function.namesAll : List Function → List String
  | [] => []
  | f :: fs => f.names ++ namesAll fs
end

/-- The names of all functions, classes and methods of a program. -/
def Program.names (p : Program) : List String :=
  Function.namesAll p.functions ++ p.classes.flatMap fun c => c.name :: Function.namesAll c.methods

variable {p : Program} {c : Class} {f : Function} {fs : List Function} {x : Position}
  {enclosing route : List String} {name : String}

namespace Function

theorem names_eq (f : Function) : f.names = f.name :: namesAll f.children := by
  cases f
  rfl

theorem positionsAll_eq (enclosing : List String) (fs : List Function) :
    positionsAll enclosing fs = fs.flatMap (positions enclosing) := by
  induction fs with
  | nil => rfl
  | cons f fs ih => rw [positionsAll, ih, List.flatMap_cons]

theorem mem_namesAll : name ∈ namesAll fs ↔ ∃ f ∈ fs, name ∈ f.names := by
  induction fs with
  | nil => simp [namesAll]
  | cons f fs ih => simp [namesAll, ih]

/-! ## Functions nested in functions -/

theorem mem_positions_self (enclosing : List String) (f : Function) :
    ⟨enclosing, f⟩ ∈ f.positions enclosing := by
  cases f
  exact List.mem_cons_self

mutual
theorem bound_of_mem (enclosing : List String) (f : Function) :
    ∀ x ∈ f.positions enclosing, ∀ y ∈ x.bound, y ∈ f.positions enclosing := by
  match f with
  | ⟨name, params, ret, decls, body, children, loc⟩ =>
      rw [positions]
      refine List.forall_mem_cons.2 ⟨List.forall_mem_cons.2 ⟨List.mem_cons_self, ?_⟩, ?_⟩
      · refine List.forall_mem_map.2 fun child hchild => List.mem_cons_of_mem _ ?_
        rw [positionsAll_eq]
        exact List.mem_flatMap.2 ⟨child, hchild, mem_positions_self _ child⟩
      · exact fun x hx y hy => List.mem_cons_of_mem _ (bound_of_mem_all _ children x hx y hy)

theorem bound_of_mem_all (enclosing : List String) (fs : List Function) :
    ∀ x ∈ positionsAll enclosing fs, ∀ y ∈ x.bound, y ∈ positionsAll enclosing fs := by
  match fs with
  | [] => exact fun x hx => absurd hx List.not_mem_nil
  | f :: fs =>
      rw [positionsAll]
      exact List.forall_mem_append.2
        ⟨fun x hx y hy => List.mem_append_left _ (bound_of_mem enclosing f x hx y hy),
          fun x hx y hy => List.mem_append_right _ (bound_of_mem_all enclosing fs x hx y hy)⟩
end

/-! ## The way to a function -/

mutual
/-- The way to a function nested in another one leads through this one and has names of this one
only. -/
theorem route_of_mem (enclosing : List String) (f : Function) : ∀ x ∈ f.positions enclosing,
    ∃ rest, x.route = enclosing ++ f.name :: rest ∧ ∀ name ∈ f.name :: rest, name ∈ f.names := by
  match f with
  | ⟨name, params, ret, decls, body, children, loc⟩ =>
      rw [positions]
      refine List.forall_mem_cons.2 ⟨⟨[], rfl, by simp [names]⟩, fun x hx => ?_⟩
      obtain ⟨child, hchild, rest, hroute, hnames⟩ :=
        route_of_mem_all (enclosing ++ [name]) children x hx
      refine ⟨child.name :: rest, by simpa using hroute, ?_⟩
      rw [names]
      exact List.forall_mem_cons.2 ⟨List.mem_cons_self, fun other hother =>
        List.mem_cons_of_mem _ (mem_namesAll.2 ⟨child, hchild, hnames other hother⟩)⟩

theorem route_of_mem_all (enclosing : List String) (fs : List Function) :
    ∀ x ∈ positionsAll enclosing fs, ∃ f ∈ fs, ∃ rest, x.route = enclosing ++ f.name :: rest ∧
      ∀ name ∈ f.name :: rest, name ∈ f.names := by
  match fs with
  | [] => exact fun x hx => absurd hx List.not_mem_nil
  | f :: fs =>
      rw [positionsAll]
      refine List.forall_mem_append.2 ⟨fun x hx => ?_, fun x hx => ?_⟩
      · exact ⟨f, List.mem_cons_self, route_of_mem enclosing f x hx⟩
      · obtain ⟨g, hg, hroute⟩ := route_of_mem_all enclosing fs x hx
        exact ⟨g, List.mem_cons_of_mem _ hg, hroute⟩
end

/-! ## Distinct functions -/

/-- Functions side by side with distinct names have distinct ways to what is nested in them. -/
theorem ne_route (hne : ∀ g ∈ fs, f.name ≠ g.name) :
    ∀ route ∈ (f.positions enclosing).map Position.route,
      ∀ route' ∈ (positionsAll enclosing fs).map Position.route, route ≠ route' := by
  refine List.forall_mem_map.2 fun x hx => List.forall_mem_map.2 fun y hy heq => ?_
  obtain ⟨rest, hroute, -⟩ := route_of_mem enclosing f x hx
  obtain ⟨g, hg, rest', hroute', -⟩ := route_of_mem_all enclosing fs y hy
  rw [hroute, hroute', List.append_cancel_left_eq, List.cons.injEq] at heq
  exact hne g hg heq.1

mutual
theorem nodup_routes (enclosing : List String) (f : Function)
    (h : ∀ x ∈ f.positions enclosing, (x.function.children.map (·.name)).Nodup) :
    ((f.positions enclosing).map Position.route).Nodup := by
  match f with
  | ⟨name, params, ret, decls, body, children, loc⟩ =>
      rw [positions] at h ⊢
      obtain ⟨hchildren, hnested⟩ := List.forall_mem_cons.1 h
      refine List.nodup_cons.2 ⟨fun hself => ?_, nodup_routesAll _ children hchildren hnested⟩
      -- a function nested in this one has a longer way
      obtain ⟨x, hx, heq⟩ := List.mem_map.1 hself
      obtain ⟨child, -, rest, hroute, -⟩ := route_of_mem_all (enclosing ++ [name]) children x hx
      have hlength := congrArg List.length (hroute.symm.trans heq)
      simp [Position.route] at hlength

theorem nodup_routesAll (enclosing : List String) (fs : List Function)
    (hfs : (fs.map (·.name)).Nodup)
    (h : ∀ x ∈ positionsAll enclosing fs, (x.function.children.map (·.name)).Nodup) :
    ((positionsAll enclosing fs).map Position.route).Nodup := by
  match fs with
  | [] => exact List.nodup_nil
  | f :: fs =>
      rw [positionsAll] at h ⊢
      obtain ⟨hf, hrest⟩ := List.forall_mem_append.1 h
      obtain ⟨hfirst, hfs⟩ := List.nodup_cons.1 hfs
      rw [List.map_append, List.nodup_append]
      refine ⟨nodup_routes enclosing f hf, nodup_routesAll enclosing fs hfs hrest,
        ne_route fun g hg heq => hfirst ?_⟩
      exact List.mem_map.2 ⟨g, hg, heq.symm⟩
end

end Function

/-- Functions side by side have distinct names, and so have classes and the methods of a class.
No function of the top level is named like a class. -/
structure Program.Distinct (p : Program) : Prop where
  functions : (p.functions.map (·.name)).Nodup
  classes : (p.classes.map (·.name)).Nodup
  methods : ∀ c ∈ p.classes, (c.methods.map (·.name)).Nodup
  inMethods : ∀ c ∈ p.classes, ∀ m ∈ c.methods, (m.children.map (·.name)).Nodup
  inFunctions : ∀ x ∈ p.positions, (x.function.children.map (·.name)).Nodup
  apart : ∀ f ∈ p.functions, ∀ c ∈ p.classes, f.name ≠ c.name

/-! ## Programs -/

namespace Class

theorem route_of_mem (hx : x ∈ c.positions) : ∃ m ∈ c.methods, ∃ f ∈ m.children, ∃ rest,
    x.route = c.name :: m.name :: f.name :: rest ∧ ∀ name ∈ f.name :: rest, name ∈ f.names := by
  obtain ⟨m, hm, hx⟩ := List.mem_flatMap.1 hx
  obtain ⟨f, hf, rest, hroute, hnames⟩ := Function.route_of_mem_all _ _ x hx
  exact ⟨m, hm, f, hf, rest, hroute, hnames⟩

theorem nodup_routes (hmethods : (c.methods.map (·.name)).Nodup)
    (hchildren : ∀ m ∈ c.methods, (m.children.map (·.name)).Nodup)
    (hnested : ∀ x ∈ c.positions, (x.function.children.map (·.name)).Nodup) :
    (c.positions.map Position.route).Nodup := by
  unfold positions at hnested ⊢
  rw [List.map_flatMap, List.nodup_flatMap]
  refine ⟨fun m hm => Function.nodup_routesAll _ _ (hchildren m hm) fun x hx =>
    hnested x (List.mem_flatMap.2 ⟨m, hm, hx⟩), ?_⟩
  refine (List.pairwise_map.1 hmethods).imp fun {m m'} hne route hroute hroute' => hne ?_
  obtain ⟨x, hx, rfl⟩ := List.mem_map.1 hroute
  obtain ⟨y, hy, heq⟩ := List.mem_map.1 hroute'
  obtain ⟨f, -, rest, hx, -⟩ := Function.route_of_mem_all _ _ x hx
  obtain ⟨g, -, rest', hy, -⟩ := Function.route_of_mem_all _ _ y hy
  simp [hx, hy] at heq
  exact heq.1.symm

end Class

namespace Program

theorem bound_subset (hx : x ∈ p.positions) : x.bound ⊆ p.positions := by
  intro y hy
  rcases List.mem_append.1 hx with hx | hx
  · exact List.mem_append_left _ (Function.bound_of_mem_all _ _ x hx y hy)
  · obtain ⟨c, hc, hx⟩ := List.mem_flatMap.1 hx
    obtain ⟨m, hm, hx⟩ := List.mem_flatMap.1 hx
    exact List.mem_append_right _ (List.mem_flatMap.2
      ⟨c, hc, List.mem_flatMap.2 ⟨m, hm, Function.bound_of_mem_all _ _ x hx y hy⟩⟩)

theorem names_of_route (hx : x ∈ p.positions) : ∀ name ∈ x.route, name ∈ p.names := by
  rcases List.mem_append.1 hx with hx | hx
  · obtain ⟨f, hf, rest, hroute, hnames⟩ := Function.route_of_mem_all _ _ x hx
    rw [hroute]
    exact fun name hname => List.mem_append_left _
      (Function.mem_namesAll.2 ⟨f, hf, hnames name hname⟩)
  · obtain ⟨c, hc, hx⟩ := List.mem_flatMap.1 hx
    obtain ⟨m, hm, f, hf, rest, hroute, hnames⟩ := Class.route_of_mem hx
    have hclass : ∀ name ∈ c.name :: Function.namesAll c.methods, name ∈ p.names :=
      fun name hname => List.mem_append_right _ (List.mem_flatMap.2 ⟨c, hc, hname⟩)
    have hmethod : ∀ name ∈ m.names, name ∈ p.names := fun name hname =>
      hclass name (List.mem_cons_of_mem _ (Function.mem_namesAll.2 ⟨m, hm, hname⟩))
    rw [Function.names_eq] at hmethod
    rw [hroute]
    refine List.forall_mem_cons.2 ⟨hclass _ List.mem_cons_self,
      List.forall_mem_cons.2 ⟨hmethod _ List.mem_cons_self, fun name hname => ?_⟩⟩
    exact hmethod name (List.mem_cons_of_mem _
      (Function.mem_namesAll.2 ⟨f, hf, hnames name hname⟩))

/-- No two functions of a program have the same way from the top. -/
theorem Distinct.nodup_routes (h : p.Distinct) : (p.positions.map Position.route).Nodup := by
  have hnested := List.forall_mem_append.1 h.inFunctions
  unfold positions
  rw [List.map_append, List.nodup_append]
  refine ⟨Function.nodup_routesAll _ _ h.functions hnested.1, ?_, ?_⟩
  · rw [List.map_flatMap, List.nodup_flatMap]
    refine ⟨fun c hc => Class.nodup_routes (h.methods c hc) (h.inMethods c hc) fun x hx =>
      hnested.2 x (List.mem_flatMap.2 ⟨c, hc, hx⟩), ?_⟩
    refine (List.pairwise_map.1 h.classes).imp fun {c c'} hne route hroute hroute' => hne ?_
    obtain ⟨x, hx, rfl⟩ := List.mem_map.1 hroute
    obtain ⟨y, hy, heq⟩ := List.mem_map.1 hroute'
    obtain ⟨m, -, f, -, rest, hx, -⟩ := Class.route_of_mem hx
    obtain ⟨m', -, f', -, rest', hy, -⟩ := Class.route_of_mem hy
    simp [hx, hy] at heq
    exact heq.1.symm
  · refine List.forall_mem_map.2 fun x hx => List.forall_mem_map.2 fun y hy heq => ?_
    obtain ⟨f, hf, rest, hx, -⟩ := Function.route_of_mem_all _ _ x hx
    obtain ⟨c, hc, hy⟩ := List.mem_flatMap.1 hy
    obtain ⟨m, -, g, -, rest', hy, -⟩ := Class.route_of_mem hy
    simp [hx, hy] at heq
    exact h.apart f hf c hc heq.1

end Program

end Midend.Tree
