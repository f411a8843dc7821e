import Midend.Proofs.Linear.Evaluation
/-!
# Loops over an iterable

The iterable of a loop is evaluated once, in front of the loop, and the calls of `reset`, `hasNext`
and `next` work on the value.  Where this value is a variable of the program, the loop has to leave
the variable alone (`flatten_iterates`).
-/

namespace Midend.Tree

/-- The iterable of a loop, and what is done again for each of its elements. -/
def Node.loop? : Node → Option (Expr × List Node)
  | .expr (.listComp n item elem iterable cond) =>
    some (iterable, .expr (.listComp n item elem iterable cond) ::
      (Expr.nodesIf cond ++ item.nodes))
  | .stmt (.forLoop loc elem iterable body) =>
    some (iterable, .stmt (.forLoop loc elem iterable body) :: Stmt.nodesOf body)
  | _ => none

end Midend.Tree

namespace Midend.Linear

open Midend.Flow (Label Stmt Value)
open NameSupply (IsGenerated)
open Midend.Tree (written someCalls)
open Build Code

/-! ## The code of a loop -/

def turns (v : Value) (className more elem : String) (loc : Location)
    (test bodyLabel after : Label) (turn : Code) : Code :=
  round test bodyLabel after
    (Code.guardObject v loc :: temporary more .bool (callOn v className "hasNext")) (.id more)
    (Code.guardObject v loc :: .emit (.assign elem (callOn v className "next")) :: turn)

@[simp] theorem declared_turns (v : Value) (className more elem : String) (loc : Location)
    (test bodyLabel after : Label) (turn : Code) :
    declared (turns v className more elem loc test bodyLabel after turn) =
      more :: turn.declared := by
  simp [turns]

theorem resolves_turns {v : Value} {className more elem : String} {loc : Location}
    {test bodyLabel after : Label} {turn : Code} (h : Resolves [test, after] turn) :
    Resolves [] (turns v className more elem loc test bodyLabel after turn) :=
  resolves_iterate loc h

inductive LoopCode (v : Value) : Tree.Node → Code → Prop
  | comprehension (n : Tree.Note) (item iterable : Tree.Expr) (elem : String)
      (cond : Option Tree.Expr) {className : String} (hclass : iterable.ty = .object className)
      (more : String) (test bodyLabel after : Label) (turn : Code) :
      LoopCode v (.expr (.listComp n item elem iterable cond))
        (turns v className more elem n.loc test bodyLabel after turn)
  | statement (loc : Location) (iterable : Tree.Expr) (elem : String) (sources : List Tree.Stmt)
      {className : String} (hclass : iterable.ty = .object className) (more : String)
      (test bodyLabel after : Label) (turn : Code) :
      LoopCode v (.stmt (.forLoop loc elem iterable sources))
        (Code.guardObject v iterable.loc :: .emit (.expr (callOn v className "reset")) ::
          turns v className more elem iterable.loc test bodyLabel after turn)

/-- In every run the methods of the iterable are called in a loop on the value that the iterable had
when the run came to the loop. -/
def Iterates (ctx : Context) (label : Label) (front loop back : Code) (v : Value) : Prop :=
  ∀ (V : Type) (machine : Flow.Machine V), machine.ChecksPassively →
    ∀ σ n inner s todo className method, loop = inner ++ .emit s :: todo →
      s.operation? = some (callOn v className method) →
      let code := front ++ (loop ++ back)
      let run := machine.after ctx (code.blocks label) σ
      Before label code (.emit s :: todo ++ back) (run n).place →
        ∃ k, Through machine ctx label code loop back σ k n ∧
          machine.request? (run n).store (callOn v className method) =
            some (.call (methodName className method) [machine.value (run k).store v])

/-! ## Code that spares a variable -/

section Spares

variable {ctx : Context} {x : String} {code rest : Code} {stmt : Stmt} {v : Value}

def SparesAll (ctx : Context) (x : String) (code : Code) : Prop :=
  ∀ s, .emit s ∈ code → s.Spares ctx x

namespace SparesAll

theorem nil : SparesAll ctx x [] := fun _ h => absurd h List.not_mem_nil

theorem append (h : SparesAll ctx x code) (h' : SparesAll ctx x rest) :
    SparesAll ctx x (code ++ rest) := fun s hs => (List.mem_append.1 hs).elim (h s) (h' s)

theorem emit (hs : stmt.Spares ctx x) (h : SparesAll ctx x code) :
    SparesAll ctx x (.emit stmt :: code) := by
  intro s hs'
  rcases List.mem_cons.1 hs' with heq | hs'
  · obtain rfl := Item.emit.inj heq
    exact hs
  · exact h s hs'

theorem mark (label : Label) (h : SparesAll ctx x code) : SparesAll ctx x (.mark label :: code) :=
  fun s hs => h s ((List.mem_cons.1 hs).resolve_left nofun)

theorem declare (name : String) (ty : Ty) (h : SparesAll ctx x code) :
    SparesAll ctx x (.declare name ty :: code) :=
  fun s hs => h s ((List.mem_cons.1 hs).resolve_left nofun)

theorem guard (v : Value) (loc : Location) (h : SparesAll ctx x code) :
    SparesAll ctx x (Code.guardObject v loc :: code) :=
  h.emit (Flow.Stmt.spares_of_isCheck rfl)

theorem assign {name : String} (r : Flow.Expr) (hname : x ≠ name) (hlocal : ctx.isLocal x = true)
    (h : SparesAll ctx x code) : SparesAll ctx x (.emit (.assign name r) :: code) :=
  h.emit ⟨fun hx => hname (List.mem_singleton.1 hx), fun _ => .inr hlocal⟩

theorem effect (hwrites : stmt.writes = []) (hlocal : ctx.isLocal x = true)
    (h : SparesAll ctx x code) : SparesAll ctx x (.emit stmt :: code) :=
  h.emit ⟨hwrites ▸ List.not_mem_nil, fun _ => .inr hlocal⟩

theorem turns {className more elem : String} {loc : Location} {test bodyLabel after : Label}
    (hmore : x ≠ more) (helem : x ≠ elem) (hlocal : ctx.isLocal x = true)
    (hturn : SparesAll ctx x code) :
    SparesAll ctx x (Linear.turns v className more elem loc test bodyLabel after code) := by
  have hcheck : SparesAll ctx x (Code.guardObject v loc ::
      temporary more .bool (callOn v className "hasNext")) :=
    .guard v loc (.declare _ _ (.assign _ hmore hlocal .nil))
  have hbody : SparesAll ctx x (Code.guardObject v loc ::
      .emit (.assign elem (callOn v className "next")) :: code) :=
    .guard v loc (.assign _ helem hlocal hturn)
  exact .effect rfl hlocal (.mark _ (hcheck.append (.effect rfl hlocal (.mark _
    (hbody.append (.effect rfl hlocal (.mark _ .nil)))))))

end SparesAll

theorem Flattens.spares {part : Part} {s s' : State} {k : List Flow.Class} {r : Result}
    (h : Flattens part s code k r s') (hwritten : x ∉ written part.nodes)
    (hdeclared : x ∉ code.declared) (hlocal : ctx.isLocal x = true) : SparesAll ctx x code :=
  fun stmt hstmt =>
    ((h.contained _ _ (.refl _) (fun _ h => h)).carries.fits stmt hstmt).spares hwritten hdeclared
      fun _ => hlocal

end Spares

/-! ## Loops in a body -/

theorem IsBody.isLocal {flow : Flow.Program} {sc : Scope} {m : Flow.Method} {catalog : Catalog}
    {x : String} (h : IsBody flow sc m) (hkind : sc.kind ≠ .topLevel) (hx : x ∈ sc.names) :
    (sc.kind.context catalog flow m).isLocal x = true := by
  obtain ⟨-, s, s', himplements⟩ := h
  obtain ⟨-, -, -, -, -, hdecls, hparams⟩ := himplements
  exact isLocal_of_mem_names hkind hdecls hparams hx

section Loops

variable {node : Tree.Node} {iterable : Tree.Expr} {again : List Tree.Node} {s s' : State}
  {c : Code} {k : List Flow.Class} {r : Result} {ctx : Context} {sc : Scope} {m : Flow.Method}
  {flow : Flow.Program}

/-- The iterable of a loop is evaluated in front of the loop.  What is done again leaves a variable
alone that it does not assign. -/
theorem Flattens.loop {part : Part} (h : Flattens part s c k r s') (hpart : part.IsOf node)
    (hloop : node.loop? = some (iterable, again)) :
    ∃ own v loop t k' t', c = own ++ loop ∧ Flattens (.value iterable) t own k' (.values [v]) t' ∧
      LoopCode v node loop ∧ Resolves [] loop ∧ someCalls again = true ∧
      ∀ ctx x, x ∉ written again → x ∉ loop.declared → ctx.isLocal x = true →
        SparesAll ctx x loop := by
  cases hpart with
  | expr e =>
      cases h with
      | @listComp n elem item iterable cond className more test body after _ _ _ _ _ _ _ _ c₁ c₂ c₃
          _ _ _ v i htest hbody hafter hiterable hclass hmore hfilter hitem =>
          obtain ⟨rfl, rfl⟩ := Prod.mk.inj (Option.some.inj hloop)
          have hprint : Resolves [test, after] [.emit (.expr (.builtin1 "print" i))] :=
            resolves_inner rfl
          have hturn : Resolves [test, after]
              (c₂ ++ (c₃ ++ [.emit (.expr (.builtin1 "print" i))])) :=
            (hfilter.resolves.mono (by simp [Part.outer])).append
              ((hitem.resolves.mono (List.nil_subset _)).append hprint)
          refine ⟨c₁, v, turns v className more elem n.loc test body after _, _, _, _, rfl,
            hiterable, .comprehension n item iterable elem cond hclass more test body after _,
            resolves_turns hturn, rfl, fun ctx x hwritten hdeclared hlocal => ?_⟩
          simp only [written, List.flatMap_cons, List.flatMap_append, List.mem_append, not_or,
            declared_turns, declared_append, declared_emit, declared_nil, List.append_nil,
            List.mem_cons] at hwritten hdeclared
          obtain ⟨helem, hcond, hitems⟩ := hwritten
          obtain ⟨hmore, hcond', hitems'⟩ := hdeclared
          have hprint : SparesAll ctx x [.emit (.expr (.builtin1 "print" i))] :=
            .effect rfl hlocal .nil
          exact .turns hmore (fun heq => helem (heq ▸ List.mem_cons_self)) hlocal
            ((hfilter.spares hcond hcond' hlocal).append
              ((hitem.spares hitems hitems' hlocal).append hprint))
      | _ => exact absurd hloop.symm (Option.some_ne_none _)
  | stmt loop source =>
      cases h with
      | @forLoop _ loc elem iterable sources className more test body after _ _ _ _ _ _ _ c₁ c₂ _ _
          v htest hbody hafter hiterable hclass hmore hsources =>
          obtain ⟨rfl, rfl⟩ := Prod.mk.inj (Option.some.inj hloop)
          have hreset : Resolves [] [Code.guardObject v iterable.loc,
              .emit (.expr (callOn v className "reset"))] := resolves_inner rfl
          refine ⟨c₁, v, _ :: _ :: turns v className more elem iterable.loc test body after c₂, _,
            _, _, rfl, hiterable,
            .statement loc iterable elem sources hclass more test body after c₂,
            hreset.append (resolves_turns hsources.resolves), rfl,
            fun ctx x hwritten hdeclared hlocal => ?_⟩
          simp only [written, List.flatMap_cons, List.mem_append, not_or, declared_turns,
            declared_guardObject, declared_emit, List.mem_cons] at hwritten hdeclared
          obtain ⟨helem, hbodies⟩ := hwritten
          obtain ⟨hmore, hbodies'⟩ := hdeclared
          exact .guard v _ (.effect rfl hlocal
            (.turns hmore (fun heq => helem (heq ▸ List.mem_cons_self)) hlocal
              (hsources.spares hbodies hbodies' hlocal)))
      | _ => exact absurd hloop.symm (Option.some_ne_none _)

/-- A loop is entered at its start only, and a variable that it spares keeps its value. -/
theorem iterates {label : Label} {front loop back : Code} {v : Value}
    (hnodup : (label :: marks (front ++ (loop ++ back))).Nodup) (hloop : Resolves [] loop)
    (houtside : Resolves [] (front ++ back)) (hspares : ∀ x, v = .id x → SparesAll ctx x loop) :
    Iterates ctx label front loop back v := by
  intro V machine hmachine σ n inner stmt todo className method hsplit huse code run hb
  obtain ⟨k, hthrough, hvalue⟩ :=
    value_unchanged hnodup hloop houtside hspares hmachine hsplit hb
  refine ⟨k, hthrough, ?_⟩
  rw [← hvalue]
  rfl

theorem Implements.iterates {catalog : Catalog} (h : Implements sc s flow.classes s' m)
    (hholds : Holds flow sc.kind m) (hlabels : flow.checkLabels = .ok ()) (hnode : node ∈ sc.nodes)
    (hloop : node.loop? = some (iterable, again)) :
    ∃ label front own v loop back,
      m.body = Code.blocks label (front ++ (own ++ (loop ++ back))) ∧ Evaluates iterable own v ∧
      LoopCode v node loop ∧
      (Steady (sc.kind.context catalog flow m) iterable again →
        (sc.kind = .topLevel → ∀ x, catalog.isGlobal x = true → ¬ IsGenerated x) →
        Iterates (sc.kind.context catalog flow m) label (front ++ own) loop back v) := by
  obtain @⟨label, s₁, s₁', code, k, hcode, -, -, -, hbody, hdecls, hparams⟩ := h
  obtain @⟨part, t₁, t₁', c, front, behind, k₁, r, hpart, hflattens, hwithin, hused, -, -, -,
    hresolves, -⟩ := hcode.within hnode
  obtain ⟨own, v, loop, t, k', t', rfl, hown, hshape, hinside, hcalls, hspares⟩ :=
    hflattens.loop hpart hloop
  refine ⟨label, front, own, v, loop, behind, ?_, ⟨_, _, _, hown⟩, hshape,
    fun hsteady hplain => ?_⟩
  · rw [hbody, hwithin, List.append_assoc]
  · have hregion : code = (front ++ own) ++ (loop ++ behind) := by simp [hwithin]
    have hnodup := hholds.nodup hlabels hbody
    have hdeclared : (declared (own ++ loop)).Sublist code.declared := by
      rw [hwithin]
      exact declared_sublist _ _ _
    have hgenerated : ∀ x ∈ declared (own ++ loop), IsGenerated x := fun x hx =>
      hcode.carries.generated x (hdeclared.subset hx)
    have hlocal : ∀ x ∈ own.declared, (sc.kind.context catalog flow m).isLocal x = true := by
      intro x hx
      have hmem : x ∈ declared (own ++ loop) := by simp [hx]
      refine isLocal_of_mem_declared hholds hdecls (hdeclared.subset hmem) fun hkind => ?_
      by_contra hnot
      exact hplain hkind x (by simpa using hnot) (hgenerated x hmem)
    have houtside : Resolves [] ((front ++ own) ++ behind) := by
      rw [List.append_assoc]
      exact hresolves.insert hown.resolves
    rw [hregion] at hnodup
    refine Linear.iterates hnodup hinside houtside fun x hx => ?_
    obtain ⟨hwritten, hunused, hbound⟩ := hsteady.untouched hown hgenerated
      (hcode.nodup_declared.sublist hdeclared) hlocal hx
    exact hspares _ x hwritten hunused (hbound hcalls)

/-- A loop evaluates its iterable in front of its code.  In every run its calls of `reset`,
`hasNext` and `next` work on the value that the iterable had when the run came to the loop, if the
iterable is kept in a temporary, or names a variable of the function that the loop does not
assign. -/
theorem flatten_iterates {catalog catalog' : Catalog} {p : Tree.Program}
    (hflow : flatten catalog p = (.ok flow, catalog')) (hsc : ScopeOf p sc)
    (hnode : node ∈ sc.nodes) (hloop : node.loop? = some (iterable, again)) :
    ∃ m, IsBody flow sc m ∧ ∃ label front own v loop back,
      m.body = Code.blocks label (front ++ (own ++ (loop ++ back))) ∧ Evaluates iterable own v ∧
      LoopCode v node loop ∧
      (Steady (sc.kind.context catalog' flow m) iterable again →
        (sc.kind = .topLevel → ∀ x, catalog'.isGlobal x = true → ¬ IsGenerated x) →
        Iterates (sc.kind.context catalog' flow m) label (front ++ own) loop back v) := by
  obtain ⟨hlabels, -⟩ := flatten_eq_ok hflow
  obtain ⟨_, _, s, s', -, -, hlowers, -⟩ := flatten_lowers hflow
  obtain ⟨m, hholds, himplements⟩ := hlowers.methods sc hsc
  exact ⟨m, ⟨hholds, s, s', himplements⟩,
    himplements.iterates hholds hlabels hnode hloop⟩

end Loops

/-! ## A loop that assigns the variable of its iterable -/

def rangeType : Ty := .object "Range"

/-- The loop `for i in r: name = q`. -/
def loopOver (name : String) : Tree.Stmt :=
  .forLoop ⟨1, 1, 0⟩ "i" (.id ⟨rangeType, ⟨1, 1, 0⟩⟩ "r")
    [.assign ⟨1, 1, 0⟩ name (.id ⟨rangeType, ⟨1, 1, 0⟩⟩ "q")]

def loopingFunction (name : String) : Tree.Function :=
  ⟨"f", [⟨"r", rangeType⟩, ⟨"q", rangeType⟩], .none, [⟨"i", .int, .num 0⟩], [loopOver name], [],
    ⟨1, 1, 0⟩⟩

def looping (name : String) : Tree.Program := ⟨[loopingFunction name], [], [], []⟩

def loopingScope (name : String) : Scope := .ofFunction [] [] (loopingFunction name)

theorem scopeOf_loopingScope (name : String) : ScopeOf (looping name) (loopingScope name) :=
  .function List.mem_cons_self (.self _ _ _)

theorem mem_nodes_loopingScope (name : String) :
    .stmt (loopOver name) ∈ (loopingScope name).nodes := by
  simp [Scope.nodes, Scope.sources, loopingScope, Scope.ofFunction, loopingFunction,
    Tree.Stmt.nodesOf, Tree.Stmt.nodes, loopOver]

/-- A loop that assigns `q` calls the methods of `r` on one and the same value. -/
theorem flatten_iterates_range :
    ∃ m, IsBody (blocksOf .empty (looping "q")) (loopingScope "q") m ∧
      ∃ label front own v loop back,
        m.body = Code.blocks label (front ++ (own ++ (loop ++ back))) ∧
        Evaluates (.id ⟨rangeType, ⟨1, 1, 0⟩⟩ "r") own v ∧
        LoopCode v (.stmt (loopOver "q")) loop ∧
        Iterates (Optimization.methodContext m) label (front ++ own) loop back v := by
  have hok : (flatten .empty (looping "q")).1.toOption.isSome = true := by decide +kernel
  obtain ⟨m, hm, label, front, own, v, loop, back, hbody, hown, hshape, hiterates⟩ :=
    flatten_iterates (flatten_eq_blocksOf hok) (scopeOf_loopingScope "q")
      (mem_nodes_loopingScope "q") rfl
  refine ⟨m, hm, label, front, own, v, loop, back, hbody, hown, hshape, hiterates ?_ nofun⟩
  have hnamed : ∀ x, (Tree.Expr.id ⟨rangeType, ⟨1, 1, 0⟩⟩ "r").named? = some x → x = "r" :=
    fun x hx => (Option.some.inj hx).symm
  constructor
  · intro x hx
    rw [hnamed x hx]
    decide +kernel
  · intro x hx _
    rw [hnamed x hx]
    exact hm.isLocal nofun (by decide +kernel)
  · intro x hx
    rw [hnamed x hx]
    exact not_isGenerated_of_length (by decide)
  · have hall : ∀ x ∈ ["i", "q"], x.length < 6 := by decide
    exact fun x hx => not_isGenerated_of_length (hall x hx)

def loopingStart : Flow.Store Value := fun name =>
  if name = "r" then .num 1 else if name = "q" then .num 2 else if name = "i" then .num 0 else .none

/-- A loop that assigns `r` is entered with the value 1 in `r`, and `reset` gets this value.  When
`hasNext` is called for the second time it gets the value 2. -/
theorem flatten_iterates_switched :
    (flatten .empty (looping "r")).1.toOption.isSome = true ∧
      ScopeOf (looping "r") (loopingScope "r") ∧
      .stmt (loopOver "r") ∈ (loopingScope "r").nodes ∧ oneElement.ChecksPassively ∧
      ∃ cls ∈ (blocksOf .empty (looping "r")).classes, ∃ m ∈ cls.methods,
        let run := oneElement.after (Optimization.methodContext m) m.body loopingStart
        (∀ v ∈ m.decls, loopingStart v.name = v.value) ∧
        Flow.Machine.next? m.body (run 5) = some (.expr (callOn (.id "r") "Range" "reset")) ∧
        (run 4).store "r" = .num 1 ∧ (run 5).store "r" = .num 1 ∧
        Flow.Machine.next? m.body (run 15) =
          some (.assign "valname1" (callOn (.id "r") "Range" "hasNext")) ∧
        (run 15).store "r" = .num 2 := by
  refine ⟨by decide +kernel, scopeOf_loopingScope "r", mem_nodes_loopingScope "r",
    fun _ _ _ _ _ => rfl, ?_⟩
  decide +kernel

end Midend.Linear
