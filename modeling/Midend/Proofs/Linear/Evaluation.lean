import Midend.Optimization
import Midend.Proofs.Linear.Bodies
import Midend.Proofs.Linear.Operands
import Midend.Proofs.Linear.Regions
/-!
# Evaluation of operands

The operands of an operation are evaluated from left to right, but a variable is read only when the
operation runs.  So an operand still has its value at the operation unless a later operand assigns
the variable that it names, or makes a call that may change it (`flatten_operands`).
-/

namespace Midend.Flow.Machine

variable {V : Type} {m : Machine V} {ctx : Context} {σ : Store V} {history : History V}

variable (m) in
def ChecksPassively : Prop :=
  ∀ name args σ history, (Stmt.expr (.call name args)).isCheck = true →
    (m.answer ((.call name (args.map (m.value σ)), σ) :: history)).writes = fun _ => none

theorem store_exec_of_isCheck (hm : m.ChecksPassively) {s : Stmt} (hs : s.isCheck = true) :
    (m.exec ctx s σ history).store = σ := by
  cases s with
  | expr e =>
      cases e with
      | call name args =>
          have hwrites := hm name args σ history hs
          have hcompute : (m.compute ctx (.call name args) σ history).2.1 = σ := by
            unfold compute request?
            dsimp only
            rw [hwrites]
            funext x
            simp [Store.overwrite, Expr.isCall]
          unfold exec
          dsimp only
          split <;> rename_i heq <;> rw [heq] at hcompute <;> exact hcompute
      | _ => exact nomatch hs
  | _ => exact nomatch hs

theorem store_exec_of_spares (hm : m.ChecksPassively) {s : Stmt} {x : String}
    (hs : s.Spares ctx x) : (m.exec ctx s σ history).store x = σ x := by
  by_cases hcheck : s.isCheck = true
  · rw [store_exec_of_isCheck hm hcheck]
  · exact store_exec (fun e heq => hs.writes (heq ▸ List.mem_cons_self)) fun hcall =>
      (hs.calls hcall).resolve_left hcheck

def next? (body : List Block) (c : Config V) : Option Stmt :=
  match c.place with
  | .inside label index => (body.find? fun b => b.label = label).bind fun b => b.stmts[index]?
  | _ => none

end Midend.Flow.Machine

namespace Midend.Linear

open Midend.Flow (Label Value)
open NameSupply (IsGenerated)
open Midend.Tree (written someCalls)
open Code

/-! ## Values on the way through a piece of code -/

/-- A value does not change on the way through a piece of the code of a body: a run that comes to
the code behind has come through the piece from its start, and the value is still what it was
there. -/
def Preserved (ctx : Context) (label : Label) (front region back : Code) (v : Value) : Prop :=
  ∀ (V : Type) (machine : Flow.Machine V), machine.ChecksPassively → ∀ σ n,
    let code := front ++ (region ++ back)
    let run := machine.after ctx (code.blocks label) σ
    Before label code back (run n).place →
      ∃ k, Through machine ctx label code region back σ k n ∧
        machine.value (run n).store v = machine.value (run k).store v

/-- In a piece of code whose statements spare the variable of a value, or right behind it, the value
is what it was when the run came to the piece. -/
theorem value_unchanged {ctx : Context} {label : Label} {front region back inner todo : Code}
    {v : Value} (hnodup : (label :: marks (front ++ (region ++ back))).Nodup)
    (hregion : Resolves [] region) (houtside : Resolves [] (front ++ back))
    (hspares : ∀ x, v = .id x → ∀ s, .emit s ∈ region → s.Spares ctx x) {V : Type}
    {machine : Flow.Machine V} (hmachine : machine.ChecksPassively) {σ : Flow.Store V} {n : Nat}
    (hsplit : region = inner ++ todo)
    (hb : Before label (front ++ (region ++ back)) (todo ++ back)
      (machine.after ctx (Code.blocks label (front ++ (region ++ back))) σ n).place) :
    ∃ k, Through machine ctx label (front ++ (region ++ back)) region back σ k n ∧
      machine.value
          (machine.after ctx (Code.blocks label (front ++ (region ++ back))) σ n).store v =
        machine.value
          (machine.after ctx (Code.blocks label (front ++ (region ++ back))) σ k).store v := by
  obtain ⟨k, hthrough⟩ := hb.through hnodup (houtside.insert hregion) rfl houtside hsplit
  refine ⟨k, hthrough, ?_⟩
  cases v with
  | id x =>
      exact hthrough.store_eq hnodup fun s hs _ _ =>
        Flow.Machine.store_exec_of_spares hmachine (hspares x rfl s hs)
  | _ => rfl

theorem preserved {ctx : Context} {label : Label} {front region back : Code} {v : Value}
    (hnodup : (label :: marks (front ++ (region ++ back))).Nodup)
    (hregion : Resolves [] region) (houtside : Resolves [] (front ++ back))
    (hspares : ∀ x, v = .id x → ∀ s, .emit s ∈ region → s.Spares ctx x) :
    Preserved ctx label front region back v := fun _ _ hmachine _ _ hb =>
  value_unchanged hnodup hregion houtside hspares hmachine (List.append_nil region).symm hb

/-! ## Local variables -/

def ScopeKind.context (catalog : Catalog) (flow : Flow.Program) (m : Flow.Method) :
    ScopeKind → Context
  | .topLevel => Optimization.topLevelContext catalog flow
  | .method | .closure => Optimization.methodContext m

theorem isLocal_topLevelContext {catalog : Catalog} {flow : Flow.Program} {x : String}
    (hx : x ∈ flow.decls.map (·.name)) (hglobal : catalog.isGlobal x = false) :
    (Optimization.topLevelContext catalog flow).isLocal x = true :=
  (NameSet.contains_ofList _ _).2 (List.mem_filter.2 ⟨hx, by simp [hglobal]⟩)

theorem isLocal_methodContext {m : Flow.Method} {x : String}
    (hx : x ∈ m.decls.map (·.name) ++ m.params.map (·.name)) :
    (Optimization.methodContext m).isLocal x = true :=
  (NameSet.contains_ofList _ _).2 hx

theorem declared_sublist (before mid behind : Code) :
    mid.declared.Sublist (declared (before ++ (mid ++ behind))) := by
  rw [declared_append, declared_append]
  exact (List.sublist_append_left _ _).trans (List.sublist_append_right _ _)

theorem isLocal_of_mem_names {sc : Scope} {catalog : Catalog} {flow : Flow.Program}
    {m : Flow.Method} {code : Code} {x : String} (hkind : sc.kind ≠ .topLevel)
    (hdecls : m.decls = code.temporaries ++ sc.decls.map decl) (hparams : sc.Takes m.params)
    (hx : x ∈ sc.names) : (sc.kind.context catalog flow m).isLocal x = true := by
  have hlocal : (Optimization.methodContext m).isLocal x = true := by
    refine isLocal_methodContext ?_
    rw [decls_names hdecls, List.mem_append, List.mem_append, hparams.mem_names]
    unfold Scope.names at hx
    rw [List.mem_append] at hx
    tauto
  cases hsc : sc.kind with
  | topLevel => exact absurd hsc hkind
  | method => exact hlocal
  | closure => exact hlocal

/-- Temporaries are local, at the top level unless a global variable has the same name. -/
theorem isLocal_of_mem_declared {sc : Scope} {catalog : Catalog} {flow : Flow.Program}
    {m : Flow.Method} {code : Code} {x : String} (hholds : Holds flow sc.kind m)
    (hdecls : m.decls = code.temporaries ++ sc.decls.map decl) (hx : x ∈ code.declared)
    (hglobal : sc.kind = .topLevel → catalog.isGlobal x = false) :
    (sc.kind.context catalog flow m).isLocal x = true := by
  have hmem : x ∈ m.decls.map (·.name) := by
    rw [decls_names hdecls]
    exact List.mem_append_left _ hx
  cases hsc : sc.kind with
  | topLevel =>
      rw [hsc] at hholds
      obtain rfl : m = flow.main := hholds
      exact isLocal_topLevelContext hmem (hglobal hsc)
  | method => exact isLocal_methodContext (List.mem_append_left _ hmem)
  | closure => exact isLocal_methodContext (List.mem_append_left _ hmem)

/-! ## Labels of a body -/

theorem Holds.mem_bodies {flow : Flow.Program} {kind : ScopeKind} {m : Flow.Method}
    (h : Holds flow kind m) : ∃ entry ∈ flow.bodies, entry.2 = m.body := by
  have hmethods : ∀ cls ∈ flow.classes, m ∈ cls.methods →
      ∃ entry ∈ flow.bodies, entry.2 = m.body := fun cls hcls hm =>
    ⟨(m.name, m.body), List.mem_cons_of_mem _ (List.mem_map_of_mem
      (List.mem_flatMap.2 ⟨cls, hcls, hm⟩)), rfl⟩
  cases kind with
  | topLevel =>
      obtain rfl : m = flow.main := h
      exact ⟨_, List.mem_cons_self, rfl⟩
  | method =>
      obtain ⟨cls, hcls, hm⟩ := h
      exact hmethods cls hcls hm
  | closure =>
      obtain ⟨cls, hcls, -, hm⟩ := h
      exact hmethods cls hcls hm

theorem Holds.nodup {flow : Flow.Program} {kind : ScopeKind} {m : Flow.Method} {label : Label}
    {code : Code} (h : Holds flow kind m) (hlabels : flow.checkLabels = .ok ())
    (hbody : m.body = code.blocks label) : (label :: code.marks).Nodup := by
  obtain ⟨entry, hentry, heq⟩ := h.mem_bodies
  have hdistinct := ((Flow.forM_checkLabels_eq_ok_iff flow.bodies).1 hlabels entry hentry).distinct
  rwa [heq, hbody, labels_blocks] at hdistinct

/-! ## Operands that keep their value -/

/-- No later operand changes the value of an operand.  If the operand names a variable, none of
them assigns the variable, and if one makes a call the variable is bound by the function around.
No variable at hand has a made-up name. -/
structure Undisturbed (global : String → Prop) (sc : Scope) (e : Tree.Expr)
    (later : List Tree.Expr) : Prop where
  kept : ∀ x, e.named? = some x → x ∉ written (Tree.Expr.nodesOf later)
  bound : ∀ x, e.named? = some x → someCalls (Tree.Expr.nodesOf later) = true →
    sc.kind ≠ .topLevel ∧ x ∈ sc.names
  named : ∀ x, e.named? = some x → ¬ IsGenerated x
  apart : ∀ x ∈ written (Tree.Expr.nodesOf later), ¬ IsGenerated x
  globals : sc.kind = .topLevel → ∀ x, global x → ¬ IsGenerated x

def Evaluates (e : Tree.Expr) (code : Code) (v : Value) : Prop :=
  ∃ s k s', Flattens (.value e) s code k (.values [v]) s'

/-- The operands of a node are evaluated in a piece of the code of a body, one after another, and
`use` performs the operation of the node on their values.  An operand that the later ones leave
undisturbed has at `use` the value that it had when it was evaluated. -/
structure EvaluatesInOrder (global : String → Prop) (sc : Scope) (ctx : Context) (label : Label)
    (node : Tree.Node) (front operands back : Code) (use : Flow.Stmt) (vs : List Value) :
    Prop where
  ordered : ∃ s s', Operands node.operands s operands vs s'
  performs : Performs use node vs
  keeps : ∀ earlier e later, node.operands = earlier ++ e :: later → ∃ before own after v,
    operands = before ++ (own ++ after) ∧ Evaluates e own v ∧ vs[earlier.length]? = some v ∧
      (Undisturbed global sc e later →
        Preserved ctx label (front ++ (before ++ own)) after (.emit use :: back) v)

theorem Undisturbed.spares {global : String → Prop} {sc : Scope} {e : Tree.Expr}
    {later : List Tree.Expr} (h : Undisturbed global sc e later) {s s₁ s' : State}
    {own after : Code} {k : List Flow.Class} {v : Value} {vs : List Value} {ctx : Context}
    (hown : Flattens (.value e) s own k (.values [v]) s₁)
    (hlater : Operands later s₁ after vs s')
    (hgenerated : ∀ x ∈ declared (own ++ after), IsGenerated x)
    (hnodup : (declared (own ++ after)).Nodup)
    (hnames : sc.kind ≠ .topLevel → ∀ x ∈ sc.names, ctx.isLocal x = true)
    (hlocal : ∀ x ∈ own.declared, ctx.isLocal x = true) {x : String} (hv : v = .id x) :
    ∀ s, .emit s ∈ after → s.Spares ctx x := by
  have hsteady : Steady ctx e (Tree.Expr.nodesOf later) := by
    refine ⟨h.kept, fun y hy hcalls => ?_, h.named, h.apart⟩
    obtain ⟨hkind, hname⟩ := h.bound y hy hcalls
    exact hnames hkind y hname
  obtain ⟨hwritten, hdeclared, hcalls⟩ := hsteady.untouched hown hgenerated hnodup hlocal hv
  exact hlater.spares hwritten hdeclared hcalls

theorem Implements.evaluates {sc : Scope} {m : Flow.Method} {flow : Flow.Program} {s s' : State}
    {catalog : Catalog} {node : Tree.Node} (h : Implements sc s flow.classes s' m)
    (hholds : Holds flow sc.kind m) (hlabels : flow.checkLabels = .ok ()) (hnode : node ∈ sc.nodes)
    (hoperands : node.operands ≠ []) :
    ∃ label front operands back use vs,
      m.body = Code.blocks label (front ++ (operands ++ .emit use :: back)) ∧
      EvaluatesInOrder (catalog.isGlobal · = true) sc (sc.kind.context catalog flow m) label node
        front operands back use vs := by
  obtain @⟨label, s₁, s₁', code, k, hcode, -, -, -, hbody, hdecls, hparams⟩ := h
  obtain @⟨part, t₁, t₁', c, front, behind, k₁, r, hpart, hflattens, hwithin, hused, -, -, -,
    hresolves, -⟩ := hcode.within hnode
  obtain ⟨operands, use, back, vs, hsite, hordered, hperforms, hmarks, htargets⟩ :=
    hflattens.operands hpart hoperands hused
  rw [hsite] at hwithin
  refine ⟨label, front, operands, back, use, vs, hwithin ▸ hbody, ⟨_, _, hordered⟩, hperforms, ?_⟩
  intro earlier e later hsplit
  obtain ⟨before, own, after, k', t, t', vs₁, v, vs₂, rfl, rfl, hearlier, hlength, hown, hlater⟩ :=
    hordered.split hsplit
  refine ⟨before, own, after, v, rfl, ⟨_, _, _, hown⟩, ?_, fun hundisturbed => ?_⟩
  · rw [← hlength, List.getElem?_append_right (Nat.le_refl _), Nat.sub_self]
    rfl
  · have hregion : code = (front ++ (before ++ own)) ++ (after ++ .emit use :: back) := by
      simp [hwithin]
    have houtside : Resolves [] ((front ++ (before ++ own)) ++ .emit use :: back) := by
      rw [List.append_assoc]
      exact (hresolves.congr hmarks htargets).insert (hearlier.resolves.append hown.resolves)
    have hnodup := hholds.nodup hlabels hbody
    rw [hregion] at hnodup
    have hdeclared : (declared (own ++ after)).Sublist code.declared := by
      have hpieces : code = (front ++ before) ++ ((own ++ after) ++ .emit use :: back) := by
        simp [hwithin]
      rw [hpieces]
      exact declared_sublist _ _ _
    have hgenerated : ∀ x ∈ declared (own ++ after), IsGenerated x := fun x hx =>
      hcode.carries.generated x (hdeclared.subset hx)
    have hlocal : ∀ x ∈ own.declared, (sc.kind.context catalog flow m).isLocal x = true := by
      intro x hx
      have hmem : x ∈ declared (own ++ after) := by simp [hx]
      refine isLocal_of_mem_declared hholds hdecls (hdeclared.subset hmem) fun hkind => ?_
      by_contra hglobal
      exact hundisturbed.globals hkind x (by simpa using hglobal) (hgenerated x hmem)
    exact preserved hnodup hlater.resolves houtside fun x hx =>
      hundisturbed.spares hown hlater hgenerated (hcode.nodup_declared.sublist hdeclared)
        (fun hkind y hy => isLocal_of_mem_names hkind hdecls hparams hy) hlocal hx

/-- The operands of every operation are evaluated in front of it, from left to right.  Each of them
has at the operation the value that it had when it was evaluated, unless a later operand assigns
the variable that it names or makes a call that may change this variable. -/
theorem flatten_operands {catalog catalog' : Catalog} {p : Tree.Program} {flow : Flow.Program}
    (hflow : flatten catalog p = (.ok flow, catalog')) {sc : Scope} (hsc : ScopeOf p sc)
    {node : Tree.Node} (hnode : node ∈ sc.nodes) (hoperands : node.operands ≠ []) :
    ∃ m, IsBody flow sc m ∧ ∃ label front operands back use vs,
      m.body = Code.blocks label (front ++ (operands ++ .emit use :: back)) ∧
      EvaluatesInOrder (catalog'.isGlobal · = true) sc (sc.kind.context catalog' flow m) label node
        front operands back use vs := by
  obtain ⟨hlabels, -⟩ := flatten_eq_ok hflow
  obtain ⟨_, _, s, s', -, -, hlowers, -⟩ := flatten_lowers hflow
  obtain ⟨m, hholds, himplements⟩ := hlowers.methods sc hsc
  exact ⟨m, ⟨hholds, s, s', himplements⟩,
    himplements.evaluates hholds hlabels hnode hoperands⟩

/-! ## A sum with a comprehension -/

def integer : Tree.Note := ⟨.int, ⟨1, 1, 0⟩⟩

def elements : Tree.Expr :=
  .listComp integer (.id integer "x") "x" (.id ⟨.object "Range", ⟨1, 1, 0⟩⟩ "r") none

def sumWith (name : String) : Tree.Expr :=
  .binary integer .plus (.id integer name) elements

/-- The function `def f(x, y, r): return name + [x for x in r]`. -/
def summingFunction (name : String) : Tree.Function :=
  ⟨"f", [⟨"x", .int⟩, ⟨"y", .int⟩, ⟨"r", .object "Range"⟩], .int, [],
    [.ret ⟨1, 1, 0⟩ (sumWith name)], [], ⟨1, 1, 0⟩⟩

def summing (name : String) : Tree.Program := ⟨[summingFunction name], [], [], []⟩

def summingScope (name : String) : Scope := .ofFunction [] [] (summingFunction name)

theorem scopeOf_summingScope (name : String) : ScopeOf (summing name) (summingScope name) :=
  .function List.mem_cons_self (.self _ _ _)

theorem mem_nodes_summingScope (name : String) :
    .expr (sumWith name) ∈ (summingScope name).nodes := by
  simp [Scope.nodes, Scope.sources, summingScope, Scope.ofFunction, summingFunction,
    Tree.Stmt.nodesOf, Tree.Stmt.nodes, sumWith, Tree.Expr.nodes]

theorem not_isGenerated_of_length {name : String} (hshort : name.length < 6) :
    ¬ IsGenerated name := by
  rintro ⟨base, hbase, n, rfl⟩
  have hlong : ∀ base ∈ NameSupply.generatedBases, 6 ≤ base.length := by decide +kernel
  have hbase := hlong base hbase
  unfold NameSupply.numbered at hshort
  rw [String.length_append] at hshort
  omega

theorem undisturbed_y (global : String → Prop) :
    Undisturbed global (summingScope "y") (.id integer "y") [elements] where
  kept x hx := by
    obtain rfl := Option.some.inj hx
    decide +kernel
  bound x hx _ := by
    obtain rfl := Option.some.inj hx
    exact ⟨nofun, by decide +kernel⟩
  named x hx := by
    obtain rfl := Option.some.inj hx
    exact not_isGenerated_of_length (by decide)
  apart x hx := by
    have hall : ∀ x ∈ written (Tree.Expr.nodesOf [elements]), x.length < 6 := by decide +kernel
    exact not_isGenerated_of_length (hall x hx)
  globals h := nomatch h

/-- The left operand of `y + [x for x in r]` keeps its value. -/
theorem flatten_operands_sum :
    ∃ m, IsBody (blocksOf .empty (summing "y")) (summingScope "y") m ∧
      ∃ label front own after back use v,
        m.body = Code.blocks label (front ++ (own ++ (after ++ .emit use :: back))) ∧
        Evaluates (.id integer "y") own v ∧ use.operands.head? = some v ∧
        Preserved (Optimization.methodContext m) label (front ++ own) after (.emit use :: back)
          v := by
  have hok : (flatten .empty (summing "y")).1.toOption.isSome = true := by decide +kernel
  obtain ⟨m, hm, label, front, operands, back, use, vs, hbody, -, hperforms, hkeeps⟩ :=
    flatten_operands (flatten_eq_blocksOf hok) (scopeOf_summingScope "y")
      (mem_nodes_summingScope "y") (List.cons_ne_nil _ _)
  obtain ⟨before, own, after, v, rfl, hown, hv, hpreserved⟩ := hkeeps [] _ _ rfl
  refine ⟨m, hm, label, front ++ before, own, after, back, use, v, ?_, hown, ?_, ?_⟩
  · simpa using hbody
  · rw [hperforms.operands, List.head?_eq_getElem?]
    exact hv
  · rw [List.append_assoc]
    exact hpreserved (undisturbed_y _)

def isCallOf (method : String) (entry : Flow.Request Value × Flow.Store Value) : Bool :=
  match entry.1 with
  | .call name _ => name = methodName "Range" method
  | _ => false

/-- What an iterable replies that has one element, the number 7. -/
def reply : Flow.History Value → Value
  | [] => .none
  | entry :: earlier =>
    if isCallOf "hasNext" entry then .bool (!earlier.any (isCallOf "next"))
    else if isCallOf "next" entry then .num 7
    else .none

def oneElement : Flow.Machine Value :=
  { Flow.Machine.ofLiterals with answer := fun history => ⟨some (reply history), fun _ => none⟩ }

def summingStart : Flow.Store Value := fun name => if name = "x" then .num 1 else .none

/-- The left operand of `x + [x for x in r]` is 1 when it is evaluated, but the comprehension
assigns 7 to `x` and the sum reads `x` behind it, so it is 14. -/
theorem flatten_operands_overwritten :
    (flatten .empty (summing "x")).1.toOption.isSome = true ∧
      ScopeOf (summing "x") (summingScope "x") ∧
      .expr (sumWith "x") ∈ (summingScope "x").nodes ∧ oneElement.ChecksPassively ∧
      ∃ cls ∈ (blocksOf .empty (summing "x")).classes, ∃ m ∈ cls.methods,
        let run := oneElement.after (Optimization.methodContext m) m.body summingStart
        (∀ v ∈ m.decls, summingStart v.name = v.value) ∧
        Flow.Machine.next? m.body (run 4) = some (.jump "$compstart1") ∧
        (run 4).store "x" = .num 1 ∧
        Flow.Machine.next? m.body (run 15) =
          some (.assign "valname2" (.binary .plus (.id "x") (.id "x"))) ∧
        (run 15).store "x" = .num 7 ∧ (run 16).store "valname2" = .num 14 := by
  refine ⟨by decide +kernel, scopeOf_summingScope "x", mem_nodes_summingScope "x",
    fun _ _ _ _ _ => rfl, ?_⟩
  decide +kernel

end Midend.Linear
