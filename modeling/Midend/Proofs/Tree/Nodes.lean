import Midend.Tree.Basic
/-!
# Nodes of a body

The expressions and statements of one body, and what each of them does itself.  What stands inside
a function or a lambda belongs to another body.
-/

namespace Midend.Tree

inductive Node where
  | expr (e : Expr)
  | stmt (s : Stmt)

namespace Node

def operands : Node → List Expr
  | .expr (.binary _ _ left right) | .expr (.builtin2 _ _ left right) => [left, right]
  | .expr (.call _ callee args) => callee :: args
  | .expr (.methodCall _ obj _ args) => obj :: args
  | .stmt (.fieldAssign _ obj _ content) => [obj, content]
  | _ => []

def writes : Node → List String
  | .expr (.listComp _ _ elem _ _) => [elem]
  | .stmt (.assign _ name _) | .stmt (.forLoop _ name _ _) => [name]
  | _ => []

def mentions : Node → List String
  | .expr (.id _ name) => [name]
  | node => node.writes

def calls : Node → Bool
  | .expr (.call _ _ _) | .expr (.methodCall _ _ _ _) | .expr (.construct _ _)
  | .expr (.listComp _ _ _ _ _) | .expr (.lambda _ _ _) | .stmt (.forLoop _ _ _ _) => true
  | _ => false

end Node

mutual
/-- An expression and all expressions in it.  The body of a lambda is left out. -/
def Expr.nodes : Expr → List Node
  | .literal n value => [.expr (.literal n value)]
  | .id n name => [.expr (.id n name)]
  | .binary n op left right => .expr (.binary n op left right) :: (left.nodes ++ right.nodes)
  | .unary n op operand => .expr (.unary n op operand) :: operand.nodes
  | .builtin1 n name arg => .expr (.builtin1 n name arg) :: arg.nodes
  | .builtin2 n name left right =>
    .expr (.builtin2 n name left right) :: (left.nodes ++ right.nodes)
  | .call n callee args => .expr (.call n callee args) :: (callee.nodes ++ Expr.nodesOf args)
  | .lookup n obj field => .expr (.lookup n obj field) :: obj.nodes
  | .methodCall n obj method args =>
    .expr (.methodCall n obj method args) :: (obj.nodes ++ Expr.nodesOf args)
  | .construct n className => [.expr (.construct n className)]
  | .listComp n item elem iterable cond =>
    .expr (.listComp n item elem iterable cond) ::
      (iterable.nodes ++ (Expr.nodesIf cond ++ item.nodes))
  | .ifExpr n cond onTrue onFalse =>
    .expr (.ifExpr n cond onTrue onFalse) :: (cond.nodes ++ (onTrue.nodes ++ onFalse.nodes))
  | .lambda n params body => [.expr (.lambda n params body)]

def Expr.nodesOf : List Expr → List Node
  | [] => []
  | e :: es => e.nodes ++ Expr.nodesOf es

def Expr.nodesIf : Option Expr → List Node
  | none => []
  | some e => e.nodes
end

mutual
def Stmt.nodes : Stmt → List Node
  | .assign loc name e => .stmt (.assign loc name e) :: e.nodes
  | .ret loc e => .stmt (.ret loc e) :: e.nodes
  | .expr loc e => .stmt (.expr loc e) :: e.nodes
  | .pass loc => [.stmt (.pass loc)]
  | .continueLoop loc => [.stmt (.continueLoop loc)]
  | .breakLoop loc => [.stmt (.breakLoop loc)]
  | .fieldAssign loc obj field content =>
    .stmt (.fieldAssign loc obj field content) :: (obj.nodes ++ content.nodes)
  | .ifElse loc cond onTrue onFalse =>
    .stmt (.ifElse loc cond onTrue onFalse) ::
      (cond.nodes ++ (Stmt.nodesOf onTrue ++ Stmt.nodesOf onFalse))
  | .whileLoop loc cond body =>
    .stmt (.whileLoop loc cond body) :: (cond.nodes ++ Stmt.nodesOf body)
  | .forLoop loc elem iterable body =>
    .stmt (.forLoop loc elem iterable body) :: (iterable.nodes ++ Stmt.nodesOf body)

def Stmt.nodesOf : List Stmt → List Node
  | [] => []
  | s :: ss => s.nodes ++ Stmt.nodesOf ss
end

theorem Stmt.nodesOf_append (sources sources' : List Stmt) :
    Stmt.nodesOf (sources ++ sources') = Stmt.nodesOf sources ++ Stmt.nodesOf sources' := by
  induction sources with
  | nil => rfl
  | cons s ss ih => simp [Stmt.nodesOf, ih]

def mentioned (nodes : List Node) : List String := nodes.flatMap Node.mentions

def written (nodes : List Node) : List String := nodes.flatMap Node.writes

def someCalls (nodes : List Node) : Bool := nodes.any Node.calls

structure Covers (nodes nodes' : List Node) : Prop where
  mentioned : mentioned nodes ⊆ mentioned nodes'
  written : written nodes ⊆ written nodes'
  calls : someCalls nodes = true → someCalls nodes' = true

namespace Covers

variable {nodes nodes' all : List Node} {node : Node}

@[simp] theorem append_iff :
    Covers (nodes ++ nodes') all ↔ Covers nodes all ∧ Covers nodes' all := by
  constructor
  · rintro ⟨hmentioned, hwritten, hcalls⟩
    simp only [Tree.mentioned, Tree.written, someCalls, List.flatMap_append, List.append_subset,
      List.any_append, Bool.or_eq_true] at hmentioned hwritten hcalls
    exact ⟨⟨hmentioned.1, hwritten.1, fun h => hcalls (.inl h)⟩,
      ⟨hmentioned.2, hwritten.2, fun h => hcalls (.inr h)⟩⟩
  · rintro ⟨h, h'⟩
    refine ⟨?_, ?_, fun hcalls => ?_⟩
    · simpa [Tree.mentioned] using ⟨h.mentioned, h'.mentioned⟩
    · simpa [Tree.written] using ⟨h.written, h'.written⟩
    · simp only [someCalls, List.any_append, Bool.or_eq_true] at hcalls
      exact hcalls.elim h.calls h'.calls

@[simp] theorem cons_cons_iff {next : Node} :
    Covers (node :: next :: nodes) all ↔ Covers [node] all ∧ Covers (next :: nodes) all := by
  rw [← append_iff, List.singleton_append]

@[simp] theorem cons_append_iff :
    Covers (node :: (nodes ++ nodes')) all ↔
      Covers [node] all ∧ Covers nodes all ∧ Covers nodes' all := by
  rw [← append_iff, ← append_iff, List.singleton_append]

theorem head (h : Covers (node :: nodes) all) : Covers [node] all := by
  rw [← List.singleton_append, append_iff] at h
  exact h.1

theorem tail (h : Covers (node :: nodes) all) : Covers nodes all := by
  rw [← List.singleton_append, append_iff] at h
  exact h.2

theorem mentions (h : Covers [node] all) {name : String} (hname : name ∈ node.mentions) :
    name ∈ Tree.mentioned all :=
  h.mentioned (by simpa [Tree.mentioned] using hname)

theorem writes (h : Covers [node] all) {name : String} (hname : name ∈ node.writes) :
    name ∈ Tree.written all :=
  h.written (by simpa [Tree.written] using hname)

theorem someCalls (h : Covers [node] all) (hnode : node.calls = true) :
    Tree.someCalls all = true :=
  h.calls (by simpa [Tree.someCalls] using hnode)

theorem refl (nodes : List Node) : Covers nodes nodes := ⟨fun _ h => h, fun _ h => h, id⟩

end Covers

theorem written_subset_mentioned (nodes : List Node) : written nodes ⊆ mentioned nodes := by
  intro name hname
  obtain ⟨node, hnode, hname⟩ := List.mem_flatMap.1 hname
  refine List.mem_flatMap.2 ⟨node, hnode, ?_⟩
  unfold Node.mentions
  split
  · exact nomatch hname
  · exact hname

end Midend.Tree
