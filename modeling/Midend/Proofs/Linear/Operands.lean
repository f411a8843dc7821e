import Midend.Proofs.Linear.Nesting
/-!
# Operands of an operation

The operands of an operation are evaluated one after another, from left to right, with checks of
their values in between (`Operands`).  Behind them stands the statement that works on the values
(`Flattens.operands`).  An operand that names a variable leaves the variable itself and no copy of
it (`Flattens.named_or_declared`).
-/

namespace Midend.Tree.Expr

/-- The variable that holds the value of an expression. -/
def named? : Expr → Option String
  | .id _ name | .listComp _ _ name _ _ => some name
  | _ => none

end Midend.Tree.Expr

namespace Midend.Flow.Stmt

def operation? : Stmt → Option Expr
  | .assign _ e | .expr e => some e
  | _ => none

theorem operands_of_operation {s : Stmt} {e : Expr} (h : s.operation? = some e) :
    s.operands = e.operands := by
  unfold operation? at h
  split at h
  · exact Option.some.inj h ▸ rfl
  · exact Option.some.inj h ▸ rfl
  · exact nomatch h

/-- The statement leaves a variable alone: it does not assign it, and where it runs other code that
code cannot change it. -/
structure Spares (ctx : Context) (x : String) (s : Stmt) : Prop where
  writes : x ∉ s.writes
  calls : s.hasCall = true → s.isCheck = true ∨ ctx.isLocal x = true

theorem spares_of_isCheck {ctx : Context} {x : String} {s : Stmt} (h : s.isCheck = true) :
    s.Spares ctx x := by
  refine ⟨fun hx => ?_, fun _ => .inl h⟩
  cases s with
  | assign name e => exact nomatch h
  | _ => exact absurd hx List.not_mem_nil

end Midend.Flow.Stmt

namespace Midend.Linear

open Midend.Flow (Label Value)
open NameSupply (IsGenerated)
open Midend.Tree (Covers written someCalls)
open Build Code

/-! ## The value of an operand -/

/-- A variable in the value of an expression is the one that the expression names, or a temporary
of its own code. -/
theorem Flattens.named_or_declared {e : Tree.Expr} {s s' : State} {c : Code}
    {k : List Flow.Class} {v : Value} {x : String}
    (h : Flattens (.value e) s c k (.values [v]) s') (hv : v = .id x) :
    e.named? = some x ∨ x ∈ c.declared := by
  cases h with
  | temporary he _ _ =>
      cases hv
      exact .inr (by simp)
  | settled he =>
      cases he with
      | literal n value _ => cases value <;> exact nomatch hv
      | id n name _ | listComp n elem _ _ _ _ _ _ _ _ =>
          cases hv
          exact .inl rfl
      | construct n hmake | lambda n _ _ _ _ hmake =>
          cases hmake with
          | object _ _ _ _ =>
              cases hv
              exact .inr (by simp)
      | ifExpr n _ _ _ _ _ _ _ =>
          cases hv
          exact .inr List.mem_cons_self

/-- Some nodes leave the value of an expression alone.  If the expression names a variable, none of
them assigns the variable, and if one makes a call the variable is local.  No variable at hand has
a made-up name. -/
structure Steady (ctx : Context) (e : Tree.Expr) (nodes : List Tree.Node) : Prop where
  kept : ∀ x, e.named? = some x → x ∉ written nodes
  bound : ∀ x, e.named? = some x → someCalls nodes = true → ctx.isLocal x = true
  named : ∀ x, e.named? = some x → ¬ IsGenerated x
  apart : ∀ x ∈ written nodes, ¬ IsGenerated x

/-- Neither the nodes nor the code behind the expression have to do with the variable that holds
its value, whether the expression names it or it is a temporary. -/
theorem Steady.untouched {ctx : Context} {e : Tree.Expr} {nodes : List Tree.Node}
    (h : Steady ctx e nodes) {s s' : State} {own after : Code} {k : List Flow.Class} {v : Value}
    (hown : Flattens (.value e) s own k (.values [v]) s')
    (hgenerated : ∀ x ∈ declared (own ++ after), IsGenerated x)
    (hnodup : (declared (own ++ after)).Nodup)
    (hlocal : ∀ x ∈ own.declared, ctx.isLocal x = true) {x : String} (hv : v = .id x) :
    x ∉ written nodes ∧ x ∉ after.declared ∧ (someCalls nodes = true → ctx.isLocal x = true) := by
  rw [declared_append] at hgenerated hnodup
  obtain ⟨hgenerated_own, hgenerated_after⟩ := List.forall_mem_append.1 hgenerated
  obtain ⟨-, -, hdisjoint⟩ := List.nodup_append.1 hnodup
  rcases hown.named_or_declared hv with hname | hdeclared
  · exact ⟨h.kept x hname, fun hx => h.named x hname (hgenerated_after x hx), h.bound x hname⟩
  · exact ⟨fun hx => h.apart x hx (hgenerated_own x hdeclared),
      fun hx => hdisjoint x hdeclared x hx rfl, fun _ => hlocal x hdeclared⟩

/-! ## Operands one after another -/

/-- Some operands are evaluated from left to right.  Between them stand checks of their values, and
temporaries may be declared. -/
inductive Operands : List Tree.Expr → State → Code → List Value → State → Prop
  | done (s : State) : Operands [] s [] [] s
  | next {e : Tree.Expr} {es : List Tree.Expr} {s s₁ s' : State} {c₁ c₂ : Code}
      {k : List Flow.Class} {v : Value} {vs : List Value}
      (he : Flattens (.value e) s c₁ k (.values [v]) s₁) (hes : Operands es s₁ c₂ vs s') :
      Operands (e :: es) s (c₁ ++ c₂) (v :: vs) s'
  | check {es : List Tree.Expr} {s s' : State} {c : Code} {vs : List Value} {check : Flow.Stmt}
      (hcheck : check.isCheck = true) (hes : Operands es s c vs s') :
      Operands es s (.emit check :: c) vs s'
  | declare (name : String) (ty : Ty) {es : List Tree.Expr} {s s' : State} {c : Code}
      {vs : List Value} (hes : Operands es s c vs s') :
      Operands es s (.declare name ty :: c) vs s'

def isAside : Item → Bool
  | .emit s => s.isCheck
  | .mark _ => false
  | .declare _ _ => true

namespace Operands

variable {e : Tree.Expr} {es earlier later : List Tree.Expr} {s s₁ s' : State} {c c' : Code}
  {k : List Flow.Class} {vs : List Value}

theorem asides (hc : c.all isAside = true) (s : State) : Operands [] s c [] s := by
  induction c with
  | nil => exact .done s
  | cons item rest ih =>
      rw [List.all_cons, Bool.and_eq_true] at hc
      cases item with
      | emit check => exact .check hc.1 (ih hc.2)
      | mark label => exact nomatch hc.1
      | declare name ty => exact .declare name ty (ih hc.2)

theorem followedBy (h : Operands es s c vs s') (hc : c'.all isAside = true) :
    Operands es s (c ++ c') vs s' := by
  induction h with
  | done s => exact asides hc s
  | next he _ ih =>
      rw [List.append_assoc]
      exact .next he ih
  | check hcheck _ ih => exact .check hcheck ih
  | declare name ty _ ih => exact .declare name ty ih

theorem of_flattens (h : Flattens (.values es) s c k (.values vs) s') : Operands es s c vs s' := by
  induction es generalizing s c k vs with
  | nil =>
      cases h with
      | noValues _ => exact .done _
  | cons e es ih =>
      cases h with
      | moreValues he hes => exact .next he (ih hes)

theorem two {left right : Tree.Expr} {c₁ c₂ : Code} {k₁ k₂ : List Flow.Class} {l r : Value}
    (hleft : Flattens (.value left) s c₁ k₁ (.values [l]) s₁)
    (hright : Flattens (.value right) s₁ c₂ k₂ (.values [r]) s') :
    Operands [left, right] s (c₁ ++ c₂) [l, r] s' := by
  have hlast : Operands [right] s₁ (c₂ ++ []) [r] s' := .next hright (.done s')
  rw [List.append_nil] at hlast
  exact .next hleft hlast

theorem resolves (h : Operands es s c vs s') : Resolves [] c := by
  induction h with
  | done _ => exact .nil []
  | next he _ ih => exact he.resolves.append ih
  | @check _ _ _ c _ check hcheck _ ih =>
      have htargets : check.targets = [] := by
        cases check <;> first | rfl | exact nomatch hcheck
      have hresolves : Resolves [] [Item.emit check] := Resolves.plain (by simp [htargets])
      exact hresolves.append ih
  | declare name ty _ ih => exact ih

theorem split (h : Operands es s c vs s') (hes : es = earlier ++ e :: later) :
    ∃ c₁ own rest k s₁ s₂ vs₁ v vs₂, c = c₁ ++ (own ++ rest) ∧ vs = vs₁ ++ v :: vs₂ ∧
      Operands earlier s c₁ vs₁ s₁ ∧ vs₁.length = earlier.length ∧
      Flattens (.value e) s₁ own k (.values [v]) s₂ ∧ Operands later s₂ rest vs₂ s' := by
  induction h generalizing earlier with
  | done s => simp at hes
  | @next e' es s s₁ s' c c' k v vs he hrest ih =>
      cases earlier with
      | nil =>
          obtain ⟨rfl, rfl⟩ := List.cons.inj hes
          exact ⟨[], c, c', k, s, s₁, [], v, vs, rfl, rfl, .done s, rfl, he, hrest⟩
      | cons e'' earlier =>
          obtain ⟨rfl, hes'⟩ := List.cons.inj hes
          obtain ⟨c₁, own, rest, k', t, t', vs₁, w, vs₂, rfl, rfl, hearlier, hlength, hrest⟩ :=
            ih hes'
          exact ⟨c ++ c₁, own, rest, k', t, t', v :: vs₁, w, vs₂, by simp, rfl, .next he hearlier,
            congrArg Nat.succ hlength, hrest⟩
  | check hcheck _ ih =>
      obtain ⟨c₁, own, rest, k, t, t', vs₁, w, vs₂, rfl, rfl, hearlier, hrest⟩ := ih hes
      exact ⟨_ :: c₁, own, rest, k, t, t', vs₁, w, vs₂, rfl, rfl, .check hcheck hearlier, hrest⟩
  | declare name ty _ ih =>
      obtain ⟨c₁, own, rest, k, t, t', vs₁, w, vs₂, rfl, rfl, hearlier, hrest⟩ := ih hes
      exact ⟨_ :: c₁, own, rest, k, t, t', vs₁, w, vs₂, rfl, rfl, .declare name ty hearlier, hrest⟩

end Operands

theorem Fits.spares {nodes : List Tree.Node} {declared : List String} {s : Flow.Stmt}
    {ctx : Context} {x : String} (h : Fits nodes declared s) (hwritten : x ∉ written nodes)
    (hdeclared : x ∉ declared) (hcalls : someCalls nodes = true → ctx.isLocal x = true) :
    s.Spares ctx x :=
  ⟨fun hx => (h.writes x hx).elim hwritten hdeclared,
    fun hcall => (h.calls hcall).imp_right hcalls⟩

/-- The code of operands leaves a variable alone that is no temporary of theirs, unless an operand
assigns it or makes a call that may change it. -/
theorem Operands.spares {es : List Tree.Expr} {s s' : State} {c : Code} {vs : List Value}
    (h : Operands es s c vs s') {ctx : Context} {x : String}
    (hwritten : x ∉ written (Tree.Expr.nodesOf es)) (hdeclared : x ∉ c.declared)
    (hcalls : someCalls (Tree.Expr.nodesOf es) = true → ctx.isLocal x = true) :
    ∀ s, .emit s ∈ c → s.Spares ctx x := by
  induction h with
  | done _ => exact fun s hs => absurd hs List.not_mem_nil
  | @next e es s s₁ s' c₁ c₂ k v vs he _ ih =>
      have hcovers := Covers.append_iff.1 (Covers.refl (e.nodes ++ Tree.Expr.nodesOf es))
      rw [declared_append, List.mem_append, not_or] at hdeclared
      have hown := (he.contained _ c₁.declared (.refl _) (fun _ h => h)).carries
      intro s hs
      rcases List.mem_append.1 hs with hs | hs
      · exact (hown.fits s hs).spares (fun h => hwritten (hcovers.1.written h)) hdeclared.1
          fun h => hcalls (hcovers.1.calls h)
      · exact ih (fun h => hwritten (hcovers.2.written h)) hdeclared.2
          (fun h => hcalls (hcovers.2.calls h)) s hs
  | check hcheck _ ih =>
      intro s hs
      rcases List.mem_cons.1 hs with heq | hs
      · obtain rfl := Item.emit.inj heq
        exact Flow.Stmt.spares_of_isCheck hcheck
      · exact ih hwritten hdeclared hcalls s hs
  | declare name ty _ ih =>
      intro s hs
      rw [declared_declare, List.mem_cons, not_or] at hdeclared
      exact ih hwritten hdeclared.2 hcalls s ((List.mem_cons.1 hs).resolve_left nofun)

/-! ## The statement that performs an operation -/

inductive Performs : Flow.Stmt → Tree.Node → List Value → Prop
  | binary (n : Tree.Note) (left right : Tree.Expr) {op : BinOp} {l r : Value} {use : Flow.Stmt}
      (huse : use.operation? = some (.binary op l r)) :
      Performs use (.expr (.binary n op left right)) [l, r]
  | builtin2 (n : Tree.Note) (left right : Tree.Expr) {name : String} {l r : Value}
      {use : Flow.Stmt} (huse : use.operation? = some (.builtin2 name l r)) :
      Performs use (.expr (.builtin2 n name left right)) [l, r]
  | call (n : Tree.Note) (callee : Tree.Expr) (args : List Tree.Expr) {f : Value}
      {vs : List Value} {use : Flow.Stmt} (huse : use.operation? = some (.callIndirect f vs)) :
      Performs use (.expr (.call n callee args)) (f :: vs)
  | methodCall (n : Tree.Note) (args : List Tree.Expr) {obj : Tree.Expr}
      {method className : String} {vs : List Value} {use : Flow.Stmt}
      (hclass : obj.ty = .object className)
      (huse : use.operation? = some (.call (methodName className method) vs)) :
      Performs use (.expr (.methodCall n obj method args)) vs
  | fieldAssign (loc : Location) (obj content : Tree.Expr) (field : String) (offset : Nat)
      (o v : Value) :
      Performs (.store o offset v) (.stmt (.fieldAssign loc obj field content)) [o, v]

theorem Performs.operands {use : Flow.Stmt} {node : Tree.Node} {vs : List Value}
    (h : Performs use node vs) : use.operands = vs := by
  cases h with
  | binary _ _ _ huse => exact Flow.Stmt.operands_of_operation huse
  | builtin2 _ _ _ huse => exact Flow.Stmt.operands_of_operation huse
  | call _ _ _ huse => exact Flow.Stmt.operands_of_operation huse
  | methodCall _ _ _ huse => exact Flow.Stmt.operands_of_operation huse
  | fieldAssign _ _ _ _ _ _ _ => rfl

/-- Behind the operands of an operation that has to be performed stands the statement that does
so, and nothing else with labels. -/
theorem Operands.used {es : List Tree.Expr} {s s' : State} {c behind : Code} {vs : List Value}
    {r : Flow.Expr} (h : Operands es s c vs s')
    (hused : Used (.operation r) behind .nothing) (hr : ∀ v, r ≠ .value v) :
    ∃ code use back, c ++ behind = code ++ .emit use :: back ∧ Operands es s code vs s' ∧
      use.operation? = some r ∧ marks (.emit use :: back) = marks behind ∧
      targets (.emit use :: back) = targets behind := by
  cases hused with
  | assigned name r rest _ => exact ⟨c, _, rest, rfl, h, rfl, rfl, rfl⟩
  | kept name ty r rest _ =>
      exact ⟨c ++ [.declare name ty], _, rest, by simp, h.followedBy rfl, rfl, rfl, rfl⟩
  | run r rest _ => exact ⟨c, _, rest, rfl, h, rfl, rfl, rfl⟩
  | settled v _ _ => exact absurd rfl (hr v)

/-- The operands of a node are evaluated one after another, and the statement behind them performs
the operation on their values. -/
theorem Flattens.operands {part : Part} {node : Tree.Node} {s s' : State} {c behind : Code}
    {k : List Flow.Class} {r : Result} (h : Flattens part s c k r s') (hpart : part.IsOf node)
    (hnode : node.operands ≠ []) (hused : Used r behind .nothing) :
    ∃ code use back vs, c ++ behind = code ++ .emit use :: back ∧
      Operands node.operands s code vs s' ∧ Performs use node vs ∧
      marks (.emit use :: back) = marks behind ∧ targets (.emit use :: back) = targets behind := by
  cases hpart with
  | expr e =>
      cases h with
      | @binary n op left right _ _ _ _ _ _ _ l r hleft hright =>
          have hcheck : (if op = .idiv ∨ op = .mod then [Code.guardDivisor r n.loc] else []).all
              isAside = true := by
            split <;> rfl
          obtain ⟨code, use, back, hcode, hoperands, huse, hlabels⟩ :=
            ((Operands.two hleft hright).followedBy hcheck).used hused nofun
          exact ⟨code, use, back, _, hcode, hoperands, .binary n left right huse, hlabels⟩
      | @builtin2 n name left right _ _ _ _ _ _ _ _ _ hleft hright =>
          obtain ⟨code, use, back, hcode, hoperands, huse, hlabels⟩ :=
            (Operands.two hleft hright).used hused nofun
          exact ⟨code, use, back, _, hcode, hoperands, .builtin2 n left right huse, hlabels⟩
      | @call n callee args _ s₁ _ _ c₂ _ _ f vs hcallee hargs =>
          have hchecked : Operands args s₁ (Code.guardObject f n.loc :: c₂) vs s' :=
            .check rfl (.of_flattens hargs)
          obtain ⟨code, use, back, hcode, hoperands, huse, hlabels⟩ :=
            (Operands.next hcallee hchecked).used hused nofun
          exact ⟨code, use, back, _, hcode, hoperands, .call n callee args huse, hlabels⟩
      | @methodCall n obj method className args _ s₁ _ _ c₂ _ _ v vs hclass hobj hargs =>
          have hchecked : Operands args s₁ (Code.guardObject v n.loc :: c₂) vs s' :=
            .check rfl (.of_flattens hargs)
          obtain ⟨code, use, back, hcode, hoperands, huse, hlabels⟩ :=
            (Operands.next hobj hchecked).used hused nofun
          exact ⟨code, use, back, _, hcode, hoperands, .methodCall n args hclass huse, hlabels⟩
      | _ => exact absurd rfl hnode
  | stmt loop source =>
      cases h with
      | @fieldAssign _ loc obj content field _ entry _ _ _ c₁ c₂ _ _ o v _ _ hobj hcontent =>
          have hcheck : [Code.guardObject o loc].all isAside = true := rfl
          exact ⟨c₁ ++ c₂ ++ [Code.guardObject o loc], _, behind, _, by simp,
            (Operands.two hobj hcontent).followedBy hcheck,
            .fieldAssign loc obj content field entry.offset o v, rfl, rfl⟩
      | _ => exact absurd rfl hnode

end Midend.Linear
