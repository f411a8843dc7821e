import Midend.Tree.Decode
import Midend.Tree.Encode
/-!
# Reading back what was written

Every value of the typed tree is read from its JSON as it was written, at any depth and in both
spellings (`values_round_trip`).  The fields that a node has of its own stand beside its type and
its position in one object, so each of them is looked up past the others; a value that is nested in
another one is read within a smaller depth.
-/

namespace Midend

namespace Json

variable {α : Type} {write : α → Json} {read : Json → Option α}

/-- What is written is read again as what it was.  So what was read in any form is the same after
it was written and read once more, and no two values are written alike. -/
structure RoundTrips (write : α → Json) (read : Json → Option α) : Prop where
  reads : ∀ a, read (write a) = some a
  again : ∀ j a, read j = some a → read (write a) = some a
  injective : Function.Injective write

theorem RoundTrips.of_reads (hreads : ∀ a, read (write a) = some a) : RoundTrips write read where
  reads := hreads
  again _ a _ := hreads a
  injective a b heq := Option.some.inj (by rw [← hreads a, heq, hreads b])

/-! ## Fields -/

@[simp]
theorem tag?_str (tags : List String) (spelling : Spelling) (tag : String) :
    (str tag).tag? tags spelling = some tag := by
  cases spelling <;> rfl

@[simp]
theorem choice?_str (spelling : Spelling) (name : String) :
    (str name).choice? spelling = some name := by
  cases spelling <;> rfl

@[simp]
theorem text?_str (text : String) : (str text).text? = some text := rfl

@[simp]
theorem fields?_obj (fields : List (String × Json)) : (obj fields).fields? = some fields := rfl

@[simp]
theorem record?_obj (names : List String) (fields : List (String × Json)) :
    record? names (obj fields) = some (valuesOf fields) := rfl

@[simp]
theorem valuesOf_nil (name : String) : valuesOf [] name = [] := by
  simp [valuesOf]

@[simp]
theorem valuesOf_same (name : String) (j : Json) (fields : List (String × Json)) :
    valuesOf ((name, j) :: fields) name = j :: valuesOf fields name := by
  simp [valuesOf]

@[simp]
theorem valuesOf_other {name other : String} (hne : name ≠ other) (j : Json)
    (fields : List (String × Json)) :
    valuesOf ((other, j) :: fields) name = valuesOf fields name := by
  simp [valuesOf, hne.symm]

@[simp]
theorem valuesOf_append (fields fields' : List (String × Json)) (name : String) :
    valuesOf (fields ++ fields') name = valuesOf fields name ++ valuesOf fields' name :=
  List.filterMap_append

@[simp]
theorem required_valuesOf (fields : List (String × Json)) (name : String) :
    (valuesOf fields).required name read =
      match valuesOf fields name with
      | [j] => read j
      | _ => none := rfl

@[simp]
theorem withDefault_valuesOf (fields : List (String × Json)) (name : String) (default : α) :
    (valuesOf fields).withDefault name default read =
      match valuesOf fields name with
      | [] => some default
      | [j] => read j
      | _ => none := rfl

@[simp]
theorem variant?_obj (tags : List String) (spelling : Spelling) {tag : String}
    {fields : List (String × Json)} (hother : valuesOf fields "tag" = []) :
    variant? tags spelling (obj (("tag", str tag) :: fields)) =
      some (tag, obj (("tag", str tag) :: fields)) := by
  simp [variant?, hother]

@[simp]
theorem word?_ofWord (w : UInt32) : (ofWord w).word? = some w := by
  have hbelow : (ofWord w).below? UInt32.size = some w.toNat := by
    simp only [ofWord, ofNat, below?]
    rw [if_pos ⟨Int.natCast_nonneg _, Int.ofNat_lt.2 w.toNat_lt⟩]
    rfl
  rw [word?, hbelow, Option.map_some, UInt32.ofNat_toNat]

theorem list?_arr (items : List Json) : list? read (arr items) = items.mapM read := rfl

theorem list?_map (hreads : ∀ a, read (write a) = some a) (as : List α) :
    list? read (arr (as.map write)) = some as := by
  rw [list?_arr]
  induction as with
  | nil => rfl
  | cons a as ih => simp [hreads, ih]

theorem optional?_of_ne_null {j : Json} (hj : j ≠ null) :
    optional? read j = (read j).map some := by
  cases j with
  | null => exact absurd rfl hj
  | bool | num | str | arr | obj => rfl

end Json

namespace Ty

mutual
theorem decodeTo_encode (depth : Nat) (spelling : Json.Spelling) (t : Ty)
    (hdepth : t.encode.depth ≤ depth) : decodeTo depth spelling t.encode = some t := by
  obtain _ | depth := depth
  · cases t <;> simp [encode, Json.depth] at hdepth
  cases t with
  | int => simp [encode, decodeTo]
  | bool => simp [encode, decodeTo]
  | none => simp [encode, decodeTo]
  | object name => simp [encode, decodeTo]
  | callable params ret =>
      simp only [encode, Json.depth, Json.fieldDepths] at hdepth
      have hparams := decodeTo_encodes depth params (by omega)
      have hret := decodeTo_encode depth .loose ret (by omega)
      simp [encode, decodeTo, Json.list?_arr, hparams, hret]

theorem decodeTo_encodes (depth : Nat) (ts : List Ty) (hdepth : Json.depths (encodes ts) ≤ depth) :
    (encodes ts).mapM (decodeTo depth .loose) = some ts := by
  cases ts with
  | nil => rfl
  | cons t ts =>
      simp only [encodes, Json.depths] at hdepth
      have ht := decodeTo_encode depth .loose t (by omega)
      have hts := decodeTo_encodes depth ts (by omega)
      simp [encodes, ht, hts]
end

@[simp]
theorem decode_encode (spelling : Json.Spelling) (t : Ty) : decode spelling t.encode = some t :=
  decodeTo_encode _ spelling t (Nat.le_refl _)

end Ty

-- With implicit steps the kernel compares words that are not known with the bound of words.
@[simp]
theorem Location.decode_encode (loc : Location) : decode loc.encode = some loc := by
  simp -implicitDefEqProofs [encode, decode]

@[simp]
theorem Literal.decode_encode (spelling : Json.Spelling) (value : Literal) :
    decode spelling value.encode = some value := by
  cases value with
  | num n => simp [encode, decode, ofTag?, Decimal.parse?_render]
  | bool b => simp [encode, decode, ofTag?]
  | none => simp [encode, decode, ofTag?]

@[simp]
theorem BinOp.decode_encode (spelling : Json.Spelling) (op : BinOp) :
    decode spelling op.encode = some op := by
  simp only [decode, encode, Json.choice?_str, Option.bind_some]
  cases op <;> decide

@[simp]
theorem UniOp.decode_encode (spelling : Json.Spelling) (op : UniOp) :
    decode spelling op.encode = some op := by
  simp only [decode, encode, Json.choice?_str, Option.bind_some]
  cases op <;> decide

@[simp]
theorem Parameter.decode_encode (p : Parameter) : decode p.encode = some p := by
  simp [encode, decode]

namespace Tree

open Json (RoundTrips)

@[simp]
theorem Decl.decode_encode (d : Decl) : decode d.encode = some d := by
  simp [encode, decode]

namespace Expr

/-- Reading a node comes to its note and its tag: no field of its own stands in the way. -/
theorem bind_node {note : Note} {tag : String} {own : List (String × Json)} {e : Expr}
    {next : List (String × Json) → Ty → Location → String → Option Expr}
    (spelling : Json.Spelling) (hty : Json.valuesOf own "ty" = [])
    (hloc : Json.valuesOf own "loc" = []) (htag : Json.valuesOf own "tag" = [])
    (hnext : next (("tag", .str tag) :: own ++ [("ty", note.ty.encode), ("loc", note.loc.encode)])
      note.ty note.loc tag = some e) :
    (do
      let fields ← (node note tag own).fields?
      let r := Json.valuesOf fields
      let ty ← r.required "ty" (Ty.decode spelling)
      let loc ← r.withDefault "loc" .unknown Location.decode
      let tag ← r.required "tag" (Json.tag? tags .loose)
      next fields ty loc tag) = some e := by
  rw [List.cons_append] at hnext
  simp -implicitDefEqProofs [node, hty, hloc, htag, hnext]

theorem encode_ne_null (e : Expr) : e.encode ≠ .null := by
  cases e <;> simp [encode, node]

mutual
theorem decodeTo_encode (depth : Nat) (spelling : Json.Spelling) (e : Expr)
    (hdepth : e.encode.depth ≤ depth) : decodeTo depth spelling e.encode = some e := by
  obtain _ | depth := depth
  · cases e <;> simp [encode, node, Json.depth] at hdepth
  cases e with
  | literal n value | id n name | construct n name =>
      refine bind_node spelling (by simp) (by simp) (by simp) ?_
      simp
  | binary n op left right | builtin2 n name left right =>
      simp only [encode, node, Json.depth, Json.fieldDepths, List.cons_append] at hdepth
      have hleft := decodeTo_encode depth .loose left (by omega)
      have hright := decodeTo_encode depth .loose right (by omega)
      refine bind_node spelling (by simp) (by simp) (by simp) ?_
      simp [hleft, hright]
  | unary n op operand =>
      simp only [encode, node, Json.depth, Json.fieldDepths, List.cons_append] at hdepth
      have hoperand := decodeTo_encode depth .loose operand (by omega)
      refine bind_node spelling (by simp) (by simp) (by simp) ?_
      simp [hoperand]
  | builtin1 n name arg =>
      simp only [encode, node, Json.depth, Json.fieldDepths, List.cons_append] at hdepth
      have harg := decodeTo_encode depth .loose arg (by omega)
      refine bind_node spelling (by simp) (by simp) (by simp) ?_
      simp [harg]
  | call n callee args =>
      simp only [encode, node, Json.depth, Json.fieldDepths, List.cons_append] at hdepth
      have hcallee := decodeTo_encode depth .loose callee (by omega)
      have hargs := decodeTo_encodes depth args (by omega)
      refine bind_node spelling (by simp) (by simp) (by simp) ?_
      simp [Json.list?_arr, hcallee, hargs]
  | lookup n obj field =>
      simp only [encode, node, Json.depth, Json.fieldDepths, List.cons_append] at hdepth
      have hobj := decodeTo_encode depth .loose obj (by omega)
      refine bind_node spelling (by simp) (by simp) (by simp) ?_
      simp [hobj]
  | methodCall n obj method args =>
      simp only [encode, node, Json.depth, Json.fieldDepths, List.cons_append] at hdepth
      have hobj := decodeTo_encode depth .loose obj (by omega)
      have hargs := decodeTo_encodes depth args (by omega)
      refine bind_node spelling (by simp) (by simp) (by simp) ?_
      simp [Json.list?_arr, hobj, hargs]
  | listComp n item elem iterable cond =>
      simp only [encode, node, Json.depth, Json.fieldDepths, List.cons_append] at hdepth
      have hitem := decodeTo_encode depth .loose item (by omega)
      have hiterable := decodeTo_encode depth .loose iterable (by omega)
      have hcond := decodeTo_encodeOption depth cond (by omega)
      refine bind_node spelling (by simp) (by simp) (by simp) ?_
      simp [hitem, hiterable, hcond]
  | ifExpr n cond onTrue onFalse =>
      simp only [encode, node, Json.depth, Json.fieldDepths, List.cons_append] at hdepth
      have hcond := decodeTo_encode depth .loose cond (by omega)
      have honTrue := decodeTo_encode depth .loose onTrue (by omega)
      have honFalse := decodeTo_encode depth .loose onFalse (by omega)
      refine bind_node spelling (by simp) (by simp) (by simp) ?_
      simp [hcond, honTrue, honFalse]
  | lambda n params body =>
      simp only [encode, node, Json.depth, Json.fieldDepths, List.cons_append] at hdepth
      have hparams := Json.list?_map Json.text?_str params
      have hbody := decodeTo_encode depth .loose body (by omega)
      refine bind_node spelling (by simp) (by simp) (by simp) ?_
      simp [hparams, hbody]

theorem decodeTo_encodes (depth : Nat) (es : List Expr)
    (hdepth : Json.depths (encodes es) ≤ depth) :
    (encodes es).mapM (decodeTo depth .loose) = some es := by
  cases es with
  | nil => rfl
  | cons e es =>
      simp only [encodes, Json.depths] at hdepth
      have he := decodeTo_encode depth .loose e (by omega)
      have hes := decodeTo_encodes depth es (by omega)
      simp [encodes, he, hes]

theorem decodeTo_encodeOption (depth : Nat) (o : Option Expr)
    (hdepth : (encodeOption o).depth ≤ depth) :
    Json.optional? (decodeTo depth .loose) (encodeOption o) = some o := by
  cases o with
  | none => rfl
  | some e =>
      have he := decodeTo_encode depth .loose e hdepth
      rw [encodeOption, Json.optional?_of_ne_null e.encode_ne_null, he, Option.map_some]
end

@[simp]
theorem decode_encode (spelling : Json.Spelling) (e : Expr) : decode spelling e.encode = some e :=
  decodeTo_encode _ spelling e (Nat.le_refl _)

end Expr

namespace Stmt

theorem bind_node {loc : Location} {tag : String} {own : List (String × Json)} {s : Stmt}
    {next : List (String × Json) → Location → String → Option Stmt}
    (hloc : Json.valuesOf own "loc" = []) (htag : Json.valuesOf own "tag" = [])
    (hnext : next (("tag", .str tag) :: own ++ [("loc", loc.encode)]) loc tag = some s) :
    (do
      let fields ← (node loc tag own).fields?
      let r := Json.valuesOf fields
      let loc ← r.withDefault "loc" .unknown Location.decode
      let tag ← r.required "tag" (Json.tag? tags .loose)
      next fields loc tag) = some s := by
  rw [List.cons_append] at hnext
  simp -implicitDefEqProofs [node, hloc, htag, hnext]

mutual
theorem decodeTo_encode (depth : Nat) (s : Stmt) (hdepth : s.encode.depth ≤ depth) :
    decodeTo depth s.encode = some s := by
  obtain _ | depth := depth
  · cases s <;> simp [encode, node, Json.depth] at hdepth
  cases s with
  | assign l name value | ret l value | expr l e | pass l | continueLoop l | breakLoop l
  | fieldAssign l obj field value =>
      refine bind_node (by simp) (by simp) ?_
      simp
  | ifElse l cond onTrue onFalse =>
      simp only [encode, node, Json.depth, Json.fieldDepths, List.cons_append] at hdepth
      have honTrue := decodeTo_encodes depth onTrue (by omega)
      have honFalse := decodeTo_encodes depth onFalse (by omega)
      refine bind_node (by simp) (by simp) ?_
      simp [Json.list?_arr, honTrue, honFalse]
  | whileLoop l cond body | forLoop l elem iterable body =>
      simp only [encode, node, Json.depth, Json.fieldDepths, List.cons_append] at hdepth
      have hbody := decodeTo_encodes depth body (by omega)
      refine bind_node (by simp) (by simp) ?_
      simp [Json.list?_arr, hbody]

theorem decodeTo_encodes (depth : Nat) (ss : List Stmt)
    (hdepth : Json.depths (encodes ss) ≤ depth) :
    (encodes ss).mapM (decodeTo depth) = some ss := by
  cases ss with
  | nil => rfl
  | cons s ss =>
      simp only [encodes, Json.depths] at hdepth
      have hs := decodeTo_encode depth s (by omega)
      have hss := decodeTo_encodes depth ss (by omega)
      simp [encodes, hs, hss]
end

theorem decode_encode (s : Stmt) : decode s.encode = some s :=
  decodeTo_encode _ s (Nat.le_refl _)

theorem encodes_eq_map (ss : List Stmt) : encodes ss = ss.map encode := by
  induction ss with
  | nil => rfl
  | cons s ss ih => rw [encodes, ih, List.map_cons]

end Stmt

namespace Function

mutual
theorem decodeTo_encode (depth : Nat) (f : Function) (hdepth : f.encode.depth ≤ depth) :
    decodeTo depth f.encode = some f := by
  obtain ⟨name, params, ret, decls, body, children, loc⟩ := f
  obtain _ | depth := depth
  · simp [encode, Json.depth] at hdepth
  simp only [encode, Json.depth, Json.fieldDepths] at hdepth
  have hparams := Json.list?_map Parameter.decode_encode params
  have hdecls := Json.list?_map Decl.decode_encode decls
  have hbody := Json.list?_map Stmt.decode_encode body
  have hchildren := decodeTo_encodes depth children (by omega)
  rw [← Json.list?_arr] at hchildren
  simp -implicitDefEqProofs [encode, decodeTo, hparams, hdecls, Stmt.encodes_eq_map, hbody,
    hchildren]

theorem decodeTo_encodes (depth : Nat) (fs : List Function)
    (hdepth : Json.depths (encodes fs) ≤ depth) :
    (encodes fs).mapM (decodeTo depth) = some fs := by
  cases fs with
  | nil => rfl
  | cons f fs =>
      simp only [encodes, Json.depths] at hdepth
      have hf := decodeTo_encode depth f (by omega)
      have hfs := decodeTo_encodes depth fs (by omega)
      simp [encodes, hf, hfs]
end

theorem decode_encode (f : Function) : decode f.encode = some f :=
  decodeTo_encode _ f (Nat.le_refl _)

theorem encodes_eq_map (fs : List Function) : encodes fs = fs.map encode := by
  induction fs with
  | nil => rfl
  | cons f fs ih => rw [encodes, ih, List.map_cons]

end Function

theorem Class.decode_encode (c : Class) : decode c.encode = some c := by
  have hfields := Json.list?_map Decl.decode_encode c.fields
  have hmethods := Json.list?_map Function.decode_encode c.methods
  simp [encode, decode, hfields, Function.encodes_eq_map, hmethods]

theorem Program.decode_encode (p : Program) : decode p.encode = some p := by
  have hfunctions := Json.list?_map Function.decode_encode p.functions
  have hdecls := Json.list?_map Decl.decode_encode p.decls
  have hclasses := Json.list?_map Class.decode_encode p.classes
  have hstmts := Json.list?_map Stmt.decode_encode p.stmts
  simp [encode, decode, Function.encodes_eq_map, Stmt.encodes_eq_map, hfunctions, hdecls, hclasses,
    hstmts]

/-- Every value of the typed tree is read back as it was written, in both spellings. -/
theorem values_round_trip (spelling : Json.Spelling) :
    RoundTrips Ty.encode (Ty.decode spelling) ∧
      RoundTrips Literal.encode (Literal.decode spelling) ∧
      RoundTrips Expr.encode (Expr.decode spelling) ∧ RoundTrips Stmt.encode Stmt.decode ∧
      RoundTrips Decl.encode Decl.decode ∧ RoundTrips Parameter.encode Parameter.decode ∧
      RoundTrips Function.encode Function.decode ∧ RoundTrips Class.encode Class.decode ∧
      RoundTrips Program.encode Program.decode ∧ RoundTrips Location.encode Location.decode :=
  ⟨.of_reads (Ty.decode_encode spelling), .of_reads (Literal.decode_encode spelling),
    .of_reads (Expr.decode_encode spelling), .of_reads Stmt.decode_encode,
    .of_reads Decl.decode_encode, .of_reads Parameter.decode_encode,
    .of_reads Function.decode_encode, .of_reads Class.decode_encode,
    .of_reads Program.decode_encode, .of_reads Location.decode_encode⟩

end Tree

end Midend
