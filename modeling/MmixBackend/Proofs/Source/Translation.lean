import MmixBackend.Proofs.IR.Lowering
import MmixBackend.Proofs.Label
import MmixBackend.Proofs.Source.Layout
import MmixBackend.Source.Generation
import Mathlib.Tactic.Abel

/-!
# What the code of a program is

`Expr.Code t f e lo hi c` describes the code `c` that generation makes of the expression `e` inside
a function with the frame `f`, without a word about the order of steps: `t` are the tables of
resolution and layout, and the branches of the code take the labels numbered from `lo + 1` to `hi`.
Properties of generated code are proved by induction on the tree along this description.

Code is recorded under the number of its node. Other nodes have other numbers, so what has been
recorded for the body of a function is still there when all functions are done.

## Main statements

- `Generation.expr_code`: what generation returns for an expression is its code.
- `Generation.program_code`: after generation every function with a body has its code, and the
  labels in all this code are those that have been taken for it.
-/

namespace MmixBackend

namespace Source

open Generation

/-! ## §1 Code of the parts of a tree -/

/-- The code of a branch whose labels are numbered from `n + 1`. -/
def conditionalCode (n : Int) (test : IR.Expr) (yes no : IR.Stmt) : IR.Stmt :=
  .seq [.cjump test (.numbered (n + 1)) (.numbered (n + 2)), .label (.numbered (n + 1)), yes,
    .jump (.numbered (n + 3)), .label (.numbered (n + 2)), no, .label (.numbered (n + 3))]

/-- The code of a loop whose labels are numbered from `n + 1`. -/
def loopCode (n : Int) (test : IR.Expr) (body : IR.Stmt) : IR.Stmt :=
  .seq [.label (.numbered (n + 1)), .cjump test (.numbered (n + 2)) (.numbered (n + 3)),
    .label (.numbered (n + 2)), body, .jump (.numbered (n + 1)), .label (.numbered (n + 3))]

/-- The entity lies at the offset from a frame pointer or from the start of a record. -/
def Attributes.OffsetAt (t : Attributes) (id : NodeId) (offset : Word) : Prop :=
  ∃ size depth, t.accesses[id]? = some (.relative size offset depth)

/-- The code of an atom. -/
inductive AtomCode (t : Attributes) (m : Mark) (value : String) : AtomKind → IR.Expr → Prop
  | void : AtomCode t m value .void (.const 0)
  | ptr : AtomCode t m value .ptr (.const 0)
  | bool : AtomCode t m value .bool (.const (.ofBool (value = "true")))
  | char {c : IR.Expr} (h : charConstant value = .ok c) : AtomCode t m value .char c
  | int {n : Word} (h : Text.readWord (.fixed 10) value = .ok n) : AtomCode t m value .int (.const n)
  | str {data : StaticData} (h : t.strings[m.id]? = some data) :
      AtomCode t m value .str (.name data.label)

/-- The code of a name: the call of a function, or the place of a variable or parameter. -/
inductive NameCode (t : Attributes) (f : Frame) (m : Mark) : IR.Expr → Prop
  | call {fm : Mark} {name : String} {params : List Param} {type : TypeExpr} {body : Expr}
    {callee : Frame} (hbound : t.declaredAt[m.id]? = some (.fn fm name params type body))
    (hframe : t.frames[fm.id]? = some callee) :
      NameCode t f m (.call callee.label [0] [staticLink f callee])
  | static {d : Decl} {data : StaticData} (hbound : t.declaredAt[m.id]? = some d) (hvar : d.IsVariable)
      (haccess : t.accesses[d.id]? = some (.static data)) : NameCode t f m (.mem (.name data.label))
  | relative {d : Decl} {size offset depth : Word} (hbound : t.declaredAt[m.id]? = some d)
      (hvar : d.IsVariable) (haccess : t.accesses[d.id]? = some (.relative size offset depth)) :
      NameCode t f m (location (frameAddr f (f.depth - depth + 1).toInt.toNat) offset)

/-- The code of a cast, from that of its operand. -/
inductive CastCode (t : Attributes) (type : TypeExpr) (arg : IR.Expr) : IR.Expr → Prop
  | char {ty : Ty} (htype : t.isType[type.mark.id]? = some ty) (hchar : ty.isChar t.typeDefs = true) :
      CastCode t type arg (.binop .mod arg (.const 256))
  | other (h : ∀ ty, t.isType[type.mark.id]? = some ty → ty.isChar t.typeDefs = false) :
      CastCode t type arg arg

mutual

/-- The code of an expression. -/
def Expr.Code (t : Attributes) (f : Frame) : Expr → (lo hi : Int) → IR.Expr → Prop
  | .absent, _, _, _ => False
  | .atom m kind value, lo, hi, c => hi = lo ∧ AtomCode t m value kind c
  | .unary _ op arg, lo, hi, c => ∃ a, arg.Code t f lo hi a ∧ unary op a = .ok c
  | .deref _ arg, lo, hi, c => ∃ a, arg.Code t f lo hi a ∧ c = .mem a
  | .binary _ op fst snd, lo, hi, c => ∃ k a b o,
    fst.Code t f lo k a ∧ snd.Code t f k hi b ∧ binaryOp op = .ok o ∧ c = .binop o a b
  | .name m _, lo, hi, c => hi = lo ∧ NameCode t f m c
  | .index m array idx, lo, hi, c => ∃ k base i ty,
    array.Code t f lo k (.mem base) ∧ idx.Code t f k hi i ∧ t.ofType[m.id]? = some ty ∧
      c = .mem (.binop .add base (.binop .mul i (.const (t.sizeOf ty))))
  | .select _ record comp, lo, hi, c => ∃ base dm name type offset,
    record.Code t f lo hi (.mem base) ∧ t.declaredAt[comp.mark.id]? = some (.comp dm name type) ∧
      t.OffsetAt dm.id offset ∧ c = location base offset
  | .call m _ args, lo, hi, c => ∃ fm name params type body callee offs codes,
    t.declaredAt[m.id]? = some (.fn fm name params type body) ∧ t.frames[fm.id]? = some callee ∧
      params.length = args.length ∧ Expr.CodeAll t f args params lo hi offs codes ∧
      c = .call callee.label (0 :: offs) (staticLink f callee :: codes)
  | .block _ ss, lo, hi, c => ∃ codes, Stmt.CodeAll t f ss lo hi codes ∧ c = blockValue codes
  | .cast _ arg type, lo, hi, c => ∃ a, arg.Code t f lo hi a ∧ CastCode t type a c
  -- The functions of the block take their labels before those of the expression.
  | .scope _ _ body, lo, hi, c => ∃ k, lo ≤ k ∧ body.Code t f k hi c

/-- The offsets and the code of arguments. -/
def Expr.CodeAll (t : Attributes) (f : Frame) :
    List Expr → List Param → (lo hi : Int) → List Word → List IR.Expr → Prop
  | [], _, lo, hi, offs, cs => hi = lo ∧ offs = [] ∧ cs = []
  | arg :: args, p :: ps, lo, hi, offs, cs => ∃ k off c offs' cs',
    t.OffsetAt p.mark.id off ∧ arg.Code t f lo k c ∧ Expr.CodeAll t f args ps k hi offs' cs' ∧
      offs = off :: offs' ∧ cs = c :: cs'
  | _ :: _, [], _, _, _, _ => False

/-- The code of a statement; that of a missing one is empty. -/
def Stmt.Code (t : Attributes) (f : Frame) : Stmt → (lo hi : Int) → IR.Stmt → Prop
  | .absent, lo, hi, c => hi = lo ∧ c = .seq []
  | .eval _ e, lo, hi, c => ∃ a, e.Code t f lo hi a ∧ c = .eval a
  | .assign _ dst src, lo, hi, c => ∃ k a b,
    dst.Code t f lo k a ∧ src.Code t f k hi b ∧ c = .move a b
  | .cond _ test yes no, lo, hi, c => ∃ j k l a b b',
    test.Code t f lo j a ∧ yes.Code t f j k b ∧ no.Code t f k l b' ∧ hi = l + 3 ∧
      c = conditionalCode l a b b'
  | .loop _ test body, lo, hi, c => ∃ j k a b,
    test.Code t f lo j a ∧ body.Code t f j k b ∧ hi = k + 3 ∧ c = loopCode k a b

/-- The code of statements in order. -/
def Stmt.CodeAll (t : Attributes) (f : Frame) : List Stmt → (lo hi : Int) → List IR.Stmt → Prop
  | [], lo, hi, cs => hi = lo ∧ cs = []
  | s :: ss, lo, hi, cs => ∃ k c cs',
    s.Code t f lo k c ∧ Stmt.CodeAll t f ss k hi cs' ∧ cs = c :: cs'

end

/-- Every function with a body among the nodes has its code. -/
def FunctionsCoded (t : Attributes) (ns : List Node) (t' : Attributes) : Prop :=
  ∀ m name params type body, .decl (.fn m name params type body) ∈ ns → body ≠ .absent →
    ∃ f lo hi c, t.frames[m.id]? = some f ∧ t'.codeOf? body = some c ∧ body.Code t f lo hi c

/-- The labels in the code of a function. -/
def Attributes.codeLabels (t : Attributes) : Node → List Label
  | .decl (.fn _ _ _ _ body) => ((t.codeOf? body).map IR.Expr.labels).getD []
  | _ => []

/-- Every function with a body among the nodes has its code, and the labels in this code and the labels
`own` are those taken from `lo` to `hi`. -/
structure CodedWith (t : Attributes) (ns : List Node) (own : List Label) (lo hi : Int) (t' : Attributes) :
    Prop where
  functions : FunctionsCoded t ns t'
  labels : Label.Taken lo hi (own ++ ns.flatMap t'.codeLabels : List Label)

namespace CodedWith

variable {t t' : Attributes} {ns ns' : List Node} {own own' : List Label} {lo hi k : Int}

theorem nil (t t' : Attributes) (n : Int) : CodedWith t [] [] n n t' :=
  ⟨fun _ _ _ _ _ hmem => (List.not_mem_nil hmem).elim, .none n⟩

theorem append (h : CodedWith t ns own lo k t') (h' : CodedWith t ns' own' k hi t') :
    CodedWith t (ns ++ ns') (own ++ own') lo hi t' where
  functions m name params type body hmem := (List.mem_append.mp hmem).elim
    (h.functions m name params type body) (h'.functions m name params type body)
  labels := by
    refine (h.labels.add h'.labels).of_eq ?_
    simp only [List.flatMap_append, ← Multiset.coe_add]
    abel

/-- Nodes that are no functions add nothing to what is to be coded. -/
theorem others {others : List Node} (hothers : ∀ n ∈ others, ∀ m name params type body,
    n ≠ .decl (.fn m name params type body)) (h : CodedWith t ns own lo hi t') :
    CodedWith t (others ++ ns) own lo hi t' where
  functions m name params type body hmem := (List.mem_append.mp hmem).elim
    (fun hmem => absurd rfl (hothers _ hmem m name params type body))
      (h.functions m name params type body)
  labels := by
    have hnone : others.flatMap t'.codeLabels = [] := by
      refine List.flatMap_eq_nil_iff.mpr fun n hn => ?_
      unfold Attributes.codeLabels
      split
      · exact absurd rfl (hothers _ hn _ _ _ _ _)
      · rfl
    rw [List.flatMap_append, hnone]
    exact h.labels

theorem below {n : Node} (hn : ∀ m name params type body, n ≠ .decl (.fn m name params type body))
    (h : CodedWith t ns own lo hi t') : CodedWith t (Node.below (fun _ => true) n ns) own lo hi t' := by
  have hothers : CodedWith t ([n] ++ ns) own lo hi t' := h.others (List.forall_mem_singleton.mpr hn)
  exact hothers

/-- Code that has the labels of its parts in another order, and three that are taken behind the parts. -/
theorem branches (h : CodedWith t ns own lo k t') (hown : (own' : Multiset Label)
    = own + {Label.numbered (k + 1), Label.numbered (k + 2), Label.numbered (k + 3)}) :
    CodedWith t ns own' lo (k + 3) t' where
  functions := h.functions
  labels := by
    refine (h.labels.add (.three k)).of_eq ?_
    rw [← Multiset.coe_add, hown, ← Multiset.coe_add]
    abel

/-- A function owns the labels of its body. -/
theorem function {m : Mark} {name : String} {params : List Param} {type : TypeExpr}
    {body : Expr} {f : Frame} (hframe : t.frames[m.id]? = some f) {c : IR.Expr}
    (hcode : t'.codeOf? body = some c) {lo' hi' : Int} (hc : body.Code t f lo' hi' c)
    (h : CodedWith t ns c.labels lo hi t') :
    CodedWith t (Node.below (fun _ => true) (.decl (.fn m name params type body)) ns) [] lo hi t' where
  functions m' name' params' type' body' hmem hbody' := by
    rcases List.mem_cons.mp hmem with heq | hmem
    · cases heq
      exact ⟨f, lo', hi', c, hframe, hcode, hc⟩
    · exact h.functions m' name' params' type' body' hmem hbody'
  labels := by
    refine h.labels.of_eq ?_
    show ((List.flatMap t'.codeLabels (_ :: ns) : List Label) : Multiset Label) = _
    rw [List.flatMap_cons, Attributes.codeLabels, hcode]
    rfl

/-- A function without a body has no code. -/
theorem routine {m : Mark} {name : String} {params : List Param} {type : TypeExpr}
    (h : CodedWith t ns [] lo hi t') :
    CodedWith t (Node.below (fun _ => true) (.decl (.fn m name params type .absent)) ns) [] lo hi t' where
  functions m' name' params' type' body' hmem hbody' := by
    rcases List.mem_cons.mp hmem with heq | hmem
    · cases heq
      exact absurd rfl hbody'
    · exact h.functions m' name' params' type' body' hmem hbody'
  labels := h.labels

end CodedWith

/-! ## §2 How code is recorded -/

/-- The tables without the code in them. -/
def Attributes.withoutCode (t : Attributes) : Attributes := { t with exprCode := ∅, stmtCode := ∅ }

/-- What generating the code of the nodes with numbers from `lo` up to `hi` does to the workspace. -/
structure Workspace.Codes (lo hi : Nat) (w w' : Workspace) : Prop where
  tables : w'.attrs.withoutCode = w.attrs.withoutCode
  labels : w.supply.labels ≤ w'.supply.labels
  code : ∀ id : Nat, id < lo ∨ hi ≤ id → w'.attrs.exprCode[id]? = w.attrs.exprCode[id]?

/-- Generating the code of the nodes with numbers from `lo` up to `hi` makes `P` true of the tables,
as long as the code of these nodes is kept. -/
structure Workspace.Yields (lo hi : Nat) (w w' : Workspace) (P : Attributes → Prop) : Prop where
  grows : w.Codes lo hi w'
  holds : ∀ t : Attributes,
    (∀ id : Nat, lo ≤ id → id < hi → t.exprCode[id]? = w'.attrs.exprCode[id]?) → P t

namespace Workspace

variable {lo hi k : Nat} {w w' w'' : Workspace} {P Q : Attributes → Prop}

theorem Codes.refl (lo hi : Nat) (w : Workspace) : w.Codes lo hi w := ⟨rfl, Int.le_refl _, fun _ _ => rfl⟩

namespace Yields

theorem refl (lo hi : Nat) (w : Workspace) (h : ∀ t, P t) : w.Yields lo hi w P :=
  ⟨.refl lo hi w, fun t _ => h t⟩

theorem imp (h : w.Yields lo hi w' P) (hPQ : ∀ t, P t → Q t) : w.Yields lo hi w' Q :=
  ⟨h.grows, fun t ht => hPQ t (h.holds t ht)⟩

theorem widen {lo' hi' : Nat} (h : w.Yields lo hi w' P) (hlo : lo' ≤ lo) (hhi : hi ≤ hi') :
    w.Yields lo' hi' w' P where
  grows := { h.grows with code := fun id hid => h.grows.code id (by omega) }
  holds t ht := h.holds t fun id h₁ h₂ => ht id (by omega) (by omega)

/-- Parts with adjacent intervals, from left to right. -/
theorem next (h : w.Yields lo k w' P) (h' : w'.Yields k hi w'' Q) (hlo : lo ≤ k) (hhi : k ≤ hi) :
    w.Yields lo hi w'' fun t => P t ∧ Q t where
  grows :=
    { tables := h'.grows.tables.trans h.grows.tables
      labels := Int.le_trans h.grows.labels h'.grows.labels
      code := fun id hid => (h'.grows.code id (by omega)).trans (h.grows.code id (by omega)) }
  holds t ht := by
    refine ⟨h.holds t fun id h₁ h₂ => ?_, h'.holds t fun id h₁ h₂ => ht id (by omega) h₂⟩
    rw [ht id h₁ (by omega), h'.grows.code id (by omega)]

/-- Taking labels does not touch the tables. -/
theorem ofLabels (h : w.Yields lo hi w' P) (hattrs : w''.attrs = w'.attrs)
    (hlabels : w'.supply.labels ≤ w''.supply.labels) : w.Yields lo hi w'' P where
  grows :=
    { tables := hattrs ▸ h.grows.tables
      labels := Int.le_trans h.grows.labels hlabels
      code := hattrs ▸ h.grows.code }
  holds := hattrs ▸ h.holds

/-- Code is recorded for a node behind that of its parts. -/
theorem record (h : w.Yields (lo + 1) hi w' P) (hlo : lo < hi) {id : Nat} (hid : id = lo) (c : IR.Expr) :
    w.Yields lo hi { w' with attrs := { w'.attrs with exprCode := w'.attrs.exprCode.insert id c } }
      fun t => t.exprCode[id]? = some c ∧ P t := by
  subst hid
  refine ⟨⟨h.grows.tables, h.grows.labels, fun id' hid' => ?_⟩, fun t ht => ⟨?_, ?_⟩⟩
  · have hne : id ≠ id' := by omega
    refine .trans ?_ (h.grows.code id' (by omega))
    simp [Std.TreeMap.getElem?_insert, hne]
  · rw [ht id (Nat.le_refl _) hlo]
    exact Std.TreeMap.getElem?_insert_self
  · refine h.holds t fun id' h₁ h₂ => ?_
    have hne : id ≠ id' := by omega
    rw [ht id' (by omega) h₂]
    simp [Std.TreeMap.getElem?_insert, hne]

end Yields

end Workspace

namespace Generation

variable {t : Attributes} {w : Workspace} {lo hi : Nat}

/-! ## §3 Lookups -/

/-- The tables that the code is made from are those of the workspace. -/
structure Uses (t : Attributes) (w : Workspace) : Prop where
  tables : w.attrs.withoutCode = t.withoutCode

namespace Uses

theorem declaredAt (h : Uses t w) : w.attrs.declaredAt = t.declaredAt :=
  (congrArg Attributes.declaredAt h.tables :)

theorem ofType (h : Uses t w) : w.attrs.ofType = t.ofType := (congrArg Attributes.ofType h.tables :)

theorem isType (h : Uses t w) : w.attrs.isType = t.isType := (congrArg Attributes.isType h.tables :)

theorem typeDefs (h : Uses t w) : w.attrs.typeDefs = t.typeDefs :=
    (congrArg Attributes.typeDefs h.tables :)

theorem frames (h : Uses t w) : w.attrs.frames = t.frames := (congrArg Attributes.frames h.tables :)

theorem accesses (h : Uses t w) : w.attrs.accesses = t.accesses :=
    (congrArg Attributes.accesses h.tables :)

theorem strings (h : Uses t w) : w.attrs.strings = t.strings := (congrArg Attributes.strings h.tables :)

theorem mono (h : Uses t w) {w' : Workspace} (hgrows : w.Codes lo hi w') : Uses t w' :=
  ⟨hgrows.tables.trans h.tables⟩

end Uses

theorem frameOf_ensures (h : Uses t w) (id : NodeId) (name : String) :
    Ensures (frameOf id name) w fun f w' => w' = w ∧ t.frames[id]? = some f := by
  refine Pass.attrs_ensures ?_
  rw [h.frames]
  split
  · next f hf => exact .pure ⟨rfl, hf⟩
  · exact .throw _

theorem offsetOf_ensures (h : Uses t w) (id : NodeId) (name : String) :
    Ensures (offsetOf id name) w fun off w' => w' = w ∧ t.OffsetAt id off := by
  refine Pass.attrs_ensures ?_
  rw [h.accesses]
  split
  · next size offset depth ha => exact .pure ⟨rfl, size, depth, ha⟩
  · exact .throw _

theorem atom_ensures (h : Uses t w) (m : Mark) (kind : AtomKind) (value : String) :
    Ensures (atom m kind value) w fun c w' => w' = w ∧ AtomCode t m value kind c := by
  cases kind with
  | void => exact .pure ⟨rfl, .void⟩
  | ptr => exact .pure ⟨rfl, .ptr⟩
  | bool => exact .pure ⟨rfl, .bool⟩
  | char =>
    intro c w' hrun
    rw [atom] at hrun
    cases hc : charConstant value with
    | error fault =>
      rw [hc] at hrun
      cases hrun
    | ok c' =>
      rw [hc] at hrun
      cases hrun
      exact ⟨rfl, .char hc⟩
  | int =>
    rw [atom]
    split
    · next n hn => exact .pure ⟨rfl, .int hn⟩
    · exact .throw _
  | str =>
    refine Pass.attrs_ensures ?_
    -- Generation looks the label up in the table that the layout has filled.
    rw [h.strings]
    split
    · next data hdata => exact .pure ⟨rfl, .str hdata⟩
    · exact .throw _
  | unknown code => exact .throw _

theorem name_ensures (h : Uses t w) (frame : Frame) (m : Mark) (ident : String) :
    Ensures (name frame m ident) w fun c w' => w' = w ∧ NameCode t frame m c := by
  refine Pass.attrs_ensures ?_
  rw [h.declaredAt, h.accesses]
  cases hd : t.declaredAt[m.id]? with
  | none => exact .throw _
  | some d =>
    cases d with
    | fn fm fname params type body =>
      refine (frameOf_ensures h fm.id fname).bind fun callee w' hw' => ?_
      obtain ⟨rfl, hframe⟩ := hw'
      exact .pure ⟨rfl, .call hd hframe⟩
    | var dm dname type | par dm dname type =>
      dsimp only
      cases haccess : t.accesses[dm.id]? with
      | none => exact .throw _
      | some a =>
        cases a with
        | static data => exact .pure ⟨rfl, .static hd True.intro haccess⟩
        | relative size offset depth => exact .pure ⟨rfl, .relative hd True.intro haccess⟩
    | typ dm dname type | comp dm dname type => exact .throw _

theorem element_ensures (h : Uses t w) (m : Mark) (base idx : IR.Expr) :
    Ensures (element m base idx) w fun c w' => w' = w ∧ ∃ ty, t.ofType[m.id]? = some ty ∧
      c = .mem (.binop .add base (.binop .mul idx (.const (t.sizeOf ty)))) := by
  refine Pass.attrs_ensures ?_
  rw [h.ofType]
  split
  · next ty hty =>
    refine .pure ⟨rfl, ty, hty, ?_⟩
    rw [Attributes.sizeOf, Attributes.sizeOf, h.typeDefs]
  · exact .throw _

theorem component_ensures (h : Uses t w) (base : IR.Expr) (comp : CompName) :
    Ensures (component base comp) w fun c w' => w' = w ∧ ∃ dm name type offset,
      t.declaredAt[comp.mark.id]? = some (.comp dm name type) ∧ t.OffsetAt dm.id offset ∧
        c = location base offset := by
  refine Pass.attrs_ensures ?_
  rw [h.declaredAt]
  split
  · next dm name type hd =>
    refine (offsetOf_ensures h dm.id name).bind fun offset w' hw' => ?_
    obtain ⟨rfl, hoffset⟩ := hw'
    exact .pure ⟨rfl, dm, name, type, offset, hd, hoffset, rfl⟩
  · exact .throw _

theorem cast_ensures (h : Uses t w) (type : TypeExpr) (arg : IR.Expr) :
    Ensures (cast type arg) w fun c w' => w' = w ∧ CastCode t type arg c := by
  refine Pass.attrs_ensures ?_
  rw [h.isType, h.typeDefs]
  split
  · next ty hty =>
    cases hchar : ty.isChar t.typeDefs with
    | true => exact .pure ⟨rfl, .char hty hchar⟩
    | false =>
      refine .pure ⟨rfl, .other fun ty' hty' => ?_⟩
      rw [hty] at hty'
      cases hty'
      exact hchar
  · next hnone =>
    refine .pure ⟨rfl, .other fun ty hty => ?_⟩
    rw [hnone] at hty
    cases hty

theorem callee_ensures (h : Uses t w) (m : Mark) (ident : String) (args : Nat) :
    Ensures (callee m ident args) w fun r w' => w' = w ∧ r.2.2.length = args ∧ ∃ type body,
      t.declaredAt[m.id]? = some (.fn r.1 r.2.1 r.2.2 type body) := by
  refine Pass.attrs_ensures ?_
  rw [h.declaredAt]
  split
  · next fm fname params type body hd =>
    by_cases hargs : params.length = args
    · rw [if_pos hargs]
      exact .pure ⟨rfl, hargs, type, body, hd⟩
    · rw [if_neg hargs]
      exact .throw _
  · exact .throw _

theorem addressOf_eq_ok {e addr : IR.Expr} (h : addressOf e = .ok addr) : e = .mem addr := by
  cases e with
  | mem a =>
    cases h
    rfl
  | _ => cases h

/-! ## §4 Expressions, statements and declarations -/

/-! ### Labels of code -/

theorem labels_frameAddr (f : Frame) (hops : Nat) : (frameAddr f hops).labels = [] := by
  induction hops with
  | zero => rfl
  | succ hops ih => exact ih

theorem labels_location (base : IR.Expr) (offset : Word) : (location base offset).labels = base.labels :=
  List.append_nil _

theorem labels_atom {m : Mark} {kind : AtomKind} {value : String} {c : IR.Expr}
    (h : AtomCode t m value kind c) : c.labels = [] := by
  cases h with
  | char hchar =>
    unfold charConstant at hchar
    dsimp only at hchar
    split at hchar
    · cases hchar
      rfl
    · cases hchar
  | _ => rfl

theorem labels_name {f : Frame} {m : Mark} {c : IR.Expr} (h : NameCode t f m c) : c.labels = [] := by
  cases h with
  | call =>
    rw [IR.Expr.labels, IR.Expr.labelsAll, staticLink, labels_frameAddr]
    rfl
  | static => rfl
  | relative => rw [labels_location, labels_frameAddr]

theorem labels_unary {op : UnaryOp} {a c : IR.Expr} (h : unary op a = .ok c) : c.labels = a.labels := by
  cases op with
  | pos | neg | not =>
    cases h
    rfl
  | addr =>
    obtain rfl := addressOf_eq_ok h
    rfl
  | new | del =>
    cases h
    exact List.append_nil _
  | unknown code => cases h

theorem labels_cast {type : TypeExpr} {a c : IR.Expr} (h : CastCode t type a c) :
    c.labels = a.labels := by
  cases h with
  | char => exact List.append_nil _
  | other => rfl

theorem labelsAll_append (ss ss' : List IR.Stmt) :
    IR.Stmt.labelsAll (ss ++ ss') = IR.Stmt.labelsAll ss ++ IR.Stmt.labelsAll ss' := by
  induction ss with
  | nil => rfl
  | cons s ss ih => rw [List.cons_append, IR.Stmt.labelsAll, ih, IR.Stmt.labelsAll, List.append_assoc]

theorem labels_blockValue (ss : List IR.Stmt) : (blockValue ss).labels = IR.Stmt.labelsAll ss := by
  unfold blockValue
  split
  · next e hlast =>
    rw [IR.Expr.labels, IR.Stmt.labels]
    have hsplit := List.dropLast_append_getLast? _ hlast
    rw [← hsplit, labelsAll_append, hsplit]
    exact congrArg _ (List.append_nil _).symm
  · exact List.append_nil _

theorem labels_conditionalCode (n : Int) (test : IR.Expr) (yes no : IR.Stmt) :
    ((conditionalCode n test yes no).labels : Multiset Label) =
    (test.labels ++ yes.labels ++ no.labels : List Label)
      + {Label.numbered (n + 1), Label.numbered (n + 2), Label.numbered (n + 3)} := by
  simp only [conditionalCode, IR.Stmt.labels, IR.Stmt.labelsAll, List.append_nil, ← Multiset.coe_add,
    Multiset.coe_singleton, Multiset.insert_eq_cons, ← Multiset.singleton_add, Multiset.coe_nil]
  abel

theorem labels_loopCode (n : Int) (test : IR.Expr) (body : IR.Stmt) :
    ((loopCode n test body).labels : Multiset Label) = (test.labels ++ body.labels : List Label)
      + {Label.numbered (n + 1), Label.numbered (n + 2), Label.numbered (n + 3)} := by
  simp only [loopCode, IR.Stmt.labels, IR.Stmt.labelsAll, List.append_nil, ← Multiset.coe_add,
    Multiset.coe_singleton, Multiset.insert_eq_cons, ← Multiset.singleton_add, Multiset.coe_nil]
  abel

/-- What is known of an expression behind its generation. -/
structure ExprTranslated (t : Attributes) (f : Frame) (e : Expr) (lo hi : Nat)
    (w : Workspace) (c : IR.Expr) (w' : Workspace) : Prop where
  code : e.Code t f w.supply.labels w'.supply.labels c
  yields : w.Yields lo hi w' fun t' => t'.codeOf? e = some c ∧
    CodedWith t (e.walk fun _ => true) c.labels w.supply.labels w'.supply.labels t'

/-- Recording the code of an expression whose parts are done. -/
theorem setCode_ensures {f : Frame} {e : Expr} {m : Mark} {w w' : Workspace} {P : Attributes → Prop}
    {c : IR.Expr} (hmark : e.mark? = some m) (hid : m.id = lo) (hlo : lo < hi)
    (hparts : w.Yields (lo + 1) hi w' P) (hcode : e.Code t f w.supply.labels w'.supply.labels c)
    (hP : ∀ t', P t' →
      CodedWith t (e.walk fun _ => true) c.labels w.supply.labels w'.supply.labels t') :
    Ensures (setCode m c) w' (ExprTranslated t f e lo hi w) := by
  intro c' w'' hrun
  cases hrun
  refine ⟨hcode, (hparts.record hlo hid c).imp fun t' ht' => ⟨?_, hP t' ht'.2⟩⟩
  rw [Attributes.codeOf?, hmark]
  exact ht'.1

/-- What is known of a statement behind its generation. -/
structure StmtTranslated (t : Attributes) (f : Frame) (s : Stmt) (lo hi : Nat)
    (w : Workspace) (c : IR.Stmt) (w' : Workspace) : Prop where
  code : s.Code t f w.supply.labels w'.supply.labels c
  yields : w.Yields lo hi w'
    (CodedWith t (s.walk fun _ => true) c.labels w.supply.labels w'.supply.labels)

theorem setStmtCode_ensures {f : Frame} {s : Stmt} {m : Mark} {w w' : Workspace} {P : Attributes → Prop}
    {c : IR.Stmt} (hparts : w.Yields (lo + 1) hi w' P)
    (hcode : s.Code t f w.supply.labels w'.supply.labels c)
    (hP : ∀ t', P t' →
      CodedWith t (s.walk fun _ => true) c.labels w.supply.labels w'.supply.labels t') :
    Ensures (setStmtCode m c) w' (StmtTranslated t f s lo hi w) := by
  intro c' w'' hrun
  cases hrun
  have hall := (hparts.widen (Nat.le_succ lo) (Nat.le_refl hi)).imp hP
  exact ⟨hcode, ⟨hall.grows.tables, hall.grows.labels, hall.grows.code⟩, hall.holds⟩

theorem conditional_ensures (test : IR.Expr) (yes no : IR.Stmt) :
    Ensures (Pass.withSupply (conditional test yes no)) w fun c w' =>
      c = conditionalCode w.supply.labels test yes no ∧ w'.attrs = w.attrs ∧
        w'.supply.labels = w.supply.labels + 3 := by
  intro c w' hrun
  cases hrun
  refine ⟨?_, rfl, ?_⟩
  · show _ = conditionalCode w.supply.labels test yes no
    rw [conditionalCode, show w.supply.labels + 2 = w.supply.labels + 1 + 1 by omega,
      show w.supply.labels + 3 = w.supply.labels + 1 + 1 + 1 by omega]
    rfl
  · show w.supply.labels + 1 + 1 + 1 = _
    omega

theorem whileLoop_ensures (test : IR.Expr) (body : IR.Stmt) :
    Ensures (Pass.withSupply (whileLoop test body)) w fun c w' =>
      c = loopCode w.supply.labels test body ∧ w'.attrs = w.attrs ∧
        w'.supply.labels = w.supply.labels + 3 := by
  intro c w' hrun
  cases hrun
  refine ⟨?_, rfl, ?_⟩
  · show _ = loopCode w.supply.labels test body
    rw [loopCode, show w.supply.labels + 2 = w.supply.labels + 1 + 1 by omega,
      show w.supply.labels + 3 = w.supply.labels + 1 + 1 + 1 by omega]
    rfl
  · show w.supply.labels + 1 + 1 + 1 = _
    omega

mutual

/-- **What generation returns for an expression is its code**, and the functions inside have theirs. -/
theorem expr_code : ∀ (e : Expr) {f : Frame} {w : Workspace} {lo hi : Nat}, e.Numbered lo hi → Uses t w →
    Ensures (expr f e) w (ExprTranslated t f e lo hi w)
  | .absent, _, _, _, _, _, _ => by
    rw [expr]
    exact .throw _
  | .atom m kind value, f, w, lo, hi, ⟨hid, hhi⟩, huses => by
    rw [expr]
    refine (atom_ensures huses m kind value).bind fun c w' hc => ?_
    obtain ⟨rfl, hc⟩ := hc
    refine setCode_ensures rfl hid (by omega) (.refl _ _ _ fun _ => True.intro) ⟨rfl, hc⟩ fun t' _ => ?_
    -- An atom's code has no labels, and no function is declared below it.
    rw [Expr.walk, labels_atom hc]
    exact .below (by simp) (.nil t t' _)
  | .unary m op arg, f, w, lo, hi, ⟨hid, hnum⟩, huses => by
    have hlo := arg.le_of_numbered hnum
    rw [expr]
    refine (expr_code arg hnum huses).bind fun a w₁ harg => ?_
    -- An operator without code stops the run, and then nothing is claimed.
    refine .ofExcept_bind fun c hc => ?_
    refine setCode_ensures rfl hid (by omega) harg.yields ⟨a, harg.code, hc⟩ fun t' ht' => ?_
    rw [Expr.walk, labels_unary hc]
    exact ht'.2.below (by simp)
  | .deref m arg, f, w, lo, hi, ⟨hid, hnum⟩, huses => by
    have hlo := arg.le_of_numbered hnum
    rw [expr]
    refine (expr_code arg hnum huses).bind fun a w₁ harg => ?_
    refine setCode_ensures rfl hid (by omega) harg.yields ⟨a, harg.code, rfl⟩ fun t' ht' => ?_
    rw [Expr.walk]
    exact ht'.2.below (by simp)
  | .binary m op fst snd, f, w, lo, hi, ⟨hid, k, hnum₁, hnum₂⟩, huses => by
    have hlo := fst.le_of_numbered hnum₁
    have hhi := snd.le_of_numbered hnum₂
    rw [expr]
    refine (expr_code fst hnum₁ huses).bind fun a w₁ hfst => ?_
    -- The second operand is generated with the labels that the first has left.
    refine (expr_code snd hnum₂ (huses.mono hfst.yields.grows)).bind fun b w₂ hsnd => ?_
    refine .ofExcept_bind fun o ho => ?_
    refine setCode_ensures rfl hid (by omega) (hfst.yields.next hsnd.yields hlo hhi)
      ⟨_, a, b, o, hfst.code, hsnd.code, ho, rfl⟩ fun t' ht' => ?_
    -- The labels of the code are those of the first operand and then those of the second, and the
    -- functions below the node come in the same order.
    rw [Expr.walk]
    exact (ht'.1.2.append ht'.2.2).below (by simp)
  | .name m ident, f, w, lo, hi, ⟨hid, hhi⟩, huses => by
    rw [expr]
    refine (name_ensures huses f m ident).bind fun c w' hc => ?_
    obtain ⟨rfl, hc⟩ := hc
    refine setCode_ensures rfl hid (by omega) (.refl _ _ _ fun _ => True.intro) ⟨rfl, hc⟩ fun t' _ => ?_
    rw [Expr.walk, labels_name hc]
    exact .below (by simp) (.nil t t' _)
  | .index m array idx, f, w, lo, hi, ⟨hid, k, hnum₁, hnum₂⟩, huses => by
    have hlo := array.le_of_numbered hnum₁
    have hhi := idx.le_of_numbered hnum₂
    rw [expr]
    refine (expr_code array hnum₁ huses).bind fun a w₁ harray => ?_
    -- The array's code is a place in memory; indexing goes on with its address.
    refine .ofExcept_bind fun base hbase => ?_
    obtain rfl := addressOf_eq_ok hbase
    have huses₁ := huses.mono harray.yields.grows
    refine (expr_code idx hnum₂ huses₁).bind fun i w₂ hidx => ?_
    refine (element_ensures (huses₁.mono hidx.yields.grows) m base i).bind fun c w' hc => ?_
    obtain ⟨rfl, ty, hty, rfl⟩ := hc
    refine setCode_ensures rfl hid (by omega) (harray.yields.next hidx.yields hlo hhi)
      ⟨_, base, i, ty, harray.code, hidx.code, hty, rfl⟩ fun t' ht' => ?_
    rw [Expr.walk]
    refine .below (by simp) ?_
    rw [IR.Expr.labels, IR.Expr.labels, IR.Expr.labels, IR.Expr.labels, List.append_nil]
    exact ht'.1.2.append ht'.2.2
  | .select m record comp, f, w, lo, hi, ⟨hid, k, hnum, _, hhi⟩, huses => by
    have hlo := record.le_of_numbered hnum
    rw [expr]
    refine (expr_code record hnum huses).bind fun a w₁ hrecord => ?_
    refine .ofExcept_bind fun base hbase => ?_
    obtain rfl := addressOf_eq_ok hbase
    refine (component_ensures (huses.mono hrecord.yields.grows) base comp).bind fun c w' hc => ?_
    obtain ⟨rfl, dm, name, type, offset, hbound, hoffset, rfl⟩ := hc
    refine setCode_ensures rfl hid (by omega) (hrecord.yields.widen (Nat.le_refl _) (hhi ▸ Nat.le_succ k))
      ⟨base, dm, name, type, offset, hrecord.code, hbound, hoffset, rfl⟩ fun t' ht' => ?_
    rw [Expr.walk, labels_location]
    refine .below (by simp) ?_
    -- The name of the component is a node below this one that declares nothing.
    have hcomp : CodedWith t [.compName comp] [] w'.supply.labels w'.supply.labels t' :=
      .below (by simp) (.nil t t' _)
    rw [← List.append_nil base.labels]
    exact CodedWith.append ht'.2 hcomp
  | .call m ident args, f, w, lo, hi, ⟨hid, hnum⟩, huses => by
    have hlo := Expr.le_of_numberedAll args hnum
    rw [expr]
    refine (callee_ensures huses m ident args.length).bind fun r w' hr => ?_
    obtain ⟨rfl, hlength, type, body, hbound⟩ := hr
    refine (frameOf_ensures huses r.1.id r.2.1).bind fun called w' hcalled => ?_
    obtain ⟨rfl, hframe⟩ := hcalled
    refine (arguments_code args hnum huses hlength).bind fun rs w₁ hrs => ?_
    refine setCode_ensures rfl hid (by omega) hrs.2
      ⟨r.1, r.2.1, r.2.2, type, body, called, rs.1, rs.2, hbound, hframe, hlength, hrs.1, rfl⟩
      fun t' ht' => ?_
    -- The static link is computed from the frame alone and has no labels.
    rw [Expr.walk, IR.Expr.labels, IR.Expr.labelsAll, staticLink, labels_frameAddr]
    exact ht'.below (by simp)
  | .block m ss, f, w, lo, hi, ⟨hid, hnum⟩, huses => by
    have hlo := Stmt.le_of_numberedAll ss hnum
    rw [expr]
    refine (stmts_code ss hnum huses).bind fun codes w₁ hss => ?_
    refine setCode_ensures rfl hid (by omega) hss.2 ⟨codes, hss.1, rfl⟩ fun t' ht' => ?_
    rw [Expr.walk, labels_blockValue]
    exact ht'.below (by simp)
  | .cast m arg type, f, w, lo, hi, ⟨hid, k, hnum, _, hhi⟩, huses => by
    have hlo := arg.le_of_numbered hnum
    rw [expr]
    refine (expr_code arg hnum huses).bind fun a w₁ harg => ?_
    refine (cast_ensures (huses.mono harg.yields.grows) type a).bind fun c w' hc => ?_
    obtain ⟨rfl, hc⟩ := hc
    refine setCode_ensures rfl hid (by omega) (harg.yields.widen (Nat.le_refl _) (hhi ▸ Nat.le_succ k))
      ⟨a, harg.code, hc⟩ fun t' ht' => ?_
    rw [Expr.walk, labels_cast hc]
    exact ht'.2.below (by simp)
  | .scope m ds body, f, w, lo, hi, ⟨hid, k, hnum₁, hnum₂⟩, huses => by
    have hlo := Decl.le_of_numberedAll ds hnum₁
    have hhi := body.le_of_numbered hnum₂
    rw [expr]
    -- The functions of the block take their labels before its expression does.
    refine (decls_code ds hnum₁ huses).bind fun _ w₁ hds => ?_
    refine (expr_code body hnum₂ (huses.mono hds.grows)).bind fun c w₂ hbody => ?_
    refine setCode_ensures rfl hid (by omega) (hds.next hbody.yields hlo hhi)
      ⟨_, hds.grows.labels, hbody.code⟩ fun t' ht' => ?_
    rw [Expr.walk]
    exact (ht'.1.append ht'.2.2).below (by simp)

theorem arguments_code : ∀ (es : List Expr) {f : Frame} {w : Workspace} {ps : List Param} {lo hi : Nat},
    Expr.NumberedAll es lo hi → Uses t w → ps.length = es.length →
    Ensures (arguments f ps es) w fun r w' =>
      Expr.CodeAll t f es ps w.supply.labels w'.supply.labels r.1 r.2 ∧
        w.Yields lo hi w' (CodedWith t (Expr.walkAll (fun _ => true) es) (IR.Expr.labelsAll r.2)
          w.supply.labels w'.supply.labels)
  | [], _, w, _, lo, hi, _, _, _ => by
    rw [arguments, Expr.walkAll]
    exact .pure ⟨⟨rfl, rfl, rfl⟩, .refl lo hi w fun t' => .nil t t' _⟩
  | _ :: _, _, _, [], _, _, _, _, hlength => by cases hlength
  | e :: es, f, w, p :: ps, lo, hi, ⟨k, hnum₁, hnum₂⟩, huses, hlength => by
    rw [arguments, Expr.walkAll]
    refine (offsetOf_ensures huses p.mark.id p.name).bind fun off w' hoff => ?_
    obtain ⟨rfl, hoff⟩ := hoff
    refine (expr_code e hnum₁ huses).bind fun c w₁ he => ?_
    refine (arguments_code es hnum₂ (huses.mono he.yields.grows) (Nat.succ.inj hlength)).bind
      fun r w₂ hr => .pure ?_
    have hall := he.yields.next hr.2 (e.le_of_numbered hnum₁) (Expr.le_of_numberedAll es hnum₂)
    exact ⟨⟨_, off, c, r.1, r.2, hoff, he.code, hr.1, rfl, rfl⟩,
      hall.imp fun t' ht' => ht'.1.2.append ht'.2⟩

theorem stmt_code : ∀ (s : Stmt) {f : Frame} {w : Workspace} {lo hi : Nat}, s.Numbered lo hi → Uses t w →
    Ensures (stmt f s) w (StmtTranslated t f s lo hi w)
  | .absent, _, _, _, _, _, _ => by
    rw [stmt]
    exact .throw _
  | .eval m e, f, w, lo, hi, ⟨_, hnum⟩, huses => by
    rw [stmt]
    refine (expr_code e hnum huses).bind fun c w₁ he => ?_
    refine setStmtCode_ensures he.yields ⟨c, he.code, rfl⟩ fun t' ht' => ?_
    rw [Stmt.walk]
    exact ht'.2.below (by simp)
  | .assign m dst src, f, w, lo, hi, ⟨_, k, hnum₁, hnum₂⟩, huses => by
    have hlo := dst.le_of_numbered hnum₁
    have hhi := src.le_of_numbered hnum₂
    rw [stmt]
    refine (expr_code dst hnum₁ huses).bind fun a w₁ hdst => ?_
    refine (expr_code src hnum₂ (huses.mono hdst.yields.grows)).bind fun b w₂ hsrc => ?_
    refine setStmtCode_ensures (hdst.yields.next hsrc.yields hlo hhi)
      ⟨_, a, b, hdst.code, hsrc.code, rfl⟩ fun t' ht' => ?_
    rw [Stmt.walk]
    exact (ht'.1.2.append ht'.2.2).below (by simp)
  | .cond m test yes no, f, w, lo, hi, ⟨_, j, k, hnum₁, hnum₂, hnum₃⟩, huses => by
    have hj := test.le_of_numbered hnum₁
    have hk := yes.le_of_numbered hnum₂
    have hhi := no.le_of_numbered hnum₃
    -- A missing `else` generates nothing, and its code is empty.
    by_cases hno : no = .absent
    · subst hno
      rw [stmt]
      refine (expr_code test hnum₁ huses).bind fun a w₁ htest => ?_
      refine (stmt_code yes hnum₂ (huses.mono htest.yields.grows)).bind fun b w₂ hyes => ?_
      refine (conditional_ensures a b (.seq [])).bind fun c w₃ hc => ?_
      obtain ⟨rfl, hattrs, hlabels⟩ := hc
      -- The labels of the conditional come after those of its parts.
      have hparts := ((htest.yields.next hyes.yields hj hk).widen (Nat.le_refl _) hhi).ofLabels hattrs
        (by omega)
      refine setStmtCode_ensures hparts
        ⟨_, _, _, a, b, .seq [], htest.code, hyes.code, ⟨rfl, rfl⟩, hlabels, rfl⟩ fun t' ht' => ?_
      rw [Stmt.walk, Stmt.walk, List.append_nil, hlabels]
      refine .below (by simp) ((ht'.1.2.append ht'.2).branches ?_)
      simpa [IR.Stmt.labels, IR.Stmt.labelsAll] using labels_conditionalCode w₂.supply.labels a b
        (.seq [])
    · rw [stmt]
      · refine (expr_code test hnum₁ huses).bind fun a w₁ htest => ?_
        have huses₁ := huses.mono htest.yields.grows
        refine (stmt_code yes hnum₂ huses₁).bind fun b w₂ hyes => ?_
        refine (stmt_code no hnum₃ (huses₁.mono hyes.yields.grows)).bind fun b' w₃ hno => ?_
        refine (conditional_ensures a b b').bind fun c w₄ hc => ?_
        obtain ⟨rfl, hattrs, hlabels⟩ := hc
        have hparts := ((htest.yields.next hyes.yields hj hk).next hno.yields (Nat.le_trans hj hk)
          hhi).ofLabels hattrs (by omega)
        refine setStmtCode_ensures hparts
          ⟨_, _, _, a, b, b', htest.code, hyes.code, hno.code, hlabels, rfl⟩ fun t' ht' => ?_
        rw [Stmt.walk, hlabels]
        refine .below (by simp) (((ht'.1.1.2.append ht'.1.2).append ht'.2).branches ?_)
        exact labels_conditionalCode w₃.supply.labels a b b'
      · exact hno
  | .loop m test body, f, w, lo, hi, ⟨_, k, hnum₁, hnum₂⟩, huses => by
    have hlo := test.le_of_numbered hnum₁
    have hhi := body.le_of_numbered hnum₂
    rw [stmt]
    refine (expr_code test hnum₁ huses).bind fun a w₁ htest => ?_
    refine (stmt_code body hnum₂ (huses.mono htest.yields.grows)).bind fun b w₂ hbody => ?_
    refine (whileLoop_ensures a b).bind fun c w₃ hc => ?_
    obtain ⟨rfl, hattrs, hlabels⟩ := hc
    -- The labels of the loop are taken last, behind those of the test and the body.
    have hparts := (htest.yields.next hbody.yields hlo hhi).ofLabels hattrs (by omega)
    refine setStmtCode_ensures hparts ⟨_, _, a, b, htest.code, hbody.code, hlabels, rfl⟩ fun t' ht' => ?_
    rw [Stmt.walk, hlabels]
    exact .below (by simp) ((ht'.1.2.append ht'.2).branches (labels_loopCode w₂.supply.labels a b))

theorem stmts_code : ∀ (ss : List Stmt) {f : Frame} {w : Workspace} {lo hi : Nat},
    Stmt.NumberedAll ss lo hi → Uses t w →
    Ensures (stmts f ss) w fun cs w' => Stmt.CodeAll t f ss w.supply.labels w'.supply.labels cs ∧
      w.Yields lo hi w' (CodedWith t (Stmt.walkAll (fun _ => true) ss) (IR.Stmt.labelsAll cs)
        w.supply.labels w'.supply.labels)
  | [], _, w, lo, hi, _, _ => by
    rw [stmts, Stmt.walkAll]
    exact .pure ⟨⟨rfl, rfl⟩, .refl lo hi w fun t' => .nil t t' _⟩
  | s :: ss, f, w, lo, hi, ⟨k, hnum₁, hnum₂⟩, huses => by
    rw [stmts, Stmt.walkAll]
    refine (stmt_code s hnum₁ huses).bind fun c w₁ hs => ?_
    refine (stmts_code ss hnum₂ (huses.mono hs.yields.grows)).bind fun cs w₂ hss => .pure ?_
    have hall := hs.yields.next hss.2 (s.le_of_numbered hnum₁) (Stmt.le_of_numberedAll ss hnum₂)
    exact ⟨⟨_, c, cs, hs.code, hss.1, rfl⟩, hall.imp fun t' ht' => ht'.1.append ht'.2⟩

theorem decls_code : ∀ (ds : List Decl) {w : Workspace} {lo hi : Nat}, Decl.NumberedAll ds lo hi →
    Uses t w → Ensures (decls ds) w fun _ w' =>
      w.Yields lo hi w' (CodedWith t (Decl.walkAll (fun _ => true) ds) [] w.supply.labels
        w'.supply.labels)
  | [], w, lo, hi, _, _ => by
    rw [decls, Decl.walkAll]
    exact .pure (.refl lo hi w fun t' => .nil t t' _)
  | .fn m name ps type body :: ds, w, lo, hi, ⟨k, ⟨_, j, hparams, _, hnum₁⟩, hnum₂⟩, huses => by
    have hj := Param.le_of_numberedAll hparams
    have hk := body.le_of_numbered hnum₁
    have hhi := Decl.le_of_numberedAll ds hnum₂
    have hparamNodes : ∀ n ∈ ps.map fun p => Node.decl p.decl, ∀ m name params type body,
        n ≠ .decl (.fn m name params type body) := by
      intro n hn m name params type body heq
      obtain ⟨p, -, rfl⟩ := List.mem_map.mp hn
      cases heq
    rw [decls]
    refine (frameOf_ensures huses m.id name).bind fun f w' hf => ?_
    obtain ⟨rfl, hframe⟩ := hf
    -- Behind the body the other declarations are generated.
    have hrest : ∀ (w₁ : Workspace), w'.Yields (j + 1) k w₁ (fun t' => CodedWith t
        (Decl.walk (fun _ => true) (.fn m name ps type body)) [] w'.supply.labels w₁.supply.labels t') →
        Ensures (decls ds) w₁ fun _ w₂ => w'.Yields lo hi w₂
          (CodedWith t (Decl.walkAll (fun _ => true) (.fn m name ps type body :: ds)) []
            w'.supply.labels w₂.supply.labels) := by
      intro w₁ hbody
      refine (decls_code ds hnum₂ (huses.mono hbody.grows)).imp fun _ w₂ hds => ?_
      have hall := (hbody.widen (Nat.le_trans (Nat.le_succ lo) (Nat.le_succ_of_le hj))
        (Nat.le_refl k)).next hds (by omega) hhi
      refine hall.imp fun t' ht' => ?_
      rw [Decl.walkAll]
      exact ht'.1.append ht'.2
    -- A function without a body has no code of its own and takes no labels.
    by_cases habsent : body = .absent
    · subst habsent
      refine hrest w' (.refl _ _ _ fun t' => ?_)
      rw [Decl.walk, Expr.walk]
      exact ((CodedWith.nil t t' _).others hparamNodes).routine
    · have hbody := (expr_code (f := f) body hnum₁ huses).bind (f := fun _ => decls ds)
        fun c w₁ hbody => hrest w₁ (hbody.yields.imp fun t' ht' => by
          rw [Decl.walk]
          exact (ht'.2.others hparamNodes).function hframe ht'.1 hbody.code)
      cases body with
      | absent => exact absurd rfl habsent
      | _ => exact hbody
  | .var m name type :: ds, w, lo, hi, ⟨k, ⟨_, _, hk⟩, hnum⟩, huses
  | .typ m name type :: ds, w, lo, hi, ⟨k, ⟨_, _, hk⟩, hnum⟩, huses
  | .par m name type :: ds, w, lo, hi, ⟨k, ⟨_, _, hk⟩, hnum⟩, huses
  | .comp m name type :: ds, w, lo, hi, ⟨k, ⟨_, _, hk⟩, hnum⟩, huses => by
    have hhi := Decl.le_of_numberedAll ds hnum
    rw [decls, Decl.walkAll, Decl.walk]
    · refine (decls_code ds hnum huses).imp fun _ w₁ hds => ?_
      refine (hds.widen (by omega) (Nat.le_refl hi)).imp fun t' ht' => ?_
      exact ht'.below (by simp)
    · simp

end

/-- **Generation gives every function of a program with a body its code**, and changes nothing that the
code was made from. Each label that it takes stands in one place of this code. -/
theorem program_code {p : Program} {hi : Nat} (hnum : Decl.NumberedAll p.decls 1 hi) :
    Ensures (program p) w fun _ w' => w'.attrs.withoutCode = w.attrs.withoutCode ∧
      CodedWith w.attrs (Decl.walkAll (fun _ => true) p.decls) [] w.supply.labels
        w'.supply.labels w'.attrs :=
  (decls_code p.decls hnum ⟨rfl⟩).imp fun _ w' h => ⟨h.grows.tables, h.holds w'.attrs fun _ _ _ => rfl⟩

end Generation

end Source

end MmixBackend
