import MmixBackend.Proofs.Source.Layout

/-!
# Where the layout puts everything

What a function needs can be read off its tree: `Expr.needs` computes it, and `Expr.Arranged` says
for every node of a tree where it lies if the function has needed `n` so far. A local variable lies
below the locals before it, a parameter above those before it, and a nested function has a frame
with what its own body needs.

## Main statements

- `Layout.expr_arranged`: an expression is laid out so, and what it needs is `Expr.needs`.
- `Layout.program_arranged`: the same for the declarations of a program.
-/

namespace MmixBackend.Source

open Layout

/-! ## §1 What functions need -/

/-- The bytes of a declared variable or parameter. -/
def Attributes.declBytes (t : Attributes) (id : NodeId) : Word := t.sizeOf (t.declType[id]?.getD .void)

/-- The bytes of arguments, added to those before them. -/
def Attributes.argBytes (t : Attributes) : (size : Word) → List Expr → Word
  | size, [] => size
  | size, e :: es => t.argBytes (size + t.sizeOf ((t.typeOf? e).getD .void)) es

/-- Makes room for a local variable. -/
def Layout.Needs.withLocal (n : Needs) (size : Word) : Needs :=
  if n.isGlobal then n else { n with locsSize := n.locsSize + size }

/-- Makes room for a function that is called by its name alone. -/
def Layout.Needs.forName (t : Attributes) (n : Needs) (id : NodeId) : Needs :=
  match t.declaredAt[id]? with
  | some (.fn ..) => n.forCall Word.byteSize
  | _ => n

mutual

/-- What a function needs behind an expression. -/
def Expr.needs (t : Attributes) : Expr → Needs → Needs
  | .absent, n | .atom .., n => n
  | .unary _ op arg, n =>
    if op = .new ∨ op = .del then (arg.needs t n).forCall (2 * Word.byteSize) else arg.needs t n
  | .deref _ arg, n | .select _ arg _, n | .cast _ arg _, n => arg.needs t n
  | .binary _ _ fst snd, n | .index _ fst snd, n => snd.needs t (fst.needs t n)
  | .name m _, n => n.forName t m.id
  | .call _ _ args, n => (Expr.needsAll t args n).forCall (t.argBytes Word.byteSize args)
  | .block _ ss, n => Stmt.needsAll t ss n
  | .scope _ ds body, n => body.needs t (Decl.needsAll t ds n)

/-- What a function needs behind arguments, the room for their call apart. -/
def Expr.needsAll (t : Attributes) : List Expr → Needs → Needs
  | [], n => n
  | e :: es, n => Expr.needsAll t es (e.needs t n)

/-- What a function needs behind a statement. -/
def Stmt.needs (t : Attributes) : Stmt → Needs → Needs
  | .absent, n => n
  | .eval _ e, n => e.needs t n
  | .assign _ dst src, n => src.needs t (dst.needs t n)
  | .cond _ test yes no, n => no.needs t (yes.needs t (test.needs t n))
  | .loop _ test body, n => body.needs t (test.needs t n)

/-- What a function needs behind statements. -/
def Stmt.needsAll (t : Attributes) : List Stmt → Needs → Needs
  | [], n => n
  | s :: ss, n => Stmt.needsAll t ss (s.needs t n)

/-- What a function needs behind the declarations of a block. -/
def Decl.needsAll (t : Attributes) : List Decl → Needs → Needs
  | [], n => n
  | .var m _ _ :: ds, n => Decl.needsAll t ds (n.withLocal (t.declBytes m.id))
  | _ :: ds, n => Decl.needsAll t ds n

end

/-! ## §2 Where nodes lie -/

/-- A variable lies at its label or below the locals before it. -/
def Layout.Needs.access (n : Needs) (name : String) (size : Word) : Access :=
  if n.isGlobal then .static { label := .global name, size, init := none }
  else .relative size (-(n.locsSize + size)) n.depth

/-- Parameters lie one above the other. -/
def Param.ArrangedAll (t t' : Attributes) (depth : Word) : List Param → (before : Word) → Prop
  | [], _ => True
  | p :: ps, before =>
    t'.accesses[p.mark.id]? =
        some (.relative (t.declBytes p.mark.id) (before + t.declBytes p.mark.id) depth) ∧
      Param.ArrangedAll t t' depth ps (before + t.declBytes p.mark.id)

mutual

/-- The nodes of an expression lie in the tables `t'` where the layout puts them, if the function
has needed `n` before. The tables of resolution are `t`. -/
def Expr.Arranged (t t' : Attributes) : Expr → Needs → Prop
  | .absent, _ | .name .., _ => True
  | .atom m kind value, _ => kind = .str → ∃ label,
    t'.strings[m.id]? = some { label, size := stringSize value, init := some value }
  | .unary _ _ arg, n | .deref _ arg, n | .select _ arg _, n | .cast _ arg _, n => arg.Arranged t t' n
  | .binary _ _ fst snd, n | .index _ fst snd, n =>
    fst.Arranged t t' n ∧ snd.Arranged t t' (fst.needs t n)
  | .call _ _ args, n => Expr.ArrangedAll t t' args n
  | .block _ ss, n => Stmt.ArrangedAll t t' ss n
  | .scope _ ds body, n => Decl.ArrangedAll t t' ds n ∧ body.Arranged t t' (Decl.needsAll t ds n)

/-- The same for arguments. -/
def Expr.ArrangedAll (t t' : Attributes) : List Expr → Needs → Prop
  | [], _ => True
  | e :: es, n => e.Arranged t t' n ∧ Expr.ArrangedAll t t' es (e.needs t n)

/-- The same for a statement. -/
def Stmt.Arranged (t t' : Attributes) : Stmt → Needs → Prop
  | .absent, _ => True
  | .eval _ e, n => e.Arranged t t' n
  | .assign _ dst src, n => dst.Arranged t t' n ∧ src.Arranged t t' (dst.needs t n)
  | .cond _ test yes no, n =>
    test.Arranged t t' n ∧ yes.Arranged t t' (test.needs t n) ∧
      no.Arranged t t' (yes.needs t (test.needs t n))
  | .loop _ test body, n => test.Arranged t t' n ∧ body.Arranged t t' (test.needs t n)

/-- The same for statements. -/
def Stmt.ArrangedAll (t t' : Attributes) : List Stmt → Needs → Prop
  | [], _ => True
  | s :: ss, n => s.Arranged t t' n ∧ Stmt.ArrangedAll t t' ss (s.needs t n)

/-- The same for a declaration. A function has a frame with what its body needs. -/
def Decl.Arranged (t t' : Attributes) : Decl → Needs → Prop
  | .fn m name ps _ body, n =>
    (∃ label fp rv, (n.isGlobal = true → label = .global name) ∧
      t'.frames[m.id]? = some
        { label, depth := n.depth, locsSize := (body.needs t { depth := n.depth + 1 }).locsSize,
          argsSize := (body.needs t { depth := n.depth + 1 }).argsSize, fp, rv }) ∧
      Param.ArrangedAll t t' (n.depth + 1) ps 0 ∧ body.Arranged t t' { depth := n.depth + 1 }
  | .var m name _, n => t'.accesses[m.id]? = some (n.access name (t.declBytes m.id))
  | .typ .., _ => True
  | .par .., _ | .comp .., _ => False

/-- The same for the declarations of a block. -/
def Decl.ArrangedAll (t t' : Attributes) : List Decl → Needs → Prop
  | [], _ => True
  | d :: ds, n => d.Arranged t t' n ∧ Decl.ArrangedAll t t' ds (Decl.needsAll t [d] n)

end

namespace Layout

open Workspace

variable {t : Attributes} {w : Workspace} {lo hi : Nat}

/-! ## §3 Primitive steps -/

theorem declSize_ensures (ht : w.attrs.Resolves t) (id : NodeId) (name : String) :
    Ensures (declSize id name) w fun size w' => w' = w ∧ size = t.declBytes id := by
  refine Pass.attrs_ensures ?_
  split
  · next ty hty =>
    refine .pure ⟨rfl, ?_⟩
    rw [Attributes.declBytes, Attributes.sizeOf, Attributes.sizeOf, ← ht.declType, hty, ht.typeDefs]
    rfl
  · exact .throw _

theorem argSize_ensures (ht : w.attrs.Resolves t) (callee : String) (arg : Expr) :
    Ensures (argSize callee arg) w fun size w' => w' = w ∧
      size = t.sizeOf ((t.typeOf? arg).getD .void) := by
  refine Pass.attrs_ensures ?_
  split
  · next ty hty =>
    refine .pure ⟨rfl, ?_⟩
    have hty : t.typeOf? arg = some ty := by
      rw [← hty, Attributes.typeOf?, Attributes.typeOf?, ht.ofType]
    rw [Attributes.sizeOf, Attributes.sizeOf, hty, ht.typeDefs]
    rfl
  · exact .throw _

theorem params_arranged (depth : Word) :
    ∀ (ps : List Param) {before : Word} {w : Workspace} {lo hi : Nat},
    Param.NumberedAll ps lo hi → w.attrs.Resolves t →
    Ensures (params depth before ps) w fun _ w' =>
      w.Establishes lo hi w' fun w => Param.ArrangedAll t w.attrs depth ps before
  | [], _, _, _, _, _, _ => by
    rw [params]
    exact .pure (.ofExtends (.refl ..) fun _ => True.intro)
  | p :: ps, before, w, lo, hi, ⟨hid, _, hnum⟩, ht => by
    have hle := Param.le_of_numberedAll hnum
    subst hid
    rw [params]
    refine (declSize_ensures ht p.mark.id p.name).bind fun size w' hw' => ?_
    obtain ⟨rfl, rfl⟩ := hw'
    refine (Ensures.of_succeeds (setAccess_spec p.mark.id _)).bind fun _ w₁ hfirst => ?_
    refine (params_arranged depth ps hnum (hfirst.grows.resolves.trans ht)).imp fun _ w₂ hrest => ?_
    exact hfirst.seq hrest (.inl (Nat.le_succ _)) (Nat.le_refl _) (by omega) (by omega) (Nat.le_refl hi)

theorem placeVariable_arranged (ht : w.attrs.Resolves t) (m : Mark) (name : String) (n : Needs) :
    Ensures (placeVariable m name n) w fun n' w' => n' = n.withLocal (t.declBytes m.id) ∧
      w.Establishes m.id (m.id + 1) w' fun w =>
        w.attrs.accesses[m.id]? = some (n.access name (t.declBytes m.id)) := by
  refine (declSize_ensures ht m.id name).bind fun size w' hw' => ?_
  obtain ⟨rfl, rfl⟩ := hw'
  rw [Needs.withLocal, Needs.access]
  split
  · exact (Ensures.of_succeeds (setAccess_spec m.id _)).bind fun _ w' h => .pure ⟨rfl, h⟩
  · exact (Ensures.of_succeeds (setAccess_spec m.id _)).bind fun _ w' h => .pure ⟨rfl, h⟩

/-- The label of a function, which is its name if the function is global. -/
theorem functionLabel_ensures (isGlobal : Bool) (name : String) (lo hi : Nat) :
    Ensures (Pass.withSupply (functionLabel isGlobal name)) w fun label w' =>
      (isGlobal = true → label = .global name) ∧ w.Extends lo hi w' := by
  intro label w' hrun
  obtain ⟨hextends, -⟩ := (label_spec isGlobal name lo hi).of_run hrun
  refine ⟨fun hglobal => ?_, hextends⟩
  subst hglobal
  cases hrun
  rfl

/-- A frame takes its temps. -/
theorem freshFrame_ensures (label : Label) (depth locsSize argsSize : Word) (lo hi : Nat) :
    Ensures (Pass.withSupply (Frame.fresh label depth locsSize argsSize)) w fun f w' =>
      (∃ fp rv, f = { label, depth, locsSize, argsSize, fp, rv }) ∧ w.Extends lo hi w' ∧
        f.fp.index ≤ w'.supply.temps ∧ f.rv.index ≤ w'.supply.temps := by
  intro f w' hrun
  have hspec := (freshFrame_spec label depth locsSize argsSize lo hi).of_run hrun
  cases hrun
  exact ⟨⟨_, _, rfl⟩, hspec⟩

/-! ## §4 Expressions, statements and declarations -/

mutual

/-- **An expression is laid out** where it belongs, and what the function needs then can be computed. -/
theorem expr_arranged : ∀ (e : Expr) {n : Needs} {w : Workspace} {lo hi : Nat}, e.Numbered lo hi →
    w.attrs.Resolves t →
    Ensures (expr n e) w fun n' w' => n' = e.needs t n ∧
      w.Establishes lo hi w' fun w => e.Arranged t w.attrs n
  | .absent, _, _, _, _, _, _ => by
    rw [expr]
    exact .throw _
  | .atom m kind value, n, w, lo, hi, ⟨hid, hhi⟩, _ => by
    subst hid hhi
    rw [expr]
    -- Only a string constant has a place of its own, under a label taken for it.
    by_cases hkind : kind = .str
    · rw [if_pos hkind]
      refine .bind (P := fun _ w' => w.Extends m.id (m.id + 1) w') ?_ fun label w₁ hlabel => ?_
      · exact .of_succeeds (withSupply_spec (.ofSupply (Int.le_refl _)))
      refine (Ensures.of_succeeds (setString_spec m.id _)).bind fun _ w₂ hstring => .pure ⟨rfl, ?_⟩
      exact ⟨hlabel.trans hstring.grows, fun w' h _ => ⟨label, hstring.holds w' h⟩⟩
    · rw [if_neg hkind]
      exact .pure ⟨rfl, .ofExtends (.refl ..) fun _ h => absurd h hkind⟩
  | .name m ident, n, w, lo, hi, _, ht => by
    rw [expr]
    refine Pass.attrs_ensures ?_
    rw [ht.declaredAt]
    -- A name of a function is a call without arguments, and only it changes the needs.
    have hname : ∀ n', n' = n.forName t m.id → Ensures (pure n' : Pass Needs) w fun n' w' =>
        n' = (Expr.name m ident).needs t n ∧
          w.Establishes lo hi w' fun w => (Expr.name m ident).Arranged t w.attrs n :=
      fun n' hn' => .pure ⟨hn', .ofExtends (.refl ..) fun _ => True.intro⟩
    unfold Needs.forName at hname
    split
    · next hfn =>
      rw [hfn] at hname
      exact hname _ rfl
    · next hother =>
      refine hname _ ?_
      split
      · next hfn => exact absurd hfn (hother _ _ _ _ _)
      · rfl
  | .unary m op arg, n, w, lo, hi, ⟨_, hnum⟩, ht => by
    rw [expr]
    refine (expr_arranged arg hnum ht).bind fun n' w₁ harg => .pure ?_
    obtain ⟨rfl, harg⟩ := harg
    exact ⟨rfl, harg.widen (Nat.le_succ lo) (Nat.le_refl hi)⟩
  | .deref m arg, n, w, lo, hi, ⟨_, hnum⟩, ht => by
    rw [expr]
    exact (expr_arranged arg hnum ht).imp fun _ w₁ harg =>
      ⟨harg.1, harg.2.widen (Nat.le_succ lo) (Nat.le_refl hi)⟩
  | .select m arg comp, n, w, lo, hi, ⟨_, k, hnum, _, hhi⟩, ht
  | .cast m arg comp, n, w, lo, hi, ⟨_, k, hnum, _, hhi⟩, ht => by
    rw [expr]
    exact (expr_arranged arg hnum ht).imp fun _ w₁ harg =>
      ⟨harg.1, harg.2.widen (Nat.le_succ lo) (hhi ▸ Nat.le_succ k)⟩
  | .binary m op fst snd, n, w, lo, hi, ⟨_, k, hnum₁, hnum₂⟩, ht
  | .index m fst snd, n, w, lo, hi, ⟨_, k, hnum₁, hnum₂⟩, ht => by
    rw [expr]
    -- The needs go through the operands from left to right.
    refine (expr_arranged fst hnum₁ ht).bind fun n' w₁ hfst => ?_
    obtain ⟨rfl, hfst⟩ := hfst
    refine (expr_arranged snd hnum₂ (hfst.grows.resolves.trans ht)).imp fun n' w₂ hsnd => ⟨hsnd.1, ?_⟩
    have hparts := hfst.next hsnd.2 (fst.le_of_numbered hnum₁) (snd.le_of_numbered hnum₂)
    exact hparts.widen (Nat.le_succ lo) (Nat.le_refl hi)
  | .call m ident args, n, w, lo, hi, ⟨_, hnum⟩, ht => by
    rw [expr]
    refine (exprs_arranged ident args hnum ht).bind fun r w₁ hargs => .pure ?_
    obtain ⟨rfl, hargs⟩ := hargs
    exact ⟨rfl, hargs.widen (Nat.le_succ lo) (Nat.le_refl hi)⟩
  | .block m ss, n, w, lo, hi, ⟨_, hnum⟩, ht => by
    rw [expr]
    exact (stmts_arranged ss hnum ht).imp fun _ w₁ hss =>
      ⟨hss.1, hss.2.widen (Nat.le_succ lo) (Nat.le_refl hi)⟩
  | .scope m ds body, n, w, lo, hi, ⟨_, k, hnum₁, hnum₂⟩, ht => by
    rw [expr]
    -- The block's variables are added to the frame before its expression is laid out.
    refine (decls_arranged ds hnum₁ ht).bind fun n' w₁ hds => ?_
    obtain ⟨rfl, hds⟩ := hds
    refine (expr_arranged body hnum₂ (hds.grows.resolves.trans ht)).imp fun n' w₂ hbody => ⟨hbody.1, ?_⟩
    have hparts := hds.next hbody.2 (Decl.le_of_numberedAll ds hnum₁) (body.le_of_numbered hnum₂)
    exact hparts.widen (Nat.le_succ lo) (Nat.le_refl hi)

theorem exprs_arranged (callee : String) : ∀ (es : List Expr) {n : Needs} {size : Word} {w : Workspace}
    {lo hi : Nat}, Expr.NumberedAll es lo hi → w.attrs.Resolves t →
    Ensures (exprs callee n size es) w fun r w' => r = (Expr.needsAll t es n, t.argBytes size es) ∧
      w.Establishes lo hi w' fun w => Expr.ArrangedAll t w.attrs es n
  | [], _, _, _, _, _, _, _ => by
    rw [exprs]
    exact .pure ⟨rfl, .ofExtends (.refl ..) fun _ => True.intro⟩
  | e :: es, n, size, w, lo, hi, ⟨k, hnum₁, hnum₂⟩, ht => by
    rw [exprs]
    refine (expr_arranged e hnum₁ ht).bind fun n' w₁ he => ?_
    obtain ⟨rfl, he⟩ := he
    have ht₁ := he.grows.resolves.trans ht
    refine (argSize_ensures ht₁ callee e).bind fun size' w' hw' => ?_
    obtain ⟨rfl, rfl⟩ := hw'
    refine (exprs_arranged callee es hnum₂ ht₁).imp fun r w₂ hes => ⟨hes.1, ?_⟩
    exact he.next hes.2 (e.le_of_numbered hnum₁) (Expr.le_of_numberedAll es hnum₂)

theorem stmt_arranged : ∀ (s : Stmt) {n : Needs} {w : Workspace} {lo hi : Nat}, s.Numbered lo hi →
    w.attrs.Resolves t →
    Ensures (stmt n s) w fun n' w' => n' = s.needs t n ∧
      w.Establishes lo hi w' fun w => s.Arranged t w.attrs n
  | .absent, _, _, _, _, _, _ => by
    rw [stmt]
    exact .throw _
  | .eval m e, n, w, lo, hi, ⟨_, hnum⟩, ht => by
    rw [stmt]
    exact (expr_arranged e hnum ht).imp fun _ w₁ he =>
      ⟨he.1, he.2.widen (Nat.le_succ lo) (Nat.le_refl hi)⟩
  | .assign m dst src, n, w, lo, hi, ⟨_, k, hnum₁, hnum₂⟩, ht => by
    rw [stmt]
    refine (expr_arranged dst hnum₁ ht).bind fun n' w₁ hdst => ?_
    obtain ⟨rfl, hdst⟩ := hdst
    refine (expr_arranged src hnum₂ (hdst.grows.resolves.trans ht)).imp fun n' w₂ hsrc => ⟨hsrc.1, ?_⟩
    have hparts := hdst.next hsrc.2 (dst.le_of_numbered hnum₁) (src.le_of_numbered hnum₂)
    exact hparts.widen (Nat.le_succ lo) (Nat.le_refl hi)
  | .cond m test yes no, n, w, lo, hi, ⟨_, j, k, hnum₁, hnum₂, hnum₃⟩, ht => by
    have hj := test.le_of_numbered hnum₁
    have hk := yes.le_of_numbered hnum₂
    have hhi := no.le_of_numbered hnum₃
    -- A missing `else` takes no step and needs nothing.
    by_cases hno : no = .absent
    · subst hno
      rw [stmt]
      refine (expr_arranged test hnum₁ ht).bind fun n' w₁ htest => ?_
      obtain ⟨rfl, htest⟩ := htest
      refine (stmt_arranged yes hnum₂ (htest.grows.resolves.trans ht)).imp fun n' w₂ hyes => ⟨hyes.1, ?_⟩
      refine ((htest.next hyes.2 hj hk).widen (Nat.le_succ lo) hhi).imp fun w h => ?_
      exact ⟨h.1, h.2, True.intro⟩
    · rw [stmt]
      · refine (expr_arranged test hnum₁ ht).bind fun n' w₁ htest => ?_
        obtain ⟨rfl, htest⟩ := htest
        have ht₁ := htest.grows.resolves.trans ht
        refine (stmt_arranged yes hnum₂ ht₁).bind fun n' w₂ hyes => ?_
        obtain ⟨rfl, hyes⟩ := hyes
        refine (stmt_arranged no hnum₃ (hyes.grows.resolves.trans ht₁)).imp fun n' w₃ hno => ⟨hno.1, ?_⟩
        have hparts := (htest.next hyes hj hk).next hno.2 (Nat.le_trans hj hk) hhi
        exact (hparts.widen (Nat.le_succ lo) (Nat.le_refl hi)).imp fun w h => ⟨h.1.1, h.1.2, h.2⟩
      · exact hno
  | .loop m test body, n, w, lo, hi, ⟨_, k, hnum₁, hnum₂⟩, ht => by
    rw [stmt]
    refine (expr_arranged test hnum₁ ht).bind fun n' w₁ htest => ?_
    obtain ⟨rfl, htest⟩ := htest
    refine (stmt_arranged body hnum₂ (htest.grows.resolves.trans ht)).imp fun n' w₂ hbody => ⟨hbody.1, ?_⟩
    have hparts := htest.next hbody.2 (test.le_of_numbered hnum₁) (body.le_of_numbered hnum₂)
    exact hparts.widen (Nat.le_succ lo) (Nat.le_refl hi)

theorem stmts_arranged : ∀ (ss : List Stmt) {n : Needs} {w : Workspace} {lo hi : Nat},
    Stmt.NumberedAll ss lo hi → w.attrs.Resolves t →
    Ensures (stmts n ss) w fun n' w' => n' = Stmt.needsAll t ss n ∧
      w.Establishes lo hi w' fun w => Stmt.ArrangedAll t w.attrs ss n
  | [], _, _, _, _, _, _ => by
    rw [stmts]
    exact .pure ⟨rfl, .ofExtends (.refl ..) fun _ => True.intro⟩
  | s :: ss, n, w, lo, hi, ⟨k, hnum₁, hnum₂⟩, ht => by
    rw [stmts]
    refine (stmt_arranged s hnum₁ ht).bind fun n' w₁ hs => ?_
    obtain ⟨rfl, hs⟩ := hs
    refine (stmts_arranged ss hnum₂ (hs.grows.resolves.trans ht)).imp fun n' w₂ hss => ⟨hss.1, ?_⟩
    exact hs.next hss.2 (s.le_of_numbered hnum₁) (Stmt.le_of_numberedAll ss hnum₂)

theorem decls_arranged : ∀ (ds : List Decl) {n : Needs} {w : Workspace} {lo hi : Nat},
    Decl.NumberedAll ds lo hi → w.attrs.Resolves t →
    Ensures (decls n ds) w fun n' w' => n' = Decl.needsAll t ds n ∧
      w.Establishes lo hi w' fun w => Decl.ArrangedAll t w.attrs ds n
  | [], _, _, _, _, _, _ => by
    rw [decls]
    exact .pure ⟨rfl, .ofExtends (.refl ..) fun _ => True.intro⟩
  | .fn m name ps type body :: ds, n, w, lo, hi, ⟨k, ⟨hid, j, hparams, _, hnum₁⟩, hnum₂⟩, ht => by
    subst hid
    have hj := Param.le_of_numberedAll hparams
    have hk := body.le_of_numbered hnum₁
    have hhi := Decl.le_of_numberedAll ds hnum₂
    rw [decls]
    refine (functionLabel_ensures n.isGlobal name m.id (m.id + 1)).bind fun label w₁ hlabel => ?_
    obtain ⟨hname, hlabel⟩ := hlabel
    have ht₁ := hlabel.resolves.trans ht
    refine (params_arranged (n.depth + 1) ps hparams ht₁).bind fun _ w₂ hps => ?_
    have ht₂ := hps.grows.resolves.trans ht₁
    -- Behind the body the frame is made from what the body needs.
    have hrest : ∀ (own : Needs) (w₃ : Workspace), own = body.needs t { depth := n.depth + 1 } ∧
        w₂.Establishes (j + 1) k w₃ (fun w => body.Arranged t w.attrs { depth := n.depth + 1 }) →
        Ensures (do
          let frame ← Pass.withSupply (Frame.fresh label n.depth own.locsSize own.argsSize)
          Pass.update fun t => { t with frames := t.frames.insert m.id frame }
          decls n ds) w₃ fun n' w' =>
            n' = Decl.needsAll t (.fn m name ps type body :: ds) n ∧
              w.Establishes m.id hi w' fun w =>
                Decl.ArrangedAll t w.attrs (.fn m name ps type body :: ds) n := by
      intro own w₃ hbody
      obtain ⟨rfl, hbody⟩ := hbody
      refine (freshFrame_ensures label _ _ _ m.id (m.id + 1)).bind fun f w₄ hf => ?_
      obtain ⟨⟨fp, rv, hf⟩, hfresh, hfp, hrv⟩ := hf
      refine (Ensures.of_succeeds (setFrame_spec hfp hrv)).bind fun _ w₅ hframe => ?_
      have hframe : w₃.Establishes m.id (m.id + 1) w₅ _ := ⟨hfresh.trans hframe.grows, hframe.holds⟩
      have ht₅ := hframe.grows.resolves.trans (hbody.grows.resolves.trans ht₂)
      refine (decls_arranged ds hnum₂ ht₅).imp fun n' w₆ hds => ⟨hds.1, ?_⟩
      -- Parameters, body and frame are written at numbers that do not overlap.
      have hparts := hps.seq hbody (.inl (Nat.le_succ j)) (Nat.le_refl _) (Nat.le_of_succ_le hk)
        (Nat.le_succ_of_le hj) (Nat.le_refl k)
      have hfn := hparts.seq hframe (.inr (Nat.le_refl _)) (Nat.le_succ m.id) (Nat.le_refl k)
        (Nat.le_refl _) (by omega)
      have hall := hfn.next hds.2 (by omega) hhi
      refine ⟨(hlabel.widen (Nat.le_refl _) (by omega)).trans hall.grows, fun w h => ?_⟩
      obtain ⟨⟨⟨hps, hbody⟩, hframe, -⟩, hds⟩ := hall.holds w h
      exact ⟨⟨⟨label, fp, rv, hname, hf ▸ hframe⟩, hps, hbody⟩, hds⟩
    -- A missing body needs nothing but what a function starts with.
    by_cases habsent : body = .absent
    · subst habsent
      exact hrest _ w₂ ⟨rfl, .ofExtends (.refl ..) fun _ => True.intro⟩
    · have hbody := (expr_arranged (n := { depth := n.depth + 1 }) body hnum₁ ht₂).bind hrest
      cases body with
      | absent => exact absurd rfl habsent
      | _ => exact hbody
  | .var m name type :: ds, n, w, lo, hi, ⟨k, ⟨hid, _, hk⟩, hnum⟩, ht => by
    subst hid hk
    have hhi := Decl.le_of_numberedAll ds hnum
    rw [decls]
    refine (placeVariable_arranged ht m name n).bind fun n' w₁ hvar => ?_
    obtain ⟨rfl, hvar⟩ := hvar
    refine (decls_arranged ds hnum (hvar.grows.resolves.trans ht)).imp fun n' w₂ hds => ⟨hds.1, ?_⟩
    exact hvar.seq hds.2 (.inl (Nat.le_succ _)) (Nat.le_refl _) (by omega) (by omega) (Nat.le_refl hi)
  | .typ m name type :: ds, n, w, lo, hi, ⟨k, ⟨_, _, hk⟩, hnum⟩, ht => by
    subst hk
    rw [decls]
    refine (decls_arranged ds hnum ht).imp fun n' w₂ hds => ⟨hds.1, ?_⟩
    exact (hds.2.widen (Nat.le_add_right lo 2) (Nat.le_refl hi)).imp fun w h => ⟨True.intro, h⟩
  | .par .. :: ds, _, _, _, _, _, _ => by
    rw [decls]
    exact .throw _
  | .comp .. :: ds, _, _, _, _, _, _ => by
    rw [decls]
    exact .throw _

end

/-- **A program is laid out** where it belongs. -/
theorem program_arranged {p : Program} {w : Workspace} {hi : Nat} (hnum : Decl.NumberedAll p.decls 1 hi)
    (ht : w.attrs.Resolves t) :
    Ensures (program p) w fun _ w' => w'.attrs.Resolves t ∧
      Decl.ArrangedAll t w'.attrs p.decls { depth := 0, isGlobal := true } := by
  refine Pass.attrs_ensures ?_
  -- The components of records come first, and their places are none of those of the program.
  have hrecords := forM_offsets (t := w.attrs) (f := fun r : NodeId × RecordInfo => record r.2)
    (R := fun _ _ => True) w.attrs.records.toList (fun _ _ _ _ _ => True.intro)
    (fun r _ w _ => (record_offsets r.2).imp fun _ _ h => ⟨h.1, True.intro⟩) (.refl _)
  refine (Ensures.of_succeeds hrecords).bind fun _ w₁ h₁ => ?_
  refine (decls_arranged p.decls hnum (h₁.1.resolves.trans ht)).bind fun _ w₂ hdecls => .pure ?_
  exact ⟨hdecls.2.grows.resolves.trans (h₁.1.resolves.trans ht), hdecls.2.holds w₂ (.refl ..)⟩

end Layout

end MmixBackend.Source
