import MmixBackend.Proofs.Machine.StackDiscipline
import MmixBackend.Proofs.Source.CallPlaces
import MmixBackend.Proofs.Source.Nesting
import MmixBackend.Proofs.Source.RecordLayout

/-!
# The code of a function body is disciplined

A location in a program without pointers is a variable, an element of an array or a component of a
record. The words that its code comes to are the places of objects that hold no static link, and so
an assignment stores to such a place. For this the code of the names in the body must lead to places
of the right size, calls must fit into the area for arguments, and the offsets of elements must be
in range; `Grounds` collects what is needed.

## Main statements

- `Place.part`: parts of an object.
- `Expr.comesTo_of_code`: the code of an expression.
-/

namespace MmixBackend

open Source

namespace Machine

/-! ## §1 Places of objects -/

variable {S : List Layer} {n k : Nat} {v : Word}

/-- The address of an object of `n` bytes that has no frame pointer in it. -/
def Place (S : List Layer) (n : Nat) (v : Word) : Prop :=
  ∃ a : Int, v = .ofInt a ∧ ∀ x, a ≤ x → x < a + n → Addressable x ∧ ∀ L ∈ S, L.base ≠ x

/-- **A part of an object** at an offset. -/
theorem Place.part (h : Place S n v) {o : Nat} (hle : o + k ≤ n) : Place S k (v + .ofNat o) := by
  obtain ⟨a, rfl, hfree⟩ := h
  exact ⟨a + o, Word.ofInt_add_ofNat a o, fun x hlow hhigh => hfree x (by omega) (by omega)⟩

/-- Storing to an object keeps the static links. -/
theorem Place.clear {N : Nesting} (hS : N.Seated S) (h : Place S n v) (hn : 0 < n) :
    Nesting.Clear S v := by
  obtain ⟨a, rfl, hfree⟩ := h
  obtain ⟨haddr, hne⟩ := hfree a (Int.le_refl a) (by omega)
  exact hS.clear haddr hne

end Machine

open Machine

namespace IR

variable {N : Nesting} {m : Machine} {S : List Layer} {P Q : Word → Prop}

/-- What is read from an address may be anything. -/
theorem Expr.ComesTo.mem {a : Expr} (h : a.ComesTo N m S P) : (Expr.mem a).ComesTo N m S fun _ => True :=
  ⟨P, h, fun _ _ _ _ => trivial⟩

/-- The result of an operator may be anything. -/
theorem Expr.ComesTo.binop {op : BinOp} {a b : Expr} (ha : a.ComesTo N m S P) (hb : b.ComesTo N m S Q) :
    (Expr.binop op a b).ComesTo N m S fun _ => True :=
  ⟨P, Q, ha, hb, fun _ _ _ _ _ _ _ => trivial⟩

theorem Expr.comesTo_const (v : Word) : (Expr.const v).ComesTo N m S fun _ => True := trivial

/-- An offset is added to an address. -/
theorem Expr.ComesTo.add_const {a : Expr} (h : a.ComesTo N m S P) {offset : Word}
    (hPQ : ∀ v, P v → Q (v + offset)) :
    (Expr.binop .add a (.const offset)).ComesTo N m S Q := by
  refine ⟨P, (· = offset), h, rfl, fun x y z hx hy _ hz => ?_⟩
  cases hy
  cases hz
  exact hPQ x hx

/-- The code that follows static links reads from memory and does nothing else. -/
theorem Expr.comesTo_frameAddr_any {f : Frame} {L : Layer} (hL : S.head? = some L)
    (hf : f.fp = L.frame.fp) (hops : Nat) : (Generation.frameAddr f hops).ComesTo N m S fun _ =>
    True := by
  induction hops with
  | zero => exact ⟨L, hL, hf, trivial⟩
  | succ hops ih => exact ih.mem

end IR

namespace Source

open Generation

/-! ## §2 The code of a body -/

variable {N : Nesting} {m : Machine} {S : List Layer} {t t' : Attributes} {f : Frame} {ns : List Node}

/-- The code of an expression is disciplined. That of a location reads from the place of an object. -/
structure Grounded (N : Nesting) (m : Machine) (S : List Layer) (t : Attributes) (e : Expr)
    (c : IR.Expr) : Prop where
  value : c.ComesTo N m S fun _ => True
  place : e.located t = true → ∀ ty, t.typeOf? e = some ty →
    ∃ a, c = .mem a ∧ a.ComesTo N m S (Place S (ty.exactSize t.typeDefs))

namespace Grounded

variable {e : Expr} {c a : IR.Expr}

/-- The code of an expression that is no location. -/
theorem ofValue (h : c.ComesTo N m S fun _ => True) (he : e.located t = false) : Grounded N m S t e c :=
  ⟨h, fun hlocated => by rw [he] at hlocated; cases hlocated⟩

/-- The code of a location. -/
theorem ofPlace {ty : Ty} (hty : t.typeOf? e = some ty)
    (h : a.ComesTo N m S (Place S (ty.exactSize t.typeDefs))) :
    Grounded N m S t e (.mem a) :=
  ⟨h.mem, fun _ _ hty' => Option.some.inj (hty.symm.trans hty') ▸ ⟨a, rfl, h⟩⟩

/-- The place of a location. -/
theorem address (h : Grounded N m S t e (.mem a)) (he : e.located t = true) {ty : Ty}
    (hty : t.typeOf? e = some ty) :
    a.ComesTo N m S (Place S (ty.exactSize t.typeDefs)) := by
  obtain ⟨a', heq, ha⟩ := h.place he ty hty
  cases heq
  exact ha

end Grounded

/-- What the code of a function body needs in the layers `S`: `ns` are the nodes of the body, `t`
are the tables of resolution and `t'` those of the layout. -/
structure Grounds (N : Nesting) (m : Machine) (S : List Layer) (t t' : Attributes) (f : Frame)
    (ns : List Node) :
    Prop where
  seated : N.Seated S
  resolves : t'.Resolves t
  recorded : t.Recorded
  guarded : t.typeDefs.Guarded
  exprs : ∀ e, .expr e ∈ ns → ∃ sc ty, e.HasType t sc ty
  stmts : ∀ s, .stmt s ∈ ns → ∃ sc ty, s.HasType t sc ty
  /-- There are no pointers to follow. -/
  direct : ∀ mark arg, .expr (.deref mark arg) ∉ ns
  vars : ∀ mark ident c, .expr (.name mark ident) ∈ ns → NameCode t' f mark c →
    (Expr.name mark ident).located t = true → Grounded N m S t (.name mark ident) c
  places : ∀ node ∈ ns, ∀ call, node.Calls t' call → N.Places m S call.1 call.2
  links : ∀ node ∈ ns, ∀ fm name params type body callee, node.Refers t' (.fn fm name params type body) →
    t'.frames[fm.id]? = some callee → (staticLink f callee).ComesTo N m S (N.LinkFor m S callee.label)
  elements : ∀ mark array idx arrayTy len elem base off lo hi, .expr (.index mark array idx) ∈ ns →
    (Expr.index mark array idx).Code t' f lo hi (.mem (.binop .add base off)) →
      t.typeOf? array = some arrayTy →
    arrayTy.actual t.typeDefs = .arr len elem → ∀ y, N.element (.binop .add base off) y →
      ∃ i : Nat, (i : Int) < len.toInt ∧ y = .ofNat (i * elem.exactSize t.typeDefs)
  components : ∀ recordTy ident d ty offset, t.HasRecords recordTy →
    t.component? recordTy ident = some (d, ty) →
    t'.OffsetAt d.id offset → ∃ o : Nat, offset = .ofNat o ∧
      o + ty.exactSize t.typeDefs ≤ recordTy.exactSize t.typeDefs

/-- The code of a block of disciplined statements. -/
theorem comesTo_blockValue {ss : List IR.Stmt} (h : ∀ s ∈ ss, s.Disciplined N m S) :
    (blockValue ss).ComesTo N m S fun _ => True := by
  unfold blockValue
  split
  · next e hlast =>
    exact ⟨IR.Stmt.disciplinedAll_iff.mpr fun s hs => h s (List.dropLast_subset ss hs),
      h _ (List.mem_of_getLast? hlast)⟩
  · exact ⟨IR.Stmt.disciplinedAll_iff.mpr h, trivial⟩

/-- The code of a name is disciplined. -/
theorem Grounds.name (h : Grounds N m S t t' f ns) {mark : Mark} {ident : String} {c : IR.Expr}
    (hnode : .expr (.name mark ident) ∈ ns) (hc : NameCode t' f mark c) :
    Grounded N m S t (.name mark ident) c := by
  cases hlocated : (Expr.name mark ident).located t with
  | true => exact h.vars mark ident c hnode hc hlocated
  | false =>
    refine .ofValue ?_ hlocated
    have hvar : ∀ d, t'.declaredAt[mark.id]? = some d → ¬d.IsVariable := fun d hd hvar =>
      Bool.false_ne_true (hlocated.symm.trans
        (Expr.located_iff.mpr ⟨d, h.resolves.declaredAt ▸ hd, hvar⟩))
    cases hc with
    | call hbound hframe =>
      exact ⟨List.cons_ne_nil _ _, ⟨h.links _ hnode _ _ _ _ _ _ hbound hframe, trivial⟩,
        h.places _ hnode _ (.name hbound hframe), fun _ => trivial⟩
    | static hbound hdecl => exact (hvar _ hbound hdecl).elim
    | relative hbound hdecl => exact (hvar _ hbound hdecl).elim

/-- The code of an element leads into its array. -/
theorem Grounds.element (h : Grounds N m S t t' f ns) {mark : Mark} {array idx : Expr}
    {lo hi : Int} {c : IR.Expr} (hnode : .expr (.index mark array idx) ∈ ns)
    (hc : (Expr.index mark array idx).Code t' f lo hi c)
    (harray : ∀ {lo hi c}, array.Code t' f lo hi c → Grounded N m S t array c)
    (hidx : ∀ {lo hi c}, idx.Code t' f lo hi c → Grounded N m S t idx c) :
    Grounded N m S t (.index mark array idx) c := by
  obtain ⟨_, ty, ⟨arrayTy, _, harrayTy, -, helem, hlocated, -⟩, hty⟩ := h.exprs _ hnode
  have hcode := hc
  obtain ⟨k, base, i, ty', hbase, hi, -, rfl⟩ := hc
  refine .ofPlace hty ⟨_, _, (harray hbase).address hlocated harrayTy.ofType,
    (hidx hi).value.binop (IR.Expr.comesTo_const _), fun x y z hx _ helement hz => ?_⟩
  cases hz
  rw [Ty.elem?] at helem
  split at helem
  · next len elem heq =>
    cases helem
    obtain ⟨i, hi, rfl⟩ := h.elements mark array idx arrayTy len ty base _ _ _ hnode hcode
      harrayTy.ofType heq y helement
    exact hx.part (Attributes.element_inside h.guarded heq hi)
  · cases helem

/-- The code of a component leads into its record. -/
theorem Grounds.component (h : Grounds N m S t t' f ns) {mark : Mark} {record : Expr}
    {comp : CompName} {lo hi : Int} {c : IR.Expr} (hnode : .expr (.select mark record comp) ∈ ns)
    (hc : (Expr.select mark record comp).Code t' f lo hi c)
    (hrecord : ∀ {lo hi c}, record.Code t' f lo hi c → Grounded N m S t record c) :
    Grounded N m S t (.select mark record comp) c := by
  obtain ⟨_, ty, ⟨recordTy, d, hrecordTy, hcomp, hlocated, hbound⟩, hty⟩ := h.exprs _ hnode
  obtain ⟨base, dm, name, type, offset, hbase, hbound', hoffset, rfl⟩ := hc
  rw [h.resolves.declaredAt, hbound] at hbound'
  cases hbound'
  obtain ⟨o, rfl, hle⟩ := h.components recordTy _ _ ty offset
    (record.hasRecords_of_hasType h.recorded h.guarded hrecordTy) hcomp hoffset
  exact .ofPlace hty (((hrecord hbase).address hlocated hrecordTy.ofType).add_const fun v hv =>
    hv.part hle)

mutual

/-- **The code of an expression** is disciplined, if its nodes are among those that the grounds are
about. -/
theorem Expr.comesTo_of_code (h : Grounds N m S t t' f ns) : ∀ (e : Expr) {lo hi : Int} {c : IR.Expr},
    e.Code t' f lo hi c → e.walk Node.inFunction ⊆ ns → Grounded N m S t e c
  | .absent, _, _, _, hc, _ => hc.elim
  | .atom _ kind value, _, _, _, ⟨_, hc⟩, _ => by
    refine .ofValue ?_ rfl
    cases hc with
    | char hchar =>
      unfold charConstant at hchar
      dsimp only at hchar
      split at hchar
      · cases hchar
        trivial
      · cases hchar
    | str => exact fun _ _ => trivial
    | _ => trivial
  | .unary mark op arg, _, _, _, ⟨a, harg, hc⟩, hns => by
    obtain ⟨hnode, hns⟩ := List.cons_subset.mp hns
    have ha := arg.comesTo_of_code h harg hns
    refine .ofValue ?_ rfl
    -- The routines have no static link.
    have hroutine {name : String} (hop : op = .new ∧ name = "new" ∨ op = .del ∧ name = "del")
        (hlabel : (Routine.ofLabel? (.global name)).isSome) :
          (routineCall name a).ComesTo N m S fun _ => True := by
      refine ⟨List.cons_ne_nil _ _, ⟨ha.value.mono fun v _ hnone => ?_, trivial⟩, h.places _ hnode _
        (.routine hop),
        fun _ => trivial⟩
      rw [hnone] at hlabel
      cases hlabel
    cases op with
    | pos =>
      cases hc
      exact ha.value
    | neg | not =>
      cases hc
      exact ⟨_, ha.value, fun _ _ => trivial⟩
    | addr =>
      obtain rfl := addressOf_eq_ok hc
      obtain ⟨P, haddr, -⟩ := ha.value
      exact haddr.any
    | new =>
      cases hc
      exact hroutine (.inl ⟨rfl, rfl⟩) (by decide)
    | del =>
      cases hc
      exact hroutine (.inr ⟨rfl, rfl⟩) (by decide)
    | unknown code => cases hc
  -- The grounds exclude pointers that are followed, so this case does not arise.
  | .deref .., _, _, _, _, hns => (h.direct _ _ (List.cons_subset.mp hns).1).elim
  | .binary _ _ fst snd, _, _, _, ⟨_, _, _, _, hfst, hsnd, _, hc⟩, hns => by
    obtain ⟨hns, hns'⟩ := List.append_subset.mp (List.cons_subset.mp hns).2
    rw [hc]
    exact .ofValue ((fst.comesTo_of_code h hfst hns).value.binop
      (snd.comesTo_of_code h hsnd hns').value) rfl
  | .name .., _, _, _, ⟨_, hc⟩, hns => h.name (List.cons_subset.mp hns).1 hc
  | .index _ array idx, _, _, _, hc, hns => by
    obtain ⟨hnode, hns⟩ := List.cons_subset.mp hns
    obtain ⟨hns, hns'⟩ := List.append_subset.mp hns
    exact h.element hnode hc (fun harray => array.comesTo_of_code h harray hns)
      fun hidx => idx.comesTo_of_code h hidx hns'
  | .select _ record _, _, _, _, hc, hns => by
    obtain ⟨hnode, hns⟩ := List.cons_subset.mp hns
    exact h.component hnode hc fun hrecord => record.comesTo_of_code h hrecord
      (List.append_subset.mp hns).1
  | .call _ _ args, _, _, _, ⟨_, _, params, _, _, callee, offs, codes, hbound, hframe, hlength,
      hargs, hc⟩, hns => by
    obtain ⟨hnode, hns⟩ := List.cons_subset.mp hns
    rw [hc]
    -- The first argument is a static link that leads to the frame around the callee.
    exact .ofValue ⟨List.cons_ne_nil _ _,
      ⟨h.links _ hnode _ _ _ _ _ _ hbound hframe, Expr.comeTo_of_code h args hargs hns⟩,
      h.places _ hnode _ (.call hbound hframe (hargs.offsets hlength)), fun _ => trivial⟩ rfl
  | .block _ ss, _, _, _, ⟨_, hss, hc⟩, hns => by
    rw [hc]
    exact .ofValue (comesTo_blockValue
      (Stmt.disciplinedAll_of_code h ss hss (List.cons_subset.mp hns).2)) rfl
  | .cast _ arg _, _, _, _, ⟨_, harg, hc⟩, hns => by
    have ha := arg.comesTo_of_code h harg (List.cons_subset.mp hns).2
    refine .ofValue ?_ rfl
    cases hc with
    | char => exact ha.value.binop (IR.Expr.comesTo_const _)
    | other => exact ha.value
  | .scope _ _ body, _, _, _, ⟨_, _, hbody⟩, hns => by
    obtain ⟨-, hns⟩ := List.append_subset.mp (List.cons_subset.mp hns).2
    exact .ofValue (body.comesTo_of_code h hbody hns).value rfl

theorem Expr.comeTo_of_code (h : Grounds N m S t t' f ns) :
    ∀ (es : List Expr) {params : List Param} {lo hi : Int}
    {offs : List Word} {codes : List IR.Expr}, Expr.CodeAll t' f es params lo hi offs codes →
    Expr.walkAll Node.inFunction es ⊆ ns → IR.Expr.ComeTo N m S codes fun _ => True
  | [], _, _, _, _, _, ⟨_, _, hc⟩, _ => by
    rw [hc]
    trivial
  | e :: es, _ :: _, _, _, _, _, ⟨_, _, _, _, _, _, he, hes, _, hc⟩, hns => by
    obtain ⟨hns, hns'⟩ := List.append_subset.mp hns
    rw [hc]
    exact ⟨(e.comesTo_of_code h he hns).value, Expr.comeTo_of_code h es hes hns'⟩
  | _ :: _, [], _, _, _, _, hc, _ => hc.elim

theorem Stmt.disciplined_of_code (h : Grounds N m S t t' f ns) : ∀ (s : Stmt) {lo hi : Int} {c : IR.Stmt},
    s.Code t' f lo hi c → s.walk Node.inFunction ⊆ ns → c.Disciplined N m S
  | .absent, _, _, _, ⟨_, hc⟩, _ => by
    rw [hc]
    trivial
  | .eval _ e, _, _, _, ⟨_, he, hc⟩, hns => by
    rw [hc]
    exact (e.comesTo_of_code h he (List.cons_subset.mp hns).2).value
  | .assign _ dst src, _, _, _, ⟨_, _, _, hdst, hsrc, hc⟩, hns => by
    obtain ⟨hnode, hns⟩ := List.cons_subset.mp hns
    obtain ⟨hns, hns'⟩ := List.append_subset.mp hns
    obtain ⟨_, _, ⟨dstTy, _, hdstTy, -, hlocated, hscalar, -⟩, -⟩ := h.stmts _ hnode
    -- A location of a scalar has room for one word.
    obtain ⟨a, rfl, ha⟩ := (dst.comesTo_of_code h hdst hns).place hlocated dstTy hdstTy.ofType
    rw [Ty.exactSize_of_isScalar hscalar] at ha
    rw [hc]
    exact ⟨ha.mono fun v hv => hv.clear h.seated (by decide), (src.comesTo_of_code h hsrc hns').value⟩
  | .cond _ test yes no, _, _, _, ⟨_, _, _, _, _, _, htest, hyes, hno, _, hc⟩, hns => by
    obtain ⟨hns, hns''⟩ := List.append_subset.mp (List.cons_subset.mp hns).2
    obtain ⟨hns, hns'⟩ := List.append_subset.mp hns
    rw [hc]
    exact ⟨(test.comesTo_of_code h htest hns).value, trivial, yes.disciplined_of_code h hyes hns',
      trivial, trivial,
      no.disciplined_of_code h hno hns'', trivial, trivial⟩
  | .loop _ test body, _, _, _, ⟨_, _, _, _, htest, hbody, _, hc⟩, hns => by
    obtain ⟨hns, hns'⟩ := List.append_subset.mp (List.cons_subset.mp hns).2
    rw [hc]
    exact ⟨trivial, (test.comesTo_of_code h htest hns).value, trivial, body.disciplined_of_code h
      hbody hns', trivial,
      trivial, trivial⟩

theorem Stmt.disciplinedAll_of_code (h : Grounds N m S t t' f ns) : ∀ (ss : List Stmt) {lo hi : Int}
    {codes : List IR.Stmt}, Stmt.CodeAll t' f ss lo hi codes → Stmt.walkAll Node.inFunction ss ⊆ ns →
    ∀ s ∈ codes, s.Disciplined N m S
  | [], _, _, _, ⟨_, hc⟩, _ => by
    rw [hc]
    exact List.forall_mem_nil _
  | s :: ss, _, _, _, ⟨_, _, _, hs, hss, hc⟩, hns => by
    obtain ⟨hns, hns'⟩ := List.append_subset.mp hns
    rw [hc]
    exact List.forall_mem_cons.mpr ⟨s.disciplined_of_code h hs hns, Stmt.disciplinedAll_of_code
      h ss hss hns'⟩

end

end Source

end MmixBackend
