import MmixBackend.Proofs.Instr.Selection
import MmixBackend.Proofs.Source.Layout
import MmixBackend.Proofs.Text.Numeral
import MmixBackend.Source.Generation
import Mathlib.Data.List.Basic

/-!
# Code for every function

For a program that is complete, resolved and laid out, code is generated without a fault, and it is sound:
its trees have the shape that canonicalization expects, its jumps stay inside their statements, and its
operators and temps are known.

## Main statements

- `Generation.expr_spec`: an expression is generated; the code of a location is a memory operand.
- `Generation.program_spec`: every function of a program with a body has sound code.
-/

namespace MmixBackend

/-! ## §1 Sound code -/

namespace IR

/-- An expression that can be made canonical and selected when the temps up to `n` have been handed
out. -/
structure Expr.Sound (n : Int) (e : Expr) : Prop where
  shaped : e.Shaped
  usable : e.Usable n

/-- The same for a statement; its jumps stay inside. -/
structure Stmt.Sound (n : Int) (s : Stmt) : Prop where
  shaped : s.Shaped
  closed : s.Closed
  usable : s.Usable n

theorem Stmt.shapedAll_iff {ss : List Stmt} : Stmt.ShapedAll ss ↔ ∀ s ∈ ss, s.Shaped := by
  induction ss with
  | nil => simp [Stmt.ShapedAll]
  | cons s ss ih => simp [Stmt.ShapedAll, ih]

theorem Stmt.usableAll_iff {n : Int} {ss : List Stmt} :
    Stmt.UsableAll n ss ↔ ∀ s ∈ ss, s.Usable n := by
  induction ss with
  | nil => simp [Stmt.UsableAll]
  | cons s ss ih => simp [Stmt.UsableAll, ih]

theorem Expr.shapedAll_iff {es : List Expr} : Expr.ShapedAll es ↔ ∀ e ∈ es, e.Shaped := by
  induction es with
  | nil => simp [Expr.ShapedAll]
  | cons e es ih => simp [Expr.ShapedAll, ih]

theorem Expr.usableAll_iff {n : Int} {es : List Expr} :
    Expr.UsableAll n es ↔ ∀ e ∈ es, e.Usable n := by
  induction es with
  | nil => simp [Expr.UsableAll]
  | cons e es ih => simp [Expr.UsableAll, ih]

namespace Stmt

variable {n : Int}

theorem mem_targetsOf_flattenAll {l : Label} {ss : List Stmt} :
    l ∈ targetsOf (flattenAll ss) ↔ ∃ s ∈ ss, l ∈ targetsOf s.flatten := by
  induction ss with
  | nil => simp [flattenAll]
  | cons s ss ih => simp [flattenAll, ih]

theorem mem_labelsOf_flattenAll {l : Label} {ss : List Stmt} :
    l ∈ labelsOf (flattenAll ss) ↔ ∃ s ∈ ss, l ∈ labelsOf s.flatten := by
  induction ss with
  | nil => simp [flattenAll, labelsOf]
  | cons s ss ih => simp [flattenAll, ih]

theorem Closed.seq {ss : List Stmt}
    (h : ∀ s ∈ ss, ∀ l ∈ targetsOf s.flatten, ∃ s' ∈ ss, l ∈ labelsOf s'.flatten) :
    (Stmt.seq ss).Closed := by
  intro l hl
  obtain ⟨s, hs, hl⟩ := mem_targetsOf_flattenAll.mp hl
  exact mem_labelsOf_flattenAll.mpr (h s hs l hl)

/-- A sequence is sound if its parts are, and its jumps lead to labels of its own. -/
theorem Sound.seq {ss : List Stmt} (hshaped : ∀ s ∈ ss, s.Shaped) (husable : ∀ s ∈ ss, s.Usable n)
    (hclosed : ∀ s ∈ ss, ∀ l ∈ targetsOf s.flatten, ∃ s' ∈ ss, l ∈ labelsOf s'.flatten) :
    (Stmt.seq ss).Sound n where
  shaped := shapedAll_iff.mpr hshaped
  usable := usableAll_iff.mpr husable
  closed := Closed.seq hclosed

theorem Sound.seq_of_forall {ss : List Stmt} (h : ∀ s ∈ ss, s.Sound n) : (Stmt.seq ss).Sound n :=
  .seq (fun s hs => (h s hs).shaped) (fun s hs => (h s hs).usable)
    fun s hs l hl => ⟨s, hs, (h s hs).closed l hl⟩

theorem Sound.eval {e : Expr} (h : e.Sound n) : (Stmt.eval e).Sound n where
  shaped := h.shaped
  usable := h.usable
  closed _ hl := (List.not_mem_nil hl).elim

theorem Sound.store {addr src : Expr} (haddr : (Expr.mem addr).Sound n) (hsrc : src.Sound n) :
    (Stmt.move (.mem addr) src).Sound n where
  shaped := ⟨haddr.shaped, hsrc.shaped⟩
  usable := ⟨haddr.usable, hsrc.usable⟩
  closed _ hl := (List.not_mem_nil hl).elim

end Stmt

theorem Expr.Sound.call {n : Int} {l : Label} {offs : List Word} {args : List Expr}
    (hlength : offs.length = args.length) (hargs : ∀ e ∈ args, e.Sound n) :
    (Expr.call l offs args).Sound n where
  shaped := ⟨hlength, shapedAll_iff.mpr fun e he => (hargs e he).shaped⟩
  usable := usableAll_iff.mpr fun e he => (hargs e he).usable

theorem Expr.Sound.binop {n : Int} {op : BinOp} {fst snd : Expr} (hop : op.Known) (hfst : fst.Sound n)
    (hsnd : snd.Sound n) : (Expr.binop op fst snd).Sound n :=
  ⟨⟨hfst.shaped, hsnd.shaped⟩, hop, hfst.usable, hsnd.usable⟩

theorem Expr.Sound.const {n : Int} (v : Word) : (Expr.const v).Sound n := ⟨trivial, trivial⟩

theorem Expr.Sound.addr {n : Int} {addr : Expr} (h : (Expr.mem addr).Sound n) : addr.Sound n :=
  ⟨h.shaped, h.usable⟩

theorem Expr.Sound.mem {n : Int} {addr : Expr} (h : addr.Sound n) : (Expr.mem addr).Sound n :=
  ⟨h.shaped, h.usable⟩

end IR

namespace Source.Generation

open IR (BinOp UnOp)

variable {n : Int}

/-! ## §2 Code without tables -/

theorem sound_frameAddr {frame : Frame} (h : frame.fp.index ≤ n) (hops : Nat) :
    (frameAddr frame hops).Sound n := by
  induction hops with
  | zero => exact ⟨trivial, h⟩
  | succ hops ih => exact .mem ih

theorem sound_location {base : IR.Expr} (h : base.Sound n) (offset : Word) :
    (location base offset).Sound n :=
  .mem (.binop trivial h (.const offset))

theorem sound_binaryOp {op : BinaryOp} (h : op.Known) : ∃ op', binaryOp op = .ok op' ∧ op'.Known := by
  cases op with
  | unknown code => exact h.elim
  | _ => exact ⟨_, rfl, trivial⟩

/-- A unary operator has code; that of `addr` needs a memory operand. -/
theorem sound_unary {op : UnaryOp} {arg : IR.Expr} (hop : op.Known) (harg : arg.Sound n)
    (haddr : op = .addr → ∃ addr, arg = .mem addr) :
    ∃ code, unary op arg = .ok code ∧ code.Sound n := by
  cases op with
  | pos => exact ⟨_, rfl, harg⟩
  | neg | not => exact ⟨_, rfl, harg.shaped, trivial, harg.usable⟩
  | addr =>
    obtain ⟨addr, rfl⟩ := haddr rfl
    exact ⟨_, rfl, harg.addr⟩
  | new | del => exact ⟨_, rfl, .call rfl fun e he => List.mem_singleton.mp he ▸ harg⟩
  | unknown code => exact hop.elim

theorem length_toList (bs : ByteArray) : bs.toList.length = bs.size := by
  have hloop : ∀ (i : Nat) (r : List UInt8), i ≤ bs.size →
      (ByteArray.toList.loop bs i r).length = r.length + (bs.size - i) := by
    intro i r
    fun_induction ByteArray.toList.loop bs i r with
    | case1 i r h ih =>
      intro _
      rw [ih (by omega), List.length_cons]
      omega
    | case2 i r h =>
      intro _
      rw [List.length_reverse]
      omega
  exact (hloop 0 [] (Nat.zero_le _)).trans (by simp)

/-- A text of three bytes is a character constant. -/
theorem sound_charConstant {value : String} (h : AtomKind.char.Admits value) :
    ∃ code, charConstant value = .ok code ∧ code.Sound n := by
  obtain ⟨s, hs, rfl⟩ := h
  have hlength : ("'" ++ s ++ "'").toUTF8.toList.reverse.length = 3 := by
    rw [List.length_reverse, length_toList, String.toUTF8_eq_toByteArray, String.size_toByteArray,
      String.utf8ByteSize_append, String.utf8ByteSize_append, hs]
    rfl
  obtain ⟨a, b, c, hbytes⟩ := List.length_eq_three.mp hlength
  unfold charConstant
  dsimp only
  rw [hbytes]
  exact ⟨_, rfl, .const _⟩

/-- The value of a block is sound if its statements are. -/
theorem sound_blockValue {ss : List IR.Stmt} (h : ∀ s ∈ ss, s.Sound n) : (blockValue ss).Sound n := by
  have hsexpr : ∀ {ss' : List IR.Stmt} {e : IR.Expr}, (∀ s ∈ ss', s.Sound n) → e.Sound n →
      (IR.Expr.sexpr (.seq ss') e).Sound n := fun hss he =>
    ⟨⟨(IR.Stmt.Sound.seq_of_forall hss).shaped, (IR.Stmt.Sound.seq_of_forall hss).closed, he.shaped⟩,
      (IR.Stmt.Sound.seq_of_forall hss).usable, he.usable⟩
  unfold blockValue
  split
  · next e hlast =>
    have he := h _ (List.mem_of_getLast? hlast)
    exact hsexpr (fun s hs => h s (List.dropLast_subset ss hs)) ⟨he.shaped, he.usable⟩
  · exact hsexpr h (.const 0)

/-- A part of a sequence jumps to its own labels or to those of the sequence. -/
theorem closed_parts {ss : List IR.Stmt} (own : List Label)
    (hown : ∀ l ∈ own, .label l ∈ ss)
    (h : ∀ s ∈ ss, s.Closed ∨ ∀ l ∈ IR.Stmt.targetsOf s.flatten, l ∈ own) :
    ∀ s ∈ ss, ∀ l ∈ IR.Stmt.targetsOf s.flatten, ∃ s' ∈ ss, l ∈ IR.Stmt.labelsOf s'.flatten := by
  intro s hs l hl
  rcases h s hs with hclosed | htargets
  · exact ⟨s, hs, hclosed l hl⟩
  · exact ⟨_, hown l (htargets l hl), List.mem_singleton_self l⟩

theorem closed_label (l : Label) : (IR.Stmt.label l).Closed := fun _ h => (List.not_mem_nil h).elim

theorem sound_conditional {test : IR.Expr} {yes no : IR.Stmt} (htest : test.Sound n) (hyes : yes.Sound n)
    (hno : no.Sound n) (σ : Supply) : ((conditional test yes no).run σ).1.Sound n := by
  obtain ⟨pos, neg, done, hrun⟩ : ∃ pos neg done, ((conditional test yes no).run σ).1
      = .seq [.cjump test pos neg, .label pos, yes, .jump done, .label neg, no, .label done] :=
    ⟨_, _, _, rfl⟩
  rw [hrun]
  refine IR.Stmt.Sound.seq ?_ ?_ (closed_parts [pos, neg, done] (by simp) ?_)
  · simpa [IR.Stmt.Shaped] using ⟨htest.shaped, hyes.shaped, hno.shaped⟩
  · simpa [IR.Stmt.Usable] using ⟨htest.usable, hyes.usable, hno.usable⟩
  · simp only [List.forall_mem_cons]
    refine ⟨.inr ?_, .inl (closed_label pos), .inl hyes.closed, .inr ?_, .inl (closed_label neg),
      .inl hno.closed, .inl (closed_label done), by simp⟩
    · simp [IR.Stmt.flatten, IR.Stmt.targetsOf]
    · simp [IR.Stmt.flatten, IR.Stmt.targetsOf]

theorem sound_whileLoop {test : IR.Expr} {body : IR.Stmt} (htest : test.Sound n) (hbody : body.Sound n)
    (σ : Supply) : ((whileLoop test body).run σ).1.Sound n := by
  obtain ⟨check, enter, done, hrun⟩ : ∃ check enter done, ((whileLoop test body).run σ).1
      = .seq [.label check, .cjump test enter done, .label enter, body, .jump check, .label done] :=
    ⟨_, _, _, rfl⟩
  rw [hrun]
  refine IR.Stmt.Sound.seq ?_ ?_ (closed_parts [check, enter, done] (by simp) ?_)
  · simpa [IR.Stmt.Shaped] using ⟨htest.shaped, hbody.shaped⟩
  · simpa [IR.Stmt.Usable] using ⟨htest.usable, hbody.usable⟩
  · simp only [List.forall_mem_cons]
    refine ⟨.inl (closed_label check), .inr ?_, .inl (closed_label enter), .inl hbody.closed, .inr ?_,
      .inl (closed_label done), by simp⟩
    · simp [IR.Stmt.flatten, IR.Stmt.targetsOf]
    · simp [IR.Stmt.flatten, IR.Stmt.targetsOf]

end Source.Generation

namespace Source

/-! ## §3 How the tables of code grow -/

/-- The expression has sound code. -/
def Workspace.HasCode (w : Workspace) (id : NodeId) : Prop :=
  ∃ code, w.attrs.exprCode[id]? = some code ∧ code.Sound w.supply.temps

/-- What generation does to the workspace: it records sound code and takes labels. -/
structure Workspace.Generates (w w' : Workspace) : Prop where
  resolves : w'.attrs.Resolves w.attrs
  frames : w'.attrs.frames = w.attrs.frames
  accesses : w'.attrs.accesses = w.attrs.accesses
  strings : w'.attrs.strings = w.attrs.strings
  temps : w'.supply.temps = w.supply.temps
  code : ∀ id, w.HasCode id → w'.HasCode id

namespace Workspace.Generates

variable {w w' w'' : Workspace}

theorem refl (w : Workspace) : w.Generates w := ⟨.refl _, rfl, rfl, rfl, rfl, fun _ h => h⟩

theorem trans (h : w.Generates w') (h' : w'.Generates w'') : w.Generates w'' where
  resolves := h'.resolves.trans h.resolves
  frames := h'.frames.trans h.frames
  accesses := h'.accesses.trans h.accesses
  strings := h'.strings.trans h.strings
  temps := h'.temps.trans h.temps
  code id hid := h'.code id (h.code id hid)

theorem hasOffset (h : w.Generates w') {id : NodeId} (hid : w.attrs.HasOffset id) :
    w'.attrs.HasOffset id := by
  unfold Attributes.HasOffset
  rw [h.accesses]
  exact hid

theorem hasFrame (h : w.Generates w') {id : NodeId} (hid : w.HasFrame id) : w'.HasFrame id := by
  unfold Workspace.HasFrame
  rw [h.frames, h.temps]
  exact hid

theorem declPlaced (h : w.Generates w') {d : Decl} (hd : d.Placed w) : d.Placed w' := by
  cases d with
  | fn m name ps type body => exact ⟨h.hasFrame hd.1, fun p hp => h.hasOffset (hd.2 p hp)⟩
  | var m name type =>
    show (w'.attrs.accesses[m.id]?).isSome
    rw [h.accesses]
    exact hd
  | par m name type => exact h.hasOffset hd
  | typ | comp => trivial

theorem nodePlaced (h : w.Generates w') {n : Node} (hn : n.Placed w) : n.Placed w' := by
  cases n with
  | decl d => exact h.declPlaced hn
  | expr e =>
    cases e with
    | atom m kind value =>
      cases kind with
      | str =>
        show (w'.attrs.strings[m.id]?).isSome
        rw [h.strings]
        exact hn
      | _ => trivial
    | _ => trivial
  | _ => trivial

theorem allPlaced (h : w.Generates w') {ns : List Node} (hns : Layout.AllPlaced ns w) :
    Layout.AllPlaced ns w' := fun n hn => h.nodePlaced (hns n hn)

end Workspace.Generates

theorem Program.LaidOut.mono {p : Program} {w w' : Workspace} (h : p.LaidOut w) (hstep : w.Generates w') :
    p.LaidOut w' where
  nodes := hstep.allPlaced h.nodes
  statics d hd := by
    have hstatic := h.statics d hd
    cases d with
    | var m name type =>
      show ∃ data, w'.attrs.accesses[m.id]? = some (.static data)
      rw [hstep.accesses]
      exact hstatic
    | _ => trivial
  comps id info hinfo d hd := by
    rw [hstep.resolves.records] at hinfo
    obtain ⟨m, name, type, rfl, hm⟩ := h.comps id info hinfo d hd
    exact ⟨m, name, type, rfl, hstep.hasOffset hm⟩

namespace Generation

/-- What the code of a function is generated from: the tables of resolution and layout, with all
declarations in scope and all components of records placed. -/
structure Ready (t : Attributes) (scope : Scope) (w : Workspace) : Prop where
  resolves : w.attrs.Resolves t
  scope : ∀ ident d, scope.find? ident = some d → d.Placed w
  comps : ∀ (id : NodeId) info, t.records[id]? = some info → ∀ d ∈ info.comps,
    ∃ m name type, d = .comp m name type ∧ w.attrs.HasOffset m.id

variable {t : Attributes} {scope : Scope} {w w' : Workspace}

theorem Ready.mono (h : Ready t scope w) (hstep : w.Generates w') : Ready t scope w' where
  resolves := hstep.resolves.trans h.resolves
  scope ident d hd := hstep.declPlaced (h.scope ident d hd)
  comps id info hinfo d hd := by
    obtain ⟨m, name, type, rfl, hm⟩ := h.comps id info hinfo d hd
    exact ⟨m, name, type, rfl, hstep.hasOffset hm⟩

/-- The declarations of a block come into scope. -/
theorem Ready.block (h : Ready t scope w) {ds : List Decl} (hds : ∀ d ∈ ds, d.Placed w) :
    Ready t (blockScope ds :: scope) w :=
  { h with
    scope := fun ident d hd => by
      rcases Scope.mem_of_find?_cons hd with hmem | hd
      · obtain ⟨d', hd', heq⟩ := List.mem_map.mp hmem
        cases heq
        exact hds _ hd'
      · exact h.scope ident d hd }

/-- The parameters of a function come into scope. -/
theorem Ready.params (h : Ready t scope w) {ps : List Param}
    (hps : ∀ p ∈ ps, w.attrs.HasOffset p.mark.id) : Ready t (paramScope ps :: scope) w :=
  { h with
    scope := fun ident d hd => by
      rcases Scope.mem_of_find?_cons hd with hmem | hd
      · obtain ⟨p, hp, heq⟩ := List.mem_map.mp hmem
        cases heq
        exact hps p hp
      · exact h.scope ident d hd }

/-! ## §4 Lookups -/

theorem frameOf_spec {id : NodeId} {name : String} (h : w.HasFrame id) :
    Succeeds (frameOf id name) w fun f w' => w' = w ∧ f.fp.index ≤ w.supply.temps := by
  obtain ⟨f, hf, hfp, -⟩ := h
  refine Pass.attrs_spec ?_
  rw [hf]
  exact .pure ⟨rfl, hfp⟩

theorem offsetOf_spec {id : NodeId} {name : String} (h : w.attrs.HasOffset id) :
    Succeeds (offsetOf id name) w fun _ w' => w' = w := by
  obtain ⟨size, offset, depth, hid⟩ := h
  refine Pass.attrs_spec ?_
  rw [hid]
  exact .pure rfl

theorem atom_spec {m : Mark} {kind : AtomKind} {value : String} (hadmits : kind.Admits value)
    (hplaced : (Node.expr (.atom m kind value)).Placed w) :
    Succeeds (atom m kind value) w fun code w' => w' = w ∧ code.Sound w.supply.temps := by
  cases kind with
  | void | ptr | bool => exact .pure ⟨rfl, .const _⟩
  | char =>
    obtain ⟨code, hcode, hsound⟩ := sound_charConstant hadmits
    exact .ofExcept hcode ⟨rfl, hsound⟩
  | int =>
    obtain ⟨v, rfl⟩ := hadmits
    unfold atom
    dsimp only
    rw [Text.readWord_text]
    exact .pure ⟨rfl, .const v⟩
  | str =>
    obtain ⟨data, hdata⟩ := Option.isSome_iff_exists.mp hplaced
    refine Pass.attrs_spec ?_
    rw [hdata]
    exact .pure ⟨rfl, trivial, trivial⟩
  | unknown code => exact hadmits.elim

theorem isSome_access_of_placed {d : Decl} (h : d.Placed w) (hd : d.IsVariable) :
    (w.attrs.accesses[d.id]?).isSome := by
  cases d with
  | var m name type => exact h
  | par m name type =>
    obtain ⟨size, offset, depth, hm⟩ := h
    exact Option.isSome_iff_exists.mpr ⟨_, hm⟩
  | _ => exact hd.elim

/-- A name is a call or a location, the latter if it is bound to a variable. -/
theorem name_spec (h : Ready t scope w) {frame : Frame} (hfp : frame.fp.index ≤ w.supply.temps) {m : Mark}
    {ident : String} (hr : (Expr.name m ident).Resolved t scope) :
    Succeeds (name frame m ident) w fun code w' => w' = w ∧ code.Sound w.supply.temps ∧
      ((Expr.name m ident).IsLocation t → ∃ addr, code = .mem addr) := by
  obtain ⟨d, hfind, hbound, hvalue⟩ := hr
  have hplaced := h.scope ident d hfind
  rw [← h.resolves.declaredAt] at hbound
  -- The name is bound to one declaration, so a location is a name bound to a variable.
  have hlocation : (Expr.name m ident).IsLocation t → d.IsVariable := by
    rintro ⟨d', hd', hvar⟩
    rw [← h.resolves.declaredAt, hbound] at hd'
    cases hd'
    exact hvar
  refine Pass.attrs_spec ?_
  rw [hbound]
  cases d with
  | fn fm fname ps type body =>
    refine (frameOf_spec hplaced.1).bind fun callee w'' ⟨hw'', _⟩ => ?_
    subst hw''
    refine .pure ⟨rfl, .call rfl fun e he => ?_, fun hloc => (hlocation hloc).elim⟩
    exact List.mem_singleton.mp he ▸ sound_frameAddr hfp _
  | var dm dname type | par dm dname type =>
    obtain ⟨access, haccess⟩ := Option.isSome_iff_exists.mp (isSome_access_of_placed hplaced True.intro)
    dsimp only [Decl.id, Decl.mark] at haccess
    simp only [haccess]
    cases access with
    | static data => exact .pure ⟨rfl, ⟨trivial, trivial⟩, fun _ => ⟨_, rfl⟩⟩
    | relative size offset depth =>
      exact .pure ⟨rfl, sound_location (sound_frameAddr hfp _) _, fun _ => ⟨_, rfl⟩⟩
  | typ | comp => exact hvalue.elim

theorem element_spec {m : Mark} {base idx : IR.Expr} (h : (w.attrs.ofType[m.id]?).isSome)
    (hbase : base.Sound w.supply.temps) (hidx : idx.Sound w.supply.temps) :
    Succeeds (element m base idx) w fun code w' =>
      w' = w ∧ code.Sound w.supply.temps ∧ ∃ addr, code = .mem addr := by
  obtain ⟨ty, hty⟩ := Option.isSome_iff_exists.mp h
  refine Pass.attrs_spec ?_
  rw [hty]
  exact .pure ⟨rfl, .mem (.binop trivial hbase (.binop trivial hidx (.const _))), _, rfl⟩

theorem component_spec (h : Ready t scope w) {base : IR.Expr} {comp : CompName} {id : NodeId}
    {info : RecordInfo} {d : Decl} (hinfo : t.records[id]? = some info) (hd : d ∈ info.comps)
    (hbound : t.declaredAt[comp.mark.id]? = some d) (hbase : base.Sound w.supply.temps) :
    Succeeds (component base comp) w fun code w' =>
      w' = w ∧ code.Sound w.supply.temps ∧ ∃ addr, code = .mem addr := by
  obtain ⟨m, name, type, rfl, hoffset⟩ := h.comps id info hinfo d hd
  rw [← h.resolves.declaredAt] at hbound
  refine Pass.attrs_spec ?_
  rw [hbound]
  refine (offsetOf_spec hoffset).bind fun offset w'' hw'' => ?_
  subst hw''
  exact .pure ⟨rfl, sound_location hbase offset, _, rfl⟩

theorem cast_spec {type : TypeExpr} {arg : IR.Expr} (harg : arg.Sound w.supply.temps) :
    Succeeds (cast type arg) w fun code w' => w' = w ∧ code.Sound w.supply.temps := by
  refine Pass.attrs_spec ?_
  split
  · next ty _ =>
    refine .pure ⟨rfl, ?_⟩
    split
    · exact .binop trivial harg (.const 256)
    · exact harg
  · exact .pure ⟨rfl, harg⟩

theorem callee_spec {m : Mark} {ident : String} {args : Nat} {fm : Mark} {name : String}
    {ps : List Param} {type : TypeExpr} {body : Expr}
    (hbound : w.attrs.declaredAt[m.id]? = some (.fn fm name ps type body)) (hargs : ps.length = args) :
    Succeeds (callee m ident args) w fun r w' => r = (fm, name, ps) ∧ w' = w := by
  refine Pass.attrs_spec ?_
  rw [hbound]
  dsimp only
  rw [if_pos hargs]
  exact .pure ⟨rfl, rfl⟩

/-- Code that is recorded is there, and nothing else is lost. -/
theorem setCode_spec {m : Mark} {code : IR.Expr} (h : code.Sound w.supply.temps) :
    Succeeds (setCode m code) w fun code' w' => code' = code ∧ w.Generates w' ∧ w'.HasCode m.id := by
  refine ⟨_, _, rfl, rfl, ⟨⟨rfl, rfl, rfl, rfl, rfl, rfl⟩, rfl, rfl, rfl, rfl, fun id hid => ?_⟩, code,
    Std.TreeMap.getElem?_insert_self, h⟩
  obtain ⟨code', hcode', hsound⟩ := hid
  by_cases heq : m.id = id
  · subst heq
    exact ⟨code, Std.TreeMap.getElem?_insert_self, h⟩
  · refine ⟨code', ?_, hsound⟩
    show (w.attrs.exprCode.insert m.id code)[id]? = _
    rw [Std.TreeMap.getElem?_insert, if_neg (by simpa using heq)]
    exact hcode'

theorem setStmtCode_spec (m : Mark) (code : IR.Stmt) :
    Succeeds (setStmtCode m code) w fun code' w' => code' = code ∧ w.Generates w' :=
  ⟨_, _, rfl, rfl, ⟨rfl, rfl, rfl, rfl, rfl, rfl⟩, rfl, rfl, rfl, rfl, fun _ h => h⟩

/-- Taking labels generates nothing. -/
theorem withSupply_spec {α : Type} {act : StateM Supply α}
    (h : (act.run w.supply).2.temps = w.supply.temps) :
    Succeeds (Pass.withSupply act) w fun a w' => a = (act.run w.supply).1 ∧ w.Generates w' := by
  refine ⟨_, _, rfl, rfl, ⟨rfl, rfl, rfl, rfl, rfl, rfl⟩, rfl, rfl, rfl, h,
    fun id ⟨code, hcode, hsound⟩ => ⟨code, hcode, ?_⟩⟩
  show code.Sound (act.run w.supply).2.temps
  rw [h]
  exact hsound

/-! ## §5 Expressions, statements and declarations -/

/-- The body of a function, if there is one, has sound code. -/
def FunctionCoded (w : Workspace) : Node → Prop
  | .decl (.fn _ _ _ _ body) => ∀ m, body.mark? = some m → w.HasCode m.id
  | _ => True

/-- All functions in a list of nodes have code. -/
def AllCoded (ns : List Node) (w : Workspace) : Prop := ∀ n ∈ ns, FunctionCoded w n

theorem allCoded_nil (w : Workspace) : AllCoded [] w := fun _ h => (List.not_mem_nil h).elim

theorem allCoded_append {ns ns' : List Node} : AllCoded (ns ++ ns') w ↔ AllCoded ns w ∧ AllCoded ns' w :=
  List.forall_mem_append

theorem allCoded_below {n : Node} {ns : List Node} :
    AllCoded (Node.below (fun _ => true) n ns) w ↔ FunctionCoded w n ∧ AllCoded ns w :=
  List.forall_mem_cons

theorem AllCoded.mono {ns : List Node} (h : AllCoded ns w) (hstep : w.Generates w') : AllCoded ns w' := by
  intro node hnode
  have hcoded := h node hnode
  unfold FunctionCoded at hcoded ⊢
  split at hcoded
  · exact fun m hm => hstep.code m.id (hcoded m hm)
  · trivial

/-- What is known behind the code of an expression. -/
structure Coded (t : Attributes) (w : Workspace) (e : Expr) (code : IR.Expr) (w' : Workspace) : Prop where
  grows : w.Generates w'
  sound : code.Sound w'.supply.temps
  /-- The code of a location is a memory operand. -/
  operand : e.IsLocation t → ∃ addr, code = .mem addr
  recorded : ∀ m, e.mark? = some m → w'.HasCode m.id
  functions : AllCoded (e.walk fun _ => true) w'

/-- Recording its code finishes an expression. -/
theorem setCode_coded {e : Expr} {m : Mark} {code : IR.Expr} (hm : e.mark? = some m)
    (hgrows : w.Generates w') (hsound : code.Sound w'.supply.temps)
    (hoperand : e.IsLocation t → ∃ addr, code = .mem addr)
    (hfunctions : AllCoded (e.walk fun _ => true) w') :
    Succeeds (setCode m code) w' (Coded t w e) := by
  refine (setCode_spec hsound).imp fun code' w'' ⟨hcode', hset, hhas⟩ => ?_
  subst hcode'
  refine ⟨hgrows.trans hset, hset.temps ▸ hsound, hoperand, fun m' hm' => ?_, hfunctions.mono hset⟩
  rw [hm] at hm'
  cases hm'
  exact hhas

/-- What is known behind the code of a statement. -/
structure StmtCoded (w : Workspace) (ns : List Node) (code : IR.Stmt) (w' : Workspace) : Prop where
  grows : w.Generates w'
  sound : code.Sound w'.supply.temps
  functions : AllCoded ns w'

/-- Recording its code finishes a statement. -/
theorem setStmtCode_coded {m : Mark} {ns : List Node} {code : IR.Stmt} (hgrows : w.Generates w')
    (hsound : code.Sound w'.supply.temps) (hfunctions : AllCoded ns w') :
    Succeeds (setStmtCode m code) w' (StmtCoded w ns) := by
  refine (setStmtCode_spec m code).imp fun code' w'' ⟨hcode', hset⟩ => ?_
  subst hcode'
  exact ⟨hgrows.trans hset, hset.temps ▸ hsound, hfunctions.mono hset⟩

mutual

/-- **Generating an expression** gives sound code. -/
theorem expr_spec : ∀ (e : Expr) {frame : Frame} {scope : Scope} {w : Workspace}, e.Complete →
    e.Resolved t scope → Ready t scope w → frame.fp.index ≤ w.supply.temps →
    Layout.AllPlaced (e.walk fun _ => true) w → Succeeds (expr frame e) w (Coded t w e)
  | .absent, _, _, _, hc, _, _, _, _ => hc.elim
  | .atom m kind value, frame, scope, w, hc, _, _, _, hplaced => by
    rw [Expr.walk, Layout.allPlaced_below] at hplaced
    rw [expr]
    refine (atom_spec hc hplaced.1).bind fun code w' ⟨hw', hsound⟩ => ?_
    subst hw'
    refine setCode_coded rfl (.refl _) hsound (fun h => h.elim) ?_
    rw [Expr.walk]
    exact allCoded_below.mpr ⟨True.intro, allCoded_nil _⟩
  | .name m ident, frame, scope, w, _, hr, hready, hfp, _ => by
    rw [expr]
    -- A name is a variable, whose code is a place in memory, or a function, which is called.
    refine (name_spec hready hfp hr).bind fun code w' ⟨hw', hsound, hoperand⟩ => ?_
    subst hw'
    refine setCode_coded rfl (.refl _) hsound hoperand ?_
    rw [Expr.walk]
    exact allCoded_below.mpr ⟨True.intro, allCoded_nil _⟩
  | .unary m op arg, frame, scope, w, ⟨hop, hc⟩, ⟨hr, haddr⟩, hready, hfp, hplaced => by
    rw [Expr.walk, Layout.allPlaced_below] at hplaced
    rw [expr]
    refine (expr_spec arg hc hr hready hfp hplaced.2).bind fun code w₁ harg => ?_
    -- The address operator needs the code of its operand to be a place in memory.
    obtain ⟨code', hcode', hsound⟩ := sound_unary hop harg.sound fun h => harg.operand (haddr h)
    refine .ofExcept_bind hcode' ?_
    refine setCode_coded rfl harg.grows hsound (fun h => h.elim) ?_
    rw [Expr.walk]
    exact allCoded_below.mpr ⟨True.intro, harg.functions⟩
  | .deref m arg, frame, scope, w, hc, hr, hready, hfp, hplaced => by
    rw [Expr.walk, Layout.allPlaced_below] at hplaced
    rw [expr]
    refine (expr_spec arg hc hr hready hfp hplaced.2).bind fun code w₁ harg => ?_
    -- The value of the operand is the address of the place.
    refine setCode_coded rfl harg.grows (.mem harg.sound) (fun _ => ⟨_, rfl⟩) ?_
    rw [Expr.walk]
    exact allCoded_below.mpr ⟨True.intro, harg.functions⟩
  | .binary m op fst snd, frame, scope, w, ⟨hop, hc₁, hc₂⟩, ⟨hr₁, hr₂⟩, hready, hfp, hplaced => by
    rw [Expr.walk, Layout.allPlaced_below, Layout.allPlaced_append] at hplaced
    rw [expr]
    refine (expr_spec fst hc₁ hr₁ hready hfp hplaced.2.1).bind fun fst' w₁ hfst => ?_
    -- Generation hands out no temps, so the frame pointer is still below the supply.
    refine (expr_spec snd hc₂ hr₂ (hready.mono hfst.grows) (hfst.grows.temps ▸ hfp)
      (hfst.grows.allPlaced hplaced.2.2)).bind fun snd' w₂ hsnd => ?_
    obtain ⟨op', hop', hknown⟩ := sound_binaryOp hop
    refine .ofExcept_bind hop' ?_
    refine setCode_coded rfl (hfst.grows.trans hsnd.grows)
      (.binop hknown (hsnd.grows.temps ▸ hfst.sound) hsnd.sound) (fun h => h.elim) ?_
    rw [Expr.walk]
    exact allCoded_below.mpr ⟨True.intro,
      allCoded_append.mpr ⟨hfst.functions.mono hsnd.grows, hsnd.functions⟩⟩
  | .index m array idx, frame, scope, w, ⟨hc₁, hc₂⟩, ⟨hr₁, hr₂, hloc, htype⟩, hready, hfp, hplaced => by
    rw [Expr.walk, Layout.allPlaced_below, Layout.allPlaced_append] at hplaced
    rw [expr]
    refine (expr_spec array hc₁ hr₁ hready hfp hplaced.2.1).bind fun array' w₁ harray => ?_
    -- Resolution lets only locations be indexed, and their code has an address.
    obtain ⟨addr, rfl⟩ := harray.operand hloc
    refine .ofExcept_bind rfl ?_
    refine (expr_spec idx hc₂ hr₂ (hready.mono harray.grows) (harray.grows.temps ▸ hfp)
      (harray.grows.allPlaced hplaced.2.2)).bind fun idx' w₂ hidx => ?_
    have htype : (w₂.attrs.ofType[m.id]?).isSome := by
      rw [hidx.grows.resolves.ofType, harray.grows.resolves.ofType, hready.resolves.ofType]
      exact htype
    refine (element_spec htype (hidx.grows.temps ▸ harray.sound.addr) hidx.sound).bind
      fun code w' ⟨hw', hsound, hoperand⟩ => ?_
    subst hw'
    refine setCode_coded rfl (harray.grows.trans hidx.grows) hsound (fun _ => hoperand) ?_
    rw [Expr.walk]
    exact allCoded_below.mpr ⟨True.intro,
      allCoded_append.mpr ⟨harray.functions.mono hidx.grows, hidx.functions⟩⟩
  | .select m record comp, frame, scope, w, hc, ⟨hr, hloc, id, info, d, hinfo, hd, hbound⟩, hready, hfp,
      hplaced => by
    rw [Expr.walk, Layout.allPlaced_below, Layout.allPlaced_append] at hplaced
    rw [expr]
    refine (expr_spec record hc hr hready hfp hplaced.2.1).bind fun record' w₁ hrecord => ?_
    obtain ⟨addr, rfl⟩ := hrecord.operand hloc
    refine .ofExcept_bind rfl ?_
    refine (component_spec (hready.mono hrecord.grows) hinfo hd hbound hrecord.sound.addr).bind
      fun code w' ⟨hw', hsound, hoperand⟩ => ?_
    subst hw'
    refine setCode_coded rfl hrecord.grows hsound (fun _ => hoperand) ?_
    rw [Expr.walk]
    refine allCoded_below.mpr ⟨True.intro, allCoded_append.mpr ⟨hrecord.functions, ?_⟩⟩
    exact fun node hnode => List.mem_singleton.mp hnode ▸ True.intro
  | .call m ident args, frame, scope, w, hc, ⟨hr, fm, name, ps, type, body, hfind, hbound, hlength, _⟩,
      hready, hfp, hplaced => by
    rw [Expr.walk, Layout.allPlaced_below] at hplaced
    have hfn := hready.scope ident _ hfind
    rw [expr]
    rw [← hready.resolves.declaredAt] at hbound
    refine (callee_spec hbound hlength).bind fun r w' ⟨hr', hw'⟩ => ?_
    subst hr' hw'
    refine (frameOf_spec hfn.1).bind fun called w'' ⟨hw'', _⟩ => ?_
    subst hw''
    refine (arguments_spec args hc hr hready hfp hplaced.2 hfn.2 hlength).bind
      fun r w₁ ⟨hgrows, hlengths, hsound, hfunctions⟩ => ?_
    -- The static link goes in front of the arguments, at offset 0.
    have hcall : (IR.Expr.call called.label (0 :: r.1) (staticLink frame called :: r.2)).Sound
        w₁.supply.temps :=
      .call (congrArg (· + 1) hlengths) (List.forall_mem_cons.mpr
        ⟨sound_frameAddr (hgrows.temps ▸ hfp) _, hsound⟩)
    refine setCode_coded rfl hgrows hcall (fun h => h.elim) ?_
    rw [Expr.walk]
    exact allCoded_below.mpr ⟨True.intro, hfunctions⟩
  | .block m ss, frame, scope, w, hc, hr, hready, hfp, hplaced => by
    rw [Expr.walk, Layout.allPlaced_below] at hplaced
    rw [expr]
    -- The value of a block is that of its last statement.
    refine (stmts_spec ss hc hr hready hfp hplaced.2).bind fun codes w₁ ⟨hgrows, hsound, hfunctions⟩ => ?_
    refine setCode_coded rfl hgrows (sound_blockValue hsound) (fun h => h.elim) ?_
    rw [Expr.walk]
    exact allCoded_below.mpr ⟨True.intro, hfunctions⟩
  | .cast m arg type, frame, scope, w, hc, hr, hready, hfp, hplaced => by
    rw [Expr.walk, Layout.allPlaced_below] at hplaced
    rw [expr]
    refine (expr_spec arg hc hr hready hfp hplaced.2).bind fun code w₁ harg => ?_
    -- Only the cast to a character adds code.
    refine (cast_spec harg.sound).bind fun code' w' ⟨hw', hsound⟩ => ?_
    subst hw'
    refine setCode_coded rfl harg.grows hsound (fun h => h.elim) ?_
    rw [Expr.walk]
    exact allCoded_below.mpr ⟨True.intro, harg.functions⟩
  | .scope m ds body, frame, scope, w, ⟨hc₁, hc₂⟩, ⟨hr₁, hr₂⟩, hready, hfp, hplaced => by
    rw [Expr.walk, Layout.allPlaced_below, Layout.allPlaced_append] at hplaced
    rw [expr]
    -- The functions of the block are generated before its expression, which sees all its names.
    have hinner := hready.block (Layout.placed_of_walkAll hplaced.2.1)
    refine (decls_spec ds hc₁ hr₁ hinner hplaced.2.1).bind fun _ w₁ ⟨hgrows, hfunctions⟩ => ?_
    refine (expr_spec body hc₂ hr₂ (hinner.mono hgrows) (hgrows.temps ▸ hfp)
      (hgrows.allPlaced hplaced.2.2)).bind fun code w₂ hbody => ?_
    refine setCode_coded rfl (hgrows.trans hbody.grows) hbody.sound (fun h => h.elim) ?_
    rw [Expr.walk]
    exact allCoded_below.mpr ⟨True.intro,
      allCoded_append.mpr ⟨hfunctions.mono hbody.grows, hbody.functions⟩⟩

theorem arguments_spec : ∀ (es : List Expr) {frame : Frame} {scope : Scope} {w : Workspace}
    {ps : List Param}, Expr.CompleteAll es → Expr.ResolvedAll t scope es → Ready t scope w →
    frame.fp.index ≤ w.supply.temps → Layout.AllPlaced (Expr.walkAll (fun _ => true) es) w →
    (∀ p ∈ ps, w.attrs.HasOffset p.mark.id) → ps.length = es.length →
    Succeeds (arguments frame ps es) w fun r w' => w.Generates w' ∧ r.1.length = r.2.length ∧
      (∀ e ∈ r.2, e.Sound w'.supply.temps) ∧ AllCoded (Expr.walkAll (fun _ => true) es) w'
  | [], _, _, w, _, _, _, _, _, _, _, _ => by
    rw [arguments, Expr.walkAll]
    exact .pure ⟨.refl w, rfl, fun _ h => (List.not_mem_nil h).elim, allCoded_nil w⟩
  | _ :: _, _, _, _, [], _, _, _, _, _, _, hlength => by cases hlength
  | e :: es, frame, scope, w, p :: ps, ⟨hc₁, hc₂⟩, ⟨hr₁, _, hr₂⟩, hready, hfp, hplaced, hps, hlength => by
    rw [Expr.walkAll, Layout.allPlaced_append] at hplaced
    obtain ⟨hp, hps⟩ := List.forall_mem_cons.mp hps
    rw [arguments, Expr.walkAll]
    refine (offsetOf_spec hp).bind fun off w' hw' => ?_
    subst hw'
    refine (expr_spec e hc₁ hr₁ hready hfp hplaced.1).bind fun code w₁ he => ?_
    refine (arguments_spec es hc₂ hr₂ (hready.mono he.grows) (he.grows.temps ▸ hfp)
      (he.grows.allPlaced hplaced.2) (fun q hq => he.grows.hasOffset (hps q hq))
      (Nat.succ.inj hlength)).bind fun r w₂ ⟨hgrows, hlengths, hsound, hfunctions⟩ => .pure ?_
    refine ⟨he.grows.trans hgrows, congrArg (· + 1) hlengths, ?_, ?_⟩
    · exact List.forall_mem_cons.mpr ⟨hgrows.temps ▸ he.sound, hsound⟩
    · exact allCoded_append.mpr ⟨he.functions.mono hgrows, hfunctions⟩

theorem stmt_spec : ∀ (s : Stmt) {frame : Frame} {scope : Scope} {w : Workspace}, s.Complete →
    s.Resolved t scope → Ready t scope w → frame.fp.index ≤ w.supply.temps →
    Layout.AllPlaced (s.walk fun _ => true) w →
    Succeeds (stmt frame s) w (StmtCoded w (s.walk fun _ => true))
  | .absent, _, _, _, hc, _, _, _, _ => hc.elim
  | .eval m e, frame, scope, w, hc, hr, hready, hfp, hplaced => by
    rw [Stmt.walk, Layout.allPlaced_below] at hplaced
    rw [stmt, Stmt.walk]
    refine (expr_spec e hc hr hready hfp hplaced.2).bind fun code w₁ he => ?_
    exact setStmtCode_coded he.grows (.eval he.sound) (allCoded_below.mpr ⟨True.intro, he.functions⟩)
  | .assign m dst src, frame, scope, w, ⟨hc₁, hc₂⟩, ⟨hr₁, hr₂, hloc⟩, hready, hfp, hplaced => by
    rw [Stmt.walk, Layout.allPlaced_below, Layout.allPlaced_append] at hplaced
    rw [stmt, Stmt.walk]
    refine (expr_spec dst hc₁ hr₁ hready hfp hplaced.2.1).bind fun dst' w₁ hdst => ?_
    -- Resolution lets only locations be assigned to.
    obtain ⟨addr, rfl⟩ := hdst.operand hloc
    refine (expr_spec src hc₂ hr₂ (hready.mono hdst.grows) (hdst.grows.temps ▸ hfp)
      (hdst.grows.allPlaced hplaced.2.2)).bind fun src' w₂ hsrc => ?_
    refine setStmtCode_coded (hdst.grows.trans hsrc.grows)
      (.store (hsrc.grows.temps ▸ hdst.sound) hsrc.sound) (allCoded_below.mpr ⟨True.intro, ?_⟩)
    exact allCoded_append.mpr ⟨hdst.functions.mono hsrc.grows, hsrc.functions⟩
  | .cond m test yes no, frame, scope, w, ⟨hc₁, hc₂, hc₃⟩, ⟨hr₁, hr₂, hr₃⟩, hready, hfp, hplaced => by
    rw [Stmt.walk, Layout.allPlaced_below, Layout.allPlaced_append, Layout.allPlaced_append] at hplaced
    obtain ⟨-, ⟨hplaced₁, hplaced₂⟩, hplaced₃⟩ := hplaced
    -- Without an `else` the code has an empty sequence in its place.
    by_cases hno : no = .absent
    · subst hno
      rw [stmt, Stmt.walk, Stmt.walk]
      refine (expr_spec test hc₁ hr₁ hready hfp hplaced₁).bind fun test' w₁ htest => ?_
      refine (stmt_spec yes hc₂ hr₂ (hready.mono htest.grows) (htest.grows.temps ▸ hfp)
        (htest.grows.allPlaced hplaced₂)).bind fun yes' w₂ hyes => ?_
      refine (withSupply_spec rfl).bind fun code w₃ ⟨hcode, hlabels⟩ => ?_
      subst hcode
      refine setStmtCode_coded ((htest.grows.trans hyes.grows).trans hlabels) ?_
        (allCoded_below.mpr ⟨True.intro, ?_⟩)
      -- The labels are taken after the parts are generated, and no temp is taken with them.
      · rw [hlabels.temps]
        exact sound_conditional (hyes.grows.temps ▸ htest.sound) hyes.sound
          (.seq_of_forall fun _ h => (List.not_mem_nil h).elim) _
      · exact (allCoded_append.mpr ⟨allCoded_append.mpr ⟨htest.functions.mono hyes.grows,
          hyes.functions⟩, allCoded_nil _⟩).mono hlabels
    · rw [stmt, Stmt.walk]
      · refine (expr_spec test hc₁ hr₁ hready hfp hplaced₁).bind fun test' w₁ htest => ?_
        have hready₁ := hready.mono htest.grows
        refine (stmt_spec yes hc₂ hr₂ hready₁ (htest.grows.temps ▸ hfp)
          (htest.grows.allPlaced hplaced₂)).bind fun yes' w₂ hyes => ?_
        have hboth := htest.grows.trans hyes.grows
        refine (stmt_spec no (hc₃.resolve_left hno) hr₃ (hready₁.mono hyes.grows) (hboth.temps ▸ hfp)
          (hboth.allPlaced hplaced₃)).bind fun no' w₃ hno => ?_
        refine (withSupply_spec rfl).bind fun code w₄ ⟨hcode, hlabels⟩ => ?_
        subst hcode
        refine setStmtCode_coded ((hboth.trans hno.grows).trans hlabels) ?_
          (allCoded_below.mpr ⟨True.intro, ?_⟩)
        · rw [hlabels.temps]
          exact sound_conditional ((hyes.grows.trans hno.grows).temps ▸ htest.sound)
            (hno.grows.temps ▸ hyes.sound) hno.sound _
        · exact (allCoded_append.mpr ⟨(allCoded_append.mpr ⟨htest.functions.mono hyes.grows,
            hyes.functions⟩).mono hno.grows, hno.functions⟩).mono hlabels
      · exact hno
  | .loop m test body, frame, scope, w, ⟨hc₁, hc₂⟩, ⟨hr₁, hr₂⟩, hready, hfp, hplaced => by
    rw [Stmt.walk, Layout.allPlaced_below, Layout.allPlaced_append] at hplaced
    rw [stmt, Stmt.walk]
    refine (expr_spec test hc₁ hr₁ hready hfp hplaced.2.1).bind fun test' w₁ htest => ?_
    refine (stmt_spec body hc₂ hr₂ (hready.mono htest.grows) (htest.grows.temps ▸ hfp)
      (htest.grows.allPlaced hplaced.2.2)).bind fun body' w₂ hbody => ?_
    refine (withSupply_spec rfl).bind fun code w₃ ⟨hcode, hlabels⟩ => ?_
    subst hcode
    refine setStmtCode_coded ((htest.grows.trans hbody.grows).trans hlabels) ?_
      (allCoded_below.mpr ⟨True.intro, ?_⟩)
    · rw [hlabels.temps]
      exact sound_whileLoop (hbody.grows.temps ▸ htest.sound) hbody.sound _
    · exact (allCoded_append.mpr ⟨htest.functions.mono hbody.grows, hbody.functions⟩).mono hlabels

theorem stmts_spec : ∀ (ss : List Stmt) {frame : Frame} {scope : Scope} {w : Workspace},
    Stmt.CompleteAll ss → Stmt.ResolvedAll t scope ss → Ready t scope w →
    frame.fp.index ≤ w.supply.temps → Layout.AllPlaced (Stmt.walkAll (fun _ => true) ss) w →
    Succeeds (stmts frame ss) w fun codes w' => w.Generates w' ∧
      (∀ s ∈ codes, s.Sound w'.supply.temps) ∧ AllCoded (Stmt.walkAll (fun _ => true) ss) w'
  | [], _, _, w, _, _, _, _, _ => by
    rw [stmts, Stmt.walkAll]
    exact .pure ⟨.refl w, fun _ h => (List.not_mem_nil h).elim, allCoded_nil w⟩
  | s :: ss, frame, scope, w, ⟨hc₁, hc₂⟩, ⟨hr₁, hr₂⟩, hready, hfp, hplaced => by
    rw [Stmt.walkAll, Layout.allPlaced_append] at hplaced
    rw [stmts, Stmt.walkAll]
    refine (stmt_spec s hc₁ hr₁ hready hfp hplaced.1).bind fun code w₁ hs => ?_
    refine (stmts_spec ss hc₂ hr₂ (hready.mono hs.grows) (hs.grows.temps ▸ hfp)
      (hs.grows.allPlaced hplaced.2)).bind fun codes w₂ ⟨hgrows, hsound, hfunctions⟩ => .pure ?_
    refine ⟨hs.grows.trans hgrows, ?_, allCoded_append.mpr ⟨hs.functions.mono hgrows, hfunctions⟩⟩
    exact List.forall_mem_cons.mpr ⟨hgrows.temps ▸ hs.sound, hsound⟩

theorem decls_spec : ∀ (ds : List Decl) {scope : Scope} {w : Workspace}, Decl.CompleteAll ds →
    Decl.ResolvedAll t scope ds → Ready t scope w →
    Layout.AllPlaced (Decl.walkAll (fun _ => true) ds) w →
    Succeeds (decls ds) w fun _ w' =>
      w.Generates w' ∧ AllCoded (Decl.walkAll (fun _ => true) ds) w'
  | [], _, w, _, _, _, _ => by
    rw [decls, Decl.walkAll]
    exact .pure ⟨.refl w, allCoded_nil w⟩
  | .fn m name ps type body :: ds, scope, w, ⟨hc₁, hc₂⟩, ⟨⟨_, hr₁⟩, hr₂⟩, hready, hplaced => by
    rw [Decl.walkAll, Decl.walk, Layout.allPlaced_append, Layout.allPlaced_below,
      Layout.allPlaced_append] at hplaced
    obtain ⟨⟨⟨hframe, hps⟩, -, hbody⟩, hds⟩ := hplaced
    -- Parameters are nodes, but no functions.
    have hcoded : ∀ w, AllCoded (ps.map fun p => Node.decl p.decl) w := by
      intro w node hnode
      obtain ⟨p, -, rfl⟩ := List.mem_map.mp hnode
      trivial
    rw [decls, Decl.walkAll, Decl.walk]
    refine (frameOf_spec hframe).bind fun frame w' ⟨hw', hfp⟩ => ?_
    subst hw'
    -- A missing body generates nothing, and nothing is recorded for it.
    rcases hc₁ with rfl | hc₁
    · refine (decls_spec ds hc₂ hr₂ hready hds).imp fun _ w₁ ⟨hgrows, hfunctions⟩ => ⟨hgrows, ?_⟩
      refine allCoded_append.mpr ⟨allCoded_below.mpr ⟨fun _ h => (by cases h), ?_⟩, hfunctions⟩
      rw [Expr.walk]
      exact allCoded_append.mpr ⟨hcoded w₁, allCoded_nil w₁⟩
    -- A function has code, recorded under its number and found there in the end.
    · have hexpr : Succeeds (expr frame body) w' (Coded t w' body) :=
        expr_spec body hc₁ hr₁ (hready.params hps) hfp hbody
      have hrest : ∀ (code : IR.Expr) (w₁ : Workspace), Coded t w' body code w₁ →
          Succeeds (decls ds) w₁ fun _ w₂ => w'.Generates w₂ ∧
            AllCoded (Node.below (fun _ => true) (.decl (.fn m name ps type body))
              ((ps.map fun p => Node.decl p.decl) ++ body.walk fun _ => true) ++
                Decl.walkAll (fun _ => true) ds) w₂ := by
        intro code w₁ hcode
        refine (decls_spec ds hc₂ hr₂ (hready.mono hcode.grows) (hcode.grows.allPlaced hds)).imp
          fun _ w₂ ⟨hgrows, hfunctions⟩ => ⟨hcode.grows.trans hgrows, ?_⟩
        refine allCoded_append.mpr ⟨allCoded_below.mpr ⟨fun m' hm' => ?_, ?_⟩, hfunctions⟩
        · exact hgrows.code m'.id (hcode.recorded m' hm')
        · exact allCoded_append.mpr ⟨hcoded w₂, hcode.functions.mono hgrows⟩
      cases body with
      | absent => exact hc₁.elim
      | _ => exact hexpr.bind hrest
  | .var m name type :: ds, scope, w, ⟨_, hc⟩, ⟨_, hr⟩, hready, hplaced
  | .typ m name type :: ds, scope, w, ⟨_, hc⟩, ⟨_, hr⟩, hready, hplaced => by
    rw [Decl.walkAll, Decl.walk, Layout.allPlaced_append] at hplaced
    rw [decls, Decl.walkAll, Decl.walk]
    · refine (decls_spec ds hc hr hready hplaced.2).imp fun _ w₁ ⟨hgrows, hfunctions⟩ => ⟨hgrows, ?_⟩
      exact allCoded_append.mpr ⟨allCoded_below.mpr ⟨True.intro, allCoded_nil w₁⟩, hfunctions⟩
    · simp
  | .par m name type :: ds, _, _, hc, _, _, _ => hc.1.elim
  | .comp m name type :: ds, _, _, hc, _, _, _ => hc.1.elim

end

/-- **A complete program that has been resolved and laid out is generated**, and every function with a
body has sound code. -/
theorem program_spec {p : Program} (hcomplete : Decl.CompleteAll p.decls)
    (hresolved : Decl.ResolvedAll t [blockScope p.decls] p.decls) (hresolves : w.attrs.Resolves t)
    (hlaid : p.LaidOut w) :
    Succeeds (program p) w fun _ w' =>
      w.Generates w' ∧ AllCoded (Decl.walkAll (fun _ => true) p.decls) w' := by
  have hready : Ready t [] w :=
    { resolves := hresolves
      scope := fun _ _ h => by cases h
      comps := hresolves.records ▸ hlaid.comps }
  exact decls_spec p.decls hcomplete hresolved (hready.block (Layout.placed_of_walkAll hlaid.nodes))
    hlaid.nodes

end Generation

end Source

end MmixBackend
