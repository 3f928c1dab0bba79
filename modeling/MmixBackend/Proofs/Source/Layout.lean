import MmixBackend.Proofs.Results
import MmixBackend.Proofs.Source.Numbering
import MmixBackend.Proofs.Source.Scoping
import MmixBackend.Proofs.Types.Reader
import MmixBackend.Source.Layout

/-!
# Every node gets its place

A program that is complete and resolved is laid out without a fault, and afterwards every function has a
frame, every variable and parameter a location, every string constant its static data, and every
component of a record an offset. Laying out the nodes numbered from `lo` to `hi` places these nodes and
touches no others, so what has been placed keeps its place.

## Main statements

- `Layout.expr_spec`: an expression is laid out, and its nodes are placed.
- `Layout.program_spec`: the same for a program, its records and its global variables.
-/

namespace MmixBackend.Source

/-! ## §1 Places -/

/-- The function has a frame, with temps that have been handed out. -/
def Workspace.HasFrame (w : Workspace) (id : NodeId) : Prop :=
  ∃ f, w.attrs.frames[id]? = some f ∧ f.fp.index ≤ w.supply.temps ∧ f.rv.index ≤ w.supply.temps

/-- The entity lies at an offset from a frame pointer or from the start of a record. -/
def Attributes.HasOffset (t : Attributes) (id : NodeId) : Prop :=
  ∃ size offset depth, t.accesses[id]? = some (.relative size offset depth)

/-- A declaration has its frame or its location. -/
def Decl.Placed (w : Workspace) : Decl → Prop
  | .fn m _ params _ _ => w.HasFrame m.id ∧ ∀ p ∈ params, w.attrs.HasOffset p.mark.id
  | .var m _ _ => (w.attrs.accesses[m.id]?).isSome
  | .par m _ _ => w.attrs.HasOffset m.id
  | .typ .. | .comp .. => True

/-- A node has what later passes look up for it. -/
def Node.Placed (w : Workspace) : Node → Prop
  | .decl d => d.Placed w
  | .expr (.atom m .str _) => (w.attrs.strings[m.id]?).isSome
  | _ => True

/-- A variable lies at a label. -/
def Decl.IsStatic (t : Attributes) : Decl → Prop
  | .var m _ _ => ∃ data, t.accesses[m.id]? = some (.static data)
  | _ => True

/-- The names and types that resolution has found are those of `t`. -/
structure Attributes.Resolves (t' t : Attributes) : Prop where
  declaredAt : t'.declaredAt = t.declaredAt
  ofType : t'.ofType = t.ofType
  isType : t'.isType = t.isType
  declType : t'.declType = t.declType
  typeDefs : t'.typeDefs = t.typeDefs
  records : t'.records = t.records

namespace Attributes.Resolves

theorem refl (t : Attributes) : t.Resolves t := ⟨rfl, rfl, rfl, rfl, rfl, rfl⟩

theorem trans {t t' t'' : Attributes} (h' : t''.Resolves t') (h : t'.Resolves t) : t''.Resolves t :=
  ⟨h'.declaredAt.trans h.declaredAt, h'.ofType.trans h.ofType, h'.isType.trans h.isType,
    h'.declType.trans h.declType, h'.typeDefs.trans h.typeDefs, h'.records.trans h.records⟩

end Attributes.Resolves

/-! ## §2 How the workspace grows -/

/-- What laying out the nodes with numbers from `lo` up to `hi` does to the workspace. -/
structure Workspace.Extends (lo hi : Nat) (w w' : Workspace) : Prop where
  resolves : w'.attrs.Resolves w.attrs
  temps : w.supply.temps ≤ w'.supply.temps
  frames : ∀ id : Nat, id < lo ∨ hi ≤ id → w'.attrs.frames[id]? = w.attrs.frames[id]?
  accesses : ∀ id : Nat, id < lo ∨ hi ≤ id → w'.attrs.accesses[id]? = w.attrs.accesses[id]?
  strings : ∀ id : Nat, id < lo ∨ hi ≤ id → w'.attrs.strings[id]? = w.attrs.strings[id]?

/-- The workspace `w'` has what `w` has for the nodes with numbers from `lo` up to `hi`. -/
structure Workspace.Settled (lo hi : Nat) (w w' : Workspace) : Prop where
  temps : w.supply.temps ≤ w'.supply.temps
  frames : ∀ id : Nat, lo ≤ id → id < hi → w'.attrs.frames[id]? = w.attrs.frames[id]?
  accesses : ∀ id : Nat, lo ≤ id → id < hi → w'.attrs.accesses[id]? = w.attrs.accesses[id]?
  strings : ∀ id : Nat, lo ≤ id → id < hi → w'.attrs.strings[id]? = w.attrs.strings[id]?

/-- Laying out nodes with numbers from `lo` up to `hi` establishes what `P` says about the workspace: it
holds as soon as this has what has been recorded for the nodes. -/
structure Workspace.Establishes (lo hi : Nat) (w w' : Workspace) (P : Workspace → Prop) : Prop where
  grows : w.Extends lo hi w'
  holds : ∀ w'', w'.Settled lo hi w'' → P w''

namespace Workspace

variable {lo hi lo₁ hi₁ lo₂ hi₂ : Nat} {w w' w'' : Workspace} {P Q : Workspace → Prop}

namespace Extends

theorem refl (lo hi : Nat) (w : Workspace) : w.Extends lo hi w :=
  ⟨.refl _, Int.le_refl _, fun _ _ => rfl, fun _ _ => rfl, fun _ _ => rfl⟩

theorem widen (h : w.Extends lo₁ hi₁ w') (hlo : lo ≤ lo₁) (hhi : hi₁ ≤ hi) : w.Extends lo hi w' :=
  { h with
    frames := fun id hid => h.frames id (by omega)
    accesses := fun id hid => h.accesses id (by omega)
    strings := fun id hid => h.strings id (by omega) }

theorem trans (h : w.Extends lo hi w') (h' : w'.Extends lo hi w'') : w.Extends lo hi w'' where
  resolves := h'.resolves.trans h.resolves
  temps := Int.le_trans h.temps h'.temps
  frames id hid := (h'.frames id hid).trans (h.frames id hid)
  accesses id hid := (h'.accesses id hid).trans (h.accesses id hid)
  strings id hid := (h'.strings id hid).trans (h.strings id hid)

/-- A step that takes temps and labels only. -/
theorem ofSupply {σ : Supply} (h : w.supply.temps ≤ σ.temps) :
    w.Extends lo hi { w with supply := σ } :=
  ⟨.refl _, h, fun _ _ => rfl, fun _ _ => rfl, fun _ _ => rfl⟩

end Extends

namespace Settled

theorem refl (lo hi : Nat) (w : Workspace) : w.Settled lo hi w :=
  ⟨Int.le_refl _, fun _ _ _ => rfl, fun _ _ _ => rfl, fun _ _ _ => rfl⟩

theorem narrow (h : w.Settled lo hi w') (hlo : lo ≤ lo₁) (hhi : hi₁ ≤ hi) : w.Settled lo₁ hi₁ w' where
  temps := h.temps
  frames id h₁ h₂ := h.frames id (by omega) (by omega)
  accesses id h₁ h₂ := h.accesses id (by omega) (by omega)
  strings id h₁ h₂ := h.strings id (by omega) (by omega)

/-- What has been placed stays while other nodes are laid out. -/
theorem before (h : w'.Settled lo hi w'') (hstep : w.Extends lo₂ hi₂ w') (hlo : lo ≤ lo₁)
    (hhi : hi₁ ≤ hi) (hapart : hi₁ ≤ lo₂ ∨ hi₂ ≤ lo₁) : w.Settled lo₁ hi₁ w'' where
  temps := Int.le_trans hstep.temps h.temps
  frames id h₁ h₂ := (h.frames id (by omega) (by omega)).trans (hstep.frames id (by omega))
  accesses id h₁ h₂ := (h.accesses id (by omega) (by omega)).trans (hstep.accesses id (by omega))
  strings id h₁ h₂ := (h.strings id (by omega) (by omega)).trans (hstep.strings id (by omega))

end Settled

namespace Establishes

theorem imp (h : w.Establishes lo hi w' P) (hPQ : ∀ w, P w → Q w) : w.Establishes lo hi w' Q :=
  ⟨h.grows, fun w ht => hPQ w (h.holds w ht)⟩

theorem widen (h : w.Establishes lo₁ hi₁ w' P) (hlo : lo ≤ lo₁) (hhi : hi₁ ≤ hi) :
    w.Establishes lo hi w' P :=
  ⟨h.grows.widen hlo hhi, fun w ht => h.holds w (ht.narrow hlo hhi)⟩

/-- A step that establishes nothing. -/
theorem ofExtends (h : w.Extends lo hi w') (hP : ∀ w, P w) : w.Establishes lo hi w' P :=
  ⟨h, fun w _ => hP w⟩

/-- One part after another: what the first one has established stays. -/
theorem seq (h : w.Establishes lo₁ hi₁ w' P) (h' : w'.Establishes lo₂ hi₂ w'' Q)
    (hapart : hi₁ ≤ lo₂ ∨ hi₂ ≤ lo₁) (hlo₁ : lo ≤ lo₁) (hhi₁ : hi₁ ≤ hi) (hlo₂ : lo ≤ lo₂)
    (hhi₂ : hi₂ ≤ hi) : w.Establishes lo hi w'' fun w => P w ∧ Q w where
  grows := (h.grows.widen hlo₁ hhi₁).trans (h'.grows.widen hlo₂ hhi₂)
  holds w ht := ⟨h.holds w (ht.before h'.grows hlo₁ hhi₁ hapart), h'.holds w (ht.narrow hlo₂ hhi₂)⟩

/-- Parts with adjacent intervals, from left to right. -/
theorem next {k : Nat} (h : w.Establishes lo k w' P) (h' : w'.Establishes k hi w'' Q) (hlo : lo ≤ k)
    (hhi : k ≤ hi) : w.Establishes lo hi w'' fun w => P w ∧ Q w :=
  h.seq h' (.inl (Nat.le_refl k)) (Nat.le_refl lo) hhi hlo (Nat.le_refl hi)

end Establishes

end Workspace

/-- Reading the tables changes nothing. -/
theorem Pass.attrs_spec {α : Type} {w : Workspace} {f : Attributes → Pass α} {Q : α → Workspace → Prop}
    (h : Succeeds (f w.attrs) w Q) : Succeeds (Pass.attrs >>= f) w Q := by
  obtain ⟨a, w', hrun, hQ⟩ := h
  exact ⟨a, w', (run_bind_ok rfl).trans hrun, hQ⟩

theorem Pass.attrs_ensures {α : Type} {w : Workspace} {f : Attributes → Pass α} {Q : α → Workspace → Prop}
    (h : Ensures (f w.attrs) w Q) : Ensures (Pass.attrs >>= f) w Q := by
  intro a w' hrun
  rw [run_bind_ok (show (Pass.attrs).run.run w = (.ok w.attrs, w) from rfl)] at hrun
  exact h a w' hrun

namespace Layout

open Workspace

variable {w : Workspace} {t : Attributes}

/-! ## §3 Primitive steps -/

theorem establishes_access {id : Nat} (a : Access) :
    w.Establishes id (id + 1)
      { w with attrs := { w.attrs with accesses := w.attrs.accesses.insert id a } }
      fun w => w.attrs.accesses[id]? = some a where
  grows :=
    { resolves := ⟨rfl, rfl, rfl, rfl, rfl, rfl⟩
      temps := Int.le_refl _
      frames := fun _ _ => rfl
      strings := fun _ _ => rfl
      accesses := fun id' hid' => by
        have hne : id ≠ id' := by omega
        simp [Std.TreeMap.getElem?_insert, hne] }
  holds w' h := by
    rw [h.accesses id (Nat.le_refl _) (Nat.lt_succ_self _)]
    exact Std.TreeMap.getElem?_insert_self

theorem establishes_strings {id : Nat} (data : StaticData) :
    w.Establishes id (id + 1)
      { w with attrs := { w.attrs with strings := w.attrs.strings.insert id data } }
      fun w => w.attrs.strings[id]? = some data where
  grows :=
    { resolves := ⟨rfl, rfl, rfl, rfl, rfl, rfl⟩
      temps := Int.le_refl _
      frames := fun _ _ => rfl
      accesses := fun _ _ => rfl
      strings := fun id' hid' => by
        have hne : id ≠ id' := by omega
        simp [Std.TreeMap.getElem?_insert, hne] }
  holds w' h := by
    rw [h.strings id (Nat.le_refl _) (Nat.lt_succ_self _)]
    exact Std.TreeMap.getElem?_insert_self

theorem establishes_frame {id : Nat} {f : Frame} (hfp : f.fp.index ≤ w.supply.temps)
    (hrv : f.rv.index ≤ w.supply.temps) :
    w.Establishes id (id + 1) { w with attrs := { w.attrs with frames := w.attrs.frames.insert id f } }
      fun w => w.attrs.frames[id]? = some f ∧ f.fp.index ≤ w.supply.temps ∧
        f.rv.index ≤ w.supply.temps where
  grows :=
    { resolves := ⟨rfl, rfl, rfl, rfl, rfl, rfl⟩
      temps := Int.le_refl _
      accesses := fun _ _ => rfl
      strings := fun _ _ => rfl
      frames := fun id' hid' => by
        have hne : id ≠ id' := by omega
        simp [Std.TreeMap.getElem?_insert, hne] }
  holds w' h := by
    refine ⟨?_, Int.le_trans hfp h.temps, Int.le_trans hrv h.temps⟩
    rw [h.frames id (Nat.le_refl _) (Nat.lt_succ_self _)]
    exact Std.TreeMap.getElem?_insert_self

theorem setAccess_spec (id : NodeId) (a : Access) :
    Succeeds (setAccess id a) w fun _ w' =>
      w.Establishes id (id + 1) w' fun w => w.attrs.accesses[id]? = some a :=
  ⟨_, _, rfl, establishes_access a⟩

theorem declSize_spec {id : NodeId} {name : String} (h : (w.attrs.declType[id]?).isSome) :
    Succeeds (declSize id name) w fun _ w' => w' = w := by
  obtain ⟨ty, hty⟩ := Option.isSome_iff_exists.mp h
  refine Pass.attrs_spec ?_
  rw [hty]
  exact .pure rfl

theorem argSize_spec {callee : String} {arg : Expr} (h : (w.attrs.typeOf? arg).isSome) :
    Succeeds (argSize callee arg) w fun _ w' => w' = w := by
  obtain ⟨ty, hty⟩ := Option.isSome_iff_exists.mp h
  refine Pass.attrs_spec ?_
  rw [hty]
  exact .pure rfl

/-- Steps that take temps and labels leave the tables alone. -/
theorem withSupply_spec {α : Type} {act : StateM Supply α} {Q : α → Workspace → Prop}
    (h : Q (act.run w.supply).1 { w with supply := (act.run w.supply).2 }) :
    Succeeds (Pass.withSupply act) w Q :=
  ⟨_, _, rfl, h⟩

theorem temps_functionLabel (isGlobal : Bool) (name : String) (σ : Supply) :
    ((functionLabel isGlobal name).run σ).2.temps = σ.temps := by
  unfold functionLabel
  split <;> rfl

theorem label_spec (isGlobal : Bool) (name : String) (lo hi : Nat) :
    Succeeds (Pass.withSupply (functionLabel isGlobal name)) w fun _ w' =>
      w.Extends lo hi w' ∧ w'.attrs = w.attrs :=
  ⟨_, _, rfl, .ofSupply (Int.le_of_eq (temps_functionLabel isGlobal name w.supply).symm), rfl⟩

/-- The temps of a frame are fresh. -/
theorem freshFrame_spec (label : Label) (depth locsSize argsSize : Word) (lo hi : Nat) :
    Succeeds (Pass.withSupply (Frame.fresh label depth locsSize argsSize)) w fun f w' =>
      w.Extends lo hi w' ∧ f.fp.index ≤ w'.supply.temps ∧ f.rv.index ≤ w'.supply.temps := by
  refine ⟨_, _, rfl, .ofSupply ?_, ?_, Int.le_refl _⟩
  · show w.supply.temps ≤ w.supply.temps + 1 + 1
    omega
  · show w.supply.temps + 1 ≤ w.supply.temps + 1 + 1
    omega

theorem setString_spec (id : NodeId) (data : StaticData) :
    Succeeds (Pass.update fun t => { t with strings := t.strings.insert id data }) w fun _ w' =>
      w.Establishes id (id + 1) w' fun w => w.attrs.strings[id]? = some data :=
  ⟨_, _, rfl, establishes_strings data⟩

theorem setFrame_spec {id : NodeId} {f : Frame} (hfp : f.fp.index ≤ w.supply.temps)
    (hrv : f.rv.index ≤ w.supply.temps) :
    Succeeds (Pass.update fun t => { t with frames := t.frames.insert id f }) w fun _ w' =>
      w.Establishes id (id + 1) w' fun w =>
        w.attrs.frames[id]? = some f ∧ f.fp.index ≤ w.supply.temps ∧ f.rv.index ≤ w.supply.temps :=
  ⟨_, _, rfl, establishes_frame hfp hrv⟩

theorem params_spec (depth : Word) : ∀ (ps : List Param) {before : Word} {w : Workspace} {lo hi : Nat},
    Param.NumberedAll ps lo hi → (∀ p ∈ ps, (w.attrs.declType[p.mark.id]?).isSome) →
    Succeeds (params depth before ps) w fun _ w' =>
      w.Establishes lo hi w' fun w => ∀ p ∈ ps, w.attrs.HasOffset p.mark.id
  | [], _, _, _, _, _, _ => by
    rw [params]
    exact .pure (.ofExtends (.refl ..) fun _ _ hp => (List.not_mem_nil hp).elim)
  | p :: ps, before, w, lo, hi, ⟨hid, _, hnum⟩, htyped => by
    obtain ⟨hp, hps⟩ := List.forall_mem_cons.mp htyped
    have hle := Param.le_of_numberedAll hnum
    subst hid
    rw [params]
    refine (declSize_spec hp).bind fun size w' hw' => ?_
    subst hw'
    refine (setAccess_spec p.mark.id _).bind fun _ w₁ hfirst => ?_
    refine (params_spec depth ps hnum fun q hq => ?_).imp fun _ w₂ hrest => ?_
    · rw [hfirst.grows.resolves.declType]
      exact hps q hq
    · have hall := hfirst.seq hrest (.inl (Nat.le_succ _)) (Nat.le_refl _) (by omega) (by omega)
        (Nat.le_refl hi)
      exact hall.imp fun w h => List.forall_mem_cons.mpr ⟨⟨_, _, _, h.1⟩, h.2⟩

theorem placeVariable_spec {m : Mark} {name : String} {n : Needs}
    (h : (w.attrs.declType[m.id]?).isSome) :
    Succeeds (placeVariable m name n) w fun n' w' => n'.isGlobal = n.isGlobal ∧
      w.Establishes m.id (m.id + 1) w' fun w => (w.attrs.accesses[m.id]?).isSome ∧
        (n.isGlobal = true → ∃ data, w.attrs.accesses[m.id]? = some (.static data)) := by
  refine (declSize_spec h).bind fun size w' hw' => ?_
  subst hw'
  by_cases hglobal : n.isGlobal = true
  · rw [if_pos hglobal]
    refine (setAccess_spec m.id _).bind fun _ w' hplaced => .pure ⟨rfl, ?_⟩
    exact hplaced.imp fun w h => ⟨by rw [h]; rfl, fun _ => ⟨_, h⟩⟩
  · rw [if_neg hglobal]
    refine (setAccess_spec m.id _).bind fun _ w' hplaced => .pure ⟨rfl, ?_⟩
    exact hplaced.imp fun w h => ⟨by rw [h]; rfl, fun h => (hglobal h).elim⟩

/-! ## §4 Expressions, statements and declarations -/

/-- All nodes of a list are placed. -/
def AllPlaced (ns : List Node) (w : Workspace) : Prop := ∀ n ∈ ns, n.Placed w

theorem allPlaced_nil (w : Workspace) : AllPlaced [] w := fun _ h => (List.not_mem_nil h).elim

theorem allPlaced_append {ns ns' : List Node} : AllPlaced (ns ++ ns') w ↔ AllPlaced ns w ∧
    AllPlaced ns' w :=
  List.forall_mem_append

theorem allPlaced_cons {n : Node} {ns : List Node} : AllPlaced (n :: ns) w ↔ n.Placed w ∧
    AllPlaced ns w :=
  List.forall_mem_cons

theorem allPlaced_below {n : Node} {ns : List Node} :
    AllPlaced (Node.below (fun _ => true) n ns) w ↔ n.Placed w ∧ AllPlaced ns w :=
  allPlaced_cons

/-- The declarations of a block are among its nodes. -/
theorem placed_of_walkAll {ds : List Decl} (h : AllPlaced (Decl.walkAll (fun _ => true) ds) w) :
    ∀ d ∈ ds, d.Placed w := by
  induction ds with
  | nil => exact fun _ hd => (List.not_mem_nil hd).elim
  | cons d ds ih =>
    rw [Decl.walkAll, allPlaced_append] at h
    refine List.forall_mem_cons.mpr ⟨h.1 (.decl d) ?_, ih h.2⟩
    cases d <;> exact List.mem_cons_self

/-- A node that needs no place of its own is placed with its parts. -/
theorem Establishes.parent {lo hi : Nat} {w' : Workspace} {ns : List Node}
    (h : w.Establishes (lo + 1) hi w' (AllPlaced ns)) (n : Node) (hn : ∀ w, n.Placed w) :
    w.Establishes lo hi w' (AllPlaced (Node.below (fun _ => true) n ns)) :=
  (h.widen (Nat.le_succ lo) (Nat.le_refl _)).imp fun w hns => allPlaced_below.mpr ⟨hn w, hns⟩

mutual

/-- **Laying out an expression** places its nodes. -/
theorem expr_spec : ∀ (e : Expr) {n : Needs} {scope : Scope} {w : Workspace} {lo hi : Nat}, e.Complete →
    e.Numbered lo hi → e.Resolved t scope → w.attrs.Resolves t →
    Succeeds (expr n e) w fun _ w' => w.Establishes lo hi w' (AllPlaced (e.walk fun _ => true))
  | .absent, _, _, _, _, _, hc, _, _, _ => hc.elim
  | .atom m kind value, n, scope, w, lo, hi, _, ⟨hid, hhi⟩, _, _ => by
    subst hid hhi
    rw [expr, Expr.walk]
    -- Only a string constant has a place of its own, under a label taken for it.
    by_cases hkind : kind = .str
    · subst hkind
      rw [if_pos rfl]
      refine .bind (withSupply_spec (Q := fun _ w' => w.Extends m.id (m.id + 1) w')
        (.ofSupply (Int.le_refl _))) fun label w₁ hlabel => ?_
      refine (setString_spec m.id _).bind fun _ w₂ hstring => .pure ⟨hlabel.trans hstring.grows, ?_⟩
      intro w' h
      exact allPlaced_below.mpr
        ⟨Option.isSome_iff_exists.mpr ⟨_, hstring.holds w' h⟩, allPlaced_nil w'⟩
    · rw [if_neg hkind]
      refine .pure (.ofExtends (.refl ..) fun w => allPlaced_below.mpr ⟨?_, allPlaced_nil w⟩)
      cases kind with
      | str => exact (hkind rfl).elim
      | _ => exact True.intro
  | .name m ident, n, scope, w, lo, hi, _, ⟨hid, hhi⟩, _, _ => by
    subst hid hhi
    rw [expr, Expr.walk]
    -- The binding matters for what the function needs, not for where the node is.
    refine Pass.attrs_spec ?_
    have hplaced : w.Establishes m.id (m.id + 1) w (AllPlaced [.expr (.name m ident)]) :=
      .ofExtends (.refl ..) fun w => allPlaced_cons.mpr ⟨True.intro, allPlaced_nil w⟩
    split <;> exact .pure hplaced
  | .unary m op arg, n, scope, w, lo, hi, ⟨_, hc⟩, ⟨_, hnum⟩, ⟨hr, _⟩, ht => by
    rw [expr, Expr.walk]
    refine (expr_spec arg hc hnum hr ht).bind fun n' w' harg => .pure ?_
    -- Nodes other than atoms and declarations have no place of their own.
    exact Establishes.parent harg _ fun _ => True.intro
  | .deref m arg, n, scope, w, lo, hi, hc, ⟨_, hnum⟩, hr, ht => by
    rw [expr, Expr.walk]
    exact (expr_spec arg hc hnum hr ht).imp fun n' w' harg => Establishes.parent harg _ fun _ =>
      True.intro
  | .binary m op fst snd, n, scope, w, lo, hi, ⟨_, hc₁, hc₂⟩, ⟨_, k, hnum₁, hnum₂⟩, ⟨hr₁, hr₂⟩, ht => by
    rw [expr, Expr.walk]
    refine (expr_spec fst hc₁ hnum₁ hr₁ ht).bind fun n' w₁ hfst => ?_
    refine (expr_spec snd hc₂ hnum₂ hr₂ (hfst.grows.resolves.trans ht)).imp fun _ w₂ hsnd => ?_
    have hparts := hfst.next hsnd (fst.le_of_numbered hnum₁) (snd.le_of_numbered hnum₂)
    exact Establishes.parent (hparts.imp fun _ => allPlaced_append.mpr) _ fun _ => True.intro
  | .index m array idx, n, scope, w, lo, hi, ⟨hc₁, hc₂⟩, ⟨_, k, hnum₁, hnum₂⟩, ⟨hr₁, hr₂, _, _⟩, ht => by
    rw [expr, Expr.walk]
    refine (expr_spec array hc₁ hnum₁ hr₁ ht).bind fun n' w₁ harray => ?_
    refine (expr_spec idx hc₂ hnum₂ hr₂ (harray.grows.resolves.trans ht)).imp fun _ w₂ hidx => ?_
    have hparts := harray.next hidx (array.le_of_numbered hnum₁) (idx.le_of_numbered hnum₂)
    exact Establishes.parent (hparts.imp fun _ => allPlaced_append.mpr) _ fun _ => True.intro
  | .select m record comp, n, scope, w, lo, hi, hc, ⟨_, k, hnum, _, hhi⟩, ⟨hr, _⟩, ht => by
    subst hhi
    rw [expr, Expr.walk]
    refine (expr_spec record hc hnum hr ht).imp fun _ w' hrecord => ?_
    refine Establishes.parent ((hrecord.widen (Nat.le_refl _) (Nat.le_succ k)).imp fun w h => ?_) _
      fun _ => True.intro
    -- The name of the component is a node without a place.
    exact allPlaced_append.mpr ⟨h, allPlaced_cons.mpr ⟨True.intro, allPlaced_nil w⟩⟩
  | .call m ident args, n, scope, w, lo, hi, hc, ⟨_, hnum⟩, ⟨hr, _⟩, ht => by
    rw [expr, Expr.walk]
    refine (exprs_spec args hc hnum hr ht).bind fun _ w' hargs => .pure ?_
    exact Establishes.parent hargs _ fun _ => True.intro
  | .block m ss, n, scope, w, lo, hi, hc, ⟨_, hnum⟩, hr, ht => by
    rw [expr, Expr.walk]
    exact (stmts_spec ss hc hnum hr ht).imp fun _ w' hss => Establishes.parent hss _ fun _ => True.intro
  | .cast m arg type, n, scope, w, lo, hi, hc, ⟨_, k, hnum, _, hhi⟩, hr, ht => by
    subst hhi
    rw [expr, Expr.walk]
    refine (expr_spec arg hc hnum hr ht).imp fun _ w' harg => ?_
    exact Establishes.parent (harg.widen (Nat.le_refl _) (Nat.le_succ k)) _ fun _ => True.intro
  | .scope m ds body, n, scope, w, lo, hi, ⟨hc₁, hc₂⟩, ⟨_, k, hnum₁, hnum₂⟩, ⟨hr₁, hr₂⟩, ht => by
    rw [expr, Expr.walk]
    refine (decls_spec ds hc₁ hnum₁ hr₁ ht).bind fun n' w₁ hds => ?_
    refine (expr_spec body hc₂ hnum₂ hr₂ (hds.grows.resolves.trans ht)).imp fun _ w₂ hbody => ?_
    have hparts := hds.next hbody (Decl.le_of_numberedAll ds hnum₁) (body.le_of_numbered hnum₂)
    exact Establishes.parent (hparts.imp fun _ h => allPlaced_append.mpr ⟨h.1.1, h.2⟩) _
      fun _ => True.intro

theorem exprs_spec : ∀ (es : List Expr) {callee : String} {n : Needs} {size : Word} {scope : Scope}
    {w : Workspace} {lo hi : Nat}, Expr.CompleteAll es → Expr.NumberedAll es lo hi →
    Expr.ResolvedAll t scope es → w.attrs.Resolves t →
    Succeeds (exprs callee n size es) w fun _ w' =>
      w.Establishes lo hi w' (AllPlaced (Expr.walkAll (fun _ => true) es))
  | [], _, _, _, _, w, _, _, _, _, _, _ => by
    rw [exprs, Expr.walkAll]
    exact .pure (.ofExtends (.refl ..) allPlaced_nil)
  | e :: es, callee, n, size, scope, w, lo, hi, ⟨hc₁, hc₂⟩, ⟨k, hnum₁, hnum₂⟩, ⟨hr₁, htype, hr₂⟩, ht => by
    rw [exprs, Expr.walkAll]
    refine (expr_spec e hc₁ hnum₁ hr₁ ht).bind fun n' w₁ he => ?_
    have ht₁ := he.grows.resolves.trans ht
    have htype : (w₁.attrs.typeOf? e).isSome := by
      unfold Attributes.typeOf?
      rw [ht₁.ofType]
      exact htype
    refine (argSize_spec htype).bind fun size' w' hw' => ?_
    subst hw'
    refine (exprs_spec es hc₂ hnum₂ hr₂ ht₁).imp fun _ w₂ hes => ?_
    have hparts := he.next hes (e.le_of_numbered hnum₁) (Expr.le_of_numberedAll es hnum₂)
    exact hparts.imp fun _ => allPlaced_append.mpr

theorem stmt_spec : ∀ (s : Stmt) {n : Needs} {scope : Scope} {w : Workspace} {lo hi : Nat}, s.Complete →
    s.Numbered lo hi → s.Resolved t scope → w.attrs.Resolves t →
    Succeeds (stmt n s) w fun _ w' => w.Establishes lo hi w' (AllPlaced (s.walk fun _ => true))
  | .absent, _, _, _, _, _, hc, _, _, _ => hc.elim
  | .eval m e, n, scope, w, lo, hi, hc, ⟨_, hnum⟩, hr, ht => by
    rw [stmt, Stmt.walk]
    exact (expr_spec e hc hnum hr ht).imp fun _ w' he => Establishes.parent he _ fun _ => True.intro
  | .assign m dst src, n, scope, w, lo, hi, ⟨hc₁, hc₂⟩, ⟨_, k, hnum₁, hnum₂⟩, ⟨hr₁, hr₂, _⟩, ht => by
    rw [stmt, Stmt.walk]
    refine (expr_spec dst hc₁ hnum₁ hr₁ ht).bind fun n' w₁ hdst => ?_
    refine (expr_spec src hc₂ hnum₂ hr₂ (hdst.grows.resolves.trans ht)).imp fun _ w₂ hsrc => ?_
    have hparts := hdst.next hsrc (dst.le_of_numbered hnum₁) (src.le_of_numbered hnum₂)
    exact Establishes.parent (hparts.imp fun _ => allPlaced_append.mpr) _ fun _ => True.intro
  | .cond m test yes no, n, scope, w, lo, hi, ⟨hc₁, hc₂, hc₃⟩, ⟨_, j, k, hnum₁, hnum₂, hnum₃⟩,
      ⟨hr₁, hr₂, hr₃⟩, ht => by
    have hj := test.le_of_numbered hnum₁
    have hk := yes.le_of_numbered hnum₂
    have hhi := no.le_of_numbered hnum₃
    -- The branches differ by a missing `else`, which has no nodes and takes no step.
    by_cases hno : no = .absent
    · subst hno
      rw [stmt, Stmt.walk]
      refine (expr_spec test hc₁ hnum₁ hr₁ ht).bind fun n' w₁ htest => ?_
      refine (stmt_spec yes hc₂ hnum₂ hr₂ (htest.grows.resolves.trans ht)).imp fun _ w₂ hyes => ?_
      have hparts := (htest.next hyes hj hk).widen (Nat.le_refl _) hhi
      refine Establishes.parent (hparts.imp fun w h => ?_) _ fun _ => True.intro
      exact allPlaced_append.mpr ⟨allPlaced_append.mpr h, allPlaced_nil w⟩
    · rw [stmt, Stmt.walk]
      · refine (expr_spec test hc₁ hnum₁ hr₁ ht).bind fun n' w₁ htest => ?_
        have ht₁ := htest.grows.resolves.trans ht
        refine (stmt_spec yes hc₂ hnum₂ hr₂ ht₁).bind fun _ w₂ hyes => ?_
        refine (stmt_spec no (hc₃.resolve_left hno) hnum₃ hr₃ (hyes.grows.resolves.trans ht₁)).imp
          fun _ w₃ hno => ?_
        have hparts := (htest.next hyes hj hk).next hno (Nat.le_trans hj hk) hhi
        refine Establishes.parent (hparts.imp fun w h => ?_) _ fun _ => True.intro
        exact allPlaced_append.mpr ⟨allPlaced_append.mpr h.1, h.2⟩
      · exact hno
  | .loop m test body, n, scope, w, lo, hi, ⟨hc₁, hc₂⟩, ⟨_, k, hnum₁, hnum₂⟩, ⟨hr₁, hr₂⟩, ht => by
    rw [stmt, Stmt.walk]
    refine (expr_spec test hc₁ hnum₁ hr₁ ht).bind fun n' w₁ htest => ?_
    refine (stmt_spec body hc₂ hnum₂ hr₂ (htest.grows.resolves.trans ht)).imp fun _ w₂ hbody => ?_
    have hparts := htest.next hbody (test.le_of_numbered hnum₁) (body.le_of_numbered hnum₂)
    exact Establishes.parent (hparts.imp fun _ => allPlaced_append.mpr) _ fun _ => True.intro

theorem stmts_spec : ∀ (ss : List Stmt) {n : Needs} {scope : Scope} {w : Workspace} {lo hi : Nat},
    Stmt.CompleteAll ss → Stmt.NumberedAll ss lo hi → Stmt.ResolvedAll t scope ss →
    w.attrs.Resolves t →
    Succeeds (stmts n ss) w fun _ w' =>
      w.Establishes lo hi w' (AllPlaced (Stmt.walkAll (fun _ => true) ss))
  | [], _, _, w, _, _, _, _, _, _ => by
    rw [stmts, Stmt.walkAll]
    exact .pure (.ofExtends (.refl ..) allPlaced_nil)
  | s :: ss, n, scope, w, lo, hi, ⟨hc₁, hc₂⟩, ⟨k, hnum₁, hnum₂⟩, ⟨hr₁, hr₂⟩, ht => by
    rw [stmts, Stmt.walkAll]
    refine (stmt_spec s hc₁ hnum₁ hr₁ ht).bind fun n' w₁ hs => ?_
    refine (stmts_spec ss hc₂ hnum₂ hr₂ (hs.grows.resolves.trans ht)).imp fun _ w₂ hss => ?_
    have hparts := hs.next hss (s.le_of_numbered hnum₁) (Stmt.le_of_numberedAll ss hnum₂)
    exact hparts.imp fun _ => allPlaced_append.mpr

/-- The declarations of a block outside of all functions are static. -/
theorem decls_spec : ∀ (ds : List Decl) {n : Needs} {scope : Scope} {w : Workspace} {lo hi : Nat},
    Decl.CompleteAll ds → Decl.NumberedAll ds lo hi → Decl.ResolvedAll t scope ds →
    w.attrs.Resolves t →
    Succeeds (decls n ds) w fun _ w' => w.Establishes lo hi w' fun w =>
      AllPlaced (Decl.walkAll (fun _ => true) ds) w ∧
        (n.isGlobal = true → ∀ d ∈ ds, d.IsStatic w.attrs)
  | [], _, _, w, _, _, _, _, _, _ => by
    rw [decls, Decl.walkAll]
    exact .pure (.ofExtends (.refl ..) fun w => ⟨allPlaced_nil w, fun _ _ h => (List.not_mem_nil h).elim⟩)
  | .fn m name ps type body :: ds, n, scope, w, lo, hi, ⟨hc₁, hc₂⟩,
      ⟨k, ⟨hid, j, hparams, _, hnum₁⟩, hnum₂⟩, ⟨⟨htyped, hr₁⟩, hr₂⟩, ht => by
    subst hid
    have hj := Param.le_of_numberedAll hparams
    have hk := body.le_of_numbered hnum₁
    have hhi := Decl.le_of_numberedAll ds hnum₂
    rw [decls, Decl.walkAll, Decl.walk]
    have htypes : ∀ p ∈ ps, (w.attrs.declType[p.mark.id]?).isSome := by
      rw [ht.declType]
      exact fun p hp => (htyped.2 p hp).isSome
    refine (label_spec n.isGlobal name m.id (m.id + 1)).bind fun label w₁ ⟨hlabel, hattrs⟩ => ?_
    refine (params_spec (n.depth + 1) ps hparams (hattrs ▸ htypes)).bind fun _ w₂ hps => ?_
    have ht₂ := hps.grows.resolves.trans (hattrs ▸ ht)
    -- Behind the body the frame is made, whatever the body needs.
    have hrest : ∀ (own : Needs) (w₃ : Workspace),
        w₂.Establishes (j + 1) k w₃ (AllPlaced (body.walk fun _ => true)) →
        Succeeds (do
          let frame ← Pass.withSupply (Frame.fresh label n.depth own.locsSize own.argsSize)
          Pass.update fun t => { t with frames := t.frames.insert m.id frame }
          decls n ds) w₃ fun _ w' => w.Establishes m.id hi w' fun w =>
            AllPlaced (Node.below (fun _ => true) (.decl (.fn m name ps type body))
              ((ps.map fun p => Node.decl p.decl) ++ body.walk fun _ => true) ++
                Decl.walkAll (fun _ => true) ds) w ∧
            (n.isGlobal = true → ∀ d ∈ Decl.fn m name ps type body :: ds, d.IsStatic w.attrs) := by
      intro own w₃ hbody
      refine (freshFrame_spec label _ _ _ m.id (m.id + 1)).bind fun f w₄ ⟨hfresh, hfp, hrv⟩ => ?_
      refine (setFrame_spec hfp hrv).bind fun _ w₅ hframe => ?_
      have hframe : w₃.Establishes m.id (m.id + 1) w₅ _ := ⟨hfresh.trans hframe.grows, hframe.holds⟩
      have ht₅ := hframe.grows.resolves.trans (hbody.grows.resolves.trans ht₂)
      refine (decls_spec ds hc₂ hnum₂ hr₂ ht₅).imp fun _ w₆ hds => ?_
      have hparts := hps.seq hbody (.inl (Nat.le_succ j)) (Nat.le_refl _) (Nat.le_of_succ_le hk)
        (Nat.le_succ_of_le hj) (Nat.le_refl k)
      have hfn := hparts.seq hframe (.inr (Nat.le_refl _)) (Nat.le_succ m.id) (Nat.le_refl k)
        (Nat.le_refl _) (by omega)
      have hall := hfn.next hds (by omega) hhi
      refine ⟨(hlabel.widen (Nat.le_refl _) (by omega)).trans hall.grows, fun w h => ?_⟩
      obtain ⟨⟨⟨hps, hbody⟩, hframe⟩, hds, hstatics⟩ := hall.holds w h
      -- The function itself has its frame, its parameters their offsets and its body its places.
      refine ⟨allPlaced_append.mpr ⟨allPlaced_below.mpr ⟨⟨⟨f, hframe⟩, hps⟩, ?_⟩, hds⟩, fun h => ?_⟩
      · refine allPlaced_append.mpr ⟨fun node hnode => ?_, hbody⟩
        obtain ⟨p, hp, rfl⟩ := List.mem_map.mp hnode
        exact hps p hp
      · exact List.forall_mem_cons.mpr ⟨True.intro, hstatics h⟩
    -- A missing body has no nodes and takes no step.
    rcases hc₁ with rfl | hc₁
    · refine hrest _ w₂ (.ofExtends (.refl ..) fun w => ?_)
      rw [Expr.walk]
      exact allPlaced_nil w
    · have hbody := expr_spec (n := { depth := n.depth + 1 }) body hc₁ hnum₁ hr₁ ht₂
      cases body with
      | absent => exact hc₁.elim
      | _ => exact hbody.bind hrest
  | .var m name type :: ds, n, scope, w, lo, hi, ⟨_, hc⟩, ⟨k, ⟨hid, _, hk⟩, hnum⟩, ⟨htyped, hr⟩, ht => by
    subst hid hk
    have hhi := Decl.le_of_numberedAll ds hnum
    rw [decls, Decl.walkAll, Decl.walk]
    have htyped : (w.attrs.declType[m.id]?).isSome := by
      rw [ht.declType]
      exact htyped
    refine (placeVariable_spec htyped).bind fun n' w₁ ⟨hglobal, hvar⟩ => ?_
    refine (decls_spec ds hc hnum hr (hvar.grows.resolves.trans ht)).imp fun _ w₂ hds => ?_
    have hparts := hvar.seq hds (.inl (Nat.le_succ _)) (Nat.le_refl _) (by omega) (by omega)
      (Nat.le_refl hi)
    -- Whether the block is global is passed on unchanged from one declaration to the next.
    refine hparts.imp fun w ⟨⟨hplaced, hstatic⟩, hrest, hstatics⟩ => ⟨?_, fun h => ?_⟩
    · exact allPlaced_append.mpr ⟨allPlaced_below.mpr ⟨hplaced, allPlaced_nil w⟩, hrest⟩
    · exact List.forall_mem_cons.mpr ⟨hstatic h, hstatics (hglobal.trans h)⟩
  | .typ m name type :: ds, n, scope, w, lo, hi, ⟨_, hc⟩, ⟨k, ⟨_, _, hk⟩, hnum⟩, ⟨_, hr⟩, ht => by
    subst hk
    rw [decls, Decl.walkAll, Decl.walk]
    refine (decls_spec ds hc hnum hr ht).imp fun _ w₂ hds => ?_
    refine (hds.widen (Nat.le_add_right lo 2) (Nat.le_refl hi)).imp
      fun w ⟨hrest, hstatics⟩ => ⟨?_, fun h => ?_⟩
    · exact allPlaced_append.mpr ⟨allPlaced_below.mpr ⟨True.intro, allPlaced_nil w⟩, hrest⟩
    · exact List.forall_mem_cons.mpr ⟨True.intro, hstatics h⟩
  | .par m name type :: ds, _, _, _, _, _, hc, _, _, _ => hc.1.elim
  | .comp m name type :: ds, _, _, _, _, _, hc, _, _, _ => hc.1.elim

end

/-! ## §5 Records and programs -/

/-- Entities get offsets, and none loses its own. -/
structure Offsets (w w' : Workspace) : Prop where
  resolves : w'.attrs.Resolves w.attrs
  supply : w'.supply = w.supply
  strings : w'.attrs.strings = w.attrs.strings
  offsets : ∀ id, w.attrs.HasOffset id → w'.attrs.HasOffset id

theorem Offsets.refl (w : Workspace) : Offsets w w := ⟨.refl _, rfl, rfl, fun _ h => h⟩

theorem Offsets.trans {w w' w'' : Workspace} (h : Offsets w w') (h' : Offsets w' w'') : Offsets w w'' :=
  ⟨h'.resolves.trans h.resolves, h'.supply.trans h.supply, h'.strings.trans h.strings,
    fun id hid => h'.offsets id (h.offsets id hid)⟩

/-- A step made for every element of a list, where later steps keep what earlier ones have done. -/
theorem forM_offsets {α : Type} {f : α → Pass PUnit} {R : α → Workspace → Prop} (xs : List α)
    (hkeep : ∀ a w w', Offsets w w' → R a w → R a w')
    (hf : ∀ a ∈ xs, ∀ w, w.attrs.Resolves t → Succeeds (f a) w fun _ w' => Offsets w w' ∧ R a w')
    (ht : w.attrs.Resolves t) :
    Succeeds (xs.forM f) w fun _ w' => Offsets w w' ∧ ∀ a ∈ xs, R a w' := by
  induction xs generalizing w with
  | nil => exact .pure ⟨.refl w, fun _ h => (List.not_mem_nil h).elim⟩
  | cons a xs ih =>
    obtain ⟨ha, hxs⟩ := List.forall_mem_cons.mp hf
    refine (ha w ht).bind fun _ w₁ ⟨hstep, hR⟩ => ?_
    refine (ih hxs (hstep.resolves.trans ht)).imp fun _ w₂ ⟨hrest, hRs⟩ => ⟨hstep.trans hrest, ?_⟩
    exact List.forall_mem_cons.mpr ⟨hkeep a w₁ w₂ hrest hR, hRs⟩

theorem setOffset_spec (id : NodeId) (size offset : Word) :
    Succeeds (setAccess id (.relative size offset 0)) w fun _ w' =>
      Offsets w w' ∧ w'.attrs.HasOffset id := by
  refine ⟨_, _, rfl, ⟨⟨rfl, rfl, rfl, rfl, rfl, rfl⟩, rfl, rfl, fun id' hid' => ?_⟩, _, _, _,
    Std.TreeMap.getElem?_insert_self⟩
  obtain ⟨size', offset', depth', hid'⟩ := hid'
  by_cases h : id = id'
  · subst h
    exact ⟨_, _, _, Std.TreeMap.getElem?_insert_self⟩
  · refine ⟨size', offset', depth', ?_⟩
    show (w.attrs.accesses.insert id _)[id']? = _
    rw [Std.TreeMap.getElem?_insert, if_neg (by simpa using h)]
    exact hid'

theorem map_fst_compOffsets (t : Attributes) : ∀ (offset : Word) (xs : List (Decl × String × Ty)),
    (compOffsets t offset xs).map Prod.fst = xs.map Prod.fst
  | _, [] => rfl
  | offset, (d, _, ty) :: xs => congrArg (d :: ·) (map_fst_compOffsets t (offset + t.sizeOf ty) xs)

/-- The components of a record get offsets one by one. -/
theorem record_offsets (info : RecordInfo) :
    Succeeds (record info) w fun _ w' => Offsets w w' ∧
      ∀ x ∈ compOffsets w.attrs 0 (info.comps.zip info.fields.toList), w'.attrs.HasOffset x.1.id := by
  refine Pass.attrs_spec ?_
  exact forM_offsets (t := w.attrs) (R := fun x w => w.attrs.HasOffset x.1.id)
    (f := fun x => setAccess x.1.id (.relative x.2.2 x.2.1 0))
    (compOffsets w.attrs 0 (info.comps.zip info.fields.toList)) (fun x _ _ h hx => h.offsets x.1.id hx)
    (fun x _ w _ => setOffset_spec x.1.id x.2.2 x.2.1) (.refl _)

theorem record_spec {info : RecordInfo} (hlength : info.comps.length = info.fields.toList.length) :
    Succeeds (record info) w fun _ w' => Offsets w w' ∧ ∀ d ∈ info.comps, w'.attrs.HasOffset d.id := by
  refine (record_offsets info).imp fun _ w'' ⟨hoffsets, hxs⟩ => ⟨hoffsets, fun d hd => ?_⟩
  -- Every component stands in the list, since there are as many types as components.
  have hmem : d ∈ (compOffsets w.attrs 0 (info.comps.zip info.fields.toList)).map Prod.fst := by
    rw [map_fst_compOffsets, List.map_fst_zip (Nat.le_of_eq hlength)]
    exact hd
  obtain ⟨x, hx, rfl⟩ := List.mem_map.mp hmem
  exact hxs x hx

end Layout

/-- A program has been laid out: its nodes have their places, its global variables lie at labels, and
the components of its records have offsets. -/
structure Program.LaidOut (p : Program) (w : Workspace) : Prop where
  nodes : Layout.AllPlaced (Decl.walkAll (fun _ => true) p.decls) w
  statics : ∀ d ∈ p.decls, d.IsStatic w.attrs
  comps : ∀ (id : NodeId) info, w.attrs.records[id]? = some info → ∀ d ∈ info.comps,
    ∃ m name type, d = .comp m name type ∧ w.attrs.HasOffset m.id

/-- **A complete and resolved program is laid out.** -/
theorem Layout.program_spec {p : Program} {w : Workspace} {scope : Scope} {hi : Nat}
    (hcomplete : Decl.CompleteAll p.decls) (hnum : Decl.NumberedAll p.decls 1 hi)
    (hresolved : Decl.ResolvedAll w.attrs scope p.decls)
    (hrecords : ∀ (id : NodeId) info, w.attrs.records[id]? = some info → info.WellFormed hi) :
    Succeeds (program p) w fun _ w' => w'.attrs.Resolves w.attrs ∧ p.LaidOut w' := by
  refine Pass.attrs_spec ?_
  have hlength : ∀ r ∈ w.attrs.records.toList, r.2.comps.length = r.2.fields.toList.length := fun r hr =>
    (hrecords r.1 r.2 (Std.TreeMap.mem_toList_iff_getElem?_eq_some.mp hr)).length
  have hall := forM_offsets (w := w) (t := w.attrs)
    (R := fun r w => ∀ d ∈ r.2.comps, w.attrs.HasOffset d.id) (f := fun r => record r.2)
    w.attrs.records.toList (fun r _ _ h hr d hd => h.offsets d.id (hr d hd))
    (fun r hr w _ => record_spec (hlength r hr)) (.refl _)
  refine hall.bind fun _ w₁ ⟨hoffsets, hcomps⟩ => ?_
  refine (decls_spec p.decls hcomplete hnum hresolved hoffsets.resolves).bind fun _ w₂ hdecls =>
    .pure ⟨hdecls.grows.resolves.trans hoffsets.resolves, ?_⟩
  obtain ⟨hnodes, hstatics⟩ := hdecls.holds w₂ (.refl ..)
  refine ⟨hnodes, hstatics rfl, fun id info hinfo d hd => ?_⟩
  rw [hdecls.grows.resolves.records, hoffsets.resolves.records] at hinfo
  obtain ⟨size, offset, depth, hoffset⟩ :=
    hcomps (id, info) (Std.TreeMap.mem_toList_iff_getElem?_eq_some.mpr hinfo) d hd
  -- The numbers of components lie behind those of the program.
  obtain ⟨m, name, type, rfl, hm⟩ := (hrecords id info hinfo).comp d hd
  have hkept := (hdecls.grows.accesses m.id (.inr hm)).trans hoffset
  exact ⟨m, name, type, rfl, size, offset, depth, hkept⟩

end MmixBackend.Source
