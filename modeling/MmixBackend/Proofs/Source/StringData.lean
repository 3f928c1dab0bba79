import MmixBackend.Proofs.Source.LayoutLabels
import MmixBackend.Proofs.Stages

/-!
# Data of string constants

The layout records static data for each string constant, with a word for every byte and one for the
end mark. It records none for other nodes: laying out the nodes with numbers from `lo` up to `hi`
leaves the data of others alone, and in the end the data of the nodes of a tree are those of its
string constants, from left to right.

## Main statements

- `Layout.expr_strings`: the data of the nodes of an expression.
- `Layout.program_strings`, `Stages.holdsStrings`: the data of the nodes of a program.
-/

namespace MmixBackend

open Source

/-- The static data are those of the string constant. -/
def StaticData.IsString (d : StaticData) (s : String) : Prop := d.size = stringSize s ∧ d.init = some s

namespace Source

/-- The text of a string constant. -/
def Node.string? : Node → Option String
  | .expr (.atom _ .str value) => some value
  | _ => none

/-- The static data that the layout has recorded for a node. -/
def Attributes.stringData? (t : Attributes) : Node → Option StaticData
  | .expr (.atom m _ _) => t.strings[m.id]?
  | _ => none

namespace Workspace

variable {lo hi k : Nat} {w w₁ w₂ : Workspace} {ns ns' : List Node}

/-- The data of the nodes are those of the string constants among them, in order. -/
def HoldsStrings (ns : List Node) (w : Workspace) : Prop :=
  List.Forall₂ (fun s d => d.IsString s) (ns.filterMap Node.string?) (ns.filterMap w.attrs.stringData?)

theorem HoldsStrings.nil (w : Workspace) : w.HoldsStrings [] := List.Forall₂.nil

theorem HoldsStrings.append (h : w.HoldsStrings ns) (h' : w.HoldsStrings ns') :
    w.HoldsStrings (ns ++ ns') := by
  rw [HoldsStrings, List.filterMap_append, List.filterMap_append]
  exact List.rel_append h h'

/-- Nodes other than atoms are no string constants and have no data. -/
theorem HoldsStrings.below {n : Node} (h : w.HoldsStrings ns) (hn : n.string? = none)
    (hdata : ∀ t : Attributes, t.stringData? n = none) : w.HoldsStrings (Node.below everywhere n ns) := by
  rw [HoldsStrings, Node.below, if_pos rfl, List.filterMap_cons_none hn,
    List.filterMap_cons_none (hdata _)]
  exact h

/-- The parts of a node one after the other. -/
theorem HoldsStrings.next (h : w.Establishes lo k w₁ (HoldsStrings ns))
    (h' : w₁.Establishes k hi w₂ (HoldsStrings ns')) (hlo : lo ≤ k) (hhi : k ≤ hi) :
    w.Establishes lo hi w₂ (HoldsStrings (ns ++ ns')) :=
  (h.next h' hlo hhi).imp fun _ h => h.1.append h.2

end Workspace

namespace Layout

open Workspace

variable {w : Workspace} {lo hi : Nat}

/-- Parameters are no string constants. -/
theorem holdsStrings_params (ps : List Param) (w : Workspace) :
    w.HoldsStrings (ps.map fun p => Node.decl p.decl) := by
  have hnone {β : Type} (f : Node → Option β) (hf : ∀ d, f (.decl d) = none) :
      (ps.map fun p => Node.decl p.decl).filterMap f = [] := by
    rw [List.filterMap_map]
    exact List.filterMap_eq_nil_iff.mpr fun p _ => hf p.decl
  rw [HoldsStrings, hnone _ fun _ => rfl, hnone _ fun _ => rfl]
  exact .nil

mutual

/-- **The data of the nodes of an expression** are those of its string constants. -/
theorem expr_strings : ∀ (e : Expr) {n : Needs} {w : Workspace} {lo hi : Nat}, e.Numbered lo hi →
    w.Blank lo hi →
    Ensures (expr n e) w fun _ w' => w.Establishes lo hi w' (HoldsStrings (e.walk everywhere))
  | .absent, _, _, _, _, _, _ => by
    rw [expr]
    exact .throw _
  | .atom m kind value, n, w, lo, hi, ⟨hid, hhi⟩, hblank => by
    subst hid hhi
    rw [expr, Expr.walk, Node.below, if_pos rfl]
    -- A string constant is the one node whose data is written here.
    by_cases hkind : kind = .str
    · subst hkind
      rw [if_pos rfl]
      refine .bind (P := fun _ w' => w.Extends m.id (m.id + 1) w') ?_ fun label w₁ hlabel => ?_
      · exact .of_succeeds (withSupply_spec (.ofSupply (Int.le_refl _)))
      refine (Ensures.of_succeeds (setString_spec m.id _)).bind fun _ w₂ hstring => .pure ?_
      refine ⟨hlabel.trans hstring.grows, fun w₃ h => ?_⟩
      have htext : Node.string? (.expr (.atom m .str value)) = some value := rfl
      have hdata : w₃.attrs.stringData? (.expr (.atom m .str value)) = some _ := hstring.holds w₃ h
      rw [HoldsStrings, List.filterMap_cons_some htext, List.filterMap_cons_some hdata]
      exact .cons ⟨rfl, rfl⟩ .nil
    · -- Other atoms have no data.
      rw [if_neg hkind]
      refine .pure ⟨.refl .., fun w₃ h => ?_⟩
      have hnone : w₃.attrs.stringData? (.expr (.atom m kind value)) = none :=
        (h.strings m.id (Nat.le_refl _) (Nat.lt_succ_self _)).trans
          (hblank m.id (Nat.le_refl _) (Nat.lt_succ_self _))
      have hstring : Node.string? (.expr (.atom m kind value)) = none := by
        cases kind with
        | str => exact absurd rfl hkind
        | _ => rfl
      rw [HoldsStrings, List.filterMap_cons_none hstring, List.filterMap_cons_none hnone]
      exact .nil
  | .name m ident, n, w, lo, hi, _, _ => by
    rw [expr]
    refine Pass.attrs_ensures ?_
    split <;> exact .pure (.ofExtends (.refl ..) fun w₃ => .below (.nil w₃) rfl fun _ => rfl)
  | .unary m op arg, n, w, lo, hi, ⟨_, hnum⟩, hblank => by
    rw [expr]
    -- The node above has no data, so the list is that of the operand.
    refine (expr_strings arg hnum (hblank.narrow (Nat.le_succ lo) (Nat.le_refl hi))).bind
      fun n' w₁ harg => .pure ?_
    exact (harg.widen (Nat.le_succ lo) (Nat.le_refl hi)).imp fun _ h => h.below rfl fun _ => rfl
  | .deref m arg, n, w, lo, hi, ⟨_, hnum⟩, hblank => by
    rw [expr]
    refine (expr_strings arg hnum (hblank.narrow (Nat.le_succ lo) (Nat.le_refl hi))).imp
      fun n' w₁ harg => ?_
    exact (harg.widen (Nat.le_succ lo) (Nat.le_refl hi)).imp fun _ h => h.below rfl fun _ => rfl
  | .select m arg comp, n, w, lo, hi, ⟨_, k, hnum, _, hhi⟩, hblank => by
    rw [expr]
    refine (expr_strings arg hnum (hblank.narrow (Nat.le_succ lo) (hhi ▸ Nat.le_succ k))).imp
      fun n' w₁ harg => ?_
    refine (harg.widen (Nat.le_succ lo) (hhi ▸ Nat.le_succ k)).imp fun w₃ h => ?_
    exact .below (h.append (.nil w₃)) rfl fun _ => rfl
  | .cast m arg comp, n, w, lo, hi, ⟨_, k, hnum, _, hhi⟩, hblank => by
    rw [expr]
    refine (expr_strings arg hnum (hblank.narrow (Nat.le_succ lo) (hhi ▸ Nat.le_succ k))).imp
      fun n' w₁ harg => ?_
    exact (harg.widen (Nat.le_succ lo) (hhi ▸ Nat.le_succ k)).imp fun _ h => h.below rfl fun _ => rfl
  | .binary m op fst snd, n, w, lo, hi, ⟨_, k, hnum₁, hnum₂⟩, hblank
  | .index m fst snd, n, w, lo, hi, ⟨_, k, hnum₁, hnum₂⟩, hblank => by
    have hlo := fst.le_of_numbered hnum₁
    have hhi := snd.le_of_numbered hnum₂
    rw [expr]
    refine (expr_strings fst hnum₁ (hblank.narrow (Nat.le_succ lo) hhi)).bind fun n' w₁ hfst => ?_
    -- What the first operand has written lies at its own nodes; those of the second are blank.
    have hblank₁ := hblank.behind hfst.grows (Nat.le_of_succ_le hlo) (Nat.le_refl hi)
      (.inl (Nat.le_refl k))
    refine (expr_strings snd hnum₂ hblank₁).imp fun n' w₂ hsnd => ?_
    exact ((HoldsStrings.next hfst hsnd hlo hhi).widen (Nat.le_succ lo) (Nat.le_refl hi)).imp fun _ h =>
      h.below rfl fun _ => rfl
  | .call m ident args, n, w, lo, hi, ⟨_, hnum⟩, hblank => by
    rw [expr]
    refine (exprs_strings ident args hnum (hblank.narrow (Nat.le_succ lo) (Nat.le_refl hi))).bind
      fun r w₁ hargs => .pure ?_
    exact (hargs.widen (Nat.le_succ lo) (Nat.le_refl hi)).imp fun _ h => h.below rfl fun _ => rfl
  | .block m ss, n, w, lo, hi, ⟨_, hnum⟩, hblank => by
    rw [expr]
    refine (stmts_strings ss hnum (hblank.narrow (Nat.le_succ lo) (Nat.le_refl hi))).imp
      fun _ w₁ hss => ?_
    exact (hss.widen (Nat.le_succ lo) (Nat.le_refl hi)).imp fun _ h => h.below rfl fun _ => rfl
  | .scope m ds body, n, w, lo, hi, ⟨_, k, hnum₁, hnum₂⟩, hblank => by
    have hlo := Decl.le_of_numberedAll ds hnum₁
    have hhi := body.le_of_numbered hnum₂
    rw [expr]
    refine (decls_strings ds hnum₁ (hblank.narrow (Nat.le_succ lo) hhi)).bind fun n' w₁ hds => ?_
    have hblank₁ := hblank.behind hds.grows (Nat.le_of_succ_le hlo) (Nat.le_refl hi)
      (.inl (Nat.le_refl k))
    refine (expr_strings body hnum₂ hblank₁).imp fun n' w₂ hbody => ?_
    exact ((HoldsStrings.next hds hbody hlo hhi).widen (Nat.le_succ lo) (Nat.le_refl hi)).imp fun _ h =>
      h.below rfl fun _ => rfl

theorem exprs_strings (callee : String) : ∀ (es : List Expr) {n : Needs} {size : Word} {w : Workspace}
    {lo hi : Nat}, Expr.NumberedAll es lo hi → w.Blank lo hi →
    Ensures (exprs callee n size es) w fun _ w' =>
      w.Establishes lo hi w' (HoldsStrings (Expr.walkAll everywhere es))
  | [], _, _, _, _, _, _, _ => by
    rw [exprs]
    exact .pure (.ofExtends (.refl ..) HoldsStrings.nil)
  | e :: es, n, size, w, lo, hi, ⟨k, hnum₁, hnum₂⟩, hblank => by
    have hlo := e.le_of_numbered hnum₁
    have hhi := Expr.le_of_numberedAll es hnum₂
    rw [exprs]
    refine (expr_strings e hnum₁ (hblank.narrow (Nat.le_refl lo) hhi)).bind fun n' w₁ he => ?_
    refine (argSize_ensures (.refl w₁.attrs) callee e).bind fun size' w' hw' => ?_
    obtain ⟨rfl, -⟩ := hw'
    have hblank₁ := hblank.behind he.grows hlo (Nat.le_refl hi) (.inl (Nat.le_refl k))
    exact (exprs_strings callee es hnum₂ hblank₁).imp fun r w₂ hes => HoldsStrings.next he hes hlo hhi

theorem stmt_strings : ∀ (s : Stmt) {n : Needs} {w : Workspace} {lo hi : Nat}, s.Numbered lo hi →
    w.Blank lo hi →
    Ensures (stmt n s) w fun _ w' => w.Establishes lo hi w' (HoldsStrings (s.walk everywhere))
  | .absent, _, _, _, _, _, _ => by
    rw [stmt]
    exact .throw _
  | .eval m e, n, w, lo, hi, ⟨_, hnum⟩, hblank => by
    rw [stmt]
    refine (expr_strings e hnum (hblank.narrow (Nat.le_succ lo) (Nat.le_refl hi))).imp fun _ w₁ he => ?_
    exact (he.widen (Nat.le_succ lo) (Nat.le_refl hi)).imp fun _ h => h.below rfl fun _ => rfl
  | .assign m dst src, n, w, lo, hi, ⟨_, k, hnum₁, hnum₂⟩, hblank => by
    have hlo := dst.le_of_numbered hnum₁
    have hhi := src.le_of_numbered hnum₂
    rw [stmt]
    refine (expr_strings dst hnum₁ (hblank.narrow (Nat.le_succ lo) hhi)).bind fun n' w₁ hdst => ?_
    -- The nodes of the source come behind those of the destination.
    have hblank₁ := hblank.behind hdst.grows (Nat.le_of_succ_le hlo) (Nat.le_refl hi)
      (.inl (Nat.le_refl k))
    refine (expr_strings src hnum₂ hblank₁).imp fun n' w₂ hsrc => ?_
    exact ((HoldsStrings.next hdst hsrc hlo hhi).widen (Nat.le_succ lo) (Nat.le_refl hi)).imp fun _ h =>
      h.below rfl fun _ => rfl
  | .cond m test yes no, n, w, lo, hi, ⟨_, j, k, hnum₁, hnum₂, hnum₃⟩, hblank => by
    have hj := test.le_of_numbered hnum₁
    have hk := yes.le_of_numbered hnum₂
    have hhi := no.le_of_numbered hnum₃
    -- A missing `else` takes no step and has no nodes.
    by_cases hno : no = .absent
    · subst hno
      rw [stmt, Stmt.walk, Stmt.walk, List.append_nil]
      refine (expr_strings test hnum₁ (hblank.narrow (Nat.le_succ lo) (by omega))).bind
        fun n' w₁ htest => ?_
      have hblank₁ := hblank.behind htest.grows (Nat.le_of_succ_le hj) hhi (.inl (Nat.le_refl j))
      refine (stmt_strings yes hnum₂ hblank₁).imp fun n' w₂ hyes => ?_
      exact ((HoldsStrings.next htest hyes hj hk).widen (Nat.le_succ lo) hhi).imp fun _ h =>
        h.below rfl fun _ => rfl
    · rw [stmt]
      · refine (expr_strings test hnum₁ (hblank.narrow (Nat.le_succ lo) (by omega))).bind
          fun n' w₁ htest => ?_
        have hblank₁ := hblank.behind htest.grows (Nat.le_of_succ_le hj) hhi (.inl (Nat.le_refl j))
        refine (stmt_strings yes hnum₂ hblank₁).bind fun n' w₂ hyes => ?_
        have hparts := HoldsStrings.next htest hyes hj hk
        have hblank₂ := hblank.behind hparts.grows (by omega) (Nat.le_refl hi) (.inl (Nat.le_refl k))
        refine (stmt_strings no hnum₃ hblank₂).imp fun n' w₃ hno => ?_
        have hall := HoldsStrings.next hparts hno (Nat.le_trans hj hk) hhi
        exact (hall.widen (Nat.le_succ lo) (Nat.le_refl hi)).imp fun _ h => h.below rfl fun _ => rfl
      · exact hno
  | .loop m test body, n, w, lo, hi, ⟨_, k, hnum₁, hnum₂⟩, hblank => by
    have hlo := test.le_of_numbered hnum₁
    have hhi := body.le_of_numbered hnum₂
    rw [stmt]
    refine (expr_strings test hnum₁ (hblank.narrow (Nat.le_succ lo) hhi)).bind fun n' w₁ htest => ?_
    -- The body comes behind the test, and neither writes at the other's nodes.
    have hblank₁ := hblank.behind htest.grows (Nat.le_of_succ_le hlo) (Nat.le_refl hi)
      (.inl (Nat.le_refl k))
    refine (stmt_strings body hnum₂ hblank₁).imp fun n' w₂ hbody => ?_
    exact ((HoldsStrings.next htest hbody hlo hhi).widen (Nat.le_succ lo) (Nat.le_refl hi)).imp fun _ h =>
      h.below rfl fun _ => rfl

theorem stmts_strings : ∀ (ss : List Stmt) {n : Needs} {w : Workspace} {lo hi : Nat},
    Stmt.NumberedAll ss lo hi → w.Blank lo hi →
    Ensures (stmts n ss) w fun _ w' => w.Establishes lo hi w' (HoldsStrings (Stmt.walkAll everywhere ss))
  | [], _, _, _, _, _, _ => by
    rw [stmts]
    exact .pure (.ofExtends (.refl ..) HoldsStrings.nil)
  | s :: ss, n, w, lo, hi, ⟨k, hnum₁, hnum₂⟩, hblank => by
    have hlo := s.le_of_numbered hnum₁
    have hhi := Stmt.le_of_numberedAll ss hnum₂
    rw [stmts]
    refine (stmt_strings s hnum₁ (hblank.narrow (Nat.le_refl lo) hhi)).bind fun n' w₁ hs => ?_
    have hblank₁ := hblank.behind hs.grows hlo (Nat.le_refl hi) (.inl (Nat.le_refl k))
    exact (stmts_strings ss hnum₂ hblank₁).imp fun n' w₂ hss => HoldsStrings.next hs hss hlo hhi

theorem decls_strings : ∀ (ds : List Decl) {n : Needs} {w : Workspace} {lo hi : Nat},
    Decl.NumberedAll ds lo hi → w.Blank lo hi →
    Ensures (decls n ds) w fun _ w' => w.Establishes lo hi w' (HoldsStrings (Decl.walkAll everywhere ds))
  | [], _, _, _, _, _, _ => by
    rw [decls]
    exact .pure (.ofExtends (.refl ..) HoldsStrings.nil)
  | .fn m name ps type body :: ds, n, w, lo, hi, ⟨k, ⟨hid, j, hparams, _, hnum₁⟩, hnum₂⟩, hblank => by
    subst hid
    have hj := Param.le_of_numberedAll hparams
    have hlo : m.id ≤ j := Nat.le_of_succ_le hj
    have hk := body.le_of_numbered hnum₁
    have hhi := Decl.le_of_numberedAll ds hnum₂
    rw [decls]
    refine (functionLabel_ensures n.isGlobal name m.id (m.id + 1)).bind fun label w₁ ⟨_, hlabel⟩ => ?_
    refine (params_arranged (n.depth + 1) ps hparams (.refl w₁.attrs)).bind fun _ w₂ hps => ?_
    have hbefore := (hlabel.widen (Nat.le_refl _) (by omega)).trans
      (hps.grows.widen (Nat.le_succ m.id) (Nat.le_refl j))
    -- Behind the body the frame is made, and the other declarations follow.
    have hrest : ∀ (own : Needs) (w₃ : Workspace),
        w₂.Establishes (j + 1) k w₃ (HoldsStrings (body.walk everywhere)) →
        Ensures (do
          let frame ← Pass.withSupply (Frame.fresh label n.depth own.locsSize own.argsSize)
          Pass.update fun t => { t with frames := t.frames.insert m.id frame }
          decls n ds) w₃ fun _ w' => w.Establishes m.id hi w'
            (HoldsStrings (Decl.walkAll everywhere (.fn m name ps type body :: ds))) := by
      intro own w₃ hbody
      refine (freshFrame_ensures label _ _ _ m.id (m.id + 1)).bind fun f w₄ ⟨_, hfresh, hfp, hrv⟩ => ?_
      refine (Ensures.of_succeeds (setFrame_spec hfp hrv)).bind fun _ w₅ hframe => ?_
      have hframe : w₃.Establishes m.id (m.id + 1) w₅ _ := ⟨hfresh.trans hframe.grows, hframe.holds⟩
      have hfn := hbody.seq hframe (.inr (by omega)) (Nat.le_succ_of_le hlo) (Nat.le_refl k)
        (Nat.le_refl _) (by omega)
      have hblank₅ := hblank.behind
        ((hbefore.widen (Nat.le_refl _) (Nat.le_of_succ_le hk)).trans hfn.grows)
        (Nat.le_trans hlo (Nat.le_of_succ_le hk)) (Nat.le_refl hi) (.inl (Nat.le_refl k))
      refine (decls_strings ds hnum₂ hblank₅).imp fun _ w₆ hds => ?_
      have hall := hfn.next hds (by omega) hhi
      refine ⟨(hbefore.widen (Nat.le_refl _) (by omega)).trans hall.grows, fun w h => ?_⟩
      obtain ⟨⟨hbody, -⟩, hds⟩ := hall.holds w h
      exact (HoldsStrings.below ((holdsStrings_params ps w).append hbody) rfl fun _ => rfl).append hds
    -- The two ways into the rest differ only in what has been laid out before it.
    by_cases habsent : body = .absent
    · subst habsent
      exact hrest _ w₂ (.ofExtends (.refl ..) HoldsStrings.nil)
    · have hblank₂ := hblank.behind hbefore (Nat.le_succ_of_le hlo) hhi (.inl (Nat.le_succ j))
      have hbody := (expr_strings (n := { depth := n.depth + 1 }) body hnum₁ hblank₂).bind hrest
      cases body with
      | absent => exact absurd rfl habsent
      | _ => exact hbody
  | .var m name type :: ds, n, w, lo, hi, ⟨k, ⟨hid, _, hk⟩, hnum⟩, hblank => by
    subst hid hk
    have hhi := Decl.le_of_numberedAll ds hnum
    -- A variable has data of its own, but that is not the data of a string.
    rw [decls]
    refine (placeVariable_labels m name n).bind fun n' w₁ ⟨_, _, hvar⟩ => ?_
    have hblank₁ := hblank.behind hvar (Nat.le_add_right m.id 2) (Nat.le_refl hi) (.inl (Nat.le_succ _))
    refine (decls_strings ds hnum hblank₁).imp fun _ w₂ hds => ?_
    refine ⟨(hvar.widen (Nat.le_refl _) (by omega)).trans (hds.grows.widen (by omega) (Nat.le_refl hi)),
      fun w₃ h => ?_⟩
    exact (HoldsStrings.below (.nil w₃) rfl fun _ => rfl).append
      (hds.holds w₃ (h.narrow (by omega) (Nat.le_refl hi)))
  | .typ m name type :: ds, n, w, lo, hi, ⟨k, ⟨_, _, hk⟩, hnum⟩, hblank => by
    subst hk
    rw [decls]
    have hblank₁ := hblank.narrow (Nat.le_add_right lo 2) (Nat.le_refl hi)
    refine (decls_strings ds hnum hblank₁).imp fun _ w₂ hds => ?_
    refine (hds.widen (Nat.le_add_right lo 2) (Nat.le_refl hi)).imp fun w₃ h => ?_
    exact (HoldsStrings.below (.nil w₃) rfl fun _ => rfl).append h
  | .par .. :: ds, _, _, _, _, _, _ => by
    rw [decls]
    exact .throw _
  | .comp .. :: ds, _, _, _, _, _, _ => by
    rw [decls]
    exact .throw _

end

/-- **The data of the nodes of a program** are those of its string constants. -/
theorem program_strings {p : Program} {hi : Nat} (hnum : Decl.NumberedAll p.decls 1 hi)
    (hstrings : w.attrs.strings = ∅) :
    Ensures (program p) w fun _ w' => w'.HoldsStrings (Decl.walkAll everywhere p.decls) := by
  refine Pass.attrs_ensures ?_
  have hrecords := forM_offsets (t := w.attrs) (f := fun r : NodeId × RecordInfo => record r.2)
    (R := fun _ _ => True) w.attrs.records.toList (fun _ _ _ _ _ => True.intro)
    (fun r _ w _ => (record_offsets r.2).imp fun _ _ h => ⟨h.1, True.intro⟩) (.refl _)
  refine (Ensures.of_succeeds hrecords).bind fun _ w₁ ⟨hoffsets, _⟩ => ?_
  have hblank : w₁.Blank 1 hi := fun id _ _ => by simp [hoffsets.strings, hstrings]
  refine (decls_strings p.decls hnum hblank).bind fun _ w₂ hdecls => .pure ?_
  exact hdecls.holds w₂ (.refl ..)

end Layout

/-- The static data of the string constants of a program are those recorded for its nodes. -/
theorem Linear.strings_eq (t : Attributes) (p : Program) :
    strings t p = (Decl.walkAll everywhere p.decls).filterMap t.stringData? := by
  show (Node.program p :: Decl.walkAll everywhere p.decls).filterMap _ = _
  rw [List.filterMap_cons_none rfl]
  refine List.filterMap_congr fun n _ => ?_
  unfold Attributes.stringData?
  rfl

end Source

/-- After generation the data are still those of the string constants. -/
theorem Stages.holdsStrings {p : Program} {t : Attributes} {laid coded : Workspace}
    (h : Stages p t laid coded) (hstrings : t.strings = ∅) {σ : Supply}
    (hlayout : (Layout.program p).run.run { attrs := t, supply := σ } = (.ok (), laid)) :
    coded.HoldsStrings (Decl.walkAll everywhere p.decls) := by
  obtain ⟨hi, hnum⟩ := h.numbered
  have hsame : coded.attrs.stringData? = laid.attrs.stringData? := by
    funext n
    unfold Attributes.stringData?
    rw [h.generates.strings]
  have hlaid := Layout.program_strings hnum hstrings _ _ hlayout
  rw [Workspace.HoldsStrings, hsame]
  exact hlaid

end MmixBackend
