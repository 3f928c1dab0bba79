import MmixBackend.Proofs.FrameAreas
import MmixBackend.Proofs.Source.DisciplinedCode
import MmixBackend.Proofs.Source.Nesting
import MmixBackend.Proofs.Source.StaticLinks
import MmixBackend.Proofs.StaticData

/-!
# Stacks on which functions lie as they are nested

If every nested function on the stack has been called by the function that declares it, then the
innermost layers are those of the functions around the running one, in the order in which they are
nested. A static link is all that the code of the running function needs to reach the layer of each
of them, and a variable has a place of its own there.

## Main statements

- `Settled.exists_chain`: the functions of the innermost layers.
- `Settled.display`: their frame pointers, as the running function finds them.
- `Settled.place_of_declares`, `Settled.place_of_global`: the places of variables.
-/

namespace MmixBackend

open Source Machine Generation

/-! ## §1 How functions are nested -/

namespace Source

/-- The offset can be added to the address that the code of an element access starts from: it is
that of an element, for any array that is accessed with this code. -/
def Program.InArray (p : Program) (t t' : Attributes) (e : IR.Expr) (offset : Word) : Prop :=
  ∀ m name params type body f, .fn m name params type body ∈ p.functions → t'.frames[m.id]? = some f →
    ∀ mark array idx lo hi, .expr (.index mark array idx) ∈ body.walk Node.inFunction →
      (Expr.index mark array idx).Code t' f lo hi (.mem e) → ∀ arrayTy len elem,
        t.typeOf? array = some arrayTy →
        arrayTy.actual t.typeDefs = .arr len elem →
          ∃ i : Nat, (i : Int) < len.toInt ∧ offset = .ofNat (i * elem.exactSize t.typeDefs)

/-- How the functions of a program are nested: `t` are the tables of resolution and `t'` those of
the layout. -/
def Program.nesting (p : Program) (t t' : Attributes) : Nesting where
  nested f := ∃ d ∈ p.functions, t'.frames[d.id]? = some f ∧ d ∉ p.decls
  inside f g := ∃ d ∈ p.functions, ∃ e ∈ p.functions, t'.frames[d.id]? = some f ∧
    t'.frames[e.id]? = some g ∧
    e.Declares d
  takes f n := ∃ m name params type body, .fn m name params type body ∈ p.functions ∧
    t'.frames[m.id]? = some f ∧
    n = params.length + 1
  element := p.InArray t t'
  dataEnd := p.staticEnd t
  dataStart_le := Int.le_add_of_nonneg_right (Int.natCast_nonneg _)

end Source

/-- What is known about an accepted program that follows no pointers and whose frames are in the
range of words. -/
structure Settled (o : Options) (p : Program) (t : Attributes) (laid coded : Workspace)
    (c : Compiled) : Prop where
  compiled : CompiledFrom o p t laid coded c
  typed : p.Typed t
  guarded : t.typeDefs.Guarded
  recorded : t.Recorded
  placed : t.PlacesComponents laid.attrs
  fields : ∀ (id : NodeId) info, t.records[id]? = some info → info.fields.Positive
  /-- A function is known by the label of its frame. -/
  labelled : ∀ d ∈ p.functions, ∀ d' ∈ p.functions, ∀ f f', laid.attrs.frames[d.id]? = some f →
    laid.attrs.frames[d'.id]? = some f' → f.label = f'.label → d = d'
  /-- The label of a global function is its name. -/
  named : ∀ d ∈ p.functions, d ∉ p.decls → ∀ f, laid.attrs.frames[d.id]? = some f →
    f.label ≠ .global "main"
  fits : ∀ m name params type body, .fn m name params type body ∈ p.functions → FrameFits t params body
  direct : ∀ mark arg, .expr (.deref mark arg) ∉ Decl.walkAll everywhere p.decls
  data : List.Forall₂ (fun b d => d.Is b) (p.dataBlocks t) c.linear.data

/-- The trees of the program are loaded on the machine. -/
def Compiled.RunsOn (c : Compiled) (t : Attributes) (p : Program) (m : Machine) : Prop :=
  ∃ input limit, m = { c.treeMachine t p input with limit }

/-- The innermost layers are those of the functions of a chain, of which all but the last one are
nested. -/
structure Activates (p : Program) (t' : Attributes) (chain : List Decl) (S : List Layer) : Prop where
  lexical : Lexical p chain
  frames : ∀ (i : Nat) d, chain[i]? = some d → ∃ L, S[i]? = some L ∧ t'.frames[d.id]? = some L.frame
  nested : ∀ (i : Nat) d, chain[i]? = some d → i + 1 < chain.length → d ∉ p.decls

namespace Settled

variable {o : Options} {p : Program} {t : Attributes} {laid coded : Workspace} {c : Compiled}
variable {chain rest : List Decl} {S : List Layer} {L : Layer} {d : Decl}

/-- A frame is that of one function. -/
theorem unique (h : Settled o p t laid coded c) {d d' : Decl} (hd : d ∈ p.functions)
    (hd' : d' ∈ p.functions) {f : Frame} (hf : laid.attrs.frames[d.id]? = some f)
    (hf' : laid.attrs.frames[d'.id]? = some f) : d = d' :=
  h.labelled d hd d' hd' f f hf hf' rfl

/-- **The functions of the innermost layers** are those around the running one. -/
theorem exists_chain (h : Settled o p t laid coded c) : ∀ {S : List Layer} {L : Layer} {d : Decl},
    (p.nesting t laid.attrs).Seated (L :: S) → d ∈ p.functions → laid.attrs.frames[d.id]? = some L.frame →
    ∃ rest, Activates p laid.attrs (d :: rest) (L :: S)
  | S, L, d, hS, hd, hf => by
    -- The chain ends with a global function.
    by_cases hglobal : d ∈ p.decls
    · refine ⟨[], .global hd hglobal, fun i e he => ?_, fun i e _ hi => ?_⟩
      · cases i with
        | zero =>
          cases he
          exact ⟨L, rfl, hf⟩
        | succ i => cases he
      · exact absurd hi (by simp)
    -- A nested one was called by the function that declares it, whose layer is the next.
    · obtain ⟨L', hL', d', hd', g, hg, hf', hfg, hdeclares⟩ := hS.1.caller ⟨d, hd, hf, hglobal⟩
      obtain rfl := h.unique hd hd' hf hf'
      obtain ⟨S', rfl⟩ := List.head?_eq_some_iff.mp hL'
      obtain ⟨rest, hrest⟩ := exists_chain h hS.2 hg hfg
      refine ⟨g :: rest, .nested hd hdeclares hrest.lexical, fun i e he => ?_, fun i e he hi => ?_⟩
      · cases i with
        | zero =>
          cases he
          exact ⟨L, rfl, hf⟩
        | succ i => exact hrest.frames i e he
      · cases i with
        | zero =>
          cases he
          exact hglobal
        | succ i => exact hrest.nested i e he (Nat.lt_of_succ_lt_succ hi)

end Settled

namespace Activates

variable {p : Program} {t t' : Attributes} {chain : List Decl} {S : List Layer}

theorem length_le (h : Activates p t' chain S) : chain.length ≤ S.length := by
  by_contra hlt
  obtain ⟨L, hL, -⟩ := h.frames S.length _ (List.getElem?_eq_getElem (by omega))
  exact absurd (List.getElem?_eq_some_iff.mp hL).1 (Nat.lt_irrefl _)

/-- There is no room for too many layers. -/
theorem length_lt {L : Layer} (h : Activates p t' chain (L :: S))
    (hS : (p.nesting t t').Seated (L :: S)) :
    chain.length < 2 ^ 62 := by
  have hlength := h.length_le
  have hstack := hS.length_le
  have hroom : (p.nesting t t').dataEnd ≤ Machine.stackPointer (L :: S) := hS.1.room
  have hstart := (p.nesting t t').dataStart_le
  rw [toInt_stackTop] at hstack
  rw [toInt_dataStart] at hstart
  omega

/-- A layer of the chain that is not the last one is that of a nested function. -/
theorem nested_frame (h : Activates p t' chain S) {i : Nat} (hi : i + 1 < chain.length) {L : Layer}
    (hL : S[i]? = some L) : (p.nesting t t').nested L.frame := by
  have hd := List.getElem?_eq_getElem (Nat.lt_of_succ_lt hi)
  obtain ⟨L', hL', hf⟩ := h.frames i _ hd
  cases hL.symm.trans hL'
  exact ⟨_, h.lexical.mem_functions _ (List.mem_of_getElem? hd), hf, h.nested i _ hd hi⟩

/-- Following static links, the code of the running function comes to the layers of the functions
around it. -/
theorem comesTo_frameAddr {L : Layer} {m : Machine} (h : Activates p t' chain (L :: S)) :
    ∀ {i : Nat}, i < chain.length →
    (frameAddr L.frame i).ComesTo (p.nesting t t') m (L :: S) fun v =>
    ∃ L', (L :: S)[i]? = some L' ∧ v = L'.fp
  | 0, _ => ⟨L, rfl, rfl, L, rfl, rfl⟩
  | i + 1, hi => by
    refine ⟨_, comesTo_frameAddr h (Nat.lt_of_succ_lt hi), fun v memory hv hlinked => ?_⟩
    obtain ⟨L', hL', rfl⟩ := hv
    obtain ⟨L'', hL'', -⟩ := h.frames (i + 1) _ (List.getElem?_eq_getElem hi)
    exact ⟨L'', hL'', hlinked i L' L'' hL' hL'' (h.nested_frame hi hL')⟩

end Activates

/-! ## §2 Frame pointers -/

namespace Settled

variable {o : Options} {p : Program} {t : Attributes} {laid coded : Workspace} {c : Compiled}
variable {chain rest : List Decl} {S : List Layer} {L : Layer} {d : Decl}

/-- The depth of a function around the running one. -/
theorem depth_of_chain (h : Settled o p t laid coded c) (hact : Activates p laid.attrs chain S)
    {i : Nat} {d : Decl} (hd : chain[i]? = some d) {f : Frame}
    (hf : laid.attrs.frames[d.id]? = some f) :
    f.depth = .ofNat (chain.length - (i + 1)) := by
  have hsuffix : Lexical p (chain.drop i) := hact.lexical.drop (List.getElem?_eq_some_iff.mp hd).1
  obtain ⟨hi, hget⟩ := List.getElem?_eq_some_iff.mp hd
  rw [List.drop_eq_getElem_cons hi, hget] at hsuffix
  rw [h.compiled.stages.depth_of_lexical hsuffix rfl hf, List.length_drop]

/-- The running function lies as deep as the chain is long. -/
theorem toInt_depth (h : Settled o p t laid coded c) (hS : (p.nesting t laid.attrs).Seated (L :: S))
    (hact : Activates p laid.attrs (d :: rest) (L :: S)) :
    L.frame.depth = .ofNat rest.length ∧ L.frame.depth.toInt = rest.length := by
  obtain ⟨_, hL, hf⟩ := hact.frames 0 d rfl
  cases hL
  have hdepth := h.depth_of_chain hact (i := 0) rfl hf
  have hlt : rest.length + 1 < 2 ^ 62 := hact.length_lt hS
  refine ⟨hdepth, ?_⟩
  rw [hdepth, Int64.toInt_ofNat_of_lt (by rw [List.length_cons]; omega)]
  rfl

/-- What a function around the running one declares lies one deeper than it. -/
theorem toInt_depth_add_one (h : Settled o p t laid coded c)
    (hS : (p.nesting t laid.attrs).Seated (L :: S)) (hact : Activates p laid.attrs chain (L :: S))
    {i : Nat} {d : Decl} (hd : chain[i]? = some d) {f : Frame}
    (hf : laid.attrs.frames[d.id]? = some f) :
    (f.depth + 1).toInt = (chain.length - (i + 1) : Nat) + 1 := by
  have hlt := hact.length_lt hS
  rw [h.depth_of_chain hact hd hf, show (1 : Word) = .ofNat 1 from rfl, ← Int64.ofNat_add,
    Int64.toInt_ofNat_of_lt (by omega)]
  rfl

/-- A function that another one declares lies one deeper. -/
theorem depth_of_declared (h : Settled o p t laid coded c) {d g : Decl} (hd : d ∈ p.functions)
    (hg : g ∈ p.functions) (hdeclares : g.Declares d) {f f' : Frame}
    (hf : laid.attrs.frames[d.id]? = some f) (hf' : laid.attrs.frames[g.id]? = some f') :
    f'.depth + 1 = f.depth := by
  obtain ⟨⟨gm, gname, gparams, gtype, gbody, rfl⟩, -⟩ := Linear.mem_walk_of_mem_functions hg
  obtain ⟨⟨m, name, params, type, body, rfl⟩, -⟩ := Linear.mem_walk_of_mem_functions hd
  rcases hdeclares with ⟨q, -, hq⟩ | hnode
  · cases hq
  · exact (h.compiled.stages.depth_of_nested hg hf' hnode hf).symm

/-- **The frame pointers of the functions around the running one**, as it finds them. -/
theorem display (h : Settled o p t laid coded c) (hS : (p.nesting t laid.attrs).Seated (L :: S))
    (hact : Activates p laid.attrs (d :: rest) (L :: S)) {temps : Temps} {memory : Memory}
    (htemps : HoldsFp temps (L :: S)) (hlinked : (p.nesting t laid.attrs).Linked (L :: S) memory) :
    Display L.frame temps memory (((L :: S).take (rest.length + 1)).map Layer.fp) := by
  have hlength : rest.length + 1 ≤ (L :: S).length := hact.length_le
  refine ⟨?_, ?_, fun i hi => ?_⟩
  · rw [(h.toInt_depth hS hact).2, List.length_map, List.length_take, Nat.min_eq_left hlength]
    rfl
  · rw [List.take_succ_cons, List.map_cons, List.head?_cons, htemps L rfl]
  · rw [List.length_map, List.length_take, Nat.min_eq_left hlength] at hi
    have hlt : i + 1 < (L :: S).length := Nat.lt_of_lt_of_le hi hlength
    have hi' : i + 1 < (d :: rest).length := hi
    have hL' : (L :: S)[i]? = some (L :: S)[i] := List.getElem?_eq_getElem (Nat.lt_of_succ_lt hlt)
    simp only [List.getElem_map, List.getElem_take]
    exact hlinked i _ _ hL' (List.getElem?_eq_getElem hlt) (hact.nested_frame hi' hL')

/-! ## §3 Places of variables -/

/-- **The place of a variable** in the layer of the function that declares it. -/
theorem place_of_declares (h : Settled o p t laid coded c) (hS : (p.nesting t laid.attrs).Seated S)
    (hL : L ∈ S) {g : Decl} (hg : g ∈ p.functions) (hf : laid.attrs.frames[g.id]? = some L.frame)
    (hvar : d.IsVariable) (hdeclares : g.Declares d) : ∃ size offset, laid.attrs.accesses[d.id]?
      = some (.relative size offset (L.frame.depth + 1)) ∧
        Place S (t.exactBytes d.id) (L.fp + offset) := by
  obtain ⟨⟨gm, gname, gparams, gtype, gbody, rfl⟩, hnode⟩ := Linear.mem_walk_of_mem_functions hg
  have htakes : (p.nesting t laid.attrs).takes L.frame (gparams.length + 1) :=
    ⟨_, _, _, _, _, hg, hf, rfl⟩
  obtain ⟨hlocs, hargs⟩ := hS.sizes L hL
  have hsp : L.sp = L.base - L.frame.locsSize.toInt - 16 - L.frame.argsSize.toInt := rfl
  -- A parameter lies above the frame pointer, a local variable below it.
  rcases h.compiled.stages.access_of_declares hg hf hvar hdeclares with
    ⟨i, q, hi, rfl, haccess⟩ | ⟨i, hi, haccess⟩
  · have hlt := (List.getElem?_eq_some_iff.mp hi).1
    have hscalar := ((Program.bound_of_resolved h.compiled.stages.resolved _ hnode).1 q
      (List.mem_of_getElem? hi)).2
    have hbytes : t.exactBytes q.decl.id = 8 := hscalar.bytes.2
    refine ⟨_, _, haccess, L.base + (8 * (i + 1) : Nat), ?_, fun x hlow hhigh => ?_⟩
    · rw [← L.ofInt_base, Word.ofInt_add_ofNat]
    · rw [hbytes] at hhigh
      exact hS.free L hL htakes (by omega) (by omega) (by push_cast; omega)
  · obtain ⟨f, hf', hexact⟩ := h.compiled.stages.exactModulo hg
    cases hf.symm.trans hf'
    -- The area of the locals is as large as the exact sum, since the frame is in the range.
    have hsum : L.frame.locsSize.toInt = t.exactSum gbody.locals := by
      rw [hexact.locsSize, Int64.toInt_ofNat_of_lt (h.fits _ _ _ _ _ hg).locals]
    have hle : _ ≤ t.exactSum gbody.locals := t.exactSum_take_le (i + 1)
    have hnext := t.exactSum_take_succ hi
    refine ⟨_, _, haccess, L.base - (t.exactSum (gbody.locals.take (i + 1)) : Nat), ?_,
      fun x hlow hhigh => ?_⟩
    · rw [← L.ofInt_base, ← Int64.sub_eq_add_neg, ← Int64.ofInt_eq_ofNat, ← Int64.ofInt_sub]
    · exact hS.free L hL htakes (by omega) (by omega) (by omega)

/-- The place of a global variable. -/
theorem place_of_global (h : Settled o p t laid coded c) {m : Machine} (hm : c.RunsOn coded.attrs p m)
    (hS : (p.nesting t laid.attrs).Seated (L :: S)) (hd : d ∈ p.decls) (hvar : d.IsVariable)
    {data : StaticData} (haccess : laid.attrs.accesses[d.id]? = some (.static data)) :
    ∃ a, m.labels[data.label]? = some a ∧ Place (L :: S) (t.exactBytes d.id) a := by
  obtain ⟨dm, name, type, rfl, -⟩ := h.compiled.stages.mem_decls_of_static
    (Decl.mem_walkAll hd) hvar haccess
  obtain ⟨input, limit, rfl⟩ := hm
  have hroom : p.staticEnd t ≤ L.sp := hS.1.room
  have hbounds := hS.bounds L List.mem_cons_self
  have hle := hS.sp_le
  rw [toInt_stackTop] at hbounds
  obtain ⟨data', a, haccess', hlabel, hlow, hhigh⟩ := h.compiled.label_of_global h.data
    (by omega) input hd
  cases haccess.symm.trans haccess'
  refine ⟨_, hlabel, a, rfl, fun x hx (hx' : x < a + t.exactBytes dm.id) =>
    ⟨⟨by omega, ?_⟩, fun L' hL' => ?_⟩⟩
  · rw [toInt_dataStart]
    omega
  · have hbase := hS.base_le L' hL'
    omega

end Settled

end MmixBackend
