import MmixBackend.Proofs.Machine.Runs
import MmixBackend.Proofs.Source.Layout
import MmixBackend.Source.Generation
import Mathlib.Data.List.Nodup

/-!
# Following static links

The frame of a function holds the frame pointer of a function around it as its static link, so that a
chain of links leads outwards. Generated code follows this chain for two purposes: to reach the frame of
the function that declares a variable, and to find the link for a callee.

An access follows as many links as its function is nested deeper than the declaring one, and arrives
at the frame of the latter. For a callee the depths of the two frames are compared. This is right if
the caller itself declares the callee, which then finds the frames of its caller behind its own.
Otherwise the frame that declares the callee lies one link further out, and the callee gets the
frame of a function that stands beside it or around its caller.

## Main statements

- `Machine.Display.name_reaches_declaring_frame`: where the code of a variable leads.
- `Machine.Display.static_link_right_iff`: which callees get the right static link.
-/

namespace MmixBackend

/-- What is stored at offsets does not touch the words beside them. -/
theorem Memory.read_writeAt_of_ne {base a : Word} : ∀ {offs vs : List Word} {memory : Memory},
    (∀ o ∈ offs, base + o ≠ a) → (memory.writeAt base offs vs).read a = memory.read a
  | [], _, _, _ | _ :: _, [], _, _ => by rw [writeAt]; simp
  | o :: offs, v :: vs, memory, h => by
    obtain ⟨ho, hoffs⟩ := List.forall_mem_cons.mp h
    rw [writeAt, read_writeAt_of_ne hoffs, read_write, if_neg ho]

namespace Machine

open Source Source.Generation Relation

/-- The code of a global variable starts from its label. -/
theorem name_static {frame : Frame} {w : Workspace} {nm : Mark} {ident : String} {d : Decl}
    (hbound : w.attrs.declaredAt[nm.id]? = some d) (hvar : d.IsVariable) {data : StaticData}
    (haccess : w.attrs.accesses[d.id]? = some (.static data)) :
    Succeeds (name frame nm ident) w fun code w' => w' = w ∧ code = .mem (.name data.label) := by
  refine Pass.attrs_spec ?_
  rw [hbound]
  cases d with
  | var dm dname type | par dm dname type =>
    dsimp only [Decl.id, Decl.mark] at haccess
    simp only [haccess]
    exact .pure ⟨rfl, rfl⟩
  | _ => exact hvar.elim

/-- The frame pointers of the running function and of the functions around it, the innermost first, as the
code of the function finds them: its own one in a temp, and each of the others in the frame before it. -/
structure Display (frame : Frame) (temps : Temps) (memory : Memory) (fps : List Word) : Prop where
  depth : frame.depth.toInt + 1 = fps.length
  current : fps.head? = some (temps.getD frame.fp 0)
  links : ∀ (i : Nat) (h : i + 1 < fps.length), memory.read fps[i] = fps[i + 1]

/-- The frame pointer of the function at a depth, which is zero for a global function. -/
def frameAtDepth (fps : List Word) (depth : Nat) : Option Word := fps.reverse[depth]?

namespace Display

variable {frame : Frame} {temps : Temps} {s : State} {fps : List Word}

/-- **Following static links**: a link is read for each function that is left. -/
theorem eval_frameAddr {m : Machine} (h : Display frame temps s.memory fps) {hops : Nat} {fp : Word}
    (hfp : fps[hops]? = some fp) (k : ValueContext) :
    ReflTransGen (Next m) ⟨.eval (frameAddr frame hops) k, temps, s⟩ ⟨.value fp k, temps, s⟩ := by
  induction hops generalizing fp k with
  | zero =>
    rw [← List.head?_eq_getElem?, h.current] at hfp
    cases hfp
    exact .single rfl
  | succ hops ih =>
    obtain ⟨hlt, rfl⟩ := List.getElem?_eq_some_iff.mp hfp
    have hinner := ih (List.getElem?_eq_getElem (by omega)) (.readMem k)
    rw [← h.links hops hlt]
    exact .head rfl (hinner.tail rfl)

/-- The frame of a function around the running one, by the links that lead to it. -/
theorem getElem?_hops (h : Display frame temps s.memory fps) {depth : Nat} (hdepth : depth < fps.length) :
    fps[(frame.depth.toInt - depth).toNat]? = frameAtDepth fps depth := by
  have hlength := h.depth
  rw [frameAtDepth, List.getElem?_reverse hdepth]
  congr 1
  omega

/-- **The code of a variable leads to the frame of the function that declares it.** The location of a
variable has the depth of this function plus one. -/
theorem name_reaches_declaring_frame (h : Display frame temps s.memory fps) {w : Workspace} {nm : Mark}
    {ident : String} {d : Decl} (hbound : w.attrs.declaredAt[nm.id]? = some d) (hvar : d.IsVariable)
    {size offset depth : Word} (haccess : w.attrs.accesses[d.id]? = some (.relative size offset depth))
    {declaring : Nat} {fp : Word} (hdepth : depth.toInt = declaring + 1)
    (hfp : frameAtDepth fps declaring = some fp) :
    Succeeds (name frame nm ident) w fun code w' => w' = w ∧ ∃ addr, code = .mem addr ∧
      ∀ m k, ReflTransGen (Next m) ⟨.eval addr k, temps, s⟩ ⟨.value (fp + offset) k, temps, s⟩ := by
  have hlength := h.depth
  have hdeclaring : declaring < fps.length := by
    rw [← List.length_reverse]
    exact (List.getElem?_eq_some_iff.mp hfp).1
  -- The depths are small enough that neither the difference nor the sum wraps around.
  have hhops : (frame.depth - depth + 1).toInt = frame.depth.toInt - declaring := by
    have hle := frame.depth.toInt_lt
    have hdiff : (frame.depth - depth).toInt = frame.depth.toInt - (declaring + 1) := by
      rw [Int64.toInt_sub, hdepth, Int.bmod_eq_of_le] <;> omega
    rw [Int64.toInt_add, hdiff, Int64.toInt_one, Int.bmod_eq_of_le] <;> omega
  have hreach : fps[(frame.depth - depth + 1).toInt.toNat]? = some fp := by
    rw [hhops, h.getElem?_hops hdeclaring, hfp]
  have heval : ∀ m k, ReflTransGen (Next m)
      ⟨.eval (.binop .add (frameAddr frame (frame.depth - depth + 1).toInt.toNat) (.const offset)) k,
        temps, s⟩ ⟨.value (fp + offset) k, temps, s⟩ := fun m k =>
    .head rfl ((h.eval_frameAddr hreach _).trans (.head rfl (.head rfl (.single rfl))))
  refine Pass.attrs_spec ?_
  rw [hbound]
  cases d with
  | var dm dname type | par dm dname type =>
    dsimp only [Decl.id, Decl.mark] at haccess
    simp only [haccess]
    exact .pure ⟨rfl, _, rfl, heval⟩
  | _ => exact hvar.elim

/-- **Which callees get the right static link.** The callee is nested in the function at depth
`declaring`, one of those around the running one. It gets the frame of this function exactly if this
is the running function itself; otherwise it gets the frame of the next function inwards. -/
theorem static_link_right_iff (h : Display frame temps s.memory fps) (hdistinct : fps.Nodup)
    {callee : Frame} {declaring : Nat} (hcallee : callee.depth.toInt = declaring + 1)
    (hdeclaring : declaring < fps.length) :
    ∃ link, (∀ m k, ReflTransGen (Next m) ⟨.eval (staticLink frame callee) k, temps, s⟩
        ⟨.value link k, temps, s⟩) ∧
      frameAtDepth fps (min (declaring + 1) (fps.length - 1)) = some link ∧
      (frameAtDepth fps declaring = some link ↔ declaring + 1 = fps.length) := by
  have hlength := h.depth
  have hle := frame.depth.toInt_lt
  have hhops : (frame.depth - callee.depth).toInt = frame.depth.toInt - callee.depth.toInt := by
    rw [Int64.toInt_sub, Int.bmod_eq_of_le] <;> omega
  have hlt : min (declaring + 1) (fps.length - 1) < fps.length := by omega
  obtain ⟨link, hlink⟩ : ∃ link, frameAtDepth fps (min (declaring + 1) (fps.length - 1)) = some link :=
    ⟨_, List.getElem?_eq_getElem (by rw [List.length_reverse]; exact hlt)⟩
  have hreach : fps[(frame.depth - callee.depth).toInt.toNat]? = some link := by
    rw [hhops, ← hlink, ← h.getElem?_hops hlt]
    congr 1
    omega
  refine ⟨link, fun m k => h.eval_frameAddr hreach k, hlink, ?_⟩
  -- Different functions have different frames, so the frames agree only if the depths do.
  have hsame : frameAtDepth fps declaring = some link ↔
      declaring = min (declaring + 1) (fps.length - 1) := by
    rw [← hlink]
    refine List.getElem?_inj ?_ (List.nodup_reverse.mpr hdistinct)
    rw [List.length_reverse]
    exact hdeclaring
  rw [hsame]
  omega

end Display

end Machine

end MmixBackend
