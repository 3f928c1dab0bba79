import Mathlib.Algebra.GroupWithZero.Nat
import Mathlib.Data.List.ProdSigma
import MmixBackend.Proofs.Types.Unfolding

/-!
# Equality of types is equality of unfoldings

Unfolding all names in a type gives a tree, which is infinite if the type is recursive. `Ty.At` says what
stands at a place of this tree, and two types have the same unfolding if the same stands at all places.

The test for equality compares the outermost constructors of two types and puts their parts on a list of
pairs that are still to be compared, unless it has met the pair before. `Ty.EqualRun` is this procedure as
a derivation, without a bound on its length.

* If it accepts, then the pairs that it has met are a bisimulation: their outermost constructors agree and
  their parts have been met too. So nothing different can be found at any place of the trees.
* If two types have the same unfolding, then so have their parts, and the test never finds a difference.
* Only pairs of parts of the two types and of the definitions are met, so it ends.

## Main statements

- `Ty.equalRun_equal`: the test always ends.
- `Ty.EqualRun.iff_sameUnfolding`: its answer says whether the unfoldings are the same.
- `Ty.equality_is_equality_of_unfoldings`: both, and what follows for equality and for assignments.
-/

namespace MmixBackend

open Source (NodeId)

namespace Ty

variable {defs : TypeDefs}

/-! ## §1 Unfoldings as trees -/

/-- What can stand at a place of an unfolded type: a constructor, without the parts below it. -/
inductive Head where
  | void | char | int | bool | ptr
  | arr (len : Word)
  | record (names : List String)
  /-- A name that has no definition. -/
  | unresolved (decl : NodeId)
  deriving DecidableEq

/-- The outermost constructor of a type. -/
def head : Ty → Head
  | void => .void
  | char => .char
  | int => .int
  | bool => .bool
  | ptr _ => .ptr
  | arr len _ => .arr len
  | record _ fields => .record (fields.toList.map Prod.fst)
  | named d _ => .unresolved d

/-- The parts of a type in order. -/
def parts : Ty → List Ty
  | ptr base => [base]
  | arr _ elem => [elem]
  | record _ fields => fields.toList.map Prod.snd
  | _ => []

/-- At the place `path` of the unfolding of a type stands `h`. A path tells which part to go to at each
step down from the root. -/
def At (defs : TypeDefs) : Ty → (path : List Nat) → Head → Prop
  | t, [], h => ∃ t', t.Unfolds defs t' ∧ t'.head = h
  | t, i :: path, h => ∃ t' part, t.Unfolds defs t' ∧ t'.parts[i]? = some part ∧ part.At defs path h

/-- The unfoldings of two types are the same tree. -/
def SameUnfolding (defs : TypeDefs) (a b : Ty) : Prop := ∀ path h, a.At defs path h ↔ b.At defs path h

theorem SameUnfolding.refl (a : Ty) : a.SameUnfolding defs a := fun _ _ => Iff.rfl

theorem SameUnfolding.symm {a b : Ty} (h : a.SameUnfolding defs b) : b.SameUnfolding defs a :=
  fun path n => (h path n).symm

theorem SameUnfolding.trans {a b c : Ty} (h : a.SameUnfolding defs b) (h' : b.SameUnfolding defs c) :
    a.SameUnfolding defs c := fun path n => (h path n).trans (h' path n)

theorem Unfolds.at_nil_iff {t t' : Ty} (h : t.Unfolds defs t') {n : Head} : t.At defs [] n ↔
    t'.head = n := by
  constructor
  · rintro ⟨t'', h', rfl⟩
    rw [h.unique h']
  · exact fun hn => ⟨t', h, hn⟩

theorem Unfolds.at_cons_iff {t t' : Ty} (h : t.Unfolds defs t') {i : Nat} {path : List Nat} {n : Head} :
    t.At defs (i :: path) n ↔ ∃ part, t'.parts[i]? = some part ∧ part.At defs path n := by
  constructor
  · rintro ⟨t'', part, h', hpart, hn⟩
    rw [h.unique h']
    exact ⟨part, hpart, hn⟩
  · rintro ⟨part, hpart, hn⟩
    exact ⟨t', part, h, hpart, hn⟩

/-- Types with the same unfolding have the same outermost constructor. -/
theorem SameUnfolding.head_eq {a b a' b' : Ty} (h : a.SameUnfolding defs b) (ha : a.Unfolds defs a')
    (hb : b.Unfolds defs b') : a'.head = b'.head := by
  have hroot := (h [] b'.head).mpr (hb.at_nil_iff.mpr rfl)
  exact ha.at_nil_iff.mp hroot

/-- Their parts have the same unfoldings. -/
theorem SameUnfolding.part {a b a' b' x y : Ty} (h : a.SameUnfolding defs b) (ha : a.Unfolds defs a')
    (hb : b.Unfolds defs b') {i : Nat} (hx : a'.parts[i]? = some x) (hy : b'.parts[i]? = some y) :
    x.SameUnfolding defs y := by
  intro path n
  have hbelow := h (i :: path) n
  rw [ha.at_cons_iff, hb.at_cons_iff, hx, hy] at hbelow
  simpa using hbelow

/-! ## §2 Comparing outermost constructors -/

theorem matchFields_eq (fs gs : Fields) : matchFields fs gs =
    if fs.toList.map Prod.fst = gs.toList.map Prod.fst then
      some ((fs.toList.map Prod.snd).zip (gs.toList.map Prod.snd)) else none := by
  fun_induction matchFields fs gs with
  | case1 => rfl
  | case2 t rest n t' rest' ih =>
    rw [ih]
    simp only [Fields.toList, List.map_cons, List.cons.injEq, true_and, List.zip_cons_cons]
    split <;> rfl
  | case3 n t rest n' t' rest' hne =>
    rw [if_neg]
    simp [Fields.toList, hne]
  | case4 fs gs hnil hcons =>
    cases fs with
    | nil =>
      cases gs with
      | nil => exact (hnil rfl rfl).elim
      | cons => rfl
    | cons n t rest =>
      cases gs with
      | nil => rfl
      | cons n' t' rest' => exact (hcons _ _ _ _ _ _ rfl rfl).elim

/-- The outermost constructors match if they are the same; then the parts are still to be compared. -/
theorem matchTop_eq (a b : Ty) :
    matchTop a b = if a.head = b.head then some (a.parts.zip b.parts) else none := by
  cases a <;> cases b <;> simp [matchTop, head, parts, matchFields_eq]

theorem matchTop_eq_some_iff {a b : Ty} {rest : List (Ty × Ty)} :
    matchTop a b = some rest ↔ a.head = b.head ∧ a.parts.zip b.parts = rest := by
  rw [matchTop_eq]
  split <;> simp [*]

theorem length_parts_eq {a b : Ty} (h : a.head = b.head) : a.parts.length = b.parts.length := by
  cases a with
  | record id fields =>
    cases b with
    | record id' fields' => simpa [parts] using congrArg List.length (Head.record.inj h)
    | _ => cases h
  | _ => cases b <;> first | rfl | cases h

/-! ## §3 The test as a derivation -/

/-- Comparing the pairs in `pending`, with those in `seen` taken for equal, ends with the answer. -/
inductive EqualRun (defs : TypeDefs) : (seen pending : List (Ty × Ty)) → Bool → Prop
  | done {seen : List (Ty × Ty)} : EqualRun defs seen [] true
  | again {seen pending : List (Ty × Ty)} {a b : Ty} {r : Bool} :
    (a, b) ∈ seen → EqualRun defs seen pending r → EqualRun defs seen ((a, b) :: pending) r
  | differ {seen pending : List (Ty × Ty)} {a b a' b' : Ty} :
    (a, b) ∉ seen → a.Unfolds defs a' → b.Unfolds defs b' → matchTop a' b' = none →
      EqualRun defs seen ((a, b) :: pending) false
  | agree {seen pending rest : List (Ty × Ty)} {a b a' b' : Ty} {r : Bool} :
    (a, b) ∉ seen → a.Unfolds defs a' → b.Unfolds defs b' → matchTop a' b' = some rest →
      EqualRun defs ((a, b) :: seen) (rest ++ pending) r → EqualRun defs seen ((a, b) :: pending) r

/-- The outermost constructors of the two types agree and their parts are related. -/
def Agree (defs : TypeDefs) (R : Ty → Ty → Prop) (a b : Ty) : Prop :=
  ∃ a' b', a.Unfolds defs a' ∧ b.Unfolds defs b' ∧ a'.head = b'.head ∧
    ∀ p ∈ a'.parts.zip b'.parts, R p.1 p.2

/-- Two types that a bisimulation relates have the same unfolding. -/
theorem sameUnfolding_of_bisimulation {R : Ty → Ty → Prop} (hR : ∀ a b, R a b → Agree defs R a b)
    {a b : Ty} (h : R a b) : a.SameUnfolding defs b := by
  intro path n
  induction path generalizing a b with
  | nil =>
    obtain ⟨a', b', ha, hb, hhead, -⟩ := hR a b h
    rw [ha.at_nil_iff, hb.at_nil_iff, hhead]
  | cons i path ih =>
    obtain ⟨a', b', ha, hb, hhead, hparts⟩ := hR a b h
    have hlength := length_parts_eq hhead
    rw [ha.at_cons_iff, hb.at_cons_iff]
    by_cases hi : i < a'.parts.length
    · -- Both have a part to go to, and these are related again.
      have hi' : i < b'.parts.length := hlength ▸ hi
      have hmem : (a'.parts[i], b'.parts[i]) ∈ a'.parts.zip b'.parts :=
        List.mem_iff_getElem.mpr
          ⟨i, by rw [List.length_zip]; exact Nat.lt_min.mpr ⟨hi, hi'⟩, List.getElem_zip⟩
      simpa [List.getElem?_eq_getElem hi, List.getElem?_eq_getElem hi'] using ih (hparts _ hmem)
    · simp [List.getElem?_eq_none (Nat.le_of_not_lt hi),
        List.getElem?_eq_none (hlength ▸ Nat.le_of_not_lt hi)]

/-- What the test has met when it accepts is a bisimulation, up to what it has taken for granted. -/
theorem EqualRun.exists_bisimulation {seen pending : List (Ty × Ty)}
    (h : EqualRun defs seen pending true) :
    ∃ R : Ty → Ty → Prop, (∀ p ∈ seen, R p.1 p.2) ∧ (∀ p ∈ pending, R p.1 p.2) ∧
      ∀ a b, R a b → (a, b) ∈ seen ∨ Agree defs R a b := by
  generalize hr : true = r at h
  induction h with
  -- Nothing is pending: what has been seen is all that is taken for granted.
  | @done seen =>
    exact ⟨fun a b => (a, b) ∈ seen, fun _ h => h, List.forall_mem_nil _, fun _ _ h => .inl h⟩
  | again hmem _ ih =>
    obtain ⟨R, hseen, hpending, hR⟩ := ih hr
    exact ⟨R, hseen, List.forall_mem_cons.mpr ⟨hseen _ hmem, hpending⟩, hR⟩
  | differ => cases hr
  | @agree seen pending rest a b a' b' _ _ ha hb hmatch _ ih =>
    obtain ⟨R, hseen, hpending, hR⟩ := ih hr
    obtain ⟨hrest, hpending⟩ := List.forall_mem_append.mp hpending
    obtain ⟨hab, hseen⟩ := List.forall_mem_cons.mp hseen
    refine ⟨R, hseen, List.forall_mem_cons.mpr ⟨hab, hpending⟩, fun x y hxy => ?_⟩
    -- The pair itself has been seen, and what it owes are its parts, which the rest relates.
    rcases hR x y hxy with hmem | hagree
    · rcases List.mem_cons.mp hmem with heq | hmem
      · cases heq
        obtain ⟨hhead, rfl⟩ := matchTop_eq_some_iff.mp hmatch
        exact .inr ⟨a', b', ha, hb, hhead, hrest⟩
      · exact .inl hmem
    · exact .inr hagree

/-- The test accepts pairs with the same unfoldings. -/
theorem EqualRun.eq_true {seen pending : List (Ty × Ty)} {r : Bool} (h : EqualRun defs seen pending r)
    (hsame : ∀ p ∈ pending, p.1.SameUnfolding defs p.2) : r = true := by
  induction h with
  | done => rfl
  | again _ _ ih => exact ih (List.forall_mem_cons.mp hsame).2
  | differ _ ha hb hmatch =>
    have hhead := (List.forall_mem_cons.mp hsame).1.head_eq ha hb
    rw [matchTop_eq, if_pos hhead] at hmatch
    cases hmatch
  | @agree seen pending rest a b a' b' _ _ ha hb hmatch _ ih =>
    obtain ⟨hab, hpending⟩ := List.forall_mem_cons.mp hsame
    refine ih (List.forall_mem_append.mpr ⟨fun p hp => ?_, hpending⟩)
    obtain ⟨-, rfl⟩ := matchTop_eq_some_iff.mp hmatch
    obtain ⟨i, hi, rfl⟩ := List.mem_iff_getElem.mp hp
    rw [List.length_zip, Nat.lt_min] at hi
    rw [List.getElem_zip]
    exact hab.part ha hb (List.getElem?_eq_getElem hi.1) (List.getElem?_eq_getElem hi.2)

/-- **The answer of the test says whether the unfoldings are the same.** -/
theorem EqualRun.iff_sameUnfolding {a b : Ty} {r : Bool} (h : EqualRun defs [] [(a, b)] r) :
    r = true ↔ a.SameUnfolding defs b := by
  refine ⟨?_, fun hsame => h.eq_true (List.forall_mem_singleton.mpr hsame)⟩
  rintro rfl
  obtain ⟨R, -, hab, hR⟩ := h.exists_bisimulation
  exact sameUnfolding_of_bisimulation (fun x y hxy => (hR x y hxy).resolve_left List.not_mem_nil)
    (hab _ List.mem_cons_self)

end Ty

/-! ## §4 The test ends -/

mutual

/-- The type and all parts of it, without unfolding names. -/
def Ty.subterms : Ty → List Ty
  | .void => [.void]
  | .char => [.char]
  | .int => [.int]
  | .bool => [.bool]
  | .named d ident => [.named d ident]
  | .ptr base => .ptr base :: base.subterms
  | .arr len elem => .arr len elem :: elem.subterms
  | .record id fields => .record id fields :: fields.subterms

/-- The parts of the components of a record. -/
def Fields.subterms : Fields → List Ty
  | .nil => []
  | .cons _ type rest => type.subterms ++ rest.subterms

end

mutual

theorem Ty.length_subterms : ∀ t : Ty, t.subterms.length = t.nodeCount
  | .void | .char | .int | .bool | .named _ _ => rfl
  | .ptr base => congrArg (· + 1) base.length_subterms
  | .arr _ elem => congrArg (· + 1) elem.length_subterms
  | .record _ fields => congrArg (· + 1) fields.length_subterms

theorem Fields.length_subterms : ∀ fields : Fields, fields.subterms.length = fields.nodeCount
  | .nil => rfl
  | .cons _ type rest => by
    rw [Fields.subterms, List.length_append, type.length_subterms, rest.length_subterms, Fields.nodeCount]

end

theorem Ty.mem_subterms_self (t : Ty) : t ∈ t.subterms := by
  cases t <;> exact List.mem_cons_self

theorem Fields.mem_subterms_of_mem_toList : ∀ {fields : Fields} {t : Ty}, t ∈ fields.toList.map Prod.snd →
    t ∈ fields.subterms
  | .cons _ type rest, t, ht => by
    rw [Fields.subterms]
    rcases List.mem_cons.mp ht with rfl | ht
    · exact List.mem_append_left _ (Ty.mem_subterms_self _)
    · exact List.mem_append_right _ (Fields.mem_subterms_of_mem_toList ht)

mutual

/-- The parts of a part are parts. -/
theorem Ty.mem_subterms_of_part {x y : Ty} (hy : y ∈ x.parts) : ∀ (t : Ty), x ∈ t.subterms →
    y ∈ t.subterms
  | .void, hx | .char, hx | .int, hx | .bool, hx | .named _ _, hx => by
    rw [List.mem_singleton.mp hx] at hy
    exact (List.not_mem_nil hy).elim
  | .ptr base, hx => by
    rcases List.mem_cons.mp hx with rfl | hx
    · rw [List.mem_singleton.mp hy]
      exact List.mem_cons_of_mem _ base.mem_subterms_self
    · exact List.mem_cons_of_mem _ (Ty.mem_subterms_of_part hy base hx)
  | .arr _ elem, hx => by
    rcases List.mem_cons.mp hx with rfl | hx
    · rw [List.mem_singleton.mp hy]
      exact List.mem_cons_of_mem _ elem.mem_subterms_self
    · exact List.mem_cons_of_mem _ (Ty.mem_subterms_of_part hy elem hx)
  | .record _ fields, hx => by
    rcases List.mem_cons.mp hx with rfl | hx
    · exact List.mem_cons_of_mem _ (Fields.mem_subterms_of_mem_toList hy)
    · exact List.mem_cons_of_mem _ (Fields.mem_subterms_of_part hy fields hx)

theorem Fields.mem_subterms_of_part {x y : Ty} (hy : y ∈ x.parts) :
    ∀ (fields : Fields), x ∈ fields.subterms → y ∈ fields.subterms
  | .cons _ type rest, hx => by
    rw [Fields.subterms] at hx ⊢
    rcases List.mem_append.mp hx with hx | hx
    · exact List.mem_append_left _ (Ty.mem_subterms_of_part hy type hx)
    · exact List.mem_append_right _ (Fields.mem_subterms_of_part hy rest hx)

end

mutual

theorem Ty.nodeCount_le_of_mem {x : Ty} : ∀ (t : Ty), x ∈ t.subterms → x.nodeCount ≤ t.nodeCount
  | .void, hx | .char, hx | .int, hx | .bool, hx | .named _ _, hx =>
    Nat.le_of_eq (congrArg Ty.nodeCount (List.mem_singleton.mp hx))
  | .ptr base, hx => by
    rcases List.mem_cons.mp hx with rfl | hx
    · exact Nat.le_refl _
    · exact Nat.le_succ_of_le (Ty.nodeCount_le_of_mem base hx)
  | .arr _ elem, hx => by
    rcases List.mem_cons.mp hx with rfl | hx
    · exact Nat.le_refl _
    · exact Nat.le_succ_of_le (Ty.nodeCount_le_of_mem elem hx)
  | .record _ fields, hx => by
    rcases List.mem_cons.mp hx with rfl | hx
    · exact Nat.le_refl _
    · exact Nat.le_succ_of_le (Fields.nodeCount_le_of_mem fields hx)

theorem Fields.nodeCount_le_of_mem {x : Ty} : ∀ (fields : Fields), x ∈ fields.subterms →
    x.nodeCount ≤ fields.nodeCount
  | .cons _ type rest, hx => by
    rw [Fields.nodeCount]
    rcases List.mem_append.mp hx with hx | hx
    · exact Nat.le_trans (Ty.nodeCount_le_of_mem type hx) (Nat.le_add_right _ _)
    · exact Nat.le_trans (Fields.nodeCount_le_of_mem rest hx) (Nat.le_add_left _ _)

end

theorem Fields.length_toList_le : ∀ fields : Fields, fields.toList.length ≤ fields.nodeCount
  | .nil => Nat.le_refl _
  | .cons _ type rest => by
    have hrest := rest.length_toList_le
    have htype : 0 < type.nodeCount := type.length_subterms ▸ List.length_pos_of_mem
      type.mem_subterms_self
    rw [Fields.toList, Fields.nodeCount, List.length_cons]
    omega

theorem Ty.length_parts_le : ∀ t : Ty, t.parts.length ≤ t.nodeCount
  | .void | .char | .int | .bool | .named _ _ => Nat.zero_le _
  | .ptr _ | .arr _ _ => Nat.le_add_left _ _
  | .record _ fields => by
    rw [Ty.parts, List.length_map]
    exact Nat.le_succ_of_le fields.length_toList_le

/-- The number of nodes of the definitions, by their list. -/
theorem TypeDefs.nodeCount_eq_sum (defs : TypeDefs) :
    defs.nodeCount = (defs.toList.map fun p => p.2.nodeCount).sum := by
  have hfoldl (ps : List (NodeId × Ty)) (n : Nat) :
      ps.foldl (fun n p => n + p.2.nodeCount) n = n + (ps.map fun p => p.2.nodeCount).sum := by
    induction ps generalizing n with
    | nil => rfl
    | cons p ps ih => rw [List.foldl_cons, ih, List.map_cons, List.sum_cons, Nat.add_assoc]
  rw [TypeDefs.nodeCount, Std.TreeMap.foldl_eq_foldl_toList, hfoldl, Nat.zero_add]

namespace Ty

variable {defs : TypeDefs}

/-- The parts of two types and of all definitions. -/
def reach (defs : TypeDefs) (a b : Ty) : List Ty :=
  a.subterms ++ b.subterms ++ defs.toList.flatMap fun p => p.2.subterms

theorem length_reach (a b : Ty) :
    (reach defs a b).length = a.nodeCount + b.nodeCount + defs.nodeCount := by
  simp only [reach, List.length_append, length_subterms, List.length_flatMap, defs.nodeCount_eq_sum]

theorem mem_reach_iff {a b x : Ty} : x ∈ reach defs a b ↔
    x ∈ a.subterms ∨ x ∈ b.subterms ∨ ∃ (d : NodeId) (t : Ty), defs[d]? = some t ∧ x ∈ t.subterms := by
  simp [reach, Std.TreeMap.mem_toList_iff_getElem?_eq_some]

theorem mem_reach_of_unfolds {a b x x' : Ty} (h : x.Unfolds defs x') (hx : x ∈ reach defs a b) :
    x' ∈ reach defs a b := by
  induction h with
  | stop => exact hx
  | @step d ident t t' hdef _ ih =>
    exact ih (mem_reach_iff.mpr (.inr (.inr ⟨d, t, hdef, t.mem_subterms_self⟩)))

theorem mem_reach_of_part {a b x y : Ty} (hy : y ∈ x.parts) (hx : x ∈ reach defs a b) :
    y ∈ reach defs a b := by
  rw [mem_reach_iff] at hx ⊢
  rcases hx with hx | hx | ⟨d, t, hdef, hx⟩
  · exact .inl (mem_subterms_of_part hy a hx)
  · exact .inr (.inl (mem_subterms_of_part hy b hx))
  · exact .inr (.inr ⟨d, t, hdef, mem_subterms_of_part hy t hx⟩)

/-- A type has no more parts than there are types to meet. -/
theorem length_parts_le_reach {a b x : Ty} (hx : x ∈ reach defs a b) :
    x.parts.length ≤ (reach defs a b).length := by
  refine Nat.le_trans x.length_parts_le ?_
  rw [length_reach]
  rcases mem_reach_iff.mp hx with hx | hx | ⟨d, t, hdef, hx⟩
  · have := nodeCount_le_of_mem a hx
    omega
  · have := nodeCount_le_of_mem b hx
    omega
  · have hmem : (d, t) ∈ defs.toList := Std.TreeMap.mem_toList_iff_getElem?_eq_some.mpr hdef
    obtain ⟨before, after, hlist⟩ := List.append_of_mem hmem
    have : x.nodeCount ≤ (d, t).2.nodeCount := nodeCount_le_of_mem t hx
    rw [defs.nodeCount_eq_sum, hlist, List.map_append, List.sum_append, List.map_cons, List.sum_cons]
    omega

/-- There are no more pairs to meet than pairs of types to meet. -/
theorem length_le_of_met {a b : Ty} {seen : List (Ty × Ty)} (hnodup : seen.Nodup)
    (hseen : ∀ p ∈ seen, p.1 ∈ reach defs a b ∧ p.2 ∈ reach defs a b) :
    seen.length ≤ (reach defs a b).length * (reach defs a b).length := by
  rw [← List.length_product]
  exact (List.subperm_of_subset hnodup fun p hp => List.mem_product.mpr (hseen p hp)).length_le

/-- One pair less can be met for the first time, which pays for the new pairs on the list. -/
theorem fuel_of_met {n seen new pending fuel : Nat} (hseen : seen + 1 ≤ n * n) (hnew : new ≤ n)
    (hfuel : (n * n - seen) * n + pending ≤ fuel) :
    (n * n - (seen + 1)) * n + (new + pending) ≤ fuel := by
  obtain ⟨k, hk⟩ : ∃ k, n * n = k + (seen + 1) := ⟨_, (Nat.sub_add_cancel hseen).symm⟩
  have hold : n * n - seen = k + 1 := by omega
  have hrest : n * n - (seen + 1) = k := by omega
  rw [hold, Nat.succ_mul] at hfuel
  rw [hrest]
  omega

/-- **The test ends** with fuel for all pairs that it can still meet. Every pair that it meets for the
first time puts at most as many pairs on the list as a type has parts. -/
theorem equalRun_equalPairs (hguarded : defs.Guarded) {a b : Ty} (fuel : Nat)
    {seen pending : List (Ty × Ty)} (hnodup : seen.Nodup)
    (hseen : ∀ p ∈ seen, p.1 ∈ reach defs a b ∧ p.2 ∈ reach defs a b)
    (hpending : ∀ p ∈ pending, p.1 ∈ reach defs a b ∧ p.2 ∈ reach defs a b)
    (hfuel : ((reach defs a b).length * (reach defs a b).length - seen.length)
      * (reach defs a b).length + pending.length ≤ fuel) :
    EqualRun defs seen pending (equalPairs defs fuel seen pending) := by
  induction fuel generalizing seen pending with
  | zero =>
    cases pending with
    | nil => exact .done
    | cons p pending => simp at hfuel
  | succ fuel ih =>
    cases pending with
    | nil => exact .done
    | cons p pending =>
      obtain ⟨x, y⟩ := p
      obtain ⟨⟨hx, hy⟩, hpending⟩ := List.forall_mem_cons.mp hpending
      rw [List.length_cons] at hfuel
      rw [equalPairs]
      -- A pair that was met before only leaves the list.
      by_cases hmet : (x, y) ∈ seen
      · rw [if_pos (List.contains_iff_mem.mpr hmet)]
        exact .again hmet (ih hnodup hseen hpending (by omega))
      · rw [if_neg (by rwa [List.contains_iff_mem])]
        have hx' : x.Unfolds defs (x.actual defs) := unfolds_actual fun d _ => hguarded.founded d
        have hy' : y.Unfolds defs (y.actual defs) := unfolds_actual fun d _ => hguarded.founded d
        cases hmatch : matchTop (x.actual defs) (y.actual defs) with
        | none => exact .differ hmet hx' hy' hmatch
        | some rest =>
          refine .agree hmet hx' hy' hmatch ?_
          -- The parts of what has been reached are reached as well.
          have hxs := mem_reach_of_unfolds hx' hx
          have hys := mem_reach_of_unfolds hy' hy
          have hnodup' : ((x, y) :: seen).Nodup := List.nodup_cons.mpr ⟨hmet, hnodup⟩
          have hseen' : ∀ p ∈ (x, y) :: seen, p.1 ∈ reach defs a b ∧ p.2 ∈ reach defs a b :=
            List.forall_mem_cons.mpr ⟨⟨hx, hy⟩, hseen⟩
          obtain ⟨-, rfl⟩ := matchTop_eq_some_iff.mp hmatch
          have hrest : ∀ p ∈ (x.actual defs).parts.zip (y.actual defs).parts,
              p.1 ∈ reach defs a b ∧ p.2 ∈ reach defs a b := fun p hp =>
            ⟨mem_reach_of_part (List.of_mem_zip hp).1 hxs, mem_reach_of_part (List.of_mem_zip hp).2 hys⟩
          refine ih hnodup' hseen' (List.forall_mem_append.mpr ⟨hrest, hpending⟩) ?_
          -- The met pairs are distinct pairs of reached types, so there is room for one more.
          rw [List.length_append, List.length_zip]
          refine fuel_of_met (length_le_of_met hnodup' hseen') ?_ (by omega)
          exact Nat.le_trans (Nat.min_le_left _ _) (length_parts_le_reach hxs)

/-- The fuel of the test is enough for the pairs of all types to meet. -/
theorem fuel_of_equal (a b : Ty) :
    ((reach defs a b).length * (reach defs a b).length - ([] : List (Ty × Ty)).length) *
    (reach defs a b).length
      + [(a, b)].length ≤ (a.nodeCount + b.nodeCount + defs.nodeCount + 1)
        * (a.nodeCount + b.nodeCount + defs.nodeCount + 1) *
          (a.nodeCount + b.nodeCount + defs.nodeCount + 1) + 1 := by
  rw [length_reach, List.length_nil, List.length_singleton, Nat.sub_zero]
  generalize a.nodeCount + b.nodeCount + defs.nodeCount = n
  have hle := Nat.mul_le_mul (Nat.mul_le_mul (Nat.le_succ n) (Nat.le_succ n)) (Nat.le_succ n)
  exact Nat.succ_le_succ hle

theorem equalRun_equal (hguarded : defs.Guarded) (a b : Ty) :
    EqualRun defs [] [(a, b)] (equal defs a b) := by
  refine equalRun_equalPairs hguarded _ (a := a) (b := b) .nil (List.forall_mem_nil _)
    (List.forall_mem_singleton.mpr ⟨?_, ?_⟩) (fuel_of_equal a b)
  · exact mem_reach_iff.mpr (.inl a.mem_subterms_self)
  · exact mem_reach_iff.mpr (.inr (.inl b.mem_subterms_self))

/-! ## §5 Equality and assignments -/

theorem equal_iff_sameUnfolding (hguarded : defs.Guarded) {a b : Ty} :
    equal defs a b = true ↔ a.SameUnfolding defs b := (equalRun_equal hguarded a b).iff_sameUnfolding

theorem pointee?_eq_some_iff {t base : Ty} : t.pointee? defs = some base ↔ t.actual defs = ptr base := by
  cases h : t.actual defs <;> simp [pointee?, h]

theorem isVoid_iff_at (hguarded : defs.Guarded) {t : Ty} : t.isVoid defs = true ↔ t.At defs [] .void := by
  rw [(unfolds_actual fun d _ => hguarded.founded d : t.Unfolds defs (t.actual defs)).at_nil_iff]
  cases h : t.actual defs <;> simp [isVoid, head, h]

theorem at_zero_iff (hguarded : defs.Guarded) {t base : Ty} (hbase : t.pointee? defs = some base)
    {h : Head} :
    t.At defs [0] h ↔ base.At defs [] h := by
  have ht : t.Unfolds defs (t.actual defs) := unfolds_actual fun d _ => hguarded.founded d
  rw [ht.at_cons_iff, pointee?_eq_some_iff.mp hbase]
  simp [parts]

theorem isPtr_iff_at (hguarded : defs.Guarded) {t : Ty} :
    (∃ base, t.pointee? defs = some base) ↔ t.At defs [] .ptr := by
  rw [(unfolds_actual fun d _ => hguarded.founded d : t.Unfolds defs (t.actual defs)).at_nil_iff]
  cases h : t.actual defs <;> simp [pointee?, head, h]

/-- **Equality of types is equality of unfoldings**, for all names whose cycles pass a pointer. The
test ends for any two types, and accepts them iff their unfoldings are the same tree. So it is
reflexive, symmetric and transitive, whatever names are used. A type can be assigned to another one
iff their unfoldings are the same, or both are pointers and one of them points to `void`. -/
theorem equality_is_equality_of_unfoldings (hguarded : defs.Guarded) :
    (∀ a b, EqualRun defs [] [(a, b)] (equal defs a b)) ∧
    (∀ a b, equal defs a b = true ↔ a.SameUnfolding defs b) ∧
    (∀ a, equal defs a a = true) ∧
    (∀ a b, equal defs a b = true → equal defs b a = true) ∧
    (∀ a b c, equal defs a b = true → equal defs b c = true → equal defs a c = true) ∧
    ∀ dst src, assignable defs dst src = true ↔ dst.SameUnfolding defs src ∨
      dst.At defs [] .ptr ∧ src.At defs [] .ptr ∧ (dst.At defs [0] .void ∨ src.At defs [0] .void) := by
  refine ⟨equalRun_equal hguarded, fun a b => equal_iff_sameUnfolding hguarded,
    fun a => (equal_iff_sameUnfolding hguarded).mpr (.refl a), fun a b hab => ?_, fun a b c hab hbc => ?_,
    fun dst src => ?_⟩
  · exact (equal_iff_sameUnfolding hguarded).mpr ((equal_iff_sameUnfolding hguarded).mp hab).symm
  · exact (equal_iff_sameUnfolding hguarded).mpr
      (((equal_iff_sameUnfolding hguarded).mp hab).trans ((equal_iff_sameUnfolding hguarded).mp hbc))
  · rw [assignable, Bool.or_eq_true, equal_iff_sameUnfolding hguarded]
    refine or_congr_right ?_
    rw [← isPtr_iff_at hguarded, ← isPtr_iff_at hguarded]
    cases hdst : dst.pointee? defs with
    | none => simp
    | some d =>
      cases hsrc : src.pointee? defs with
      | none => simp
      | some s => simp [at_zero_iff hguarded hdst, at_zero_iff hguarded hsrc, isVoid_iff_at hguarded]

/-- Lists whose cells are declared in turns: a cell of `even` points to one of `odd` and the other
way round. The third type is another name of the first one. -/
def cellDefs : TypeDefs :=
  (((∅ : TypeDefs).insert 0 (record 10 (cell (ptr (named 1 "odd"))))).insert 1
    (record 11 (cell (ptr (named 0 "even"))))).insert 2 (named 0 "even")
where
  /-- The components of a cell with the given type of its tail. -/
  cell (tail : Ty) : Fields := .cons "value" .int (.cons "tail" tail .nil)

/-- The checks of the definitions that no size depends on itself. -/
theorem cellDefs_guarded : cellDefs.Guarded := by
  refine TypeDefs.guarded_iff_founded.mpr fun d => ?_
  by_cases hd : d < 3
  · refine TypeDefs.isFinite_iff.mp ?_
    revert d
    decide +kernel
  · refine ⟨d, fun d' ⟨t, ht, _⟩ => ?_⟩
    rw [cellDefs, Std.TreeMap.getElem?_insert, Std.TreeMap.getElem?_insert,
      Std.TreeMap.getElem?_insert] at ht
    have hne (n : NodeId) (hn : n < 3) : n ≠ d := fun h => hd (h ▸ hn)
    simp [hne 0 (by decide), hne 1 (by decide), hne 2 (by decide)] at ht

theorem equality_is_equality_of_unfoldings_cellDefs : cellDefs.Guarded ∧
    (named 2 "alias").SameUnfolding cellDefs (named 1 "odd") ∧
      ¬(named 0 "even").SameUnfolding cellDefs (ptr (named 0 "even")) := by
  obtain ⟨-, hequal, -⟩ := equality_is_equality_of_unfoldings cellDefs_guarded
  refine ⟨cellDefs_guarded, (hequal _ _).mp (by decide +kernel), fun hsame => ?_⟩
  exact absurd ((hequal _ _).mpr hsame) (by decide +kernel)

end Ty

end MmixBackend
