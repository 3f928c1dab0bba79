import MmixBackend.Proofs.CompiledUnits
import MmixBackend.Proofs.Interleaving

/-!
# Accepted programs compiled at the same time

The functions of a compiled program have been compiled one after the other. They may as well draw
their temps in turns. The temps of an accepted program have all been handed out when its linear form
is there, so whatever the order in which the functions draw further ones, each of them is compiled,
and the text is the same.

## Main statements

- `IR.CodeChunk.Sound.temps_le`: the temps of a sound chunk have been handed out.
- `accepted_programs_compile_interleaved`: what is accepted compiles in every order of the draws.
-/

namespace MmixBackend

open Source

/-! ## §1 Temps of sound chunks -/

namespace IR

mutual

theorem Expr.Selectable.whole {n : Int} : ∀ {e : Expr}, e.Selectable n → e.Whole n
  | .absent, h | .sexpr _ _, h => h.elim
  | .const _, _ | .name _, _ => trivial
  | .temp _, h => h
  | .mem addr, h => Expr.Selectable.whole (e := addr) h
  | .binop _ _ _, h => ⟨h.2.1.whole, h.2.2.whole⟩
  | .unop _ arg, h => Expr.Selectable.whole (e := arg) h.2
  | .call _ _ _, h => Expr.SelectableAll.whole h.2

theorem Expr.SelectableAll.whole {n : Int} : ∀ {es : List Expr}, Expr.SelectableAll n es →
    Expr.WholeAll n es
  | [], _ => trivial
  | _ :: _, h => ⟨h.1.whole, Expr.SelectableAll.whole h.2⟩

end

theorem Stmt.Selectable.whole {n : Int} {s : Stmt} (h : s.Selectable n) : s.Whole n := by
  unfold Stmt.Selectable at h
  split at h
  · exact h.whole
  · exact ⟨h.1, h.2.whole⟩
  · exact ⟨h.1.whole, h.2.whole⟩
  · exact h.whole
  · trivial
  · trivial
  · exact h.elim

/-- **The temps of a sound chunk have been handed out.** -/
theorem CodeChunk.Sound.temps_le {n : Int} {c : CodeChunk} (h : c.Sound n) :
    ∀ t ∈ c.temps, t.index ≤ n := by
  have hstmts : Stmt.WholeAll n c.stmts := fun s hs => (h.selectable s hs).whole
  exact List.forall_mem_cons.mpr ⟨h.fp, List.forall_mem_cons.mpr ⟨h.rv, hstmts.temps_le⟩⟩

end IR

/-! ## §2 Any order of the draws -/

/-- **What is accepted compiles in every order of the draws.** Let a program be read without
diagnostics and resolved without errors, and let the number of registers be one of those that are
allowed. Then it is compiled and has a text. From the supply that its linear form leaves, let the
functions draw temps in any order until all of them have come to an end. Then all of them have been
compiled, and the program with these functions has the same text. -/
theorem accepted_programs_compile_interleaved {n : Yaml.Node} {p : Program} {t : Attributes}
    (hread : Program.ofNode n = .ok p) (hresolve : p.number.resolve = .ok t) {o : Options}
    (hmin : minRegisters ≤ o.registers) (hmax : o.registers ≤ maxRegisters) (σ : Supply) :
    ∃ laid coded w c listings text,
      Translated p.number { attrs := t, supply := σ } laid coded c.linear ∧
      (Linear.program p.number).run.run coded = (.ok c.linear, w) ∧
      compile o p.number { attrs := t, supply := σ } = (.ok c, listings) ∧ c.assembly = .ok text ∧
      ∀ (rs : List (Except CompileError (CompiledUnit × UnitListings))) (last : Int),
        Workers.Run ⟨w.supply.temps, c.linear.code.map fun chunk => (Drawing.unit o chunk).run⟩
          ⟨last, rs.map .done⟩ →
        ∃ us : List (CompiledUnit × UnitListings), rs = us.map .ok ∧
          (⟨c.linear, us.map Prod.fst, o.registers⟩ : Compiled).assembly = .ok text := by
  obtain ⟨laid, coded, l, htranslated, h, -⟩ := translated_of_accepted hread hresolve σ
  obtain ⟨⟨linear, units, registers⟩, listings, text, hcompile, htext⟩ :=
    exists_compiled hread hresolve hmin hmax σ
  obtain ⟨rfl, laid', coded', start, us, after, hlayout, hgeneration, hlinear, hunits, rfl⟩ :=
    compile_runs hcompile
  have htranslated' : Translated p.number { attrs := t, supply := σ } laid' coded' linear :=
    ⟨hlayout, hgeneration, _, hlinear⟩
  obtain ⟨rfl, rfl, -⟩ := htranslated.unique htranslated'
  have hsound : ∀ chunk ∈ linear.code, chunk.Sound start.work.supply.temps := by
    obtain ⟨_, _, hrun, -, hsound⟩ := Linear.program_spec (h.laidOut.mono h.generates) h.sound
    cases hlinear.symm.trans hrun
    exact hsound
  refine ⟨_, _, start.work, _, listings, text, htranslated', hlinear, hcompile, htext,
    fun rs last hrun => ?_⟩
  -- One after the other the functions succeed, so they do in any other order.
  have hsame := hrun.outcomes o fun chunk hchunk => (hsound chunk hchunk).temps_le
  rw [hunits] at hsame
  generalize hmapM : rs.mapM id = q at hsame
  cases hsame with
  | @ok us' _ hagree =>
    refine ⟨us', mapM_id_eq_ok_iff.mp hmapM, ?_⟩
    rw [← htext]
    refine (Compiled.assembly_congr ?_).symm
    rw [List.forall₂_map_left_iff, List.forall₂_map_right_iff]
    exact hagree

end MmixBackend
