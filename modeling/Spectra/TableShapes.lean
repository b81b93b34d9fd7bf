import Spectra.Admissible
import Spectra.Closure
import Spectra.ObligationShapes

/-! What O5 to O9 need of the document: the atom table and its lock, the cut, the corridors' masks, the
invariant and the goals. -/
namespace Spectra
namespace Checker

variable {lib : Library} {files : CheckerInputs} {body : Json}

/-! ### Atoms -/

/-- Every row of the table has its bit. -/
theorem bitOf_ok {atoms : Atoms} (h5 : o5Atoms lib body files = .ok atoms) {r : AtomRow} (hr : r ∈ atoms.byRank) :
    ∃ bit, atoms.bitOf r.controlId r.level = .ok bit := by
  obtain ⟨rows,rfl⟩ := o5Atoms_ok h5
  obtain ⟨bit,hbit⟩ := Option.isSome_iff_exists.mp (Atoms.isSome_bits hr)
  exact ⟨bit,by rw [Atoms.bitOf,hbit]⟩

/-- A sequence that is scanned for ascent. -/
def AscendingShaped (j : Json) : Prop :=
  match j with
  | .obj m => m.length ≤ 1
  | j => j.iterable = true ∧ ∀ l, j.iter = .ok l → Json.ComparableChain l

theorem AscendingShaped.iterable {j : Json} (h : AscendingShaped j) : j.iterable = true := by
  cases j with
  | obj m => rfl
  | _ => exact h.1

end Checker

end Spectra
