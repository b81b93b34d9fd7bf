import Spectra.BundleReader
import Spectra.Encodes
import Spectra.Shapes

/-! The readers of the checker: which texts of the side files they get through, which values the
encoders of the preimages take, and what a record needs, field by field, in the order its fields are
read. -/
namespace Spectra
namespace Checker

variable {lib : Library} {α β : Type}

/-! ### Texts -/

theorem objectOf_ok {parsed : Check Json} {j : Json} (h : objectOf parsed = .ok j) :
    j.isObject = true := by
  unfold objectOf at h
  split at h
  · cases h; rfl
  all_goals cases h

end Checker

end Spectra
