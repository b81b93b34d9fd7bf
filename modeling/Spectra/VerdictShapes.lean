import Spectra.WitnessShapes

/-! What O13 to O15 need: the corridors, the premium, the verdict and its axes, the liveness document once
more, and the minimality label. -/
namespace Spectra
namespace Checker

variable {lib : Library} {files : CheckerInputs} {body : Json} {instances : List Published}
  {atoms : Atoms} {cut : PublishedCut} {masks : List Mask}

/-! ### Corridors -/

section

variable {α β : Type} {code : String}

end

end Checker

end Spectra
