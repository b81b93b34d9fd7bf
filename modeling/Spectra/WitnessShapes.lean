import Spectra.EvidenceShapes

/-! What O12 needs: the bundle, and each witness tree node by node in the order it is walked. -/
namespace Spectra
namespace Checker

variable {lib : Library} {files : CheckerInputs} {body : Json} {instances : List Published}
  {atoms : Atoms} {cut : PublishedCut} {bundle : List (String × Json)}

section

variable {nodes : List Json} {children : List (List ℕ)}
  {st st' : List (ℕ × List InstanceId) × List Published}

end

/-! ### The witnesses -/

end Checker

end Spectra
