import Spectra.TableShapes
import Spectra.WitnessTrees

/-! What O10 to O12 need of the document and of the side files: the intervals and the rules, the
licences and the steps they stand for, the bundle and the witness trees. -/
namespace Spectra
namespace Checker

variable {lib : Library} {files : CheckerInputs} {body : Json} {instances : List Published}

end Checker

end Spectra
