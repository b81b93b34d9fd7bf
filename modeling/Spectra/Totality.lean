import Spectra.CertificateFile
import Spectra.VerdictShapes

/-! The checker returns a report exactly when, obligation by obligation, each value it comes to has
the shape its next read takes; and a certificate on which it raises instead. -/
namespace Spectra
namespace Checker

/-! ### Obligations in a row -/

/-- Obligations that end in their results or in something `verify` turns into a report. -/
def Settles {α : Type} (x : Except (String × Raised) α) : Prop := Runs.OnlyRaises (·.2.Reported) x

section

variable {α β : Type} {name : String}

end

variable {lib : Library} {content : Bytes} {files : CheckerInputs} {body : Json}
  {instances : List Published} {atoms : Atoms} {cut : PublishedCut} {masks : List Mask} {goals : List Json}

end Checker

end Spectra
