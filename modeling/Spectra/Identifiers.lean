import Spectra.Render

/-! Identifiers in an accepted certificate: which ones recompute from the fields they stand
for, and which ones are taken as they are written. -/
namespace Spectra
namespace Checker

/-- `_licence_preimage` of a licence that has been read. -/
def Library.licencePayload (lib : Library) (l : PublishedLicence) : Fallible Bytes := Framing.concat [
  asciiText l.basis,Spectra.utf8Text (lib.normalize l.reason),asciiText l.sourceId,i64 l.t0Ns,i64 l.t1Ns]

namespace State

end State

section

variable {lib : Library} {content : Bytes} {files : CheckerInputs} {st : State}

/-- Two steps under one made-up id, citing a record that is not in the bundle. -/
def forged : Subject := {
  goals := [("fh:g",true)]
  instances := [⟨[],["fh:a"],[⟨"login","ev:1","src:s",0⟩],false,"fh:g","in:1",[],"OBSERVED","rl:r",
    "1",0⟩,⟨[],["fh:b"],[⟨"login","ev:1","src:s",0⟩],false,"fh:h","in:1",[],"OBSERVED","rl:r","1",0⟩]
  observedEventCount := 1}

end

end Checker

end Spectra
