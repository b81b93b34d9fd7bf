import Spectra.FieldShapes

/-! What the records of a certificate and of its side files need, field by field in the order the
fields are read: instances, licences, intervals and the events behind a witness. -/
namespace Spectra
namespace Checker

/-- A field as it is read: its name, the shape its value needs, and when the reading goes on. -/
structure Field where
  name : String
  shape : Json → Prop
  passes : Json → Prop

/-- A field that a reader converts. -/
def Field.read {α : Type} (name : String) (reader : Json → Check α) (shape : Json → Prop) : Field :=
  ⟨name,shape,fun v => ∃ a, reader v = .ok a⟩

/-- A field that only has to be there. -/
def Field.kept (name : String) : Field := ⟨name,fun _ => True,fun _ => True⟩

/-- The fields of a record, each there and of its shape up to the first that is rejected. -/
def InOrder (fields : List Field) (j : Json) : Prop :=
  Runs.UpTo (fun f => ∃ v, j.item f.name = .ok v ∧ f.passes v)
    (fun f => j.indexable f.name = true ∧ ∀ v, j.item f.name = .ok v → f.shape v) fields

section

variable {α β : Type} {j : Json} {name : String} {rest : List Field}

end

variable (lib : Library)

variable {lib} {j : Json}

end Checker

end Spectra
