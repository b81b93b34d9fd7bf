import Spectra.RecordShapes

/-! What O0 to O9 need of the document: each obligation ends in a value, a rejection or a usage error
exactly when every value it comes to has the shape its next read takes. -/
namespace Spectra
namespace Checker

variable {lib : Library} {content : Bytes} {files : CheckerInputs} {document body : Json}

/-! ### Canonicity, schema, scope -/

mutual

theorem reports_walk (path : List String) (depth : ℕ) : (j : Json) → Reports (walk lib path depth j)
  | .null => reports_require
  | .bool _ => reports_ok
  | .scalar _ => reports_reject
  | .int _ => reports_require
  | .str _ => .bind reports_require fun _ _ => reports_require
  | .obj m => .bind reports_require fun _ _ => reports_walkMembers path (depth+1) m
  | .list l => .bind reports_require fun _ _ => reports_walkItems path (depth+1) 0 l

theorem reports_walkMembers (path : List String) (depth : ℕ) :
    (m : List (String × Json)) → Reports (walkMembers lib path depth m)
  | [] => reports_ok
  | (key,v)::rest => .bind (reports_walk (path++[key]) depth v) fun _ _ => reports_walkMembers path depth rest

theorem reports_walkItems (path : List String) (depth index : ℕ) :
    (l : List Json) → Reports (walkItems lib path depth index l)
  | [] => reports_ok
  | v::rest =>
    .bind (reports_walk (path++[toString index]) depth v) fun _ _ => reports_walkItems path depth (index+1) rest

end

end Checker

end Spectra
