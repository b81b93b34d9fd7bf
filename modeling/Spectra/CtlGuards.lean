import Spectra.BitLock
import Spectra.Lexer
import Spectra.Pruning

/-! `spectra_vs.rules`, the control sort of the guards: the parser of `blocked_when`, its
disjunctive normal form, the canonical terms and the masks they are mapped onto. -/
namespace Spectra

open TokenParser

/-! ### The parser -/

/-- A parsed control guard; a threshold is a control and the level it asks for. -/
inductive CtlNode where
  | threshold (control level : String)
  | and (children : List CtlNode)
  | or (children : List CtlNode)

namespace CtlParser

variable (loc : String)

def sortError (detail : String) : SpectraError := ⟨.guardError,"E-SYN-009",loc++": "++detail⟩

/-- `ctl.<id> >= <level>`, behind its `ctl`. -/
def parseThreshold : TokenParser CtlNode := fun tokens => do
  let (dot,rest) ← take loc tokens
  if dot.text ≠ "." then .error (syntaxError loc "expected `.` after `ctl`")
  else do
    let (name,rest) ← take loc rest
    if name.kind ≠ .ident then .error (syntaxError loc "expected a control id")
    else do
      let (operator,rest) ← take loc rest
      if operator.text ≠ ">=" then .error (sortError loc
        ("the control sort admits only `>=`, got '"++operator.text++"'"))
      else do
        let (level,rest) ← take loc rest
        if level.kind = .int ∨ level.kind = .dur then .error ⟨.guardError,"E-SYN-012",
          loc++": level '"++level.text++"' written as an integer; levels are named"⟩
        else if level.kind ≠ .ident then .error (syntaxError loc "expected a level name")
        else pure (.threshold name.text level.text,rest)

/-- `self` reads the guard inside a parenthesis. -/
def parsePrim (self : TokenParser CtlNode) : TokenParser CtlNode := fun tokens => do
  let (token,rest) ← take loc tokens
  if token.text = "(" then do
    let (node,rest) ← self rest
    let (closing,rest) ← take loc rest
    if closing.text ≠ ")" then .error (syntaxError loc "unbalanced parenthesis")
    else pure (node,rest)
  else if token.text = "not" then
    .error (sortError loc "`not` is not admissible in the control sort")
  else if token.kind = .int ∨ token.kind = .dur ∨ token.kind = .sym then
    .error (sortError loc ("literal '"++token.text++"' in the control sort"))
  else if token.text ≠ "ctl" then .error (sortError loc ("'"++token.text++
    "' is not a control reference; the control sort admits only `ctl.<id> >= <level>`"))
  else parseThreshold loc rest

def parseAnd (self : TokenParser CtlNode) : TokenParser CtlNode := fun tokens => do
  let (terms,rest) ← TokenParser.list (parsePrim loc self) "and" tokens
  match terms with
  | [node] => pure (node,rest)
  | nodes => pure (.and nodes,rest)

/-- Each parenthesis takes a token, so their number bounds the depth. -/
def parseOr : ℕ → TokenParser CtlNode
  | 0 => fun _ => .error (syntaxError loc "guard ends early")
  | depth+1 => fun tokens => do
    let (terms,rest) ← TokenParser.list (parseAnd loc (parseOr depth)) "or" tokens
    match terms with
    | [node] => pure (node,rest)
    | nodes => pure (.or nodes,rest)

def parse (tokens : List Token) : Fallible CtlNode := do
  let (node,rest) ← parseOr loc tokens.length tokens
  match rest with
  | [] => pure node
  | t::_ => .error (syntaxError loc ("trailing token '"++t.text++"'"))

end CtlParser

/-! ### Disjunctive normal form -/

def maxDnfTerms : ℕ := 8

/-- A set of thresholds, as a list without repeats. -/
abbrev CtlTerm := List (String × String)

/-- The pairwise unions of two lists of terms. -/
def crossTerms (product terms : List CtlTerm) : List CtlTerm :=
  product.flatMap fun left => terms.map fun right => left ∪ right

mutual

def ctlTerms : CtlNode → Fallible (List CtlTerm)
  | .threshold control level => .ok [[(control,level)]]
  | .or children => anyTerms children
  | .and children => allTerms [[]] children

def anyTerms : List CtlNode → Fallible (List CtlTerm)
  | [] => .ok []
  | c::cs => do
    let terms ← ctlTerms c
    let rest ← anyTerms cs
    pure (terms++rest)

def allTerms (product : List CtlTerm) : List CtlNode → Fallible (List CtlTerm)
  | [] => .ok product
  | c::cs => do
    let terms ← ctlTerms c
    let product := crossTerms product terms
    if maxDnfTerms*maxDnfTerms < product.length then
      .error ⟨.guardError,"E-SEM-041","control-sort DNF exceeded eight terms"⟩
    else allTerms product cs

end

/-! ### Canonical terms -/

/-- `ControlId.of`. -/
def controlIdOf (name : String) : Fallible ControlId :=
  if isSnake name then .ok (controlOf name)
  else .error (ErrorType.identifierError.mk ("ControlId.of: "++name))

namespace Catalog

def get (catalog : Catalog) (control : ControlId) : Fallible ControlSpec :=
  match catalog.controls.find? (·.controlId = control) with
  | some spec => .ok spec
  | none => .error ⟨.guardError,"E-SYN-000","no control '"++control++"' in the catalog"⟩

end Catalog

/-- The ordinal of a level name. -/
def ControlSpec.levelOrdinal (spec : ControlSpec) (name : String) : Fallible ℕ :=
  if name ∈ spec.levels then .ok (spec.levels.idxOf name)
  else .error ⟨.guardError,"E-SYN-000",spec.controlId++": no level named '"++name++
    "'; the catalog declares ['"++"', '".intercalate spec.levels++"']"⟩

/-- The control and the ordinal a threshold names. -/
def resolveThreshold (loc : String) (catalog : Catalog) (threshold : String × String) :
    Fallible (ControlId × ℕ) := do
  let control ← controlIdOf threshold.1
  let spec ← catalog.get control
  let ordinal ← spec.levelOrdinal threshold.2
  if ordinal < 1 then .error (syntaxError loc ("level '"++threshold.2++"' of "++control++
    " is the weakest setting; `at least the weakest setting` asserts nothing and has no literal"))
  else pure (control,ordinal)

/-- The levels a term asks for, by control. -/
abbrev Demands := List (ControlId × ℕ)

/-- The highest level of each control. -/
def strongestOf (loc : String) (catalog : Catalog) : Demands → CtlTerm → Fallible Demands
  | strongest, [] => .ok strongest
  | strongest, threshold::rest => do
    let (control,ordinal) ← resolveThreshold loc catalog threshold
    let held := (Dict.get? strongest control).getD 0
    strongestOf loc catalog (Dict.set strongest control (max held ordinal)) rest

/-- Whatever meets the demands of `stronger` meets those of `weaker`. -/
def implies (weaker stronger : Demands) : Bool :=
  weaker.all fun (control,level) => (Dict.get? stronger control).any (level ≤ ·)

/-- A term in the canonical order of its literals. -/
def canonicalTerm (term : Demands) : Demands := term.insertionSort fun a b => toLex a ≤ toLex b

def canonicalTerms (loc : String) (catalog : Catalog) (node : CtlNode) : Fallible (List Demands) := do
  let terms ← ctlTerms node
  let strongest ← terms.mapM fun term =>
    strongestOf loc catalog [] (term.insertionSort fun a b => toLex a ≤ toLex b)
  let resolved := strongest.filter (· ≠ [])
  let kept := Pruning.prune implies resolved
  let unique := (kept.map canonicalTerm).dedup.insertionSort fun s t => s.map toLex ≤ t.map toLex
  if maxDnfTerms < unique.length then .error ⟨.guardError,"E-SEM-041",loc++": control-sort DNF has "++
    toString unique.length++" terms, more than "++toString maxDnfTerms⟩
  else pure unique

/-- No text is no blockers. -/
def compileBlockedWhen (isdigit : Char → Bool) (loc text : String) (catalog : Catalog) :
    Fallible (List Demands) :=
  if text.toList.all isSpace then .ok []
  else do
    let tokens ← Lexer.lex isdigit loc text
    let node ← CtlParser.parse loc tokens
    let terms ← canonicalTerms loc catalog node
    let again ← canonicalTerms loc catalog node
    if terms ≠ again then .error (syntaxError loc "canon(canon(x)) != canon(x)") else pure terms

/-! ### Masks -/

/-- The bit of a live literal. -/
def BitTable.bitOf (bits : BitTable) (control : ControlId) (level : ℕ) : Fallible ℕ :=
  match bits.entries.find? fun e => e.controlId = control ∧ e.level = level ∧ e.state = .live with
  | some e => .ok e.pos
  | none => .error ⟨.guardError,"E-LITERAL-TABLE","no live bit for "++control++"@"++toString level++
      " in the lock; a mask built without one would not be comparable against this catalog"⟩

def termMask (loc : String) (bits : BitTable) (term : Demands) : Fallible Mask := do
  ensure (term.length = 1) ⟨.guardError,"E-VS-BLOCK-CONJ",loc++": conjunctive blocker term ["++
    ", ".intercalate (term.map literalText)++
    "]; C-SLICE-1 narrows every DNF term to a single threshold literal"⟩
  let positions ← term.mapM fun (control,level) => bits.bitOf control level
  pure (unionMask (positions.map fun pos => BitVec.twoPow 64 pos))

def termsToMasks (loc : String) (bits : BitTable) (terms : List Demands) : Fallible (List Mask) := do
  let masks ← terms.mapM (termMask loc bits)
  pure (masks.dedup.insertionSort fun m n => toLex (bitCount m,m.toNat) ≤ toLex (bitCount n,n.toNat))

end Spectra
