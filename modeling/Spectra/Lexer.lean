import Spectra.Rules
import Spectra.Runs

/-! `spectra_vs.rules`, the lexer of the guards and the moves their two parsers share. -/
namespace Spectra

inductive TokenKind where
  | dur | int | sym | ident | op
  deriving DecidableEq, Repr

structure Token where
  kind : TokenKind
  text : String
  deriving DecidableEq, Repr

def syntaxError (loc detail : String) : SpectraError := ⟨.guardError,"E-SYN-000",loc++": "++detail⟩

/-- The whitespace `strip` removes. -/
def isSpace (c : Char) : Bool :=
  let n := c.toNat
  (9 ≤ n && n ≤ 13) || (28 ≤ n && n ≤ 32) || n = 0x85 || n = 0xA0 || n = 0x1680 ||
    (0x2000 ≤ n && n ≤ 0x200A) || n = 0x2028 || n = 0x2029 || n = 0x202F || n = 0x205F || n = 0x3000

namespace Lexer

def isBlank (c : Char) : Bool := c = ' ' || c = '\t' || c = '\n'

def isDigit (c : Char) : Bool := '0' ≤ c && c ≤ '9'

def units : List String := ["ns","us","ms","tick","s","m","h"]

/-- The unit of a duration, at the end of a word. A word character outside `[a-z0-9_]` cannot
be lexed, whatever it follows. -/
def durUnit (cs : List Char) : Option (List Char) :=
  (units.map (·.toList)).find? fun unit =>
    unit.isPrefixOf cs && !(cs.drop unit.length).head?.any isSnakeTail

def operators : List String := [">=","<=","==","!=","<",">","(",")",",",".","+","-","*"]

/-- The characters `_TOKEN` matches at the front, and their kind; blanks have none. -/
def lexeme : List Char → Option (Option TokenKind × List Char)
  | [] => none
  | c::cs =>
    if isBlank c then some (none,(c::cs).takeWhile isBlank)
    else if isDigit c then
      let digits := (c::cs).takeWhile fun d => isDigit d || d = '_'
      match durUnit ((c::cs).drop digits.length) with
      | some unit => some (some .dur,digits++unit)
      | none => some (some .int,digits)
    else if c = '#' then
      if cs.head?.any isLower then some (some .sym,c::cs.takeWhile isSnakeTail) else none
    else if isLower c then some (some .ident,(c::cs).takeWhile isSnakeTail)
    else ((operators.map (·.toList)).find? fun op => op.isPrefixOf (c::cs)).map fun op => (some .op,op)

/-- Each turn takes a character or more, so their number bounds the turns; `isdigit` is that
of the interpreter, which knows digits outside ASCII. -/
def lexFrom (isdigit : Char → Bool) (loc : String) : ℕ → ℕ → List Char → Fallible (List Token)
  | _, _, [] => .ok []
  | 0, _, _ => .ok []
  | turns+1, index, c::cs =>
    if c = '.' ∧ cs.head?.any isdigit then
      .error ⟨.guardError,"E-LEX-004",loc++": a '.' followed by a digit at "++toString index⟩
    else match lexeme (c::cs) with
      | none => .error (syntaxError loc ("unlexable character '"++c.toString++"' at "++toString index))
      | some (kind,text) => do
        let tokens ← lexFrom isdigit loc turns (index+text.length) ((c::cs).drop text.length)
        match kind with
        | some kind => pure (⟨kind,String.ofList text⟩::tokens)
        | none => pure tokens

def lex (isdigit : Char → Bool) (loc text : String) : Fallible (List Token) :=
  if '\r' ∈ text.toList then .error ⟨.guardError,"E-LEX-001",loc++": a CR byte in rule text"⟩
  else lexFrom isdigit loc text.toList.length 0 text.toList

theorem lexeme_ne_nil {cs : List Char} {kind : Option TokenKind} {text : List Char}
    (h : lexeme cs = some (kind,text)) : text ≠ [] := by
  cases cs with
  | nil => cases h
  | cons c cs =>
    simp only [lexeme] at h
    split_ifs at h with hb hd hs hl hi
    · cases h; simp [hb]
    · split at h <;> cases h <;> simp [hd]
    · cases h; simp
    · cases h
      have htail : isSnakeTail c = true := by simp [isSnakeTail,hi]
      simp [htail]
    · obtain ⟨op,hop,he⟩ := Option.map_eq_some_iff.mp h
      cases he
      have hmem := List.mem_of_find?_eq_some hop
      simp only [operators,List.map_cons,List.map_nil,List.mem_cons,List.not_mem_nil,or_false] at hmem
      rcases hmem with h | h | h | h | h | h | h | h | h | h | h | h | h <;> simp [h]

/-- As many turns as characters are enough. -/
theorem lexFrom_turns {isdigit : Char → Bool} {loc : String} {turns : ℕ} :
    ∀ {turns' index : ℕ} {cs : List Char}, cs.length ≤ turns → cs.length ≤ turns' →
      lexFrom isdigit loc turns index cs = lexFrom isdigit loc turns' index cs := by
  induction turns with
  | zero =>
    intro turns' index cs h _
    obtain rfl := List.length_eq_zero_iff.mp (Nat.le_zero.mp h)
    cases turns' <;> rfl
  | succ turns ih =>
    intro turns' index cs h h'
    cases cs with
    | nil => cases turns' <;> rfl
    | cons c cs =>
      obtain ⟨turns',rfl⟩ : ∃ t, turns' = t+1 := ⟨turns'-1,by simp at h'; omega⟩
      simp only [lexFrom]
      split
      · rfl
      · cases hl : lexeme (c::cs) with
        | none => rfl
        | some p =>
          obtain ⟨kind,text⟩ := p
          have hpos := List.length_pos_iff.mpr (lexeme_ne_nil hl)
          have hlen : ((c::cs).drop text.length).length ≤ cs.length := by simp; omega
          simp only [List.length_cons] at h h'
          dsimp only
          rw [@ih turns' (index+text.length) _ (by omega) (by omega)]

end Lexer

/-! ### Parsing -/

/-- What is read from the front of the tokens, and what is left. -/
abbrev TokenParser (α : Type) := List Token → Fallible (α × List Token)

namespace TokenParser

variable {α : Type} (loc : String)

def take : TokenParser Token
  | [] => .error (syntaxError loc "guard ends early")
  | t::rest => .ok (t,rest)

def expect (text : String) : TokenParser Token := fun tokens => do
  let (t,rest) ← take loc tokens
  if t.text = text then pure (t,rest)
  else .error (syntaxError loc ("expected '"++text++"', got '"++t.text++"'"))

/-- `item (sep item)*`. Each turn takes a token, so their number bounds the turns. -/
def separated (item : TokenParser α) (sep : String) : ℕ → TokenParser (List α)
  | 0, tokens => do
    let (term,rest) ← item tokens
    pure ([term],rest)
  | turns+1, tokens => do
    let (term,rest) ← item tokens
    match rest with
    | t::rest =>
      if t.text = sep then do
        let (terms,rest) ← separated item sep turns rest
        pure (term::terms,rest)
      else pure ([term],t::rest)
    | [] => pure ([term],[])

def list (item : TokenParser α) (sep : String) : TokenParser (List α) := fun tokens =>
  separated item sep tokens.length tokens

/-- What a parser reads satisfies `p`. -/
def Yields (p : α → Prop) (parser : TokenParser α) : Prop :=
  ∀ tokens a rest, parser tokens = .ok (a,rest) → p a

theorem Yields.separated {p : α → Prop} {item : TokenParser α} (h : Yields p item) (sep : String)
    (turns : ℕ) : Yields (fun terms => terms ≠ [] ∧ ∀ a ∈ terms, p a) (separated item sep turns) := by
  induction turns with
  | zero =>
    intro tokens terms rest ht
    obtain ⟨⟨a,rest'⟩,ha,ht⟩ := Runs.bind_ok.mp ht
    cases Runs.pure_ok.mp ht
    exact ⟨by simp,by simpa using h _ _ _ ha⟩
  | succ turns ih =>
    intro tokens terms rest ht
    obtain ⟨⟨a,rest'⟩,ha,ht⟩ := Runs.bind_ok.mp ht
    have hp := h _ _ _ ha
    cases rest' with
    | nil =>
      cases Runs.pure_ok.mp ht
      exact ⟨by simp,by simpa using hp⟩
    | cons t rest' =>
      dsimp only at ht
      split at ht
      · obtain ⟨⟨as,rest''⟩,has,ht⟩ := Runs.bind_ok.mp ht
        cases Runs.pure_ok.mp ht
        exact ⟨by simp,List.forall_mem_cons.mpr ⟨hp,(ih _ _ _ has).2⟩⟩
      · cases Runs.pure_ok.mp ht
        exact ⟨by simp,by simpa using hp⟩

theorem Yields.list {p : α → Prop} {item : TokenParser α} (h : Yields p item) (sep : String) :
    Yields (fun terms => terms ≠ [] ∧ ∀ a ∈ terms, p a) (list item sep) :=
  fun tokens a rest ha => h.separated sep tokens.length tokens a rest ha

end TokenParser

end Spectra
