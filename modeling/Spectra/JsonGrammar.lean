import Mathlib.Data.Nat.Basic
import Mathlib.Data.List.Basic

/-! The grammar of a JSON text: which characters lay out which tree. A text is the sequence of
its UTF-16 units, so that an escaped surrogate has a meaning of its own; the members of an object stand
in the order of the text, and a key may come twice. -/
namespace JsonGrammar

/-- What a text lays out. -/
inductive Tree where
  | literal (chars : List Char)
  | string (units : List ℕ)
  | array (items : List Tree)
  | object (members : List (List ℕ × Tree))

def Blank (l : List Char) : Prop := ∀ c ∈ l, c ∈ [' ','\t','\n','\r']

theorem blank_nil : Blank [] := by simp [Blank]

/-! ### Numbers -/

def Digits (l : List Char) : Prop := l ≠ [] ∧ ∀ c ∈ l, c.isDigit = true

/-- No zero opens a whole number but zero itself. -/
def Whole (l : List Char) : Prop := Digits l ∧ (l.head? = some '0' → l = ['0'])

def Fraction (l : List Char) : Prop := l = [] ∨ ∃ digits, Digits digits ∧ l = '.'::digits

def Exponent (l : List Char) : Prop := l = [] ∨ ∃ e ∈ ['e','E'], ∃ sign ∈ [[],['+'],['-']], ∃ digits,
  Digits digits ∧ l = e::sign++digits

def Number (l : List Char) : Prop := ∃ sign ∈ [[],['-']], ∃ whole fraction exponent,
  Whole whole ∧ Fraction fraction ∧ Exponent exponent ∧ l = sign++whole++fraction++exponent

theorem number_whole {sign whole : List Char} (hs : sign ∈ [[],['-']]) (hw : Whole whole) :
    Number (sign++whole) := ⟨sign,hs,whole,[],[],hw,.inl rfl,.inl rfl,by simp⟩

/-! ### Strings -/

/-- The UTF-16 units of a character. -/
def utf16 (c : Char) : List ℕ :=
  if c.toNat < 0x10000 then [c.toNat]
  else [0xd800+(c.toNat-0x10000)/0x400,0xdc00+(c.toNat-0x10000)%0x400]

def units (s : String) : List ℕ := s.toList.flatMap utf16

def escapes : List (Char × ℕ) :=
  [('"',0x22),('\\',0x5c),('/',0x2f),('b',0x08),('f',0x0c),('n',0x0a),('r',0x0d),('t',0x09)]

/-- A hexadecimal digit and its value. -/
def Hex (c : Char) (n : ℕ) : Prop :=
  "0123456789abcdef".toList[n]? = some c ∨ "0123456789ABCDEF".toList[n]? = some c

/-- The characters between two quotes. -/
inductive Body : List Char → List ℕ → Prop where
  | nil : Body [] []
  | plain {c : Char} {l : List Char} {u : List ℕ} (h : c ≠ '"' ∧ c ≠ '\\' ∧ 0x20 ≤ c.toNat)
      (rest : Body l u) : Body (c::l) (utf16 c++u)
  | escape {c : Char} {n : ℕ} {l : List Char} {u : List ℕ} (h : (c,n) ∈ escapes) (rest : Body l u) :
      Body ('\\'::c::l) (n::u)
  | unit {a b c d : Char} {w x y z : ℕ} {l : List Char} {u : List ℕ}
      (h : Hex a w ∧ Hex b x ∧ Hex c y ∧ Hex d z) (rest : Body l u) :
      Body ('\\':: 'u' :: a::b::c::d::l) ((0x1000*w+0x100*x+0x10*y+z)::u)

theorem Body.append {l m : List Char} {u v : List ℕ} (hl : Body l u) (hm : Body m v) :
    Body (l++m) (u++v) := by
  induction hl with
  | nil => exact hm
  | plain h _ ih => exact List.append_assoc .. ▸ .plain h ih
  | escape h _ ih => exact .escape h ih
  | unit h _ ih => exact .unit h ih

/-! ### Values -/

mutual

inductive Spells : List Char → Tree → Prop where
  | literal {l : List Char} (h : l ∈ ["null".toList,"false".toList,"true".toList]) : Spells l (.literal l)
  | number {l : List Char} (h : Number l) : Spells l (.literal l)
  | string {l : List Char} {u : List ℕ} (h : Body l u) : Spells ('"'::l++['"']) (.string u)
  | emptyArray {b : List Char} (h : Blank b) : Spells ('['::b++[']']) (.array [])
  | array {l : List Char} {items : List Tree} (h : Items l items) : Spells ('['::l++[']']) (.array items)
  | emptyObject {b : List Char} (h : Blank b) : Spells ('{'::b++['}']) (.object [])
  | object {l : List Char} {members : List (List ℕ × Tree)} (h : Members l members) :
      Spells ('{'::l++['}']) (.object members)

/-- Values with a comma between each two. -/
inductive Items : List Char → List Tree → Prop where
  | one {before after l : List Char} {t : Tree} (hb : Blank before) (ha : Blank after) (h : Spells l t) :
      Items (before++l++after) [t]
  | cons {before after l rest : List Char} {t : Tree} {ts : List Tree} (hb : Blank before) (ha : Blank after)
      (h : Spells l t) (more : Items rest ts) : Items (before++l++after++ ',' :: rest) (t::ts)

/-- Quoted keys and their values, with a comma between each two. -/
inductive Members : List Char → List (List ℕ × Tree) → Prop where
  | one {before after l key : List Char} {u : List ℕ} {t : Tree} (hb : Blank before) (ha : Blank after)
      (hk : Body key u) (h : Items l [t]) : Members (before++ '"' :: key++ '"' :: after++ ':' :: l) [(u,t)]
  | cons {before after l key rest : List Char} {u : List ℕ} {t : Tree} {ts : List (List ℕ × Tree)}
      (hb : Blank before) (ha : Blank after) (hk : Body key u) (h : Items l [t]) (more : Members rest ts) :
      Members (before++ '"' :: key++ '"' :: after++ ':' :: l++ ',' :: rest) ((u,t)::ts)

end

/-- The text of a value may have blanks around it. -/
def Text (l : List Char) (t : Tree) : Prop := Items l [t]

theorem Spells.text {l : List Char} {t : Tree} (h : Spells l t) : Text l t := by
  have hone := Items.one blank_nil blank_nil h
  rwa [List.nil_append,List.append_nil] at hone

/-- A member without blanks. -/
def memberText (key l : List Char) : List Char := '"'::key++ '"' :: ':' :: l

theorem member_spelled {key l : List Char} {u : List ℕ} {t : Tree} (hk : Body key u) (h : Spells l t) :
    Members (memberText key l) [(u,t)] := by
  have hone := Members.one blank_nil blank_nil hk h.text
  simpa [memberText] using hone

theorem member_cons {key l rest : List Char} {u : List ℕ} {t : Tree} {ts : List (List ℕ × Tree)}
    (hk : Body key u) (h : Spells l t) (more : Members rest ts) :
    Members (memberText key l++ ',' :: rest) ((u,t)::ts) := by
  have hcons := Members.cons blank_nil blank_nil hk h.text more
  simpa [memberText] using hcons

theorem item_cons {l rest : List Char} {t : Tree} {ts : List Tree} (h : Spells l t) (more : Items rest ts) :
    Items (l++ ',' :: rest) (t::ts) := by
  have hcons := Items.cons blank_nil blank_nil h more
  rwa [List.nil_append,List.append_nil] at hcons

end JsonGrammar
