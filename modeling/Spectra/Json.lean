import Spectra.Canon
import Spectra.Dict
import Spectra.Runs

/-! The values a JSON or TOML reader yields and what the checker's operations on them do:
each one either gives a value or raises, as the built-in operation of the same name does. -/
namespace Spectra

/-- What a check can end in besides a value: a `Rejected`, a `Usage`, or an exception the
checker does not catch everywhere. -/
inductive Raised where
  | rejected (code : String)
  | usage
  | jsonDecode | tomlDecode | unicodeDecode
  | typeError | keyError | attributeError | valueError | indexError
  | canon (e : SpectraError)
  deriving DecidableEq

abbrev Check (α : Type) := Except Raised α

def reject {α : Type} (code : String) : Check α := .error (.rejected code)

/-- `_require`. -/
def require (p : Prop) [Decidable p] (code : String) : Check Unit :=
  if p then .ok () else reject code

@[simp] theorem require_ok {p : Prop} [Decidable p] {code : String} {u : Unit} :
    require p code = .ok u ↔ p := by
  unfold require reject; split <;> simp_all

/-- A call into `canon`, whose errors the checker lets through. -/
def canonical {α : Type} (x : Fallible α) : Check α := x.mapError .canon

@[simp] theorem canonical_ok {α : Type} {x : Fallible α} {a : α} :
    canonical x = .ok a ↔ x = .ok a := by
  cases x <;> simp [canonical,Except.mapError]

/-- A loop that only checks. -/
def forEach {α : Type} (l : List α) (f : α → Check Unit) : Check Unit := l.foldlM (fun _ a => f a) ()

@[simp] theorem forEach_ok {α : Type} {l : List α} {f : α → Check Unit} {u : Unit} :
    forEach l f = .ok u ↔ ∀ a ∈ l, f a = .ok () := by
  induction l with
  | nil => simp [forEach]
  | cons a l ih =>
    rw [forEach,Runs.foldlM_cons_ok,List.forall_mem_cons]
    exact ⟨fun ⟨_,ha,hl⟩ => ⟨ha,ih.mp hl⟩,fun ⟨ha,hl⟩ => ⟨(),ha,ih.mpr hl⟩⟩

theorem mapM_ok {ε α β : Type} {l : List α} {f : α → Except ε β} {r : List β} :
    l.mapM f = .ok r ↔ List.Forall₂ (fun a b => f a = .ok b) l r := by
  induction l generalizing r with
  | nil => cases r <;> simp
  | cons a l ih =>
    rw [List.mapM_cons,Runs.bind_ok]
    constructor
    · rintro ⟨b,hb,h⟩
      obtain ⟨bs,hbs,h⟩ := Runs.bind_ok.mp h
      rw [← Runs.pure_ok.mp h]
      exact .cons hb (ih.mp hbs)
    · rintro (_ | ⟨hb,hbs⟩)
      exact ⟨_,hb,Runs.bind_ok.mpr ⟨_,ih.mpr hbs,rfl⟩⟩

theorem mapM_mem {ε α β : Type} {f : α → Except ε β} {l : List α} {r : List β} (h : l.mapM f = .ok r)
    {b : β} (hb : b ∈ r) : ∃ a ∈ l, f a = .ok b := by
  have h := mapM_ok.mp h
  clear * - h hb
  induction h with
  | nil => cases hb
  | cons hab _ ih =>
    rcases List.mem_cons.mp hb with rfl | hb
    · exact ⟨_,by simp,hab⟩
    · obtain ⟨a,ha,he⟩ := ih hb
      exact ⟨a,by simp [ha],he⟩

theorem forall₂_mem {α β : Type} {R : α → β → Prop} {l : List α} {r : List β}
    (h : List.Forall₂ R l r) : (∀ a ∈ l, ∃ b ∈ r, R a b) ∧ ∀ b ∈ r, ∃ a ∈ l, R a b := by
  induction h with
  | nil => simp
  | cons hab _ ih =>
    refine ⟨List.forall_mem_cons.mpr ⟨⟨_,by simp,hab⟩,fun a ha => ?_⟩,
      List.forall_mem_cons.mpr ⟨⟨_,by simp,hab⟩,fun b hb => ?_⟩⟩
    · obtain ⟨b,hb,hr⟩ := ih.1 a ha
      exact ⟨b,by simp [hb],hr⟩
    · obtain ⟨a,ha,hr⟩ := ih.2 b hb
      exact ⟨a,by simp [ha],hr⟩

theorem mapM_exists {ε α β : Type} {f : α → Except ε β} {l : List α} (h : ∀ a ∈ l, ∃ b, f a = .ok b) :
    ∃ r, l.mapM f = .ok r := by
  induction l with
  | nil => exact ⟨[],rfl⟩
  | cons a l ih =>
    obtain ⟨b,hb⟩ := h a (by simp)
    obtain ⟨r,hr⟩ := ih fun x hx => h x (by simp [hx])
    exact ⟨b::r,by rw [List.mapM_cons,hb,hr]; rfl⟩

theorem mapM_getElem? {ε α β : Type} {f : α → Except ε β} {l : List α} {r : List β}
    (h : l.mapM f = .ok r) {i : ℕ} {b : β} (hb : r[i]? = some b) :
    ∃ a, l[i]? = some a ∧ f a = .ok b := by
  have h := mapM_ok.mp h
  clear * - h hb
  induction h generalizing i with
  | nil => cases hb
  | cons hab _ ih =>
    cases i with
    | zero => cases hb; exact ⟨_,rfl,hab⟩
    | succ i => exact ih hb

/-- A parsed value. A float or a date of a TOML file is its text. -/
inductive Json where
  | null
  | bool (value : Bool)
  | int (value : ℤ)
  | scalar (text : String)
  | str (value : String)
  | list (items : List Json)
  | obj (members : List (String × Json))

namespace Json

/-! ### Reading -/

/-- A bool is an int. -/
def number? : Json → Option ℤ
  | .bool b => some (if b then 1 else 0)
  | .int n => some n
  | _ => none

/-- `isinstance(value, int) and not isinstance(value, bool)`. -/
def int? : Json → Option ℤ
  | .int n => some n
  | _ => none

def str? : Json → Option String
  | .str s => some s
  | _ => none

def list? : Json → Option (List Json)
  | .list l => some l
  | _ => none

def hashable : Json → Bool
  | .list _ => false
  | .obj _ => false
  | _ => true

/-- Raised when a value is looked up in a set or a dictionary. -/
def hash (j : Json) : Check Unit := if j.hashable then .ok () else .error .typeError

def truthy : Json → Bool
  | .null => false
  | .bool b => b
  | .int n => n ≠ 0
  | .scalar _ => true
  | .str s => s ≠ ""
  | .list l => !l.isEmpty
  | .obj m => !m.isEmpty

/-- `value[key]`. -/
def item (j : Json) (key : String) : Check Json :=
  match j with
  | .obj m => match Dict.get? m key with
    | some v => .ok v
    | none => .error .keyError
  | _ => .error .typeError

/-- `value.get(key)`. -/
def get (j : Json) (key : String) : Check (Option Json) :=
  match j with
  | .obj m => .ok (Dict.get? m key)
  | _ => .error .attributeError

/-- The elements a `for` over the value visits. -/
def iter : Json → Check (List Json)
  | .list l => .ok l
  | .str s => .ok (s.toList.map fun c => .str (String.singleton c))
  | .obj m => .ok (m.map fun p => .str p.1)
  | _ => .error .typeError

def len : Json → Check ℕ
  | .list l => .ok l.length
  | .str s => .ok s.length
  | .obj m => .ok m.length
  | _ => .error .typeError

/-! ### Comparing -/

mutual

/-- `==`; the members of an object are compared without their order. -/
def eq : Json → Json → Bool
  | .null, .null => true
  | .scalar s, .scalar t => s = t
  | .str s, .str t => s = t
  | .list l, .list m => eqItems l m
  | .obj l, .obj m => l.length = m.length && eqMembers l m
  | a, b => match a.number?, b.number? with
    | some m, some n => m = n
    | _, _ => false

def eqItems : List Json → List Json → Bool
  | [], [] => true
  | a::as, b::bs => a.eq b && eqItems as bs
  | _, _ => false

def eqMembers : List (String × Json) → List (String × Json) → Bool
  | [], _ => true
  | (k,v)::l, m => (match Dict.get? m k with
    | some w => v.eq w
    | none => false) && eqMembers l m

end

mutual

/-- `<`. -/
def lt : Json → Json → Check Bool
  | .str s, .str t => .ok (s < t)
  | .list l, .list m => ltItems l m
  | a, b => match a.number?, b.number? with
    | some m, some n => .ok (m < n)
    | _, _ => .error .typeError

/-- Decided at the first place where the lists differ. -/
def ltItems : List Json → List Json → Check Bool
  | _, [] => .ok false
  | [], _::_ => .ok true
  | a::as, b::bs => if a.eq b then ltItems as bs else a.lt b

end

section

attribute [local simp] eq number?

theorem eq_str {j : Json} {s : String} : j.eq (.str s) = true ↔ j = .str s := by
  cases j <;> simp

end

/-- One string of a text occurs inside another. -/
def infixOf (s t : String) : Bool := t.toList.tails.any fun l => s.toList.isPrefixOf l

/-- `name in value`. -/
def contains (j : Json) (name : String) : Check Bool :=
  match j with
  | .obj m => .ok (Dict.get? m name).isSome
  | .list l => .ok (l.any fun v => v.eq (.str name))
  | .str s => .ok (infixOf name s)
  | _ => .error .typeError

/-- `_member`. -/
def member (j : Json) (name : String) : Check Json := do
  require (← j.contains name) "E-SCHEMA-MISSING"
  j.item name

theorem item_ok {j v : Json} {key : String} :
    j.item key = .ok v ↔ ∃ m, j = .obj m ∧ Dict.get? m key = some v := by
  cases j with
  | obj m => simp only [item,Json.obj.injEq,exists_eq_left']; split <;> simp_all
  | _ => simp [item]

theorem member_ok {j v : Json} {name : String} : j.member name = .ok v ↔ j.item name = .ok v := by
  constructor
  · intro h
    obtain ⟨_,-,h⟩ := Runs.bind_ok.mp h
    obtain ⟨_,-,h⟩ := Runs.bind_ok.mp h
    exact h
  · intro h
    obtain ⟨m,rfl,hm⟩ := item_ok.mp h
    refine Runs.bind_ok.mpr ⟨true,by simp [contains,hm],Runs.bind_ok.mpr ⟨(),by simp,h⟩⟩

/-- `_ascending`, from the second element on. -/
def ascendingAfter : Json → List Json → Check Unit
  | _, [] => .ok ()
  | previous, v::rest => do
    require (← previous.lt v) "E-CANON-ORDER"
    ascendingAfter v rest

def ascending : List Json → Check Unit
  | [] => .ok ()
  | v::rest => ascendingAfter v rest

/-- `sorted` on values whose comparisons may raise. -/
def insertSorted (v : Json) : List Json → Check (List Json)
  | [] => .ok [v]
  | w::rest => do
    if ← w.lt v then pure (w::(← insertSorted v rest)) else pure (v::w::rest)

def sorted : List Json → Check (List Json)
  | [] => .ok []
  | v::rest => do insertSorted v (← sorted rest)

/-! ### Writing -/

def hexDigit (n : ℕ) : UInt8 := UInt8.ofNat (if n < 10 then 48+n else 87+n)

/-- `width` hexadecimal digits of `n`, most significant first. -/
def hexText : ℕ → ℕ → Bytes
  | 0, _ => []
  | width+1, n => hexText width (n/16)++[hexDigit (n%16)]

/-- An octet inside a JSON string. Only ASCII characters are escaped, so the escape can be
chosen octet by octet. -/
def escape (b : UInt8) : Bytes :=
  if b.toNat < 0x20 then
    if b = 0x08 then octets "\\b"
    else if b = 0x09 then octets "\\t"
    else if b = 0x0a then octets "\\n"
    else if b = 0x0c then octets "\\f"
    else if b = 0x0d then octets "\\r"
    else octets "\\u"++hexText 4 b.toNat
  else if b.toNat = 0x22 then octets "\\\""
  else if b.toNat = 0x5c then octets "\\\\"
  else [b]

def quoted (s : String) : Bytes := 0x22::(octets s).flatMap escape++[0x22]

def decimal (n : ℤ) : Bytes :=
  let digits := (Nat.toDigits 10 n.natAbs).map fun c => UInt8.ofNat c.toNat
  if n < 0 then 0x2d::digits else digits

/-- The parts with a comma between each two. -/
def commas : List Bytes → Bytes
  | [] => []
  | [p] => p
  | p::rest => p++0x2c::commas rest

mutual

/-- The octets of `_dumps`: compact separators, no ASCII escapes, the members of an object
in the order of their keys when `sortKeys` is set. -/
def dumps (sortKeys : Bool) : Json → Bytes
  | .null => octets "null"
  | .bool b => octets (if b then "true" else "false")
  | .int n => decimal n
  | .scalar s => octets s
  | .str s => quoted s
  | .list l => 0x5b::commas (dumpsItems sortKeys l)++[0x5d]
  | .obj m =>
    let members := dumpsMembers sortKeys m
    let members := if sortKeys then members.insertionSort (·.1 ≤ ·.1) else members
    0x7b::commas (members.map fun p => quoted p.1++0x3a::p.2)++[0x7d]

def dumpsItems (sortKeys : Bool) : List Json → List Bytes
  | [] => []
  | a::as => a.dumps sortKeys::dumpsItems sortKeys as

def dumpsMembers (sortKeys : Bool) : List (String × Json) → List (String × Bytes)
  | [] => []
  | (k,v)::m => (k,v.dumps sortKeys)::dumpsMembers sortKeys m

end

end Json

end Spectra
