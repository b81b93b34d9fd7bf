import Spectra.Bundle
import Spectra.Raising

/-! What each operation of the checker asks of the value it is applied to: the shape with which it
ends in a value, a rejection or a usage error, and without which it raises something else. -/
namespace Spectra

/-- What `verify` turns into a report. -/
def Raised.Reported : Raised → Prop
  | .rejected _ => True
  | .usage => True
  | _ => False

/-- A check that ends in a value or in something `verify` turns into a report. -/
def Reports {α : Type} (x : Check α) : Prop := Runs.OnlyRaises Raised.Reported x

section

variable {α β σ : Type} {x : Check α} {f : α → Check β}

@[simp] theorem reports_ok {a : α} : Reports (.ok a) := Runs.OnlyRaises.ok a

@[simp] theorem reports_error {e : Raised} : Reports (.error e : Check α) ↔ e.Reported :=
  Runs.OnlyRaises.error_iff

@[simp] theorem reports_reject {code : String} : Reports (reject code : Check α) :=
  reports_error.mpr trivial

@[simp] theorem reports_require {p : Prop} [Decidable p] {code : String} : Reports (require p code) := by
  unfold require
  split
  · exact reports_ok
  · exact reports_reject

theorem Reports.bind (hx : Reports x) (hf : ∀ a, x = .ok a → Reports (f a)) : Reports (x >>= f) :=
  Runs.OnlyRaises.bind hx hf

/-- A check that rejects nothing. -/
def Unrejecting (x : Check α) : Prop := Runs.OnlyRaises (fun e => ¬e.Reported) x

theorem Unrejecting.bind (hx : Unrejecting x) (hf : ∀ a, Unrejecting (f a)) : Unrejecting (x >>= f) :=
  Runs.OnlyRaises.bind hx fun a _ => hf a

theorem Unrejecting.foldlM {f : σ → α → Check σ} {s : σ} {l : List α} (h : ∀ s a, Unrejecting (f s a)) :
    Unrejecting (l.foldlM f s) :=
  Runs.OnlyRaises.foldlM (I := fun _ => True) (fun s a _ _ => ⟨h s a,fun _ _ => trivial⟩) trivial

end

namespace Json

/-! ### Looking things up -/

def isObject : Json → Bool
  | .obj _ => true
  | _ => false

/-- What a `for`, a `len` or an `in` takes. -/
def iterable : Json → Bool
  | .list _ => true
  | .str _ => true
  | .obj _ => true
  | _ => false

/-- What `value[key]` takes. -/
def indexable (key : String) : Json → Bool
  | .obj m => (Dict.get? m key).isSome
  | _ => false

variable {α : Type} {j : Json} {name : String} {f : Json → Check α}

mutual

/-- What `<` takes: two texts, two numbers, or two lists whose first difference is such a pair. -/
def comparable : Json → Json → Bool
  | .str _, .str _ => true
  | .list l, .list m => comparableItems l m
  | a, b => a.number?.isSome && b.number?.isSome

def comparableItems : List Json → List Json → Bool
  | _, [] => true
  | [], _::_ => true
  | a::as, b::bs => if a.eq b then comparableItems as bs else a.comparable b

end

mutual

theorem reports_lt : (a b : Json) → (Reports (a.lt b) ↔ a.comparable b = true)
  | .str _, .str _ => by simp [lt,comparable]
  | .list l, .list m => by rw [lt,comparable]; exact reports_ltItems l m
  | .null, b => by cases b <;> simp [lt,comparable,number?,Raised.Reported]
  | .bool _, b => by cases b <;> simp [lt,comparable,number?,Raised.Reported]
  | .int _, b => by cases b <;> simp [lt,comparable,number?,Raised.Reported]
  | .scalar _, b => by cases b <;> simp [lt,comparable,number?,Raised.Reported]
  | .obj _, b => by cases b <;> simp [lt,comparable,number?,Raised.Reported]
  | .str _, .null => by simp [lt,comparable,number?,Raised.Reported]
  | .str _, .bool _ => by simp [lt,comparable,number?,Raised.Reported]
  | .str _, .int _ => by simp [lt,comparable,number?,Raised.Reported]
  | .str _, .scalar _ => by simp [lt,comparable,number?,Raised.Reported]
  | .str _, .list _ => by simp [lt,comparable,number?,Raised.Reported]
  | .str _, .obj _ => by simp [lt,comparable,number?,Raised.Reported]
  | .list _, .null => by simp [lt,comparable,number?,Raised.Reported]
  | .list _, .bool _ => by simp [lt,comparable,number?,Raised.Reported]
  | .list _, .int _ => by simp [lt,comparable,number?,Raised.Reported]
  | .list _, .scalar _ => by simp [lt,comparable,number?,Raised.Reported]
  | .list _, .str _ => by simp [lt,comparable,number?,Raised.Reported]
  | .list _, .obj _ => by simp [lt,comparable,number?,Raised.Reported]

theorem reports_ltItems : (l m : List Json) → (Reports (ltItems l m) ↔ comparableItems l m = true)
  | [], [] => by simp [ltItems,comparableItems]
  | [], _::_ => by simp [ltItems,comparableItems]
  | _::_, [] => by simp [ltItems,comparableItems]
  | a::as, b::bs => by
    rw [ltItems,comparableItems]
    split
    · exact reports_ltItems as bs
    · exact reports_lt a b

end

/-- Each two neighbours compare, up to the first that do not ascend. -/
def ComparableAfter : Json → List Json → Prop
  | _, [] => True
  | previous, v::rest => previous.comparable v = true ∧
    (previous.lt v = .ok true → ComparableAfter v rest)

def ComparableChain : List Json → Prop
  | [] => True
  | v::rest => ComparableAfter v rest

end Json

end Spectra
