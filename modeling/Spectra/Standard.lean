import Mathlib
import Spectra.Accepted
import Spectra.Blake2b

/-! `canon.digest_hex`, and the standard library on the ASCII texts of a given certificate. -/
namespace Spectra
namespace Checker

theorem isValidUTF8_ascii {l : Bytes} (h : ∀ b ∈ l, b.toNat < 128) :
    ByteArray.IsValidUTF8 ⟨l.toArray⟩ := by
  induction l using List.reverseRecOn with
  | nil => exact ByteArray.isValidUTF8_empty
  | append_singleton l b ih =>
    have hb : b.toNat < 128 := h b (by simp)
    have hv : (Char.ofNat b.toNat).val = b.toUInt32 := by
      rw [Char.ofNat,dif_pos (Or.inl (by omega))]
      exact UInt32.toNat_inj.mp (by simp [Char.ofNatAux])
    have hsize : (Char.ofNat b.toNat).utf8Size = 1 := by
      have hle : (Char.ofNat b.toNat).val ≤ 0x7f := by
        rw [hv,UInt32.le_iff_toNat_le]
        simpa using by omega
      simp [Char.utf8Size,hle]
    have hc : (Char.ofNat b.toNat).toUInt8 = b := by
      simp [Char.toUInt8,hv]
    have hpush := ByteArray.IsValidUTF8.push (ih fun x hx => h x (by simp [hx])) hsize
    rw [hc] at hpush
    simpa [ByteArray.push] using hpush

/-- The text of ASCII octets. -/
def asciiString (l : Bytes) (h : ∀ b ∈ l, b.toNat < 128) : String :=
  ⟨⟨l.toArray⟩,isValidUTF8_ascii h⟩

@[simp] theorem octets_asciiString {l : Bytes} (h : ∀ b ∈ l, b.toNat < 128) :
    octets (asciiString l h) = l := rfl

theorem octets_append (s t : String) : octets (s++t) = octets s++octets t := by
  simp [octets]

theorem hexDigits_append {l m : Bytes} {a b : List ℕ} (hl : hexDigits l = some a)
    (hm : hexDigits m = some b) : hexDigits (l++m) = some (a++b) := by
  simp [hexDigits,List.mapM_append] at *
  simp [hl,hm]

theorem hexValue_hexDigit {n : ℕ} (h : n < 16) : hexValue (Json.hexDigit n) = some n := by
  interval_cases n <;> decide

theorem hexDigits_hexText (width n : ℕ) : ∃ l, hexDigits (Json.hexText width n) = some l := by
  induction width generalizing n with
  | zero => exact ⟨[],rfl⟩
  | succ width ih =>
    obtain ⟨l,hl⟩ := ih (n/16)
    have hd : hexDigits [Json.hexDigit (n%16)] = some [n%16] := by
      simp [hexDigits,hexValue_hexDigit (Nat.mod_lt n (by norm_num))]
    exact ⟨l++[n%16],hexDigits_append hl hd⟩

theorem length_hexText (width n : ℕ) : (Json.hexText width n).length = width := by
  induction width generalizing n with
  | zero => rfl
  | succ width ih => simp [Json.hexText,ih]

/-- The hexadecimal text of a number reads back as the number. -/
theorem fromDigits_hexText (width n : ℕ) : ∃ l, hexDigits (Json.hexText width n) = some l ∧
    l.length = width ∧ fromDigits 16 l = n % 16^width := by
  induction width generalizing n with
  | zero => exact ⟨[],rfl,rfl,by simp [fromDigits,Nat.mod_one]⟩
  | succ width ih =>
    obtain ⟨l,hl,hlength,hvalue⟩ := ih (n/16)
    have hd : hexDigits [Json.hexDigit (n%16)] = some [n%16] := by
      simp [hexDigits,hexValue_hexDigit (Nat.mod_lt n (by norm_num))]
    refine ⟨l++[n%16],hexDigits_append hl hd,by simp [hlength],?_⟩
    have hsnoc : fromDigits 16 (l++[n%16]) = 16*fromDigits 16 l+n%16 := by simp [fromDigits]
    rw [hsnoc,hvalue,Nat.pow_succ,Nat.mul_comm (16^width) 16,Nat.mod_mul]
    ring

/-- Hexadecimal digits are printable ASCII characters. -/
theorem hexDigits_printable {l : Bytes} {a : List ℕ} (h : hexDigits l = some a) :
    ∀ b ∈ l, 0x20 ≤ b.toNat ∧ b.toNat < 0x7f := by
  intro b hb
  obtain ⟨d,hd⟩ : ∃ d, hexValue b = some d := by
    by_contra hn
    push Not at hn
    have : hexValue b = none := Option.eq_none_iff_forall_ne_some.mpr hn
    obtain ⟨l₁,l₂,rfl⟩ := List.append_of_mem hb
    simp [hexDigits,this] at h
  unfold hexValue at hd
  simp only [UInt8.le_iff_toNat_le,UInt8.reduceToNat] at hd
  split at hd
  · omega
  · split at hd
    · omega
    · cases hd

def domainPrefix : String := "spectra/v1/"

def unitSeparator : UInt8 := 0x1f

/-- `canon.digest`. -/
def digest (kind : String) (payload : Bytes) : Bytes :=
  Blake2b.digest 32 (octets (domainPrefix++kind)++unitSeparator::payload)

def hexOctets (l : Bytes) : Bytes := l.flatMap fun b => Json.hexText 2 b.toNat

theorem hexDigits_hexOctets (l : Bytes) : ∃ a, hexDigits (hexOctets l) = some a := by
  induction l with
  | nil => exact ⟨[],rfl⟩
  | cons b l ih =>
    obtain ⟨x,hx⟩ := hexDigits_hexText 2 b.toNat
    obtain ⟨y,hy⟩ := ih
    exact ⟨x++y,hexDigits_append hx hy⟩

theorem hexOctets_printable (l : Bytes) : ∀ b ∈ hexOctets l, 0x20 ≤ b.toNat ∧ b.toNat < 0x7f := by
  obtain ⟨a,ha⟩ := hexDigits_hexOctets l
  exact hexDigits_printable ha

theorem length_hexOctets (l : Bytes) : (hexOctets l).length = 2*l.length := by
  induction l with
  | nil => rfl
  | cons b l ih =>
    rw [hexOctets,List.flatMap_cons,List.length_append,length_hexText]
    rw [hexOctets] at ih
    rw [ih,List.length_cons]; ring

/-- `canon.digest_hex`: the opening octets of the digest, in hexadecimal. -/
def digestHex (kind : String) (payload : Bytes) (size : ℕ) : String :=
  asciiString (hexOctets ((digest kind payload).take size)) fun b hb =>
    (hexOctets_printable _ b hb).2.trans (by norm_num)

theorem length_digest (kind : String) (payload : Bytes) : (digest kind payload).length = 32 :=
  Blake2b.length_digest (by norm_num) _

-- the octets of the text in turn, not every octet there is
instance (content : Bytes) : Decidable (∀ b ∈ content, b.toNat < 128) :=
  List.decidableBAll (fun b : UInt8 => b.toNat < 128) content

/-- The library on ASCII texts: the JSON and the TOML texts it is asked for are listed with
the values they spell. -/
def standard (json toml : List (Bytes × Json)) : Library where
  digestHex := digestHex
  normalize := id
  decode content := if h : ∀ b ∈ content, b.toNat < 128 then some (asciiString content h) else none
  jsonLoads _ text := (Dict.get? json (octets text)).elim (.error .jsonDecode) .ok
  tomlLoads content := (Dict.get? toml content).elim (.error .tomlDecode) .ok
  format
    | .bool true => "True"
    | .bool false => "False"
    | _ => "None"
  toInt _ := .error .valueError

theorem hashRef_ne (json toml : List (Bytes × Json)) (kind : String) (payload : Bytes) :
    (standard json toml).hashRef kind payload ≠ "" := by
  intro h
  have hlength := congrArg (fun s => (octets s).length) h
  have hopening : (octets hashRefPrefix).length = 7 := by decide
  have hempty : (octets "").length = 0 := rfl
  simp only [Library.hashRef,octets_append,List.length_append,hopening,hempty] at hlength
  omega

/-- The hash references the library makes are well formed. -/
theorem hashRefText_hashRef (json toml : List (Bytes × Json)) (kind : String) (payload : Bytes) :
    hashRefText (.str ((standard json toml).hashRef kind payload)) =
      some ((standard json toml).hashRef kind payload) := by
  have hoctets : octets ((standard json toml).hashRef kind payload) =
      octets hashRefPrefix++hexOctets ((digest kind payload).take 32) := octets_append ..
  have hlength : hashRefPrefix.length = (octets hashRefPrefix).length := by decide
  obtain ⟨a,ha⟩ := hexDigits_hexOctets ((digest kind payload).take 32)
  simp only [hashRefText,hasPrefix,hoctets,hlength,List.drop_left,ha,Option.isSome_some]
  rw [if_pos]
  exact ⟨by simp,by simp [length_hexOctets,length_digest],trivial⟩

end Checker

end Spectra
