import Mathlib.Data.List.Sort
import Mathlib.Data.String.Basic
import Mathlib.Tactic
import Spectra.Framing

/-! `spectra_core.errors` and `spectra_core.canon`: the errors the project raises, the
canonical byte encoders, the domain-separated digest and the ordering helpers.

Text is taken in NFC, the form ingest and the rule front end store it in; a digest is
taken collision free. -/
namespace Spectra

abbrev Bytes := List UInt8

instance : LawfulBEq Bytes := inferInstance

/-- A 64-bit blocker or cut mask; the type is the range check of `mask_hex`. -/
abbrev Mask := BitVec 64

inductive ErrorType where
  | canonError | identifierError | schemaError | verdictError | guardError | limitError
  | budgetError | determinismError | profileError | licenceError
  /-- A built-in exception nothing in the project raises on purpose; its class is the code. -/
  | uncaught
  deriving DecidableEq, Repr

structure SpectraError where
  type : ErrorType
  code : String
  detail : String
  deriving DecidableEq, Repr

/-- The code an error class raises when none is given. -/
def ErrorType.code : ErrorType → String
  | .canonError => "E-CANON-FORM"
  | .identifierError => "E-ID-GRAMMAR"
  | .schemaError => "E-SCHEMA-MISSING"
  | .verdictError => "VRD-010"
  | .guardError => "E-SYN-000"
  | .limitError => "E-LIMIT-COUNT"
  | .budgetError => "E-BUDGET-EXHAUSTED"
  | .determinismError => "E-DET-ORDER"
  | .profileError => "PROFILE_INVALID"
  | .licenceError => "E-LICENSE-UNIMPLIED"
  | .uncaught => "Exception"

def ErrorType.mk (type : ErrorType) (detail : String) : SpectraError := ⟨type,type.code,detail⟩

abbrev Fallible (α : Type*) := Except SpectraError α

def ensure (p : Prop) [Decidable p] (e : SpectraError) : Fallible Unit :=
  if p then .ok () else .error e

@[simp] theorem ensure_ok {p : Prop} [Decidable p] {e : SpectraError} :
    ensure p e = .ok () ↔ p := by
  unfold ensure; split <;> simp_all

/-- Checks in order; the first failure is the one raised. -/
def checks : List (Fallible Unit) → Fallible Unit
  | [] => .ok ()
  | c::cs => match c with
    | .error e => .error e
    | .ok _ => checks cs

@[simp] theorem checks_nil : checks [] = .ok () := rfl

@[simp] theorem checks_cons {c : Fallible Unit} {cs : List (Fallible Unit)} :
    checks (c::cs) = .ok () ↔ c = .ok () ∧ checks cs = .ok () := by
  rcases c with e | u <;> simp [checks]

/-- A value whose constructor runs `check` and needs that it passed. -/
def validated {α : Type*} (check : Fallible Unit) (build : check = .ok () → α) : Fallible α :=
  match check, build with
  | .error e, _ => .error e
  | .ok (), build => .ok (build rfl)

theorem validated_ok {α : Type*} {check : Fallible Unit} {build : check = .ok () → α} {a : α} :
    validated check build = .ok a ↔ ∃ h, build h = a := by
  cases check with
  | error e => simp [validated]
  | ok u => simp [validated]

theorem checks_map {α : Type*} {f : α → Fallible Unit} {l : List α} :
    checks (l.map f) = .ok () ↔ ∀ a ∈ l, f a = .ok () := by
  induction l with
  | nil => simp
  | cons a l ih => simp [ih]

theorem checks_error {cs : List (Fallible Unit)} {e : SpectraError} (h : checks cs = .error e) :
    .error e ∈ cs := by
  induction cs with
  | nil => cases h
  | cons c cs ih =>
    cases c with
    | error e' => cases h; simp
    | ok u => exact List.mem_cons_of_mem _ (ih h)

theorem ensure_error {p : Prop} [Decidable p] {e e' : SpectraError} (h : ensure p e = .error e') :
    e' = e := by
  unfold ensure at h
  split at h
  · cases h
  · cases h; rfl

/-- The value of a call that is known to return one. -/
def valueOf {α : Type*} (x : Fallible α) (h : x.isOk = true) : α :=
  match x, h with
  | .ok a, _ => a

theorem valueOf_ok {α : Type*} (x : Fallible α) (h : x.isOk = true) : x = .ok (valueOf x h) := by
  cases x with
  | error e => cases h
  | ok a => rfl

/-- What a run returned, with the run and with what was asked of the value. -/
def returned {ε α : Type*} (x : Except ε α) (p : α → Bool) (h : x.toOption.any p = true) :
    {a : α // x = .ok a ∧ p a = true} :=
  match x, h with
  | .ok a, h => ⟨a,rfl,h⟩

def found {α : Type*} (x : Option α) (p : α → Bool) (h : x.any p = true) :
    {a : α // x = some a ∧ p a = true} :=
  match x, h with
  | some a, h => ⟨a,rfl,h⟩

/-! ### Scalars -/

def widthError (loc : String) : SpectraError := ⟨.canonError,"E-CANON-WIDTH",loc⟩

/-- `width` octets of `n`, most significant first. -/
def bigEndian : ℕ → ℕ → Bytes
  | 0, _ => []
  | width+1, n => bigEndian width (n/256)++[UInt8.ofNat n]

@[simp] theorem bigEndian_length (width n : ℕ) : (bigEndian width n).length = width := by
  induction width generalizing n with
  | zero => rfl
  | succ width ih => simp [bigEndian,ih]

theorem bigEndian_inj {width n m : ℕ} (hn : n < 256^width) (hm : m < 256^width)
    (h : bigEndian width n = bigEndian width m) : n = m := by
  induction width generalizing n m with
  | zero => simp at hn hm; omega
  | succ width ih =>
    obtain ⟨hq,hr⟩ := List.append_inj' h rfl
    have hq := ih (Nat.div_lt_of_lt_mul (by rw [pow_succ] at hn; omega))
      (Nat.div_lt_of_lt_mul (by rw [pow_succ] at hm; omega)) hq
    have hr := congrArg UInt8.toNat (List.cons.inj hr).1
    simp only [UInt8.toNat_ofNat'] at hr
    omega

/-- An unsigned field of `width` octets. -/
def uint (loc : String) (width : ℕ) (value : ℤ) : Fallible Bytes :=
  if 0 ≤ value ∧ value < 256^width then .ok (bigEndian width value.toNat)
  else .error (widthError loc)

def u8 : ℤ → Fallible Bytes := uint "u8" 1
def u16 : ℤ → Fallible Bytes := uint "u16" 2
def u32 : ℤ → Fallible Bytes := uint "u32" 4
def u64 : ℤ → Fallible Bytes := uint "u64" 8

/-- A signed 64-bit field, two's complement. -/
def i64 (value : ℤ) : Fallible Bytes :=
  if -2^63 ≤ value ∧ value < 2^63 then .ok (bigEndian 8 (value%2^64).toNat)
  else .error (widthError "i64")

theorem uint_selfDelimiting (loc : String) (width : ℕ) :
    Framing.SelfDelimiting (uint loc width) := by
  refine Framing.selfDelimiting_fixed width ?_ ?_
  · intro a p h
    unfold uint at h
    split at h
    · rw [← Except.ok.inj h,bigEndian_length]
    · cases h
  · intro a b p ha hb
    unfold uint at ha hb
    split at ha
    · split at hb
      · rename_i ha' hb'
        have hpow : (256 : ℤ)^width = ((256^width : ℕ) : ℤ) := by push_cast; rfl
        have hab := bigEndian_inj (by omega) (by omega)
          ((Except.ok.inj ha).trans (Except.ok.inj hb).symm)
        omega
      · cases hb
    · cases ha

theorem i64_selfDelimiting : Framing.SelfDelimiting i64 := by
  refine Framing.selfDelimiting_fixed 8 ?_ ?_
  · intro a p h
    unfold i64 at h
    split at h
    · rw [← Except.ok.inj h,bigEndian_length]
    · cases h
  · intro a b p ha hb
    unfold i64 at ha hb
    split at ha
    · split at hb
      · have hab := bigEndian_inj (by norm_num; omega) (by norm_num; omega)
          ((Except.ok.inj ha).trans (Except.ok.inj hb).symm)
        omega
      · cases hb
    · cases ha

def boolean (value : Bool) : Bytes := if value then [1] else [0]

/-- Unsigned LEB128, minimal length. -/
def leb128 (value : ℕ) : Bytes :=
  if value/128 = 0 then [UInt8.ofNat value]
  else UInt8.ofNat (value%128+128)::leb128 (value/128)
termination_by value
decreasing_by omega

theorem leb128_selfDelimiting {a b : ℕ} {x y : Bytes} (h : leb128 a++x = leb128 b++y) :
    a = b ∧ x = y := by
  induction a using Nat.strong_induction_on generalizing b with
  | _ a ih =>
    rw [leb128,leb128.eq_1 b] at h
    -- the continuation bit tells a last octet from an inner one
    by_cases ha : a/128 = 0 <;> by_cases hb : b/128 = 0
    · rw [if_pos ha,if_pos hb] at h
      obtain ⟨h₁,h₂⟩ := List.cons.inj h
      have h₁ := congrArg UInt8.toNat h₁
      simp only [UInt8.toNat_ofNat'] at h₁
      exact ⟨by omega,h₂⟩
    · rw [if_pos ha,if_neg hb] at h
      have h₁ := congrArg UInt8.toNat (List.cons.inj h).1
      simp only [UInt8.toNat_ofNat'] at h₁
      omega
    · rw [if_neg ha,if_pos hb] at h
      have h₁ := congrArg UInt8.toNat (List.cons.inj h).1
      simp only [UInt8.toNat_ofNat'] at h₁
      omega
    · rw [if_neg ha,if_neg hb] at h
      obtain ⟨h₁,h₂⟩ := List.cons.inj h
      have h₁ := congrArg UInt8.toNat h₁
      simp only [UInt8.toNat_ofNat'] at h₁
      obtain ⟨hq,hx⟩ := ih (a/128) (by omega) h₂
      exact ⟨by omega,hx⟩

/-! ### Text and sequences -/

/-- The UTF-8 octets of a text; those of a character outside ASCII are all 128 or more. -/
def octets (value : String) : Bytes := value.toByteArray.data.toList

/-- `nfc` on text already in normal form: only control characters are left to reject. -/
def nfc (value : String) : Fallible String :=
  if (octets value).any (fun b => b < 0x20 || b = 0x7f) then
    .error ⟨.canonError,"E-CANON-NFC","nfc: control character"⟩
  else .ok value

/-- The `u32` length of a sequence. -/
def lengthCode (n : ℕ) : Fallible Bytes :=
  if 0xFFFFFFFF < n then .error (ErrorType.limitError.mk "exceeds the u32 length prefix") else u32 n

def blob (value : Bytes) : Fallible Bytes := Framing.concat [lengthCode value.length,.ok value]

def asciiText (value : String) : Fallible Bytes :=
  if (octets value).all (· < 128) then blob (octets value)
  else .error (ErrorType.canonError.mk "ascii_text: value is not US-ASCII")

def utf8Text (value : String) : Fallible Bytes :=
  match nfc value with
  | .error e => .error e
  | .ok value => blob (octets value)

/-- A `u32` count, then each element in the order given. -/
def orderedSeq {α : Type*} (encode : α → Fallible Bytes) (items : List α) : Fallible Bytes :=
  Framing.counted lengthCode encode items

def leb128Seq (values : List ℕ) : Bytes := leb128 values.length++values.flatMap leb128

theorem lengthCode_selfDelimiting : Framing.SelfDelimiting lengthCode := by
  intro a b p q x y ha hb h
  unfold lengthCode at ha hb
  split at ha
  · cases ha
  · split at hb
    · cases hb
    · obtain ⟨hab,hx⟩ := uint_selfDelimiting _ _ _ _ p q x y ha hb h
      exact ⟨by exact_mod_cast hab,hx⟩

theorem blob_selfDelimiting : Framing.SelfDelimiting blob :=
  Framing.selfDelimiting_framed lengthCode_selfDelimiting

theorem octets_injective : Function.Injective octets := by
  intro s t h
  exact String.toByteArray_inj.mp (ByteArray.ext (Array.toList_inj.mp h))

theorem asciiText_selfDelimiting : Framing.SelfDelimiting asciiText := by
  intro a b p q x y ha hb h
  unfold asciiText at ha hb
  split at ha
  · split at hb
    · exact blob_selfDelimiting.comp octets_injective a b p q x y ha hb h
    · cases hb
  · cases ha

theorem utf8Text_selfDelimiting : Framing.SelfDelimiting utf8Text := by
  have key : ∀ s p, utf8Text s = .ok p → blob (octets s) = .ok p := by
    intro s p h
    unfold utf8Text nfc at h
    split at h
    · cases h
    · rename_i hs
      split at hs
      · cases hs
      · rwa [← Except.ok.inj hs] at h
  intro a b p q x y ha hb h
  exact blob_selfDelimiting.comp octets_injective a b p q x y (key a p ha) (key b q hb) h

theorem orderedSeq_selfDelimiting {α : Type*} {encode : α → Fallible Bytes}
    (h : Framing.SelfDelimiting encode) : Framing.SelfDelimiting (orderedSeq encode) :=
  lengthCode_selfDelimiting.counted h

theorem leb128Seq_injective : Function.Injective leb128Seq := by
  have hm : ∀ as bs : List ℕ, as.length = bs.length → as.flatMap leb128 = bs.flatMap leb128 →
      as = bs := by
    intro as
    induction as with
    | nil => intro bs hl _; exact (List.length_eq_zero_iff.mp hl.symm).symm
    | cons a as ih =>
      intro bs hl h
      cases bs with
      | nil => cases hl
      | cons b bs =>
        obtain ⟨rfl,ht⟩ := leb128_selfDelimiting h
        rw [ih bs (Nat.succ.inj hl) ht]
  intro as bs h
  obtain ⟨hl,h⟩ := leb128_selfDelimiting h
  exact hm as bs hl h

/-! ### Digests -/

/-- The digest construction: lowercase text of `DIGEST(kind, payload)` cut to `octets`. -/
structure Digest where
  digestHex : String → Bytes → ℕ → String
  collisionFree : ∀ kind octets, Function.Injective (digestHex kind · octets)

/-- One octet in ASCII: itself, or three characters from 127 on. -/
def spellOctet (b : UInt8) : List Char :=
  if b.toNat < 127 then [Char.ofNat b.toNat]
  else [Char.ofNat 127,Char.ofNat ((b.toNat-127)/2),Char.ofNat ((b.toNat-127)%2)]

theorem ofNat_inj {n m : ℕ} (hn : n < 128) (hm : m < 128) (h : Char.ofNat n = Char.ofNat m) :
    n = m := by
  have hc : ∀ k : Fin 128, (Char.ofNat k).toNat = k := by decide
  exact (hc ⟨n,hn⟩).symm.trans ((congrArg Char.toNat h).trans (hc ⟨m,hm⟩))

theorem spellOctet_selfDelimiting {a b : UInt8} {x y : List Char}
    (h : spellOctet a++x = spellOctet b++y) : a = b ∧ x = y := by
  have ha := a.toNat_lt
  have hb := b.toNat_lt
  unfold spellOctet at h
  split at h <;> split at h <;> simp only [List.cons_append,List.nil_append,List.cons.injEq] at h
  · exact ⟨UInt8.toNat_inj.mp (ofNat_inj (by omega) (by omega) h.1),h.2⟩
  · have := ofNat_inj (by omega) (by omega) h.1; omega
  · have := ofNat_inj (by omega) (by omega) h.1; omega
  · have hq := ofNat_inj (by omega) (by omega) h.2.1
    have hr := ofNat_inj (by omega) (by omega) h.2.2.1
    exact ⟨UInt8.toNat_inj.mp (by omega),h.2.2.2⟩

theorem spell_injective : Function.Injective (fun payload : Bytes => payload.flatMap spellOctet) := by
  intro p
  induction p with
  | nil =>
    intro q h
    cases q with
    | nil => rfl
    | cons b q =>
      simp only [List.flatMap_nil,List.flatMap_cons,spellOctet] at h
      split at h <;> cases h
  | cons a p ih =>
    intro q h
    cases q with
    | nil =>
      simp only [List.flatMap_nil,List.flatMap_cons,spellOctet] at h
      split at h <;> cases h
    | cons b q =>
      obtain ⟨rfl,ht⟩ := spellOctet_selfDelimiting h
      rw [ih ht]

/-- A digest that spells its payload out in ASCII. -/
def Digest.spelled : Digest where
  digestHex _ payload _ := String.ofList (payload.flatMap spellOctet)
  collisionFree := fun _ _ _ _ h => spell_injective (String.ofList_injective h)

/-- The place of a payload in a table in unary, or else its spelling. -/
def tabledText (table : List Bytes) (payload : Bytes) : List Char :=
  match table.findIdx? (· = payload) with
  | some index => List.replicate index 'a'
  | none => '~'::payload.flatMap spellOctet

theorem tabledText_injective (table : List Bytes) : Function.Injective (tabledText table) := by
  have hne : ∀ n (l : List Char), List.replicate n 'a' ≠ '~'::l := by
    intro n l
    cases n <;> simp [List.replicate_succ]
  intro p q h
  unfold tabledText at h
  cases hp : table.findIdx? (· = p) with
  | none =>
    cases hq : table.findIdx? (· = q) with
    | none =>
      simp only [hp,hq,List.cons.injEq,true_and] at h
      exact spell_injective h
    | some j => simp only [hp,hq] at h; exact absurd h.symm (hne j _)
  | some i =>
    cases hq : table.findIdx? (· = q) with
    | none => simp only [hp,hq] at h; exact absurd h (hne i _)
    | some j =>
      simp only [hp,hq] at h
      have hij : i = j := by simpa using congrArg List.length h
      obtain ⟨_,hi,-⟩ := List.findIdx?_eq_some_iff_getElem.mp hp
      obtain ⟨_,hj,-⟩ := List.findIdx?_eq_some_iff_getElem.mp hq
      subst hij
      exact (of_decide_eq_true hi).symm.trans (of_decide_eq_true hj)

/-- A digest that numbers the payloads of a table and spells out any other. -/
def Digest.tabled (table : List (Fallible Bytes)) : Digest where
  digestHex _ payload _ := String.ofList (tabledText (table.filterMap (·.toOption)) payload)
  collisionFree := fun _ _ _ _ h => tabledText_injective _ (String.ofList_injective h)

/-- An identifier minted from its canonical payload. -/
def Digest.mint (D : Digest) (kind : String) (payload : Bytes) (octets : ℕ) : String :=
  kind++":"++D.digestHex kind payload octets

theorem Digest.mint_injective (D : Digest) (kind : String) (octets : ℕ) :
    Function.Injective (D.mint kind · octets) := by
  intro p q h
  exact D.collisionFree kind octets (String.append_right_inj _ |>.mp h)

/-! ### Ordering -/

/-- One scan for the first element that is not above its predecessor. -/
def ascendingFrom {κ : Type*} [LT κ] [DecidableLT κ] (loc : String) : ℕ → κ → List κ → Fallible Unit
  | _, _, [] => .ok ()
  | index, previous, current::rest =>
    if previous < current then ascendingFrom loc (index+1) current rest
    else .error ⟨.canonError,"E-CANON-ORDER",
      loc++": element "++toString index++" is not strictly greater than its predecessor"⟩

def checkStrictlyAscending {κ : Type*} [LT κ] [DecidableLT κ] (loc : String) :
    List κ → Fallible Unit
  | [] => .ok ()
  | first::rest => ascendingFrom loc 1 first rest

theorem checkStrictlyAscending_ok {κ : Type*} [Preorder κ] [DecidableLT κ] {loc : String}
    {keys : List κ} : checkStrictlyAscending loc keys = .ok () ↔ keys.Pairwise (· < ·) := by
  have hf : ∀ (l : List κ) (i : ℕ) (p : κ),
      ascendingFrom loc i p l = .ok () ↔ (p::l).IsChain (· < ·) := by
    intro l
    induction l with
    | nil => simp [ascendingFrom]
    | cons c l ih =>
      intro i p
      simp only [ascendingFrom,List.isChain_cons_cons]
      split
      · rename_i h; simp [ih,h]
      · rename_i h; simp [h]
  rw [← List.isChain_iff_pairwise]
  cases keys with
  | nil => simp [checkStrictlyAscending]
  | cons k ks => exact hf ks 1 k

end Spectra
