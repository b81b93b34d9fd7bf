import Spectra.JsonText
import Spectra.Render
import Spectra.Rules

/-! `spectra_core.model.CanonicalEvent` with every field it carries, the octets its identifier
is minted from, and the line of the bundle it is written as. -/
namespace Spectra

/-- `bytes.fromhex` of digits that have been read. -/
def fromHex : List ℕ → Bytes
  | high::low::rest => UInt8.ofNat (16*high+low)::fromHex rest
  | _ => []

/-- `canon.parse_hash_ref`. -/
def parseHashRef (value : String) : Fallible Bytes :=
  if Checker.hasPrefix Checker.hashRefPrefix value then
    match Checker.hexDigits ((octets value).drop Checker.hashRefPrefix.length) with
    | some digits =>
      if digits.length = 64 then .ok (fromHex digits)
      else .error (ErrorType.canonError.mk "parse_hash_ref: body is not 64 lowercase hex digits")
    | none => .error (ErrorType.canonError.mk "parse_hash_ref: body is not 64 lowercase hex digits")
  else .error (ErrorType.canonError.mk "parse_hash_ref: expected the prefix")

namespace Checker

/-- `canon.utf8_text` of a text that need not be in normal form. -/
def Library.utf8Text (lib : Library) (value : String) : Fallible Bytes :=
  Spectra.utf8Text (lib.normalize value)

/-- `canon.byte_order_key`. -/
def Library.byteOrderKey (lib : Library) (value : String) : Fallible Bytes := do
  pure (octets (← nfc (lib.normalize value)))

/-- A key of `canon.pairs`, encoded. -/
def Library.encodeKey (lib : Library) (key : String) : Fallible Bytes :=
  if (octets key).all (· < 128) then asciiText key else lib.utf8Text key

def Library.encodePair (lib : Library) (p : String × String) : Fallible (Bytes × Bytes) := do
  let key ← lib.encodeKey p.1
  let value ← lib.utf8Text p.2
  pure (key,value)

/-- `canon.pairs`. -/
def Library.pairs (lib : Library) (items : List (String × String)) : Fallible Bytes := do
  let encoded := (← items.mapM lib.encodePair).insertionSort (·.1 ≤ ·.1)
  ensure ((encoded.map (·.1)).IsChain (· ≠ ·))
    ⟨.canonError,"E-CANON-DUPKEY","pairs: duplicate key"⟩
  pure ((← u32 encoded.length)++encoded.flatMap fun p => p.1++p.2)

/-- The keys of the attributes, each above the one before it in normal form. -/
def Library.checkKeys (lib : Library) (loc : String) : ℕ → Option Bytes → List String → Fallible Unit
  | _, _, [] => .ok ()
  | index, previous, key::rest => do
    let current ← lib.byteOrderKey key
    ensure (previous.all (· < current)) ⟨.canonError,"E-CANON-ORDER",
      loc++": element "++toString index++" is not strictly greater than its predecessor"⟩
    lib.checkKeys loc (index+1) (some current) rest

end Checker

open Checker (Library sourcePrefix)

/-- The fields of a bundle record; a source id is its snake behind the prefix of its type. -/
structure BundleFields where
  eventId : EventId
  recordId : String
  source : String
  seq : ℤ
  eventType : String
  tEvtNs : ℤ
  tIngNs : ℤ
  attrs : List (String × String)
  chainHash : Option String
  chainPrev : Option String
  deriving DecidableEq, Repr

namespace BundleFields

variable (lib : Library) (e : BundleFields)

def sourceId : SourceId := sourcePrefix++e.source

def postInit : Fallible Unit := checks [
  ensure (isSnake e.source) (ErrorType.identifierError.mk "CanonicalEvent.source_id"),
  ensure (0 ≤ e.seq ∧ e.seq < 2^32) (widthError "u32"),
  checkNanos "CanonicalEvent.t_evt_ns" e.tEvtNs,
  checkNanos "CanonicalEvent.t_ing_ns" e.tIngNs,
  lib.checkKeys "CanonicalEvent.attrs" 0 none (e.attrs.map (·.1)),
  ensure (e.chainHash.isSome = e.chainPrev.isSome) (ErrorType.schemaError.mk
    "CanonicalEvent: chain_hash and chain_prev are present or absent together"),
  checks ((e.chainHash.toList++e.chainPrev.toList).map fun value => (parseHashRef value).map fun _ => ())]

/-- The event-id preimage: attrs, event_type, seq, source_id, t_evt_ns. -/
def identityBytes : Fallible Bytes := Framing.concat [
  lib.pairs e.attrs,lib.utf8Text e.eventType,u32 e.seq,asciiText e.sourceId,i64 e.tEvtNs]

/-- `_bundle_obj`; the source is written bare, and the record id is not written. -/
def bundleObj : Json := .obj ([
  ("attrs",.obj (e.attrs.map fun p => (p.1,.str p.2))),("event_id",.str e.eventId),
  ("event_type",.str e.eventType),("seq",.int e.seq),("source_id",.str e.source),
  ("t_evt_ns",.str (Checker.decimalText e.tEvtNs)),("t_ing_ns",.str (Checker.decimalText e.tIngNs))]++
  match e.chainHash, e.chainPrev with
  | some hash, some prev => [("chain_hash",.str hash),("chain_prev",.str prev)]
  | _, _ => [])

end BundleFields

/-- A record its constructor accepted. -/
structure BundleRecord (lib : Library) extends BundleFields where
  valid : toBundleFields.postInit lib = .ok ()
  deriving DecidableEq

/-! ### What the constructor leaves -/

theorem snake_chars {s : String} (h : isSnake s = true) : ∀ c ∈ s.toList, isSnakeTail c = true := by
  rw [isSnake,Bool.and_eq_true] at h
  cases hl : s.toList with
  | nil => simp
  | cons c cs =>
    rw [hl] at h
    simp only [snakeChars,Bool.and_eq_true,List.all_eq_true] at h
    exact List.forall_mem_cons.mpr ⟨by simp [isSnakeTail,h.1.1],h.1.2⟩

/-- A snake is spelled in printed ASCII, without a colon. -/
theorem octets_snake {s : String} (h : isSnake s = true) : ∀ b ∈ octets s, 0x20 ≤ b.toNat ∧ b ≠ 0x3a := by
  have htail : ∀ c : Char, isSnakeTail c = true → 0x20 ≤ c.toNat ∧ c.toNat < 128 ∧ c.toNat ≠ 0x3a := by
    intro c hc
    have hn : c.toNat = c.val.toNat := rfl
    simp only [isSnakeTail,isLower,Bool.or_eq_true,Bool.and_eq_true,decide_eq_true_eq,
      Char.le_def,UInt32.le_iff_toNat_le] at hc
    rw [hn]
    rcases hc with (⟨h₁,h₂⟩ | ⟨h₁,h₂⟩) | rfl
    · change 97 ≤ _ at h₁; change _ ≤ 122 at h₂; omega
    · change 48 ≤ _ at h₁; change _ ≤ 57 at h₂; omega
    · decide
  intro b hb
  rw [octets_eq] at hb
  obtain ⟨c,hc,hb⟩ := List.mem_flatMap.mp hb
  obtain ⟨hlow,hascii,hne⟩ := htail c (snake_chars h c hc)
  rw [utf8EncodeChar_ascii hascii] at hb
  rw [List.mem_singleton.mp hb]
  refine ⟨by rw [UInt8.toNat_ofNat']; omega,fun he => ?_⟩
  have := congrArg UInt8.toNat he
  rw [UInt8.toNat_ofNat'] at this
  simp at this
  omega

theorem isSnake_not_prefixed {s : String} (h : isSnake s = true) :
    Checker.hasPrefix sourcePrefix s = false := by
  have hopen : octets sourcePrefix = [0x73,0x72,0x63,0x3a] := by decide
  rw [Checker.hasPrefix,hopen]
  by_contra hn
  rw [Bool.not_eq_false,List.isPrefixOf_iff_prefix] at hn
  exact (octets_snake h 0x3a (hn.subset (by simp))).2 rfl

theorem byteOrderKey_ok {lib : Library} {s : String} {k : Bytes} (h : lib.byteOrderKey s = .ok k) :
    k = octets (lib.normalize s) := by
  obtain ⟨t,ht,h⟩ := Runs.bind_ok.mp h
  unfold nfc at ht
  split at ht
  · cases ht
  · cases ht; exact (Runs.pure_ok.mp h).symm

theorem checkKeys_ascending {lib : Library} {loc : String} {index : ℕ} {previous : Option Bytes}
    {keys : List String} (h : lib.checkKeys loc index previous keys = .ok ()) :
    (previous.toList++keys.map fun key => octets (lib.normalize key)).IsChain (· < ·) := by
  induction keys generalizing index previous with
  | nil => cases previous <;> simp
  | cons key keys ih =>
    obtain ⟨current,hc,h⟩ := Runs.bind_ok.mp h
    obtain ⟨_,ha,h⟩ := Runs.bind_ok.mp h
    have hrest := ih h
    obtain rfl := byteOrderKey_ok hc
    cases previous with
    | none => exact hrest
    | some p =>
      have hp : p < octets (lib.normalize key) := by simpa using ensure_ok.mp ha
      exact List.isChain_cons_cons.mpr ⟨hp,hrest⟩

namespace BundleRecord

variable {lib : Library} (e : BundleRecord lib)

theorem snake : isSnake e.source = true := by
  have h := e.valid
  simp only [BundleFields.postInit,checks_cons,ensure_ok] at h
  exact h.1

theorem nodup_keys : (e.attrs.map (·.1)).Nodup := by
  have h := e.valid
  simp only [BundleFields.postInit,checks_cons,ensure_ok] at h
  have hchain := checkKeys_ascending h.2.2.2.2.1
  have hpair := (List.isChain_iff_pairwise.mp hchain).imp fun {a b} hab =>
    show a ≠ b from fun he => List.lt_irrefl a (he ▸ hab)
  exact List.Nodup.of_map (fun key => octets (lib.normalize key)) hpair

end BundleRecord

end Spectra
