import Spectra.Bundle
import Spectra.Groups
import Spectra.Scf

/-! The raw stream of `spectra_vs.gen`: a telemetry line before it is ingested, the id it will have,
and the file the stream is written as. -/
namespace Spectra

open Checker (Library sourcePrefix removePrefix)

/-- `scenario.source_key`: a source without the prefix of its type. -/
def sourceKey (value : String) : String := removePrefix sourcePrefix value

/-! ### Sorting -/

/-- The values of octets, which are ordered as the octets are. -/
def ordinals (b : Bytes) : List ℕ := b.map (·.toNat)

/-- `canon.byte_order_key`, as a sort key. -/
def Checker.Library.orderKey (lib : Library) (value : String) : Fallible (List ℕ) := do
  pure (ordinals (← lib.byteOrderKey value))

/-- `sorted` by a key that may raise: every key is computed before anything is moved. -/
def sortedOn {α κ : Type} [LinearOrder κ] (key : α → Fallible κ) (l : List α) : Fallible (List α) := do
  let keyed ← l.mapM fun a => do
    let k ← key a
    pure (k,a)
  pure ((keyed.insertionSort (·.1 ≤ ·.1)).map (·.2))

/-! ### Serialising -/

namespace Json

/-- `scf_bytes`: the canonical octets of one object, with one line feed behind them. -/
def scfBytes (loc : String) (j : Json) : Fallible Bytes := do
  validateScf loc j
  pure (j.dumps true++[0x0a])

/-- The lines of `render_jsonl`, from the one of this number on. -/
def renderJsonlFrom (loc : String) : ℕ → List Json → Fallible Bytes
  | _, [] => .ok []
  | index, j::rest => do
    let line ← j.scfBytes (loc++"["++toString index++"]")
    let lines ← renderJsonlFrom loc (index+1) rest
    pure (line++lines)

/-- `render_jsonl`. -/
def renderJsonl (loc : String) (values : List Json) : Fallible Bytes := renderJsonlFrom loc 0 values

end Json

/-! ### Raw events -/

/-- The five members of a raw line. -/
structure RawFields where
  sourceId : SourceId
  seq : ℤ
  tEvtNs : ℤ
  eventType : String
  attrs : List (String × String)
  deriving DecidableEq, Repr

namespace RawFields

variable (lib : Library) (e : RawFields)

def postInit : Fallible Unit := checks [
  (u32 e.seq).map fun _ => (),
  checkNanos "RawEvent.t_evt_ns" e.tEvtNs,
  lib.checkKeys "RawEvent.attrs" 0 none (e.attrs.map (·.1))]

/-- The event-id preimage, in the order of `CanonicalEvent.identity_bytes`. -/
def identityBytes : Fallible Bytes := Framing.concat [
  lib.pairs e.attrs,lib.utf8Text e.eventType,u32 e.seq,asciiText e.sourceId,i64 e.tEvtNs]

def eventId : Fallible EventId := do
  let payload ← e.identityBytes lib
  pure ("ev:"++lib.digestHex "ev" payload 16)

/-- `source_key` of its source. -/
def source : String := sourceKey e.sourceId

/-- The order of the raw file. -/
def sortKey : ℤ ×ₗ String ×ₗ ℤ := toLex (e.tEvtNs,toLex (e.source,e.seq))

/-- `raw_to_scf`. -/
def toScf : Json := .obj [
  ("attrs",.obj (e.attrs.map fun p => (p.1,.str p.2))),("event_type",.str e.eventType),
  ("seq",.int e.seq),("source_id",.str e.source),("t_evt_ns",.str (Checker.decimalText e.tEvtNs))]

end RawFields

/-- A raw event its constructor accepted. -/
structure RawEvent (lib : Library) extends RawFields where
  valid : toRawFields.postInit lib = .ok ()

variable {lib : Library}

theorem RawEvent.ext_fields {e e' : RawEvent lib} (h : e.toRawFields = e'.toRawFields) : e = e' := by
  obtain ⟨fields,_⟩ := e
  obtain ⟨fields',_⟩ := e'
  obtain rfl : fields = fields' := h
  rfl

instance : DecidableEq (RawEvent lib) := fun e e' =>
  decidable_of_iff (e.toRawFields = e'.toRawFields) ⟨RawEvent.ext_fields,fun h => h ▸ rfl⟩

def RawFields.construct (lib : Library) (e : RawFields) : Fallible (RawEvent lib) :=
  validated (e.postInit lib) fun h => ⟨e,h⟩

theorem RawFields.construct_ok {e : RawFields} {r : RawEvent lib} :
    e.construct lib = .ok r ↔ r.toRawFields = e := by
  rw [construct,validated_ok]
  constructor
  · rintro ⟨_,rfl⟩
    rfl
  · rintro rfl
    exact ⟨r.valid,rfl⟩

def rawFileKind : String := "vsraw"

/-- `render_raw`. -/
def renderRaw (raw : List (RawEvent lib)) : Fallible Bytes :=
  Json.renderJsonl "raw" (raw.map (·.toScf))

/-- The digest a raw file is cited by. -/
def rawHash (raw : List (RawEvent lib)) : Fallible String := do
  pure (lib.hashRef rawFileKind (← renderRaw raw))

/-! ### What sorting returns -/

section

variable {α κ : Type} [LinearOrder κ] {key : α → Fallible κ} {l out : List α}

omit [LinearOrder κ] in
/-- The elements of a list with their keys. -/
theorem mapM_keyed {keyed : List (κ × α)} (h : (l.mapM fun a => do
      let k ← key a
      pure (k,a)) = .ok keyed) : keyed.map (·.2) = l ∧ ∀ p ∈ keyed, key p.2 = .ok p.1 := by
  have hkeyed : List.Forall₂ (fun a (p : κ × α) => key a = .ok p.1 ∧ p.2 = a) l keyed := by
    refine (mapM_ok.mp h).imp fun a p hp => ?_
    obtain ⟨k,hk,hp⟩ := Runs.bind_ok.mp hp
    obtain rfl := Runs.pure_ok.mp hp
    exact ⟨hk,rfl⟩
  clear h
  induction hkeyed with
  | nil => exact ⟨rfl,by simp⟩
  | cons hp _ ih =>
    obtain ⟨hk,rfl⟩ := hp
    refine ⟨by rw [List.map_cons,ih.1],List.forall_mem_cons.mpr ⟨hk,ih.2⟩⟩

/-- The same elements, in the order of their keys. -/
theorem sortedOn_ok (h : sortedOn key l = .ok out) : out.Perm l ∧
    (∀ a ∈ l, ∃ k, key a = .ok k) ∧
    out.Pairwise fun a b => ∃ j k, key a = .ok j ∧ key b = .ok k ∧ j ≤ k := by
  obtain ⟨keyed,hk,h⟩ := Runs.bind_ok.mp h
  obtain rfl := Runs.pure_ok.mp h
  obtain ⟨hl,hkeys⟩ := mapM_keyed hk
  have hperm := List.perm_insertionSort (fun p q : κ × α => p.1 ≤ q.1) keyed
  refine ⟨hl ▸ hperm.map _,fun a ha => ?_,?_⟩
  · rw [← hl] at ha
    obtain ⟨p,hp,rfl⟩ := List.mem_map.mp ha
    exact ⟨p.1,hkeys p hp⟩
  · have hsorted := List.pairwise_insertionSort (fun p q : κ × α => p.1 ≤ q.1) keyed
    refine List.pairwise_map.mpr (hsorted.imp_of_mem fun hp hq hle => ?_)
    exact ⟨_,_,hkeys _ (hperm.mem_iff.mp hp),hkeys _ (hperm.mem_iff.mp hq),hle⟩

theorem sortedOn_returns (h : ∀ a ∈ l, ∃ k, key a = .ok k) : ∃ out, sortedOn key l = .ok out := by
  obtain ⟨keyed,hk⟩ := mapM_exists (f := fun a => do
    let k ← key a
    pure (k,a)) fun a ha => by
      obtain ⟨k,hk⟩ := h a ha
      exact ⟨(k,a),Runs.bind_ok.mpr ⟨k,hk,rfl⟩⟩
  exact ⟨_,Runs.bind_ok.mpr ⟨keyed,hk,rfl⟩⟩

end

end Spectra
