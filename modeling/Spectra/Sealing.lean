import Spectra.Ingest
import Spectra.Preimages

/-! What sealing leaves: an event of the bundle carries the id its content mints, and no two
events mint one id unless the digest collides. -/
namespace Spectra

open Checker (Library)

/-! ### The octets of an event -/

theorem asciiText_blob {s : String} {b : Bytes} (h : asciiText s = .ok b) : blob (octets s) = .ok b := by
  unfold asciiText at h
  split at h
  · exact h
  · cases h

theorem utf8Text_blob {s : String} {b : Bytes} (h : utf8Text s = .ok b) : ∃ t, blob (octets t) = .ok b := by
  unfold utf8Text at h
  split at h
  · cases h
  · exact ⟨_,h⟩

theorem encodeKey_blob {lib : Library} {key : String} {b : Bytes} (h : lib.encodeKey key = .ok b) :
    ∃ t, blob (octets t) = .ok b := by
  unfold Library.encodeKey at h
  split at h
  · exact ⟨key,asciiText_blob h⟩
  · exact utf8Text_blob h

/-- A key and a value, each behind its length. -/
def blobPair (p : Bytes × Bytes) : Fallible Bytes := Framing.concat [blob p.1,blob p.2]

theorem blobPair_selfDelimiting : Framing.SelfDelimiting blobPair := by
  intro a b p q x y ha hb hxy
  obtain ⟨hfst,_,_,ha,hb,hxy⟩ := blob_selfDelimiting.peel ha hb hxy
  obtain ⟨hsnd,_,_,ha,hb,hxy⟩ := blob_selfDelimiting.peel ha hb hxy
  obtain rfl := Except.ok.inj ha
  obtain rfl := Except.ok.inj hb
  exact ⟨Prod.ext hfst hsnd,hxy⟩

def blobPairs : List (Bytes × Bytes) → Fallible Bytes :=
  Framing.counted (fun count : ℕ => u32 count) blobPair

theorem blobPairs_selfDelimiting : Framing.SelfDelimiting blobPairs :=
  Framing.SelfDelimiting.counted ((uint_selfDelimiting "u32" 4).comp Nat.cast_injective)
    blobPair_selfDelimiting

/-- The attributes are encoded as some pairs of blobs. -/
theorem pairs_blobs {lib : Library} {attrs : List (String × String)} {b : Bytes}
    (h : lib.pairs attrs = .ok b) : ∃ blobs, blobPairs blobs = .ok b := by
  obtain ⟨encoded,he,h⟩ := Runs.bind_ok.mp h
  obtain ⟨_,-,h⟩ := Runs.bind_ok.mp h
  obtain ⟨count,hcount,h⟩ := Runs.bind_ok.mp h
  have hpair : ∀ p ∈ encoded.insertionSort (·.1 ≤ ·.1), ∃ q, blobPair q = .ok (p.1++p.2) := by
    intro p hp
    obtain ⟨a,-,ha⟩ : ∃ a ∈ attrs, lib.encodePair a = .ok p := by
      have hmem := (List.mem_insertionSort _).mp hp
      obtain ⟨i,hi,rfl⟩ := List.getElem_of_mem hmem
      have hf := mapM_ok.mp he
      exact ⟨_,List.getElem_mem (hf.length_eq ▸ hi),(List.forall₂_iff_get.mp hf).2 i (hf.length_eq ▸ hi) hi⟩
    obtain ⟨key,hkey,ha⟩ := Runs.bind_ok.mp ha
    obtain ⟨value,hvalue,ha⟩ := Runs.bind_ok.mp ha
    obtain rfl := Runs.pure_ok.mp ha
    obtain ⟨k,hk⟩ := encodeKey_blob hkey
    obtain ⟨v,hv⟩ := utf8Text_blob hvalue
    exact ⟨(octets k,octets v),by simp [blobPair,Framing.concat,hk,hv]⟩
  generalize encoded.insertionSort (·.1 ≤ ·.1) = sorted at hpair hcount h
  obtain ⟨blobs,hblobs⟩ : ∃ blobs, List.Forall₂ (fun q p => blobPair q = .ok (p.1++p.2)) blobs sorted := by
    clear hcount h
    induction sorted with
    | nil => exact ⟨[],.nil⟩
    | cons p sorted ih =>
      obtain ⟨q,hq⟩ := hpair p (by simp)
      obtain ⟨blobs,hblobs⟩ := ih fun r hr => hpair r (by simp [hr])
      exact ⟨q::blobs,.cons hq hblobs⟩
  refine ⟨blobs,concat_ok.mpr ⟨count::sorted.map fun p => p.1++p.2,.cons ?_ ?_,?_⟩⟩
  · rw [hblobs.length_eq]
    exact hcount
  · rw [List.forall₂_map_left_iff,List.forall₂_map_right_iff]
    exact hblobs
  · rw [← Runs.pure_ok.mp h,List.flatten_cons,← List.flatMap_def]

namespace BundleFields

variable {lib : Library} {e e' : BundleFields}

/-- The octets tell the time, the source and the sequence number. -/
theorem identityBytes_inj {b : Bytes} (h : e.identityBytes lib = .ok b)
    (h' : e'.identityBytes lib = .ok b) :
    e.seq = e'.seq ∧ e.sourceId = e'.sourceId ∧ e.tEvtNs = e'.tEvtNs := by
  simp only [identityBytes,Framing.concat_cons] at h h'
  obtain ⟨p₁,_,h₁,⟨p₂,_,h₂,⟨p₃,_,h₃,⟨p₄,_,h₄,⟨p₅,_,h₅,hnil,rfl⟩,rfl⟩,rfl⟩,rfl⟩,rfl⟩ := h
  obtain ⟨q₁,_,h₁',⟨q₂,_,h₂',⟨q₃,_,h₃',⟨q₄,_,h₄',⟨q₅,_,h₅',hnil',rfl⟩,rfl⟩,rfl⟩,rfl⟩,hb⟩ := h'
  obtain ⟨blobs,hblobs⟩ := pairs_blobs h₁
  obtain ⟨blobs',hblobs'⟩ := pairs_blobs h₁'
  obtain ⟨-,hb⟩ := blobPairs_selfDelimiting _ _ _ _ _ _ hblobs hblobs' hb
  obtain ⟨-,hb⟩ := utf8Text_selfDelimiting _ _ _ _ _ _ h₂ h₂' hb
  obtain ⟨hseq,hb⟩ := uint_selfDelimiting "u32" 4 _ _ _ _ _ _ h₃ h₃' hb
  obtain ⟨hsource,hb⟩ := asciiText_selfDelimiting _ _ _ _ _ _ h₄ h₄' hb
  exact ⟨hseq,hsource,(i64_selfDelimiting _ _ _ _ _ _ h₅ h₅' hb).1⟩

/-- The id is the one the content mints. -/
def Minted (lib : Library) (e : BundleFields) : Prop :=
  ∃ payload, e.identityBytes lib = .ok payload ∧ e.eventId = "ev:"++lib.digestHex "ev" payload 16

end BundleFields

/-- The digest tells the contents of the listed events apart. -/
def Checker.Library.TellsApart (lib : Library) (events : List BundleFields) : Prop :=
  ∀ e ∈ events, ∀ e' ∈ events, ∀ p p', e.identityBytes lib = .ok p → e'.identityBytes lib = .ok p' →
    lib.digestHex "ev" p 16 = lib.digestHex "ev" p' 16 → p = p'

/-! ### Sealing -/

section

variable {lib : Library} {declared : List (String × DeclaredSource)}

theorem construct_ok {e : BundleFields} {r : BundleRecord lib} (h : e.construct lib = .ok r) :
    r.toBundleFields = e := by
  obtain ⟨_,rfl⟩ := validated_ok.mp h
  rfl

theorem unsealedEvent_minted {time : Option ℤ} {c : Candidate} {e : BundleRecord lib}
    (h : unsealedEvent lib time c = .ok e) : e.Minted lib := by
  obtain ⟨payload,hp,h⟩ := Runs.bind_ok.mp h
  rw [construct_ok h]
  exact ⟨payload,hp,rfl⟩

/-- Sealing adds the event, and may set its two hashes. -/
theorem sealNext_ok {st t : List (String × String) × List (BundleRecord lib)} {e : BundleRecord lib}
    (h : sealNext lib declared st e = .ok t) : ∃ linked hash prev, t.2 = st.2++[linked] ∧
      linked.toBundleFields = {e.toBundleFields with chainHash := hash,chainPrev := prev} := by
  unfold sealNext at h
  split at h
  · cases h
  · split at h
    · cases h
      exact ⟨e,_,_,rfl,rfl⟩
    · obtain ⟨prev,-,h⟩ := Runs.bind_ok.mp h
      obtain ⟨hash,-,h⟩ := Runs.bind_ok.mp h
      obtain ⟨linked,hl,h⟩ := Runs.bind_ok.mp h
      obtain rfl := Runs.pure_ok.mp h
      exact ⟨linked,_,_,rfl,construct_ok (ingested_ok.mp hl)⟩

variable {time : Option ℤ} {candidates : List Candidate} {events : List (BundleRecord lib)}

theorem sealEvents_minted (h : sealEvents lib declared time candidates = .ok events) :
    ∀ e ∈ events, e.Minted lib := by
  obtain ⟨unsealed,hu,h⟩ := Runs.bind_ok.mp h
  obtain ⟨⟨_,sealed⟩,hs,h⟩ := Runs.bind_ok.mp h
  obtain ⟨_,-,h⟩ := Runs.bind_ok.mp h
  obtain rfl := Runs.pure_ok.mp h
  have hordered : ∀ e ∈ unsealed.insertionSort (·.sortKey ≤ ·.sortKey), e.Minted lib := by
    intro e he
    have hf := mapM_ok.mp hu
    obtain ⟨i,hi,rfl⟩ := List.getElem_of_mem ((List.mem_insertionSort _).mp he)
    have := (List.forall₂_iff_get.mp hf).2 i (hf.length_eq ▸ hi) hi
    exact unsealedEvent_minted (ingested_ok.mp this)
  refine Runs.foldlM_inv (P := fun st => ∀ e ∈ st.2, e.Minted lib) ?_ (by simp) hs
  intro st e t he hst ht
  obtain ⟨linked,hash,prev,hl,hfields⟩ := sealNext_ok ht
  intro x hx
  rw [hl,List.mem_append,List.mem_singleton] at hx
  rcases hx with hx | rfl
  · exact hst x hx
  · obtain ⟨payload,hp,hid⟩ := hordered e he
    rw [hfields]
    exact ⟨payload,hp,hid⟩

theorem sealEvents_ascending (h : sealEvents lib declared time candidates = .ok events) :
    (events.map (·.sortKey)).Pairwise (· < ·) := by
  obtain ⟨unsealed,-,h⟩ := Runs.bind_ok.mp h
  obtain ⟨⟨_,sealed⟩,-,h⟩ := Runs.bind_ok.mp h
  obtain ⟨_,ha,h⟩ := Runs.bind_ok.mp h
  obtain rfl := Runs.pure_ok.mp h
  exact checkStrictlyAscending_ok.mp (ingested_ok.mp ha)

/-- The ids of a bundle are distinct when the digest tells its events apart. -/
theorem sealEvents_ids (h : sealEvents lib declared time candidates = .ok events)
    (ht : lib.TellsApart (events.map (·.toBundleFields))) : (events.map (·.eventId)).Nodup := by
  have hminted := sealEvents_minted h
  refine List.pairwise_map.mpr ((List.pairwise_map.mp (sealEvents_ascending h)).imp_of_mem ?_)
  intro e e' he he' hlt hid
  obtain ⟨p,hp,hep⟩ := hminted e he
  obtain ⟨p',hp',hep'⟩ := hminted e' he'
  have hdigest : lib.digestHex "ev" p 16 = lib.digestHex "ev" p' 16 := by
    rw [hep,hep'] at hid
    exact (String.append_right_inj _).mp hid
  obtain rfl := ht _ (List.mem_map_of_mem he) _ (List.mem_map_of_mem he') p p' hp hp' hdigest
  obtain ⟨hseq,hsource,htime⟩ := BundleFields.identityBytes_inj hp hp'
  have hkey : e.sortKey = e'.sortKey := by
    rw [BundleFields.sortKey,BundleFields.sortKey,hseq,hsource,htime,hid]
  exact absurd hlt (by rw [hkey]; exact lt_irrefl _)

end

end Spectra
