import Spectra.Candidates
import Spectra.Encodes
import Spectra.Ground
import Spectra.MissingRecords

/-! The widths an event meets after ingest: an instant of 64 signed bits, a tick of 32 unsigned ones
and a disputed instant of 64. -/
namespace Spectra

open Checker (Library sourcePrefix)

/-! ### Entities -/

/-- Table C, `EntityKind`. -/
def entityKinds : List String := ["account","api_client","credential","file","host","key","netflow",
  "process","resource","service","session","user"]

/-- `EntityId`: the prefix, a kind of the closed twelve and 128 bits. -/
def isEntityId (s : String) : Bool := entityKinds.any fun kind =>
  Checker.hasPrefix ("en:"++kind++":") s &&
    match Checker.hexDigits ((octets s).drop (octets ("en:"++kind++":")).length) with
    | some digits => digits.length = 32
    | none => false

theorem hexDigits_length {l : Bytes} {digits : List ℕ} (h : Checker.hexDigits l = some digits) :
    l.length = digits.length := by
  unfold Checker.hexDigits at h
  induction l generalizing digits with
  | nil => cases h; rfl
  | cons b l ih =>
    rw [List.mapM_cons] at h
    obtain ⟨value,-,h⟩ := Option.bind_eq_some_iff.mp h
    obtain ⟨rest,hrest,h⟩ := Option.bind_eq_some_iff.mp h
    obtain rfl := Option.some.inj h
    rw [List.length_cons,List.length_cons,ih hrest]

theorem entityKinds_ascii : ∀ kind ∈ entityKinds, (octets ("en:"++kind++":")).all (· < 128) = true ∧
    (octets ("en:"++kind++":")).length < 20 := by decide

theorem entityId_encodes {s : String} (h : isEntityId s = true) :
    (∀ b ∈ octets s, b < 128) ∧ (octets s).length < 2^32 := by
  obtain ⟨kind,hkind,h⟩ := List.any_eq_true.mp h
  obtain ⟨hascii,hshort⟩ := entityKinds_ascii kind hkind
  rw [Bool.and_eq_true] at h
  obtain ⟨hopening,h⟩ := h
  obtain ⟨body,hbody⟩ := List.isPrefixOf_iff_prefix.mp hopening
  rw [← hbody,List.drop_left] at h
  split at h
  · rename_i digits hdigits
    have hlength : body.length = 32 := (hexDigits_length hdigits).trans (of_decide_eq_true h)
    rw [← hbody]
    refine ⟨fun b hb => ?_,by rw [List.length_append]; omega⟩
    rcases List.mem_append.mp hb with hb | hb
    · simpa using List.all_eq_true.mp hascii b hb
    · have hb := (Checker.hexDigits_printable hdigits b hb).2
      exact UInt8.lt_iff_toNat_lt.mpr (lt_trans hb (by decide))
  · cases h

/-! ### Events -/

namespace BundleRecord

variable {lib : Library} (e : BundleRecord lib)

theorem seq_range : 0 ≤ e.seq ∧ e.seq < 2^32 := by
  have h := e.valid
  simp only [BundleFields.postInit,checks_cons,ensure_ok] at h
  exact h.2.1

theorem tEvtNs_range : -2^63 ≤ e.tEvtNs ∧ e.tEvtNs < 2^63 := by
  have h := e.valid
  simp only [BundleFields.postInit,checks_cons] at h
  exact checkNanos_range h.2.2.1

/-- The event as grounding reads it. -/
def canonicalEvent : CanonicalEvent where
  eventId := e.eventId
  sourceId := e.sourceId
  seq := e.seq.toNat
  eventType := e.eventType
  tEvtNs := e.tEvtNs
  valid := by
    have hseq := e.seq_range
    have ht := e.tEvtNs_range
    simp only [EventFields.postInit,checks_cons,ensure_ok]
    exact ⟨by omega,ensure_ok.mpr ht,rfl⟩

end BundleRecord

/-! ### Ticks -/

theorem tick_u32 {t : ℤ} : (0 ≤ tickOf t ∧ tickOf t < 2^32) ↔ 0 ≤ t ∧ t < 2^32*tickNs := by
  unfold tickOf tickNs
  omega

variable {D : Digest}

/-- A fact is minted when its arguments, its predicate and its tick are all written. -/
theorem mint_returns_iff {predicate : String} {args : List EntityId} {tick : ℤ}
    (hargs : ∃ b, orderedSeq asciiText args = .ok b) (hpredicate : ∃ b, utf8Text predicate = .ok b) :
    (∃ f, Fact.mint D predicate args tick = .ok f) ↔ 0 ≤ tick ∧ tick < 2^32 := by
  constructor
  · rintro ⟨f,hf⟩
    obtain ⟨rfl,rfl,rfl⟩ := Fact.mint_ok hf
    obtain ⟨payload,hp,-⟩ := f.minted
    obtain ⟨_,_,-,hp,-⟩ := Framing.concat_cons.mp hp
    obtain ⟨_,_,-,hp,-⟩ := Framing.concat_cons.mp hp
    obtain ⟨_,_,htick,-,-⟩ := Framing.concat_cons.mp hp
    unfold u32 uint at htick
    split at htick
    · rename_i h
      exact ⟨h.1,by have := h.2; norm_num at this ⊢; exact this⟩
    · cases htick
  · intro h
    obtain ⟨a,ha⟩ := hargs
    obtain ⟨b,hb⟩ := hpredicate
    obtain ⟨c,hc⟩ : ∃ c, u32 tick = .ok c := uint_returns (by norm_num; exact h)
    obtain ⟨payload,hp⟩ : ∃ payload, factPayload predicate args tick = .ok payload :=
      concat_returns (by simp [ha,hb,hc])
    unfold Fact.mint
    split
    · rename_i h'
      cases hp.symm.trans h'
    · exact ⟨_,validated_ok.mpr ⟨ensure_ok.mpr ⟨h.1,by omega⟩,rfl⟩⟩

/-! ### What is done with an event -/

/-- An instant of 64 signed bits. -/
def IsNanos (t : ℤ) : Prop := -2^63 ≤ t ∧ t < 2^63

/-- The verdict of an interval has the witness it needs, and no other. -/
def Liveness.IntervalFields.Witnessed (i : Liveness.IntervalFields) : Prop :=
  (i.verdict = .suppressed → i.missingSeq ≠ none ∧ i.witness ≠ []) ∧
    (i.verdict ≠ .suppressed → i.missingSeq = none ∧ i.witness = [])

/-- The event is seeded as an axiom, and it is a breakpoint, a bound of an interval and an event
in dispute. -/
structure BundleRecord.Represented {lib : Library} (D : Digest) (e : BundleRecord lib)
    (roles : List (String × EntityId)) : Prop where
  seeded : ∃ fact, axiomFactFor D e.canonicalEvent roles = .ok fact
  breakpoint : ∀ eventTimes phaseBoundaries queryEndpoints t0Ns t1Ns, e.tEvtNs ∈ eventTimes →
    (∀ t ∈ eventTimes++phaseBoundaries++queryEndpoints, t ≠ e.tEvtNs → IsNanos t) → IsNanos t0Ns →
    IsNanos t1Ns → t0Ns ≤ t1Ns →
    ∃ grid, Liveness.breakpoints eventTimes phaseBoundaries queryEndpoints t0Ns t1Ns = .ok grid
  bounds : ∀ i : Liveness.IntervalFields, (i.t0Ns = e.tEvtNs ∧ IsNanos i.t1Ns) ∨
    (IsNanos i.t0Ns ∧ i.t1Ns = e.tEvtNs) → i.t0Ns ≤ i.t1Ns → i.Witnessed →
    ∃ interval, i.construct = .ok interval
  disputed : ∃ d, Liveness.DisputedEvent.construct e.eventId e.sourceId e.tEvtNs = .ok d

variable {lib : Library} {e : BundleRecord lib}

theorem disputed_iff (h : e.Minted lib) :
    (∃ d, Liveness.DisputedEvent.construct e.eventId e.sourceId e.tEvtNs = .ok d) ↔ 0 ≤ e.tEvtNs := by
  obtain ⟨payload,-,hid⟩ := h
  have hopening : Checker.hasPrefix "ev:" e.eventId = true := by
    rw [hid,Checker.hasPrefix,Checker.octets_append]
    exact List.isPrefixOf_iff_prefix.mpr (List.prefix_append _ _)
  have hrange := e.tEvtNs_range
  simp only [Liveness.DisputedEvent.construct,validated_ok,checks_cons,checks_nil,ensure_ok,hopening,true_and,
    and_true]
  constructor
  · rintro ⟨d,h,-⟩
    by_contra hn
    rw [u64,uint,if_neg (fun hw => hn hw.1)] at h
    cases h
  · intro h
    have hu : u64 e.tEvtNs = .ok (bigEndian 8 e.tEvtNs.toNat) := if_pos ⟨h,by norm_num; omega⟩
    exact ⟨_,by rw [hu]; rfl,rfl⟩

theorem breakpoints_returns {eventTimes phaseBoundaries queryEndpoints : List ℤ} {t0Ns t1Ns : ℤ}
    (h : ∀ t ∈ eventTimes++phaseBoundaries++queryEndpoints, IsNanos t) (h0 : IsNanos t0Ns) (h1 : IsNanos t1Ns)
    (hle : t0Ns ≤ t1Ns) :
    ∃ grid, Liveness.breakpoints eventTimes phaseBoundaries queryEndpoints t0Ns t1Ns = .ok grid := by
  have hchecks : checks ((eventTimes++phaseBoundaries++queryEndpoints).map
      (checkNanos "breakpoints")) = .ok () := checks_map.mpr fun t ht => ensure_ok.mpr (h t ht)
  exact ⟨_,Runs.bind_ok.mpr ⟨(),ensure_ok.mpr h0,Runs.bind_ok.mpr ⟨(),ensure_ok.mpr h1,
    Runs.bind_ok.mpr ⟨(),ensure_ok.mpr hle,Runs.bind_ok.mpr ⟨(),hchecks,rfl⟩⟩⟩⟩⟩

theorem interval_returns {i : Liveness.IntervalFields} (h0 : IsNanos i.t0Ns) (h1 : IsNanos i.t1Ns)
    (hle : i.t0Ns ≤ i.t1Ns) (hw : i.Witnessed) : ∃ interval, i.construct = .ok interval := by
  refine ⟨_,validated_ok.mpr ⟨?_,rfl⟩⟩
  simp only [Liveness.IntervalFields.postInit,Interval.postInit,checks_cons,checks_nil,ensure_ok,and_true]
  exact ⟨⟨ensure_ok.mpr h0,ensure_ok.mpr h1,hle⟩,hw⟩

section

variable {rt : Runtime} {raw : Bytes} {sources : List DeclaredSource} {limits : IngestLimits}
  {time : Option ℤ} {result : IngestResult rt.toLibrary}

theorem ingested_minted (h : ingestBytes rt raw sources limits time = .ok result) :
    ∀ e ∈ result.events, e.Minted rt.toLibrary := by
  obtain ⟨⟨declared,kept,hseal⟩,-⟩ := ingestBytes_ok h
  exact sealEvents_minted hseal

/-- The event type of a bundled event is written as it stands. -/
theorem ingested_type (h : ingestBytes rt raw sources limits time = .ok result)
    {e : BundleRecord rt.toLibrary} (he : e ∈ result.events) : ∃ b, utf8Text e.eventType = .ok b := by
  obtain ⟨declared,-,hall⟩ := ingested_admitted h
  obtain ⟨line,-,parsed,source,-,-,hadmitted⟩ := hall e he
  have hnormal : rt.Normal e.eventType := hadmitted.typed.normal
  obtain ⟨payload,hp,-⟩ := ingested_minted h e he
  obtain ⟨_,_,-,hp,-⟩ := Framing.concat_cons.mp hp
  obtain ⟨b,_,hb,-,-⟩ := Framing.concat_cons.mp hp
  rw [Library.utf8Text,hnormal.eq] at hb
  exact ⟨b,hb⟩

/-- Seeding an event succeeds exactly when its tick has 32 bits. -/
theorem seeded_iff {D : Digest} {roles : List (String × EntityId)}
    (h : ingestBytes rt raw sources limits time = .ok result) {e : BundleRecord rt.toLibrary}
    (he : e ∈ result.events) (hroles : ∀ r ∈ roles, isEntityId r.2 = true) (hfew : roles.length < 2^32) :
    (∃ fact, axiomFactFor D e.canonicalEvent roles = .ok fact) ↔
      0 ≤ e.tEvtNs ∧ e.tEvtNs < 2^32*tickNs := by
  refine (mint_returns_iff ?_ (ingested_type h he)).trans tick_u32
  refine concat_returns fun x hx => ?_
  rcases List.mem_cons.mp hx with rfl | hx
  · exact lengthCode_returns (by simpa using hfew)
  · obtain ⟨arg,harg,rfl⟩ := List.mem_map.mp hx
    obtain ⟨r,hr,rfl⟩ := List.mem_map.mp harg
    obtain ⟨hascii,hshort⟩ := entityId_encodes (hroles r ((List.mem_insertionSort _).mp hr))
    exact asciiText_returns hascii hshort

/-- An ingested event can be used wherever it is named exactly when its instant has a tick of 32
bits: none before the epoch, and none from 2106 on. -/
theorem represented_iff (D : Digest) {roles : List (String × EntityId)}
    (h : ingestBytes rt raw sources limits time = .ok result) {e : BundleRecord rt.toLibrary}
    (he : e ∈ result.events) (hroles : ∀ r ∈ roles, isEntityId r.2 = true) (hfew : roles.length < 2^32) :
    e.Represented D roles ↔ 0 ≤ e.tEvtNs ∧ e.tEvtNs < 2^32*tickNs := by
  have hseeded := @seeded_iff _ _ _ _ _ _ D roles h e he hroles hfew
  constructor
  · exact fun hr => hseeded.mp hr.seeded
  · intro ht
    refine ⟨hseeded.mpr ht,?_,?_,(disputed_iff (ingested_minted h e he)).mpr ht.1⟩
    · intro eventTimes phaseBoundaries queryEndpoints t0Ns t1Ns _ hothers h0 h1 hle
      refine breakpoints_returns (fun t hmem => ?_) h0 h1 hle
      by_cases hte : t = e.tEvtNs
      · exact hte ▸ e.tEvtNs_range
      · exact hothers t hmem hte
    · rintro i (⟨h0,h1⟩ | ⟨h0,h1⟩) hle hw
      · exact interval_returns (h0 ▸ e.tEvtNs_range) h1 hle hw
      · exact interval_returns h0 (h1 ▸ e.tEvtNs_range) hle hw

end

section

open Liveness (arrivalRuntime arrivalBytes iamSpec)

/-- The times of the bundle of one record of that time. -/
def recordedTimes (t : ℤ) : Option (List ℤ) :=
  match ingestBytes (arrivalRuntime [(0,t)]) (arrivalBytes [(0,t)]) [iamSpec.toDeclaredSource] {} none with
  | .ok result => some (result.events.map (·.tEvtNs))
  | .error _ => none

theorem recordedTimes_ok {t : ℤ} (h : recordedTimes t = some [t]) : ∃ result,
    ingestBytes (arrivalRuntime [(0,t)]) (arrivalBytes [(0,t)]) [iamSpec.toDeclaredSource] {} none =
      .ok result ∧ ∃ e ∈ result.events, e.tEvtNs = t := by
  unfold recordedTimes at h
  split at h
  · rename_i result hresult
    refine ⟨result,hresult,List.mem_map.mp ?_⟩
    rw [Option.some.inj h]
    exact List.mem_singleton_self t
  · cases h

def lastTime : {t : ℤ // recordedTimes t = some [t]} := ⟨4294967295999999999,by decide +kernel⟩

def priorTime : {t : ℤ // recordedTimes t = some [t]} := ⟨-1,by decide +kernel⟩

end

/-- A record of the last second that has a tick. -/
theorem represented_iff_last : ∃ (result : IngestResult
      (Liveness.arrivalRuntime [(0,4294967295999999999)]).toLibrary) (e : BundleRecord _),
    e ∈ result.events ∧ e.tEvtNs = 4294967295999999999 ∧
    (e.Represented Digest.spelled [("user","en:user:000102030405060708090a0b0c0d0e0f")] ↔
      0 ≤ e.tEvtNs ∧ e.tEvtNs < 2^32*tickNs) := by
  obtain ⟨result,h,e,he,ht⟩ := recordedTimes_ok (t := 4294967295999999999) lastTime.2
  exact ⟨result,e,he,ht,represented_iff Digest.spelled h he (by decide) (by decide)⟩

/-- A record of the nanosecond before the epoch has no tick, and it cannot be disputed. -/
theorem ingested_not_represented : ¬∀ (rt : Runtime) (raw : Bytes) (sources : List DeclaredSource)
    (limits : IngestLimits) (time : Option ℤ) (result : IngestResult rt.toLibrary) (D : Digest)
    (roles : List (String × EntityId)) (e : BundleRecord rt.toLibrary),
    ingestBytes rt raw sources limits time = .ok result → e ∈ result.events →
    (∀ r ∈ roles, isEntityId r.2 = true) → roles.length < 2^32 → e.Represented D roles := by
  intro hall
  obtain ⟨result,h,e,he,ht⟩ := recordedTimes_ok (t := -1) priorTime.2
  obtain ⟨d,hd⟩ := (hall _ _ _ _ _ result Digest.spelled [] e h he (by simp) (by simp)).disputed
  have hepoch := (disputed_iff (ingested_minted h e he)).mp ⟨d,hd⟩
  omega

end Spectra
