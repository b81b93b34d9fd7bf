import Spectra.Calibration

/-! `spectra_vs.liveness`: the document of stage S7 with every field it publishes, its bytes, and
the dispute that marks its sources. -/
namespace Spectra

open Checker (sourcePrefix decimalText)

def LivenessVerdict.text : LivenessVerdict → String
  | .live => "LIVE"
  | .blind => "BLIND"
  | .suppressed => "SUPPRESSED"

namespace Liveness

/-- The closed reason vocabulary. -/
inductive Reason where
  | calibratedOk | forcedNoProfileMode | regimeUnknown | profileInsufficient | thresholdOverflow
  | chainUnverified | unbracketed | windowUndersampled | gapExceedsThreshold | chainSeqGap
  | seqGapUnauthenticated | internalError
  deriving DecidableEq, Repr

def Reason.text : Reason → String
  | .calibratedOk => "L_CALIBRATED_OK"
  | .forcedNoProfileMode => "B_FORCED_NO_PROFILE_MODE"
  | .regimeUnknown => "B_REGIME_UNKNOWN"
  | .profileInsufficient => "B_PROFILE_INSUFFICIENT"
  | .thresholdOverflow => "B_THRESHOLD_OVERFLOW"
  | .chainUnverified => "B_CHAIN_UNVERIFIED"
  | .unbracketed => "B_UNBRACKETED"
  | .windowUndersampled => "B_WINDOW_UNDERSAMPLED"
  | .gapExceedsThreshold => "B_GAP_EXCEEDS_THRESHOLD"
  | .chainSeqGap => "S_CHAIN_SEQ_GAP"
  | .seqGapUnauthenticated => "S_SEQ_GAP_UNAUTHENTICATED"
  | .internalError => "B_INTERNAL_ERROR"

/-! ### Timelines -/

structure IntervalFields where
  t0Ns : ℤ
  t1Ns : ℤ
  verdict : LivenessVerdict
  reason : Reason
  missingSeq : Option (ℤ × ℤ)
  witness : List EventId
  deriving DecidableEq, Repr

def IntervalFields.postInit (i : IntervalFields) : Fallible Unit := checks [
  Interval.postInit i.t0Ns i.t1Ns,
  ensure (i.verdict = .suppressed → i.missingSeq ≠ none ∧ i.witness ≠ []) (ErrorType.schemaError.mk
    ("LivenessInterval: a SUPPRESSED interval carries missing_seq and its two bracketing "
      ++"record ids")),
  ensure (i.verdict ≠ .suppressed → i.missingSeq = none ∧ i.witness = []) (ErrorType.schemaError.mk
    ("LivenessInterval: missing_seq and witness belong to SUPPRESSED only; a BLIND interval "
      ++"carries a reason and no witness"))]

/-- One run of elementary intervals that share a verdict and a reason. -/
structure LivenessInterval extends IntervalFields where
  valid : toIntervalFields.postInit = .ok ()
  deriving DecidableEq

def IntervalFields.construct (i : IntervalFields) : Fallible LivenessInterval :=
  validated i.postInit fun h => ⟨i,h⟩

/-- `LivenessInterval.to_scf`. -/
def IntervalFields.toScf (i : IntervalFields) : Json := .obj ([("reason",.str i.reason.text),
  ("t0_ns",.str (decimalText i.t0Ns)),("t1_ns",.str (decimalText i.t1Ns)),
  ("verdict",.str i.verdict.text)]++
    (i.missingSeq.toList.map fun p => ("missing_seq",.list [.int p.1,.int p.2]))++
    if i.witness = [] then [] else [("witness",Checker.texts i.witness)])

structure TimelineFields where
  source : String
  integrityClass : IntegrityClass
  mode : LivenessMode
  intervals : List LivenessInterval
  blindVolumeNsByReason : List (Reason × ℤ)
  suppressedVolumeNs : ℤ
  thresholdNs : Option ℤ
  thresholdProvenance : Option ThresholdProvenance
  regimeThresholds : List (String × ℤ)
  tamperSuspected : Bool
  deriving DecidableEq

def TimelineFields.postInit (s : TimelineFields) : Fallible Unit := checks [
  ensure (isSnake s.source) (ErrorType.identifierError.mk "SourceLiveness.source_id"),
  checkStrictlyAscending "intervals" (s.intervals.map fun i => toLex (i.t0Ns,i.t1Ns)),
  ensure (s.intervals.IsChain fun i j => i.t1Ns = j.t0Ns) (ErrorType.schemaError.mk
    ("SourceLiveness "++s.source++": intervals are not contiguous")),
  checkStrictlyAscending "blind_volume_ns_by_reason" (s.blindVolumeNsByReason.map (·.1.text)),
  ensure (s.thresholdNs.isSome = s.thresholdProvenance.isSome) (ErrorType.schemaError.mk
    "SourceLiveness: a threshold and its provenance are present or absent together"),
  ensure (s.mode = .f1Insufficient ∨ s.mode = .f2NoProfile → s.thresholdNs = none)
    (ErrorType.schemaError.mk
      ("SourceLiveness "++s.source++": "++s.mode.text++" publishes no threshold"))]

/-- One source's timeline: ascending, each interval beginning where the one before it ended. -/
structure SourceLiveness extends TimelineFields where
  valid : toTimelineFields.postInit = .ok ()
  deriving DecidableEq

def TimelineFields.construct (s : TimelineFields) : Fallible SourceLiveness :=
  validated s.postInit fun h => ⟨s,h⟩

def TimelineFields.sourceId (s : TimelineFields) : SourceId := sourcePrefix++s.source

/-- `SourceLiveness.to_scf`. -/
def TimelineFields.toScf (s : TimelineFields) : Json := .obj ([
  ("blind_volume_ns_by_reason",.obj (s.blindVolumeNsByReason.map fun p =>
    (p.1.text,.str (decimalText p.2)))),
  ("integrity_class",.str s.integrityClass.text),("intervals",.list (s.intervals.map (·.toScf))),
  ("mode",.str s.mode.text),("source_id",.str s.source),
  ("suppressed_volume_ns",.str (decimalText s.suppressedVolumeNs)),
  ("tamper_suspected",.bool s.tamperSuspected)]++
  match s.thresholdNs, s.thresholdProvenance with
  | some threshold, some provenance => [("threshold_ns",.str (decimalText threshold)),
      ("threshold_provenance",provenance.toScf)]
  | _, _ => [])

/-! ### The document -/

structure LivenessFlags where
  livenessUncalibrated : Bool
  livenessUnauthenticated : Bool
  blindByDefault : Bool
  profileRegimeCollapsed : Bool
  verdictTamperSensitive : Bool
  mcsGreedy : Bool
  deriving DecidableEq, Repr

def LivenessFlags.toScf (f : LivenessFlags) : Json := .obj [
  ("blind_by_default",.bool f.blindByDefault),
  ("liveness_unauthenticated",.bool f.livenessUnauthenticated),
  ("liveness_uncalibrated",.bool f.livenessUncalibrated),("mcs_greedy",.bool f.mcsGreedy),
  ("profile_regime_collapsed",.bool f.profileRegimeCollapsed),
  ("verdict_tamper_sensitive",.bool f.verdictTamperSensitive)]

/-- One event whose timestamp the temporal pass could not believe; its source is bare. -/
structure DisputedEvent where
  eventId : EventId
  source : String
  tEvtNs : ℤ
  valid : checks [
    ensure (Checker.hasPrefix "ev:" eventId) (ErrorType.schemaError.mk
      "DisputedEvent.event_id is an ev: identifier"),
    (u64 tEvtNs).map fun _ => ()] = .ok ()
  deriving DecidableEq

/-- The constructor takes the prefix off the source. -/
def DisputedEvent.construct (eventId : EventId) (sourceId : String) (tEvtNs : ℤ) :
    Fallible DisputedEvent :=
  validated _ fun h => ⟨eventId,Checker.removePrefix sourcePrefix sourceId,tEvtNs,h⟩

def DisputedEvent.toScf (d : DisputedEvent) : Json := .obj [("event_id",.str d.eventId),
  ("source_id",.str d.source),("t_evt_ns",.str (decimalText d.tEvtNs))]

structure DocumentFields where
  modeGlobal : LivenessMode
  quantile : String
  slack : String
  nMin : ℤ
  mMin : ℤ
  sources : List SourceLiveness
  flags : LivenessFlags
  profileId : Option String
  disputedEvents : List DisputedEvent
  deriving DecidableEq

def DocumentFields.postInit (d : DocumentFields) : Fallible Unit := checks [
  (parseQuantile d.quantile).map fun _ => (),
  (u32 d.nMin).map fun _ => (),
  (u32 d.mMin).map fun _ => (),
  checkStrictlyAscending "sources" (d.sources.map (·.sourceId)),
  checks (d.profileId.toList.map fun id => (parseHashRef id).map fun _ => ()),
  ensure (d.modeGlobal = .f2NoProfile → d.profileId = none) (ErrorType.schemaError.mk
    "LivenessDocument: F2_NO_PROFILE names no profile")]

/-- `runs/<id>/liveness.json`. -/
structure LivenessDocument extends DocumentFields where
  valid : toDocumentFields.postInit = .ok ()
  deriving DecidableEq

def DocumentFields.construct (d : DocumentFields) : Fallible LivenessDocument :=
  validated d.postInit fun h => ⟨d,h⟩

namespace DocumentFields

variable (d : DocumentFields)

/-- A source under its prefixed id or its bare snake. -/
def sourceEntry (wanted : String) : Option SourceLiveness :=
  d.sources.find? fun entry => entry.sourceId = wanted || entry.source = wanted

/-- `LivenessDocument.to_scf`. -/
def toScf : Json := .obj ([("flags",d.flags.toScf),("m_min",.int d.mMin),
  ("mode_global",.str d.modeGlobal.text),("n_min",.int d.nMin),("quantile",.str d.quantile),
  ("schema",.str "spectra.liveness/3"),
  ("disputed_events",.list (d.disputedEvents.map (·.toScf))),("slack",.str d.slack),
  ("sources",.list (d.sources.map (·.toScf)))]++
  d.profileId.toList.map fun id => ("profile_id",.str id))

def canonicalBytes : Fallible Bytes := scfBytes "liveness" d.toScf

end DocumentFields

/-! ### Disputes -/

/-- The sources of the disputed events are marked, and nothing is removed. -/
def applyTemporalDispute (document : LivenessDocument) (disputed : List DisputedEvent) :
    Fallible LivenessDocument :=
  if disputed = [] then .ok document
  else do
    let ordered := disputed.reverse.dedup.reverse.insertionSort (·.eventId ≤ ·.eventId)
    let suspected := ordered.map (·.source)
    let sources ← document.sources.mapM fun entry : SourceLiveness =>
      if entry.sourceId ∈ suspected ∨ entry.source ∈ suspected then
        {entry.toTimelineFields with tamperSuspected := true}.construct
      else Except.ok entry
    {document.toDocumentFields with
      sources := sources
      disputedEvents := ordered}.construct

/-- Some disputed instant of the source lies in the closed interval. -/
def licenceDisputed (document : LivenessDocument) (sourceId : String) (t0Ns t1Ns : ℤ) : Bool :=
  document.disputedEvents.any fun event => event.source = Checker.removePrefix sourcePrefix sourceId &&
    (t0Ns ≤ event.tEvtNs && event.tEvtNs ≤ t1Ns)

end Liveness

end Spectra
