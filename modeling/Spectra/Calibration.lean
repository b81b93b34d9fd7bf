import Spectra.Ingest

/-! `spectra_vs.calibrate` and the settings of `spectra_vs.liveness`: the phases of a scenario,
the calibrated profile, the gates that bind it to a run, and the threshold it gives. -/
namespace Spectra

open Checker (Library sourcePrefix decimalText u32Max)

def IntegrityClass.text : IntegrityClass → String
  | .chained => "chained"
  | .sequenced => "sequenced"
  | .unlinked => "none"

namespace Liveness

def u64Max : ℤ := 2^64-1

/-! ### Phases -/

/-- One half-open regime of the scenario's phase timeline. -/
structure Phase where
  regimeId : String
  t0Ns : ℤ
  t1Ns : ℤ
  valid : checks [
    (nfc regimeId).map fun _ => (),
    ensure (regimeId ≠ "") (ErrorType.schemaError.mk "Phase.regime_id is mandatory"),
    checkNanos "Phase.t0_ns" t0Ns,
    checkNanos "Phase.t1_ns" t1Ns,
    ensure (t0Ns < t1Ns) (ErrorType.schemaError.mk
      ("Phase "++regimeId++": t1_ns must exceed t0_ns"))] = .ok ()
  deriving DecidableEq

def Phase.contains (p : Phase) (tNs : ℤ) : Bool := p.t0Ns ≤ tNs ∧ tNs < p.t1Ns

/-- The regime of an instant, if some phase has it. -/
def phaseOf (phases : List Phase) (tNs : ℤ) : Option String :=
  (phases.find? (·.contains tNs)).map (·.regimeId)

/-- `check_phases`: ascending, apart and under distinct names. -/
def checkPhases (phases : List Phase) : Fallible Unit := checks [
  checkStrictlyAscending "phases" (phases.map fun p => toLex (p.t0Ns,p.t1Ns)),
  checks ((phases.zip phases.tail).map fun p => ensure (p.1.t1Ns ≤ p.2.t0Ns) (ErrorType.schemaError.mk
    ("phases: "++p.1.regimeId++" overlaps "++p.2.regimeId))),
  ensure (phases.map (·.regimeId)).Nodup (ErrorType.schemaError.mk
    "phases: a regime_id is declared twice")]

/-! ### The encoding of the two artifacts -/

/-- `[A-Za-z0-9_/]+`. -/
def isMapKey (s : String) : Bool :=
  let chars := octets s
  !chars.isEmpty && chars.all fun b => (0x61 ≤ b && b ≤ 0x7a) || (0x41 ≤ b && b ≤ 0x5a) ||
    (0x30 ≤ b && b ≤ 0x39) || b = 0x5f || b = 0x2f

/-- The members whose keys are data. -/
def mapKeyedMembers : List String := ["blind_volume_ns_by_reason","order_statistics"]

mutual

/-- `_scf_check`. -/
def scfCheck (loc : String) (depth : ℕ) (dataKeyed : Bool) (j : Json) : Fallible Unit := do
  ensure (depth ≤ 8) ⟨.canonError,"E-LIMIT-DEPTH",loc++": nesting deeper than 8"⟩
  match j with
  | .null => .error ⟨.canonError,"E-CANON-NULL",loc++": null is never a value; use member absence"⟩
  | .bool _ => .ok ()
  | .scalar _ => .error ⟨.canonError,"E-CANON-FLOAT",loc++": floats are forbidden"⟩
  | .int n => ensure (0 ≤ n ∧ n ≤ u32Max) ⟨.canonError,"E-CANON-WIDTH",loc++": "++toString n++
      " is outside u32; wider integers travel as decimal strings"⟩
  | .str s => (nfc s).map fun _ => ()
  | .list l => scfCheckItems loc depth dataKeyed 0 l
  | .obj m => scfCheckMembers loc depth dataKeyed m

def scfCheckItems (loc : String) (depth : ℕ) (dataKeyed : Bool) : ℕ → List Json → Fallible Unit
  | _, [] => .ok ()
  | index, a::as => do
    scfCheck (loc++"["++toString index++"]") (depth+1) dataKeyed a
    scfCheckItems loc depth dataKeyed (index+1) as

def scfCheckMembers (loc : String) (depth : ℕ) (dataKeyed : Bool) :
    List (String × Json) → Fallible Unit
  | [] => .ok ()
  | (key,v)::m => do
    ensure (if dataKeyed then isMapKey key else Checker.isKey key) (ErrorType.canonError.mk
      (loc++": object key "++key++" does not match"))
    scfCheck (loc++"."++key) (depth+1) (key ∈ mapKeyedMembers) v
    scfCheckMembers loc depth dataKeyed m

end

/-- `scf_bytes`: the canonical bytes of an artifact, with one line feed behind them. -/
def scfBytes (loc : String) (j : Json) : Fallible Bytes := do
  scfCheck loc 0 false j
  pure (j.dumps true++[0x0a])

/-! ### The profile -/

/-- The digits of a member of a quantile. -/
def quantileMember (text : String) (digits : Bytes) : Fallible ℤ :=
  if digits = [] ∨ !digits.all Checker.isDigit then .error (ErrorType.canonError.mk
    ("parse_quantile: "++text++" is not '<p>/<q>' with integer members"))
  else if digits ≠ [0x30] ∧ digits.head? = some 0x30 then .error (ErrorType.canonError.mk
    ("parse_quantile: "++text++" has a leading zero"))
  else if 4300 < digits.length then .error ⟨.uncaught,"ValueError","int"⟩
  else .ok (Checker.fromDigits 10 (digits.map fun b => b.toNat-0x30) : ℕ)

/-- `parse_quantile`: the two integers of `<p>/<q>`. -/
def parseQuantile (text : String) : Fallible (ℤ × ℤ) := do
  let parts := (octets text).splitOn 0x2f
  match parts with
  | [first,second] => do
    let p ← quantileMember text first
    let q ← quantileMember text second
    ensure (q ≠ 0) (ErrorType.canonError.mk ("parse_quantile: "++text++" has a zero denominator"))
    ensure (p ≤ q) (ErrorType.canonError.mk ("parse_quantile: "++text++" exceeds one"))
    pure (p,q)
  | _ => .error (ErrorType.canonError.mk
      ("parse_quantile: "++text++" is not '<p>/<q>' with integer members"))

/-- The calibrated arrival behaviour of one source inside one regime. -/
structure RegimeProfile where
  regimeId : String
  nGaps : ℤ
  orderStatistics : List (String × ℤ)
  minGapNs : ℤ
  maxGapNs : ℤ
  gapDigest : String
  valid : checks [
    (nfc regimeId).map fun _ => (),
    (u32 nGaps).map fun _ => (),
    ensure (1 ≤ nGaps) (ErrorType.schemaError.mk ("RegimeProfile: a regime with no gaps is omitted "
      ++"from the profile, not published with an empty vector")),
    checkStrictlyAscending "order_statistics" (orderStatistics.map (·.1)),
    ensure (orderStatistics ≠ []) (ErrorType.schemaError.mk
      "RegimeProfile.order_statistics is mandatory"),
    checks (orderStatistics.map fun entry => checks [
      (parseQuantile entry.1).map fun _ => (),
      ensure (0 ≤ entry.2 ∧ entry.2 ≤ u64Max) (ErrorType.canonError.mk
        ("RegimeProfile: order statistic "++toString entry.2++" is not u64"))]),
    ensure (0 ≤ minGapNs ∧ minGapNs ≤ u64Max) (ErrorType.canonError.mk
      ("RegimeProfile.min_gap_ns: "++toString minGapNs++" is not u64")),
    ensure (0 ≤ maxGapNs ∧ maxGapNs ≤ u64Max) (ErrorType.canonError.mk
      ("RegimeProfile.max_gap_ns: "++toString maxGapNs++" is not u64")),
    ensure (minGapNs ≤ maxGapNs) (ErrorType.schemaError.mk
      "RegimeProfile: max_gap_ns precedes min_gap_ns"),
    (parseHashRef gapDigest).map fun _ => ()] = .ok ()

def RegimeProfile.orderStatistic (r : RegimeProfile) (level : String) : Option ℤ :=
  Dict.get? r.orderStatistics level

def RegimeProfile.toScf (r : RegimeProfile) : Json := .obj [
  ("gap_digest",.str r.gapDigest),("max_gap_ns",.str (decimalText r.maxGapNs)),
  ("min_gap_ns",.str (decimalText r.minGapNs)),("n_gaps",.int r.nGaps),
  ("order_statistics",.obj (r.orderStatistics.map fun p => (p.1,.str (decimalText p.2)))),
  ("regime_id",.str r.regimeId)]

/-- One source's regimes, in the order of the normal forms of their names; the id is its snake. -/
structure SourceCalibration (lib : Library) where
  source : String
  integrityClass : IntegrityClass
  regimes : List RegimeProfile
  valid : checks [
    ensure (isSnake source) (ErrorType.identifierError.mk "SourceCalibration.source_id"),
    checkStrictlyAscending "regimes" (regimes.map fun r => lib.normalize r.regimeId)] = .ok ()

section

variable {lib : Library}

def SourceCalibration.sourceId (c : SourceCalibration lib) : SourceId := sourcePrefix++c.source

def SourceCalibration.regime (c : SourceCalibration lib) (regimeId : String) : Option RegimeProfile :=
  c.regimes.find? (·.regimeId = regimeId)

def SourceCalibration.toScf (c : SourceCalibration lib) : Json := .obj [
  ("integrity_class",.str c.integrityClass.text),("regimes",.list (c.regimes.map (·.toScf))),
  ("source_id",.str c.source)]

end

/-- The whole calibration artifact. -/
structure SourceProfile (lib : Library) where
  scenarioFamily : String
  generatorConfigHash : String
  degradationSpecHash : String
  calibrationSeedBand : ℤ × ℤ
  referenceBundleHash : String
  referenceRunManifestHash : String
  excludedIntervalsHash : String
  regimeCollapsed : Bool
  sources : List (SourceCalibration lib)
  valid : checks [
    (nfc scenarioFamily).map fun _ => (),
    ensure (scenarioFamily ≠ "") (ErrorType.schemaError.mk
      "SourceProfile.scenario_family is mandatory"),
    checks ([generatorConfigHash,degradationSpecHash,referenceBundleHash,referenceRunManifestHash,
      excludedIntervalsHash].map fun hash => (parseHashRef hash).map fun _ => ()),
    (u32 calibrationSeedBand.1).map fun _ => (),
    (u32 calibrationSeedBand.2).map fun _ => (),
    ensure (calibrationSeedBand.1 ≤ calibrationSeedBand.2) (ErrorType.schemaError.mk
      "SourceProfile.calibration_seed_band is descending"),
    checkStrictlyAscending "sources" (sources.map (·.sourceId))] = .ok ()

namespace SourceProfile

variable {lib : Library}

/-- A source under its prefixed id or its bare snake. -/
def source (profile : SourceProfile lib) (wanted : String) : Option (SourceCalibration lib) :=
  profile.sources.find? fun entry => entry.sourceId = wanted || entry.source = wanted

def body (profile : SourceProfile lib) : Json := .obj [
  ("calibration_seed_band",.list [.int profile.calibrationSeedBand.1,.int profile.calibrationSeedBand.2]),
  ("degradation_spec_hash",.str profile.degradationSpecHash),
  ("excluded_intervals_hash",.str profile.excludedIntervalsHash),
  ("generator_config_hash",.str profile.generatorConfigHash),
  ("reference_bundle_hash",.str profile.referenceBundleHash),
  ("reference_run_manifest_hash",.str profile.referenceRunManifestHash),
  ("regime_collapsed",.bool profile.regimeCollapsed),("scenario_family",.str profile.scenarioFamily),
  ("schema",.str "spectra.source_profile/1"),("sources",.list (profile.sources.map (·.toScf)))]

/-- `SourceProfile.profile_id`: the content address, over the body without the id itself. -/
def profileId (lib : Library) (profile : SourceProfile lib) : Fallible String := do
  pure (lib.hashRef "prof" (← scfBytes "profile_body" profile.body))

end SourceProfile

/-! ### Binding gates -/

/-- The run-side values a profile is compared against. -/
structure BindingContext where
  bundleHash : String
  seed : ℤ
  generatorConfigHash : String
  scenarioFamily : String
  excludedIntervalsHash : String
  valid : checks [
    checks ([bundleHash,generatorConfigHash,excludedIntervalsHash].map fun hash =>
      (parseHashRef hash).map fun _ => ()),
    ensure (0 ≤ seed) (ErrorType.schemaError.mk "BindingContext.seed must be a non-negative int"),
    (nfc scenarioFamily).map fun _ => ()] = .ok ()

structure BindingGateFailure where
  gate : String
  code : String
  detail : String
  deriving DecidableEq, Repr

/-- `identity_spec_hash`: no operators, completeness 1/1. -/
def identitySpecHash (lib : Library) : String :=
  lib.hashRef "degspec" (bigEndian 4 0++bigEndian 4 1++bigEndian 4 1)

/-- Every failure of B1..B6, in gate order. -/
def checkBindingGates (lib : Library) (profile : SourceProfile lib) (context : BindingContext) :
    List BindingGateFailure :=
  let gates : List (Bool × BindingGateFailure) := [
    (profile.referenceBundleHash = context.bundleHash,⟨"B1","PROFILE_SELF_CALIBRATED",
      "the profile was calibrated on the bundle under analysis, so the "
        ++"threshold would rise with the degradation it is meant to detect"⟩),
    (profile.degradationSpecHash ≠ identitySpecHash lib,⟨"B2","PROFILE_FROM_DEGRADED_RUN",
      "the profile was calibrated under a degradation spec other than identity"⟩),
    (profile.calibrationSeedBand.1 ≤ context.seed ∧ context.seed ≤ profile.calibrationSeedBand.2,
      ⟨"B3","PROFILE_SEED_OVERLAP",
        "the run seed "++toString context.seed++" lies inside the calibration band"⟩),
    (profile.generatorConfigHash ≠ context.generatorConfigHash,
      ⟨"B4","PROFILE_CONFIG_MISMATCH","generator config differs"⟩),
    (profile.scenarioFamily ≠ context.scenarioFamily,
      ⟨"B5","PROFILE_FAMILY_MISMATCH","scenario family differs"⟩),
    (profile.excludedIntervalsHash ≠ context.excludedIntervalsHash,
      ⟨"B6","PROFILE_INTERVALS_MISMATCH","excluded intervals differ"⟩)]
  (gates.filter (·.1)).map (·.2)

/-- The first failure ends the run. -/
def requireBindingGates (lib : Library) (profile : SourceProfile lib) (context : BindingContext) :
    Fallible Unit :=
  match checkBindingGates lib profile context with
  | [] => .ok ()
  | first::_ => .error ⟨.profileError,first.code,first.gate++": "++first.detail⟩

/-! ### Settings and thresholds -/

/-- `config/vs/liveness.toml`: integers, and rationals spelled as two of them. -/
structure LivenessConfig where
  quantileNum : ℤ
  quantileDen : ℤ
  slackNum : ℤ
  slackDen : ℤ
  kTail : ℤ
  nFloor : ℤ
  mMin : ℤ
  mcsExactCap : ℤ
  valid : checks [
    checks ([("quantile_num",quantileNum),("quantile_den",quantileDen),("slack_num",slackNum),
      ("slack_den",slackDen),("k_tail",kTail),("n_floor",nFloor),("m_min",mMin),
      ("mcs_exact_cap",mcsExactCap)].map fun entry => checks [
        ensure (0 ≤ entry.2) (ErrorType.schemaError.mk
          ("LivenessConfig."++entry.1++" must be a non-negative int")),
        (u32 entry.2).map fun _ => ()]),
    ensure (quantileDen ≠ 0 ∧ slackDen ≠ 0) (ErrorType.schemaError.mk
      "LivenessConfig: a zero denominator"),
    ensure (quantileNum ≤ quantileDen) (ErrorType.schemaError.mk
      "LivenessConfig: quantile exceeds one"),
    ensure (quantileDen ≠ quantileNum) (ErrorType.schemaError.mk
      ("LivenessConfig: q - p is zero, so n_min would be unbounded; "
        ++"a quantile of one has no tail to require samples from")),
    ensure (1 ≤ mMin) (ErrorType.schemaError.mk "LivenessConfig.m_min must be at least one")] = .ok ()
  deriving DecidableEq

/-- `_ceil_div`; the denominators of a config are positive. -/
def ceilDiv (numerator denominator : ℤ) : ℤ := (numerator+denominator-1)/denominator

namespace LivenessConfig

def quantile (c : LivenessConfig) : String := decimalText c.quantileNum++"/"++decimalText c.quantileDen

def slack (c : LivenessConfig) : String := decimalText c.slackNum++"/"++decimalText c.slackDen

/-- The gaps a regime needs. -/
def nMin (c : LivenessConfig) : ℤ :=
  let tail := ceilDiv (c.kTail*c.quantileDen) (c.quantileDen-c.quantileNum)
  if c.nFloor > tail then c.nFloor else tail

end LivenessConfig

/-- The threshold in u64 nanoseconds, and whether it is the largest number there is. -/
def thresholdFromOrderStatistic (qValue slackNum slackDen : ℤ) : ℤ × Bool :=
  let raw := ceilDiv (qValue*slackNum) slackDen
  if raw > u64Max then (u64Max,true) else (raw,false)

/-- Where a threshold came from. -/
inductive ThresholdProvenance where
  | profile (regime slack profileId : String) (n : ℤ) (p : String)
  | declared (regime slack : String)
  deriving DecidableEq, Repr

def ThresholdProvenance.toScf : ThresholdProvenance → Json
  | .profile regime slack profileId n p => .obj [("kind",.str "profile"),("regime",.str regime),
      ("slack",.str slack),("profile_id",.str profileId),("n",.int n),("p",.str p)]
  | .declared regime slack => .obj [("kind",.str "declared"),("regime",.str regime),
      ("slack",.str slack)]

/-! ### Modes -/

/-- The mode ladder. -/
inductive LivenessMode where
  | f0Calibrated | f1Insufficient | f2NoProfile | f3Declared
  deriving DecidableEq, Repr

def LivenessMode.text : LivenessMode → String
  | .f0Calibrated => "F0_CALIBRATED"
  | .f1Insufficient => "F1_INSUFFICIENT"
  | .f2NoProfile => "F2_NO_PROFILE"
  | .f3Declared => "F3_DECLARED"

/-- How much a mode establishes, weakest first. -/
def LivenessMode.strength : LivenessMode → ℕ
  | .f2NoProfile => 0
  | .f1Insufficient => 1
  | .f3Declared => 2
  | .f0Calibrated => 3

/-- `_weakest_mode`. -/
def weakestMode (modes : List LivenessMode) (noProfile : Bool) : LivenessMode :=
  if noProfile then .f2NoProfile
  else match modes with
    | [] => .f1Insufficient
    | first::rest => rest.foldl (fun weakest mode =>
        if mode.strength < weakest.strength then mode else weakest) first

end Liveness

end Spectra
