import Spectra.Windows

/-! `spectra_vs.liveness.build_liveness_document`: the threshold of each regime, every source over
every elementary interval, the merge into runs and the artifact. -/
namespace Spectra

open Checker (Library sourcePrefix)
open Timeline (Piece)

/-- The order records of one source are read in. -/
def BundleFields.arrivalKey (e : BundleFields) : ℤ ×ₗ ℤ ×ₗ EventId :=
  toLex (e.tEvtNs,toLex (e.seq,e.eventId))

namespace Liveness

/-- One declared source and the bundle records it produced; the id is its snake. -/
structure SourceInput (lib : Library) where
  source : String
  integrityClass : IntegrityClass
  events : List (BundleRecord lib)
  nominalPeriodNs : Option ℤ
  valid : checks [
    ensure (isSnake source) (ErrorType.identifierError.mk "SourceInput.source_id"),
    ensure (∀ n ∈ nominalPeriodNs, 0 < n) (ErrorType.schemaError.mk
      "SourceInput.nominal_period_ns must be positive when present")] = .ok ()

def SourceInput.sourceId {lib : Library} (s : SourceInput lib) : SourceId := sourcePrefix++s.source

/-- What the build is given besides the sources and the query endpoints. -/
structure BuildInputs (lib : Library) where
  config : LivenessConfig
  phases : List Phase
  scenarioT0Ns : ℤ
  scenarioT1Ns : ℤ
  profile : Option (SourceProfile lib)
  bindingContext : Option BindingContext
  noProfile : Bool
  allowDeclaredProfile : Bool
  chainVerifier : ChainVerifier lib

section

variable {lib : Library}

/-- `_sorted_events`. -/
def sortedEvents (events : List (BundleRecord lib)) : List (BundleRecord lib) :=
  events.insertionSort (·.arrivalKey ≤ ·.arrivalKey)

/-! ### The threshold of a regime -/

structure RegimeThreshold where
  mode : LivenessMode
  thresholdNs : Option ℤ
  saturated : Bool
  provenance : Option ThresholdProvenance
  deriving DecidableEq, Repr

/-- What the profile, under its id, gives a regime that has enough gaps. -/
def calibratedThreshold (profile : SourceProfile lib) (profileId : String) (source : SourceInput lib)
    (regimeId : String) (config : LivenessConfig) : Option RegimeThreshold := do
  let entry ← profile.source source.source
  let regime ← entry.regime regimeId
  guard (config.nMin ≤ regime.nGaps)
  let qValue ← regime.orderStatistic config.quantile
  let (threshold,saturated) := thresholdFromOrderStatistic qValue config.slackNum config.slackDen
  some ⟨.f0Calibrated,some threshold,saturated,
    some (.profile regimeId config.slack profileId regime.nGaps config.quantile)⟩

/-- What a declared period gives, when declared periods were allowed. -/
def declaredThreshold (source : SourceInput lib) (regimeId : String) (config : LivenessConfig)
    (allowDeclaredProfile : Bool) : Option RegimeThreshold := do
  guard allowDeclaredProfile
  let period ← source.nominalPeriodNs
  let (threshold,saturated) := thresholdFromOrderStatistic period config.slackNum config.slackDen
  some ⟨.f3Declared,some threshold,saturated,some (.declared regimeId config.slack)⟩

/-- `_regime_threshold`. -/
def regimeThreshold (inputs : BuildInputs lib) (profile : Option (SourceProfile lib × String))
    (source : SourceInput lib) (regimeId : String) : RegimeThreshold :=
  match profile.bind fun p => calibratedThreshold p.1 p.2 source regimeId inputs.config with
  | some entry => entry
  | none => (declaredThreshold source regimeId inputs.config inputs.allowDeclaredProfile).getD
      ⟨.f1Insufficient,none,false,none⟩

/-! ### The elementary intervals of one source -/

/-- The thresholds looked up so far, the outcomes so far and the modes used so far. -/
structure SourceWalk where
  cache : List (String × RegimeThreshold)
  outcomes : List (Piece ℤ Outcome)
  modesUsed : List LivenessMode

/-- The cached threshold of a regime, computed at its first use. -/
def cachedThreshold (cache : List (String × RegimeThreshold)) (regime : String)
    (fresh : RegimeThreshold) : RegimeThreshold × List (String × RegimeThreshold) :=
  match Dict.get? cache regime with
  | some entry => (entry,cache)
  | none => (fresh,Dict.set cache regime fresh)

/-- `_observe_and_mode` and the classification of one elementary interval. -/
def walkInterval (inputs : BuildInputs lib) (profile : Option (SourceProfile lib × String))
    (source : SourceInput lib) (walk : SourceWalk) (p : ℤ × ℤ) : SourceWalk :=
  let events := sortedEvents source.events
  let observation := observeWindow events (events.map (·.tEvtNs)) p.1 p.2 inputs.phases
    source.integrityClass inputs.chainVerifier
  let judge (mode : LivenessMode) (threshold : Option ℤ) (saturated : Bool) : Piece ℤ Outcome :=
    ⟨p.1,p.2,classify observation mode threshold saturated source.integrityClass inputs.config.mMin⟩
  match observation.regime with
  | none =>
    let mode := if inputs.noProfile then .f2NoProfile else .f1Insufficient
    {walk with outcomes := walk.outcomes++[judge mode none false]}
  | some regime =>
    if inputs.noProfile then
      {walk with
        outcomes := walk.outcomes++[judge .f2NoProfile none false]
        modesUsed := walk.modesUsed++[.f2NoProfile]}
    else
      let (entry,cache) := cachedThreshold walk.cache regime
        (regimeThreshold inputs profile source regime)
      { cache := cache
        outcomes := walk.outcomes++[judge entry.mode entry.thresholdNs entry.saturated]
        modesUsed := walk.modesUsed++[entry.mode] }

/-- The last interval takes in a piece of the same outcome that starts where it ends. -/
def mergeStep (merged : List LivenessInterval) (p : Piece ℤ Outcome) :
    Fallible (List LivenessInterval) :=
  let fresh : IntervalFields :=
    ⟨p.start,p.stop,p.label.verdict,p.label.reason,p.label.missingSeq,p.label.witness⟩
  match merged.getLast? with
  | none => do pure [← fresh.construct]
  | some last =>
    if (last.verdict = p.label.verdict ∧ last.reason = p.label.reason ∧
        last.missingSeq = p.label.missingSeq ∧ last.witness = p.label.witness) ∧
        last.t1Ns = p.start then do
      pure (merged.dropLast++[← {last.toIntervalFields with t1Ns := p.stop}.construct])
    else do pure (merged++[← fresh.construct])

/-- `_merge`. -/
def mergeOutcomes (outcomes : List (Piece ℤ Outcome)) : Fallible (List LivenessInterval) :=
  outcomes.foldlM mergeStep []

def IntervalFields.durationNs (i : IntervalFields) : ℤ := i.t1Ns-i.t0Ns

/-- The blind time of each reason, in the order of the reasons' texts. -/
def blindVolume (intervals : List LivenessInterval) : List (Reason × ℤ) :=
  ((intervals.filter (·.verdict = .blind)).foldl (fun d i =>
    Dict.set d i.reason ((Dict.get? d i.reason).getD 0+i.durationNs)) []).insertionSort
      (·.1.text ≤ ·.1.text)

def suppressedVolume (intervals : List LivenessInterval) : ℤ :=
  ((intervals.filter (·.verdict = .suppressed)).map (·.durationNs)).sum

/-- The thresholds of the cache that are there, in the order of their regimes. -/
def publishedThresholds (cache : List (String × RegimeThreshold)) : List (String × ℤ) :=
  ((cache.filterMap fun p => p.2.thresholdNs.map (p.1,·)).dedup).insertionSort
    fun p q => toLex p ≤ toLex q

/-- The one threshold of a source that used one regime, unless it is saturated. -/
def onlyThreshold : List (String × RegimeThreshold) → Option (ℤ × ThresholdProvenance)
  | [(_,⟨_,some threshold,false,some provenance⟩)] => some (threshold,provenance)
  | _ => none

/-- The timeline of one source. -/
def buildSource (inputs : BuildInputs lib) (profile : Option (SourceProfile lib × String))
    (phaseBounds queryEndpoints : List ℤ) (source : SourceInput lib) : Fallible SourceLiveness := do
  let events := sortedEvents source.events
  let grid ← breakpoints (events.map (·.tEvtNs)) phaseBounds queryEndpoints inputs.scenarioT0Ns
    inputs.scenarioT1Ns
  let walk := (grid.zip grid.tail).foldl (walkInterval inputs profile source) ⟨[],[],[]⟩
  let intervals ← mergeOutcomes walk.outcomes
  let published := onlyThreshold walk.cache
  TimelineFields.construct
    { source := source.source
      integrityClass := source.integrityClass
      mode := weakestMode walk.modesUsed inputs.noProfile
      intervals := intervals
      blindVolumeNsByReason := blindVolume intervals
      suppressedVolumeNs := suppressedVolume intervals
      thresholdNs := published.map (·.1)
      thresholdProvenance := published.map (·.2)
      regimeThresholds := publishedThresholds walk.cache
      tamperSuspected := false }

end

/-! ### The document -/

section

variable (lib : Library)

/-- The profile of a run, bound to it, or the statement that it has none. -/
def boundProfile (inputs : BuildInputs lib) : Fallible Unit := do
  ensure (¬(inputs.noProfile = true ∧ inputs.profile.isSome)) (ErrorType.profileError.mk
    "build_liveness_document: --no-profile and a profile are mutually exclusive")
  ensure (inputs.noProfile = true ∨ inputs.profile.isSome) (ErrorType.profileError.mk
    ("build_liveness_document: pass a profile or state --no-profile; proceeding "
      ++"without saying which would hide an uncalibrated run"))
  match inputs.profile with
  | none => pure ()
  | some profile => match inputs.bindingContext with
    | none => .error (ErrorType.profileError.mk
        ("build_liveness_document: a profile requires the run values that gates "
          ++"B1..B6 compare it against"))
    | some context => requireBindingGates lib profile context

/-- The flags of the sources as built. -/
def documentFlags (inputs : BuildInputs lib) (built : List SourceLiveness) : LivenessFlags where
  livenessUncalibrated := built.any fun entry =>
    entry.mode = .f1Insufficient || entry.mode = .f3Declared
  livenessUnauthenticated := built.any fun entry => entry.intervals.any fun i =>
    i.verdict = .suppressed && i.reason = .seqGapUnauthenticated
  blindByDefault := inputs.noProfile
  profileRegimeCollapsed := inputs.profile.any (·.regimeCollapsed)
  verdictTamperSensitive := false
  mcsGreedy := false

/-- `build_liveness_document`; the excluded intervals it is given are not read. -/
def buildLivenessDocument (inputs : BuildInputs lib) (sources : List (SourceInput lib))
    (queryEndpoints : List ℤ) : Fallible LivenessDocument := do
  boundProfile lib inputs
  checkPhases inputs.phases
  checkNanos "scenario_t0_ns" inputs.scenarioT0Ns
  checkNanos "scenario_t1_ns" inputs.scenarioT1Ns
  ensure (inputs.scenarioT0Ns < inputs.scenarioT1Ns) (ErrorType.schemaError.mk
    "build_liveness_document: the scenario span is empty")
  checks (queryEndpoints.map (checkNanos "query_endpoints"))
  let phaseBounds := (inputs.phases.map (·.t0Ns)++inputs.phases.map (·.t1Ns)).dedup.insertionSort (· ≤ ·)
  -- a profile's id is a value of its fields alone
  let profile ← inputs.profile.mapM fun p => do pure (p,← p.profileId lib)
  let built ← (sources.insertionSort (·.sourceId ≤ ·.sourceId)).mapM
    (buildSource inputs profile phaseBounds queryEndpoints)
  DocumentFields.construct
    { modeGlobal := weakestMode (built.map (·.mode)) inputs.noProfile
      quantile := inputs.config.quantile
      slack := inputs.config.slack
      nMin := inputs.config.nMin
      mMin := inputs.config.mMin
      sources := built
      flags := documentFlags lib inputs built
      profileId := profile.map (·.2)
      disputedEvents := [] }

end

end Liveness

end Spectra
