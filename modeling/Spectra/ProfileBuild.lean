import Spectra.LivenessLicences
import Spectra.OrderStatistic

/-! `spectra_vs.calibrate.build_profile`: the gaps of each source by regime, what is published of them,
and which regimes a collapsed profile calibrates. -/
namespace Spectra

open Checker (Library sourcePrefix)

namespace Liveness

/-- A span the scenario declares uninformative. -/
structure ExcludedInterval where
  t0Ns : ℤ
  t1Ns : ℤ
  reason : String
  valid : checks [
    checkNanos "ExcludedInterval.t0_ns" t0Ns,
    checkNanos "ExcludedInterval.t1_ns" t1Ns,
    ensure (t0Ns ≤ t1Ns) (ErrorType.schemaError.mk "ExcludedInterval: t1_ns precedes t0_ns"),
    (nfc reason).map fun _ => (),
    ensure (reason ≠ "") (ErrorType.schemaError.mk "ExcludedInterval.reason is mandatory")] = .ok ()

/-- The exclusion meets the closed span. -/
def ExcludedInterval.intersectsClosed (e : ExcludedInterval) (aNs bNs : ℤ) : Bool :=
  e.t0Ns ≤ bNs ∧ aNs < e.t1Ns

/-- One source of the calibration run. -/
structure CalibrationSource (lib : Library) where
  source : String
  integrityClass : IntegrityClass
  events : List (BundleRecord lib)

/-- What a profile is built from. -/
structure CalibrationRun (lib : Library) where
  scenarioFamily : String
  eventsBySource : List (CalibrationSource lib)
  phases : List Phase
  excluded : List ExcludedInterval
  quantileLevels : List String
  generatorConfigHash : String
  referenceBundleHash : String
  referenceRunManifestHash : String
  calibrationSeed : ℤ
  collapseRegimes : Bool

def calibrationSeedBand : ℤ × ℤ := (1000000,1000063)

def checkCalibrationSeed (seed : ℤ) : Fallible Unit :=
  ensure (calibrationSeedBand.1 ≤ seed ∧ seed ≤ calibrationSeedBand.2) ⟨.profileError,"PROFILE_SEED_OVERLAP",
    "check_calibration_seed: "++toString seed++" is outside the calibration band"⟩

section

variable (lib : Library)

/-! ### The hashes of a profile -/

def excludedIntervalsHash (excluded : List ExcludedInterval) : Fallible String := do
  let ordered := excluded.insertionSort fun e f =>
    toLex (e.t0Ns,toLex (e.t1Ns,lib.normalize e.reason)) ≤ toLex (f.t0Ns,toLex (f.t1Ns,lib.normalize f.reason))
  pure (lib.hashRef "excl" (← orderedSeq (fun e => Framing.concat
    [i64 e.t0Ns,i64 e.t1Ns,utf8Text (lib.normalize e.reason)]) ordered))

/-- The digest of every gap, not only of the published ones. -/
def gapDigest (gaps : List ℤ) : Fallible String := do
  checks (gaps.map fun gap => ensure (0 ≤ gap ∧ gap ≤ u64Max) ⟨.canonError,"E-CANON-WIDTH",
    "gap_digest: "++toString gap++" is not a u64 nanosecond gap"⟩)
  checkStrictlyAscending "gap_digest" (gaps.zipIdx.map fun p => toLex p)
  pure (lib.hashRef "gapv" (leb128Seq (gaps.map Int.toNat)))

/-! ### The gaps by regime -/

section

variable {lib}

/-- The gap of two consecutive records goes to the regime both are in, unless an exclusion meets it. -/
def gapStep (phases : List Phase) (excluded : List ExcludedInterval) (byRegime : List (String × List ℤ))
    (p : BundleRecord lib × BundleRecord lib) : Fallible (List (String × List ℤ)) :=
  let span := p.2.tEvtNs-p.1.tEvtNs
  if span < 0 then .error ⟨.profileError,"PROFILE_INVALID",
    "gap_vectors: "++p.1.source++" is not ascending in t_evt_ns"⟩
  else match phaseOf phases p.1.tEvtNs with
  | none => .ok byRegime
  | some left =>
    if phaseOf phases p.2.tEvtNs ≠ some left then .ok byRegime
    else if excluded.any (·.intersectsClosed p.1.tEvtNs p.2.tEvtNs) then .ok byRegime
    else .ok (Dict.set byRegime left ((Dict.get? byRegime left).getD []++[span]))

end

/-- `gap_vectors`: the regimes in order, the gaps of each ascending. -/
def gapVectors (events : List (BundleRecord lib)) (phases : List Phase) (excluded : List ExcludedInterval) :
    Fallible (List (String × List ℤ)) := do
  let ordered := sortedEvents events
  let byRegime ← (ordered.zip ordered.tail).foldlM (gapStep phases excluded) []
  pure ((byRegime.map fun v => (v.1,v.2.insertionSort (· ≤ ·))).insertionSort fun v w =>
    lib.normalize v.1 ≤ lib.normalize w.1)

/-! ### The profile -/

/-- Every regime of a source merged into one, under its own name. -/
def collapse (vectors : List (String × List ℤ)) : List (String × List ℤ) :=
  let merged := vectors.flatMap (·.2)
  if merged = [] then [] else [("collapsed",merged.insertionSort (· ≤ ·))]

/-- What is published of the gaps of a regime. -/
def calibrateRegime (levels : List (String × ℤ × ℤ)) (vector : String × List ℤ) : Fallible RegimeProfile := do
  let statistics ← levels.mapM fun level => do pure (level.1,← qExact vector.2 level.2.1 level.2.2)
  let digest ← gapDigest lib vector.2
  validated _ fun h =>
    ⟨vector.1,vector.2.length,statistics,vector.2.headD 0,vector.2.getLastD 0,digest,h⟩

def calibrateSource (run : CalibrationRun lib) (levels : List (String × ℤ × ℤ)) (entry : CalibrationSource lib) :
    Fallible (SourceCalibration lib) := do
  let vectors ← gapVectors lib entry.events run.phases run.excluded
  let vectors := if run.collapseRegimes then collapse vectors else vectors
  let regimes ← (vectors.filter (·.2 ≠ [])).mapM (calibrateRegime lib levels)
  validated _ fun h => ⟨entry.source,entry.integrityClass,regimes,h⟩

/-- `build_profile`. -/
def buildProfile (run : CalibrationRun lib) : Fallible (SourceProfile lib) := do
  checkCalibrationSeed run.calibrationSeed
  checkPhases run.phases
  ensure (run.quantileLevels ≠ []) ⟨.profileError,"PROFILE_INVALID",
    "build_profile: no quantile level was requested"⟩
  let levels ← (← sortedUnique run.quantileLevels).mapM fun level => do pure (level,← parseQuantile level)
  let calibrations ← run.eventsBySource.mapM (calibrateSource lib run levels)
  let excludedHash ← excludedIntervalsHash lib run.excluded
  validated _ fun h => ⟨run.scenarioFamily,run.generatorConfigHash,identitySpecHash lib,calibrationSeedBand,
    run.referenceBundleHash,run.referenceRunManifestHash,excludedHash,run.collapseRegimes,
    calibrations.insertionSort (·.sourceId ≤ ·.sourceId),h⟩

end

/-! ### The gaps that are kept -/

theorem flatMap_set_append {κ α : Type} [DecidableEq κ] (d : List (κ × List α)) (k : κ) (a : α) :
    ((Dict.set d k ((Dict.get? d k).getD []++[a])).flatMap (·.2)).Perm (d.flatMap (·.2)++[a]) := by
  induction d with
  | nil => simp [Dict.set,Dict.get?]
  | cons p d ih =>
    by_cases hp : p.1 = k
    · simp only [Dict.set,Dict.get?,if_pos hp,Option.getD_some,List.flatMap_cons,List.append_assoc]
      exact List.perm_append_comm.append_left _
    · simp only [Dict.set,Dict.get?,if_neg hp,List.flatMap_cons,List.append_assoc]
      exact ih.append_left _

section

variable {lib : Library}

/-- Both records are in one regime, and no exclusion meets the span. -/
def Kept (phases : List Phase) (excluded : List ExcludedInterval) (p : BundleRecord lib × BundleRecord lib) : Bool :=
  (phaseOf phases p.1.tEvtNs).isSome && phaseOf phases p.2.tEvtNs = phaseOf phases p.1.tEvtNs &&
    !excluded.any (·.intersectsClosed p.1.tEvtNs p.2.tEvtNs)

/-- The gaps of a source that calibrate it: those of consecutive records of one regime, away from
the exclusions. -/
def keptGaps (phases : List Phase) (excluded : List ExcludedInterval) (events : List (BundleRecord lib)) : List ℤ :=
  (((sortedEvents events).zip (sortedEvents events).tail).filter (Kept phases excluded)).map
    fun p => p.2.tEvtNs-p.1.tEvtNs

theorem gapStep_perm {phases : List Phase} {excluded : List ExcludedInterval} {d d' : List (String × List ℤ)}
    {p : BundleRecord lib × BundleRecord lib} (h : gapStep phases excluded d p = .ok d') :
    (d'.flatMap (·.2)).Perm (d.flatMap (·.2)++([p].filter (Kept phases excluded)).map fun p => p.2.tEvtNs-p.1.tEvtNs) := by
  unfold gapStep at h
  dsimp only at h
  split at h
  · cases h
  cases hleft : phaseOf phases p.1.tEvtNs with
  | none =>
    rw [hleft] at h
    cases h
    have hno : Kept phases excluded p = false := by simp [Kept,hleft]
    rw [List.filter_cons_of_neg (by simp [hno])]
    simp
  | some left =>
    rw [hleft] at h
    dsimp only at h
    split_ifs at h with hright hmet
    · cases h
      have hno : Kept phases excluded p = false := by simp [Kept,hleft,hright]
      rw [List.filter_cons_of_neg (by simp [hno])]
      simp
    · cases h
      have hno : Kept phases excluded p = false := by simp only [Kept,hmet,Bool.not_true,Bool.and_false]
      rw [List.filter_cons_of_neg (by simp [hno])]
      simp
    · cases h
      have hyes : Kept phases excluded p = true := by
        simp only [Kept,hleft,Option.isSome_some,not_not.mp hright,decide_true,Bool.true_and,
          Bool.eq_false_iff.mpr hmet,Bool.not_false]
      rw [List.filter_cons_of_pos hyes]
      exact flatMap_set_append d left _

theorem foldlM_gapStep_perm {phases : List Phase} {excluded : List ExcludedInterval}
    {pairs : List (BundleRecord lib × BundleRecord lib)} {d d' : List (String × List ℤ)}
    (h : pairs.foldlM (gapStep phases excluded) d = .ok d') : (d'.flatMap (·.2)).Perm
      (d.flatMap (·.2)++(pairs.filter (Kept phases excluded)).map fun p => p.2.tEvtNs-p.1.tEvtNs) := by
  induction pairs generalizing d with
  | nil =>
    obtain rfl := Runs.foldlM_nil_ok.mp h
    simp
  | cons p pairs ih =>
    obtain ⟨next,hp,h⟩ := Runs.foldlM_cons_ok.mp h
    refine (ih h).trans (((gapStep_perm hp).append_right _).trans ?_)
    rw [List.append_assoc,← List.map_append,← List.filter_append,List.singleton_append]

/-- The vectors of a source hold the kept gaps, each once. -/
theorem gapVectors_perm {events : List (BundleRecord lib)} {phases : List Phase}
    {excluded : List ExcludedInterval} {vectors : List (String × List ℤ)}
    (h : gapVectors lib events phases excluded = .ok vectors) :
    (vectors.flatMap (·.2)).Perm (keptGaps phases excluded events) := by
  obtain ⟨byRegime,hfold,h⟩ := Runs.bind_ok.mp h
  obtain rfl := Runs.pure_ok.mp h
  have hgaps := foldlM_gapStep_perm hfold
  rw [List.flatMap_nil,List.nil_append] at hgaps
  refine ((List.perm_insertionSort _ _).flatMap_right _).trans (List.Perm.trans ?_ hgaps)
  rw [List.flatMap_map]
  exact List.Perm.flatMap_left _ fun v _ => List.perm_insertionSort _ _

/-! ### A collapsed source -/

theorem mapM_keys {α β κ : Type} {f : α → Fallible β} {key : α → κ} {l : List α} {r : List (κ × β)}
    (h : l.mapM (fun a => do pure (key a,← f a)) = .ok r) : r.map (·.1) = l.map key := by
  have hall := mapM_ok.mp h
  clear h
  induction hall with
  | nil => rfl
  | cons hp _ ih =>
    obtain ⟨b,-,hp⟩ := Runs.bind_ok.mp hp
    obtain rfl := Runs.pure_ok.mp hp
    rw [List.map_cons,List.map_cons,ih]

theorem calibrateRegime_ok {levels : List (String × ℤ × ℤ)} {vector : String × List ℤ} {r : RegimeProfile}
    (h : calibrateRegime lib levels vector = .ok r) :
    r.regimeId = vector.1 ∧ r.nGaps = vector.2.length ∧ r.orderStatistics.map (·.1) = levels.map (·.1) := by
  obtain ⟨statistics,hs,h⟩ := Runs.bind_ok.mp h
  obtain ⟨digest,-,h⟩ := Runs.bind_ok.mp h
  obtain ⟨_,rfl⟩ := validated_ok.mp h
  exact ⟨rfl,rfl,mapM_keys hs⟩

/-- What a collapsed source publishes: nothing without gaps, else one regime of all its gaps. -/
structure Collapsed (levels : List (String × ℤ × ℤ)) (gaps : List ℤ) (c : SourceCalibration lib) : Prop where
  named : ∀ r ∈ c.regimes, r.regimeId = "collapsed" ∧ r.nGaps = gaps.length ∧
    r.orderStatistics.map (·.1) = levels.map (·.1)
  one : c.regimes.length = if gaps = [] then 0 else 1

theorem calibrateSource_ok {run : CalibrationRun lib} (hc : run.collapseRegimes = true)
    {levels : List (String × ℤ × ℤ)} {entry : CalibrationSource lib} {c : SourceCalibration lib}
    (h : calibrateSource lib run levels entry = .ok c) : c.source = entry.source ∧
      Collapsed levels (keptGaps run.phases run.excluded entry.events) c := by
  obtain ⟨vectors,hv,h⟩ := Runs.bind_ok.mp h
  obtain ⟨regimes,hr,h⟩ := Runs.bind_ok.mp h
  obtain ⟨_,rfl⟩ := validated_ok.mp h
  have hperm := gapVectors_perm hv
  rw [if_pos hc,collapse] at hr
  refine ⟨rfl,?_⟩
  by_cases hnone : vectors.flatMap (·.2) = []
  · rw [if_pos hnone] at hr
    obtain rfl := Runs.pure_ok.mp hr
    rw [hnone] at hperm
    exact ⟨by simp,by rw [if_pos hperm.nil_eq.symm]; rfl⟩
  · rw [if_neg hnone] at hr
    have hkeep : [("collapsed",(vectors.flatMap (·.2)).insertionSort (· ≤ ·))].filter (fun v => decide (v.2 ≠ [])) =
        [("collapsed",(vectors.flatMap (·.2)).insertionSort (· ≤ ·))] := by
      refine List.filter_cons_of_pos ?_
      have hne : (vectors.flatMap (·.2)).insertionSort (· ≤ ·) ≠ [] := fun h =>
        hnone (List.perm_nil.mp (h ▸ (List.perm_insertionSort (· ≤ ·) _).symm))
      simpa using hne
    rw [hkeep] at hr
    have hgaps : keptGaps run.phases run.excluded entry.events ≠ [] := fun h => hnone (List.perm_nil.mp (h ▸ hperm))
    have hlength := ((List.perm_insertionSort (· ≤ ·) (vectors.flatMap (·.2))).trans hperm).length_eq
    match regimes, mapM_ok.mp hr with
    | [r], .cons hone .nil =>
      obtain ⟨hid,hn,hlevels⟩ := calibrateRegime_ok hone
      refine ⟨fun r' hr' => ?_,by rw [if_neg hgaps]; rfl⟩
      obtain rfl := List.mem_singleton.mp hr'
      exact ⟨hid,by rw [hn,hlength],hlevels⟩

theorem SourceProfile.sources_ascending (profile : SourceProfile lib) :
    (profile.sources.map (·.sourceId)).Pairwise (· < ·) := by
  have h := profile.valid
  simp only [checks_cons] at h
  exact checkStrictlyAscending_ok.mp h.2.2.2.2.2.2.1

/-- A source is looked up under its snake. -/
theorem SourceProfile.source_mem {profile : SourceProfile lib} {c : SourceCalibration lib}
    (hc : c ∈ profile.sources) : profile.source c.source = some c := by
  have hsnake : isSnake c.source = true := by
    have h := c.valid
    simp only [checks_cons,ensure_ok] at h
    exact h.1
  have hfound : ∀ d ∈ profile.sources, (d.sourceId = c.source || d.source = c.source) = true → d = c := by
    intro d hd hname
    rw [Bool.or_eq_true,decide_eq_true_eq,decide_eq_true_eq] at hname
    rcases hname with hname | hname
    · have hplain := isSnake_not_prefixed hsnake
      have hyes : Checker.hasPrefix sourcePrefix (sourcePrefix++d.source) = true := by
        rw [Checker.hasPrefix,Checker.octets_append]
        exact List.isPrefixOf_iff_prefix.mpr (List.prefix_append _ _)
      rw [← hname] at hplain
      cases hyes.symm.trans hplain
    · exact List.inj_on_of_nodup_map (profile.sources_ascending.imp ne_of_lt) hd hc
        (congrArg (sourcePrefix++·) hname)
  rw [SourceProfile.source]
  cases hf : profile.sources.find? fun entry => entry.sourceId = c.source || entry.source = c.source with
  | none =>
    have := List.find?_eq_none.mp hf c hc
    simp at this
  | some d =>
    have hname := List.find?_some hf
    rw [hfound d (List.mem_of_find?_eq_some hf) hname]

/-- What a collapsed profile has of a source it was calibrated on. -/
theorem buildProfile_source {run : CalibrationRun lib} {profile : SourceProfile lib}
    (h : buildProfile lib run = .ok profile) (hc : run.collapseRegimes = true)
    {entry : CalibrationSource lib} (he : entry ∈ run.eventsBySource) :
    ∃ levels c, levels.map (·.1) = run.quantileLevels.insertionSort (· ≤ ·) ∧
      profile.source entry.source = some c ∧
      Collapsed levels (keptGaps run.phases run.excluded entry.events) c := by
  obtain ⟨_,-,h⟩ := Runs.bind_ok.mp h
  obtain ⟨_,-,h⟩ := Runs.bind_ok.mp h
  obtain ⟨_,-,h⟩ := Runs.bind_ok.mp h
  obtain ⟨sorted,hsorted,h⟩ := Runs.bind_ok.mp h
  obtain ⟨levels,hlevels,h⟩ := Runs.bind_ok.mp h
  obtain ⟨calibrations,hcal,h⟩ := Runs.bind_ok.mp h
  obtain ⟨_,-,h⟩ := Runs.bind_ok.mp h
  obtain ⟨hvalid,rfl⟩ := validated_ok.mp h
  have hkeys : levels.map (·.1) = sorted.map id := mapM_keys hlevels
  rw [List.map_id] at hkeys
  obtain ⟨c,hmem,hcal⟩ := (forall₂_mem (mapM_ok.mp hcal)).1 entry he
  obtain ⟨hname,hcollapsed⟩ := calibrateSource_ok hc hcal
  refine ⟨levels,c,hkeys.trans (sortedUnique_ok.mp hsorted).2,?_,hcollapsed⟩
  rw [← hname]
  exact SourceProfile.source_mem ((List.mem_insertionSort _).mpr hmem)

/-! ### The regimes it calibrates -/

/-- Only the regime of the collapsed name has a threshold, when there are gaps and they are enough. -/
theorem Collapsed.calibrated_iff {levels : List (String × ℤ × ℤ)} {gaps : List ℤ} {c : SourceCalibration lib}
    (h : Collapsed levels gaps c) {profile : SourceProfile lib} {source : SourceInput lib}
    (hs : profile.source source.source = some c) {config : LivenessConfig}
    (hlevel : config.quantile ∈ levels.map (·.1)) (id regimeId : String) :
    (calibratedThreshold profile id source regimeId config).isSome = true ↔
      regimeId = "collapsed" ∧ gaps ≠ [] ∧ config.nMin ≤ gaps.length := by
  have hstatistic : ∀ r ∈ c.regimes, ∃ v, r.orderStatistic config.quantile = some v := by
    intro r hr
    rw [← Option.isSome_iff_exists,RegimeProfile.orderStatistic,Dict.isSome_get?_iff,(h.named r hr).2.2]
    exact hlevel
  unfold calibratedThreshold
  simp only [hs,Option.bind_eq_bind,Option.bind_some]
  cases hr : c.regime regimeId with
  | none =>
    refine iff_of_false (by simp) fun ⟨hid,hgaps,_⟩ => ?_
    have hone := h.one
    rw [if_neg hgaps] at hone
    obtain ⟨r,hr'⟩ := List.length_eq_one_iff.mp hone
    have hmem : r ∈ c.regimes := by rw [hr']; simp
    have := List.find?_eq_none.mp hr r hmem
    exact this (by simpa [hid] using (h.named r hmem).1)
  | some r =>
    have hmem := List.mem_of_find?_eq_some hr
    have hid : r.regimeId = regimeId := by simpa using List.find?_some hr
    obtain ⟨hname,hn,-⟩ := h.named r hmem
    have hgaps : gaps ≠ [] := by
      rintro rfl
      have hone := h.one
      rw [if_pos rfl,List.length_eq_zero_iff] at hone
      rw [hone] at hmem
      cases hmem
    obtain ⟨v,hv⟩ := hstatistic r hmem
    rw [Option.bind_some,hn,hv,← hid,hname]
    by_cases hmin : config.nMin ≤ gaps.length
    · simp [guard,hmin,hgaps]
    · simp [guard,hmin]

/-- A regime is in F0 exactly when the profile gives it a threshold. -/
theorem regimeThreshold_f0 {inputs : BuildInputs lib} {profile : SourceProfile lib} {id : String}
    {source : SourceInput lib} {regimeId : String} :
    (regimeThreshold inputs (some (profile,id)) source regimeId).mode = .f0Calibrated ↔
      (calibratedThreshold profile id source regimeId inputs.config).isSome = true := by
  unfold regimeThreshold
  rw [Option.bind_some]
  cases hc : calibratedThreshold profile id source regimeId inputs.config with
  | some entry =>
    unfold calibratedThreshold at hc
    simp only [Option.bind_eq_bind,Option.bind_eq_some_iff] at hc
    obtain ⟨_,-,_,-,_,-,_,-,hc⟩ := hc
    rw [← Option.some.inj hc]
    simp
  | none =>
    cases hd : declaredThreshold source regimeId inputs.config inputs.allowDeclaredProfile with
    | none => simp
    | some entry =>
      unfold declaredThreshold at hd
      simp only [Option.bind_eq_bind,Option.bind_eq_some_iff] at hd
      obtain ⟨_,-,_,-,hd⟩ := hd
      rw [Option.getD_some,← Option.some.inj hd]
      simp

variable {run : CalibrationRun lib} {profile : SourceProfile lib} {inputs : BuildInputs lib}
  {sources : List (SourceInput lib)} {queryEndpoints : List ℤ} {document : LivenessDocument}

/-- A window that starts in a declared phase has the mode of the regime, in a run that has a profile. -/
theorem modeOf_phase (hin : inputs.profile = some profile)
    (hdoc : buildLivenessDocument lib inputs sources queryEndpoints = .ok document)
    (id : String) (source : SourceInput lib) {phase : Phase} (hp : phase ∈ inputs.phases) {a b : ℤ}
    (ha : phase.contains a = true) : modeOf inputs (some (profile,id)) source (a,b) =
      some (regimeThreshold inputs (some (profile,id)) source phase.regimeId).mode := by
  obtain ⟨_,hbound,h⟩ := Runs.bind_ok.mp hdoc
  obtain ⟨_,hphases,-⟩ := Runs.bind_ok.mp h
  obtain ⟨_,hexcl,-⟩ := Runs.bind_ok.mp hbound
  have hno : inputs.noProfile = false := by
    have := ensure_ok.mp hexcl
    rw [hin] at this
    simpa using this
  have hphase : phaseOf inputs.phases a = some phase.regimeId := (phaseOf_some hphases).mpr ⟨phase,hp,ha,rfl⟩
  unfold modeOf
  simp only [hphase,hno,Bool.false_eq_true,if_false,Option.map_some]

/-- A run with a collapsed profile has the sources with enough gaps in F0 in the declared phases of the
collapsed name, once there is a gap, and in no other. -/
theorem collapsed_calibrates_iff (hbuild : buildProfile lib run = .ok profile)
    (hc : run.collapseRegimes = true) (hin : inputs.profile = some profile)
    (hlevel : inputs.config.quantile ∈ run.quantileLevels)
    (hdoc : buildLivenessDocument lib inputs sources queryEndpoints = .ok document) (id : String) :
    (∀ entry ∈ run.eventsBySource, ∀ source ∈ sources, source.source = entry.source →
      inputs.config.nMin ≤ (keptGaps run.phases run.excluded entry.events).length →
      ∀ phase ∈ inputs.phases, ∀ a b, phase.contains a = true →
        modeOf inputs (some (profile,id)) source (a,b) = some .f0Calibrated) ↔
    ∀ entry ∈ run.eventsBySource, ∀ source ∈ sources, source.source = entry.source →
      inputs.config.nMin ≤ (keptGaps run.phases run.excluded entry.events).length →
      ∀ phase ∈ inputs.phases, phase.regimeId = "collapsed" ∧ keptGaps run.phases run.excluded entry.events ≠ [] := by
  refine forall₄_congr fun entry he source _ => forall₂_congr fun hs hn => forall₂_congr fun phase hp => ?_
  obtain ⟨levels,c,hlevels,hsource,hcollapsed⟩ := buildProfile_source hbuild hc he
  have hasked : inputs.config.quantile ∈ levels.map (·.1) := by
    rw [hlevels]
    exact (List.mem_insertionSort _).mpr hlevel
  have hmode : ∀ a b, phase.contains a = true →
      (modeOf inputs (some (profile,id)) source (a,b) = some .f0Calibrated ↔
        phase.regimeId = "collapsed" ∧ keptGaps run.phases run.excluded entry.events ≠ []) := by
    intro a b ha
    rw [modeOf_phase hin hdoc id source hp ha,Option.some.injEq,regimeThreshold_f0,
      hcollapsed.calibrated_iff (hs ▸ hsource) hasked]
    exact and_congr_right fun _ => and_iff_left hn
  constructor
  · intro h
    have hstart : phase.contains phase.t0Ns = true := by simp [Phase.contains,phase.lt]
    exact (hmode _ phase.t0Ns hstart).mp (h _ _ hstart)
  · exact fun h a b ha => (hmode a b ha).mpr h

end

/-! ### A collapsed day -/

/-- Two logins in the phase of the day, calibrated as one regime. -/
def collapsedRun : CalibrationRun (Checker.readerOf []) where
  scenarioFamily := "office"
  eventsBySource := [⟨"iam",.chained,[secondLogin,firstLogin]⟩]
  phases := [dayPhase]
  excluded := []
  quantileLevels := ["1/2"]
  generatorConfigHash := hashOf '1'
  referenceBundleHash := hashOf '2'
  referenceRunManifestHash := hashOf '3'
  calibrationSeed := 1000000
  collapseRegimes := true

/-- One gap is enough. -/
def oneGapConfig : LivenessConfig := ⟨1,2,1,1,0,1,2,8,by decide⟩

def collapsedContext : BindingContext :=
  ⟨hashOf '6',7,hashOf '1',"office",
    "b2b256:6e8038cbec2d46e9a924422003dd5cee795911620ebea7f62d079eae7df0cbe8",by decide⟩

def collapsedInputs (profile : SourceProfile (Checker.readerOf [])) : BuildInputs (Checker.readerOf []) :=
  {dayInputs _ with config := oneGapConfig, profile := some profile, bindingContext := some collapsedContext}

theorem oneGap_asked : oneGapConfig.quantile ∈ collapsedRun.quantileLevels := by decide

theorem oneGap_enough : oneGapConfig.nMin ≤
    (keptGaps collapsedRun.phases collapsedRun.excluded [secondLogin,firstLogin]).length := by decide

def collapsedBuild := returned (buildProfile _ collapsedRun)
  (fun profile => (buildLivenessDocument _ (collapsedInputs profile) [iamSource] []).isOk) (by decide +kernel)

theorem collapsedRun_builds : ∃ profile document, buildProfile _ collapsedRun = .ok profile ∧
    buildLivenessDocument _ (collapsedInputs profile) [iamSource] [] = .ok document := by
  obtain ⟨profile,hp,hrun⟩ := collapsedBuild
  exact ⟨profile,_,hp,valueOf_ok _ hrun⟩

/-- The day is not the collapsed regime: its one source has the gap it needs and is not in F0. -/
theorem collapsed_day_uncalibrated : ∃ profile document, buildProfile _ collapsedRun = .ok profile ∧
    buildLivenessDocument _ (collapsedInputs profile) [iamSource] [] = .ok document ∧
    (collapsedInputs profile).config.quantile ∈ collapsedRun.quantileLevels ∧
    (collapsedInputs profile).config.nMin ≤
      (keptGaps collapsedRun.phases collapsedRun.excluded [secondLogin,firstLogin]).length ∧
    dayPhase ∈ (collapsedInputs profile).phases ∧
    ∀ id, modeOf (collapsedInputs profile) (some (profile,id)) iamSource (0,10) ≠ some .f0Calibrated := by
  obtain ⟨profile,document,hbuild,hdoc⟩ := collapsedRun_builds
  have hphase : dayPhase ∈ (collapsedInputs profile).phases := List.mem_singleton_self _
  refine ⟨profile,document,hbuild,hdoc,oneGap_asked,oneGap_enough,hphase,fun id hmode => ?_⟩
  obtain ⟨levels,c,hlevels,hsource,hcollapsed⟩ := buildProfile_source hbuild rfl (List.mem_singleton_self _)
  rw [modeOf_phase rfl hdoc id iamSource hphase (by decide),Option.some.injEq,regimeThreshold_f0,
    hcollapsed.calibrated_iff hsource (hlevels ▸ (List.mem_insertionSort _).mpr oneGap_asked)] at hmode
  exact absurd hmode.1 (by decide)

theorem collapsed_calibrates_iff_day : ∃ profile, buildProfile _ collapsedRun = .ok profile ∧
    ¬∀ entry ∈ collapsedRun.eventsBySource, ∀ source ∈ [iamSource], source.source = entry.source →
      (collapsedInputs profile).config.nMin ≤
        (keptGaps collapsedRun.phases collapsedRun.excluded entry.events).length →
      ∀ phase ∈ (collapsedInputs profile).phases, ∀ a b, phase.contains a = true →
        modeOf (collapsedInputs profile) (some (profile,"")) source (a,b) = some .f0Calibrated := by
  obtain ⟨profile,document,hbuild,hdoc⟩ := collapsedRun_builds
  refine ⟨profile,hbuild,fun h => ?_⟩
  have hin : (collapsedInputs profile).profile = some profile := rfl
  have he : (⟨"iam",.chained,[secondLogin,firstLogin]⟩ : CalibrationSource _) ∈ collapsedRun.eventsBySource :=
    List.mem_singleton_self _
  have hp : dayPhase ∈ (collapsedInputs profile).phases := List.mem_singleton_self _
  have hiff := collapsed_calibrates_iff hbuild rfl hin oneGap_asked hdoc ""
  have hday := hiff.mp h _ he iamSource (List.mem_singleton_self _) rfl oneGap_enough dayPhase hp
  exact absurd hday.1 (by decide)

end Liveness

end Spectra
