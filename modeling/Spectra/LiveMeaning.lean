import Spectra.Instants
import Spectra.Scf

/-! What LIVE says: the records, the phases and the threshold that stand behind every instant of a
LIVE interval of the document. -/
namespace Spectra

open Checker (Library readerOf)
open Timeline (Piece Cuts Reduced)

namespace Liveness

variable {lib : Library} {inputs : BuildInputs lib} {sources : List (SourceInput lib)}
  {queryEndpoints : List ℤ} {document : LivenessDocument}

/-! ### Phases -/

theorem Phase.lt (p : Phase) : p.t0Ns < p.t1Ns := by
  have h := p.valid
  simp only [checks_cons,ensure_ok] at h
  exact h.2.2.2.2.1

theorem checkPhases_apart {phases : List Phase} (h : checkPhases phases = .ok ()) :
    phases.Pairwise fun p q => p.t1Ns ≤ q.t0Ns := by
  simp only [checkPhases,checks_cons] at h
  have hnext := checks_map.mp h.2.1
  simp only [ensure_ok] at hnext
  clear h
  induction phases with
  | nil => exact .nil
  | cons p phases ih =>
    cases phases with
    | nil => exact .cons (by simp) .nil
    | cons q phases =>
      have hpq : p.t1Ns ≤ q.t0Ns := hnext (p,q) (by simp)
      have hrest := ih fun r hr => hnext r (by
        rw [List.tail_cons,List.zip_cons_cons]
        exact List.mem_cons_of_mem _ hr)
      refine List.pairwise_cons.mpr ⟨fun r hr => ?_,hrest⟩
      rcases List.mem_cons.mp hr with rfl | hr
      · exact hpq
      · exact hpq.trans (q.lt.le.trans ((List.pairwise_cons.mp hrest).1 r hr))

/-- The regime of an instant is the one of the phase that has it. -/
theorem phaseOf_some {phases : List Phase} (h : checkPhases phases = .ok ()) {tNs : ℤ}
    {regimeId : String} : phaseOf phases tNs = some regimeId ↔
      ∃ p ∈ phases, p.contains tNs = true ∧ p.regimeId = regimeId := by
  have hapart := checkPhases_apart h
  clear h
  unfold phaseOf
  rw [Option.map_eq_some_iff]
  constructor
  · rintro ⟨p,hp,rfl⟩
    exact ⟨p,List.mem_of_find?_eq_some hp,by have hc := List.find?_some hp; exact hc,rfl⟩
  · rintro ⟨p,hp,hc,rfl⟩
    refine ⟨p,?_,rfl⟩
    induction phases with
    | nil => cases hp
    | cons q phases ih =>
      obtain ⟨hq,hrest⟩ := List.pairwise_cons.mp hapart
      rcases List.mem_cons.mp hp with rfl | hp
      · exact List.find?_cons_of_pos hc
      · have hout : q.contains tNs = false := by
          have := hq p hp
          simp only [Phase.contains,decide_eq_true_eq,decide_eq_false_iff_not] at hc ⊢
          omega
        rw [List.find?_cons_of_neg (by simp [hout])]
        exact ih hrest hp

/-! ### Thresholds -/

/-- The threshold of a regime for a source, when there is one and it is not the largest number. -/
def presentThreshold (inputs : BuildInputs lib) (source : SourceInput lib) (regimeId : String) :
    Option ℤ :=
  let entry := regimeThreshold inputs (inputs.profile.map (·,"")) source regimeId
  if inputs.noProfile ∨ entry.saturated then none else entry.thresholdNs

/-- The id of the profile is for the provenance only. -/
theorem calibratedThreshold_id (profile : SourceProfile lib) (id id' : String) (source : SourceInput lib)
    (regimeId : String) (config : LivenessConfig) :
    (calibratedThreshold profile id source regimeId config).map (fun e => (e.mode,e.thresholdNs,e.saturated)) =
      (calibratedThreshold profile id' source regimeId config).map
        fun e => (e.mode,e.thresholdNs,e.saturated) := by
  unfold calibratedThreshold
  cases profile.source source.source with
  | none => rfl
  | some entry =>
    simp only [Option.bind_eq_bind,Option.bind_some]
    cases entry.regime regimeId with
    | none => rfl
    | some regime =>
      simp only [Option.bind_some]
      by_cases hn : config.nMin ≤ regime.nGaps
      · simp only [guard,if_pos hn,pure,Option.bind_some]
        cases regime.orderStatistic config.quantile <;> rfl
      · simp [guard,hn]

theorem regimeThreshold_id {profile : Option (SourceProfile lib × String)}
    (h : profile.map (·.1) = inputs.profile) (source : SourceInput lib) (regimeId : String) :
    let entry := regimeThreshold inputs profile source regimeId
    let entry' := regimeThreshold inputs (inputs.profile.map (·,"")) source regimeId
    entry.mode = entry'.mode ∧ entry.thresholdNs = entry'.thresholdNs ∧
      entry.saturated = entry'.saturated := by
  rw [← h]
  cases profile with
  | none => exact ⟨rfl,rfl,rfl⟩
  | some p =>
    have hid := calibratedThreshold_id p.1 p.2 "" source regimeId inputs.config
    simp only [regimeThreshold,Option.map_some,Option.bind_some]
    revert hid
    cases calibratedThreshold p.1 p.2 source regimeId inputs.config <;>
      cases calibratedThreshold p.1 "" source regimeId inputs.config <;> simp_all

/-- A threshold comes with a mode that is not the forced one. -/
theorem regimeThreshold_mode (profile : Option (SourceProfile lib × String)) (source : SourceInput lib)
    (regimeId : String) : (regimeThreshold inputs profile source regimeId).mode ≠ .f2NoProfile := by
  unfold regimeThreshold
  split
  · rename_i entry hentry
    obtain ⟨p,-,hc⟩ := Option.bind_eq_some_iff.mp hentry
    unfold calibratedThreshold at hc
    simp only [Option.bind_eq_bind,Option.bind_eq_some_iff] at hc
    obtain ⟨_,-,_,-,_,-,_,-,hc⟩ := hc
    rw [← Option.some.inj hc]
    simp
  · cases hd : declaredThreshold source regimeId inputs.config inputs.allowDeclaredProfile with
    | none => simp
    | some entry =>
      unfold declaredThreshold at hd
      simp only [Option.bind_eq_bind,Option.bind_eq_some_iff] at hd
      obtain ⟨_,-,_,-,hd⟩ := hd
      rw [Option.getD_some,← Option.some.inj hd]
      simp

/-! ### What stands behind an instant -/

/-- The records of a source around an instant: both link, and no number is missing between them. -/
def Linked (inputs : BuildInputs lib) (source : SourceInput lib) (l r : BundleRecord lib) : Prop :=
  source.integrityClass ≠ .unlinked → inputs.chainVerifier none l = true ∧
    inputs.chainVerifier (some l) r = true ∧ r.seq ≤ l.seq+1

/-- A phase with a threshold, a last record and a next one no further apart than that, linked, and
no more than two records asked for. -/
def Vouched (inputs : BuildInputs lib) (source : SourceInput lib) (tNs : ℤ) : Prop :=
  (∃ p ∈ inputs.phases, p.contains tNs = true ∧ ∃ threshold,
    presentThreshold inputs source p.regimeId = some threshold ∧
    ∃ l r, Brackets (sortedEvents source.events) l r tNs ∧ r.tEvtNs-l.tEvtNs ≤ threshold ∧
      Linked inputs source l r) ∧ inputs.config.mMin ≤ 2

theorem instantOutcome_live {profile : Option (SourceProfile lib × String)} {source : SourceInput lib}
    (hp : profile.map (·.1) = inputs.profile) (hphases : checkPhases inputs.phases = .ok ()) {tNs : ℤ} :
    (instantOutcome inputs profile source tNs).verdict = .live ↔ Vouched inputs source tNs := by
  have hsorted := sortedEvents_ascending source.events
  unfold instantOutcome outcomeOf
  simp only
  by_cases hno : inputs.noProfile = true
  · rw [if_pos hno,classify_live]
    refine iff_of_false (fun h => h.1 rfl) fun h => ?_
    obtain ⟨⟨p,-,-,threshold,ht,-⟩,-⟩ := h
    simp [presentThreshold,hno] at ht
  rw [if_neg hno,classify_live,observeWindow_regime]
  cases hregime : phaseOf inputs.phases tNs with
  | none =>
    refine iff_of_false (fun h => h.2.1 rfl) fun h => ?_
    obtain ⟨⟨p,hp,hc,-⟩,-⟩ := h
    cases hregime.symm.trans ((phaseOf_some hphases).mpr ⟨p,hp,hc,rfl⟩)
  | some regime =>
    obtain ⟨phase,hphase,hcontains,rfl⟩ := (phaseOf_some hphases).mp hregime
    obtain ⟨hmode,hthreshold,hsat⟩ := regimeThreshold_id hp source phase.regimeId
    simp only [Option.map_some,Option.getD_some,Option.bind_some]
    rw [hthreshold,hsat]
    rcases brackets_or hsorted tNs with ⟨l,r,hbr⟩ | hopen
    · rw [hbr.observe hsorted]
      simp only
      rw [chainState_pair]
      constructor
      · rintro ⟨-,-,hns,hlink,-,hm,threshold,ht,hgap⟩
        refine ⟨⟨phase,hphase,hcontains,threshold,?_,l,r,hbr,hgap,hlink⟩,hm⟩
        rw [presentThreshold,if_neg (by simp [hno,hns]),ht]
      · rintro ⟨⟨p,hpm,hpc,threshold,ht,l',r',hbr',hgap,hlink⟩,hm⟩
        obtain ⟨rfl,rfl⟩ := hbr.unique hsorted hbr'
        have hid : some p.regimeId = some phase.regimeId :=
          ((phaseOf_some hphases).mpr ⟨p,hpm,hpc,rfl⟩).symm.trans hregime
        rw [Option.some.inj hid,presentThreshold] at ht
        split at ht
        · cases ht
        · rename_i hopen
          refine ⟨?_,by simp,by simpa using (not_or.mp hopen).2,hlink,⟨by simp,by simp⟩,hm,
            threshold,ht,hgap⟩
          rw [hmode]
          exact regimeThreshold_mode _ _ _
    · obtain ⟨left,right,hobs,hnone⟩ := @observe_unbracketed lib (sortedEvents source.events)
        inputs.phases source.integrityClass inputs.chainVerifier tNs hopen
      rw [hobs]
      refine iff_of_false (fun h => hnone.elim h.2.2.2.2.1.1 h.2.2.2.2.1.2) fun h => ?_
      obtain ⟨⟨p,-,-,threshold,-,l,r,hbr,-⟩,-⟩ := h
      obtain ⟨earlier,later,he,hn⟩ := hbr.index hsorted
      have hlen := congrArg List.length he
      simp only [List.length_append,List.length_cons] at hlen
      omega

/-! ### The document -/

/-- What a document was built from. -/
structure BuiltFrom (inputs : BuildInputs lib) (sources : List (SourceInput lib))
    (queryEndpoints : List ℤ) (document : LivenessDocument) (profile : Option (SourceProfile lib × String))
    (phaseBounds : List ℤ) : Prop where
  identified : profile.map (·.1) = inputs.profile
  phases : checkPhases inputs.phases = .ok ()
  bounds : Bounds inputs phaseBounds
  built : List.Forall₂ (fun source entry =>
      buildSource inputs profile phaseBounds queryEndpoints source = .ok entry)
    (sources.insertionSort (·.sourceId ≤ ·.sourceId)) document.sources

theorem phaseBounds_bounds (inputs : BuildInputs lib) : Bounds inputs
    ((inputs.phases.map (·.t0Ns)++inputs.phases.map (·.t1Ns)).dedup.insertionSort (· ≤ ·)) := by
  intro v
  rw [List.mem_insertionSort,List.mem_dedup,List.mem_append,List.mem_map,List.mem_map]
  constructor
  · rintro (⟨p,hp,rfl⟩ | ⟨p,hp,rfl⟩)
    · exact ⟨p,hp,.inl rfl⟩
    · exact ⟨p,hp,.inr rfl⟩
  · rintro ⟨p,hp,rfl | rfl⟩
    · exact .inl ⟨p,hp,rfl⟩
    · exact .inr ⟨p,hp,rfl⟩

theorem buildLivenessDocument_ok
    (h : buildLivenessDocument lib inputs sources queryEndpoints = .ok document) :
    ∃ profile phaseBounds, BuiltFrom inputs sources queryEndpoints document profile phaseBounds := by
  obtain ⟨_,-,h⟩ := Runs.bind_ok.mp h
  obtain ⟨_,hphases,h⟩ := Runs.bind_ok.mp h
  obtain ⟨_,-,h⟩ := Runs.bind_ok.mp h
  obtain ⟨_,-,h⟩ := Runs.bind_ok.mp h
  obtain ⟨_,-,h⟩ := Runs.bind_ok.mp h
  obtain ⟨_,-,h⟩ := Runs.bind_ok.mp h
  obtain ⟨profile,hprofile,h⟩ := Runs.bind_ok.mp h
  obtain ⟨built,hbuilt,h⟩ := Runs.bind_ok.mp h
  obtain ⟨_,rfl⟩ := validated_ok.mp h
  refine ⟨profile,_,?_,hphases,phaseBounds_bounds inputs,mapM_ok.mp hbuilt⟩
  cases hp : inputs.profile with
  | none =>
    rw [hp] at hprofile
    rw [← Runs.pure_ok.mp hprofile]
    rfl
  | some p =>
    rw [hp,Option.mapM_some,map_eq_pure_bind] at hprofile
    obtain ⟨q,hq,hprofile⟩ := Runs.bind_ok.mp hprofile
    obtain ⟨id,-,hq⟩ := Runs.bind_ok.mp hq
    rw [← Runs.pure_ok.mp hprofile,← Runs.pure_ok.mp hq]
    rfl

/-- The instant is inside a LIVE interval of the source. -/
def LivenessDocument.LiveAt (document : LivenessDocument) (source : String) (tNs : ℤ) : Prop :=
  ∃ entry ∈ document.sources, entry.source = source ∧
    ∃ i ∈ entry.intervals, i.verdict = .live ∧ i.t0Ns ≤ tNs ∧ tNs < i.t1Ns

section

variable {profile : Option (SourceProfile lib × String)} {phaseBounds : List ℤ} {source : SourceInput lib}

theorem sourceEntries_ascending (document : LivenessDocument) :
    (document.sources.map (·.sourceId)).Pairwise (· < ·) := by
  have h := document.valid
  simp only [DocumentFields.postInit,checks_cons] at h
  exact checkStrictlyAscending_ok.mp h.2.2.2.1

/-- A source has one timeline in the document. -/
theorem sourceEntry_unique {entry entry' : SourceLiveness} (h : entry ∈ document.sources)
    (h' : entry' ∈ document.sources) (hs : entry.source = entry'.source) : entry = entry' := by
  have hne : (document.sources.map (·.sourceId)).Nodup :=
    (sourceEntries_ascending document).imp ne_of_lt
  exact List.inj_on_of_nodup_map hne h h' (congrArg (Checker.sourcePrefix++·) hs)

/-- Every source has its timeline. -/
theorem BuiltFrom.entry (hb : BuiltFrom inputs sources queryEndpoints document profile phaseBounds)
    (hs : source ∈ sources) : ∃ entry ∈ document.sources,
      buildSource inputs profile phaseBounds queryEndpoints source = .ok entry :=
  (forall₂_mem hb.built).1 source ((List.mem_insertionSort _).mpr hs)

/-- Every timeline is the one of a source. -/
theorem BuiltFrom.origin (hb : BuiltFrom inputs sources queryEndpoints document profile phaseBounds)
    {entry : SourceLiveness} (he : entry ∈ document.sources) : ∃ source ∈ sources,
      buildSource inputs profile phaseBounds queryEndpoints source = .ok entry := by
  obtain ⟨source,hs,h⟩ := (forall₂_mem hb.built).2 entry he
  exact ⟨source,(List.mem_insertionSort _).mp hs,h⟩

theorem live_piece {entry : SourceLiveness} {tNs : ℤ} :
    (∃ i ∈ entry.intervals, i.verdict = .live ∧ i.t0Ns ≤ tNs ∧ tNs < i.t1Ns) ↔
      ∃ label : Outcome, label.verdict = .live ∧
        ∃ p ∈ entry.intervals.map (·.piece), p.start ≤ tNs ∧ tNs < p.stop ∧ p.label = label := by
  constructor
  · rintro ⟨i,hi,hlive,hin⟩
    exact ⟨i.piece.label,hlive,i.piece,List.mem_map_of_mem hi,hin.1,hin.2,rfl⟩
  · rintro ⟨label,hlive,p,hp,hstart,hstop,rfl⟩
    obtain ⟨i,hi,rfl⟩ := List.mem_map.mp hp
    exact ⟨i,hi,hlive,hstart,hstop⟩

/-- LIVE in the document is LIVE of the instant. -/
theorem BuiltFrom.liveAt_iff
    (hb : BuiltFrom inputs sources queryEndpoints document profile phaseBounds)
    (hs : source ∈ sources) {tNs : ℤ} : document.LiveAt source.source tNs ↔
      (inputs.scenarioT0Ns ≤ tNs ∧ tNs < inputs.scenarioT1Ns) ∧ Vouched inputs source tNs := by
  obtain ⟨entry,he,hbuild⟩ := hb.entry hs
  obtain ⟨hname,hcuts,-⟩ := buildSource_ok hb.bounds hbuild
  rw [← instantOutcome_live hb.identified hb.phases]
  have hentry : document.LiveAt source.source tNs ↔
      ∃ i ∈ entry.intervals, i.verdict = .live ∧ i.t0Ns ≤ tNs ∧ tNs < i.t1Ns := by
    constructor
    · rintro ⟨entry',he',hs',hi⟩
      rwa [← sourceEntry_unique he' he (hs'.trans hname.symm)]
    · exact fun hi => ⟨entry,he,hname,hi⟩
  rw [hentry,live_piece]
  constructor
  · rintro ⟨label,hlive,hp⟩
    obtain ⟨h0,h1,rfl⟩ := hcuts.mem_iff.mp hp
    exact ⟨⟨h0,h1⟩,hlive⟩
  · rintro ⟨⟨h0,h1⟩,hlive⟩
    exact ⟨_,hlive,hcuts.mem_iff.mpr ⟨h0,h1,rfl⟩⟩

/-- An elementary interval that is bracketed is measured over two records. -/
theorem bracketed_pair {grid : List ℤ} (hbounds : Bounds inputs phaseBounds)
    (h : breakpoints ((sortedEvents source.events).map (·.tEvtNs)) phaseBounds queryEndpoints
      inputs.scenarioT0Ns inputs.scenarioT1Ns = .ok grid) {p : ℤ × ℤ} (hp : p ∈ grid.zip grid.tail) :
    let o := observeWindow (sortedEvents source.events) ((sortedEvents source.events).map (·.tEvtNs))
      p.1 p.2 inputs.phases source.integrityClass inputs.chainVerifier
    o.leftBracketTNs ≠ none → o.rightBracketTNs ≠ none → o.nRecordsInSpan = 2 := by
  have hsorted := sortedEvents_ascending source.events
  obtain ⟨hlt,-,-,htimes,hphases⟩ := breakpoints_gap h hp
  simp only
  rw [observeWindow_congr le_rfl hlt htimes fun q hq =>
    ⟨hphases _ ((hbounds _).mpr ⟨q,hq,.inl rfl⟩),hphases _ ((hbounds _).mpr ⟨q,hq,.inr rfl⟩)⟩]
  rcases brackets_or hsorted p.1 with ⟨l,r,hbr⟩ | hopen
  · rw [hbr.observe hsorted]
    exact fun _ _ => rfl
  · obtain ⟨left,right,hobs,hnone⟩ := @observe_unbracketed lib (sortedEvents source.events)
      inputs.phases source.integrityClass inputs.chainVerifier p.1 hopen
    rw [hobs]
    exact fun hl hr => absurd hnone (not_or.mpr ⟨hl,hr⟩)

end

/-- An instant of the span is LIVE when it is vouched for, every bracketed elementary interval is
measured over two records, and none is LIVE where three are asked for. -/
theorem live_means {source : SourceInput lib}
    (h : buildLivenessDocument lib inputs sources queryEndpoints = .ok document)
    (hs : source ∈ sources) :
    (∀ tNs, inputs.scenarioT0Ns ≤ tNs → tNs < inputs.scenarioT1Ns →
      (document.LiveAt source.source tNs ↔ Vouched inputs source tNs)) ∧
    (∀ phaseBounds grid, Bounds inputs phaseBounds →
      breakpoints ((sortedEvents source.events).map (·.tEvtNs)) phaseBounds queryEndpoints
        inputs.scenarioT0Ns inputs.scenarioT1Ns = .ok grid → ∀ p ∈ grid.zip grid.tail,
      let o := observeWindow (sortedEvents source.events)
        ((sortedEvents source.events).map (·.tEvtNs)) p.1 p.2 inputs.phases source.integrityClass
        inputs.chainVerifier
      o.leftBracketTNs ≠ none → o.rightBracketTNs ≠ none → o.nRecordsInSpan = 2) ∧
    (3 ≤ inputs.config.mMin → ∀ entry ∈ document.sources, ∀ i ∈ entry.intervals, i.verdict ≠ .live) := by
  obtain ⟨profile,phaseBounds,hb⟩ := buildLivenessDocument_ok h
  refine ⟨fun tNs h0 h1 => ?_,fun _ grid hbounds hgrid p hp => bracketed_pair hbounds hgrid hp,
    fun hm entry he i hi hlive => ?_⟩
  · rw [hb.liveAt_iff hs]
    exact and_iff_right ⟨h0,h1⟩
  · obtain ⟨source',hs',hbuild⟩ := hb.origin he
    obtain ⟨hname,hcuts,-⟩ := buildSource_ok hb.bounds hbuild
    obtain ⟨-,hlt,-⟩ := hcuts.inside (List.mem_map_of_mem hi)
    have hat : document.LiveAt source'.source i.t0Ns := ⟨entry,he,hname,i,hi,hlive,le_rfl,hlt⟩
    have := ((hb.liveAt_iff hs').mp hat).2.2
    omega

/-! ### A day of one source -/

/-- A hash reference of one digit. -/
def hashOf (digit : Char) : String := Checker.hashRefPrefix++String.ofList (List.replicate 64 digit)

def dayPhase : Phase := ⟨"day",0,100,by decide⟩

/-- A regime with a median gap of ten. -/
def dayProfile (lib : Library) : SourceProfile lib where
  scenarioFamily := "office"
  generatorConfigHash := hashOf '1'
  degradationSpecHash := "b2b256:4590238fe1d4e23b5dbb42c29bef596b2988b24afcd88ee8f04c1fcda769ba0a"
  calibrationSeedBand := (1000000,1000063)
  referenceBundleHash := hashOf '2'
  referenceRunManifestHash := hashOf '3'
  excludedIntervalsHash := hashOf '4'
  regimeCollapsed := false
  sources := [⟨"iam",.chained,[⟨"day",5,[("1/2",10)],1,20,hashOf '5',by decide⟩],rfl⟩]
  valid := rfl

def dayContext : BindingContext := ⟨hashOf '6',7,hashOf '1',"office",hashOf '4',by decide⟩

def dayConfig : LivenessConfig := ⟨1,2,1,1,1,2,2,8,by decide⟩

def dayInputs (lib : Library) : BuildInputs lib where
  config := dayConfig
  phases := [dayPhase]
  scenarioT0Ns := 0
  scenarioT1Ns := 100
  profile := some (dayProfile lib)
  bindingContext := some dayContext
  noProfile := false
  allowDeclaredProfile := false
  chainVerifier := chainLinkContinuityOnly

def firstLogin : BundleRecord (readerOf []) where
  eventId := "ev:1"
  recordId := "rc:1"
  source := "iam"
  seq := 0
  eventType := "login"
  tEvtNs := 10
  tIngNs := 10
  attrs := []
  chainHash := some (hashOf '8')
  chainPrev := some (hashOf '7')
  valid := by decide

def secondLogin : BundleRecord (readerOf []) where
  eventId := "ev:2"
  recordId := "rc:2"
  source := "iam"
  seq := 1
  eventType := "login"
  tEvtNs := 20
  tIngNs := 20
  attrs := []
  chainHash := some (hashOf '9')
  chainPrev := some (hashOf '8')
  valid := by decide

theorem iam_valid : checks [ensure (isSnake "iam") (ErrorType.identifierError.mk "SourceInput.source_id"),
    ensure (∀ n ∈ (none : Option ℤ), 0 < n) (ErrorType.schemaError.mk
      "SourceInput.nominal_period_ns must be positive when present")] = .ok () := by decide

def iamSource : SourceInput (readerOf []) := ⟨"iam",.chained,[secondLogin,firstLogin],none,iam_valid⟩

/-- The document of the day, asked about the instant after the first login. -/
def iamDay := returned (buildLivenessDocument (readerOf []) (dayInputs _) [iamSource] [13]) (fun _ => true)
  (by decide +kernel)

theorem live_means_login : ∃ document,
    buildLivenessDocument (readerOf []) (dayInputs _) [iamSource] [13] = .ok document ∧
    (document.LiveAt "iam" 12 ↔ Vouched (dayInputs _) iamSource 12) := by
  have hd := iamDay.2.1
  exact ⟨_,hd,(live_means hd (List.mem_singleton_self iamSource)).1 12 (by decide) (by decide)⟩

end Liveness

end Spectra
