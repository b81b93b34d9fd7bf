import Spectra.LicenceAgreement

/-! The timeline of a source partitions the span, says of every instant what its elementary interval
said, and accounts for the whole of the span. -/
namespace Spectra

open Checker (Library readerOf)
open Timeline (Piece Cuts Reduced)

namespace Liveness

variable {lib : Library} {inputs : BuildInputs lib} {profile : Option (SourceProfile lib × String)}
  {phaseBounds queryEndpoints : List ℤ} {source : SourceInput lib} {entry : SourceLiveness}

/-! ### Volumes -/

def liveVolume (intervals : List LivenessInterval) : ℤ :=
  ((intervals.filter (·.verdict = .live)).map (·.durationNs)).sum

theorem sum_blindVolume (intervals : List LivenessInterval) : ((blindVolume intervals).map (·.2)).sum =
    ((intervals.filter (·.verdict = .blind)).map (·.durationNs)).sum := by
  have hrun : ∀ (l : List LivenessInterval) (d : List (Reason × ℤ)),
      ((l.foldl (fun d i => Dict.set d i.reason ((Dict.get? d i.reason).getD 0+i.durationNs)) d).map (·.2)).sum =
        (d.map (·.2)).sum+(l.map (·.durationNs)).sum := by
    intro l
    induction l with
    | nil => simp
    | cons i l ih =>
      intro d
      rw [List.foldl_cons,ih,Dict.sum_set_add,List.map_cons,List.sum_cons]
      omega
  unfold blindVolume
  rw [((List.perm_insertionSort _ _).map _).sum_eq,hrun]
  simp

/-- Every interval is counted under its verdict. -/
theorem volumes_sum (intervals : List LivenessInterval) : ((blindVolume intervals).map (·.2)).sum+
    suppressedVolume intervals+liveVolume intervals = (intervals.map (·.durationNs)).sum := by
  rw [sum_blindVolume,suppressedVolume,liveVolume]
  induction intervals with
  | nil => rfl
  | cons i l ih =>
    cases hv : i.verdict <;> simp [hv] at ih ⊢ <;> omega

/-! ### The timeline of a source -/

/-- The outcomes of the elementary intervals of a grid. -/
def elementary (inputs : BuildInputs lib) (profile : Option (SourceProfile lib × String)) (source : SourceInput lib)
    (grid : List ℤ) : List (Piece ℤ Outcome) :=
  ((grid.zip grid.tail).foldl (walkInterval inputs profile source) ⟨[],[],[]⟩).outcomes

/-- The intervals partition the span, keep what the elementary ones say, do not repeat it and add up. -/
structure Partitions (t0Ns t1Ns : ℤ) (outcomes : List (Piece ℤ Outcome)) (entry : SourceLiveness) : Prop where
  inhabited : ∀ i ∈ entry.intervals, i.t0Ns < i.t1Ns
  contiguous : entry.intervals.IsChain fun i j => i.t1Ns = j.t0Ns
  starts : entry.intervals.head?.map (·.t0Ns) = some t0Ns
  stops : entry.intervals.getLast?.map (·.t1Ns) = some t1Ns
  elementary : ∀ t, t0Ns ≤ t → t < t1Ns → ∃ p ∈ outcomes, p.start ≤ t ∧ t < p.stop
  preserved : ∀ p ∈ outcomes, ∀ t, p.start ≤ t → t < p.stop → ∃ i ∈ entry.intervals,
    (i.t0Ns ≤ t ∧ t < i.t1Ns) ∧ i.verdict = p.label.verdict ∧ i.reason = p.label.reason
  reduced : entry.intervals.IsChain fun i j =>
    ¬(i.verdict = j.verdict ∧ i.reason = j.reason ∧ i.missingSeq = j.missingSeq ∧ i.witness = j.witness)
  volumes : (entry.blindVolumeNsByReason.map (·.2)).sum+entry.suppressedVolumeNs+liveVolume entry.intervals =
    t1Ns-t0Ns

theorem buildSource_partitions (hb : Bounds inputs phaseBounds) (hlt : inputs.scenarioT0Ns < inputs.scenarioT1Ns)
    (h : buildSource inputs profile phaseBounds queryEndpoints source = .ok entry) : ∃ grid,
      breakpoints ((sortedEvents source.events).map (·.tEvtNs)) phaseBounds queryEndpoints
        inputs.scenarioT0Ns inputs.scenarioT1Ns = .ok grid ∧
      mergeOutcomes (elementary inputs profile source grid) = .ok entry.intervals ∧
      Partitions inputs.scenarioT0Ns inputs.scenarioT1Ns (elementary inputs profile source grid) entry := by
  obtain ⟨-,hcuts,hreduced⟩ := buildSource_ok hb h
  obtain ⟨grid,hgrid,h⟩ := Runs.bind_ok.mp h
  obtain ⟨intervals,hmerge,h⟩ := Runs.bind_ok.mp h
  obtain ⟨_,rfl⟩ := validated_ok.mp h
  dsimp only at hcuts hreduced
  have houtcomes : elementary inputs profile source grid =
      (grid.zip grid.tail).map fun p => ⟨p.1,p.2,outcomeOf inputs profile source p⟩ :=
    (@walk_spec lib inputs profile source ⟨[],[],[]⟩ ⟨by simp,by simp⟩ (grid.zip grid.tail)).1.trans (by simp)
  have hpieces := @grid_cuts _ inputs profile phaseBounds queryEndpoints source _ hb hgrid
  rw [← houtcomes] at hpieces
  refine ⟨grid,hgrid,hmerge,?_,?_,?_,?_,?_,?_,?_,?_⟩
  · intro i hi
    exact (hcuts.inside (List.mem_map_of_mem hi)).2.1
  · exact (List.isChain_map _).mp hcuts.isChain
  · have := hcuts.head hlt
    rwa [List.head?_map,Option.map_map] at this
  · have := hcuts.last hlt
    rwa [List.getLast?_map,Option.map_map] at this
  · intro t h0 h1
    obtain ⟨p,hp,hp0,hp1,-⟩ := hpieces.mem_iff.mpr ⟨h0,h1,rfl⟩
    exact ⟨p,hp,hp0,hp1⟩
  · intro p hp t h0 h1
    obtain ⟨ht0,ht1,hlabel⟩ := hpieces.mem_iff.mp ⟨p,hp,h0,h1,rfl⟩
    obtain ⟨q,hq,hq0,hq1,heq⟩ := hcuts.mem_iff.mpr ⟨ht0,ht1,hlabel⟩
    obtain ⟨i,hi,rfl⟩ := List.mem_map.mp hq
    exact ⟨i,hi,⟨hq0,hq1⟩,congrArg (·.verdict) heq,congrArg (·.reason) heq⟩
  · refine ((List.isChain_map _).mp hreduced).imp fun i j hne hsame => hne ?_
    obtain ⟨hv,hr,hm,hw⟩ := hsame
    simp only [LivenessInterval.piece,hv,hr,hm,hw]
  · have hlengths := hcuts.sum_lengths
    rw [List.map_map] at hlengths
    exact (volumes_sum intervals).trans hlengths

/-- Every timeline of a document that is built partitions the span of the scenario. -/
theorem timeline_partitions {sources : List (SourceInput lib)} {document : LivenessDocument}
    (h : buildLivenessDocument lib inputs sources queryEndpoints = .ok document) :
    inputs.scenarioT0Ns < inputs.scenarioT1Ns ∧ ∀ entry ∈ document.sources,
      ∃ source ∈ sources, ∃ profile phaseBounds grid, entry.source = source.source ∧
        profile.map (·.1) = inputs.profile ∧ Bounds inputs phaseBounds ∧
        breakpoints ((sortedEvents source.events).map (·.tEvtNs)) phaseBounds queryEndpoints
          inputs.scenarioT0Ns inputs.scenarioT1Ns = .ok grid ∧
        mergeOutcomes (elementary inputs profile source grid) = .ok entry.intervals ∧
        Partitions inputs.scenarioT0Ns inputs.scenarioT1Ns (elementary inputs profile source grid) entry := by
  obtain ⟨profile,phaseBounds,hbuilt⟩ := buildLivenessDocument_ok h
  have hlt : inputs.scenarioT0Ns < inputs.scenarioT1Ns := by
    obtain ⟨_,-,h⟩ := Runs.bind_ok.mp h
    obtain ⟨_,-,h⟩ := Runs.bind_ok.mp h
    obtain ⟨_,-,h⟩ := Runs.bind_ok.mp h
    obtain ⟨_,-,h⟩ := Runs.bind_ok.mp h
    obtain ⟨_,hspan,-⟩ := Runs.bind_ok.mp h
    exact ensure_ok.mp hspan
  refine ⟨hlt,fun entry he => ?_⟩
  obtain ⟨source,hs,hsource⟩ := hbuilt.origin he
  obtain ⟨grid,hgrid,hmerge,hpartitions⟩ := buildSource_partitions hbuilt.bounds hlt hsource
  exact ⟨source,hs,profile,phaseBounds,grid,(buildSource_ok hbuilt.bounds hsource).1,hbuilt.identified,
    hbuilt.bounds,hgrid,hmerge,hpartitions⟩

theorem timeline_partitions_skipping : ∃ document,
    buildLivenessDocument (readerOf []) (dayInputs _) [skippingSource] [] = .ok document ∧
    (∃ entry, entry ∈ document.sources) ∧ ∀ entry ∈ document.sources, ∃ outcomes, Partitions 0 100 outcomes entry := by
  obtain ⟨document,view,hbuild,-,⟨entry,hentry,-⟩,-⟩ := skipping_runs
  refine ⟨document,hbuild,⟨entry,hentry⟩,fun entry he => ?_⟩
  obtain ⟨-,hall⟩ := timeline_partitions hbuild
  obtain ⟨_,-,_,_,_,-,-,-,-,-,hpartitions⟩ := hall entry he
  exact ⟨_,hpartitions⟩

end Liveness
end Spectra
