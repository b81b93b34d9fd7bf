import Spectra.BlindWindows
import Spectra.LivenessLicences

/-! Where the two licence implementations agree: on what is LIVE and on what is granted always, on
the licences themselves where no run of the envelope takes in two fragments of the document. -/
namespace Spectra

open Checker (Library sourcePrefix hasPrefix readerOf)
open Timeline (Covered covered_cons not_covered_nil)

namespace Liveness

/-! ### Fragments -/

/-- The fragments of a timeline, in order, without gaps, each with the ids of its witness in order. -/
structure Fragmented (intervals : List LivenessInterval) : Prop where
  before : intervals.Pairwise fun i j => i.t1Ns ≤ j.t0Ns
  lt : ∀ i ∈ intervals, i.t0Ns < i.t1Ns
  convex : ∀ i ∈ intervals, ∀ j ∈ intervals, ∀ t, i.t0Ns ≤ t → t < j.t1Ns →
    ∃ k ∈ intervals, k.t0Ns ≤ t ∧ t < k.t1Ns
  witness : ∀ i ∈ intervals, i.witness.Pairwise (· < ·)

section

variable {lib : Library}

theorem chainState_ascending (span : List (BundleRecord lib)) (integrityClass : IntegrityClass)
    (verifier : ChainVerifier lib) :
    (chainState span integrityClass verifier).witness.Pairwise (· < ·) := by
  unfold chainState
  split
  · exact .nil
  · split
    · exact .nil
    · split
      · exact Timeline.ascending_dedup _
      · exact .nil

theorem observeWindow_ascending (events : List (BundleRecord lib)) (times : List ℤ) (a b : ℤ)
    (phases : List Phase) (integrityClass : IntegrityClass) (verifier : ChainVerifier lib) :
    (observeWindow events times a b phases integrityClass verifier).chain.witness.Pairwise (· < ·) := by
  unfold observeWindow
  simp only
  split
  · cases integrityClass <;> simp
  · exact chainState_ascending _ _ _

theorem classify_ascending {o : WindowObservation} (h : o.chain.witness.Pairwise (· < ·))
    (mode : LivenessMode) (thresholdNs : Option ℤ) (saturated : Bool) (integrityClass : IntegrityClass)
    (mMin : ℤ) : (classify o mode thresholdNs saturated integrityClass mMin).witness.Pairwise (· < ·) := by
  unfold classify
  split
  · exact .nil
  split
  · exact .nil
  split
  · exact .nil
  split_ifs <;> first | exact .nil | exact h

theorem instantOutcome_ascending (inputs : BuildInputs lib) (profile : Option (SourceProfile lib × String))
    (source : SourceInput lib) (tNs : ℤ) :
    (instantOutcome inputs profile source tNs).witness.Pairwise (· < ·) := by
  unfold instantOutcome outcomeOf
  simp only
  split <;> exact classify_ascending (observeWindow_ascending ..) _ _ _ _ _

theorem buildSource_fragmented {inputs : BuildInputs lib} {profile : Option (SourceProfile lib × String)}
    {phaseBounds queryEndpoints : List ℤ} {source : SourceInput lib} {entry : SourceLiveness}
    (hb : Bounds inputs phaseBounds)
    (h : buildSource inputs profile phaseBounds queryEndpoints source = .ok entry) :
    Fragmented entry.intervals := by
  obtain ⟨-,hcuts,-⟩ := buildSource_ok hb h
  have hinside := fun i (hi : i ∈ entry.intervals) => hcuts.inside (List.mem_map_of_mem hi)
  refine ⟨List.pairwise_map.mp hcuts.pairwise,fun i hi => (hinside i hi).2.1,?_,fun i hi => ?_⟩
  · intro i hi j hj t h0 h1
    obtain ⟨p,hp,hp0,hp1,-⟩ := hcuts.mem_iff.mpr
      ⟨(hinside i hi).1.trans h0,h1.trans_le (hinside j hj).2.2,rfl⟩
    obtain ⟨k,hk,rfl⟩ := List.mem_map.mp hp
    exact ⟨k,hk,hp0,hp1⟩
  · obtain ⟨-,-,hlabel⟩ := hcuts.mem_iff.mp
      ⟨i.piece,List.mem_map_of_mem hi,le_rfl,(hinside i hi).2.1,rfl⟩
    have hwitness : i.witness = (instantOutcome inputs profile source i.t0Ns).witness :=
      congrArg (·.witness) hlabel.symm
    rw [hwitness]
    exact instantOutcome_ascending ..

end

/-- Every instant of the window is in a fragment of the kind. -/
def Over (kind : LivenessInterval → Prop) (intervals : List LivenessInterval) (window : Interval) : Prop :=
  ∀ t, window.t0Ns ≤ t → t < window.t1Ns → ∃ i ∈ intervals, i.t0Ns ≤ t ∧ t < i.t1Ns ∧ kind i

theorem overlaps_iff {i : LivenessInterval} {window : Interval} :
    i.overlaps window = true ↔ i.t0Ns < window.t1Ns ∧ window.t0Ns < i.t1Ns := by
  simp [LivenessInterval.overlaps,Interval.overlaps]

namespace Fragmented

variable {intervals : List LivenessInterval} {window : Interval}

/-- An instant is in one fragment. -/
theorem unique (h : Fragmented intervals) {i j : LivenessInterval} (hi : i ∈ intervals)
    (hj : j ∈ intervals) {t : ℤ} (hit : i.t0Ns ≤ t ∧ t < i.t1Ns) (hjt : j.t0Ns ≤ t ∧ t < j.t1Ns) :
    i = j := by
  have hpair : intervals.Pairwise fun i j => i = j ∨ i.t1Ns ≤ j.t0Ns ∨ j.t1Ns ≤ i.t0Ns :=
    h.before.imp fun hij => .inr (.inl hij)
  have hflip : intervals.Pairwise (flip fun i j => i = j ∨ i.t1Ns ≤ j.t0Ns ∨ j.t1Ns ≤ i.t0Ns) :=
    h.before.imp fun hij => .inr (.inr hij)
  rcases hpair.forall_of_forall_of_flip (fun _ _ => .inl rfl) hflip hi hj with he | hlt | hlt
  · exact he
  · omega
  · omega

/-- The first fragment starts before the others. -/
theorem head (h : Fragmented intervals) {l : List LivenessInterval} (hl : l.Sublist intervals)
    {first : LivenessInterval} (hf : l.head? = some first) : ∀ i ∈ l, first.t0Ns ≤ i.t0Ns := by
  obtain ⟨rest,rfl⟩ := List.head?_eq_some_iff.mp hf
  intro i hi
  rcases List.mem_cons.mp hi with rfl | hi
  · exact le_rfl
  · have hle := (List.pairwise_cons.mp (h.before.sublist hl)).1 i hi
    have := h.lt first (hl.subset (by simp))
    omega

/-- The last fragment ends after the others. -/
theorem last (h : Fragmented intervals) {l : List LivenessInterval} (hl : l.Sublist intervals)
    {last : LivenessInterval} (hf : l.getLast? = some last) : ∀ i ∈ l, i.t1Ns ≤ last.t1Ns := by
  obtain ⟨rest,rfl⟩ := List.getLast?_eq_some_iff.mp hf
  intro i hi
  rcases List.mem_append.mp hi with hi | hi
  · have hle := (List.pairwise_append.mp (h.before.sublist hl)).2.2 i hi last (by simp)
    have := h.lt last (hl.subset (by simp))
    omega
  · rw [List.mem_singleton.mp hi]

/-- A window is covered by fragments of a kind when the listed ones reach over it and those that meet
it are of that kind. -/
theorem covered_iff (h : Fragmented intervals) {l : List LivenessInterval} (hl : l.Sublist intervals)
    (hall : ∀ i ∈ intervals, i.overlaps window = true → i ∈ l) {first last : LivenessInterval}
    (hfirst : l.head? = some first) (hlast : l.getLast? = some last) (hlt : window.t0Ns < window.t1Ns)
    {kind : LivenessInterval → Prop} :
    Over kind intervals window ↔ ¬(window.t0Ns < first.t0Ns ∨ last.t1Ns < window.t1Ns) ∧
      ∀ i ∈ intervals, i.overlaps window = true → kind i := by
  constructor
  · intro hc
    refine ⟨?_,fun i hi ho => ?_⟩
    · obtain ⟨i,hi,hi0,hi1,-⟩ := hc window.t0Ns le_rfl hlt
      obtain ⟨j,hj,hj0,hj1,-⟩ := hc (window.t1Ns-1) (by omega) (by omega)
      have := h.head hl hfirst i (hall i hi (overlaps_iff.mpr (by omega)))
      have := h.last hl hlast j (hall j hj (overlaps_iff.mpr (by omega)))
      omega
    · obtain ⟨h0,h1⟩ := overlaps_iff.mp ho
      have := h.lt i hi
      obtain ⟨j,hj,hj0,hj1,hk⟩ := hc (max window.t0Ns i.t0Ns) (by omega) (by omega)
      rwa [h.unique hi hj (t := max window.t0Ns i.t0Ns) (by omega) ⟨hj0,hj1⟩]
  · rintro ⟨hreach,hkind⟩ t h0 h1
    have hf : first ∈ l := List.mem_of_mem_head? hfirst
    have hla : last ∈ l := List.mem_of_mem_getLast? hlast
    obtain ⟨k,hk,hk0,hk1⟩ := h.convex first (hl.subset hf) last (hl.subset hla) t (by omega) (by omega)
    exact ⟨k,hk,hk0,hk1,hkind k hk (overlaps_iff.mpr (by omega))⟩

/-- Nothing is covered where no fragment is listed. -/
theorem not_covered {l : List LivenessInterval}
    (hall : ∀ i ∈ intervals, i.overlaps window = true → i ∈ l) (hnil : l = [])
    (hlt : window.t0Ns < window.t1Ns) {kind : LivenessInterval → Prop} :
    ¬Over kind intervals window := by
  intro hc
  obtain ⟨i,hi,hi0,hi1,-⟩ := hc window.t0Ns le_rfl hlt
  have := hall i hi (overlaps_iff.mpr (by omega))
  rw [hnil] at this
  cases this

end Fragmented

/-! ### What is LIVE -/

section

variable {document : LivenessDocument} {view : LivenessView} {entry : SourceLiveness} {window : Interval}

theorem sourceEntry_self (h : entry ∈ document.sources) :
    document.sourceEntry entry.sourceId = some entry := by
  have hsome : (document.sourceEntry entry.sourceId).isSome := by
    unfold DocumentFields.sourceEntry
    exact List.find?_isSome.mpr ⟨entry,h,by simp⟩
  obtain ⟨found,hf⟩ := Option.isSome_iff_exists.mp hsome
  rw [hf]
  have hmem := List.mem_of_find?_eq_some hf
  have hid := List.find?_some hf
  simp only [Bool.or_eq_true,decide_eq_true_eq] at hid
  rcases hid with hid | hid
  · exact congrArg some (List.inj_on_of_nodup_map (document.ascending.imp ne_of_lt) hmem h hid)
  · -- a bare source is not the prefixed id of one
    have hno := isSnake_not_prefixed found.checked.1
    rw [hid,TimelineFields.sourceId] at hno
    have hyes : hasPrefix sourcePrefix (sourcePrefix++entry.source) = true := by
      rw [hasPrefix,Checker.octets_append]
      exact List.isPrefixOf_iff_prefix.mpr (List.prefix_append _ _)
    rw [hyes] at hno
    cases hno

theorem liveOver_iff (hf : Fragmented entry.intervals) : liveOver entry.intervals window = true ↔
    window.t0Ns < window.t1Ns ∧ Over (·.verdict = .live) entry.intervals window := by
  unfold liveOver
  split
  · rename_i first last hfirst hlast
    split
    · rename_i hempty
      refine iff_of_false (by simp) fun h => ?_
      rw [window_lt.mpr h.1] at hempty
      cases hempty
    · rename_i hne
      have hlt := window_lt.mp (by simpa using hne)
      rw [and_iff_right hlt,hf.covered_iff (.refl _) (fun _ hi _ => hi) hfirst hlast hlt]
      split
      · rename_i hout
        exact iff_of_false (by simp) fun h => h.1 hout
      · rename_i hin
        rw [and_iff_right hin,List.all_eq_true]
        refine forall₂_congr fun i _ => ?_
        cases i.overlaps window <;> simp
  · rename_i hnone
    refine iff_of_false (by simp) fun h => ?_
    refine Fragmented.not_covered (fun _ hi _ => hi) ?_ h.1 h.2
    by_contra hne
    exact hnone _ _ (List.head?_eq_some_head hne) (List.getLast?_eq_some_getLast hne)

/-! ### The view -/

/-- The view has the document's sources as they are seen. -/
theorem livenessView_views (h : livenessView document = .ok view) :
    List.Forall₂ (fun entry s => entry.view = .ok s) document.sources view.sources := by
  have hids := livenessView_ok h
  obtain ⟨sources,hs,h⟩ := Runs.bind_ok.mp h
  obtain ⟨_,rfl⟩ := validated_ok.mp h
  have hsorted : sources.Pairwise (·.sourceId ≤ ·.sourceId) := by
    have hviewed : List.Forall₂ SourceViewed document.sources sources :=
      (mapM_ok.mp hs).imp fun _ _ => view_sourceViewed
    have := document.ascending
    rw [← sourceIds_eq hviewed,List.pairwise_map] at this
    exact this.imp le_of_lt
  simp only [hsorted.insertionSort_eq]
  exact mapM_ok.mp hs

/-- The timeline of the view is the one of the document. -/
theorem timeline_views (h : livenessView document = .ok view) (he : entry ∈ document.sources) :
    List.Forall₂ (fun i j => i.view = .ok j) entry.intervals (view.timeline entry.sourceId) := by
  obtain ⟨s,hs,hview⟩ := (forall₂_mem (livenessView_views h)).1 entry he
  have hid : s.sourceId = entry.sourceId := (view_sourceViewed hview).named
  have hfind : view.sources.find? (·.sourceId = entry.sourceId) = some s := by
    have hsome : (view.sources.find? (·.sourceId = entry.sourceId)).isSome :=
      List.find?_isSome.mpr ⟨s,hs,by simpa using hid⟩
    obtain ⟨found,hf⟩ := Option.isSome_iff_exists.mp hsome
    have hn : (view.sources.map (·.sourceId)).Nodup :=
      (checkStrictlyAscending_ok.mp view.valid).imp ne_of_lt
    have hfid : found.sourceId = entry.sourceId := by simpa using List.find?_some hf
    rw [hf,List.inj_on_of_nodup_map hn (List.mem_of_find?_eq_some hf) hs (hfid.trans hid.symm)]
  rw [LivenessView.timeline,hfind]
  obtain ⟨intervals,hi,hview⟩ := Runs.bind_ok.mp hview
  obtain ⟨_,rfl⟩ := validated_ok.mp hview
  exact mapM_ok.mp hi

theorem liveFrom_iff {l : List Spectra.LivenessInterval} {cursor t1 : ℤ}
    (hb : l.Pairwise LivenessInterval.Before) (hlt : cursor < t1) : liveFrom t1 l cursor = true ↔
      Covered (·.t0Ns) (·.t1Ns) (·.verdict = .live) l cursor t1 := by
  induction l generalizing cursor with
  | nil => exact iff_of_false (by simp [liveFrom]) (not_covered_nil hlt)
  | cons i l ih =>
    obtain ⟨hi,hl⟩ := List.pairwise_cons.mp hb
    rw [covered_cons (fun j hj => (hi j hj).2) hlt,liveFrom]
    by_cases hend : i.t1Ns ≤ cursor
    · rw [if_pos hend,if_pos hend,ih hl hlt]
    rw [if_neg hend,if_neg hend]
    by_cases hstart : cursor < i.t0Ns
    · rw [if_pos hstart]
      exact iff_of_false (by simp) fun h => not_le.mpr hstart h.1
    rw [if_neg hstart,and_iff_right (not_lt.mp hstart)]
    by_cases hlive : i.isLive = true
    · have hv : i.verdict = .live := by simpa [LivenessInterval.isLive] using hlive
      rw [if_neg (by simp [hlive]),and_iff_right hv]
      by_cases hstop : t1 ≤ i.t1Ns
      · rw [if_pos hstop]
        exact iff_of_true rfl (.inl hstop)
      · rw [if_neg hstop,ih hl (not_le.mp hstop),or_iff_right hstop]
    · have hv : i.verdict ≠ .live := by simpa [LivenessInterval.isLive] using hlive
      rw [if_pos (by simpa using hlive)]
      exact iff_of_false (by simp) fun h => hv h.1

/-- What covers the window in the view covers it in the document. -/
theorem over_timeline (kind : LivenessVerdict → Prop) (h : livenessView document = .ok view)
    (he : entry ∈ document.sources) : Covered (·.t0Ns) (·.t1Ns) (kind ·.verdict)
      (view.timeline entry.sourceId) window.t0Ns window.t1Ns ↔
    Over (kind ·.verdict) entry.intervals window := by
  obtain ⟨hleft,hright⟩ := forall₂_mem (timeline_views h he)
  refine forall₃_congr fun t _ _ => ⟨?_,?_⟩
  · rintro ⟨j,hj,hj0,hj1,hk⟩
    obtain ⟨i,hi,hij⟩ := hright j hj
    have hv := view_viewed hij
    simp only [hv.start,hv.stop,hv.verdict] at hj0 hj1 hk
    exact ⟨i,hi,hj0,hj1,hk⟩
  · rintro ⟨i,hi,hi0,hi1,hk⟩
    obtain ⟨j,hj,hij⟩ := hleft i hi
    have hv := view_viewed hij
    refine ⟨j,hj,?_,?_,?_⟩
    · simpa only [hv.start] using hi0
    · simpa only [hv.stop] using hi1
    · simpa only [hv.verdict] using hk

theorem viewLive_iff (h : livenessView document = .ok view) (he : entry ∈ document.sources) :
    view.live entry.sourceId window = true ↔
      window.t0Ns < window.t1Ns ∧ Over (·.verdict = .live) entry.intervals window := by
  unfold LivenessView.live
  by_cases hlt : window.t0Ns < window.t1Ns
  · rw [if_neg (by simp [window_lt.mpr hlt]),and_iff_right hlt,
      liveFrom_iff (LivenessView.timeline_before (livenessView_contiguous h) _) hlt]
    exact over_timeline (· = .live) h he
  · rw [if_pos (by simpa using mt window_lt.mp hlt)]
    exact iff_of_false (by simp) fun hc => hlt hc.1

/-- A window is covered by runs when no part of it is LIVE. -/
theorem coveringRuns_isSome (h : livenessView document = .ok view) (he : entry ∈ document.sources) :
    (view.coveringRuns entry.sourceId window).isSome ↔
      window.t0Ns < window.t1Ns ∧ Over (·.verdict ≠ .live) entry.intervals window := by
  have hover : Covered (·.t0Ns) (·.t1Ns) (·.verdict ≠ .live) (view.timeline entry.sourceId)
      window.t0Ns window.t1Ns ↔ Over (·.verdict ≠ .live) entry.intervals window :=
    over_timeline (· ≠ .live) h he
  rw [LivenessView.coveringRuns_isSome (livenessView_contiguous h),← hover]
  refine and_congr_right fun _ => forall₃_congr fun t _ _ => ⟨?_,?_⟩
  · rintro ⟨verdict,reason,hlive,i,hi,h0,h1,hv,-⟩
    exact ⟨i,hi,h0,h1,fun hl => hlive (hv.symm.trans hl)⟩
  · rintro ⟨i,hi,h0,h1,hv⟩
    exact ⟨i.verdict,i.reason,hv,i,hi,h0,h1,rfl,rfl⟩

/-! ### The licences -/

/-- A run that a licence can be minted for. -/
structure Mintable (run : NonLiveRun) : Prop where
  source : ∃ name, isSnake name = true ∧ run.sourceId = sourcePrefix++name
  span : Interval.postInit run.t0Ns run.t1Ns = .ok ()
  reason : ∃ reason : Reason, run.reason = reason.text
  witness : run.witness.Nodup
  suppressed : run.verdict = .suppressed → run.witness ≠ []

variable {D : Digest}

theorem Reason.text_encodes (reason : Reason) :
    reason.text ≠ "" ∧ ∃ b, utf8Text reason.text = .ok b := by
  have hok : (utf8Text reason.text).isOk = true := by cases reason <;> decide
  refine ⟨by cases reason <;> decide,?_⟩
  cases hb : utf8Text reason.text with
  | ok b => exact ⟨b,rfl⟩
  | error e =>
    rw [hb] at hok
    cases hok

theorem Mintable.licensable {run : NonLiveRun} (h : Mintable run) : run.Licensable where
  source := by
    obtain ⟨name,hname,hsource⟩ := h.source
    exact hsource ▸ sourceId_encodes hname
  reason := by
    obtain ⟨reason,hreason⟩ := h.reason
    exact hreason ▸ reason.text_encodes.2
  witness hv := ⟨h.suppressed hv,h.witness⟩

theorem Mintable.licence_returns {run : NonLiveRun} (h : Mintable run) :
    ∃ l, run.licence D = .ok l := by
  obtain ⟨reason,hreason⟩ := h.reason
  exact (NonLiveRun.licence_returns_iff h.span (hreason ▸ reason.text_encodes.1)).mpr h.licensable

/-- A run that takes in one more interval of its source can still be licensed. -/
theorem extendRuns_mintable {name : String} (hname : isSnake name = true) {runs : List NonLiveRun}
    (hruns : ∀ r ∈ runs, Mintable r) {i : LivenessInterval} {j : Spectra.LivenessInterval}
    (hij : i.view = .ok j) (hw : i.witness.Pairwise (· < ·)) :
    ∀ r ∈ extendRuns (sourcePrefix++name) runs j, Mintable r := by
  obtain ⟨_,rfl⟩ := validated_ok.mp hij
  have hvalid := i.valid
  simp only [IntervalFields.postInit,checks_cons,ensure_ok] at hvalid
  obtain ⟨hspan,hsuppressed,-⟩ := hvalid
  have hfresh : Mintable ⟨sourcePrefix++name,i.t0Ns,i.t1Ns,i.verdict,i.reason.text,i.witness⟩ :=
    ⟨⟨name,hname,rfl⟩,hspan,⟨i.reason,rfl⟩,hw.imp ne_of_lt,fun hv => (hsuppressed hv).2⟩
  unfold extendRuns
  simp only
  split
  · exact hruns
  split
  · intro r hr
    rcases List.mem_append.mp hr with hr | hr
    · exact hruns r hr
    · exact List.mem_singleton.mp hr ▸ hfresh
  · rename_i previous hlast
    have hprevious := hruns previous (List.mem_of_mem_getLast? hlast)
    split
    · rename_i hmeet
      intro r hr
      rcases List.mem_append.mp hr with hr | hr
      · exact hruns r (List.mem_of_mem_dropLast hr)
      rw [List.mem_singleton.mp hr]
      have hold := hprevious.span
      simp only [Interval.postInit,checks_cons,ensure_ok] at hold hspan
      refine ⟨hprevious.source,?_,hprevious.reason,?_,fun hv hnil => ?_⟩
      · simp only [Interval.postInit,checks_cons,ensure_ok]
        have := hmeet.1
        exact ⟨hold.1,hspan.2.1,by omega,rfl⟩
      · exact (List.perm_insertionSort _ _).nodup_iff.mpr (List.nodup_dedup _)
      · obtain ⟨e,he⟩ := List.exists_mem_of_ne_nil _ (hprevious.suppressed hv)
        have hmem : e ∈ (previous.witness++i.witness).dedup.insertionSort (· ≤ ·) :=
          (List.mem_insertionSort _).mpr (List.mem_dedup.mpr (List.mem_append_left _ he))
        simp only at hnil
        rw [hnil] at hmem
        cases hmem
    · intro r hr
      rcases List.mem_append.mp hr with hr | hr
      · exact hruns r hr
      · exact List.mem_singleton.mp hr ▸ hfresh

theorem runs_mintable (h : livenessView document = .ok view) (he : entry ∈ document.sources)
    (hf : Fragmented entry.intervals) : ∀ r ∈ view.runs entry.sourceId, Mintable r := by
  have hfold : ∀ {l : List LivenessInterval} {m : List Spectra.LivenessInterval} {runs : List NonLiveRun},
      List.Forall₂ (fun i j => i.view = .ok j) l m → (∀ i ∈ l, i.witness.Pairwise (· < ·)) →
      (∀ r ∈ runs, Mintable r) →
      ∀ r ∈ m.foldl (extendRuns (sourcePrefix++entry.source)) runs, Mintable r := by
    intro l m runs hlm
    induction hlm generalizing runs with
    | nil => exact fun _ hruns => hruns
    | cons hij _ ih =>
      intro hw hruns
      exact ih (fun i hi => hw i (by simp [hi]))
        (extendRuns_mintable entry.checked.1 hruns hij (hw _ (by simp)))
  exact hfold (timeline_views h he) hf.witness (by simp)

/-- A fragment seen as a run of its own. -/
def fragmentRun (entry : SourceLiveness) (i : LivenessInterval) : NonLiveRun :=
  ⟨entry.sourceId,i.t0Ns,i.t1Ns,i.verdict,i.reason.text,i.witness⟩

theorem fragmentRun_mintable (hf : Fragmented entry.intervals) {i : LivenessInterval}
    (hi : i ∈ entry.intervals) : Mintable (fragmentRun entry i) := by
  have hvalid := i.valid
  simp only [IntervalFields.postInit,checks_cons,ensure_ok] at hvalid
  exact ⟨⟨entry.source,entry.checked.1,rfl⟩,hvalid.1,⟨i.reason,rfl⟩,(hf.witness i hi).imp ne_of_lt,
    fun hv => (hvalid.2.1 hv).2⟩

theorem hasPrefix_sourceId (entry : SourceLiveness) : hasPrefix sourcePrefix entry.sourceId = true := by
  rw [TimelineFields.sourceId,hasPrefix,Checker.octets_append]
  exact List.isPrefixOf_iff_prefix.mpr (List.prefix_append _ _)

/-- The document's licence of a fragment is the one of the run it would make. -/
theorem fragment_licence (hf : Fragmented entry.intervals) {i : LivenessInterval}
    (hi : i ∈ entry.intervals) :
    i.licence D entry.sourceId = (fragmentRun entry i).licence D := by
  have hvalid := i.valid
  simp only [IntervalFields.postInit,checks_cons,ensure_ok] at hvalid
  have hsorted : i.witness.insertionSort (· ≤ ·) = i.witness :=
    ((hf.witness i hi).imp le_of_lt).insertionSort_eq
  unfold LivenessInterval.licence NonLiveRun.licence fragmentRun
  rw [if_pos (hasPrefix_sourceId entry)]
  simp only
  by_cases hv : i.verdict = .suppressed
  · simp only [if_pos hv,if_true,hsorted]
  · have hnil : i.witness = [] := (hvalid.2.2.1 hv).2
    simp [if_neg hv,hnil]

/-- Every run of the view of a document that a build writes can be licensed. -/
theorem runs_licensable (h : livenessView document = .ok view)
    (hb : ∀ entry ∈ document.sources, Fragmented entry.intervals) {s : SourceId} {r : NonLiveRun} (hr : r ∈ view.runs s) : r.Licensable := by
  obtain ⟨i,hi,-⟩ := (LivenessView.runs_merged (livenessView_contiguous h) s).ends r hr
  obtain ⟨shown,hs,rfl,-⟩ := LivenessView.mem_timeline hi
  obtain ⟨entry,he,hentry⟩ := (forall₂_mem (livenessView_ok h)).2 shown hs
  exact (runs_mintable h he (hb entry he) r (hentry.named ▸ hr)).licensable

/-- The licences of the fragments that meet a window no part of which is LIVE. -/
theorem licencesFor_ok (he : entry ∈ document.sources) (hf : Fragmented entry.intervals)
    (hlt : window.t0Ns < window.t1Ns) (hover : Over (·.verdict ≠ .live) entry.intervals window) :
    ∃ licences, licencesFor D document entry.sourceId window = .ok licences ∧
      (∀ i ∈ entry.intervals, i.overlaps window = true →
        ∃ l ∈ licences, (fragmentRun entry i).licence D = .ok l) ∧
      ∀ l ∈ licences, ∃ i ∈ entry.intervals, i.overlaps window = true ∧
        (fragmentRun entry i).licence D = .ok l := by
  have hsub : (entry.intervals.filter (·.overlaps window)).Sublist entry.intervals := List.filter_sublist
  have hall : ∀ i ∈ entry.intervals, i.overlaps window = true → i ∈ entry.intervals.filter (·.overlaps window) :=
    fun i hi ho => List.mem_filter.mpr ⟨hi,ho⟩
  have hne : entry.intervals.filter (·.overlaps window) ≠ [] :=
    fun hnil => Fragmented.not_covered hall hnil hlt hover
  have hfirst := List.head?_eq_some_head hne
  have hlast := List.getLast?_eq_some_getLast hne
  obtain ⟨hreach,hkind⟩ := (hf.covered_iff hsub hall hfirst hlast hlt).mp hover
  obtain ⟨minted,hm⟩ : ∃ minted, (entry.intervals.filter (·.overlaps window)).mapM
      (·.licence D entry.sourceId) = .ok minted := by
    have hreturns : ∀ i ∈ entry.intervals.filter (·.overlaps window),
        ∃ l, i.licence D entry.sourceId = .ok l := by
      intro i hi
      rw [fragment_licence hf (hsub.subset hi)]
      exact (fragmentRun_mintable hf (hsub.subset hi)).licence_returns
    exact mapM_returns hreturns
  obtain ⟨hleft,hright⟩ := forall₂_mem (mapM_ok.mp hm)
  refine ⟨minted.insertionSort (·.sortKey ≤ ·.sortKey),?_,fun i hi ho => ?_,fun l hl => ?_⟩
  · refine Runs.bind_ok.mpr ⟨entry.intervals,?_,Runs.bind_ok.mpr ⟨(),ensure_ok.mpr ?_,?_⟩⟩
    · rw [intervalsOf,sourceEntry_self he]
    · simp [window_lt.mpr hlt]
    · simp only [hfirst,hlast]
      refine Runs.bind_ok.mpr ⟨(),ensure_ok.mpr hreach,Runs.bind_ok.mpr ⟨(),ensure_ok.mpr fun i hi => ?_,
        Runs.bind_ok.mpr ⟨minted,hm,rfl⟩⟩⟩
      exact hkind i (hsub.subset hi) (List.mem_filter.mp hi).2
  · obtain ⟨l,hl,hli⟩ := hleft i (hall i hi ho)
    rw [fragment_licence hf hi] at hli
    exact ⟨l,(List.mem_insertionSort _).mpr hl,hli⟩
  · obtain ⟨i,hi,hli⟩ := hright l ((List.mem_insertionSort _).mp hl)
    have hmem := hsub.subset hi
    rw [fragment_licence hf hmem] at hli
    exact ⟨i,hmem,(List.mem_filter.mp hi).2,hli⟩

theorem ensure_refused {α : Type} {p : Prop} [Decidable p] (h : ¬p) {detail : String}
    {f : Unit → Fallible α} : ∃ e, (ensure p (ErrorType.licenceError.mk detail) >>= f) = .error e ∧
      e.type = .licenceError :=
  ⟨_,by rw [ensure,if_neg h]; rfl,rfl⟩

/-- Over a window that is empty, or some part of which is LIVE or uncovered, nothing is licensed. -/
theorem licencesFor_refused (he : entry ∈ document.sources) (hf : Fragmented entry.intervals)
    (h : ¬(window.t0Ns < window.t1Ns ∧ Over (·.verdict ≠ .live) entry.intervals window)) :
    ∃ e, licencesFor D document entry.sourceId window = .error e ∧ e.type = .licenceError := by
  have hintervals : intervalsOf document entry.sourceId = .ok entry.intervals := by
    rw [intervalsOf,sourceEntry_self he]
  unfold licencesFor
  rw [hintervals]
  by_cases hlt : window.t0Ns < window.t1Ns
  swap
  · have hempty : window.isEmpty = true := by simpa using mt window_lt.mp hlt
    exact ensure_refused (not_not.mpr hempty)
  have hsub : (entry.intervals.filter (·.overlaps window)).Sublist entry.intervals := List.filter_sublist
  have hall : ∀ i ∈ entry.intervals, i.overlaps window = true → i ∈ entry.intervals.filter (·.overlaps window) :=
    fun i hi ho => List.mem_filter.mpr ⟨hi,ho⟩
  change ∃ e, (ensure _ _ >>= _) = .error e ∧ _
  rw [ensure,if_pos (by simp [window_lt.mpr hlt])]
  by_cases hnil : entry.intervals.filter (·.overlaps window) = []
  · simp only [hnil]
    exact ⟨_,rfl,rfl⟩
  have hfirst := List.head?_eq_some_head hnil
  have hlast := List.getLast?_eq_some_getLast hnil
  have hnot := mt (hf.covered_iff hsub hall hfirst hlast hlt).mpr fun hover => h ⟨hlt,hover⟩
  simp only [hfirst,hlast]
  generalize (entry.intervals.filter (·.overlaps window)).head hnil = first at hnot ⊢
  generalize (entry.intervals.filter (·.overlaps window)).getLast hnil = last at hnot ⊢
  by_cases hreach : window.t0Ns < first.t0Ns ∨ last.t1Ns < window.t1Ns
  · exact ensure_refused (not_not.mpr hreach)
  · rw [ensure,if_pos hreach]
    have hlive : ¬∀ fragment ∈ entry.intervals.filter (·.overlaps window), fragment.verdict ≠ .live :=
      fun hkind => hnot ⟨hreach,fun i hi ho => hkind i (hall i hi ho)⟩
    exact ensure_refused hlive

/-! ### Permission -/

/-- The window is not empty, and no part of it is LIVE or outside the timeline. -/
def Permitted (entry : SourceLiveness) (window : Interval) : Prop :=
  window.t0Ns < window.t1Ns ∧ Over (·.verdict ≠ .live) entry.intervals window

/-- Each of the sources permits the window. -/
def AllPermitted (document : LivenessDocument) (sources : List SourceId) (window : Interval) : Prop :=
  ∀ entry ∈ document.sources, entry.sourceId ∈ sources → Permitted entry window

/-- Every fragment of the document is as a build leaves it. -/
def Built (document : LivenessDocument) : Prop :=
  ∀ entry ∈ document.sources, Fragmented entry.intervals

theorem buildLivenessDocument_built {lib : Library} {inputs : BuildInputs lib}
    {sources : List (SourceInput lib)} {queryEndpoints : List ℤ}
    (h : buildLivenessDocument lib inputs sources queryEndpoints = .ok document) : Built document := by
  obtain ⟨profile,phaseBounds,hb⟩ := buildLivenessDocument_ok h
  intro entry he
  obtain ⟨source,-,hbuild⟩ := hb.origin he
  exact buildSource_fragmented hb.bounds hbuild

theorem live_returns (he : entry ∈ document.sources) :
    live document entry.sourceId window = .ok (liveOver entry.intervals window) := by
  rw [live,intervalsOf,sourceEntry_self he]
  rfl

/-- A permitted window is not LIVE. -/
theorem Permitted.not_live (hf : Fragmented entry.intervals) (h : Permitted entry window) :
    liveOver entry.intervals window = false := by
  rw [← Bool.not_eq_true,liveOver_iff hf]
  rintro ⟨hlt,hl⟩
  obtain ⟨i,hi,hi0,hi1,hv⟩ := h.2 window.t0Ns le_rfl hlt
  obtain ⟨j,hj,hj0,hj1,hv'⟩ := hl window.t0Ns le_rfl hlt
  rw [hf.unique hi hj ⟨hi0,hi1⟩ ⟨hj0,hj1⟩] at hv
  exact hv hv'

/-- The licences of the fragments of some sources that meet the window. -/
structure FragmentLicences (D : Digest) (document : LivenessDocument) (sources : List SourceId)
    (window : Interval) (licences : List Licence) : Prop where
  issued : ∀ entry ∈ document.sources, entry.sourceId ∈ sources → ∀ i ∈ entry.intervals,
    i.overlaps window = true → ∃ l ∈ licences, (fragmentRun entry i).licence D = .ok l
  fragments : ∀ l ∈ licences, ∃ entry ∈ document.sources, entry.sourceId ∈ sources ∧
    ∃ i ∈ entry.intervals, i.overlaps window = true ∧ (fragmentRun entry i).licence D = .ok l

/-- One source of the document is blocked, or its licences are collected. -/
theorem issueStep_ok (hb : Built document) (he : entry ∈ document.sources)
    (st : List String × List Licence) :
    (Permitted entry window → ∃ own, issueStep D document window st entry.sourceId = .ok (st.1,st.2++own) ∧
      FragmentLicences D document [entry.sourceId] window own) ∧
    (¬Permitted entry window →
      issueStep D document window st entry.sourceId = .ok (st.1++[entry.sourceId],st.2)) := by
  have hf := hb entry he
  have hsame : ∀ entry' ∈ document.sources, entry'.sourceId ∈ [entry.sourceId] → entry' = entry :=
    fun entry' he' hs => List.inj_on_of_nodup_map (document.ascending.imp ne_of_lt) he' he
      (List.mem_singleton.mp hs)
  constructor
  · intro hp
    obtain ⟨own,hown,hissued,hfragments⟩ := licencesFor_ok (D := D) he hf hp.1 hp.2
    refine ⟨own,?_,fun entry' he' hs => ?_,fun l hl => ?_⟩
    · refine Runs.bind_ok.mpr ⟨false,?_,?_⟩
      · rw [live_returns he,hp.not_live hf]
      · simp only [Bool.false_eq_true,if_false,hown]
        rfl
    · rw [hsame entry' he' hs]
      exact hissued
    · obtain ⟨i,hi,ho,hli⟩ := hfragments l hl
      exact ⟨entry,he,List.mem_singleton_self _,i,hi,ho,hli⟩
  · intro hp
    refine Runs.bind_ok.mpr ⟨liveOver entry.intervals window,live_returns he,?_⟩
    split
    · rfl
    · obtain ⟨e,hrefused,htype⟩ := licencesFor_refused (D := D) he hf hp
      simp only [hrefused,htype,if_true]
      rfl

/-- Going over declared sources ends with the licences of all, or with one of them blocked. -/
theorem issueSteps_ok (hb : Built document) {sources : List SourceId}
    (hs : ∀ s ∈ sources, ∃ entry ∈ document.sources, entry.sourceId = s)
    (st : List String × List Licence) :
    ∃ st', sources.foldlM (issueStep D document window) st = .ok st' ∧
      (st'.1 = [] ↔ st.1 = [] ∧ AllPermitted document sources window) ∧
      (st'.1 = [] → ∃ own, st'.2 = st.2++own ∧ FragmentLicences D document sources window own) := by
  induction sources generalizing st with
  | nil =>
    refine ⟨st,rfl,?_,fun _ => ⟨[],by simp,by simp,by simp⟩⟩
    simp [AllPermitted]
  | cons s sources ih =>
    obtain ⟨entry,he,rfl⟩ := hs s (by simp)
    obtain ⟨hyes,hno⟩ := @issueStep_ok document entry window D hb he st
    by_cases hp : Permitted entry window
    · obtain ⟨own,hstep,hissued,hfragments⟩ := hyes hp
      obtain ⟨st',hrest,hnone,hown⟩ := ih (fun s hs' => hs s (by simp [hs'])) (st.1,st.2++own)
      refine ⟨st',Runs.foldlM_cons_ok.mpr ⟨_,hstep,hrest⟩,hnone.trans (and_congr_right fun _ => ?_),?_⟩
      · constructor
        · intro hall entry' he' hs'
          rcases List.mem_cons.mp hs' with hid | hs'
          · rwa [List.inj_on_of_nodup_map (document.ascending.imp ne_of_lt) he' he hid]
          · exact hall entry' he' hs'
        · exact fun hall entry' he' hs' => hall entry' he' (by simp [hs'])
      · intro hnil
        obtain ⟨more,hmore,hissued',hfragments'⟩ := hown hnil
        refine ⟨own++more,by rw [hmore,List.append_assoc],fun entry' he' hs' i hi ho => ?_,fun l hl => ?_⟩
        · rcases List.mem_cons.mp hs' with hid | hs'
          · obtain ⟨l,hl,hli⟩ := hissued entry' he' (by simp [hid]) i hi ho
            exact ⟨l,by simp [hl],hli⟩
          · obtain ⟨l,hl,hli⟩ := hissued' entry' he' hs' i hi ho
            exact ⟨l,by simp [hl],hli⟩
        · rcases List.mem_append.mp hl with hl | hl
          · obtain ⟨entry',he',hs',hrest⟩ := hfragments l hl
            exact ⟨entry',he',by simp [List.mem_singleton.mp hs'],hrest⟩
          · obtain ⟨entry',he',hs',hrest⟩ := hfragments' l hl
            exact ⟨entry',he',by simp [hs'],hrest⟩
    · obtain ⟨st',hrest,hnone,hown⟩ := ih (fun s hs' => hs s (by simp [hs'])) (st.1++[entry.sourceId],st.2)
      have hblocked : st'.1 ≠ [] := fun hnil => by simpa using (hnone.mp hnil).1
      refine ⟨st',Runs.foldlM_cons_ok.mpr ⟨_,hno hp,hrest⟩,iff_of_false hblocked ?_,
        fun hnil => absurd hnil hblocked⟩
      exact fun hall => hp (hall.2 entry he (by simp))

/-- The envelope finds licences over a window that each of the sources permits. -/
theorem licencesFrom_returns (h : livenessView document = .ok view) (hb : Built document)
    {sources : List SourceId} (hs : ∀ s ∈ sources, ∃ entry ∈ document.sources, entry.sourceId = s) :
    ∃ found, licencesFrom D view window sources = .ok found ∧
      (found.isSome ↔ AllPermitted document sources window) := by
  induction sources with
  | nil => exact ⟨some [],rfl,by simp [AllPermitted]⟩
  | cons s sources ih =>
    obtain ⟨entry,he,rfl⟩ := hs s (by simp)
    obtain ⟨more,hmore,hiff⟩ := ih fun s hs' => hs s (by simp [hs'])
    have hcover := @coveringRuns_isSome document view entry window h he
    rw [licencesFrom]
    cases hruns : view.coveringRuns entry.sourceId window with
    | none =>
      rw [hruns] at hcover
      refine ⟨none,rfl,iff_of_false (by simp) fun hall => ?_⟩
      cases hcover.mpr (hall entry he (by simp))
    | some runs =>
      rw [hruns] at hcover
      have hp : Permitted entry window := hcover.mp rfl
      obtain ⟨own,hown⟩ := mapM_returns (f := (·.licence D)) fun r hr =>
        (runs_mintable h he (hb entry he) r ((LivenessView.coveringRuns_ok hruns).2.1 r hr).1).licence_returns
      refine ⟨more.map (own++·),Runs.bind_ok.mpr ⟨own,hown,Runs.bind_ok.mpr ⟨more,hmore,rfl⟩⟩,?_⟩
      rw [Option.isSome_map,hiff]
      constructor
      · intro hall entry' he' hs'
        rcases List.mem_cons.mp hs' with hid | hs'
        · rwa [List.inj_on_of_nodup_map (document.ascending.imp ne_of_lt) he' he hid]
        · exact hall entry' he' hs'
      · exact fun hall entry' he' hs' => hall entry' he' (by simp [hs'])

/-! ### Agreement -/

/-- No fragment that meets the window continues, or is continued by, one of its own verdict and reason. -/
def Unmerged (entry : SourceLiveness) (window : Interval) : Prop :=
  ∀ i ∈ entry.intervals, ∀ j ∈ entry.intervals, i.t1Ns = j.t0Ns →
    i.overlaps window = true ∨ j.overlaps window = true → ¬(i.verdict = j.verdict ∧ i.reason = j.reason)

/-- On each source the two say the same of LIVE, both answer the request, both or neither grant it, and
what they grant has the same ids. -/
structure LicencesAgree (D : Digest) (document : LivenessDocument) (view : LivenessView)
    (sources : List SourceId) (window : Interval) : Prop where
  live : ∀ s ∈ sources, Liveness.live document s window = .ok (view.live s window)
  licences : ∃ issue found, issueLicences D document sources window [] = .ok issue ∧
    licencesForWindow D view sources window = .ok found ∧ (issue.granted = true ↔ found.isSome) ∧
    ∀ licences ∈ found, issue.granted = true →
      ∀ id, id ∈ issue.licences.map (·.licenseId) ↔ id ∈ licences.map (·.licenseId)

/-- Equal spans of one source, verdict and reason have one licence id. -/
theorem licensed_id_eq {run run' : NonLiveRun} {l l' : Licence} (h : run.Licensed D l)
    (h' : run'.Licensed D l') (hs : run.sourceId = run'.sourceId) (h0 : run.t0Ns = run'.t0Ns)
    (h1 : run.t1Ns = run'.t1Ns) (hv : run.verdict = run'.verdict) (hr : run.reason = run'.reason) :
    l.licenseId = l'.licenseId := by
  obtain ⟨i,p,hi0,hi1,hp,hm⟩ := h.minted
  obtain ⟨i',p',hi0',hi1',hp',hm'⟩ := h'.minted
  have hbasis : run.basis = run'.basis := by rw [NonLiveRun.basis,NonLiveRun.basis,hv]
  have hsame : licencePayload l.basis l.reason l.sourceId i =
      licencePayload l'.basis l'.reason l'.sourceId i' := by
    rw [h.basis,h'.basis,hbasis,h.reason,h'.reason,hr,h.sourceId,h'.sourceId,hs]
    unfold licencePayload
    rw [hi0,hi1,hi0',hi1',h0,h1]
  rw [hm,hm',Except.ok.inj (hp.symm.trans (hsame.trans hp'))]

/-- A fragment of the document is shown by the view. -/
theorem fragment_shows (h : livenessView document = .ok view) (he : entry ∈ document.sources)
    {i : LivenessInterval} (hi : i ∈ entry.intervals) {t : ℤ} (ht : i.t0Ns ≤ t ∧ t < i.t1Ns) :
    view.Shows entry.sourceId t i.verdict i.reason.text := by
  obtain ⟨j,hj,hij⟩ := (forall₂_mem (timeline_views h he)).1 i hi
  have hv := view_viewed hij
  exact ⟨j,hj,by rw [hv.start]; exact ht.1,by rw [hv.stop]; exact ht.2,hv.verdict,hv.reason⟩

theorem Reason.text_injective : Function.Injective Reason.text := by
  intro a b h
  cases a <;> cases b <;> first | rfl | exact absurd h (by decide)

/-- What the view shows, a fragment of the document has. -/
theorem shows_fragment (h : livenessView document = .ok view) (he : entry ∈ document.sources)
    {j : Spectra.LivenessInterval} (hj : j ∈ view.timeline entry.sourceId) {t : ℤ}
    {verdict : LivenessVerdict} {reason : String} (hs : j.Shows t verdict reason) :
    ∃ i ∈ entry.intervals, (i.t0Ns ≤ t ∧ t < i.t1Ns) ∧ i.verdict = verdict ∧ i.reason.text = reason := by
  obtain ⟨i,hi,hij⟩ := (forall₂_mem (timeline_views h he)).2 j hj
  obtain ⟨h0,h1,hverdict,hreason⟩ := hs
  have hv := view_viewed hij
  exact ⟨i,hi,⟨by rw [← hv.start]; exact h0,by rw [← hv.stop]; exact h1⟩,hv.verdict.symm.trans hverdict,
    hv.reason.symm.trans hreason⟩

/-- Where nothing is merged, the run through an instant is the fragment through it. -/
theorem Unmerged.run (hu : Unmerged entry window) (h : livenessView document = .ok view)
    (hb : Built document) (he : entry ∈ document.sources) {r : NonLiveRun}
    (hr : r ∈ view.runs entry.sourceId) {i : LivenessInterval} (hi : i ∈ entry.intervals) {t : ℤ}
    (hrt : r.t0Ns ≤ t ∧ t < r.t1Ns) (hit : i.t0Ns ≤ t ∧ t < i.t1Ns) (ho : i.overlaps window = true) :
    r.t0Ns = i.t0Ns ∧ r.t1Ns = i.t1Ns ∧ r.verdict = i.verdict ∧ r.reason = i.reason.text := by
  have hf := hb entry he
  have hmerged := LivenessView.runs_merged (livenessView_contiguous h) entry.sourceId
  have hconstant : ∀ x, r.t0Ns ≤ x → x < r.t1Ns → ∃ k ∈ entry.intervals,
      (k.t0Ns ≤ x ∧ x < k.t1Ns) ∧ k.verdict = r.verdict ∧ k.reason.text = r.reason := by
    intro x h0 h1
    obtain ⟨j,hj,hs⟩ := hmerged.constant r hr x h0 h1
    exact shows_fragment h he hj hs
  obtain ⟨k,hk,hkt,hkv,hkr⟩ := hconstant t hrt.1 hrt.2
  obtain rfl := hf.unique hk hi hkt hit
  obtain ⟨j,hj,hij⟩ := (forall₂_mem (timeline_views h he)).1 k hi
  have hviewed := view_viewed hij
  have hspans : r.t0Ns ≤ k.t0Ns ∧ k.t1Ns ≤ r.t1Ns := by
    obtain ⟨q,hq,hs0,hs1,-⟩ := hmerged.spanned j hj (by
      simpa [LivenessInterval.isLive,hviewed.verdict,hkv] using (hmerged.named r hr).2)
    rw [hviewed.start] at hs0
    rw [hviewed.stop] at hs1
    obtain rfl : q = r := by
      rcases LivenessView.runs_apart (livenessView_contiguous h) hq hr with hqr | ⟨-,hle,-⟩ | ⟨-,hle,-⟩
      · exact hqr
      · omega
      · omega
    exact ⟨hs0,hs1⟩
  refine ⟨le_antisymm hspans.1 ?_,le_antisymm ?_ hspans.2,hkv.symm,hkr.symm⟩
  · -- a run that starts earlier has a fragment that ends where this one starts
    by_contra hlt
    obtain ⟨q,hq,hqt,hqv,hqr⟩ := hconstant (k.t0Ns-1) (by omega) (by omega)
    have hmeet : q.t1Ns = k.t0Ns := by
      by_contra hne
      have := hf.unique hq hi (t := k.t0Ns) (by omega) ⟨le_rfl,hf.lt k hi⟩
      rw [this] at hqt
      omega
    exact hu q hq k hi hmeet (.inr ho) ⟨hqv.trans hkv.symm,Reason.text_injective (hqr.trans hkr.symm)⟩
  · -- and one that stops later has a fragment that starts where this one stops
    by_contra hlt
    obtain ⟨q,hq,hqt,hqv,hqr⟩ := hconstant k.t1Ns (by omega) (by omega)
    have hmeet : k.t1Ns = q.t0Ns := by
      by_contra hne
      have hkk := hf.lt k hi
      have := hf.unique hq hi (t := k.t1Ns-1) (by omega) (by omega)
      rw [this] at hqt
      omega
    exact hu k hi q hq hmeet (.inl ho) ⟨hkv.trans hqv.symm,Reason.text_injective (hkr.trans hqr.symm)⟩

/-- A fragment that continues one of its own verdict and reason is not a run. -/
theorem not_run_of_merged (h : livenessView document = .ok view) (hb : Built document)
    (he : entry ∈ document.sources) {i j : LivenessInterval} (hi : i ∈ entry.intervals)
    (hj : j ∈ entry.intervals) (hmeet : i.t1Ns = j.t0Ns) (hv : i.verdict = j.verdict)
    (hr : i.reason = j.reason) (hlive : i.verdict ≠ .live) {r : NonLiveRun}
    (hrun : r ∈ view.runs entry.sourceId) : ¬(r.t0Ns = i.t0Ns ∧ r.t1Ns = i.t1Ns) ∧
      ¬(r.t0Ns = j.t0Ns ∧ r.t1Ns = j.t1Ns) := by
  have hc := livenessView_contiguous h
  have hilt := (hb entry he).lt i hi
  have hjlt := (hb entry he).lt j hj
  have hshows : ∀ x, i.t0Ns ≤ x → x < j.t1Ns → view.Shows entry.sourceId x i.verdict i.reason.text := by
    intro x h0 h1
    by_cases hx : x < i.t1Ns
    · exact fragment_shows h he hi ⟨h0,hx⟩
    · rw [hv,hr]
      exact fragment_shows h he hj ⟨by omega,h1⟩
  constructor
  · rintro ⟨h0,h1⟩
    have hin := LivenessView.mem_of_sameRun hc hrun (t := i.t0Ns) (u := j.t0Ns) (by omega)
      ⟨_,_,hlive,fun x hx0 hx1 => hshows x (by omega) (by omega)⟩
    omega
  · rintro ⟨h0,h1⟩
    have hin := LivenessView.mem_of_sameRun hc hrun (t := j.t0Ns) (u := i.t0Ns) (by omega)
      ⟨_,_,hlive,fun x hx0 hx1 => hshows x (by omega) (by omega)⟩
    omega

/-- Over a permitted window the ids agree exactly when nothing that meets it is merged. -/
theorem ids_agree_iff (h : livenessView document = .ok view) (hb : Built document)
    {sources : List SourceId} (hs : ∀ s ∈ sources, ∃ entry ∈ document.sources, entry.sourceId = s)
    (hp : AllPermitted document sources window) {own licences : List Licence}
    (hown : FragmentLicences D document sources window own)
    (hcover : Cover D view sources window licences) :
    (∀ id, id ∈ own.map (·.licenseId) ↔ id ∈ licences.map (·.licenseId)) ↔
      ∀ entry ∈ document.sources, entry.sourceId ∈ sources → Unmerged entry window := by
  have hc := livenessView_contiguous h
  constructor
  · intro hids entry he hes i hi j hj hmeet ho ⟨hv,hr⟩
    have hf := hb entry he
    -- a fragment that meets the window has the span of a run
    have hspan : ∀ k ∈ entry.intervals, k.overlaps window = true →
        k.verdict ≠ .live ∧ ∃ r ∈ view.runs entry.sourceId, r.t0Ns = k.t0Ns ∧ r.t1Ns = k.t1Ns := by
      intro k hk hko
      obtain ⟨l,hl,hlk⟩ := hown.issued entry he hes k hk hko
      obtain ⟨l',hl',hid⟩ := List.mem_map.mp ((hids l.licenseId).mp (List.mem_map_of_mem hl))
      obtain ⟨s,hs',runs,hruns,r,hr,hrl⟩ := hcover.runs l' hl'
      obtain ⟨-,-,hsource,h0,h1⟩ :=
        (NonLiveRun.licence_ok hrl).id_inj (NonLiveRun.licence_ok hlk) hid
      have hrun := ((LivenessView.coveringRuns_ok hruns).2.1 r hr).1
      have hname := ((LivenessView.runs_merged hc s).named r hrun).1
      have hsame : s = entry.sourceId := by
        rw [← hname,← (NonLiveRun.licence_ok hrl).sourceId,hsource,(NonLiveRun.licence_ok hlk).sourceId]
        rfl
      subst hsame
      obtain ⟨ho0,ho1⟩ := overlaps_iff.mp hko
      have hklt := hf.lt k hk
      have hwlt := (hp entry he hes).1
      obtain ⟨q,hq,hq0,hq1,hqv⟩ := (hp entry he hes).2 (max window.t0Ns k.t0Ns) (by omega) (by omega)
      refine ⟨?_,r,hrun,?_,?_⟩
      · rwa [hf.unique hk hq (t := max window.t0Ns k.t0Ns) (by omega) ⟨hq0,hq1⟩]
      · rw [← (NonLiveRun.licence_ok hrl).start,h0,(NonLiveRun.licence_ok hlk).start]
        rfl
      · rw [← (NonLiveRun.licence_ok hrl).stop,h1,(NonLiveRun.licence_ok hlk).stop]
        rfl
    rcases ho with ho | ho
    · obtain ⟨hlive,r,hrun,hspan⟩ := hspan i hi ho
      exact (not_run_of_merged h hb he hi hj hmeet hv hr hlive hrun).1 hspan
    · obtain ⟨hlive,r,hrun,hspan⟩ := hspan j hj ho
      exact (not_run_of_merged h hb he hi hj hmeet hv hr (hv ▸ hlive) hrun).2 hspan
  · intro hu id
    rw [List.mem_map,List.mem_map]
    constructor
    · rintro ⟨l,hl,rfl⟩
      obtain ⟨entry,he,hes,i,hi,ho,hli⟩ := hown.fragments l hl
      obtain ⟨ho0,ho1⟩ := overlaps_iff.mp ho
      have hilt := (hb entry he).lt i hi
      have hwlt := (hp entry he hes).1
      obtain ⟨runs,hruns,hall⟩ := hcover.covered entry.sourceId hes
      obtain ⟨-,hfound,hreach⟩ := LivenessView.coveringRuns_ok hruns
      obtain ⟨r,hr,hr0,hr1⟩ := hreach (max window.t0Ns i.t0Ns) (by omega) (by omega)
      have hrun := (hfound r hr).1
      obtain ⟨h0,h1,hv,hre⟩ := (hu entry he hes).run h hb he hrun hi (t := max window.t0Ns i.t0Ns)
        ⟨hr0,hr1⟩ (by omega) ho
      obtain ⟨l',hl',l'',hl'',hid⟩ := hall r hr
      refine ⟨l',hl',hid.symm.trans ?_⟩
      exact licensed_id_eq (NonLiveRun.licence_ok hl'') (NonLiveRun.licence_ok hli)
        ((LivenessView.runs_merged hc _).named r hrun).1 h0 h1 hv hre
    · rintro ⟨l,hl,rfl⟩
      obtain ⟨s,hs',runs,hruns,r,hr,hrl⟩ := hcover.runs l hl
      obtain ⟨entry,he,rfl⟩ := hs s hs'
      obtain ⟨hwlt,hfound,-⟩ := LivenessView.coveringRuns_ok hruns
      obtain ⟨hrun,hr0,hr1⟩ := hfound r hr
      have hmerged := LivenessView.runs_merged hc entry.sourceId
      obtain ⟨q,hq,hq0,hq1⟩ := hmerged.ends r hrun
      have hrlt : r.t0Ns < r.t1Ns := by
        have := (LivenessView.timeline_before hc entry.sourceId)
        obtain ⟨i,hi,hiq⟩ := (forall₂_mem (timeline_views h he)).2 q hq
        have hilt := (hb entry he).lt i hi
        rw [← (view_viewed hiq).start,← (view_viewed hiq).stop] at hilt
        omega
      obtain ⟨j,hj,hshows⟩ := hmerged.constant r hrun (max window.t0Ns r.t0Ns) (by omega) (by omega)
      obtain ⟨i,hi,hit,-,-⟩ := shows_fragment h he hj hshows
      have ho : i.overlaps window = true := overlaps_iff.mpr (by omega)
      obtain ⟨h0,h1,hv,hre⟩ := (hu entry he hs').run h hb he hrun hi (t := max window.t0Ns r.t0Ns)
        (by omega) hit ho
      obtain ⟨l',hl',hli⟩ := hown.issued entry he hs' i hi ho
      refine ⟨l',hl',?_⟩
      exact (licensed_id_eq (NonLiveRun.licence_ok hrl) (NonLiveRun.licence_ok hli)
        (hmerged.named r hrun).1 h0 h1 hv hre).symm

/-- A prefixed id the document does not have. -/
theorem live_absent {s : SourceId} (hp : hasPrefix sourcePrefix s = true)
    (hs : ¬∃ entry ∈ document.sources, entry.sourceId = s) (window : Interval) :
    live document s window ≠ .ok (view.live s window) := by
  have hnone : document.sourceEntry s = none := by
    rw [DocumentFields.sourceEntry,List.find?_eq_none]
    intro entry he hid
    simp only [Bool.or_eq_true,decide_eq_true_eq] at hid
    rcases hid with hid | hid
    · exact hs ⟨entry,he,hid⟩
    · have hno := isSnake_not_prefixed entry.checked.1
      rw [hid,hp] at hno
      cases hno
  rw [live,intervalsOf,hnone]
  exact nofun

/-- On declared sources the document answers a request, by whether all of them permit the window. -/
theorem issue_returns (hb : Built document) {sources : List SourceId} (hne : sources ≠ [])
    (hn : sources.Nodup) (hs : ∀ s ∈ sources, ∃ entry ∈ document.sources, entry.sourceId = s) :
    ∃ issue, issueLicences D document sources window [] = .ok issue ∧
      (issue.granted = true ↔ AllPermitted document sources window) ∧
      (issue.granted = true → FragmentLicences D document sources window issue.licences) := by
  have hmem : ∀ s, s ∈ sources.insertionSort (· ≤ ·) ↔ s ∈ sources :=
    fun s => List.mem_insertionSort _
  obtain ⟨st,hst,hnone,hown⟩ := @issueSteps_ok document window D hb (sources.insertionSort (· ≤ ·))
    (fun s h => hs s ((hmem s).mp h)) ([],[])
  simp only [AllPermitted,hmem] at hnone
  have hsorted : sortedUnique sources = .ok (sources.insertionSort (· ≤ ·)) := sortedUnique_ok.mpr ⟨hn,rfl⟩
  have hissue : ∀ {issue}, (if st.1 ≠ [] then pure ⟨false,[],[],st.1,false⟩ else
      pure ⟨true,st.2.insertionSort (·.sortKey ≤ ·.sortKey),[],[],false⟩ : Fallible LicenceIssue) = .ok issue →
      issueLicences D document sources window [] = .ok issue := by
    intro issue h
    rw [issueLicences,if_neg hne]
    refine Runs.bind_ok.mpr ⟨_,hsorted,Runs.bind_ok.mpr ⟨st,hst,?_⟩⟩
    simpa using h
  by_cases hnil : st.1 = []
  · obtain ⟨own,hsecond,hissued,hfragments⟩ := hown hnil
    rw [List.nil_append] at hsecond
    refine ⟨_,hissue (by rw [if_neg (not_not.mpr hnil)]; rfl),iff_of_true rfl (hnone.mp hnil).2,fun _ => ?_⟩
    refine ⟨fun entry he hid i hi ho => ?_,fun l hl => ?_⟩
    · obtain ⟨l,hl,hli⟩ := hissued entry he ((hmem _).mpr hid) i hi ho
      exact ⟨l,(List.mem_insertionSort _).mpr (hsecond ▸ hl),hli⟩
    · obtain ⟨entry,he,hid,hrest⟩ := hfragments l (hsecond ▸ (List.mem_insertionSort _).mp hl)
      exact ⟨entry,he,(hmem _).mp hid,hrest⟩
  · refine ⟨_,hissue (by rw [if_pos hnil]; rfl),iff_of_false (by simp) ?_,by simp⟩
    exact fun hall => hnil (hnone.mpr ⟨trivial,hall⟩)

/-- On declared sources the envelope answers it by the same. -/
theorem window_returns (h : livenessView document = .ok view) (hb : Built document)
    {sources : List SourceId} (hs : ∀ s ∈ sources, ∃ entry ∈ document.sources, entry.sourceId = s) :
    ∃ found, licencesForWindow D view sources window = .ok found ∧
      (found.isSome ↔ AllPermitted document sources window) := by
  have hmem : ∀ s, s ∈ sources.insertionSort (· ≤ ·) ↔ s ∈ sources :=
    fun s => List.mem_insertionSort _
  obtain ⟨found,hfound,hiff⟩ := @licencesFrom_returns document view window D h hb
    (sources.insertionSort (· ≤ ·)) fun s hs' => hs s ((hmem s).mp hs')
  refine ⟨_,Runs.bind_ok.mpr ⟨found,hfound,rfl⟩,?_⟩
  rw [Option.isSome_map,hiff]
  simp only [AllPermitted,hmem]

/-- On declared sources, at least one and none twice, the two agree when nothing is merged over a window
that is permitted. -/
theorem declared_agree_iff (h : livenessView document = .ok view) (hb : Built document)
    {sources : List SourceId} (hne : sources ≠ []) (hn : sources.Nodup)
    (hs : ∀ s ∈ sources, ∃ entry ∈ document.sources, entry.sourceId = s) :
    LicencesAgree D document view sources window ↔ (AllPermitted document sources window →
      ∀ entry ∈ document.sources, entry.sourceId ∈ sources → Unmerged entry window) := by
  obtain ⟨issue,hissue,hgranted,hown⟩ := @issue_returns document window D hb sources hne hn hs
  obtain ⟨found,hfound,hsome⟩ := @window_returns document view window D h hb sources hs
  constructor
  · rintro ⟨-,issue',found',hissue',hfound',-,hids⟩ hall
    obtain rfl := Except.ok.inj (hissue.symm.trans hissue')
    obtain rfl := Except.ok.inj (hfound.symm.trans hfound')
    obtain ⟨licences,rfl⟩ := Option.isSome_iff_exists.mp (hsome.mpr hall)
    have hyes := hgranted.mpr hall
    exact (ids_agree_iff h hb hs hall (hown hyes) (licencesForWindow_ok hfound)).mp (hids licences rfl hyes)
  · intro hu
    refine ⟨fun s hs' => ?_,issue,found,hissue,hfound,hgranted.trans hsome.symm,fun licences hl hyes => ?_⟩
    · obtain ⟨entry,he,rfl⟩ := hs s hs'
      rw [live_returns he]
      exact congrArg _ (Bool.eq_iff_iff.mpr ((liveOver_iff (hb entry he)).trans (viewLive_iff h he).symm))
    · obtain rfl : found = some licences := hl
      have hall := hgranted.mp hyes
      exact (ids_agree_iff h hb hs hall (hown hyes) (licencesForWindow_ok hfound)).mpr (hu hall)

end

/-- The two licence implementations agree about some sources exactly when these are in the document,
one at least and none twice, and, over a window that is permitted, nothing is merged. -/
theorem licences_agree_iff {lib : Library} {inputs : BuildInputs lib} {staged : List (SourceInput lib)}
    {queryEndpoints : List ℤ} {document : LivenessDocument} {view : LivenessView}
    (hbuild : buildLivenessDocument lib inputs staged queryEndpoints = .ok document)
    (hview : livenessView document = .ok view) {sources : List SourceId}
    (hids : ∀ s ∈ sources, hasPrefix sourcePrefix s = true) {D : Digest} {window : Interval} :
    LicencesAgree D document view sources window ↔ sources ≠ [] ∧ sources.Nodup ∧
      (∀ s ∈ sources, ∃ entry ∈ document.sources, entry.sourceId = s) ∧
      (AllPermitted document sources window →
        ∀ entry ∈ document.sources, entry.sourceId ∈ sources → Unmerged entry window) := by
  have hb := buildLivenessDocument_built hbuild
  constructor
  · intro h
    obtain ⟨issue,found,hissue,hfound,hgranted,-⟩ := h.licences
    have hs : ∀ s ∈ sources, ∃ entry ∈ document.sources, entry.sourceId = s :=
      fun s hs => by_contra fun hno => live_absent (hids s hs) hno window (h.live s hs)
    have hne : sources ≠ [] := by
      -- no source blocks the envelope, which finds no licence to mint
      rintro rfl
      obtain rfl := Except.ok.inj hissue
      obtain rfl := Except.ok.inj hfound
      cases hgranted.mpr rfl
    have hn : sources.Nodup := by
      rw [issueLicences,if_neg hne] at hissue
      obtain ⟨sorted,hsorted,-⟩ := Runs.bind_ok.mp hissue
      exact (sortedUnique_ok.mp hsorted).1
    exact ⟨hne,hn,hs,(declared_agree_iff hview hb hne hn hs).mp h⟩
  · rintro ⟨hne,hn,hs,hu⟩
    exact (declared_agree_iff hview hb hne hn hs).mpr hu

/-! ### Two numbers missing in a row -/

/-- Between 0 and 2, and between 2 and 4, a number is missing. -/
def skippingLogin : BundleRecord (readerOf []) where
  eventId := "ev:2"
  recordId := "rc:2"
  source := "iam"
  seq := 2
  eventType := "login"
  tEvtNs := 15
  tIngNs := 15
  attrs := []
  chainHash := some (hashOf '9')
  chainPrev := some (hashOf '8')
  valid := by decide

def lastLogin : BundleRecord (readerOf []) where
  eventId := "ev:3"
  recordId := "rc:3"
  source := "iam"
  seq := 4
  eventType := "login"
  tEvtNs := 20
  tIngNs := 20
  attrs := []
  chainHash := some (hashOf 'a')
  chainPrev := some (hashOf '9')
  valid := by decide

def skippingSource : SourceInput (readerOf []) :=
  ⟨"iam",.chained,[firstLogin,skippingLogin,lastLogin],none,iam_valid⟩

def skippedWindow : Interval := ⟨10,20,by decide⟩

/-- The document and its view, and what they hold of the window. -/
def skippingRun := returned (do
    let document ← buildLivenessDocument (readerOf []) (dayInputs _) [skippingSource] []
    let view ← livenessView document
    pure (document,view))
  (fun r => decide ((∃ entry ∈ r.1.sources, entry.sourceId = "src:iam" ∧
    (∃ i ∈ entry.intervals, ∃ j ∈ entry.intervals, i.t1Ns = j.t0Ns ∧ i.overlaps skippedWindow = true ∧
      i.verdict = j.verdict ∧ i.reason = j.reason)) ∧ r.2.coveringRuns "src:iam" skippedWindow ≠ none))
  (by decide +kernel)

/-- Two fragments of the document, which end and start at 15, have one verdict and one reason. -/
theorem skipping_runs : ∃ document view,
    buildLivenessDocument (readerOf []) (dayInputs _) [skippingSource] [] = .ok document ∧
    livenessView document = .ok view ∧ (∃ entry ∈ document.sources, entry.sourceId = "src:iam" ∧
      (∃ i ∈ entry.intervals, ∃ j ∈ entry.intervals, i.t1Ns = j.t0Ns ∧ i.overlaps skippedWindow = true ∧
        i.verdict = j.verdict ∧ i.reason = j.reason)) ∧
    view.coveringRuns "src:iam" skippedWindow ≠ none := by
  obtain ⟨document,hdocument,hrun⟩ := Runs.bind_ok.mp skippingRun.2.1
  obtain ⟨view,hview,hrun⟩ := Runs.bind_ok.mp hrun
  have hc := of_decide_eq_true skippingRun.2.2
  rw [← Runs.pure_ok.mp hrun] at hc
  exact ⟨document,view,hdocument,hview,hc⟩

theorem licences_agree_iff_skipping : ∃ document view,
    buildLivenessDocument (readerOf []) (dayInputs _) [skippingSource] [] = .ok document ∧
    livenessView document = .ok view ∧
    (LicencesAgree Digest.spelled document view ["src:iam"] skippedWindow ↔
      (["src:iam"] : List SourceId) ≠ [] ∧ (["src:iam"] : List SourceId).Nodup ∧
      (∀ s ∈ ["src:iam"], ∃ entry ∈ document.sources, entry.sourceId = s) ∧
      (AllPermitted document ["src:iam"] skippedWindow →
        ∀ entry ∈ document.sources, entry.sourceId ∈ ["src:iam"] → Unmerged entry skippedWindow)) := by
  obtain ⟨document,view,hbuild,hview,-⟩ := skipping_runs
  exact ⟨document,view,hbuild,hview,licences_agree_iff hbuild hview (by decide)⟩

/-- The document has two licences for the window and the envelope has one. -/
theorem licences_disagree : ¬∀ (D : Digest) (lib : Library) (inputs : BuildInputs lib)
    (staged : List (SourceInput lib)) (queryEndpoints : List ℤ) (document : LivenessDocument)
    (view : LivenessView) (sources : List SourceId) (window : Interval),
    buildLivenessDocument lib inputs staged queryEndpoints = .ok document →
    livenessView document = .ok view →
    (∀ s ∈ sources, ∃ entry ∈ document.sources, entry.sourceId = s) → sources ≠ [] → sources.Nodup →
    LicencesAgree D document view sources window := by
  intro hall
  obtain ⟨document,view,hbuild,hview,⟨entry,he,hid,i,hi,j,hj,hmeet,ho,hv,hr⟩,hcover⟩ := skipping_runs
  have hb := buildLivenessDocument_built hbuild
  have hs : ∀ s ∈ ["src:iam"], ∃ entry ∈ document.sources, entry.sourceId = s :=
    fun s hs => ⟨entry,he,hid.trans (List.mem_singleton.mp hs).symm⟩
  have hagree := hall Digest.spelled _ _ _ _ document view ["src:iam"] skippedWindow hbuild hview hs
    (by decide) (by decide)
  refine (declared_agree_iff hview hb (by decide) (by decide) hs).mp hagree ?_ entry he (by simp [hid])
    i hi j hj hmeet (.inl ho) ⟨hv,hr⟩
  intro entry' he' hs'
  rw [← Option.isSome_iff_ne_none,← List.mem_singleton.mp hs'] at hcover
  exact (coveringRuns_isSome hview he').mp hcover

end Liveness

end Spectra
