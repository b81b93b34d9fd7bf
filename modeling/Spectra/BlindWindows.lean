import Spectra.Blindness
import Spectra.Encodes
import Spectra.Grants
import Spectra.Timeline

/-! The joint blind windows of several sources: they are the instants at which each of the sources is
blind, and the licences of a window cover it on each of them. -/
namespace Spectra

open Timeline (Covered covered_cons not_covered_nil)

/-! ### Intervals -/

theorem postInit_iff {t0 t1 : ℤ} : Interval.postInit t0 t1 = .ok () ↔
    (-2^63 ≤ t0 ∧ t0 < 2^63) ∧ (-2^63 ≤ t1 ∧ t1 < 2^63) ∧ t0 ≤ t1 := by
  simp only [Interval.postInit,checkNanos,checks_cons,ensure_ok,checks_nil,and_true]

theorem Interval.of_returns {t0 t1 : ℤ} (h0 : -2^63 ≤ t0 ∧ t0 < 2^63) (h1 : -2^63 ≤ t1 ∧ t1 < 2^63)
    (hle : t0 ≤ t1) : ∃ w, Interval.of t0 t1 = .ok w :=
  ⟨⟨t0,t1,postInit_iff.mpr ⟨h0,h1,hle⟩⟩,Interval.of_ok.mpr ⟨rfl,rfl⟩⟩

theorem window_lt {window : Interval} : window.isEmpty = false ↔ window.t0Ns < window.t1Ns := by
  have := window.le
  rw [Interval.isEmpty,decide_eq_false_iff_not]
  omega

/-- The run and the window have an instant in common. -/
def NonLiveRun.Meets (r : NonLiveRun) (window : Interval) : Prop :=
  ∃ t, window.t0Ns ≤ t ∧ t < window.t1Ns ∧ r.t0Ns ≤ t ∧ t < r.t1Ns

/-! ### Covers -/

theorem coverFrom_isSome {runs : List NonLiveRun} {cursor t1 : ℤ}
    (hb : runs.Pairwise NonLiveRun.Apart) (hlt : cursor < t1) : (coverFrom t1 runs cursor).isSome ↔
      Covered (·.t0Ns) (·.t1Ns) (fun _ => True) runs cursor t1 := by
  induction runs generalizing cursor with
  | nil => exact iff_of_false (by simp [coverFrom]) (not_covered_nil hlt)
  | cons r runs ih =>
    obtain ⟨hr,hruns⟩ := List.pairwise_cons.mp hb
    rw [covered_cons (fun j hj => (hr j hj).2.1) hlt,coverFrom]
    by_cases hend : r.t1Ns ≤ cursor
    · rw [if_pos hend,if_pos hend,ih hruns hlt]
    rw [if_neg hend,if_neg hend]
    by_cases hstart : cursor < r.t0Ns
    · rw [if_pos hstart]
      exact iff_of_false (by simp) fun h => not_le.mpr hstart h.1
    rw [if_neg hstart,and_iff_right (not_lt.mp hstart),and_iff_right trivial]
    by_cases hstop : t1 ≤ r.t1Ns
    · rw [if_pos hstop]
      exact iff_of_true rfl (.inl hstop)
    · rw [if_neg hstop,Option.isSome_map,ih hruns (not_le.mp hstop),or_iff_right hstop]

/-- What covers a span meets it. -/
theorem coverFrom_meets {t1 cursor : ℤ} {runs found : List NonLiveRun} (hlt : cursor < t1)
    (h : coverFrom t1 runs cursor = some found) :
    ∀ r ∈ found, ∃ t, cursor ≤ t ∧ t < t1 ∧ r.t0Ns ≤ t ∧ t < r.t1Ns := by
  induction runs generalizing cursor found with
  | nil => cases h
  | cons r runs ih =>
    rw [coverFrom] at h
    split_ifs at h with hend hstart hstop
    · exact ih hlt h
    · cases h
      exact List.forall_mem_singleton.mpr ⟨cursor,le_rfl,hlt,by omega,by omega⟩
    · obtain ⟨later,hlater,rfl⟩ := Option.map_eq_some_iff.mp h
      refine List.forall_mem_cons.mpr ⟨⟨cursor,le_rfl,hlt,by omega,by omega⟩,fun q hq => ?_⟩
      obtain ⟨t,h0,h1,hqt⟩ := ih (by omega) hlater q hq
      exact ⟨t,by omega,h1,hqt⟩

namespace LivenessView

variable {view : LivenessView} {source : SourceId} {window : Interval}

/-- A window is covered by runs when the source is blind at each of its instants. -/
theorem coveringRuns_isSome (hc : view.Contiguous) : (view.coveringRuns source window).isSome ↔
    window.t0Ns < window.t1Ns ∧ ∀ t, window.t0Ns ≤ t → t < window.t1Ns → view.BlindAt source t := by
  have hmerged := runs_merged hc source
  unfold coveringRuns
  by_cases hlt : window.t0Ns < window.t1Ns
  · rw [if_neg (by simp [window_lt.mpr hlt]),and_iff_right hlt,coverFrom_isSome hmerged.apart hlt]
    refine forall₃_congr fun t _ _ => ⟨?_,?_⟩
    · rintro ⟨r,hr,hr0,hr1,-⟩
      exact ⟨r.verdict,r.reason,(hmerged.named r hr).2,hmerged.constant r hr t hr0 hr1⟩
    · rintro ⟨verdict,reason,hlive,hshows⟩
      obtain ⟨r,hr,hr0,hr1,-⟩ := run_of_shows hc hlive hshows
      exact ⟨r,hr,hr0,hr1,trivial⟩
  · rw [if_pos (by simpa using mt window_lt.mp hlt)]
    exact iff_of_false (by simp) fun h => hlt h.1

/-- What covers a window are the runs of the source that meet it. -/
theorem mem_coveringRuns (hc : view.Contiguous) {found : List NonLiveRun}
    (h : view.coveringRuns source window = some found) {r : NonLiveRun} :
    r ∈ found ↔ r ∈ view.runs source ∧ r.Meets window := by
  obtain ⟨hlt,hfound,hcover⟩ := coveringRuns_ok h
  constructor
  · intro hr
    rw [coveringRuns,if_neg (by simp [window_lt.mpr hlt])] at h
    exact ⟨(hfound r hr).1,coverFrom_meets hlt h r hr⟩
  · rintro ⟨hr,t,h0,h1,hr0,hr1⟩
    obtain ⟨q,hq,hq0,hq1⟩ := hcover t h0 h1
    -- two runs of a source through one instant are the same
    rcases runs_apart hc hr (hfound q hq).1 with rfl | ⟨-,hle,-⟩ | ⟨-,hle,-⟩
    · exact hq
    · omega
    · omega

/-! ### Breakpoints -/

theorem mem_breakpoints {sources : List SourceId} {v : ℤ} : v ∈ view.breakpoints sources ↔
    ∃ s ∈ sources, ∃ i ∈ view.timeline s, v = i.t0Ns ∨ v = i.t1Ns := by
  simp [breakpoints]

theorem breakpoints_range {sources : List SourceId} {v : ℤ} (hv : v ∈ view.breakpoints sources) :
    -2^63 ≤ v ∧ v < 2^63 := by
  obtain ⟨s,-,i,-,hi⟩ := mem_breakpoints.mp hv
  have hvalid := i.valid
  rw [checks_cons,postInit_iff] at hvalid
  rcases hi with rfl | rfl
  · exact hvalid.1.1
  · exact hvalid.1.2.1

/-- A source that is blind at an instant has a breakpoint up to it and one past it. -/
theorem BlindAt.between {t : ℤ} {sources : List SourceId} (h : view.BlindAt source t)
    (hs : source ∈ sources) : ∃ i ∈ view.timeline source, i.t0Ns ≤ t ∧ t < i.t1Ns ∧ i.isLive = false ∧
      i.t0Ns ∈ view.breakpoints sources ∧ i.t1Ns ∈ view.breakpoints sources := by
  obtain ⟨verdict,reason,hlive,i,hi,h0,h1,hv,-⟩ := h
  exact ⟨i,hi,h0,h1,by simpa [LivenessInterval.isLive,hv] using hlive,
    mem_breakpoints.mpr ⟨source,hs,i,hi,.inl rfl⟩,mem_breakpoints.mpr ⟨source,hs,i,hi,.inr rfl⟩⟩

/-- Between neighbouring breakpoints a source stays as it is. -/
theorem BlindAt.constant {sources : List SourceId} {a b t u : ℤ} (h : view.BlindAt source t)
    (hs : source ∈ sources) (hgap : ∀ v ∈ view.breakpoints sources, v ≤ a ∨ b ≤ v)
    (ht : a ≤ t ∧ t < b) (hu : a ≤ u ∧ u < b) : view.BlindAt source u := by
  obtain ⟨i,hi,h0,h1,hlive,hstart,hstop⟩ := h.between hs
  refine ⟨i.verdict,i.reason,by simpa [LivenessInterval.isLive] using hlive,i,hi,?_,?_,rfl,rfl⟩
  · rcases hgap _ hstart with hv | hv <;> omega
  · rcases hgap _ hstop with hv | hv <;> omega

end LivenessView

/-! ### Windows of a set of instants -/

/-- The windows before an instant: none is empty, each ends before the next one begins, and together
they have the instants of the set. -/
structure Exhausts (blind : ℤ → Prop) (windows : List Interval) (stop : ℤ) : Prop where
  filled : ∀ w ∈ windows, w.t0Ns < w.t1Ns
  apart : windows.Pairwise fun w w' => w.t1Ns < w'.t0Ns
  before : ∀ w ∈ windows, w.t1Ns ≤ stop
  exact : ∀ t < stop, (∃ w ∈ windows, w.t0Ns ≤ t ∧ t < w.t1Ns) ↔ blind t

namespace Exhausts

variable {blind : ℤ → Prop} {windows : List Interval} {a b : ℤ} {elementary : Interval}

/-- A stretch without an instant of the set adds nothing. -/
theorem skip (h : Exhausts blind windows a) (hab : a ≤ b) (hno : ∀ t, a ≤ t → t < b → ¬blind t) :
    Exhausts blind windows b where
  filled := h.filled
  apart := h.apart
  before w hw := (h.before w hw).trans hab
  exact t ht := by
    by_cases hta : t < a
    · exact h.exact t hta
    · refine iff_of_false ?_ (hno t (by omega) ht)
      rintro ⟨w,hw,-,hw1⟩
      have := h.before w hw
      omega

/-- A window past the others, which none of them meets. -/
theorem concat (h : Exhausts blind windows elementary.t0Ns) (hlt : elementary.t0Ns < elementary.t1Ns)
    (hlast : ∀ w ∈ windows, w.t1Ns < elementary.t0Ns)
    (hall : ∀ t, elementary.t0Ns ≤ t → t < elementary.t1Ns → blind t) :
    Exhausts blind (windows++[elementary]) elementary.t1Ns where
  filled := by
    rw [List.forall_mem_append,List.forall_mem_singleton]
    exact ⟨h.filled,hlt⟩
  apart := by
    rw [List.pairwise_append]
    exact ⟨h.apart,List.pairwise_singleton _ _,fun w hw => List.forall_mem_singleton.mpr (hlast w hw)⟩
  before := by
    rw [List.forall_mem_append,List.forall_mem_singleton]
    exact ⟨fun w hw => (h.before w hw).trans hlt.le,le_rfl⟩
  exact t ht := by
    by_cases hta : t < elementary.t0Ns
    · rw [← h.exact t hta]
      constructor
      · rintro ⟨w,hw,hw0,hw1⟩
        rcases List.mem_append.mp hw with hw | hw
        · exact ⟨w,hw,hw0,hw1⟩
        · rw [List.mem_singleton.mp hw] at hw0
          omega
      · rintro ⟨w,hw,hrest⟩
        exact ⟨w,List.mem_append_left _ hw,hrest⟩
    · exact iff_of_true ⟨elementary,by simp,by omega,ht⟩ (hall t (by omega) ht)

/-- The last window, when it ends where the next one begins, takes it in. -/
theorem extend {last window : Interval} (h : Exhausts blind (windows++[last]) elementary.t0Ns)
    (hlt : elementary.t0Ns < elementary.t1Ns) (hmeet : last.t1Ns = elementary.t0Ns)
    (hwindow : window.t0Ns = last.t0Ns ∧ window.t1Ns = elementary.t1Ns)
    (hall : ∀ t, elementary.t0Ns ≤ t → t < elementary.t1Ns → blind t) :
    Exhausts blind (windows++[window]) elementary.t1Ns := by
  obtain ⟨hw0,hw1⟩ := hwindow
  have hlast : last.t0Ns < last.t1Ns := h.filled last (by simp)
  obtain ⟨hapart,-,hcross⟩ := List.pairwise_append.mp h.apart
  constructor
  · rw [List.forall_mem_append,List.forall_mem_singleton]
    exact ⟨fun w hw => h.filled w (by simp [hw]),by omega⟩
  · rw [List.pairwise_append]
    refine ⟨hapart,List.pairwise_singleton _ _,fun w hw => List.forall_mem_singleton.mpr ?_⟩
    rw [hw0]
    exact hcross w hw last (by simp)
  · rw [List.forall_mem_append,List.forall_mem_singleton]
    exact ⟨fun w hw => (h.before w (by simp [hw])).trans hlt.le,hw1.le⟩
  · intro t ht
    by_cases hta : t < elementary.t0Ns
    · rw [← h.exact t hta]
      simp only [List.mem_append,List.mem_singleton,or_and_right,exists_or,exists_eq_left]
      refine or_congr_right ?_
      rw [hw0,hw1]
      omega
    · exact iff_of_true ⟨window,by simp,by omega,by omega⟩ (hall t (by omega) ht)

/-- Keeping an elementary window. -/
theorem keep (h : Exhausts blind windows elementary.t0Ns) (hlt : elementary.t0Ns < elementary.t1Ns)
    (hall : ∀ t, elementary.t0Ns ≤ t → t < elementary.t1Ns → blind t) :
    ∃ kept, keepWindow windows elementary = .ok kept ∧ Exhausts blind kept elementary.t1Ns := by
  unfold keepWindow
  split
  · rename_i hn
    rw [List.getLast?_eq_none_iff] at hn
    subst hn
    exact ⟨_,rfl,h.concat hlt (by simp) hall⟩
  · rename_i last hlast
    obtain ⟨front,rfl⟩ := List.getLast?_eq_some_iff.mp hlast
    split
    · rename_i hmeet
      have hfirst := (postInit_iff.mp last.valid).1
      have hsecond := (postInit_iff.mp elementary.valid).2.1
      have hspan : last.t0Ns < last.t1Ns := h.filled last (by simp)
      obtain ⟨window,hwindow⟩ := Interval.of_returns hfirst hsecond (by omega)
      refine ⟨front++[window],Runs.bind_ok.mpr ⟨window,hwindow,?_⟩,
        h.extend hlt hmeet (Interval.of_ok.mp hwindow) hall⟩
      rw [List.dropLast_concat]
      rfl
    · rename_i hne
      refine ⟨_,rfl,h.concat hlt (fun w hw => ?_) hall⟩
      rcases List.mem_append.mp hw with hw | hw
      · -- a window before the last one ended before the last one began
        have hbefore := (List.pairwise_append.mp h.apart).2.2 w hw last (by simp)
        have hspan := h.filled last (by simp)
        have hend := h.before last (by simp)
        omega
      · rw [List.mem_singleton.mp hw]
        exact lt_of_le_of_ne (h.before last (by simp)) hne

end Exhausts

/-! ### The joint blind windows -/

namespace LivenessView

variable (view : LivenessView)

/-- One turn of the loop over the breakpoints. -/
def windowTurn (sources : List SourceId) (kept : List Interval) (p : ℤ × ℤ) : Fallible (List Interval) := do
  let elementary ← Interval.of p.1 p.2
  if elementary.isEmpty then pure kept
  else if sources.all fun source => (view.coveringRuns source elementary).isSome then
    keepWindow kept elementary
  else pure kept

/-- Every one of the sources is blind. -/
def JointlyBlind (sources : List SourceId) (t : ℤ) : Prop := ∀ s ∈ sources, view.BlindAt s t

variable {view} {sources : List SourceId}

theorem windowTurn_exhausts (hc : view.Contiguous) {kept : List Interval} {p : ℤ × ℤ}
    (h : Exhausts (view.JointlyBlind sources) kept p.1) (hlt : p.1 < p.2)
    (hmem : p.1 ∈ view.breakpoints sources ∧ p.2 ∈ view.breakpoints sources)
    (hgap : ∀ v ∈ view.breakpoints sources, v ≤ p.1 ∨ p.2 ≤ v) :
    ∃ kept', view.windowTurn sources kept p = .ok kept' ∧
      Exhausts (view.JointlyBlind sources) kept' p.2 := by
  obtain ⟨elementary,hof⟩ := Interval.of_returns (breakpoints_range hmem.1) (breakpoints_range hmem.2) hlt.le
  obtain ⟨h0,h1⟩ := Interval.of_ok.mp hof
  have hspan : elementary.t0Ns < elementary.t1Ns := by omega
  have hfull : ¬elementary.isEmpty = true := by simp [window_lt.mpr hspan]
  simp only [windowTurn,Runs.bind_ok,hof,Except.ok.injEq,exists_eq_left',if_neg hfull]
  split
  · rename_i hall
    obtain ⟨kept',hkeep,hkept⟩ := @Exhausts.keep (view.JointlyBlind sources) kept elementary (h0 ▸ h) hspan
      fun t ht0 ht1 s hs => ((coveringRuns_isSome hc).mp (List.all_eq_true.mp hall s hs)).2 t ht0 ht1
    exact ⟨kept',hkeep,h1 ▸ hkept⟩
  · rename_i hnot
    refine ⟨kept,rfl,h.skip hlt.le fun t ht0 ht1 hblind => hnot (List.all_eq_true.mpr fun s hs => ?_)⟩
    -- one blind instant between the breakpoints makes all of them blind
    refine (coveringRuns_isSome hc).mpr ⟨hspan,fun u hu0 hu1 => ?_⟩
    exact (hblind s hs).constant hs hgap ⟨ht0,ht1⟩ (by omega)

/-- The loop over a grid of breakpoints. -/
theorem windowTurns_exhaust (hc : view.Contiguous) {a : ℤ} {grid : List ℤ} {kept : List Interval}
    (hasc : (a::grid).Pairwise (· < ·)) (h : Exhausts (view.JointlyBlind sources) kept a)
    (hp : ∀ p ∈ (a::grid).zip grid, (p.1 ∈ view.breakpoints sources ∧ p.2 ∈ view.breakpoints sources) ∧
      ∀ v ∈ view.breakpoints sources, v ≤ p.1 ∨ p.2 ≤ v) :
    ∃ windows, ((a::grid).zip grid).foldlM (view.windowTurn sources) kept = .ok windows ∧
      Exhausts (view.JointlyBlind sources) windows (grid.getLast?.getD a) := by
  induction grid generalizing a kept with
  | nil => exact ⟨kept,rfl,h⟩
  | cons b grid ih =>
    obtain ⟨ha,hrest⟩ := List.pairwise_cons.mp hasc
    rw [List.zip_cons_cons] at hp ⊢
    obtain ⟨hmem,hgap⟩ := hp (a,b) (by simp)
    obtain ⟨kept',hturn,hkept⟩ := windowTurn_exhausts hc (p := (a,b)) h (ha b (by simp)) hmem hgap
    obtain ⟨windows,hrun,hwindows⟩ := ih hrest hkept fun p hm => hp p (List.mem_cons_of_mem _ hm)
    refine ⟨windows,?_,?_⟩
    · rw [List.foldlM_cons]
      exact Runs.bind_ok.mpr ⟨kept',hturn,hrun⟩
    · rw [List.getLast?_cons]
      exact hwindows

/-- The windows of the sources are the instants at which all of them are blind. -/
theorem jointBlindWindows_ok (hc : view.Contiguous) (hne : sources ≠ []) :
    ∃ windows, view.jointBlindWindows sources = .ok windows ∧ (∀ w ∈ windows, w.t0Ns < w.t1Ns) ∧
      windows.Pairwise (fun w w' => w.t1Ns < w'.t0Ns) ∧
      ∀ t, (∃ w ∈ windows, w.t0Ns ≤ t ∧ t < w.t1Ns) ↔ view.JointlyBlind sources t := by
  have hasc : (view.breakpoints sources).Pairwise (· < ·) := Timeline.ascending_dedup _
  have hpairs := fun p hp => @Timeline.neighbours _ _ _ hasc p hp
  obtain ⟨source,hsource⟩ := List.exists_mem_of_ne_nil _ hne
  have hloop : view.jointBlindWindows sources = ((view.breakpoints sources).zip
      (view.breakpoints sources).tail).foldlM (view.windowTurn sources) [] := by
    rw [jointBlindWindows,if_neg hne]
    rfl
  have hbetween : ∀ t, view.JointlyBlind sources t →
      ∃ u v, u ≤ t ∧ t < v ∧ u ∈ view.breakpoints sources ∧ v ∈ view.breakpoints sources := by
    intro t ht
    obtain ⟨i,-,h0,h1,-,hu,hv⟩ := (ht source hsource).between hsource
    exact ⟨i.t0Ns,i.t1Ns,h0,h1,hu,hv⟩
  rw [hloop]
  cases hgrid : view.breakpoints sources with
  | nil =>
    refine ⟨[],rfl,by simp,.nil,fun t => iff_of_false (by simp) fun ht => ?_⟩
    obtain ⟨u,v,-,-,hu,-⟩ := hbetween t ht
    rw [hgrid] at hu
    cases hu
  | cons a grid =>
    rw [hgrid,List.tail_cons] at hpairs
    rw [List.tail_cons]
    have hascending := hgrid ▸ hasc
    have hstart : Exhausts (view.JointlyBlind sources) [] a := by
      refine ⟨by simp,.nil,by simp,fun t hta => iff_of_false (by simp) fun ht => ?_⟩
      obtain ⟨u,v,hut,-,hu,-⟩ := hbetween t ht
      rw [hgrid] at hu
      rcases List.mem_cons.mp hu with rfl | hu
      · omega
      · have := (List.pairwise_cons.mp hascending).1 u hu
        omega
    obtain ⟨windows,hrun,hfilled,hapart,hbefore,hexact⟩ := windowTurns_exhaust hc hascending hstart
      fun p hp => by
        rw [hgrid]
        exact ⟨⟨(hpairs p hp).1,(hpairs p hp).2.1⟩,(hpairs p hp).2.2.2⟩
    refine ⟨windows,hrun,hfilled,hapart,fun t => ?_⟩
    by_cases ht : t < grid.getLast?.getD a
    · exact hexact t ht
    · -- nothing is blind from the last breakpoint on
      refine iff_of_false ?_ fun hblind => ?_
      · rintro ⟨w,hw,-,hw1⟩
        have := hbefore w hw
        omega
      · obtain ⟨u,v,-,htv,-,hv⟩ := hbetween t hblind
        rw [hgrid] at hv
        have := Timeline.le_last hascending hv
        omega

end LivenessView

/-! ### The licences of a window -/

variable {D : Digest}

/-- What a licence of the run needs: an id and a reason that are encoded, and, when the run is
SUPPRESSED, a witness without repetitions. -/
structure NonLiveRun.Licensable (run : NonLiveRun) : Prop where
  source : ∃ b, asciiText run.sourceId = .ok b
  reason : ∃ b, utf8Text run.reason = .ok b
  witness : run.verdict = .suppressed → run.witness ≠ [] ∧ run.witness.Nodup

/-- The fields of a licence of the run pass their checks when its witness does. -/
theorem NonLiveRun.licence_valid_iff {run : NonLiveRun} {id : LicenseId}
    (hspan : Interval.postInit run.t0Ns run.t1Ns = .ok ()) (hreason : run.reason ≠ "") :
    LicenceFields.postInit ⟨id,run.sourceId,run.t0Ns,run.t1Ns,run.basis,run.reason,
        (if run.basis = .suppressed then run.witness else []).insertionSort (· ≤ ·)⟩ = .ok () ↔
      (run.verdict = .suppressed → run.witness ≠ [] ∧ run.witness.Nodup) := by
  have hempty : run.witness.insertionSort (· ≤ ·) = [] ↔ run.witness = [] := by
    rw [← List.length_eq_zero_iff,List.length_insertionSort,List.length_eq_zero_iff]
  simp only [LicenceFields.postInit,checks_cons,ensure_ok,checkStrictlyAscending_ok,
    Timeline.ascending_sort,hspan,NonLiveRun.basis]
  by_cases hv : run.verdict = .suppressed
  · simp [hv,hempty,hreason,and_comm]
  · simp [hv,hreason]

theorem NonLiveRun.licence_returns_iff {run : NonLiveRun}
    (hspan : Interval.postInit run.t0Ns run.t1Ns = .ok ()) (hreason : run.reason ≠ "") :
    (∃ l, run.licence D = .ok l) ↔ run.Licensable := by
  constructor
  · rintro ⟨l,hl⟩
    obtain ⟨interval,hi,hmint⟩ := Runs.bind_ok.mp hl
    obtain ⟨h0,h1⟩ := Interval.of_ok.mp hi
    obtain ⟨hf,payload,hp,-⟩ := Licence.mint_ok hmint
    have hvalid := l.valid
    rw [hf,h0,h1] at hvalid
    obtain ⟨-,b,-,hb,-⟩ := Framing.concat_cons.mp hp
    obtain ⟨reason,c,hr,hc,-⟩ := Framing.concat_cons.mp hb
    obtain ⟨source,-,hs,-,-⟩ := Framing.concat_cons.mp hc
    exact ⟨⟨source,hs⟩,⟨reason,hr⟩,(NonLiveRun.licence_valid_iff hspan hreason).mp hvalid⟩
  · rintro ⟨⟨source,hs⟩,⟨reason,hr⟩,hwitness⟩
    have hrange := postInit_iff.mp hspan
    obtain ⟨b,hb⟩ : ∃ b, licencePayload run.basis run.reason run.sourceId ⟨run.t0Ns,run.t1Ns,hspan⟩ = .ok b := by
      refine concat_returns fun e he => ?_
      simp only [List.mem_cons,List.not_mem_nil,or_false] at he
      rcases he with rfl | rfl | rfl | rfl | rfl
      · cases run.basis <;> exact ⟨_,rfl⟩
      · exact ⟨reason,hr⟩
      · exact ⟨source,hs⟩
      · exact i64_returns hrange.1
      · exact i64_returns hrange.2.1
    have hvalid := (@NonLiveRun.licence_valid_iff run (D.mint "lic" b 32) hspan hreason).mpr hwitness
    refine ⟨⟨_,hvalid⟩,Runs.bind_ok.mpr ⟨⟨run.t0Ns,run.t1Ns,hspan⟩,Interval.of_ok.mpr ⟨rfl,rfl⟩,?_⟩⟩
    change Licence.mint D run.sourceId ⟨run.t0Ns,run.t1Ns,hspan⟩ run.basis run.reason
      ((if run.basis = .suppressed then run.witness else []).insertionSort (· ≤ ·)) = .ok _
    unfold Licence.mint
    split
    · rename_i he
      rw [hb] at he
      cases he
    · rename_i payload hp
      obtain rfl := Except.ok.inj (hb.symm.trans hp)
      exact validated_ok.mpr ⟨hvalid,rfl⟩

namespace LivenessView

variable {view : LivenessView} {source : SourceId} {window : Interval} {sources : List SourceId}

/-- A run that has an instant has a span, and a reason. -/
theorem run_valid (hc : view.Contiguous) {r : NonLiveRun} (hr : r ∈ view.runs source)
    (hlt : r.t0Ns < r.t1Ns) : Interval.postInit r.t0Ns r.t1Ns = .ok () ∧ r.reason ≠ "" := by
  have hmerged := runs_merged hc source
  obtain ⟨i,-,h0,-,-,hreason⟩ := hmerged.constant r hr r.t0Ns le_rfl hlt
  obtain ⟨j,-,-,h1⟩ := hmerged.ends r hr
  have hi := i.valid
  have hj := j.valid
  rw [checks_cons,postInit_iff] at hi hj
  refine ⟨postInit_iff.mpr ⟨by omega,by omega,hlt.le⟩,?_⟩
  rw [← hreason]
  exact ensure_ok.mp (checks_cons.mp hi.2).1

theorem licencesFrom_returns_iff (hc : view.Contiguous)
    (hcover : ∀ s ∈ sources, (view.coveringRuns s window).isSome) :
    ((∃ licences, licencesFrom D view window sources = .ok (some licences)) ↔
      ∀ s ∈ sources, ∀ r ∈ view.runs s, r.Meets window → r.Licensable) ∧
    licencesFrom D view window sources ≠ .ok none := by
  induction sources with
  | nil => exact ⟨iff_of_true ⟨[],rfl⟩ (by simp),nofun⟩
  | cons s sources ih =>
    obtain ⟨hiff,hnone⟩ := ih fun s hs => hcover s (by simp [hs])
    obtain ⟨runs,hruns⟩ := Option.isSome_iff_exists.mp (hcover s (by simp))
    have hown : (∃ own, runs.mapM (·.licence D) = .ok own) ↔
        ∀ r ∈ view.runs s, r.Meets window → r.Licensable := by
      have hone : ∀ r ∈ runs, ((∃ l, r.licence D = .ok l) ↔ r.Licensable) := by
        intro r hr
        obtain ⟨hrun,t,-,-,h0,h1⟩ := (mem_coveringRuns hc hruns).mp hr
        obtain ⟨hspan,hreason⟩ := run_valid hc hrun (by omega)
        exact NonLiveRun.licence_returns_iff hspan hreason
      constructor
      · rintro ⟨own,hown⟩ r hr hmeets
        have hmem := (mem_coveringRuns hc hruns).mpr ⟨hr,hmeets⟩
        obtain ⟨l,-,hl⟩ := (forall₂_mem (mapM_ok.mp hown)).1 r hmem
        exact (hone r hmem).mp ⟨l,hl⟩
      · intro h
        refine mapM_returns fun r hr => (hone r hr).mpr ?_
        obtain ⟨hrun,hmeets⟩ := (mem_coveringRuns hc hruns).mp hr
        exact h r hrun hmeets
    rw [List.forall_mem_cons,← hown,← hiff,licencesFrom,hruns]
    constructor
    · constructor
      · rintro ⟨licences,h⟩
        obtain ⟨own,hown,h⟩ := Runs.bind_ok.mp h
        obtain ⟨more,hmore,h⟩ := Runs.bind_ok.mp h
        cases more with
        | none => cases h
        | some more => exact ⟨⟨own,hown⟩,more,hmore⟩
      · rintro ⟨⟨own,hown⟩,more,hmore⟩
        exact ⟨own++more,Runs.bind_ok.mpr ⟨own,hown,Runs.bind_ok.mpr ⟨some more,hmore,rfl⟩⟩⟩
    · intro h
      obtain ⟨own,-,h⟩ := Runs.bind_ok.mp h
      obtain ⟨more,hmore,h⟩ := Runs.bind_ok.mp h
      cases more with
      | none => exact hnone hmore
      | some more => cases h

/-- What becomes of the licences of a window. -/
structure WindowLicensed (D : Digest) (view : LivenessView) (sources : List SourceId) (window : Interval) :
    Prop where
  returns : (∃ licences, licencesForWindow D view sources window = .ok (some licences)) ↔
    ∀ s ∈ sources, ∀ r ∈ view.runs s, r.Meets window → r.Licensable
  granted : licencesForWindow D view sources window ≠ .ok none
  covers : ∀ licences, licencesForWindow D view sources window = .ok (some licences) →
    ∀ s ∈ sources, ∀ t, window.t0Ns ≤ t → t < window.t1Ns →
      ∃ l ∈ licences, l.sourceId = s ∧ l.t0Ns ≤ t ∧ t < l.t1Ns

theorem window_licensed (hc : view.Contiguous)
    (hcover : ∀ s ∈ sources, (view.coveringRuns s window).isSome) :
    WindowLicensed D view sources window := by
  have hmem : ∀ s, s ∈ sources.insertionSort (· ≤ ·) ↔ s ∈ sources := fun s => List.mem_insertionSort _
  obtain ⟨hiff,hnone⟩ := @licencesFrom_returns_iff D view window (sources.insertionSort (· ≤ ·)) hc
    fun s hs => hcover s ((hmem s).mp hs)
  simp only [hmem] at hiff
  refine ⟨?_,fun h => ?_,fun licences h s hs t h0 h1 => ?_⟩
  · rw [← hiff]
    constructor
    · rintro ⟨licences,h⟩
      obtain ⟨found,hfound,h⟩ := Runs.bind_ok.mp h
      cases found with
      | none => cases h
      | some found => exact ⟨found,hfound⟩
    · rintro ⟨found,hfound⟩
      exact ⟨_,Runs.bind_ok.mpr ⟨some found,hfound,rfl⟩⟩
  · obtain ⟨found,hfound,h⟩ := Runs.bind_ok.mp h
    cases found with
    | none => exact hnone hfound
    | some found => cases h
  · obtain ⟨runs,hruns,hall⟩ := (licencesForWindow_ok h).covered s hs
    obtain ⟨-,hfound,hreach⟩ := coveringRuns_ok hruns
    obtain ⟨r,hr,hr0,hr1⟩ := hreach t h0 h1
    obtain ⟨l,hl,l',hown,hid⟩ := hall r hr
    obtain ⟨s',-,runs',-,r',-,hr'⟩ := (licencesForWindow_ok h).runs l hl
    have hlicensed := NonLiveRun.licence_ok hown
    -- a licence kept in place of another under its identifier has the same span
    obtain ⟨-,-,hsource,hstart,hstop⟩ := hlicensed.id_inj (NonLiveRun.licence_ok hr') hid
    refine ⟨l,hl,?_,?_,?_⟩
    · rw [← hsource,hlicensed.sourceId]
      exact ((runs_merged hc s).named r (hfound r hr).1).1
    · rw [← hstart,hlicensed.start]
      exact hr0
    · rw [← hstop,hlicensed.stop]
      exact hr1

end LivenessView

/-- The joint blind windows of a view with contiguous timelines are the instants at which every source is
blind, as far apart as they can be, and the licences of each cover it, when they can be minted. -/
theorem joint_blind_windows_exact {view : LivenessView} (hc : view.Contiguous) {sources : List SourceId}
    (hne : sources ≠ []) {D : Digest} : ∃ windows, view.jointBlindWindows sources = .ok windows ∧
      (∀ w ∈ windows, w.t0Ns < w.t1Ns) ∧ windows.Pairwise (fun w w' => w.t1Ns < w'.t0Ns) ∧
      (∀ t, (∃ w ∈ windows, w.t0Ns ≤ t ∧ t < w.t1Ns) ↔ ∀ s ∈ sources, view.BlindAt s t) ∧
      ((∃ s ∈ sources, ∀ entry ∈ view.sources, entry.sourceId ≠ s) → windows = []) ∧
      ∀ w ∈ windows, LivenessView.WindowLicensed D view sources w := by
  obtain ⟨windows,hrun,hfilled,hapart,hexact⟩ := LivenessView.jointBlindWindows_ok hc hne
  refine ⟨windows,hrun,hfilled,hapart,hexact,?_,fun w hw => LivenessView.window_licensed hc fun s hs => ?_⟩
  · rintro ⟨s,hs,hunknown⟩
    refine List.eq_nil_iff_forall_not_mem.mpr fun w hw => ?_
    obtain ⟨_,_,-,i,hi,-⟩ := (hexact w.t0Ns).mp ⟨w,hw,le_rfl,hfilled w hw⟩ s hs
    obtain ⟨entry,he,hid,-⟩ := LivenessView.mem_timeline hi
    exact hunknown entry he hid
  · exact (LivenessView.coveringRuns_isSome hc).mpr
      ⟨hfilled w hw,fun t h0 h1 => (hexact t).mp ⟨w,hw,h0,h1⟩ s hs⟩

/-- One source that is SUPPRESSED for ten nanoseconds, without a witness. -/
def unwitnessedView : LivenessView :=
  ⟨[⟨"src:iam",[⟨0,10,.suppressed,"sequence_gap",[],by decide⟩],by decide⟩],by decide⟩

theorem unwitnessed_contiguous : unwitnessedView.Contiguous := by
  intro source
  unfold LivenessView.timeline unwitnessedView
  rw [List.find?_cons]
  split
  · exact .singleton _
  · exact .nil

theorem joint_blind_windows_exact_unwitnessed : ∃ windows,
    unwitnessedView.jointBlindWindows ["src:iam"] = .ok windows ∧ (∀ w ∈ windows, w.t0Ns < w.t1Ns) ∧
      windows.Pairwise (fun w w' => w.t1Ns < w'.t0Ns) ∧
      (∀ t, (∃ w ∈ windows, w.t0Ns ≤ t ∧ t < w.t1Ns) ↔
        ∀ s ∈ ["src:iam"], unwitnessedView.BlindAt s t) ∧
      ((∃ s ∈ ["src:iam"], ∀ entry ∈ unwitnessedView.sources, entry.sourceId ≠ s) → windows = []) ∧
      ∀ w ∈ windows, LivenessView.WindowLicensed Digest.spelled unwitnessedView ["src:iam"] w :=
  joint_blind_windows_exact unwitnessed_contiguous (by decide)

/-- A joint blind window whose licences are refused: the witness of the SUPPRESSED run is empty. -/
theorem window_not_licensed : ¬∀ (D : Digest) (view : LivenessView) (sources : List SourceId),
    view.Contiguous → sources ≠ [] → ∃ windows, view.jointBlindWindows sources = .ok windows ∧
      ∀ w ∈ windows, ∃ licences, licencesForWindow D view sources w = .ok (some licences) := by
  intro hall
  obtain ⟨windows,hrun,hwindows⟩ := hall Digest.spelled unwitnessedView ["src:iam"]
    unwitnessed_contiguous (by decide)
  have hone : unwitnessedView.jointBlindWindows ["src:iam"] = .ok [⟨0,10,by decide⟩] := by decide
  obtain rfl := Except.ok.inj (hone.symm.trans hrun)
  obtain ⟨licences,h⟩ := hwindows ⟨0,10,by decide⟩ (by simp)
  have hrefused : (licencesForWindow Digest.spelled unwitnessedView ["src:iam"]
      ⟨0,10,by decide⟩).isOk = false := by decide
  rw [h] at hrefused
  cases hrefused

end Spectra
