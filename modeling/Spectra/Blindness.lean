import Spectra.Envelope

/-! Timelines instant by instant: what a source says at an instant, the maximal runs over
which it says the same, and the runs a blind window is covered by. -/
namespace Spectra

/-- The interval ends before the other begins, and is not empty. -/
def LivenessInterval.Before (i j : LivenessInterval) : Prop := i.t0Ns < i.t1Ns ∧ i.t1Ns ≤ j.t0Ns

theorem LivenessInterval.le (i : LivenessInterval) : i.t0Ns ≤ i.t1Ns := by
  have h := i.valid
  simp only [Interval.postInit,checks_cons,ensure_ok] at h
  exact h.1.2.2.1

instance : IsTrans LivenessInterval LivenessInterval.Before where
  trans i j k hij hjk := by
    have := hjk.1
    exact ⟨hij.1,hij.2.trans (this.le.trans hjk.2)⟩

/-- Strictly ascending intervals that meet end to end lie before one another. -/
theorem pairwise_before {l : List LivenessInterval} (hs : (l.map (·.t0Ns)).Pairwise (· < ·))
    (hc : l.IsChain fun i j => i.t1Ns = j.t0Ns) : l.Pairwise LivenessInterval.Before := by
  refine List.isChain_iff_pairwise.mp ?_
  induction l with
  | nil => exact .nil
  | cons i l ih =>
    rw [List.map_cons,List.pairwise_cons] at hs
    cases l with
    | nil => exact .singleton i
    | cons j l =>
      rw [List.isChain_cons_cons] at hc ⊢
      have hij : i.t0Ns < j.t0Ns := hs.1 j.t0Ns (by simp)
      exact ⟨⟨hc.1 ▸ hij,hc.1.le⟩,ih hs.2 hc.2⟩

/-! ### Runs -/

/-- The interval covers the instant with this verdict and reason. -/
def LivenessInterval.Shows (i : LivenessInterval) (t : ℤ) (verdict : LivenessVerdict)
    (reason : String) : Prop :=
  i.t0Ns ≤ t ∧ t < i.t1Ns ∧ i.verdict = verdict ∧ i.reason = reason

/-- Nothing merges two runs that lie apart. -/
def NonLiveRun.Apart (r r' : NonLiveRun) : Prop :=
  r.t0Ns < r.t1Ns ∧ r.t1Ns ≤ r'.t0Ns ∧
    ¬(r.t1Ns = r'.t0Ns ∧ r.verdict = r'.verdict ∧ r.reason = r'.reason)

/-- The run spans the interval and repeats its verdict and its reason. -/
def NonLiveRun.Spans (r : NonLiveRun) (i : LivenessInterval) : Prop :=
  r.t0Ns ≤ i.t0Ns ∧ i.t1Ns ≤ r.t1Ns ∧ r.verdict = i.verdict ∧ r.reason = i.reason

/-- The runs of a stretch of a timeline. -/
structure Merged (sourceId : SourceId) (l : List LivenessInterval) (m : List NonLiveRun) : Prop where
  apart : m.Pairwise NonLiveRun.Apart
  named : ∀ r ∈ m, r.sourceId = sourceId ∧ r.verdict ≠ .live
  ends : ∀ r ∈ m, ∃ i ∈ l, r.t0Ns ≤ i.t0Ns ∧ r.t1Ns = i.t1Ns
  constant : ∀ r ∈ m, ∀ t, r.t0Ns ≤ t → t < r.t1Ns → ∃ i ∈ l, i.Shows t r.verdict r.reason
  spanned : ∀ i ∈ l, i.isLive = false → ∃ r ∈ m, r.Spans i

namespace Merged

variable {sourceId : SourceId} {l : List LivenessInterval} {m : List NonLiveRun}
  {i : LivenessInterval}

/-- A live interval adds no run. -/
theorem live (h : Merged sourceId l m) (hi : i.isLive = true) : Merged sourceId (l++[i]) m where
  apart := h.apart
  named := h.named
  ends r hr := by
    obtain ⟨j,hj,he⟩ := h.ends r hr
    exact ⟨j,by simp [hj],he⟩
  constant r hr t h0 h1 := by
    obtain ⟨j,hj,hs⟩ := h.constant r hr t h0 h1
    exact ⟨j,by simp [hj],hs⟩
  spanned j hj hn := by
    rcases List.mem_append.mp hj with hj | hj
    · exact h.spanned j hj hn
    · rw [List.mem_singleton.mp hj,hi] at hn
      cases hn

/-- What came before has ended, and was not empty. -/
theorem before (h : Merged sourceId l m) (hb : ∀ j ∈ l, j.Before i) {r : NonLiveRun} (hr : r ∈ m) :
    r.t0Ns < r.t1Ns ∧ r.t1Ns ≤ i.t0Ns := by
  obtain ⟨j,hj,h0,h1⟩ := h.ends r hr
  obtain ⟨hlt,hle⟩ := hb j hj
  omega

/-- An interval that nothing merges with begins a run. -/
theorem opened (h : Merged sourceId l m) (hb : ∀ j ∈ l, j.Before i) (hi : i.isLive = false)
    {run : NonLiveRun} (hrun : run = ⟨sourceId,i.t0Ns,i.t1Ns,i.verdict,i.reason,i.witness⟩)
    (hapart : ∀ r ∈ m, ¬(r.t1Ns = i.t0Ns ∧ r.verdict = i.verdict ∧ r.reason = i.reason)) :
    Merged sourceId (l++[i]) (m++[run]) where
  apart := by
    refine List.pairwise_append.mpr ⟨h.apart,List.pairwise_singleton _ _,fun r hr r' hr' => ?_⟩
    rw [List.mem_singleton.mp hr',hrun]
    obtain ⟨hlt,hle⟩ := h.before hb hr
    exact ⟨hlt,hle,hapart r hr⟩
  named r hr := by
    rcases List.mem_append.mp hr with hr | hr
    · exact h.named r hr
    · rw [List.mem_singleton.mp hr,hrun]
      exact ⟨rfl,by simpa [LivenessInterval.isLive] using hi⟩
  ends r hr := by
    rcases List.mem_append.mp hr with hr | hr
    · obtain ⟨j,hj,he⟩ := h.ends r hr
      exact ⟨j,by simp [hj],he⟩
    · rw [List.mem_singleton.mp hr,hrun]
      exact ⟨i,by simp,le_rfl,rfl⟩
  constant r hr t h0 h1 := by
    rcases List.mem_append.mp hr with hr | hr
    · obtain ⟨j,hj,hs⟩ := h.constant r hr t h0 h1
      exact ⟨j,by simp [hj],hs⟩
    · rw [List.mem_singleton.mp hr,hrun] at h0 h1 ⊢
      exact ⟨i,by simp,h0,h1,rfl,rfl⟩
  spanned j hj hn := by
    rcases List.mem_append.mp hj with hj | hj
    · obtain ⟨r,hr,hs⟩ := h.spanned j hj hn
      exact ⟨r,by simp [hr],hs⟩
    · rw [List.mem_singleton.mp hj]
      exact ⟨run,by simp,by rw [hrun]; exact ⟨le_rfl,le_rfl,rfl,rfl⟩⟩

/-- An interval that continues the last run extends it. -/
theorem extended {last run : NonLiveRun} (h : Merged sourceId l (m++[last]))
    (hrun : run.sourceId = last.sourceId ∧ run.t0Ns = last.t0Ns ∧ run.t1Ns = i.t1Ns ∧
      run.verdict = last.verdict ∧ run.reason = last.reason)
    (hb : ∀ j ∈ l, j.Before i)
    (hmeet : last.t1Ns = i.t0Ns ∧ last.verdict = i.verdict ∧ last.reason = i.reason) :
    Merged sourceId (l++[i]) (m++[run]) := by
  obtain ⟨hsource,h0,h1,hverdict,hreason⟩ := hrun
  obtain ⟨hapart,-,hcross⟩ := List.pairwise_append.mp h.apart
  have hlast := h.before hb (r := last) (by simp)
  have hi := i.le
  constructor
  · refine List.pairwise_append.mpr ⟨hapart,List.pairwise_singleton _ _,fun r hr r' hr' => ?_⟩
    obtain ⟨hlt,hle,hne⟩ := hcross r hr last (by simp)
    rw [List.mem_singleton.mp hr',NonLiveRun.Apart,h0,hverdict,hreason]
    exact ⟨hlt,hle,hne⟩
  · intro r hr
    rcases List.mem_append.mp hr with hr | hr
    · exact h.named r (by simp [hr])
    · rw [List.mem_singleton.mp hr,hsource,hverdict]
      exact h.named last (by simp)
  · intro r hr
    rcases List.mem_append.mp hr with hr | hr
    · obtain ⟨j,hj,he⟩ := h.ends r (by simp [hr])
      exact ⟨j,by simp [hj],he⟩
    · rw [List.mem_singleton.mp hr]
      exact ⟨i,by simp,by omega,h1⟩
  · intro r hr t ht0 ht1
    rcases List.mem_append.mp hr with hr | hr
    · obtain ⟨j,hj,hs⟩ := h.constant r (by simp [hr]) t ht0 ht1
      exact ⟨j,by simp [hj],hs⟩
    · rw [List.mem_singleton.mp hr] at ht0 ht1 ⊢
      rw [hverdict,hreason]
      by_cases ht : t < last.t1Ns
      · obtain ⟨j,hj,hs⟩ := h.constant last (by simp) t (by omega) ht
        exact ⟨j,by simp [hj],hs⟩
      · exact ⟨i,by simp,by omega,by omega,hmeet.2.1.symm,hmeet.2.2.symm⟩
  · intro j hj hn
    rcases List.mem_append.mp hj with hj | hj
    · obtain ⟨r,hr,hs⟩ := h.spanned j hj hn
      rcases List.mem_append.mp hr with hr | hr
      · exact ⟨r,by simp [hr],hs⟩
      · -- the last run kept its start and only grew
        rw [List.mem_singleton.mp hr] at hs
        obtain ⟨hs0,hs1,hsv,hsr⟩ := hs
        exact ⟨run,by simp,by omega,by omega,hverdict.trans hsv,hreason.trans hsr⟩
    · rw [List.mem_singleton.mp hj]
      exact ⟨run,by simp,by omega,by omega,hverdict.trans hmeet.2.1,hreason.trans hmeet.2.2⟩

/-- One more interval. -/
theorem step (h : Merged sourceId l m) (hb : ∀ j ∈ l, j.Before i) :
    Merged sourceId (l++[i]) (extendRuns sourceId m i) := by
  unfold extendRuns
  split
  · rename_i hi; exact h.live hi
  rename_i hi
  rw [Bool.not_eq_true] at hi
  simp only
  split
  · rename_i hn
    rw [List.getLast?_eq_none_iff] at hn
    subst hn
    exact h.opened hb hi rfl (by simp)
  · rename_i last hlast
    obtain ⟨m',rfl⟩ := List.getLast?_eq_some_iff.mp hlast
    split
    · rename_i hmeet
      rw [List.dropLast_concat]
      exact h.extended ⟨rfl,rfl,rfl,rfl,rfl⟩ hb hmeet
    · rename_i hne
      refine h.opened hb hi rfl fun r hr => ?_
      rcases List.mem_append.mp hr with hr | hr
      · -- a run before the last one ended before the last one began
        obtain ⟨-,hle,-⟩ := (List.pairwise_append.mp h.apart).2.2 r hr last (by simp)
        have := h.before hb (r := last) (by simp)
        omega
      · rw [List.mem_singleton.mp hr]; exact hne

/-- The runs of a timeline whose intervals lie before one another. -/
theorem of_foldl (rest : List LivenessInterval) (h : Merged sourceId l m)
    (hp : (l++rest).Pairwise LivenessInterval.Before) :
    Merged sourceId (l++rest) (rest.foldl (extendRuns sourceId) m) := by
  induction rest generalizing l m with
  | nil => rwa [List.append_nil]
  | cons i rest ih =>
    have hb : ∀ j ∈ l, j.Before i := fun j hj => (List.pairwise_append.mp hp).2.2 j hj i (by simp)
    have happ : l++i::rest = (l++[i])++rest := by simp
    rw [happ] at hp ⊢
    exact ih (h.step hb) hp

end Merged

/-! ### Instants -/

namespace LivenessView

variable (view : LivenessView)

/-- The source shows this verdict and reason at the instant. -/
def Shows (source : SourceId) (t : ℤ) (verdict : LivenessVerdict) (reason : String) : Prop :=
  ∃ i ∈ view.timeline source, i.Shows t verdict reason

/-- The source is not live at the instant: an interval covers it, of another verdict. -/
def BlindAt (source : SourceId) (t : ℤ) : Prop :=
  ∃ verdict reason, verdict ≠ .live ∧ view.Shows source t verdict reason

/-- Every timeline is contiguous. -/
def Contiguous : Prop := ∀ source, (view.timeline source).IsChain fun i j => i.t1Ns = j.t0Ns

/-- Between the two instants the source shows one verdict and one reason, and it is not live. -/
def SameRun (source : SourceId) (t u : ℤ) : Prop :=
  ∃ verdict reason, verdict ≠ .live ∧ ∀ x, min t u ≤ x → x ≤ max t u →
    view.Shows source x verdict reason

/-- The sources are blind together, over the window and past it: as long as one of them keeps
the verdict and the reason it has at an instant of the window, each of them is blind. -/
def Aligned (sources : List SourceId) (window : Interval) : Prop :=
  ∀ s ∈ sources, ∀ t u, window.t0Ns ≤ t → t < window.t1Ns → view.SameRun s t u →
    ∀ s' ∈ sources, view.BlindAt s' u

variable {view} {source : SourceId}

theorem mem_timeline {i : LivenessInterval} (h : i ∈ view.timeline source) :
    ∃ entry ∈ view.sources, entry.sourceId = source ∧ i ∈ entry.intervals := by
  unfold timeline at h
  cases hf : view.sources.find? (·.sourceId = source) with
  | none => rw [hf] at h; cases h
  | some entry =>
    rw [hf] at h
    exact ⟨entry,List.mem_of_find?_eq_some hf,by simpa using List.find?_some hf,h⟩

theorem timeline_ascending (source : SourceId) :
    ((view.timeline source).map (·.t0Ns)).Pairwise (· < ·) := by
  unfold timeline
  cases view.sources.find? (·.sourceId = source) with
  | none => exact .nil
  | some entry => exact checkStrictlyAscending_ok.mp entry.valid

theorem timeline_before (hc : view.Contiguous) (source : SourceId) :
    (view.timeline source).Pairwise LivenessInterval.Before :=
  pairwise_before (timeline_ascending source) (hc source)

theorem runs_merged (hc : view.Contiguous) (source : SourceId) :
    Merged source (view.timeline source) (view.runs source) := by
  have h0 : Merged source [] [] := ⟨.nil,by simp,by simp,by simp,by simp⟩
  exact h0.of_foldl _ (timeline_before hc source)

/-- Two runs of a source are the same, or one has ended before the other begins. -/
theorem runs_apart (hc : view.Contiguous) {r r' : NonLiveRun} (hr : r ∈ view.runs source)
    (hr' : r' ∈ view.runs source) : r = r' ∨ r.Apart r' ∨ r'.Apart r := by
  have h := (runs_merged hc source).apart
  have hpair : (view.runs source).Pairwise fun a b => a = b ∨ a.Apart b ∨ b.Apart a :=
    h.imp fun hab => .inr (.inl hab)
  have hflip : (view.runs source).Pairwise (flip fun a b => a = b ∨ a.Apart b ∨ b.Apart a) :=
    h.imp fun hab => .inr (.inr hab)
  exact hpair.forall_of_forall_of_flip (fun _ _ => .inl rfl) hflip hr hr'

/-- All the way through a run the source shows what the run does. -/
theorem sameRun_of_mem (hc : view.Contiguous) {r : NonLiveRun} (hr : r ∈ view.runs source) {t u : ℤ}
    (ht : r.t0Ns ≤ t ∧ t < r.t1Ns) (hu : r.t0Ns ≤ u ∧ u < r.t1Ns) : view.SameRun source t u := by
  have h := runs_merged hc source
  refine ⟨r.verdict,r.reason,(h.named r hr).2,fun x h0 h1 => h.constant r hr x ?_ ?_⟩
  · rcases min_choice t u with hm | hm <;> omega
  · rcases max_choice t u with hm | hm <;> omega

theorem run_of_shows (hc : view.Contiguous) {t : ℤ} {verdict : LivenessVerdict} {reason : String}
    (hlive : verdict ≠ .live) (h : view.Shows source t verdict reason) :
    ∃ r ∈ view.runs source, r.t0Ns ≤ t ∧ t < r.t1Ns ∧ r.verdict = verdict ∧ r.reason = reason := by
  obtain ⟨i,hi,h0,h1,rfl,rfl⟩ := h
  obtain ⟨r,hr,hs0,hs1,hv,hre⟩ :=
    (runs_merged hc source).spanned i hi (by simpa [LivenessInterval.isLive] using hlive)
  exact ⟨r,hr,by omega,by omega,hv,hre⟩

/-- A run through an instant reaches as far as the source shows the same. -/
theorem mem_of_sameRun (hc : view.Contiguous) {r : NonLiveRun} (hr : r ∈ view.runs source) {t u : ℤ}
    (ht : r.t0Ns ≤ t ∧ t < r.t1Ns) (h : view.SameRun source t u) : r.t0Ns ≤ u ∧ u < r.t1Ns := by
  obtain ⟨verdict,reason,hlive,hall⟩ := h
  have hrun := fun x h0 h1 => run_of_shows hc hlive (hall x h0 h1)
  have hsame : r.verdict = verdict ∧ r.reason = reason := by
    obtain ⟨r',hr',h0,h1,hv,hre⟩ := hrun t (by omega) (by omega)
    rcases runs_apart hc hr hr' with rfl | ⟨-,hle,-⟩ | ⟨-,hle,-⟩
    · exact ⟨hv,hre⟩
    · omega
    · omega
  by_contra hn
  by_cases hu : u < r.t0Ns
  · -- the instant before the run begins shows the same, and so would have been merged
    obtain ⟨r',hr',h0,h1,hv,hre⟩ := hrun (r.t0Ns-1) (by omega) (by omega)
    rcases runs_apart hc hr hr' with rfl | ⟨-,hle,-⟩ | ⟨-,hle,hne⟩
    · omega
    · omega
    · exact hne ⟨by omega,hv.trans hsame.1.symm,hre.trans hsame.2.symm⟩
  · -- and so does the instant at which it ends
    obtain ⟨r',hr',h0,h1,hv,hre⟩ := hrun r.t1Ns (by omega) (by omega)
    rcases runs_apart hc hr hr' with rfl | ⟨-,hle,hne⟩ | ⟨-,hle,-⟩
    · omega
    · exact hne ⟨by omega,hsame.1.trans hv.symm,hsame.2.trans hre.symm⟩
    · omega

/-! ### Covers -/

theorem coverFrom_ok {t1 cursor : ℤ} {runs found : List NonLiveRun} (ht : cursor < t1)
    (h : coverFrom t1 runs cursor = some found) :
    (∀ r ∈ found, r ∈ runs ∧ r.t0Ns < t1 ∧ cursor < r.t1Ns) ∧
      ∀ t, cursor ≤ t → t < t1 → ∃ r ∈ found, r.t0Ns ≤ t ∧ t < r.t1Ns := by
  induction runs generalizing cursor found with
  | nil => cases h
  | cons r runs ih =>
    rw [coverFrom] at h
    split_ifs at h with hend hstart hstop
    · obtain ⟨hfound,hcover⟩ := ih ht h
      exact ⟨fun q hq => ⟨by simp [(hfound q hq).1],(hfound q hq).2⟩,hcover⟩
    · cases h
      refine ⟨fun q hq => ?_,fun t h0 h1 => ⟨r,by simp,by omega,by omega⟩⟩
      rw [List.mem_singleton.mp hq]
      exact ⟨by simp,by omega,by omega⟩
    · obtain ⟨later,hlater,rfl⟩ := Option.map_eq_some_iff.mp h
      obtain ⟨hfound,hcover⟩ := ih (by omega) hlater
      refine ⟨fun q hq => ?_,fun t h0 h1 => ?_⟩
      · rcases List.mem_cons.mp hq with rfl | hq
        · exact ⟨by simp,by omega,by omega⟩
        · obtain ⟨hm,hq0,hq1⟩ := hfound q hq
          exact ⟨by simp [hm],hq0,by omega⟩
      · by_cases htr : t < r.t1Ns
        · exact ⟨r,by simp,by omega,htr⟩
        · obtain ⟨q,hq,hrest⟩ := hcover t (by omega) h1
          exact ⟨q,by simp [hq],hrest⟩

/-- What covers a window: runs of the source that meet it, and each of its instants in one. -/
theorem coveringRuns_ok {window : Interval} {found : List NonLiveRun}
    (h : view.coveringRuns source window = some found) : window.t0Ns < window.t1Ns ∧
      (∀ r ∈ found, r ∈ view.runs source ∧ r.t0Ns < window.t1Ns ∧ window.t0Ns < r.t1Ns) ∧
      ∀ t, window.t0Ns ≤ t → t < window.t1Ns → ∃ r ∈ found, r.t0Ns ≤ t ∧ t < r.t1Ns := by
  unfold coveringRuns at h
  split at h
  · cases h
  · rename_i hne
    have hlt : window.t0Ns < window.t1Ns := by
      have := window.le
      simp only [Interval.isEmpty,decide_eq_true_eq] at hne
      omega
    exact ⟨hlt,coverFrom_ok hlt h⟩

/-- The sources of a covered window are aligned exactly when every run that covers part of it
is blind throughout on each of them. -/
theorem aligned_iff (hc : view.Contiguous) {sources : List SourceId} {window : Interval}
    {found : SourceId → List NonLiveRun}
    (hf : ∀ s ∈ sources, view.coveringRuns s window = some (found s)) :
    view.Aligned sources window ↔ ∀ s ∈ sources, ∀ r ∈ found s, ∀ s' ∈ sources, ∀ u,
      r.t0Ns ≤ u → u < r.t1Ns → view.BlindAt s' u := by
  constructor
  · intro h s hs r hr s' hs' u h0 h1
    obtain ⟨hlt,hfound,-⟩ := coveringRuns_ok (hf s hs)
    obtain ⟨hmem,hr0,hr1⟩ := hfound r hr
    -- the run meets the window at the later of the two starts
    refine h s hs (max window.t0Ns r.t0Ns) u (by omega) (by omega) ?_ s' hs'
    exact sameRun_of_mem hc hmem (by omega) ⟨h0,h1⟩
  · intro h s hs t u h0 h1 hsame s' hs'
    obtain ⟨-,hfound,hcover⟩ := coveringRuns_ok (hf s hs)
    obtain ⟨r,hr,hr0,hr1⟩ := hcover t h0 h1
    obtain ⟨hu0,hu1⟩ := mem_of_sameRun hc (hfound r hr).1 ⟨hr0,hr1⟩ hsame
    exact h s hs r hr s' hs' u hu0 hu1

end LivenessView

end Spectra
