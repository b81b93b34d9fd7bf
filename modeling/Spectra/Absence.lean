import Spectra.LicenceAgreement

/-! `absence_status` and `licence_condition`: an absence is read as observed where every source was LIVE
throughout, and as licensed already where none of them was LIVE throughout. -/
namespace Spectra
namespace Liveness

inductive AbsenceStatus where
  | observed | licensed | undetermined
  deriving DecidableEq, Repr

/-- Every source is LIVE over the window, or every one is not; the first that differs ends the walk. -/
def everyLive (document : LivenessDocument) (window : Interval) (wanted : Bool) : List String → Fallible Bool
  | [] => .ok true
  | s::rest => do
    if (← live document s window) = wanted then everyLive document window wanted rest else pure false

/-- `licence_condition`: not live on every producing source. -/
def licenceCondition (document : LivenessDocument) (producingSources : List String) (window : Interval) :
    Fallible Bool :=
  if producingSources = [] then .ok false else everyLive document window false producingSources

/-- `absence_status`. -/
def absenceStatus (document : LivenessDocument) (producingSources : List String) (lookback : Interval) :
    Fallible AbsenceStatus :=
  if producingSources = [] then .ok .undetermined
  else do
    if ← everyLive document lookback true producingSources then pure .observed
    else if ← everyLive document lookback false producingSources then pure .licensed
    else pure .undetermined

/-! ### Timelines as the constructor admits them -/

/-- Intervals one behind the other, some of them possibly empty. -/
structure Gapless (intervals : List LivenessInterval) : Prop where
  le : ∀ i ∈ intervals, i.t0Ns ≤ i.t1Ns
  before : intervals.Pairwise fun i j => i.t1Ns ≤ j.t0Ns

theorem LivenessInterval.le (i : LivenessInterval) : i.t0Ns ≤ i.t1Ns := by
  have h := i.valid
  simp only [IntervalFields.postInit,checks_cons,Interval.postInit,ensure_ok] at h
  exact h.1.2.2.1

theorem gapless_of_chain {intervals : List LivenessInterval} (h : intervals.IsChain fun i j => i.t1Ns = j.t0Ns) :
    Gapless intervals := by
  refine ⟨fun i _ => i.le,?_⟩
  induction intervals with
  | nil => exact .nil
  | cons i l ih =>
    cases l with
    | nil => exact List.pairwise_singleton _ _
    | cons j l =>
      obtain ⟨hij,hrest⟩ := List.isChain_cons_cons.mp h
      have hl := ih hrest
      refine List.pairwise_cons.mpr ⟨fun k hk => ?_,hl⟩
      rcases List.mem_cons.mp hk with rfl | hk
      · exact hij.le
      · have := (List.pairwise_cons.mp hl).1 k hk
        have := j.le
        omega

/-- The intervals reach over every instant between the first and the last. -/
theorem exists_interval {intervals : List LivenessInterval}
    (h : intervals.IsChain fun i j => i.t1Ns = j.t0Ns) {first last : LivenessInterval}
    (hf : intervals.head? = some first) (hl : intervals.getLast? = some last) {t : ℤ} (h0 : first.t0Ns ≤ t)
    (h1 : t < last.t1Ns) : ∃ i ∈ intervals, i.t0Ns ≤ t ∧ t < i.t1Ns := by
  induction intervals generalizing first with
  | nil => simp at hf
  | cons i l ih =>
    have hfirst : i = first := Option.some.inj hf
    subst hfirst
    cases l with
    | nil =>
      have hlast : i = last := Option.some.inj hl
      subst hlast
      exact ⟨i,by simp,h0,h1⟩
    | cons j l =>
      obtain ⟨hij,hrest⟩ := List.isChain_cons_cons.mp h
      by_cases ht : t < i.t1Ns
      · exact ⟨i,by simp,h0,ht⟩
      · rw [List.getLast?_cons_cons] at hl
        obtain ⟨k,hk,hk0⟩ := ih hrest rfl hl (by omega)
        exact ⟨k,List.mem_cons_of_mem _ hk,hk0⟩

/-- An instant is in one interval. -/
theorem Gapless.unique {intervals : List LivenessInterval} (h : Gapless intervals) {i j : LivenessInterval}
    (hi : i ∈ intervals) (hj : j ∈ intervals) {t : ℤ} (hit : i.t0Ns ≤ t ∧ t < i.t1Ns)
    (hjt : j.t0Ns ≤ t ∧ t < j.t1Ns) : i = j := by
  have hpair : intervals.Pairwise fun i j => i = j ∨ i.t1Ns ≤ j.t0Ns ∨ j.t1Ns ≤ i.t0Ns :=
    h.before.imp fun hij => .inr (.inl hij)
  have hflip : intervals.Pairwise (flip fun i j => i = j ∨ i.t1Ns ≤ j.t0Ns ∨ j.t1Ns ≤ i.t0Ns) :=
    h.before.imp fun hij => .inr (.inr hij)
  rcases hpair.forall_of_forall_of_flip (fun _ _ => .inl rfl) hflip hi hj with he | hlt | hlt
  · exact he
  · omega
  · omega

/-! ### What the three answers say -/

variable {document : LivenessDocument} {window : Interval} {s : String} {sources : List String}

/-- At every instant of the window the source is in an interval of the kind. -/
def Throughout (document : LivenessDocument) (window : Interval) (kind : LivenessVerdict → Prop) (s : String) :
    Prop :=
  ∃ entry, document.sourceEntry s = some entry ∧ Over (fun i => kind i.verdict) entry.intervals window

/-- The window lies in the grid of the source. -/
def InGrid (document : LivenessDocument) (window : Interval) (s : String) : Prop :=
  ∃ entry first last, document.sourceEntry s = some entry ∧ entry.intervals.head? = some first ∧
    entry.intervals.getLast? = some last ∧ first.t0Ns ≤ window.t0Ns ∧ window.t1Ns ≤ last.t1Ns

/-- An empty interval that is not LIVE, strictly inside the window. -/
def EmptyInside (document : LivenessDocument) (window : Interval) (s : String) : Prop :=
  ∃ entry, document.sourceEntry s = some entry ∧ ∃ i ∈ entry.intervals, i.verdict ≠ .live ∧
    i.t0Ns = i.t1Ns ∧ window.t0Ns < i.t0Ns ∧ i.t1Ns < window.t1Ns

/-- `live` says that the source is LIVE throughout, and that no empty interval inside says otherwise. -/
theorem live_iff (hlt : window.t0Ns < window.t1Ns) (hg : InGrid document window s) :
    ∃ b, live document s window = .ok b ∧
      (b = true ↔ Throughout document window (· = .live) s ∧ ¬EmptyInside document window s) := by
  obtain ⟨entry,first,last,hentry,hfirst,hlast,hstart,hstop⟩ := hg
  have hchain := entry.checked.2
  have hgapless := gapless_of_chain hchain
  refine ⟨liveOver entry.intervals window,by simp only [live,intervalsOf,hentry]; rfl,?_⟩
  have hover : liveOver entry.intervals window = true ↔
      ∀ i ∈ entry.intervals, i.overlaps window = true → i.verdict = .live := by
    unfold liveOver
    rw [hfirst,hlast]
    dsimp only
    rw [window_lt.mpr hlt,if_neg Bool.false_ne_true,if_neg (by omega),List.all_eq_true]
    refine forall₂_congr fun i _ => ?_
    cases i.overlaps window <;> simp
  rw [hover]
  constructor
  · intro hall
    refine ⟨⟨entry,hentry,fun t h0 h1 => ?_⟩,?_⟩
    · obtain ⟨i,hi,hi0,hi1⟩ := exists_interval hchain hfirst hlast (t := t) (by omega) (by omega)
      exact ⟨i,hi,hi0,hi1,hall i hi (overlaps_iff.mpr (by omega))⟩
    · rintro ⟨entry',hentry',i,hi,hv,hempty,h0,h1⟩
      cases hentry.symm.trans hentry'
      exact hv (hall i hi (overlaps_iff.mpr (by omega)))
  · rintro ⟨⟨entry',hentry',hlive⟩,hno⟩ i hi ho
    cases hentry.symm.trans hentry'
    obtain ⟨h0,h1⟩ := overlaps_iff.mp ho
    by_cases hne : i.t0Ns < i.t1Ns
    · obtain ⟨j,hj,hj0,hj1,hv⟩ := hlive (max window.t0Ns i.t0Ns) (by omega) (by omega)
      rwa [hgapless.unique hi hj (t := max window.t0Ns i.t0Ns) (by omega) ⟨hj0,hj1⟩]
    · by_contra hv
      have := i.le
      exact hno ⟨entry,hentry,i,hi,hv,by omega,by omega,by omega⟩

theorem everyLive_iff (hlt : window.t0Ns < window.t1Ns) (wanted : Bool) :
    ∀ {sources : List String}, (∀ s ∈ sources, InGrid document window s) →
      ∃ b, everyLive document window wanted sources = .ok b ∧
        (b = true ↔ ∀ s ∈ sources, live document s window = .ok wanted)
  | [], _ => ⟨true,rfl,by simp⟩
  | s::rest, hg => by
    obtain ⟨l,hl,-⟩ := live_iff hlt (hg s (by simp))
    obtain ⟨b,hb,hiff⟩ := everyLive_iff hlt wanted fun t ht => hg t (List.mem_cons_of_mem _ ht)
    rw [everyLive,hl]
    by_cases heq : l = wanted
    · refine ⟨b,by rw [← hb]; exact if_pos heq,?_⟩
      rw [hiff,List.forall_mem_cons,hl,heq,eq_self_iff_true,true_and]
    · refine ⟨false,if_neg heq,?_⟩
      rw [List.forall_mem_cons,hl,Except.ok.injEq]
      simp [heq]

/-- The three answers and the condition of a licence say of every instant what they are documented to say. -/
structure AbsenceMeans (document : LivenessDocument) (sources : List String) (lookback : Interval) : Prop where
  observed : absenceStatus document sources lookback = .ok .observed ↔
    ∀ s ∈ sources, Throughout document lookback (· = .live) s
  licensed : absenceStatus document sources lookback = .ok .licensed ↔
    ∀ s ∈ sources, Throughout document lookback (· ≠ .live) s
  undetermined : absenceStatus document sources lookback = .ok .undetermined ↔
    (¬∀ s ∈ sources, Throughout document lookback (· = .live) s) ∧
      ¬∀ s ∈ sources, Throughout document lookback (· ≠ .live) s
  condition : licenceCondition document sources lookback = .ok true ↔
    ∀ s ∈ sources, Throughout document lookback (· ≠ .live) s

/-- Where a source is not LIVE throughout it need not be so at any one instant. -/
theorem not_live_of_throughout (hlt : window.t0Ns < window.t1Ns)
    (h : Throughout document window (· ≠ .live) s) : ¬Throughout document window (· = .live) s := by
  rintro ⟨entry',hentry',hlive⟩
  obtain ⟨entry,hentry,hblind⟩ := h
  have hgapless := gapless_of_chain entry.checked.2
  cases hentry.symm.trans hentry'
  obtain ⟨i,hi,hi0,hi1,hv⟩ := hblind window.t0Ns le_rfl hlt
  obtain ⟨j,hj,hj0,hj1,hv'⟩ := hlive window.t0Ns le_rfl hlt
  have hij := hgapless.unique hi hj ⟨hi0,hi1⟩ ⟨hj0,hj1⟩
  exact hv (hij ▸ hv')

/-- The answers over the two walks of the sources. -/
theorem absence_walks (hne : sources ≠ []) (hlt : window.t0Ns < window.t1Ns)
    (hg : ∀ s ∈ sources, InGrid document window s) : ∃ all none : Bool,
      (all = true ↔ ∀ s ∈ sources, Throughout document window (· = .live) s ∧ ¬EmptyInside document window s) ∧
      (none = true ↔ ∀ s ∈ sources,
        ¬(Throughout document window (· = .live) s ∧ ¬EmptyInside document window s)) ∧
      absenceStatus document sources window =
        .ok (if all then .observed else if none then .licensed else .undetermined) ∧
      licenceCondition document sources window = .ok none := by
  obtain ⟨all,hall,halliff⟩ := everyLive_iff hlt true hg
  obtain ⟨none,hnone,hnoneiff⟩ := everyLive_iff hlt false hg
  have hlive : ∀ s ∈ sources, (live document s window = .ok true ↔
        Throughout document window (· = .live) s ∧ ¬EmptyInside document window s) ∧
      (live document s window = .ok false ↔
        ¬(Throughout document window (· = .live) s ∧ ¬EmptyInside document window s)) := by
    intro s hs
    obtain ⟨b,hb,hiff⟩ := live_iff hlt (hg s hs)
    rw [hb,← hiff]
    cases b <;> simp
  refine ⟨all,none,?_,?_,?_,?_⟩
  · rw [halliff]
    exact forall₂_congr fun s hs => (hlive s hs).1
  · rw [hnoneiff]
    exact forall₂_congr fun s hs => (hlive s hs).2
  · rw [absenceStatus,if_neg hne,hall,hnone]
    cases all <;> cases none <;> rfl
  · rw [licenceCondition,if_neg hne,hnone]

/-- The answers mean what they say exactly where some source is LIVE throughout or all are non-LIVE throughout,
and no empty interval contradicts sources that are LIVE throughout. -/
theorem absence_status_iff (hne : sources ≠ []) (hlt : window.t0Ns < window.t1Ns)
    (hg : ∀ s ∈ sources, InGrid document window s) : AbsenceMeans document sources window ↔
      ((∃ s ∈ sources, Throughout document window (· = .live) s ∧ ¬EmptyInside document window s) ∨
        ∀ s ∈ sources, Throughout document window (· ≠ .live) s) ∧
      ((∀ s ∈ sources, Throughout document window (· = .live) s) →
        ∀ s ∈ sources, ¬EmptyInside document window s) := by
  obtain ⟨all,none,hall,hnone,hstatus,hcondition⟩ := absence_walks hne hlt hg
  obtain ⟨first,hfirst⟩ := List.exists_mem_of_ne_nil sources hne
  have hblind : (∀ s ∈ sources, Throughout document window (· ≠ .live) s) → none = true := fun h =>
    hnone.mpr fun s hs hlive => not_live_of_throughout hlt (h s hs) hlive.1
  have hboth : all = true → none ≠ true := fun ha hn => hnone.mp hn first hfirst (hall.mp ha first hfirst)
  constructor
  · intro h
    refine ⟨?_,fun hlive s hs => ?_⟩
    · by_contra hnot
      rw [not_or] at hnot
      have hn : none = true := hnone.mpr fun s hs hlive => hnot.1 ⟨s,hs,hlive⟩
      exact hnot.2 (h.condition.mp (by rw [hcondition,hn]))
    · have hobserved := h.observed.mpr hlive
      rw [hstatus] at hobserved
      have ha : all = true := by
        cases all
        · cases none <;> cases hobserved
        · rfl
      exact (hall.mp ha s hs).2
  · rintro ⟨hsome,hempty⟩
    have halliff : all = true ↔ ∀ s ∈ sources, Throughout document window (· = .live) s :=
      hall.trans ⟨fun h s hs => (h s hs).1,fun h s hs => ⟨h s hs,hempty h s hs⟩⟩
    have hnoneiff : none = true ↔ ∀ s ∈ sources, Throughout document window (· ≠ .live) s := by
      refine ⟨fun hn => hsome.resolve_left ?_,hblind⟩
      rintro ⟨s,hs,hlive⟩
      exact hnone.mp hn s hs hlive
    refine ⟨?_,?_,?_,?_⟩
    · rw [hstatus,← halliff]
      cases all <;> cases none <;> simp
    · rw [hstatus,← hnoneiff]
      cases all <;> cases none <;> simp at hboth ⊢
    · rw [hstatus,← halliff,← hnoneiff]
      cases all <;> cases none <;> simp
    · rw [hcondition,← hnoneiff,Except.ok.injEq]

/-- LIVE for five nanoseconds and blind for five. -/
def halfLive : SourceLiveness where
  source := "iam"
  integrityClass := .chained
  mode := .f0Calibrated
  intervals := [⟨⟨0,5,.live,.calibratedOk,none,[]⟩,by decide⟩,⟨⟨5,10,.blind,.unbracketed,none,[]⟩,by decide⟩]
  blindVolumeNsByReason := [(.unbracketed,5)]
  suppressedVolumeNs := 0
  thresholdNs := none
  thresholdProvenance := none
  regimeThresholds := []
  tamperSuspected := false
  valid := by decide

def halfDocument : LivenessDocument where
  modeGlobal := .f0Calibrated
  quantile := "1/2"
  slack := "1/1"
  nMin := 2
  mMin := 1
  sources := [halfLive]
  flags := ⟨false,false,false,false,false,false⟩
  profileId := none
  disputedEvents := []
  valid := by decide

theorem halfDocument_inGrid {lookback : Interval} (h0 : 0 ≤ lookback.t0Ns) (h1 : lookback.t1Ns ≤ 10) :
    ∀ s ∈ ["iam"], InGrid halfDocument lookback s := by
  intro s hs
  rw [List.mem_singleton.mp hs]
  exact ⟨halfLive,_,_,rfl,rfl,rfl,h0,h1⟩

theorem absence_status_iff_half : AbsenceMeans halfDocument ["iam"] ⟨0,10,by decide⟩ ↔
    ((∃ s ∈ ["iam"], Throughout halfDocument ⟨0,10,by decide⟩ (· = .live) s ∧
        ¬EmptyInside halfDocument ⟨0,10,by decide⟩ s) ∨
      ∀ s ∈ ["iam"], Throughout halfDocument ⟨0,10,by decide⟩ (· ≠ .live) s) ∧
    ((∀ s ∈ ["iam"], Throughout halfDocument ⟨0,10,by decide⟩ (· = .live) s) →
      ∀ s ∈ ["iam"], ¬EmptyInside halfDocument ⟨0,10,by decide⟩ s) :=
  absence_status_iff (by decide) (by decide) (halfDocument_inGrid (by decide) (by decide))

/-- Over the whole of it the absence is licensed, though the source was LIVE in the first half. -/
theorem absence_licensed_half : absenceStatus halfDocument ["iam"] ⟨0,10,by decide⟩ = .ok .licensed ∧
    licenceCondition halfDocument ["iam"] ⟨0,10,by decide⟩ = .ok true ∧
    ¬∀ s ∈ ["iam"], Throughout halfDocument ⟨0,10,by decide⟩ (· ≠ .live) s := by
  refine ⟨rfl,rfl,fun h => ?_⟩
  obtain ⟨entry,hentry,hover⟩ := h "iam" (by simp)
  have hself : halfLive = entry := Option.some.inj hentry
  subst hself
  obtain ⟨i,hi,hi0,hi1,hv⟩ := hover 0 le_rfl (by decide)
  rcases List.mem_pair.mp hi with rfl | rfl
  · exact hv rfl
  · exact absurd hi0 (by decide)

end Liveness
end Spectra
