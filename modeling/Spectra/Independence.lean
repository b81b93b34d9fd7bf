import Spectra.LiveMeaning
import Spectra.Tally

/-! The liveness document says the same whatever was asked of it and in whatever order its sources
and records came. -/
namespace Spectra

open Checker (Library readerOf)
open Timeline (Piece Cuts Reduced)

namespace Liveness

variable {lib : Library} {inputs : BuildInputs lib} {profile : Option (SourceProfile lib × String)}

/-! ### Orders -/

/-- Sorting by a key keeps pairs of one key together. -/
theorem forall₂_insertionSort {α β κ : Type} [LinearOrder κ] {R : α → β → Prop} {f : α → κ} {g : β → κ}
    (hkey : ∀ a b, R a b → f a = g b) {l : List α} {m : List β} (h : List.Forall₂ R l m) :
    List.Forall₂ R (l.insertionSort fun a a' => f a ≤ f a') (m.insertionSort fun b b' => g b ≤ g b') := by
  have hinsert : ∀ {a b l m}, R a b → List.Forall₂ R l m →
      List.Forall₂ R (l.orderedInsert (fun a a' => f a ≤ f a') a)
        (m.orderedInsert (fun b b' => g b ≤ g b') b) := by
    intro a b l m hab h
    induction h with
    | nil => exact .cons hab .nil
    | @cons a' b' l m hab' h ih =>
      rw [List.orderedInsert_cons,List.orderedInsert_cons,hkey a b hab,hkey a' b' hab']
      split
      · exact .cons hab (.cons hab' h)
      · exact .cons hab' ih
  induction h with
  | nil => exact .nil
  | cons hab _ ih => exact hinsert hab ih

/-- One source with its records in another order. -/
structure Rearranged (s s' : SourceInput lib) : Prop where
  source : s.source = s'.source
  integrityClass : s.integrityClass = s'.integrityClass
  nominalPeriodNs : s.nominalPeriodNs = s'.nominalPeriodNs
  events : s.events.Perm s'.events

/-- The sources in another order, each with its records in another order. -/
def SourcesRearranged (sources sources' : List (SourceInput lib)) : Prop :=
  ∃ l, sources.Perm l ∧ List.Forall₂ Rearranged l sources'

/-- The records of a source are told apart by time, number and id, as the bundle order asks. -/
def Keyed (s : SourceInput lib) : Prop :=
  ∀ e ∈ s.events, ∀ e' ∈ s.events, e.arrivalKey = e'.arrivalKey → e = e'

section

variable {s s' : SourceInput lib}

theorem Rearranged.sorted (h : Rearranged s s') (hk : Keyed s) :
    sortedEvents s.events = sortedEvents s'.events :=
  Tally.insertionSort_perm hk h.events

theorem Rearranged.threshold (h : Rearranged s s') :
    regimeThreshold inputs profile s = regimeThreshold inputs profile s' := by
  funext regimeId
  unfold regimeThreshold calibratedThreshold declaredThreshold
  rw [h.source,h.nominalPeriodNs]

theorem Rearranged.outcomeOf (h : Rearranged s s') (hk : Keyed s) :
    outcomeOf inputs profile s = outcomeOf inputs profile s' := by
  funext p
  unfold Liveness.outcomeOf
  rw [h.sorted hk,h.integrityClass,h.threshold]

theorem Rearranged.modeOf (h : Rearranged s s') : modeOf inputs profile s = modeOf inputs profile s' := by
  funext p
  unfold Liveness.modeOf
  rw [h.threshold]

end

/-! ### The merge returns -/

/-- What an interval of an outcome asks of it. -/
def Outcome.Witnessed (o : Outcome) : Prop :=
  (o.verdict = .suppressed → o.missingSeq ≠ none ∧ o.witness ≠ []) ∧
    (o.verdict ≠ .suppressed → o.missingSeq = none ∧ o.witness = [])

theorem chainState_witness (span : List (BundleRecord lib)) (integrityClass : IntegrityClass)
    (verifier : ChainVerifier lib) : (chainState span integrityClass verifier).missingSeq ≠ none →
      (chainState span integrityClass verifier).witness ≠ [] := by
  unfold chainState
  split
  · simp
  · split
    · simp
    · split
      · rename_i left right _
        intro _ hn
        have hmem : right.eventId ∈ [left.eventId,right.eventId].dedup.insertionSort (· ≤ ·) :=
          (List.mem_insertionSort _).mpr (List.mem_dedup.mpr (by simp))
        rw [show [left.eventId,right.eventId].dedup.insertionSort (· ≤ ·) = [] from hn] at hmem
        cases hmem
      · simp

theorem classify_witnessed {o : WindowObservation} {mode : LivenessMode} {thresholdNs : Option ℤ}
    {saturated : Bool} {integrityClass : IntegrityClass} {mMin : ℤ}
    (h : o.chain.missingSeq ≠ none → o.chain.witness ≠ []) :
    (classify o mode thresholdNs saturated integrityClass mMin).Witnessed := by
  have hblind : ∀ reason, (Outcome.blind reason).Witnessed :=
    fun reason => ⟨nofun,fun _ => ⟨rfl,rfl⟩⟩
  have hsuppressed : ∀ reason, o.chain.missingSeq ≠ none →
      Outcome.Witnessed ⟨.suppressed,reason,o.chain.missingSeq,o.chain.witness⟩ :=
    fun reason hm => ⟨fun _ => ⟨hm,h hm⟩,fun hc => absurd rfl hc⟩
  unfold classify
  split
  · exact hblind _
  split
  · exact hblind _
  split
  · exact hblind _
  split
  · exact hblind _
  split
  · exact hblind _
  split
  · rename_i hm
    exact hsuppressed _ hm.1
  split
  · rename_i hm
    exact hsuppressed _ hm.1
  split
  · exact hblind _
  split
  · exact hblind _
  split
  · exact hblind _
  · exact ⟨nofun,fun _ => ⟨rfl,rfl⟩⟩

theorem observeWindow_witness (events : List (BundleRecord lib)) (times : List ℤ) (a b : ℤ)
    (phases : List Phase) (integrityClass : IntegrityClass) (verifier : ChainVerifier lib) :
    let chain := (observeWindow events times a b phases integrityClass verifier).chain
    chain.missingSeq ≠ none → chain.witness ≠ [] := by
  unfold observeWindow
  simp only
  split
  · cases integrityClass <;> simp
  · exact chainState_witness _ _ _

theorem outcomeOf_witnessed (s : SourceInput lib) (p : ℤ × ℤ) :
    (outcomeOf inputs profile s p).Witnessed := by
  unfold outcomeOf
  simp only
  split
  · exact classify_witnessed (observeWindow_witness _ _ _ _ _ _ _)
  · exact classify_witnessed (observeWindow_witness _ _ _ _ _ _ _)

/-- A piece between two instants, with what its outcome asks. -/
structure Publishable (p : Piece ℤ Outcome) : Prop where
  start : checkNanos "Interval.t0_ns" p.start = .ok ()
  stop : checkNanos "Interval.t1_ns" p.stop = .ok ()
  lt : p.start < p.stop
  witnessed : p.label.Witnessed

theorem Publishable.construct {p : Piece ℤ Outcome} (h : Publishable p) :
    ∃ i, (fieldsOf p).construct = .ok i := by
  have hvalid : (fieldsOf p).postInit = .ok () := by
    simp only [IntervalFields.postInit,Interval.postInit,checks_cons,ensure_ok]
    exact ⟨⟨h.start,h.stop,h.lt.le,rfl⟩,h.witnessed.1,h.witnessed.2,rfl⟩
  exact ⟨⟨fieldsOf p,hvalid⟩,validated_ok.mpr ⟨hvalid,rfl⟩⟩

theorem mergeStep_returns {merged : List LivenessInterval} {p : Piece ℤ Outcome} (h : Publishable p) :
    ∃ m, mergeStep merged p = .ok m := by
  obtain ⟨i,hi⟩ := h.construct
  unfold mergeStep
  cases hlast : merged.getLast? with
  | none => exact ⟨[i],Runs.bind_ok.mpr ⟨i,hi,rfl⟩⟩
  | some last =>
    simp only
    split
    · rename_i hsame
      have hvalid := last.valid
      simp only [IntervalFields.postInit,Interval.postInit,checks_cons,ensure_ok] at hvalid
      have hext : ({last.toIntervalFields with t1Ns := p.stop} : IntervalFields).postInit = .ok () := by
        simp only [IntervalFields.postInit,Interval.postInit,checks_cons,ensure_ok]
        refine ⟨⟨hvalid.1.1,h.stop,?_,rfl⟩,hvalid.2⟩
        have := h.lt
        have := hvalid.1.2.2.1
        omega
      exact ⟨_,Runs.bind_ok.mpr ⟨⟨_,hext⟩,validated_ok.mpr ⟨hext,rfl⟩,rfl⟩⟩
    · exact ⟨_,Runs.bind_ok.mpr ⟨i,hi,rfl⟩⟩

theorem mergeOutcomes_returns {outcomes : List (Piece ℤ Outcome)} (h : ∀ p ∈ outcomes, Publishable p) :
    ∃ intervals, mergeOutcomes outcomes = .ok intervals := by
  unfold mergeOutcomes
  generalize ([] : List LivenessInterval) = merged
  induction outcomes generalizing merged with
  | nil => exact ⟨merged,rfl⟩
  | cons p outcomes ih =>
    obtain ⟨m,hm⟩ := @mergeStep_returns merged p (h p (by simp))
    obtain ⟨intervals,hi⟩ := ih (fun q hq => h q (by simp [hq])) m
    exact ⟨intervals,Runs.foldlM_cons_ok.mpr ⟨m,hm,hi⟩⟩

/-! ### What the walk leaves besides the outcomes -/

theorem Cached.eq_map {s : SourceInput lib} {cache : List (String × RegimeThreshold)}
    (h : Cached inputs profile s cache) :
    cache = (cache.map (·.1)).map fun k => (k,regimeThreshold inputs profile s k) := by
  rw [List.map_map]
  exact (List.map_id cache).symm.trans (List.map_congr_left fun p hp => Prod.ext rfl (h.fresh p hp))

/-- Caches of the same regimes are the same up to order. -/
theorem Cached.perm {s : SourceInput lib} {cache cache' : List (String × RegimeThreshold)}
    (h : Cached inputs profile s cache) (h' : Cached inputs profile s cache')
    (hk : ∀ k, k ∈ cache.map (·.1) ↔ k ∈ cache'.map (·.1)) : cache.Perm cache' := by
  rw [h.eq_map,h'.eq_map]
  exact ((List.perm_ext_iff_of_nodup h.nodup h'.nodup).mpr hk).map _

theorem publishedThresholds_perm {cache cache' : List (String × RegimeThreshold)}
    (h : cache.Perm cache') : publishedThresholds cache = publishedThresholds cache' :=
  Tally.insertionSort_perm (f := fun p : String × ℤ => toLex p) (fun _ _ _ _ hab => toLex_inj.mp hab)
    (h.filterMap _).dedup

theorem onlyThreshold_perm {cache cache' : List (String × RegimeThreshold)} (h : cache.Perm cache') :
    onlyThreshold cache = onlyThreshold cache' := by
  have hlen := h.length_eq
  match cache, cache' with
  | [], [] => rfl
  | [p], [q] => rw [List.singleton_perm_singleton.mp h]
  | _::_::_, _::_::_ => simp [onlyThreshold]

theorem strength_injective : Function.Injective LivenessMode.strength := by
  intro a b h
  cases a <;> cases b <;> first | rfl | cases h

/-- The weakest mode is one of those used, and none is weaker. -/
theorem weakestMode_least {modes : List LivenessMode} (h : modes ≠ []) :
    weakestMode modes false ∈ modes ∧
      ∀ m ∈ modes, (weakestMode modes false).strength ≤ m.strength := by
  have hfold : ∀ (rest : List LivenessMode) (first : LivenessMode),
      let least := rest.foldl (fun weakest mode =>
        if mode.strength < weakest.strength then mode else weakest) first
      least ∈ first::rest ∧ ∀ m ∈ first::rest, least.strength ≤ m.strength := by
    intro rest
    induction rest with
    | nil => simp
    | cons m rest ih =>
      intro first
      obtain ⟨hmem,hle⟩ := ih (if m.strength < first.strength then m else first)
      simp only [List.foldl_cons]
      refine ⟨?_,fun k hk => ?_⟩
      · rcases List.mem_cons.mp hmem with he | he
        · rw [he]
          split <;> simp
        · exact List.mem_cons_of_mem _ (List.mem_cons_of_mem _ he)
      · have hpick : (if m.strength < first.strength then m else first).strength ≤ m.strength ∧
            (if m.strength < first.strength then m else first).strength ≤ first.strength := by
          split <;> omega
        have hhead := hle _ (List.mem_cons_self ..)
        rcases List.mem_cons.mp hk with rfl | hk
        · exact hhead.trans hpick.2
        rcases List.mem_cons.mp hk with rfl | hk
        · exact hhead.trans hpick.1
        · exact hle k (List.mem_cons_of_mem _ hk)
  obtain ⟨first,rest,rfl⟩ := List.exists_cons_of_ne_nil h
  exact hfold rest first

theorem weakestMode_congr {modes modes' : List LivenessMode} (h : ∀ m, m ∈ modes ↔ m ∈ modes')
    (noProfile : Bool) : weakestMode modes noProfile = weakestMode modes' noProfile := by
  cases noProfile with
  | true => rfl
  | false =>
    by_cases hn : modes = []
    · have hn' : modes' = [] := List.eq_nil_iff_forall_not_mem.mpr fun m hm => by
        rw [← h,hn] at hm
        cases hm
      rw [hn,hn']
    · have hn' : modes' ≠ [] := by
        obtain ⟨m,hm⟩ := List.exists_mem_of_ne_nil _ hn
        exact List.ne_nil_of_mem ((h m).mp hm)
      obtain ⟨hmem,hle⟩ := weakestMode_least hn
      obtain ⟨hmem',hle'⟩ := weakestMode_least hn'
      exact strength_injective (le_antisymm (hle _ ((h _).mpr hmem')) (hle' _ ((h _).mp hmem)))

/-- The values of a function at the left ends of a grid are its values on the span. -/
theorem exists_grid_iff {α : Type} {f : ℤ → α} {s : SourceInput lib}
    {phaseBounds queryEndpoints grid : List ℤ} (hb : Bounds inputs phaseBounds)
    (hf : ∀ {a t : ℤ}, phaseOf inputs.phases a = phaseOf inputs.phases t → f a = f t)
    (h : breakpoints ((sortedEvents s.events).map (·.tEvtNs)) phaseBounds queryEndpoints
      inputs.scenarioT0Ns inputs.scenarioT1Ns = .ok grid) (v : α) :
    (∃ p ∈ grid.zip grid.tail, f p.1 = v) ↔
      ∃ t, inputs.scenarioT0Ns ≤ t ∧ t < inputs.scenarioT1Ns ∧ f t = v := by
  have hcuts : Cuts f inputs.scenarioT0Ns inputs.scenarioT1Ns
      ((grid.zip grid.tail).map fun p => ⟨p.1,p.2,f p.1⟩) := by
    obtain ⟨hasc,hle,hmem⟩ := breakpoints_ok h
    obtain ⟨rest,rfl,hlast⟩ := Timeline.grid_ends hasc ((hmem _).mpr ⟨⟨le_rfl,hle⟩,.inl rfl⟩)
      ((hmem _).mpr ⟨⟨hle,le_rfl⟩,.inr (.inl rfl)⟩) fun v hv => ((hmem v).mp hv).1
    have hcuts := Cuts.of_grid (f := f) (g := fun a _ => f a) hasc fun p hp t hat htb => by
      obtain ⟨-,-,-,-,hphases⟩ := breakpoints_gap h hp
      exact (hf (phaseOf_congr hat htb fun q hq =>
        ⟨hphases _ ((hb _).mpr ⟨q,hq,.inl rfl⟩),hphases _ ((hb _).mpr ⟨q,hq,.inr rfl⟩)⟩)).symm
    rwa [hlast] at hcuts
  constructor
  · rintro ⟨p,hp,rfl⟩
    obtain ⟨hlow,hlt,hhigh⟩ := hcuts.inside (List.mem_map_of_mem hp)
    exact ⟨p.1,hlow,lt_of_lt_of_le hlt hhigh,rfl⟩
  · rintro ⟨t,h0,h1,rfl⟩
    obtain ⟨q,hq,-,-,hlabel⟩ := hcuts.mem_iff.mpr ⟨h0,h1,rfl⟩
    obtain ⟨p,hp,rfl⟩ := List.mem_map.mp hq
    exact ⟨p,hp,hlabel⟩

/-! ### One source -/

theorem checkNanos_loc {loc loc' : String} {n : ℤ} (h : checkNanos loc n = .ok ()) :
    checkNanos loc' n = .ok () := ensure_ok.mpr (ensure_ok.mp h)

/-- Inside a span of instants everything is an instant. -/
theorem checkNanos_between {loc loc' : String} {a n c : ℤ} (ha : checkNanos loc a = .ok ())
    (hc : checkNanos loc c = .ok ()) (h : a ≤ n ∧ n ≤ c) : checkNanos loc' n = .ok () := by
  have ha := ensure_ok.mp ha
  have hc := ensure_ok.mp hc
  exact ensure_ok.mpr ⟨ha.1.trans h.1,h.2.trans_lt hc.2⟩

/-- Where a grid was found with some questions, one is found with others. -/
theorem breakpoints_returns {eventTimes phaseBoundaries queryEndpoints queryEndpoints' grid : List ℤ}
    {t0Ns t1Ns : ℤ} (h : breakpoints eventTimes phaseBoundaries queryEndpoints t0Ns t1Ns = .ok grid)
    (hq : ∀ q ∈ queryEndpoints', checkNanos "query_endpoints" q = .ok ()) :
    ∃ grid', breakpoints eventTimes phaseBoundaries queryEndpoints' t0Ns t1Ns = .ok grid' := by
  obtain ⟨_,h0,h⟩ := Runs.bind_ok.mp h
  obtain ⟨_,h1,h⟩ := Runs.bind_ok.mp h
  obtain ⟨_,hle,h⟩ := Runs.bind_ok.mp h
  obtain ⟨_,hvalues,-⟩ := Runs.bind_ok.mp h
  have hvalues := checks_map.mp hvalues
  refine ⟨_,Runs.bind_ok.mpr ⟨(),h0,Runs.bind_ok.mpr ⟨(),h1,Runs.bind_ok.mpr ⟨(),hle,
    Runs.bind_ok.mpr ⟨(),checks_map.mpr fun v hv => ?_,rfl⟩⟩⟩⟩⟩
  rcases List.mem_append.mp hv with hv | hv
  · exact hvalues v (List.mem_append_left _ hv)
  · exact checkNanos_loc (hq v hv)

theorem breakpoints_span {eventTimes phaseBoundaries queryEndpoints grid : List ℤ} {t0Ns t1Ns : ℤ}
    (h : breakpoints eventTimes phaseBoundaries queryEndpoints t0Ns t1Ns = .ok grid) :
    checkNanos "breakpoints.t0_ns" t0Ns = .ok () ∧ checkNanos "breakpoints.t1_ns" t1Ns = .ok () := by
  obtain ⟨_,h0,h⟩ := Runs.bind_ok.mp h
  obtain ⟨_,h1,-⟩ := Runs.bind_ok.mp h
  exact ⟨h0,h1⟩

/-- The walk of a source over a grid. -/
def walkOver (inputs : BuildInputs lib) (profile : Option (SourceProfile lib × String))
    (s : SourceInput lib) (grid : List ℤ) : SourceWalk :=
  (grid.zip grid.tail).foldl (walkInterval inputs profile s) ⟨[],[],[]⟩

theorem walkOver_spec (s : SourceInput lib) (grid : List ℤ) :
    (walkOver inputs profile s grid).outcomes =
        (grid.zip grid.tail).map (fun p => ⟨p.1,p.2,outcomeOf inputs profile s p⟩) ∧
      (∀ m, m ∈ (walkOver inputs profile s grid).modesUsed ↔
        ∃ p ∈ grid.zip grid.tail, modeOf inputs profile s (p.1,p.1) = some m) ∧
      Cached inputs profile s (walkOver inputs profile s grid).cache ∧
      ∀ k, k ∈ (walkOver inputs profile s grid).cache.map (·.1) ↔
        ∃ p ∈ grid.zip grid.tail,
          (if inputs.noProfile then none else phaseOf inputs.phases p.1) = some k := by
  obtain ⟨hout,hmodes,hcache,hkeys⟩ := @walk_spec lib inputs profile s ⟨[],[],[]⟩ ⟨by simp,by simp⟩
    (grid.zip grid.tail)
  refine ⟨hout,fun m => ?_,hcache,fun k => ?_⟩
  · rw [walkOver,hmodes]
    simp [modeOf]
  · rw [walkOver,hkeys]
    cases inputs.noProfile <;> simp

/-- A source has the same timeline whatever was asked and in whatever order its records came. -/
theorem buildSource_independent {phaseBounds queryEndpoints queryEndpoints' : List ℤ}
    {s s' : SourceInput lib} {entry : SourceLiveness} (hb : Bounds inputs phaseBounds)
    (h : buildSource inputs profile phaseBounds queryEndpoints s = .ok entry)
    (hr : Rearranged s s') (hk : Keyed s)
    (hq : ∀ q ∈ queryEndpoints', checkNanos "query_endpoints" q = .ok ()) :
    buildSource inputs profile phaseBounds queryEndpoints' s' = .ok entry := by
  obtain ⟨grid,hgrid,h⟩ := Runs.bind_ok.mp h
  obtain ⟨intervals,hmerge,h⟩ := Runs.bind_ok.mp h
  obtain ⟨grid',hgrid'⟩ := breakpoints_returns hgrid hq
  obtain ⟨hout,hmodes,hcache,hkeys⟩ := @walkOver_spec lib inputs profile s grid
  obtain ⟨hout',hmodes',hcache',hkeys'⟩ := @walkOver_spec lib inputs profile s' grid'
  have hgrid'' : breakpoints ((sortedEvents s'.events).map (·.tEvtNs)) phaseBounds queryEndpoints'
      inputs.scenarioT0Ns inputs.scenarioT1Ns = .ok grid' := by rwa [← hr.sorted hk]
  -- both walks cut the span by the same function of its instants
  have hcuts := @grid_cuts _ _ profile _ _ _ _ hb hgrid
  have hcuts' := @grid_cuts _ _ profile _ _ _ _ hb hgrid''
  have hpieces : ∀ p ∈ (grid'.zip grid'.tail).map fun p => (⟨p.1,p.2,outcomeOf inputs profile s' p⟩ :
      Piece ℤ Outcome), Publishable p := by
    intro q hq
    obtain ⟨p,hp,rfl⟩ := List.mem_map.mp hq
    obtain ⟨hlt,hlow,hhigh,-⟩ := breakpoints_gap hgrid' hp
    obtain ⟨h0,h1⟩ := breakpoints_span hgrid'
    exact ⟨checkNanos_between h0 (checkNanos_loc h1) ⟨hlow,hlt.le.trans hhigh⟩,
      checkNanos_between h0 (checkNanos_loc h1) ⟨hlow.trans hlt.le,hhigh⟩,hlt,outcomeOf_witnessed _ _⟩
  obtain ⟨intervals',hmerge'⟩ := mergeOutcomes_returns hpieces
  have hmerge : mergeOutcomes (walkOver inputs profile s grid).outcomes = .ok intervals := hmerge
  rw [hout] at hmerge
  have hsame : intervals' = intervals := by
    refine List.map_injective_iff.mpr LivenessInterval.piece_injective ?_
    have hinstant : instantOutcome inputs profile s = instantOutcome inputs profile s' := by
      unfold instantOutcome
      rw [hr.outcomeOf hk]
    rw [hinstant] at hcuts
    rw [mergeOutcomes_piece hmerge',mergeOutcomes_piece hmerge]
    exact Timeline.merge_eq hcuts' hcuts
  have hmode : weakestMode (walkOver inputs profile s' grid').modesUsed inputs.noProfile =
      weakestMode (walkOver inputs profile s grid).modesUsed inputs.noProfile := by
    refine weakestMode_congr (fun m => ?_) _
    have hvalues := @exists_grid_iff lib inputs (Option LivenessMode)
      (fun a => modeOf inputs profile s (a,a)) s phaseBounds
    rw [hmodes,hmodes',← hr.modeOf,hvalues hb (fun hphase => by simp only [modeOf,hphase]) hgrid',
      hvalues hb (fun hphase => by simp only [modeOf,hphase]) hgrid]
  have hperm : (walkOver inputs profile s' grid').cache.Perm (walkOver inputs profile s grid).cache := by
    have hvalues := @exists_grid_iff lib inputs (Option String)
      (fun a => if inputs.noProfile then none else phaseOf inputs.phases a) s phaseBounds
    refine Cached.perm (s := s) ⟨fun p hp => ?_,hcache'.nodup⟩ hcache fun k => ?_
    · rw [hr.threshold]
      exact hcache'.fresh p hp
    · rw [hkeys,hkeys',hvalues hb (fun hphase => by simp only [hphase]) hgrid',
        hvalues hb (fun hphase => by simp only [hphase]) hgrid]
  refine Runs.bind_ok.mpr ⟨grid',hgrid'',Runs.bind_ok.mpr ⟨intervals,?_,?_⟩⟩
  · exact (congrArg mergeOutcomes hout').trans (hsame ▸ hmerge')
  · have hfields : TimelineFields.construct
        { source := s'.source
          integrityClass := s'.integrityClass
          mode := weakestMode (walkOver inputs profile s' grid').modesUsed inputs.noProfile
          intervals := intervals
          blindVolumeNsByReason := blindVolume intervals
          suppressedVolumeNs := suppressedVolume intervals
          thresholdNs := (onlyThreshold (walkOver inputs profile s' grid').cache).map (·.1)
          thresholdProvenance := (onlyThreshold (walkOver inputs profile s' grid').cache).map (·.2)
          regimeThresholds := publishedThresholds (walkOver inputs profile s' grid').cache
          tamperSuspected := false } = .ok entry := by
      rw [hmode,onlyThreshold_perm hperm,publishedThresholds_perm hperm,← hr.source,← hr.integrityClass]
      exact h
    exact hfields

/-! ### The document -/

theorem BuiltFrom.sourceIds {sources : List (SourceInput lib)} {queryEndpoints phaseBounds : List ℤ}
    {document : LivenessDocument}
    (hb : BuiltFrom inputs sources queryEndpoints document profile phaseBounds) :
    (sources.map (·.sourceId)).Nodup := by
  have hids : (sources.insertionSort (·.sourceId ≤ ·.sourceId)).map (·.sourceId) =
      document.sources.map (·.sourceId) := by
    have hbuilt := hb.built
    generalize sources.insertionSort (·.sourceId ≤ ·.sourceId) = sorted at hbuilt ⊢
    generalize document.sources = entries at hbuilt ⊢
    induction hbuilt with
    | nil => rfl
    | cons hentry _ ih =>
      rw [List.map_cons,List.map_cons,ih]
      exact congrArg (·::_) (congrArg (Checker.sourcePrefix++·) (buildSource_ok hb.bounds hentry).1.symm)
  have hperm := (List.perm_insertionSort (fun s s' : SourceInput lib => s.sourceId ≤ s'.sourceId)
    sources).map (·.sourceId)
  rw [hids] at hperm
  exact hperm.nodup_iff.mp ((sourceEntries_ascending document).imp ne_of_lt)

/-- The document, with its bytes, does not depend on the questions or on any order. -/
theorem document_independent {sources sources' : List (SourceInput lib)}
    {queryEndpoints queryEndpoints' : List ℤ} {document : LivenessDocument}
    (h : buildLivenessDocument lib inputs sources queryEndpoints = .ok document)
    (hr : SourcesRearranged sources sources') (hk : ∀ s ∈ sources, Keyed s)
    (hq : ∀ q ∈ queryEndpoints', checkNanos "query_endpoints" q = .ok ()) :
    ∃ document', buildLivenessDocument lib inputs sources' queryEndpoints' = .ok document' ∧
      document' = document ∧ document'.canonicalBytes = document.canonicalBytes := by
  refine ⟨document,?_,rfl,rfl⟩
  obtain ⟨_,_,hfrom⟩ := buildLivenessDocument_ok h
  obtain ⟨l,hperm,hl⟩ := hr
  have hids := hfrom.sourceIds
  have hsorted : List.Forall₂ Rearranged (sources.insertionSort (·.sourceId ≤ ·.sourceId))
      (sources'.insertionSort (·.sourceId ≤ ·.sourceId)) := by
    rw [Tally.insertionSort_perm (fun s hs s' hs' he => List.inj_on_of_nodup_map hids hs hs' he) hperm]
    exact forall₂_insertionSort
      (fun s s' hss => congrArg (Checker.sourcePrefix++·) hss.source) hl
  obtain ⟨_,hbound,h⟩ := Runs.bind_ok.mp h
  obtain ⟨_,hphases,h⟩ := Runs.bind_ok.mp h
  obtain ⟨_,h0,h⟩ := Runs.bind_ok.mp h
  obtain ⟨_,h1,h⟩ := Runs.bind_ok.mp h
  obtain ⟨_,hspan,h⟩ := Runs.bind_ok.mp h
  obtain ⟨_,-,h⟩ := Runs.bind_ok.mp h
  obtain ⟨profile,hprofile,h⟩ := Runs.bind_ok.mp h
  obtain ⟨built,hbuilt,h⟩ := Runs.bind_ok.mp h
  refine Runs.bind_ok.mpr ⟨(),hbound,Runs.bind_ok.mpr ⟨(),hphases,Runs.bind_ok.mpr ⟨(),h0,
    Runs.bind_ok.mpr ⟨(),h1,Runs.bind_ok.mpr ⟨(),hspan,Runs.bind_ok.mpr ⟨(),checks_map.mpr hq,
      Runs.bind_ok.mpr ⟨profile,hprofile,Runs.bind_ok.mpr ⟨built,?_,h⟩⟩⟩⟩⟩⟩⟩⟩
  have hbounds : Bounds inputs ((inputs.phases.map (·.t0Ns)++inputs.phases.map (·.t1Ns)).dedup.insertionSort
      (· ≤ ·)) := phaseBounds_bounds inputs
  have hkeyed : ∀ s ∈ sources.insertionSort (·.sourceId ≤ ·.sourceId), Keyed s :=
    fun s hs => hk s ((List.mem_insertionSort _).mp hs)
  replace hbuilt := mapM_ok.mp hbuilt
  refine mapM_ok.mpr ?_
  generalize sources.insertionSort (·.sourceId ≤ ·.sourceId) = sorted at hsorted hkeyed hbuilt
  generalize sources'.insertionSort (·.sourceId ≤ ·.sourceId) = sorted' at hsorted
  clear h
  induction hsorted generalizing built with
  | nil =>
    cases hbuilt
    exact .nil
  | cons hss _ ih =>
    cases hbuilt with
    | cons hentry hrest =>
      exact .cons (buildSource_independent hbounds hentry hss (hkeyed _ (by simp)) hq)
        (ih _ (fun s hs => hkeyed s (by simp [hs])) hrest)

/-- The source of the sample day with its records in the order of their times. -/
def iamSourceInOrder : SourceInput (readerOf []) :=
  ⟨"iam",.chained,[firstLogin,secondLogin],none,iam_valid⟩

theorem document_independent_login : ∃ document document',
    buildLivenessDocument (readerOf []) (dayInputs _) [iamSource] [13] = .ok document ∧
    buildLivenessDocument (readerOf []) (dayInputs _) [iamSourceInOrder] [40,13,40] = .ok document' ∧
    document' = document ∧ document'.canonicalBytes = document.canonicalBytes := by
  have hd := iamDay.2.1
  have hswap : SourcesRearranged [iamSource] [iamSourceInOrder] :=
    ⟨[iamSource],.refl _,.cons ⟨rfl,rfl,rfl,.swap ..⟩ .nil⟩
  have hkeyed : ∀ s ∈ [iamSource], Keyed s := by
    simp only [List.mem_singleton,forall_eq]
    intro e he e' he' hkey
    have hseq : e.seq = e'.seq := congrArg (fun k => (ofLex (ofLex k).2).1) hkey
    simp only [iamSource,List.mem_cons,List.not_mem_nil,or_false] at he he'
    rcases he with rfl | rfl <;> rcases he' with rfl | rfl <;> first | rfl | cases hseq
  have hasked : ∀ q ∈ [40,13,40], checkNanos "query_endpoints" q = .ok () := by decide
  obtain ⟨document',hd',hsame⟩ := document_independent hd hswap hkeyed hasked
  exact ⟨_,document',hd,hd',hsame⟩

end Liveness

end Spectra
