import Spectra.LivenessBuild
import Spectra.Runs

/-! The timelines of the liveness document read instant by instant: an elementary interval says
of each of its instants what the records around that instant say, and the merge keeps it. -/
namespace Spectra

open Checker (Library)
open Timeline (Piece Cuts Reduced)

namespace Liveness

variable {lib : Library}

/-! ### The grid -/

theorem breakpoints_ok {eventTimes phaseBoundaries queryEndpoints grid : List ℤ} {t0Ns t1Ns : ℤ}
    (h : breakpoints eventTimes phaseBoundaries queryEndpoints t0Ns t1Ns = .ok grid) :
    grid.Pairwise (· < ·) ∧ t0Ns ≤ t1Ns ∧ ∀ v, v ∈ grid ↔ (t0Ns ≤ v ∧ v ≤ t1Ns) ∧
      (v = t0Ns ∨ v = t1Ns ∨ v ∈ eventTimes ∨ v ∈ phaseBoundaries ∨ v ∈ queryEndpoints) := by
  obtain ⟨_,-,h⟩ := Runs.bind_ok.mp h
  obtain ⟨_,-,h⟩ := Runs.bind_ok.mp h
  obtain ⟨_,hle,h⟩ := Runs.bind_ok.mp h
  obtain ⟨_,-,h⟩ := Runs.bind_ok.mp h
  obtain rfl := Runs.pure_ok.mp h
  have hle := ensure_ok.mp hle
  refine ⟨Timeline.ascending_dedup _,hle,fun v => ?_⟩
  rw [List.mem_insertionSort,List.mem_dedup]
  simp only [List.mem_append,List.mem_cons,List.not_mem_nil,or_false,List.mem_filter,
    decide_eq_true_eq]
  constructor
  · rintro ((rfl | rfl) | ⟨hv,hspan⟩)
    · exact ⟨⟨le_rfl,hle⟩,.inl rfl⟩
    · exact ⟨⟨hle,le_rfl⟩,.inr (.inl rfl)⟩
    · exact ⟨hspan,by tauto⟩
  · rintro ⟨hspan,rfl | rfl | hv⟩
    · exact .inl (.inl rfl)
    · exact .inl (.inr rfl)
    · exact .inr ⟨by tauto,hspan⟩

/-- No event and no phase boundary lies strictly between neighbours of a grid. -/
theorem breakpoints_gap {eventTimes phaseBoundaries queryEndpoints grid : List ℤ} {t0Ns t1Ns : ℤ}
    (h : breakpoints eventTimes phaseBoundaries queryEndpoints t0Ns t1Ns = .ok grid) {p : ℤ × ℤ}
    (hp : p ∈ grid.zip grid.tail) : p.1 < p.2 ∧ t0Ns ≤ p.1 ∧ p.2 ≤ t1Ns ∧
      (∀ v ∈ eventTimes, v ≤ p.1 ∨ p.2 ≤ v) ∧ ∀ v ∈ phaseBoundaries, v ≤ p.1 ∨ p.2 ≤ v := by
  obtain ⟨hasc,-,hmem⟩ := breakpoints_ok h
  obtain ⟨h₁,h₂,hlt,hgap⟩ := Timeline.neighbours hasc hp
  have hlow := ((hmem p.1).mp h₁).1.1
  have hhigh := ((hmem p.2).mp h₂).1.2
  have hclear : ∀ v, v ∈ eventTimes ∨ v ∈ phaseBoundaries → v ≤ p.1 ∨ p.2 ≤ v := by
    intro v hv
    by_cases hspan : t0Ns ≤ v ∧ v ≤ t1Ns
    · exact hgap v ((hmem v).mpr ⟨hspan,by tauto⟩)
    · omega
  exact ⟨hlt,hlow,hhigh,fun v hv => hclear v (.inl hv),fun v hv => hclear v (.inr hv)⟩

/-! ### Observations -/

theorem bisectRight_congr {times : List ℤ} {a t b : ℤ} (hat : a ≤ t) (htb : t < b)
    (h : ∀ v ∈ times, v ≤ a ∨ b ≤ v) : bisectRight times a = bisectRight times t := by
  refine List.countP_congr fun v hv => ?_
  have := h v hv
  simp only [decide_eq_true_eq]
  omega

theorem bisectLeft_congr {times : List ℤ} {a t b : ℤ} (hat : a ≤ t) (htb : t < b)
    (h : ∀ v ∈ times, v ≤ a ∨ b ≤ v) : bisectLeft times b = bisectLeft times (t+1) := by
  refine List.countP_congr fun v hv => ?_
  have := h v hv
  simp only [decide_eq_true_eq]
  omega

theorem phaseOf_congr {phases : List Phase} {a t b : ℤ} (hat : a ≤ t) (htb : t < b)
    (h : ∀ p ∈ phases, (p.t0Ns ≤ a ∨ b ≤ p.t0Ns) ∧ (p.t1Ns ≤ a ∨ b ≤ p.t1Ns)) :
    phaseOf phases a = phaseOf phases t := by
  unfold phaseOf
  refine congrArg _ (List.find?_congr fun p hp => ?_)
  have := h p hp
  refine Bool.eq_iff_iff.mpr ?_
  simp only [Phase.contains,decide_eq_true_eq]
  omega

/-- An elementary interval is observed as each of its instants is. -/
theorem observeWindow_congr {events : List (BundleRecord lib)} {times : List ℤ}
    {phases : List Phase} {integrityClass : IntegrityClass} {verifier : ChainVerifier lib}
    {a t b : ℤ} (hat : a ≤ t) (htb : t < b) (htimes : ∀ v ∈ times, v ≤ a ∨ b ≤ v)
    (hphases : ∀ p ∈ phases, (p.t0Ns ≤ a ∨ b ≤ p.t0Ns) ∧ (p.t1Ns ≤ a ∨ b ≤ p.t1Ns)) :
    observeWindow events times a b phases integrityClass verifier =
      observeWindow events times t (t+1) phases integrityClass verifier := by
  unfold observeWindow
  rw [phaseOf_congr hat htb hphases,bisectRight_congr hat htb htimes,
    bisectLeft_congr hat htb htimes]

theorem arrivalKey_le {e e' : BundleRecord lib} (h : e.arrivalKey ≤ e'.arrivalKey) :
    e.tEvtNs ≤ e'.tEvtNs := by
  rcases Prod.Lex.toLex_le_toLex.mp h with h | h
  · exact h.le
  · exact h.1.le

theorem sortedEvents_ascending (events : List (BundleRecord lib)) :
    (sortedEvents events).Pairwise fun e e' => e.tEvtNs ≤ e'.tEvtNs :=
  (List.pairwise_insertionSort (fun e e' : BundleRecord lib => e.arrivalKey ≤ e'.arrivalKey) _).imp
    arrivalKey_le

/-- Records in the order of time, with an instant between two neighbours. -/
structure Brackets (events : List (BundleRecord lib)) (l r : BundleRecord lib) (tNs : ℤ) : Prop where
  neighbours : ∃ earlier later, events = earlier++l::r::later
  left : l.tEvtNs ≤ tNs
  right : tNs < r.tEvtNs

theorem countP_of_split {β : Type} {p : β → Bool} {earlier later : List β}
    (he : ∀ b ∈ earlier, p b = true) (hl : ∀ b ∈ later, p b = false) :
    (earlier++later).countP p = earlier.length := by
  rw [List.countP_append,List.countP_eq_length.mpr he,List.countP_eq_zero.mpr fun b hb => by simp [hl b hb],
    Nat.add_zero]

/-- The records up to an instant come before those after it. -/
theorem take_bisectRight {events : List (BundleRecord lib)}
    (h : events.Pairwise fun e e' => e.tEvtNs ≤ e'.tEvtNs) (tNs : ℤ) :
    (∀ e ∈ events.take (bisectRight (events.map (·.tEvtNs)) tNs), e.tEvtNs ≤ tNs) ∧
      ∀ e ∈ events.drop (bisectRight (events.map (·.tEvtNs)) tNs), tNs < e.tEvtNs := by
  induction events with
  | nil => simp
  | cons e events ih =>
    obtain ⟨he,hrest⟩ := List.pairwise_cons.mp h
    by_cases ht : e.tEvtNs ≤ tNs
    · have hcount : bisectRight ((e::events).map (·.tEvtNs)) tNs =
          bisectRight (events.map (·.tEvtNs)) tNs+1 := by
        simp [bisectRight,ht]
      rw [hcount,List.take_succ_cons,List.drop_succ_cons]
      exact ⟨List.forall_mem_cons.mpr ⟨ht,(ih hrest).1⟩,(ih hrest).2⟩
    · have hcount : bisectRight ((e::events).map (·.tEvtNs)) tNs = 0 := by
        refine List.countP_eq_zero.mpr fun v hv => ?_
        obtain ⟨e',he',rfl⟩ := List.mem_map.mp hv
        rcases List.mem_cons.mp he' with rfl | hm
        · simpa using ht
        · simpa using (not_le.mp ht).trans_le (he e' hm)
      rw [hcount]
      refine ⟨by simp,fun e' he' => ?_⟩
      rcases List.mem_cons.mp he' with rfl | hm
      · exact not_le.mp ht
      · exact (not_le.mp ht).trans_le (he e' hm)

section

variable {events : List (BundleRecord lib)} {phases : List Phase} {integrityClass : IntegrityClass}
  {verifier : ChainVerifier lib} {l r : BundleRecord lib} {tNs : ℤ}

theorem bisectLeft_succ (times : List ℤ) (tNs : ℤ) : bisectLeft times (tNs+1) = bisectRight times tNs :=
  List.countP_congr fun v _ => by simp only [decide_eq_true_eq]; omega

/-- The records up to the instant are those up to the left one. -/
theorem Brackets.index (hs : events.Pairwise fun e e' => e.tEvtNs ≤ e'.tEvtNs)
    (h : Brackets events l r tNs) : ∃ earlier later, events = earlier++l::r::later ∧
      bisectRight (events.map (·.tEvtNs)) tNs = earlier.length+1 := by
  obtain ⟨⟨earlier,later,rfl⟩,hleft,hright⟩ := h
  refine ⟨earlier,later,rfl,?_⟩
  obtain ⟨-,hlater,hcross⟩ := List.pairwise_append.mp hs
  obtain ⟨-,hlater⟩ := List.pairwise_cons.mp hlater
  obtain ⟨hr,-⟩ := List.pairwise_cons.mp hlater
  have hsplit : (earlier++l::r::later).map (·.tEvtNs) =
      (earlier++[l]).map (·.tEvtNs)++(r::later).map (·.tEvtNs) := by simp
  have hbefore : ∀ v ∈ (earlier++[l]).map (·.tEvtNs), v ≤ tNs := by
    intro v hv
    obtain ⟨e,he,rfl⟩ := List.mem_map.mp hv
    rcases List.mem_append.mp he with he | he
    · exact (hcross e he l (by simp)).trans hleft
    · exact (List.mem_singleton.mp he) ▸ hleft
  have hafter : ∀ v ∈ (r::later).map (·.tEvtNs), tNs < v := by
    intro v hv
    obtain ⟨e,he,rfl⟩ := List.mem_map.mp hv
    rcases List.mem_cons.mp he with rfl | he
    · exact hright
    · exact hright.trans_le (hr e he)
  rw [bisectRight,hsplit,countP_of_split (fun v hv => by simpa using hbefore v hv)
    fun v hv => by simpa using hafter v hv]
  simp

/-- An instant has one pair of brackets. -/
theorem Brackets.unique {l' r' : BundleRecord lib}
    (hs : events.Pairwise fun e e' => e.tEvtNs ≤ e'.tEvtNs) (h : Brackets events l r tNs)
    (h' : Brackets events l' r' tNs) : l = l' ∧ r = r' := by
  obtain ⟨earlier,later,he,hn⟩ := h.index hs
  obtain ⟨earlier',later',he',hn'⟩ := h'.index hs
  obtain ⟨-,htail⟩ := List.append_inj (he.symm.trans he') (by omega)
  simp only [List.cons.injEq] at htail
  exact ⟨htail.1,htail.2.1⟩

/-- Where two records bracket an instant, it is observed over exactly these two. -/
theorem Brackets.observe (hs : events.Pairwise fun e e' => e.tEvtNs ≤ e'.tEvtNs)
    (h : Brackets events l r tNs) :
    observeWindow events (events.map (·.tEvtNs)) tNs (tNs+1) phases integrityClass verifier =
      { regime := phaseOf phases tNs
        leftBracketTNs := some l.tEvtNs
        rightBracketTNs := some r.tEvtNs
        nRecordsInSpan := 2
        maxObservedGapNs := r.tEvtNs-l.tEvtNs
        chain := chainState [l,r] integrityClass verifier } := by
  obtain ⟨earlier,later,rfl,hn⟩ := h.index hs
  have hspan : ((earlier++l::r::later).take (earlier.length+1+1)).drop (earlier.length+1-1) = [l,r] := by
    rw [Nat.add_sub_cancel,List.drop_take,List.drop_left',Nat.add_assoc,Nat.add_sub_cancel_left]
    · rfl
    · rfl
  unfold observeWindow
  rw [bisectLeft_succ,hn]
  simp only [Nat.add_eq_zero_iff,one_ne_zero,and_false,false_or,hspan]
  rw [if_neg (by simp)]
  simp [maxGap,h.left.trans_lt h.right]

/-- Two records bracket an instant, or one side has none. -/
theorem brackets_or (hs : events.Pairwise fun e e' => e.tEvtNs ≤ e'.tEvtNs) (tNs : ℤ) :
    (∃ l r, Brackets events l r tNs) ∨ bisectRight (events.map (·.tEvtNs)) tNs = 0 ∨
      events.length ≤ bisectRight (events.map (·.tEvtNs)) tNs := by
  obtain ⟨hbefore,hafter⟩ := take_bisectRight hs tNs
  generalize bisectRight (events.map (·.tEvtNs)) tNs = n at hbefore hafter ⊢
  by_cases hn : n = 0
  · exact .inr (.inl hn)
  by_cases hlen : events.length ≤ n
  · exact .inr (.inr hlen)
  have hl : n-1 < events.length := by omega
  have hr : n < events.length := by omega
  refine .inl ⟨events[n-1],events[n],⟨events.take (n-1),events.drop (n+1),?_⟩,?_,?_⟩
  · conv_lhs => rw [← List.take_append_drop (n-1) events,List.drop_eq_getElem_cons hl]
    rw [Nat.sub_add_cancel (by omega),List.drop_eq_getElem_cons hr]
  · exact hbefore _ (List.mem_take_iff_getElem.mpr ⟨n-1,by omega,rfl⟩)
  · exact hafter _ (List.mem_drop_iff_getElem.mpr ⟨0,by omega,by simp⟩)

/-- Where one side has no record, nothing is measured. -/
theorem observe_unbracketed (h : bisectRight (events.map (·.tEvtNs)) tNs = 0 ∨
      events.length ≤ bisectRight (events.map (·.tEvtNs)) tNs) :
    ∃ left right, observeWindow events (events.map (·.tEvtNs)) tNs (tNs+1) phases integrityClass
        verifier = ⟨phaseOf phases tNs,left,right,0,0,
          if integrityClass = .unlinked then ⟨.absent,none,none,[]⟩ else ⟨.verified,none,none,[]⟩⟩ ∧
      (left = none ∨ right = none) := by
  unfold observeWindow
  rw [bisectLeft_succ,if_pos (by simpa using h)]
  refine ⟨_,_,rfl,?_⟩
  rcases h with h | h
  · exact .inl (if_pos h)
  · exact .inr (if_pos (by simpa using h))

/-! ### Rules R1..R11 -/

/-- The chain of two neighbours that says nothing against LIVE. -/
theorem chainState_pair : (chainState [l,r] integrityClass verifier).status ≠ .unverified ∧
      ((chainState [l,r] integrityClass verifier).missingSeq = none ∨ integrityClass = .unlinked) ↔
    (integrityClass ≠ .unlinked → verifier none l = true ∧ verifier (some l) r = true ∧
      r.seq ≤ l.seq+1) := by
  unfold chainState
  by_cases hc : integrityClass = .unlinked
  · simp [hc]
  · rw [if_neg hc]
    by_cases hl : verifier none l = true
    · by_cases hr : verifier (some l) r = true
      · by_cases hseq : l.seq+1 < r.seq
        · simp [firstBad,firstGap,hl,hr,hseq,hc]
        · simp [firstBad,firstGap,hl,hr,hseq,hc,not_lt.mp hseq]
      · simp [firstBad,hl,hr,hc]
    · simp [firstBad,hl,hc]

theorem classify_live {o : WindowObservation} {mode : LivenessMode} {thresholdNs : Option ℤ}
    {saturated : Bool} {mMin : ℤ} :
    (classify o mode thresholdNs saturated integrityClass mMin).verdict = .live ↔
      mode ≠ .f2NoProfile ∧ o.regime ≠ none ∧ saturated = false ∧
      (o.chain.status ≠ .unverified ∧ (o.chain.missingSeq = none ∨ integrityClass = .unlinked)) ∧
      (o.leftBracketTNs ≠ none ∧ o.rightBracketTNs ≠ none) ∧ mMin ≤ o.nRecordsInSpan ∧
      ∃ threshold, thresholdNs = some threshold ∧ o.maxObservedGapNs ≤ threshold := by
  unfold classify
  by_cases hmode : mode = .f2NoProfile
  · simp [hmode,Outcome.blind]
  rw [if_neg hmode]
  by_cases hregime : o.regime = none
  · simp [hregime,Outcome.blind]
  rw [if_neg hregime]
  cases thresholdNs with
  | none => simp [Outcome.blind]
  | some threshold =>
    cases saturated with
    | true => simp [Outcome.blind]
    | false =>
      simp only [Bool.false_eq_true,↓reduceIte]
      by_cases hchain : o.chain.status = .unverified
      · simp [hchain,Outcome.blind]
      rw [if_neg hchain]
      by_cases hmissing : o.chain.missingSeq = none ∨ integrityClass = .unlinked
      · have hgap : ∀ c : IntegrityClass, c ≠ .unlinked →
            ¬(o.chain.missingSeq ≠ none ∧ integrityClass = c) := by
          rintro c hc ⟨hne,rfl⟩
          exact hmissing.elim hne hc
        rw [if_neg (hgap _ (by decide)),if_neg (hgap _ (by decide))]
        by_cases hopen : o.leftBracketTNs = none ∨ o.rightBracketTNs = none
        · rw [if_pos hopen]
          refine iff_of_false (by simp [Outcome.blind]) fun h => ?_
          exact hopen.elim h.2.2.2.2.1.1 h.2.2.2.2.1.2
        rw [if_neg hopen]
        by_cases hfew : o.nRecordsInSpan < mMin
        · rw [if_pos hfew]
          exact iff_of_false (by simp [Outcome.blind]) fun h => absurd h.2.2.2.2.2.1 (not_le.mpr hfew)
        rw [if_neg hfew]
        by_cases hwide : threshold < o.maxObservedGapNs
        · rw [if_pos hwide]
          simp [Outcome.blind,not_le.mpr hwide]
        rw [if_neg hwide]
        exact iff_of_true rfl ⟨hmode,hregime,trivial,⟨hchain,hmissing⟩,not_or.mp hopen,not_lt.mp hfew,
          _,rfl,not_lt.mp hwide⟩
      · refine iff_of_false ?_ fun h => hmissing h.2.2.2.1.2
        cases integrityClass <;> simp_all

end

/-! ### The walk over a grid -/

section

variable {inputs : BuildInputs lib} {profile : Option (SourceProfile lib × String)}
  {source : SourceInput lib}

/-- The outcome of an elementary interval, from the threshold its regime has. -/
def outcomeOf (inputs : BuildInputs lib) (profile : Option (SourceProfile lib × String))
    (source : SourceInput lib) (p : ℤ × ℤ) : Outcome :=
  let events := sortedEvents source.events
  let observation := observeWindow events (events.map (·.tEvtNs)) p.1 p.2 inputs.phases
    source.integrityClass inputs.chainVerifier
  let entry := (phaseOf inputs.phases p.1).map (regimeThreshold inputs profile source)
  if inputs.noProfile then
    classify observation .f2NoProfile none false source.integrityClass inputs.config.mMin
  else
    classify observation ((entry.map (·.mode)).getD .f1Insufficient) (entry.bind (·.thresholdNs))
      ((entry.map (·.saturated)).getD false) source.integrityClass inputs.config.mMin

/-- The mode an elementary interval uses, when it is in a regime. -/
def modeOf (inputs : BuildInputs lib) (profile : Option (SourceProfile lib × String))
    (source : SourceInput lib) (p : ℤ × ℤ) : Option LivenessMode :=
  (phaseOf inputs.phases p.1).map fun regime =>
    if inputs.noProfile then .f2NoProfile else (regimeThreshold inputs profile source regime).mode

/-- A cache that holds what would be computed afresh, under distinct regimes. -/
structure Cached (inputs : BuildInputs lib) (profile : Option (SourceProfile lib × String))
    (source : SourceInput lib) (cache : List (String × RegimeThreshold)) : Prop where
  fresh : ∀ p ∈ cache, p.2 = regimeThreshold inputs profile source p.1
  nodup : (cache.map (·.1)).Nodup

theorem observeWindow_regime {events : List (BundleRecord lib)} {times : List ℤ} {a b : ℤ}
    {phases : List Phase} {integrityClass : IntegrityClass} {verifier : ChainVerifier lib} :
    (observeWindow events times a b phases integrityClass verifier).regime = phaseOf phases a := by
  unfold observeWindow
  simp only
  split <;> rfl

theorem Cached.lookup {cache : List (String × RegimeThreshold)} (h : Cached inputs profile source cache)
    (regime : String) :
    (cachedThreshold cache regime (regimeThreshold inputs profile source regime)).1 =
        regimeThreshold inputs profile source regime ∧
      Cached inputs profile source
        (cachedThreshold cache regime (regimeThreshold inputs profile source regime)).2 ∧
      ∀ k, k ∈ (cachedThreshold cache regime (regimeThreshold inputs profile source regime)).2.map (·.1) ↔
        k = regime ∨ k ∈ cache.map (·.1) := by
  unfold cachedThreshold
  cases hg : Dict.get? cache regime with
  | some entry =>
    have hmem := Dict.get?_mem hg
    refine ⟨h.fresh _ hmem,h,fun k => ⟨.inr,?_⟩⟩
    rintro (rfl | hk)
    · exact List.mem_map_of_mem hmem
    · exact hk
  | none =>
    have hfresh : regime ∉ cache.map (·.1) := by
      rw [← Dict.isSome_get?_iff,hg]
      simp
    refine ⟨rfl,⟨fun p hp => ?_,Dict.nodup_keys_set h.nodup _ _⟩,fun k => Dict.mem_keys_set⟩
    rw [Dict.set_fresh hfresh] at hp
    rcases List.mem_append.mp hp with hp | hp
    · exact h.fresh p hp
    · rw [List.mem_singleton.mp hp]

/-- One step of the walk. -/
theorem walkInterval_spec {walk : SourceWalk} (h : Cached inputs profile source walk.cache) (p : ℤ × ℤ) :
    (walkInterval inputs profile source walk p).outcomes =
        walk.outcomes++[⟨p.1,p.2,outcomeOf inputs profile source p⟩] ∧
      (walkInterval inputs profile source walk p).modesUsed =
        walk.modesUsed++(modeOf inputs profile source p).toList ∧
      Cached inputs profile source (walkInterval inputs profile source walk p).cache ∧
      ∀ k, k ∈ (walkInterval inputs profile source walk p).cache.map (·.1) ↔
        k ∈ walk.cache.map (·.1) ∨ inputs.noProfile = false ∧ phaseOf inputs.phases p.1 = some k := by
  unfold walkInterval outcomeOf modeOf
  simp only [observeWindow_regime]
  cases hregime : phaseOf inputs.phases p.1 with
  | none => cases inputs.noProfile <;> exact ⟨rfl,by simp,h,by simp⟩
  | some regime =>
    by_cases hno : inputs.noProfile = true
    · simp only [hno,↓reduceIte]
      exact ⟨trivial,by simp,h,by simp⟩
    · obtain ⟨hentry,hcache,hkeys⟩ := h.lookup regime
      simp only [Bool.not_eq_true] at hno
      simp only [hno,Bool.false_eq_true,↓reduceIte]
      refine ⟨by rw [hentry]; rfl,by rw [hentry]; simp,hcache,fun k => ?_⟩
      rw [hkeys,or_comm]
      simp [eq_comm]

/-- The walk over a grid. -/
theorem walk_spec {walk : SourceWalk} (h : Cached inputs profile source walk.cache)
    (pairs : List (ℤ × ℤ)) :
    (pairs.foldl (walkInterval inputs profile source) walk).outcomes =
        walk.outcomes++pairs.map (fun p => ⟨p.1,p.2,outcomeOf inputs profile source p⟩) ∧
      (pairs.foldl (walkInterval inputs profile source) walk).modesUsed =
        walk.modesUsed++pairs.flatMap (fun p => (modeOf inputs profile source p).toList) ∧
      Cached inputs profile source (pairs.foldl (walkInterval inputs profile source) walk).cache ∧
      ∀ k, k ∈ (pairs.foldl (walkInterval inputs profile source) walk).cache.map (·.1) ↔
        k ∈ walk.cache.map (·.1) ∨
          ∃ p ∈ pairs, inputs.noProfile = false ∧ phaseOf inputs.phases p.1 = some k := by
  induction pairs generalizing walk with
  | nil => exact ⟨by simp,by simp,h,by simp⟩
  | cons p pairs ih =>
    obtain ⟨ho,hm,hc,hk⟩ := walkInterval_spec h p
    obtain ⟨ho',hm',hc',hk'⟩ := ih hc
    rw [List.foldl_cons]
    refine ⟨?_,?_,hc',fun k => ?_⟩
    · rw [ho',ho,List.append_assoc,List.map_cons,List.singleton_append]
    · rw [hm',hm,List.append_assoc,List.flatMap_cons]
    · rw [hk',hk,List.exists_mem_cons_iff,or_assoc]

/-- What the records and the phases around an instant say of it. -/
def instantOutcome (inputs : BuildInputs lib) (profile : Option (SourceProfile lib × String))
    (source : SourceInput lib) (tNs : ℤ) : Outcome :=
  outcomeOf inputs profile source (tNs,tNs+1)

theorem outcomeOf_instant {p : ℤ × ℤ} {tNs : ℤ} (hat : p.1 ≤ tNs) (htb : tNs < p.2)
    (htimes : ∀ v ∈ (sortedEvents source.events).map (·.tEvtNs), v ≤ p.1 ∨ p.2 ≤ v)
    (hphases : ∀ q ∈ inputs.phases, (q.t0Ns ≤ p.1 ∨ p.2 ≤ q.t0Ns) ∧ (q.t1Ns ≤ p.1 ∨ p.2 ≤ q.t1Ns)) :
    instantOutcome inputs profile source tNs = outcomeOf inputs profile source p := by
  unfold instantOutcome outcomeOf
  simp only
  rw [observeWindow_congr hat htb htimes hphases,phaseOf_congr hat htb hphases]

end

/-! ### The merge -/

def LivenessInterval.piece (i : LivenessInterval) : Piece ℤ Outcome :=
  ⟨i.t0Ns,i.t1Ns,⟨i.verdict,i.reason,i.missingSeq,i.witness⟩⟩

theorem LivenessInterval.piece_injective : Function.Injective LivenessInterval.piece := by
  rintro ⟨⟨⟩,_⟩ ⟨⟨⟩,_⟩ h
  simp_all [piece]

/-- The interval of a piece. -/
def fieldsOf (p : Piece ℤ Outcome) : IntervalFields :=
  ⟨p.start,p.stop,p.label.verdict,p.label.reason,p.label.missingSeq,p.label.witness⟩

theorem construct_piece {p : Piece ℤ Outcome} {i : LivenessInterval}
    (h : (fieldsOf p).construct = .ok i) : i.piece = p := by
  obtain ⟨_,rfl⟩ := validated_ok.mp h
  rfl

theorem mergeStep_piece {merged m : List LivenessInterval} {p : Piece ℤ Outcome}
    (h : mergeStep merged p = .ok m) :
    m.map (·.piece) = Timeline.extend (merged.map (·.piece)) p := by
  unfold mergeStep at h
  rcases List.eq_nil_or_concat merged with rfl | ⟨init,last,rfl⟩
  · obtain ⟨i,hi,h⟩ := Runs.bind_ok.mp h
    rw [← Runs.pure_ok.mp h,List.map_singleton,construct_piece hi]
    rfl
  · rw [List.concat_eq_append] at h ⊢
    rw [List.map_append,List.map_singleton,Timeline.extend_concat]
    simp only [List.getLast?_concat,List.dropLast_concat] at h
    have hsame : last.piece.label = p.label ↔ last.verdict = p.label.verdict ∧
        last.reason = p.label.reason ∧ last.missingSeq = p.label.missingSeq ∧
        last.witness = p.label.witness := by
      obtain ⟨_,_,⟨⟩⟩ := p
      simp [LivenessInterval.piece]
    by_cases hext : last.piece.label = p.label ∧ last.piece.stop = p.start
    · rw [if_pos ⟨hsame.mp hext.1,hext.2⟩] at h
      obtain ⟨i,hi,h⟩ := Runs.bind_ok.mp h
      obtain ⟨_,rfl⟩ := validated_ok.mp hi
      rw [← Runs.pure_ok.mp h,if_pos hext,List.map_append,List.map_singleton]
      rfl
    · rw [if_neg fun hc => hext ⟨hsame.mpr hc.1,hc.2⟩] at h
      obtain ⟨i,hi,h⟩ := Runs.bind_ok.mp h
      rw [← Runs.pure_ok.mp h,if_neg hext,List.map_append,List.map_singleton,construct_piece hi]
      simp

/-- The merge of the document is the merge of its pieces. -/
theorem mergeOutcomes_piece {outcomes : List (Piece ℤ Outcome)} {intervals : List LivenessInterval}
    (h : mergeOutcomes outcomes = .ok intervals) :
    intervals.map (·.piece) = Timeline.merge outcomes := by
  have hrun : ∀ (outcomes : List (Piece ℤ Outcome)) (merged m : List LivenessInterval),
      outcomes.foldlM mergeStep merged = .ok m →
      m.map (·.piece) = outcomes.foldl Timeline.extend (merged.map (·.piece)) := by
    intro outcomes
    induction outcomes with
    | nil =>
      intro merged m h
      rw [Runs.foldlM_nil_ok.mp h]
      rfl
    | cons p outcomes ih =>
      intro merged m h
      obtain ⟨next,hp,h⟩ := Runs.foldlM_cons_ok.mp h
      rw [ih next m h,mergeStep_piece hp,List.foldl_cons]
  exact hrun outcomes [] intervals h

/-! ### The timeline of a source -/

section

variable {inputs : BuildInputs lib} {profile : Option (SourceProfile lib × String)}
  {phaseBounds queryEndpoints : List ℤ} {source : SourceInput lib} {entry : SourceLiveness}

/-- The boundaries the grids of a build take in. -/
def Bounds (inputs : BuildInputs lib) (phaseBounds : List ℤ) : Prop :=
  ∀ v, v ∈ phaseBounds ↔ ∃ p ∈ inputs.phases, v = p.t0Ns ∨ v = p.t1Ns

/-- The elementary intervals of a source cut the span by what its instants say. -/
theorem grid_cuts {grid : List ℤ} (hb : Bounds inputs phaseBounds)
    (h : breakpoints ((sortedEvents source.events).map (·.tEvtNs)) phaseBounds queryEndpoints
      inputs.scenarioT0Ns inputs.scenarioT1Ns = .ok grid) :
    Cuts (instantOutcome inputs profile source) inputs.scenarioT0Ns inputs.scenarioT1Ns
      ((grid.zip grid.tail).map fun p => ⟨p.1,p.2,outcomeOf inputs profile source p⟩) := by
  obtain ⟨hasc,hle,hmem⟩ := breakpoints_ok h
  obtain ⟨rest,rfl,hlast⟩ := Timeline.grid_ends hasc ((hmem _).mpr ⟨⟨le_rfl,hle⟩,.inl rfl⟩)
    ((hmem _).mpr ⟨⟨hle,le_rfl⟩,.inr (.inl rfl)⟩) fun v hv => ((hmem v).mp hv).1
  have hcuts := Cuts.of_grid (f := instantOutcome inputs profile source)
    (g := fun a b => outcomeOf inputs profile source (a,b)) hasc fun p hp t hat htb => by
      obtain ⟨-,-,-,htimes,hphases⟩ := breakpoints_gap h hp
      exact outcomeOf_instant hat htb htimes fun q hq =>
        ⟨hphases _ ((hb _).mpr ⟨q,hq,.inl rfl⟩),hphases _ ((hb _).mpr ⟨q,hq,.inr rfl⟩)⟩
  rwa [hlast] at hcuts

/-- The built timeline is the reduced cutting of the span by what the instants of it say. -/
theorem buildSource_ok (hb : Bounds inputs phaseBounds)
    (h : buildSource inputs profile phaseBounds queryEndpoints source = .ok entry) :
    entry.source = source.source ∧
      Cuts (instantOutcome inputs profile source) inputs.scenarioT0Ns inputs.scenarioT1Ns
        (entry.intervals.map (·.piece)) ∧ Reduced (entry.intervals.map (·.piece)) := by
  obtain ⟨grid,hgrid,h⟩ := Runs.bind_ok.mp h
  obtain ⟨intervals,hmerge,h⟩ := Runs.bind_ok.mp h
  obtain ⟨_,rfl⟩ := validated_ok.mp h
  obtain ⟨houtcomes,-⟩ := @walk_spec lib inputs profile source ⟨[],[],[]⟩ ⟨by simp,by simp⟩
    (grid.zip grid.tail)
  rw [List.nil_append] at houtcomes
  refine ⟨rfl,?_⟩
  have hpiece := mergeOutcomes_piece hmerge
  rw [houtcomes] at hpiece
  simp only
  rw [hpiece]
  exact Timeline.merge_cuts (grid_cuts hb hgrid)

end

end Liveness

end Spectra
