import Spectra.Render

/-! The closure invariant: what O7, O8 and O9 together establish about the least fixpoint,
and what the safety token says when they do not run. -/
namespace Spectra
namespace Checker

/-- The key of a declared goal is one of the facts. -/
def goalIn (facts : List FactHash) (goal : Json) : Bool :=
  match goal.item "goal_key" with
  | .ok (.str key) => key ∈ facts
  | _ => false

/-- The flag a goal declares. -/
def derivableFlag (goal : Json) : Option Bool :=
  match goal.item "derivable" with
  | .ok v => some v.truthy
  | .error _ => none

namespace State

/-- The least fixpoint of the published instances under the published cut. -/
def reached (st : State) : List FactHash := reach st.instances (axiomsOf st.instances) st.cut.mask

/-- The least fixpoint of the OBSERVED instances alone, over the axioms of the whole program. -/
def observedReached (st : State) : List FactHash :=
  reach (st.instances.filter (·.observed = "OBSERVED")) (axiomsOf st.instances) st.cut.mask

/-- No goal is derivable, and every declared flag says what the fixpoint says. -/
structure Severed (st : State) : Prop where
  goals : ∀ g ∈ st.goals, goalIn st.reached g = false
  flags : ∀ g ∈ st.goals, ∀ flag ∈ derivableFlag g, flag = goalIn st.reached g

/-- UNSAFE is said exactly of a goal that the observed steps alone derive. -/
def SafetyTruthful (st : State) : Prop :=
  st.verdict.safety = "UNSAFE" ↔ ∃ g ∈ st.goals, goalIn st.observedReached g = true

end State

theorem everySevered_true {goals : List Json} :
    everySevered goals = .ok true ↔ ∀ g ∈ goals, derivableFlag g = some false := by
  induction goals with
  | nil => simp [everySevered]
  | cons g goals ih =>
    rw [everySevered,List.forall_mem_cons,← ih]
    cases hd : g.item "derivable" with
    | error e => simp [derivableFlag,hd,bind,Except.bind]
    | ok v => by_cases hv : v.truthy <;> simp [derivableFlag,hd,bind,Except.bind,hv,pure,Except.pure]

theorem everySevered_false {goals : List Json} (h : everySevered goals = .ok false) :
    ∃ g ∈ goals, derivableFlag g = some true := by
  induction goals with
  | nil => simp [everySevered] at h
  | cons g goals ih =>
    rw [everySevered] at h
    obtain ⟨v,hv,h⟩ := Runs.bind_ok.mp h
    by_cases ht : v.truthy
    · exact ⟨g,by simp,by simp [derivableFlag,hv,ht]⟩
    · rw [if_neg ht] at h
      obtain ⟨g',hg',hf⟩ := ih h
      exact ⟨g',by simp [hg'],hf⟩

theorem inFacts_goalIn {facts : List FactHash} {goal key : Json} {b : Bool}
    (hk : goal.item "goal_key" = .ok key) (h : inFacts facts key = .ok b) : goalIn facts goal = b := by
  obtain ⟨_,-,h⟩ := Runs.bind_ok.mp h
  rw [← Runs.pure_ok.mp h,goalIn,hk]
  cases key with
  | str s => exact Bool.eq_iff_iff.mpr (by simp [Json.eq])
  | _ => simp [Json.eq,Json.number?]

/-- Facts that hold the axioms and are closed under the instances hold the least fixpoint. -/
theorem reach_subset_of_closed {instances : List Published} {cutMask : Mask} {facts : List FactHash}
    (hax : ∀ a ∈ axiomsOf instances, a ∈ facts)
    (hclosed : ∀ i ∈ instances, closedUnder facts cutMask i = .ok ()) :
    reach instances (axiomsOf instances) cutMask ⊆ facts := by
  intro k hk
  refine Horn.Derivable.mem_of_closed (s := {f | f ∈ facts}) ⟨hax,?_⟩ (mem_reach.mp hk)
  rintro r ⟨i,hi,hb,rfl⟩ hbody
  obtain ⟨_,-,h⟩ := Runs.bind_ok.mp (hclosed i hi)
  exact (require_ok.mp h) hbody hb

/-- Fewer instances over the same axioms reach fewer facts. -/
theorem reach_mono {instances kept : List Published} (h : kept ⊆ instances) {axioms : List FactHash}
    {cutMask : Mask} : reach kept axioms cutMask ⊆ reach instances axioms cutMask := by
  intro k hk
  refine mem_reach.mpr (Horn.Derivable.mono (fun _ => .seed) ?_ (mem_reach.mp hk))
  rintro r ⟨i,hi,hb,rfl⟩
  exact ⟨i,h hi,hb,rfl⟩

theorem goalIn_mono {facts facts' : List FactHash} (h : facts ⊆ facts') {goal : Json}
    (hg : goalIn facts goal = true) : goalIn facts' goal = true := by
  unfold goalIn at hg ⊢
  split at hg
  · exact decide_eq_true (h (of_decide_eq_true hg))
  · cases hg

section

variable {lib : Library} {content : Bytes} {files : CheckerInputs} {st : State}

/-- O7, O8 and O9: the flags are all false with an invariant and not all false without; an
invariant holds the axioms, is closed under the instances and holds no severed goal. -/
theorem Established.invariant_flags {document : Json}
    (h : Established lib content files document st) :
    everySevered st.goals = .ok st.invariant.isSome ∧ ∀ facts ∈ st.invariant,
      (∀ a ∈ axiomsOf st.instances, a ∈ facts) ∧
      (∀ i ∈ st.instances, closedUnder facts st.cut.mask i = .ok ()) ∧
      ∀ g ∈ st.goals, goalAbsent facts g = .ok () := by
  have h7 := h.o7
  have h8 := h.o8
  have h9 := h.o9
  simp only [o7Invariant,Runs.bind_ok] at h7
  obtain ⟨listed,hl,goals,hg,severed,hs,published,-,h7⟩ := h7
  simp only [o9Goals,Runs.bind_ok] at h9
  obtain ⟨_,hl',_,hg',_,-,_,-,h9⟩ := h9
  cases hl.symm.trans hl'
  cases hg.symm.trans hg'
  cases hp : published with
  | false =>
    simp only [hp,Bool.false_eq_true,if_false,Runs.bind_ok,require_ok,Runs.pure_ok] at h7
    obtain ⟨_,rfl,hnone⟩ := h7
    rw [← hnone] at h9 ⊢
    rw [← Runs.pure_ok.mp h9]
    exact ⟨hs,by simp⟩
  | true =>
    simp only [hp,if_true,Runs.bind_ok,require_ok,Runs.pure_ok] at h7
    obtain ⟨_,rfl,_,-,_,-,_,-,_,-,facts,-,_,hax,hsome⟩ := h7
    rw [← hsome] at h8 h9 ⊢
    simp only [Runs.bind_ok,Runs.pure_ok,forEach_ok] at h9
    obtain ⟨_,habsent,rfl⟩ := h9
    refine ⟨hs,fun _ hf => ?_⟩
    cases hf
    exact ⟨hax,forEach_ok.mp h8,habsent⟩

/-- With an invariant no goal is in the least fixpoint. -/
theorem Established.goals_severed {document : Json}
    (h : Established lib content files document st) (hi : st.invariant.isSome) :
    ∀ g ∈ st.goals, goalIn st.reached g = false := by
  obtain ⟨hflags,hinv⟩ := h.invariant_flags
  obtain ⟨facts,hfacts⟩ := Option.isSome_iff_exists.mp hi
  obtain ⟨hax,hclosed,habsent⟩ := hinv facts hfacts
  intro g hg
  by_contra hin
  have hmem : goalIn facts g = true :=
    goalIn_mono (reach_subset_of_closed hax hclosed) (by simpa [State.reached] using hin)
  have hflag : derivableFlag g = some false := everySevered_true.mp (hi ▸ hflags) g hg
  obtain ⟨v,hv,habs⟩ := Runs.bind_ok.mp (habsent g hg)
  have hv' : v.truthy = false := by simpa [derivableFlag,hv] using hflag
  rw [hv'] at habs
  simp only [Bool.false_eq_true,if_false,Runs.bind_ok,require_ok] at habs
  obtain ⟨key,hk,b,hb,rfl⟩ := habs
  rw [inFacts_goalIn hk hb] at hmem
  cases hmem

/-- An accepted invariant holds the axioms, is closed under every instance the cut leaves
standing, and so no declared goal is in the least fixpoint. -/
theorem invariant_sound (h : Accepts lib content files st) : ∀ facts ∈ st.invariant,
    (∀ a ∈ axiomsOf st.instances, a ∈ facts) ∧
    (∀ i ∈ st.instances, blocked i.blockers st.cut.mask = false → (∀ b ∈ i.body, b ∈ facts) →
      i.head ∈ facts) ∧
    ∀ g ∈ st.goals, goalIn (reach st.instances (axiomsOf st.instances) st.cut.mask) g = false := by
  obtain ⟨document,h⟩ := h.established
  intro facts hfacts
  obtain ⟨hax,hclosed,-⟩ := h.invariant_flags.2 facts hfacts
  refine ⟨hax,fun i hi hb hbody => ?_,h.goals_severed (Option.isSome_iff_exists.mpr ⟨facts,hfacts⟩)⟩
  obtain ⟨_,-,hc⟩ := Runs.bind_ok.mp (hclosed i hi)
  exact require_ok.mp hc hbody hb

def premiseKey : FactHash := "fh:aaaaaaaaaaaaaaaaaaaaaaaaaaaaaaaaaaaaaaaaaaaaaaaaaaaaaaaaaaaaaaaa"

def conclusionKey : FactHash :=
  "fh:bbbbbbbbbbbbbbbbbbbbbbbbbbbbbbbbbbbbbbbbbbbbbbbbbbbbbbbbbbbbbbbb"

/-- The axiom and what an unblocked step makes of it, with the goal outside. -/
def enclosed : Subject := {
  goals := [("fh:g",false)]
  invariant := some [premiseKey,conclusionKey]
  instances := [⟨[],[premiseKey],[⟨"login","ev:1","src:s",0⟩],false,conclusionKey,"in:1",[],
    "OBSERVED","rl:r","1",0⟩]
  observedEventCount := 1}

def enclosedPass : enclosed.Passed fun st => st.invariant.isSome :=
  enclosed.pass _ (by decide +kernel) (by decide +kernel)

theorem invariant_sound_enclosed : ∃ st, Accepts enclosed.library enclosed.content enclosed.files st ∧
    ∃ facts ∈ st.invariant,
      (∀ a ∈ axiomsOf st.instances, a ∈ facts) ∧
      (∀ i ∈ st.instances, blocked i.blockers st.cut.mask = false → (∀ b ∈ i.body, b ∈ facts) →
        i.head ∈ facts) ∧
      ∀ g ∈ st.goals, goalIn (reach st.instances (axiomsOf st.instances) st.cut.mask) g = false := by
  obtain ⟨st,h,hi⟩ := enclosedPass
  obtain ⟨facts,hfacts⟩ := Option.isSome_iff_exists.mp hi
  exact ⟨st,h,facts,hfacts,invariant_sound h facts hfacts⟩

/-- The goals are severed, with truthful flags, exactly when an invariant is published. -/
theorem Established.severed_iff {document : Json}
    (h : Established lib content files document st) : st.Severed ↔ st.invariant.isSome := by
  obtain ⟨hflags,-⟩ := h.invariant_flags
  constructor
  · intro hs
    by_contra hi
    rw [Bool.not_eq_true] at hi
    obtain ⟨g,hg,hf⟩ := everySevered_false (hi ▸ hflags)
    have := hs.flags g hg true hf
    rw [hs.goals g hg] at this
    cases this
  · intro hi
    refine ⟨h.goals_severed hi,fun g hg flag hf => ?_⟩
    rw [everySevered_true.mp (hi ▸ hflags) g hg] at hf
    cases hf
    exact (h.goals_severed hi g hg).symm

/-- An accepted ROBUST verdict is sound exactly when the certificate publishes the invariant. -/
theorem robust_sound_iff (h : Accepts lib content files st) :
    (st.verdict.safety = "ROBUST" → st.Severed) ↔
      (st.verdict.safety = "ROBUST" → st.invariant.isSome) := by
  obtain ⟨document,h⟩ := h.established
  exact imp_congr_right fun _ => h.severed_iff

/-- One observed step derives the goal; the certificate says so, publishes no invariant, and
calls itself ROBUST. -/
def unguarded : Subject := {
  goals := [("fh:g",true)]
  instances := [⟨[],["fh:a"],[⟨"login","ev:1","src:s",0⟩],false,"fh:g","in:1",[],"OBSERVED","rl:r",
    "1",0⟩]
  observedEventCount := 1}

def unguardedPass : unguarded.Passed fun st =>
    st.verdict.safety = "ROBUST" && st.invariant = none &&
      st.goals.any (goalIn st.observedReached ·) :=
  unguarded.pass _ (by decide +kernel) (by decide +kernel)

theorem robust_sound_iff_unguarded : ∃ st,
    Accepts unguarded.library unguarded.content unguarded.files st ∧
      ((st.verdict.safety = "ROBUST" → st.Severed) ↔
        (st.verdict.safety = "ROBUST" → st.invariant.isSome)) := by
  obtain ⟨st,h,-⟩ := unguardedPass
  exact ⟨st,h,robust_sound_iff h⟩

/-- An accepted ROBUST verdict over a derivable goal. -/
theorem robust_unsound : ¬∀ lib content files st, Accepts lib content files st →
    st.verdict.safety = "ROBUST" → st.Severed := by
  intro hall
  obtain ⟨st,h,hst⟩ := unguardedPass
  simp only [Bool.and_eq_true,decide_eq_true_eq] at hst
  obtain ⟨document,hd⟩ := h.established
  have hi := hd.severed_iff.mp (hall _ _ _ st h hst.1.1)
  rw [hst.1.2] at hi
  cases hi

/-- With an invariant the safety token is truthful exactly when it is not UNSAFE. -/
theorem safety_truthful_iff (h : Accepts lib content files st) (hi : st.invariant.isSome) :
    st.SafetyTruthful ↔ st.verdict.safety ≠ "UNSAFE" := by
  obtain ⟨document,h⟩ := h.established
  have hnone : ¬∃ g ∈ st.goals, goalIn st.observedReached g = true := by
    rintro ⟨g,hg,hin⟩
    have hr : goalIn st.reached g = true :=
      goalIn_mono (reach_mono (List.filter_subset_self _)) hin
    rw [h.goals_severed hi g hg] at hr
    cases hr
  rw [State.SafetyTruthful,iff_false_right hnone]

/-- A goal that nothing derives, with the invariant that says so. -/
def guarded : Subject := {
  goals := [("fh:g",false)]
  invariant := some []}

def guardedPass : guarded.Passed fun st => st.invariant.isSome :=
  guarded.pass _ (by decide +kernel) (by decide +kernel)

theorem safety_truthful_iff_guarded : ∃ st,
    Accepts guarded.library guarded.content guarded.files st ∧ st.invariant.isSome = true ∧
      (st.SafetyTruthful ↔ st.verdict.safety ≠ "UNSAFE") := by
  obtain ⟨st,h,hi⟩ := guardedPass
  exact ⟨st,h,hi,safety_truthful_iff h hi⟩

/-- An accepted verdict other than UNSAFE over a goal that an observed step derives. -/
theorem safety_untruthful : ¬∀ lib content files st, Accepts lib content files st →
    st.SafetyTruthful := by
  intro hall
  obtain ⟨st,h,hst⟩ := unguardedPass
  simp only [Bool.and_eq_true,decide_eq_true_eq,List.any_eq_true] at hst
  obtain ⟨⟨hs,-⟩,hg⟩ := hst
  have := (hall _ _ _ st h).mpr hg
  rw [hs] at this
  exact absurd this (by decide)

end

end Checker

end Spectra
