import Mathlib.Data.List.TakeWhile
import Spectra.Bracket

/-! The obligation stage trigger by trigger: what a trigger obliges, what one turn of the pass
does about it, and which obligations the finished bracket leaves open. -/
namespace Spectra

variable {D : Digest} {C : Ceilings} {s : Setup} {view : LivenessView} {entities : List Entity}
  {pMin : Option (Program D)} {result : EnvelopeResult D} {compiled : CompiledRule} {within : ℤ}
  {pattern : Pattern} {trigger head : Fact D} {st u v : ObligationState D}

/-! ### What a trigger obliges -/

/-- The arguments a trigger gives the obliged head. -/
def obligedArgs (compiled : CompiledRule) (pattern : Pattern) (trigger : Fact D) :
    Option (List EntityId) :=
  compiled.head.entityVars.mapM fun name => Dict.get? (pattern.entityVars.zip trigger.args) name

/-- The head a trigger obliges, at a tick. -/
structure ObligedAt (compiled : CompiledRule) (pattern : Pattern) (trigger head : Fact D) (tick : ℤ) :
    Prop where
  args : obligedArgs compiled pattern trigger = some head.args
  predicate : head.predicate = compiled.head.predicate
  tick : head.tick = tick

/-- The window the obligation looks back over. -/
def lookback (within : ℤ) (trigger : Fact D) : Fallible Interval :=
  Interval.of (max 0 (trigger.tick-within)*tickNs) (trigger.tick*tickNs)

/-- The blind spot a trigger is reported under. -/
def spotOf (compiled : CompiledRule) (within : ℤ) (trigger : Fact D) : BlindSpot :=
  ⟨compiled.ruleId,compiled.head.predicate,max 0 (trigger.tick-within)*tickNs,trigger.tick*tickNs,
    compiled.rule.producingSources,"obligation_unsatisfied_and_unlicensed"⟩

/-- The licences of the window that the obligation looks back over, if all sources are blind. -/
def lookbackLicences (D : Digest) (view : LivenessView) (compiled : CompiledRule) (within : ℤ)
    (trigger : Fact D) : Fallible (Option (List Licence)) := do
  let window ← lookback within trigger
  licencesForWindow D view compiled.rule.producingSources window

/-- The ghost instance a trigger mints. -/
def obligedGhost (compiled : CompiledRule) (trigger head : Fact D) (licences : List Licence) :
    Fallible (GroundInstance D) :=
  GroundInstance.mint D compiled.ruleId compiled.rule.ruleVersion head.factKey [trigger.factKey]
    compiled.blockers .licensed trigger.tick [] (licenceIds licences) true

/-! ### One turn of the pass -/

/-- What the turn of one trigger does to the state. -/
inductive TriggerTurn (C : Ceilings) (view : LivenessView) (compiled : CompiledRule) (within : ℤ)
    (pattern : Pattern) (trigger : Fact D) (st : ObligationState D) : ObligationState D → Prop
  | unbound (ha : obligedArgs compiled pattern trigger = none) :
      TriggerTurn C view compiled within pattern trigger st st
  | held {head : Fact D} (ho : ObligedAt compiled pattern trigger head trigger.tick)
      (hf : head ∈ st.1.engine.base.facts) : TriggerTurn C view compiled within pattern trigger st st
  | live {head : Fact D} (ho : ObligedAt compiled pattern trigger head trigger.tick)
      (hf : head ∉ st.1.engine.base.facts)
      (hl : lookbackLicences D view compiled within trigger = .ok none) :
      TriggerTurn C view compiled within pattern trigger st (st.1,st.2++[spotOf compiled within trigger])
  | stopped {head : Fact D} {licences : List Licence}
      (ho : ObligedAt compiled pattern trigger head trigger.tick)
      (hf : head ∉ st.1.engine.base.facts)
      (hl : lookbackLicences D view compiled within trigger = .ok (some licences))
      (hc : C.maxSilentInstances ≤ st.1.counter) :
      TriggerTurn C view compiled within pattern trigger st ((st.1.mint licences).recordCap C,st.2)
  | ghost {head : Fact D} {licences : List Licence} {i : GroundInstance D}
      (ho : ObligedAt compiled pattern trigger head trigger.tick)
      (hf : head ∉ st.1.engine.base.facts)
      (hl : lookbackLicences D view compiled within trigger = .ok (some licences))
      (hc : ¬C.maxSilentInstances ≤ st.1.counter)
      (hi : obligedGhost compiled trigger head licences = .ok i) :
      TriggerTurn C view compiled within pattern trigger st ((st.1.mint licences).add C none (i,head),st.2)

/-- A pass begins with the turn of its first trigger, and only a ceiling ends it there. -/
theorem obligationTriggers_cons {rest : List (Fact D)}
    (h : obligationTriggers C view compiled within pattern (trigger::rest) st = .ok v) :
    ∃ u, TriggerTurn C view compiled within pattern trigger st u ∧
      (obligationTriggers C view compiled within pattern rest u = .ok v ∨
        u.1.engine.capped = true ∧ v = u) := by
  rw [obligationTriggers] at h
  split at h
  · rename_i ha
    exact ⟨st,.unbound ha,.inl h⟩
  · rename_i args ha
    obtain ⟨head,hhead,h⟩ := Runs.bind_ok.mp h
    obtain ⟨hpred,hargs,htick⟩ := Fact.mint_ok hhead
    have ho : ObligedAt compiled pattern trigger head trigger.tick :=
      ⟨ha.trans (congrArg some hargs.symm),hpred,htick⟩
    split at h
    · rename_i hf
      exact ⟨st,.held ho (FactBase.hasFact_iff.mp hf),.inl h⟩
    · rename_i hf
      rw [Engine.hasFact,FactBase.hasFact_iff] at hf
      obtain ⟨window,hw,h⟩ := Runs.bind_ok.mp h
      obtain ⟨found,hfound,h⟩ := Runs.bind_ok.mp h
      have hl : lookbackLicences D view compiled within trigger = .ok found :=
        Runs.bind_ok.mpr ⟨window,hw,hfound⟩
      cases found with
      | none =>
        obtain ⟨h0,h1⟩ := Interval.of_ok.mp hw
        simp only [h0,h1] at h
        exact ⟨_,.live ho hf hl,.inl h⟩
      | some licences =>
        simp only at h
        split at h
        · rename_i hc
          cases h
          exact ⟨_,.stopped ho hf hl hc,.inr ⟨rfl,rfl⟩⟩
        · rename_i hc
          obtain ⟨i,hi,h⟩ := Runs.bind_ok.mp h
          exact ⟨_,.ghost ho hf hl hc hi,.inl h⟩

/-- The turn of a lone trigger is its pass. -/
theorem obligationTriggers_single
    (h : obligationTriggers C view compiled within pattern [trigger] st = .ok u) :
    TriggerTurn C view compiled within pattern trigger st u := by
  obtain ⟨v,hturn,hrest | ⟨-,rfl⟩⟩ := obligationTriggers_cons h
  · cases hrest
    exact hturn
  · exact hturn

theorem ObligedAt.unique {other : Fact D} {tick : ℤ} (h : ObligedAt compiled pattern trigger head tick)
    (h' : ObligedAt compiled pattern trigger other tick) : head = other := by
  have hargs : head.args = other.args := Option.some.inj (h.args.symm.trans h'.args)
  exact Fact.ext_fields (h.predicate.trans h'.predicate.symm) hargs (h.tick.trans h'.tick.symm)

/-! ### An obligation held inside its lookback -/

/-- The base has the obliged head at an earlier tick of the lookback. -/
def HeldBefore (compiled : CompiledRule) (within : ℤ) (pattern : Pattern) (trigger : Fact D)
    (e : Engine D) : Prop :=
  ∃ head ∈ e.base.facts, ∃ tick, ObligedAt compiled pattern trigger head tick ∧
    trigger.tick-within ≤ tick ∧ tick < trigger.tick

/-- No instance is added and no blind spot is reported. -/
def AddsNothing (st u : ObligationState D) : Prop :=
  u.1.engine.instances = st.1.engine.instances ∧ u.2 = st.2

/-- The base has the obliged head at the trigger's own tick, or the lookback is licensed and a
ceiling, or the instance that is already there, keeps the ghost instance out. -/
def Recognised (C : Ceilings) (view : LivenessView) (compiled : CompiledRule) (within : ℤ)
    (pattern : Pattern) (trigger : Fact D) (st : ObligationState D) : Prop :=
  (∃ head ∈ st.1.engine.base.facts, ObligedAt compiled pattern trigger head trigger.tick) ∨
  ∃ licences, lookbackLicences D view compiled within trigger = .ok (some licences) ∧
    (C.maxSilentInstances ≤ st.1.counter ∨ C.maxInstances ≤ st.1.engine.instances.length ∨
      ∃ head i, ObligedAt compiled pattern trigger head trigger.tick ∧
        obligedGhost compiled trigger head licences = .ok i ∧
          st.1.engine.hasInstance i.instanceId = true)

theorem Engine.addInstance_kept_iff {e : Engine D} {i : GroundInstance D} {span : Option (ℤ × ℤ)} :
    (e.addInstance C i head span).1.instances = e.instances ↔
      e.hasInstance i.instanceId = true ∨ C.maxInstances ≤ e.instances.length := by
  obtain ⟨sp,hsp⟩ := e.recordSpan_eq i head span
  unfold addInstance
  rw [hsp]
  by_cases hk : e.hasInstance i.instanceId = true
  · refine iff_of_true ?_ (.inl hk)
    simp only [hasInstance] at hk ⊢
    rw [if_pos hk]
  · by_cases hm : C.maxInstances ≤ e.instances.length
    · refine iff_of_true ?_ (.inr hm)
      simp only [hasInstance] at hk ⊢
      rw [if_neg hk,if_pos hm]
      rfl
    · refine iff_of_false ?_ (not_or.mpr ⟨hk,hm⟩)
      simp only [hasInstance] at hk ⊢
      rw [if_neg hk,if_neg hm]
      obtain ⟨l,g,hs⟩ := recordStatus_eq
        (({e with licensedSpan := sp, instances := e.instances++[i]} : Engine D).addFact C head).1
        i head
      rw [hs]
      rcases addFact_cases C ({e with licensedSpan := sp, instances := e.instances++[i]} : Engine D)
        head with ⟨-,he⟩ | ⟨_,he⟩ | ⟨_,he⟩ <;> rw [he] <;> simp

/-- A trigger whose head was held earlier in the lookback adds nothing exactly when the head is
recognised: the turn reads the base at the trigger's own tick only. -/
theorem obligation_lookback_iff
    (h : obligationTriggers C view compiled within pattern [trigger] st = .ok u) :
    (HeldBefore compiled within pattern trigger st.1.engine → AddsNothing st u) ↔
      (HeldBefore compiled within pattern trigger st.1.engine →
        Recognised C view compiled within pattern trigger st) := by
  refine imp_congr_right fun hbefore => ?_
  cases obligationTriggers_single h with
  | unbound ha =>
    obtain ⟨head,-,tick,ho,-⟩ := hbefore
    cases ha.symm.trans ho.args
  | held ho hf => exact iff_of_true ⟨rfl,rfl⟩ (.inl ⟨_,hf,ho⟩)
  | live ho hf hl =>
    refine iff_of_false (fun hu => ?_) ?_
    · simpa using hu.2
    · rintro (⟨head,hhead,ho'⟩ | ⟨licences,hl',-⟩)
      · exact hf (ho.unique ho' ▸ hhead)
      · cases hl.symm.trans hl'
  | stopped ho hf hl hc => exact iff_of_true ⟨rfl,rfl⟩ (.inr ⟨_,hl,.inl hc⟩)
  | @ghost head licences i ho hf hl hc hi =>
    have hadd : AddsNothing st ((st.1.mint licences).add C none (i,head),st.2) ↔
        st.1.engine.hasInstance i.instanceId = true ∨
          C.maxInstances ≤ st.1.engine.instances.length := by
      exact (and_iff_left rfl).trans Engine.addInstance_kept_iff
    rw [hadd]
    constructor
    · rintro (hk | hm)
      · exact .inr ⟨licences,hl,.inr (.inr ⟨head,i,ho,hi,hk⟩)⟩
      · exact .inr ⟨licences,hl,.inr (.inl hm)⟩
    · rintro (⟨other,hother,ho'⟩ | ⟨licences',hl',hc' | hm | ⟨other,j,ho',hj,hk⟩⟩)
      · exact absurd (ho.unique ho' ▸ hother) hf
      · exact absurd hc' hc
      · exact .inr hm
      · cases hl.symm.trans hl'
        cases ho.unique ho'
        cases hi.symm.trans hj
        exact .inl hk

/-- A login obliges a session within the ten ticks before it. -/
def priorSession : CompiledRule where
  rule := ⟨"rl:r0001","1.0.0",.obligation,["src:iam"],false,""⟩
  head := sessionPattern
  body := [loginPattern]
  when := none
  blockers := []
  temporal := some (.obligation 10 "a")
  silentBindKinds := []
  valid := by decide
  kindsSorted := no_kinds

def earlySession : CanonicalEvent where
  eventId := "ev:2"
  sourceId := "src:iam"
  seq := 1
  eventType := "session"
  tEvtNs := 15000000000
  valid := by decide

/-- The session is recorded five ticks before the login. -/
def priorSetup : Setup :=
  ⟨⟨[priorSession],by decide⟩,[loginRecord,earlySession],
    [⟨"ev:1","user","en:a"⟩,⟨"ev:2","user","en:a"⟩],none⟩

/-- The source is blind for its first twenty seconds. -/
def priorView : LivenessView where
  sources := [⟨"src:iam",[⟨0,20000000000,.blind,"silence",[],by decide⟩],by decide⟩]
  valid := by decide

def priorDigest : Digest := .tabled [
  factPayload "login" ["en:a"] 20,factPayload "session" ["en:a"] 20,factPayload "session" ["en:a"] 15,
  do licencePayload .blind "silence" "src:iam" (← Interval.of 0 20000000000)]

def loginTrigger : Fact priorDigest := valueOf (Fact.mint priorDigest "login" ["en:a"] 20) (by decide)

def earlyFact : Fact priorDigest := valueOf (Fact.mint priorDigest "session" ["en:a"] 15) (by decide)

theorem earlyFact_obliged : ObligedAt priorSession loginPattern loginTrigger earlyFact 15 :=
  ⟨by decide,by decide,by decide⟩

/-- The triggers of the login over the seeded engine. -/
def priorRun := returned (do
    let e ← freshEngine priorDigest .source priorSetup
    let u ← obligationTriggers .source priorView priorSession 10 loginPattern [loginTrigger] (⟨e,[],0⟩,[])
    pure (e,u) : Fallible _)
  (fun r => decide (earlyFact ∈ r.1.base.facts ∧ r.2.1.engine.instances.length ≠ r.1.instances.length))
  (by decide +kernel)

/-- The session inside the lookback is not seen, and a ghost session is added at the login. -/
theorem obligation_lookback_missed : ∃ e u, freshEngine priorDigest .source priorSetup = .ok e ∧
    obligationTriggers .source priorView priorSession 10 loginPattern [loginTrigger] (⟨e,[],0⟩,[]) =
      .ok u ∧ HeldBefore priorSession 10 loginPattern loginTrigger e ∧ ¬AddsNothing (⟨e,[],0⟩,[]) u := by
  obtain ⟨e,he,hrun⟩ := Runs.bind_ok.mp priorRun.2.1
  obtain ⟨u,hu,hrun⟩ := Runs.bind_ok.mp hrun
  have hc := of_decide_eq_true priorRun.2.2
  rw [← Runs.pure_ok.mp hrun] at hc
  obtain ⟨hearly,hlength⟩ := hc
  exact ⟨e,u,he,hu,⟨earlyFact,hearly,15,earlyFact_obliged,by decide,by decide⟩,
    fun h => hlength (congrArg List.length h.1)⟩

theorem obligation_lookback_iff_prior : ∃ e u,
    obligationTriggers .source priorView priorSession 10 loginPattern [loginTrigger] (⟨e,[],0⟩,[]) =
      .ok u ∧ ((HeldBefore priorSession 10 loginPattern loginTrigger e → AddsNothing (⟨e,[],0⟩,[]) u) ↔
        (HeldBefore priorSession 10 loginPattern loginTrigger e →
          Recognised .source priorView priorSession 10 loginPattern loginTrigger (⟨e,[],0⟩,[]))) := by
  obtain ⟨e,-,hrun⟩ := Runs.bind_ok.mp priorRun.2.1
  obtain ⟨u,hu,-⟩ := Runs.bind_ok.mp hrun
  exact ⟨e,u,hu,obligation_lookback_iff hu⟩

/-! ### Closure of the obligations -/

/-- The head a trigger obliges is in the program, or its blind spot is reported. -/
def Answered (compiled : CompiledRule) (within : ℤ) (pattern : Pattern) (trigger : Fact D)
    (facts : List (Fact D)) (spots : List BlindSpot) : Prop :=
  (∃ head ∈ facts, ObligedAt compiled pattern trigger head trigger.tick) ∨
    spotOf compiled within trigger ∈ spots

/-- What later steps keep of the facts and the spots. -/
def Keeps (st u : ObligationState D) : Prop := Engine.Le st.1.engine u.1.engine ∧ st.2 ⊆ u.2

theorem Keeps.refl (st : ObligationState D) : Keeps st st := ⟨.refl _,fun _ h => h⟩

theorem Keeps.trans (h : Keeps st u) (h' : Keeps u v) : Keeps st v :=
  ⟨h.1.trans h'.1,fun _ hx => h'.2 (h.2 hx)⟩

theorem Answered.kept {facts facts' : List (Fact D)} {spots spots' : List BlindSpot}
    (h : Answered compiled within pattern trigger facts spots) (hf : facts ⊆ facts')
    (hs : spots ⊆ spots') : Answered compiled within pattern trigger facts' spots' :=
  h.imp (fun ⟨head,hh,ho⟩ => ⟨head,hf hh,ho⟩) (hs ·)

theorem obligedGhost_head {licences : List Licence} {i : GroundInstance D}
    (h : obligedGhost compiled trigger head licences = .ok i) : i.head = head.factKey :=
  congrArg (·.head) (GroundInstance.mint_ok h)

theorem TriggerTurn.headed (h : TriggerTurn C view compiled within pattern trigger st u)
    (he : st.1.engine.Headed) : u.1.engine.Headed := by
  cases h with
  | unbound => exact he
  | held => exact he
  | live => exact he
  | stopped => exact fun hc => by cases hc
  | ghost ho hf hl hc hi => exact (Engine.addInstance_added C _ _ _ _).headed (obligedGhost_head hi) he

end Spectra
