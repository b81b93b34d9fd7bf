import Spectra.Bracket

/-! A run that reports no ceiling ran into none: under higher ceilings every step of `ground` and of
`envelope` does the same. The ceiling on the bindings of one rule is never reported, so there the
combinations have to fit. -/
namespace Spectra

/-- Each ceiling is at least as high. -/
structure Ceilings.Below (C C' : Ceilings) : Prop where
  facts : C.maxFacts ≤ C'.maxFacts
  instances : C.maxInstances ≤ C'.maxInstances
  iterations : C.maxIterations ≤ C'.maxIterations
  silentInstances : C.maxSilentInstances ≤ C'.maxSilentInstances
  silentBindings : C.maxSilentBindings ≤ C'.maxSilentBindings

/-- A step that, where its result reports no ceiling, started from a state that reported none and is
the same under the other ceilings. -/
def Unmet {σ : Type} (capped : σ → Bool) (f g : σ → Fallible σ) : Prop :=
  ∀ s t, f s = .ok t → capped t = false → capped s = false ∧ g s = .ok t

namespace Unmet

variable {σ : Type} {capped : σ → Bool}

theorem refl (f : σ → Fallible σ) (h : ∀ s t, f s = .ok t → capped t = false → capped s = false) :
    Unmet capped f f := fun s t hf hc => ⟨h s t hf hc,hf⟩

/-- A loop of such steps. -/
theorem foldlM {α : Type} {f g : σ → α → Fallible σ} {l : List α}
    (h : ∀ a ∈ l, Unmet capped (f · a) (g · a)) : Unmet capped (l.foldlM f) (l.foldlM g) :=
  fun _ _ hf hc => @Runs.foldlM_lockstep _ _ _ _ _ _ (fun s => capped s = false)
    (fun s a t ha hs ht => (h a ha s t hs ht).1) (fun s a t ha hs ht => (h a ha s t hs ht).2) _ _ hf hc

end Unmet

section

variable {D : Digest} {C C' : Ceilings} {s : Setup} {view : LivenessView} {entities : List Entity}

namespace Engine

variable {e u : Engine D} {compiled : CompiledRule}

theorem addFact_unmet (hC : C.Below C') {f : Fact D} (hc : (e.addFact C f).1.capped = false) :
    e.capped = false ∧ e.addFact C' f = e.addFact C f := by
  unfold addFact at hc ⊢
  split at hc
  · rename_i hf
    simp only [dif_pos hf]
    exact ⟨hc,trivial⟩
  · rename_i hf
    split at hc
    · cases hc
    · rename_i hroom
      have hroom' : ¬C'.maxFacts ≤ e.base.facts.length := fun h => hroom (hC.facts.trans h)
      simp only [dif_neg hf,if_neg hroom,if_neg hroom']
      exact ⟨hc,trivial⟩

theorem addInstance_unmet (hC : C.Below C') {i : GroundInstance D} {head : Fact D} {span : Option (ℤ × ℤ)}
    (hc : (e.addInstance C i head span).1.capped = false) :
    e.capped = false ∧ e.addInstance C' i head span = e.addInstance C i head span := by
  obtain ⟨sp,hsp⟩ := e.recordSpan_eq i head span
  unfold addInstance at hc ⊢
  rw [hsp] at hc ⊢
  dsimp only at hc ⊢
  split at hc
  · rename_i hk
    simp only [if_pos hk]
    exact ⟨hc,trivial⟩
  · rename_i hk
    split at hc
    · cases hc
    · rename_i hroom
      have hroom' : ¬C'.maxInstances ≤ ({e with licensedSpan := sp} : Engine D).instances.length :=
        fun h => hroom (hC.instances.trans h)
      obtain ⟨l,g,hstatus⟩ := recordStatus_eq
        (({e with licensedSpan := sp, instances := e.instances++[i]} : Engine D).addFact C head).1 i head
      rw [hstatus] at hc
      obtain ⟨hback,hsame⟩ := addFact_unmet (e := {e with licensedSpan := sp, instances := e.instances++[i]}) hC hc
      simp only [if_neg hk,if_neg hroom,if_neg hroom',hsame]
      exact ⟨hback,trivial⟩

/-! ### Grounding -/

theorem seed_unmet (hC : C.Below C') : Unmet (σ := Engine D) (·.capped) (seed C s) (seed C' s) := by
  intro e u h hc
  obtain ⟨v,hv,hu⟩ := Runs.bind_ok.mp h
  obtain rfl := Runs.pure_ok.mp hu
  have hloop : Unmet (σ := Engine D) (·.capped)
      (s.sortedEvents.foldlM fun e event => do
        let fact ← axiomFactFor D event (s.roles event.eventId)
        pure (e.seedFact C fact event))
      (s.sortedEvents.foldlM fun e event => do
        let fact ← axiomFactFor D event (s.roles event.eventId)
        pure (e.seedFact C' fact event)) := by
    refine Unmet.foldlM fun event _ a b hb hc => ?_
    obtain ⟨fact,hfact,hb⟩ := Runs.bind_ok.mp hb
    obtain rfl := Runs.pure_ok.mp hb
    obtain ⟨hback,hsame⟩ := addFact_unmet hC hc
    refine ⟨hback,Runs.bind_ok.mpr ⟨fact,hfact,?_⟩⟩
    rw [seedFact,hsame]
    rfl
  obtain ⟨hback,hsame⟩ := hloop e v hv hc
  exact ⟨hback,Runs.bind_ok.mpr ⟨v,hsame,rfl⟩⟩

theorem emit_unmet (hC : C.Below C') {chosen : List (Fact D)} {bind : Bind} :
    Unmet (·.capped) (emit C s compiled chosen bind) (emit C' s compiled chosen bind) := by
  intro e u h hc
  unfold emit at h ⊢
  split at h
  · rename_i hg
    rw [if_pos hg]
    exact ⟨Except.ok.inj h ▸ hc,h⟩
  · rename_i hg
    rw [if_neg hg]
    obtain ⟨extra,hextra,h⟩ := Runs.bind_ok.mp h
    cases extra with
    | none => exact ⟨Runs.pure_ok.mp h ▸ hc,Runs.bind_ok.mpr ⟨none,hextra,h⟩⟩
    | some extra =>
      dsimp only at h
      split at h
      · rename_i hnone
        refine ⟨Runs.pure_ok.mp h ▸ hc,Runs.bind_ok.mpr ⟨_,hextra,?_⟩⟩
        dsimp only
        rwa [if_pos hnone]
      · rename_i hsome
        obtain ⟨head,hhead,h⟩ := Runs.bind_ok.mp h
        cases head with
        | none =>
          refine ⟨Runs.pure_ok.mp h ▸ hc,Runs.bind_ok.mpr ⟨_,hextra,?_⟩⟩
          dsimp only
          rw [if_neg hsome]
          exact Runs.bind_ok.mpr ⟨none,hhead,h⟩
        | some head =>
          obtain ⟨i,hi,h⟩ := Runs.bind_ok.mp h
          obtain rfl := Runs.pure_ok.mp h
          obtain ⟨hback,hsame⟩ := addInstance_unmet hC hc
          refine ⟨hback,Runs.bind_ok.mpr ⟨_,hextra,?_⟩⟩
          dsimp only
          rw [if_neg hsome]
          exact Runs.bind_ok.mpr ⟨_,hhead,Runs.bind_ok.mpr ⟨i,hi,by rw [hsame]; rfl⟩⟩

theorem enumerate_unmet (hC : C.Below C') {pivot : ℕ} {keys : List FactHash} (ps : List Pattern) (slot : ℕ)
    (bind : Bind) (chosen : List (Fact D)) : Unmet (·.capped) (enumerate C s compiled pivot keys ps slot bind chosen)
      (enumerate C' s compiled pivot keys ps slot bind chosen) := by
  induction ps generalizing slot bind chosen with
  | nil =>
    intro e u h hc
    rw [enumerate_nil] at h ⊢
    exact emit_unmet hC _ u h hc
  | cons p ps ih =>
    intro e u h hc
    rw [enumerate_cons] at h ⊢
    refine Unmet.foldlM (fun f _ a b hb hcb => ?_) e u h hc
    dsimp only [enter] at hb ⊢
    split at hb
    · rename_i hpivot
      rw [if_pos hpivot]
      exact ⟨Except.ok.inj hb ▸ hcb,hb⟩
    · rename_i hpivot
      rw [if_neg hpivot]
      split at hb
      · rename_i hu
        exact ⟨Except.ok.inj hb ▸ hcb,hb⟩
      · rename_i extended hu
        exact ih _ _ _ a b hb hcb

theorem apply_unmet (hC : C.Below C') (keys : List FactHash) (compiled : CompiledRule) :
    Unmet (σ := Engine D) (·.capped) (apply C s keys · compiled) (apply C' s keys · compiled) := by
  intro e u h hc
  exact Unmet.foldlM (fun pivot _ => enumerate_unmet hC _ _ _ _) e u h hc

/-- Rounds that did not use up what was left to them do the same with more left. -/
theorem rounds_unmet (hC : C.Below C') {left left' : ℕ} (hle : left ≤ left') {delta : List (Fact D)} :
    Unmet (·.capped) (rounds C s left delta) (rounds C' s left' delta) := by
  induction left generalizing left' delta with
  | zero =>
    intro e u h hc
    cases delta with
    | nil =>
      rw [rounds] at h ⊢
      exact ⟨Except.ok.inj h ▸ hc,h⟩
    | cons f delta =>
      cases h
      cases hc
  | succ left ih =>
    intro e u h hc
    cases delta with
    | nil =>
      rw [rounds] at h ⊢
      exact ⟨Except.ok.inj h ▸ hc,h⟩
    | cons f delta =>
      obtain ⟨left'',rfl⟩ : ∃ n, left' = n+1 := ⟨left'-1,by omega⟩
      simp only [rounds] at h ⊢
      obtain ⟨v,hv,h⟩ := Runs.bind_ok.mp h
      obtain ⟨hcv,hrest⟩ := ih (Nat.le_of_succ_le_succ hle) _ u h hc
      obtain ⟨hback,hsame⟩ := Unmet.foldlM (fun compiled _ => apply_unmet hC _ compiled) _ v hv hcv
      exact ⟨hback,Runs.bind_ok.mpr ⟨v,hsame,hrest⟩⟩

theorem saturate_unmet (hC : C.Below C') : Unmet (σ := Engine D) (·.capped) (saturate C s) (saturate C' s) :=
  fun _ u h hc => rounds_unmet hC (Nat.sub_le_sub_right hC.iterations _) _ u h hc

end Engine

theorem freshEngine_unmet (hC : C.Below C') {e : Engine D} (h : freshEngine D C s = .ok e) (hc : e.capped = false) :
    freshEngine D C' s = .ok e := by
  obtain ⟨seeded,hseed,hsat⟩ := Runs.bind_ok.mp h
  obtain ⟨hback,hsame⟩ := Engine.saturate_unmet hC _ e hsat hc
  exact Runs.bind_ok.mpr ⟨seeded,(Engine.seed_unmet hC _ seeded hseed hback).2,hsame⟩

/-! ### The silent stage -/

/-- The combinations a rule declares as drawable. -/
def drawable (compiled : CompiledRule) (entities : List Entity) : List (List Entity) :=
  product (compiled.silentBindKinds.map fun p => entitiesByKind entities p.2)

theorem silentBindings_fit (hC : C.Below C') {compiled : CompiledRule}
    (hfit : (drawable compiled entities).length ≤ max 1 C.maxSilentBindings) :
    silentBindings C' compiled entities = silentBindings C compiled entities := by
  have hfit' : (drawable compiled entities).length ≤ max 1 C'.maxSilentBindings :=
    hfit.trans (max_le_max le_rfl hC.silentBindings)
  unfold silentBindings
  rw [drawable] at hfit hfit'
  simp only [List.take_of_length_le hfit,List.take_of_length_le hfit']

abbrev SilentState.capped (st : SilentState D) : Bool := st.engine.capped

theorem add_unmet (hC : C.Below C') {span : Option (ℤ × ℤ)} {st : SilentState D} {p : GroundInstance D × Fact D}
    (hc : (st.add C span p).capped = false) : st.capped = false ∧ st.add C' span p = st.add C span p := by
  obtain ⟨hback,hsame⟩ := Engine.addInstance_unmet hC hc
  refine ⟨hback,?_⟩
  simp only [SilentState.add,hsame]

theorem addAll_unmet (hC : C.Below C') {span : Option (ℤ × ℤ)} {l : List (GroundInstance D × Fact D)}
    {st : SilentState D} (hc : (l.foldl (SilentState.add C span) st).capped = false) :
    st.capped = false ∧ l.foldl (SilentState.add C' span) st = l.foldl (SilentState.add C span) st := by
  induction l generalizing st with
  | nil => exact ⟨hc,rfl⟩
  | cons p l ih =>
    obtain ⟨hback,hrest⟩ := ih hc
    obtain ⟨hback,hsame⟩ := add_unmet hC hback
    exact ⟨hback,by rw [List.foldl_cons,List.foldl_cons,hsame,hrest]⟩

theorem silentTurn_unmet (hC : C.Below C') {compiled : CompiledRule} {tick : ℤ} {span : ℤ × ℤ}
    {ids : List LicenseId} (bound : EntityBinding) : Unmet (σ := SilentState D) (·.capped)
      (silentTurn C compiled tick span ids · bound) (silentTurn C' compiled tick span ids · bound) := by
  intro st st' h hc
  obtain ⟨r,hr,h⟩ := Runs.bind_ok.mp h
  cases r with
  | none => exact ⟨Runs.pure_ok.mp h ▸ hc,Runs.bind_ok.mpr ⟨none,hr,h⟩⟩
  | some r =>
    obtain ⟨keys,premises⟩ := r
    dsimp only at h
    split at h
    · rename_i hargs
      refine ⟨Runs.pure_ok.mp h ▸ hc,Runs.bind_ok.mpr ⟨_,hr,?_⟩⟩
      dsimp only
      rw [hargs]
      exact h
    · rename_i args hargs
      obtain ⟨head,hhead,h⟩ := Runs.bind_ok.mp h
      obtain ⟨i,hi,h⟩ := Runs.bind_ok.mp h
      obtain rfl := Runs.pure_ok.mp h
      obtain ⟨hback,hsame⟩ := addAll_unmet hC hc
      refine ⟨hback,Runs.bind_ok.mpr ⟨_,hr,?_⟩⟩
      dsimp only
      rw [hargs]
      exact Runs.bind_ok.mpr ⟨head,hhead,Runs.bind_ok.mpr ⟨i,hi,by rw [hsame]; rfl⟩⟩

theorem silentBound_unmet (hC : C.Below C') {compiled : CompiledRule} {tick : ℤ} {span : ℤ × ℤ}
    {ids : List LicenseId} {bs : List EntityBinding} {st : SilentState D} {r : SilentState D × Bool}
    (h : silentBound C compiled tick span ids bs st = .ok r) (hc : r.1.capped = false) :
    st.capped = false ∧ silentBound C' compiled tick span ids bs st = .ok r := by
  induction bs generalizing st with
  | nil =>
    rw [silentBound] at h ⊢
    obtain rfl := Except.ok.inj h
    exact ⟨hc,rfl⟩
  | cons b bs ih =>
    rw [silentBound] at h ⊢
    split at h
    · cases h
      cases hc
    · rename_i hroom
      rw [if_neg fun hle => hroom (hC.silentInstances.trans hle)]
      obtain ⟨u,hu,h⟩ := Runs.bind_ok.mp h
      obtain ⟨hback,hrest⟩ := ih h
      obtain ⟨hback,hsame⟩ := silentTurn_unmet hC b st u hu hback
      exact ⟨hback,Runs.bind_ok.mpr ⟨u,hsame,hrest⟩⟩

theorem silentWindows_unmet (hC : C.Below C') {compiled : CompiledRule} {bs : List EntityBinding}
    (ws : List Interval) : Unmet (σ := SilentState D) (·.capped)
      (silentWindows C view compiled bs ws) (silentWindows C' view compiled bs ws) := by
  induction ws with
  | nil =>
    intro st st' h hc
    rw [silentWindows] at h ⊢
    exact ⟨Except.ok.inj h ▸ hc,h⟩
  | cons w ws ih =>
    intro st st' h hc
    rw [silentWindows] at h ⊢
    obtain ⟨l,hl,h⟩ := Runs.bind_ok.mp h
    cases l with
    | none =>
      obtain ⟨hback,hsame⟩ := ih st st' h hc
      exact ⟨hback,Runs.bind_ok.mpr ⟨none,hl,hsame⟩⟩
    | some licences =>
      obtain ⟨r,hr,h⟩ := Runs.bind_ok.mp h
      split at h
      · rename_i hended
        obtain rfl := Runs.pure_ok.mp h
        obtain ⟨hback,hsame⟩ := silentBound_unmet hC hr hc
        refine ⟨hback,Runs.bind_ok.mpr ⟨_,hl,Runs.bind_ok.mpr ⟨r,hsame,?_⟩⟩⟩
        rw [if_pos hended]
        rfl
      · rename_i hgoes
        obtain ⟨hback,hrest⟩ := ih r.1 st' h hc
        obtain ⟨hback,hsame⟩ := silentBound_unmet hC hr hback
        refine ⟨hback,Runs.bind_ok.mpr ⟨_,hl,Runs.bind_ok.mpr ⟨r,hsame,?_⟩⟩⟩
        rw [if_neg hgoes]
        exact hrest

theorem addSilentDetect_unmet (hC : C.Below C') {compiled : CompiledRule}
    (hfit : (drawable compiled entities).length ≤ max 1 C.maxSilentBindings) :
    Unmet (σ := SilentState D) (·.capped) (addSilentDetect C view entities · compiled)
      (addSilentDetect C' view entities · compiled) := by
  intro st st' h hc
  obtain ⟨ws,hws,h⟩ := Runs.bind_ok.mp h
  obtain ⟨hback,hsame⟩ := silentWindows_unmet hC ws st st' h hc
  exact ⟨hback,Runs.bind_ok.mpr ⟨ws,hws,by rw [silentBindings_fit hC hfit]; exact hsame⟩⟩

/-! ### The obligation stage -/

theorem obligationTriggers_unmet (hC : C.Below C') {compiled : CompiledRule} {within : ℤ} {pattern : Pattern}
    (triggers : List (Fact D)) : Unmet (σ := ObligationState D) (·.1.engine.capped)
      (obligationTriggers C view compiled within pattern triggers)
      (obligationTriggers C' view compiled within pattern triggers) := by
  induction triggers with
  | nil =>
    intro st st' h hc
    rw [obligationTriggers] at h ⊢
    exact ⟨Except.ok.inj h ▸ hc,h⟩
  | cons f triggers ih =>
    intro st st' h hc
    rw [obligationTriggers] at h ⊢
    split at h
    · exact ih st st' h hc
    · obtain ⟨head,hhead,h⟩ := Runs.bind_ok.mp h
      split at h
      · rename_i hheld
        obtain ⟨hback,hsame⟩ := ih st st' h hc
        refine ⟨hback,Runs.bind_ok.mpr ⟨head,hhead,?_⟩⟩
        rw [if_pos hheld]
        exact hsame
      · rename_i hfresh
        obtain ⟨w,hw,h⟩ := Runs.bind_ok.mp h
        obtain ⟨l,hl,h⟩ := Runs.bind_ok.mp h
        cases l with
        | none =>
          obtain ⟨hback,hsame⟩ := ih _ st' h hc
          refine ⟨hback,Runs.bind_ok.mpr ⟨head,hhead,?_⟩⟩
          rw [if_neg hfresh]
          exact Runs.bind_ok.mpr ⟨w,hw,Runs.bind_ok.mpr ⟨none,hl,hsame⟩⟩
        | some licences =>
          dsimp only at h
          split at h
          · cases h
            cases hc
          · rename_i hroom
            obtain ⟨i,hi,h⟩ := Runs.bind_ok.mp h
            obtain ⟨hback,hrest⟩ := ih _ st' h hc
            obtain ⟨hback,hsame⟩ := add_unmet hC hback
            refine ⟨hback,Runs.bind_ok.mpr ⟨head,hhead,?_⟩⟩
            rw [if_neg hfresh]
            refine Runs.bind_ok.mpr ⟨w,hw,Runs.bind_ok.mpr ⟨_,hl,?_⟩⟩
            dsimp only
            rw [if_neg fun hle => hroom (hC.silentInstances.trans hle)]
            exact Runs.bind_ok.mpr ⟨i,hi,by rw [hsame]; exact hrest⟩

theorem addObligations_unmet (hC : C.Below C') {st : SilentState D} {ob : ObligationState D}
    (h : addObligations C view s.table st = .ok ob) (hc : ob.1.engine.capped = false) :
    st.engine.capped = false ∧ addObligations C' view s.table st = .ok ob := by
  obtain ⟨u,hu,h⟩ := Runs.bind_ok.mp h
  obtain rfl := Runs.pure_ok.mp h
  have hloop : Unmet (σ := ObligationState D) (·.1.engine.capped)
      (s.table.obligationRules.foldlM (obligationRule C view))
      (s.table.obligationRules.foldlM (obligationRule C' view)) := by
    refine Unmet.foldlM fun compiled _ a b hb hcb => ?_
    unfold obligationRule at hb ⊢
    split at hb
    · obtain ⟨p,hp,hb⟩ := Runs.bind_ok.mp hb
      obtain ⟨hback,hsame⟩ := obligationTriggers_unmet hC _ a b hb hcb
      exact ⟨hback,Runs.bind_ok.mpr ⟨p,hp,hsame⟩⟩
    · cases hb
  obtain ⟨hback,hsame⟩ := hloop _ u hu hc
  exact ⟨hback,Runs.bind_ok.mpr ⟨u,hsame,rfl⟩⟩

/-! ### The bracket -/

theorem upperEngine_unmet (hC : C.Below C')
    (hfit : ∀ compiled ∈ silentRules s.table, (drawable compiled entities).length ≤ max 1 C.maxSilentBindings)
    {ob : ObligationState D} (h : upperEngine D C s view entities = .ok ob) (hc : ob.1.engine.capped = false) :
    upperEngine D C' s view entities = .ok ob := by
  obtain ⟨fresh,hfresh,h⟩ := Runs.bind_ok.mp h
  obtain ⟨silent,hsilent,h⟩ := Runs.bind_ok.mp h
  obtain ⟨second,hsecond,h⟩ := Runs.bind_ok.mp h
  obtain ⟨obliged,hobliged,h⟩ := Runs.bind_ok.mp h
  obtain ⟨final,hfinal,h⟩ := Runs.bind_ok.mp h
  obtain ⟨u,hghosts,h⟩ := Runs.bind_ok.mp h
  obtain rfl := Runs.pure_ok.mp h
  -- from the last stage back to the first, each was entered with no ceiling reported
  obtain ⟨hback,hfinal'⟩ := Engine.saturate_unmet hC _ final hfinal hc
  obtain ⟨hback,hobliged'⟩ := addObligations_unmet hC hobliged hback
  obtain ⟨hback,hsecond'⟩ := Engine.saturate_unmet hC _ second hsecond hback
  have hstage : Unmet (σ := SilentState D) (·.capped)
      ((silentRules s.table).foldlM (addSilentDetect C view entities))
      ((silentRules s.table).foldlM (addSilentDetect C' view entities)) :=
    Unmet.foldlM fun compiled hr => addSilentDetect_unmet hC (hfit compiled hr)
  obtain ⟨hback,hsilent'⟩ := hstage _ silent hsilent hback
  exact Runs.bind_ok.mpr ⟨fresh,freshEngine_unmet hC hfresh hback,Runs.bind_ok.mpr ⟨silent,hsilent',
    Runs.bind_ok.mpr ⟨second,hsecond',Runs.bind_ok.mpr ⟨obliged,hobliged',
      Runs.bind_ok.mpr ⟨final,hfinal',Runs.bind_ok.mpr ⟨u,hghosts,rfl⟩⟩⟩⟩⟩⟩

end

/-- A grounding, and a bracket whose rules all draw no more combinations than the ceiling on bindings, that
come back with no ceiling reported are what every higher ceilings give: nothing was left out. -/
theorem unreported_ceilings_unmet (D : Digest) (C C' : Ceilings) (s : Setup) (hC : C.Below C') :
    (∀ result, ground D C s = .ok result → result.capped = false → ground D C' s = .ok result) ∧
    ∀ view entities pMin result, envelope D C s view entities pMin = .ok result → result.capped = false →
      (∀ compiled ∈ silentRules s.table, (drawable compiled entities).length ≤ max 1 C.maxSilentBindings) →
      envelope D C' s view entities pMin = .ok result := by
  constructor
  · intro result h hc
    obtain ⟨seeded,hseed,h⟩ := Runs.bind_ok.mp h
    obtain ⟨e,hsat,h⟩ := Runs.bind_ok.mp h
    obtain ⟨u,hghosts,h⟩ := Runs.bind_ok.mp h
    obtain ⟨program,hprogram,h⟩ := Runs.bind_ok.mp h
    obtain rfl := Runs.pure_ok.mp h
    obtain ⟨hback,hsat'⟩ := Engine.saturate_unmet hC _ e hsat hc
    exact Runs.bind_ok.mpr ⟨seeded,(Engine.seed_unmet hC _ seeded hseed hback).2,Runs.bind_ok.mpr ⟨e,hsat',
      Runs.bind_ok.mpr ⟨u,hghosts,Runs.bind_ok.mpr ⟨program,hprogram,rfl⟩⟩⟩⟩
  · intro view entities pMin result h hc hfit
    obtain ⟨lowerEngine,hlowerEngine,h⟩ := Runs.bind_ok.mp h
    obtain ⟨lower,hlower,h⟩ := Runs.bind_ok.mp h
    obtain ⟨ob,hob,h⟩ := Runs.bind_ok.mp h
    obtain ⟨upper,hupper,h⟩ := Runs.bind_ok.mp h
    obtain ⟨u,hcontains,h⟩ := Runs.bind_ok.mp h
    obtain ⟨v,hgiven,h⟩ := Runs.bind_ok.mp h
    obtain rfl := Runs.pure_ok.mp h
    obtain ⟨hcu,hcl⟩ := Bool.or_eq_false_iff.mp hc
    exact Runs.bind_ok.mpr ⟨lowerEngine,freshEngine_unmet hC hlowerEngine hcl,Runs.bind_ok.mpr ⟨lower,hlower,
      Runs.bind_ok.mpr ⟨ob,upperEngine_unmet hC hfit hob hcu,Runs.bind_ok.mpr ⟨upper,hupper,
        Runs.bind_ok.mpr ⟨u,hcontains,Runs.bind_ok.mpr ⟨v,hgiven,rfl⟩⟩⟩⟩⟩⟩

theorem unreported_ceilings_unmet_login : ∃ result,
    envelope sampleDigest .source loginSetup iamView [alice] none = .ok result ∧
    envelope sampleDigest ⟨400000,1000000,2000,200000,8192⟩ loginSetup iamView [alice] none = .ok result := by
  obtain ⟨result,hr,hrun⟩ := Runs.bind_ok.mp loginRun.2.1
  obtain ⟨_,-,hrun⟩ := Runs.bind_ok.mp hrun
  obtain ⟨_,-,hrun⟩ := Runs.bind_ok.mp hrun
  obtain ⟨_,-,hrun⟩ := Runs.bind_ok.mp hrun
  have hc := of_decide_eq_true loginRun.2.2
  rw [← Runs.pure_ok.mp hrun] at hc
  have hbelow : Ceilings.source.Below ⟨400000,1000000,2000,200000,8192⟩ := by
    constructor <;> decide
  have hfit : ∀ compiled ∈ silentRules loginSetup.table,
      (drawable compiled [alice]).length ≤ max 1 Ceilings.source.maxSilentBindings := by decide +kernel
  exact ⟨result,hr,(unreported_ceilings_unmet sampleDigest .source _ loginSetup hbelow).2
    iamView [alice] none result hr hc.1 hfit⟩

end Spectra
