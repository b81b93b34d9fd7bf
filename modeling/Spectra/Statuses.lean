import Spectra.Agreement

/-! What an engine writes down about its instances beside them: which facts are licensed, which are
ghosts, and which ticks a licensed fact may have had. Whatever the order of the stages, the three are
those that a pass over the instances would find. -/
namespace Spectra

variable {D : Digest} {C : Ceilings} {s : Setup} {view : LivenessView} {entities : List Entity}

/-! ### One addition -/

namespace Engine

/-- Some instance of the status supports the fact. -/
def Supported (e : Engine D) (o : Observation) (k : FactHash) : Prop :=
  ∃ i ∈ e.instances, i.head = k ∧ i.observed = o

/-- The records agree with the instances. -/
structure Tracked (e : Engine D) : Prop where
  headed : e.Headed
  ids : (e.instances.map (·.instanceId)).Nodup
  ghostKeys : e.ghostFacts.Nodup
  licensed : ∀ k, k ∈ e.licensedFacts ↔ e.Supported .licensed k ∧ ¬e.Supported .observed k
  ghosts : e.capped = false → ∀ k, k ∈ e.ghostFacts ↔
    (∃ i ∈ e.instances, i.head = k ∧ i.ghost = true) ∧ ¬e.Supported .observed k
  spans : ∀ (f : Fact D) lo hi, Dict.get? e.licensedSpan f.factKey = some (lo,hi) → lo ≤ f.tick ∧ f.tick ≤ hi
  spanned : ∀ i ∈ e.instances, i.observed = .licensed →
    (Dict.get? e.licensedSpan i.head).isSome ∨ i.ghost = true ∧ i.body ≠ []

/-- What every stage sees to when it adds an instance. -/
structure Addition (e : Engine D) (i : GroundInstance D) (head : Fact D) (span : Option (ℤ × ℤ)) : Prop where
  heads : i.head = head.factKey
  ghost : i.ghost = true → i.observed = .licensed
  unseen : i.ghost = true → e.capped = false → ¬e.Supported .observed i.head
  within : ∀ p, span = some p → p.1 ≤ head.tick ∧ head.tick ≤ p.2
  spanned : i.observed = .licensed → span.isSome ∨ i.ghost = true ∧ i.body ≠ []

theorem adjoin_nodup {k : FactHash} {l : List FactHash} (h : l.Nodup) : (adjoin k l).Nodup := by
  unfold adjoin
  split
  · exact h
  · rename_i hk
    exact List.nodup_append.mpr ⟨h,List.nodup_singleton k,fun a ha b hb hab =>
      hk (List.mem_singleton.mp hb ▸ hab ▸ ha)⟩

theorem supported_append {e u : Engine D} {i : GroundInstance D} (h : u.instances = e.instances++[i])
    {o : Observation} {k : FactHash} : u.Supported o k ↔ e.Supported o k ∨ i.head = k ∧ i.observed = o := by
  simp only [Supported,h,List.mem_append,List.mem_singleton]
  constructor
  · rintro ⟨j,hj | rfl,hk⟩
    · exact .inl ⟨j,hj,hk⟩
    · exact .inr hk
  · rintro (⟨j,hj,hk⟩ | hk)
    · exact ⟨j,.inl hj,hk⟩
    · exact ⟨i,.inr rfl,hk⟩

theorem any_observed {e : Engine D} {k : FactHash} :
    (e.instances.any fun o => o.head = k ∧ o.observed = .observed) = true ↔ e.Supported .observed k := by
  simp [Supported]

/-- The licensed facts after an instance was entered. -/
theorem recordStatus_licensed {e v : Engine D} {i : GroundInstance D} {head : Fact D}
    (he : ∀ k, k ∈ e.licensedFacts ↔ e.Supported .licensed k ∧ ¬e.Supported .observed k)
    (hi : i.head = head.factKey) (hv : v.instances = e.instances++[i])
    (hl : v.licensedFacts = e.licensedFacts) (k : FactHash) :
    k ∈ (v.recordStatus i head).licensedFacts ↔ v.Supported .licensed k ∧ ¬v.Supported .observed k := by
  rw [supported_append hv,supported_append hv]
  unfold recordStatus
  cases hobs : i.observed with
  | licensed =>
    simp only [if_true,reduceCtorEq,and_false,or_false,and_true]
    by_cases hany : (v.instances.any fun o => o.head = head.factKey ∧ o.observed = .observed) = true
    · rw [if_pos hany,hl,he]
      rw [any_observed,supported_append hv,hobs] at hany
      constructor
      · exact fun h => ⟨.inl h.1,h.2⟩
      · rintro ⟨h | rfl,hn⟩
        · exact ⟨h,hn⟩
        · exact absurd (by simpa [hi] using hany) hn
    · rw [if_neg hany,mem_adjoin,hl,he]
      rw [any_observed,supported_append hv,hobs] at hany
      simp only [reduceCtorEq,and_false,or_false] at hany
      constructor
      · rintro (rfl | h)
        · exact ⟨.inr hi,hany⟩
        · exact ⟨.inl h.1,h.2⟩
      · rintro ⟨h | rfl,hn⟩
        · exact .inr ⟨h,hn⟩
        · exact .inl hi
  | observed =>
    simp only [reduceCtorEq,if_false,and_false,or_false,and_true,List.mem_filter,decide_eq_true_eq,hl,he]
    rw [hi]
    constructor
    · rintro ⟨h,hne⟩
      exact ⟨h.1,fun h' => h'.elim h.2 fun hk => hne hk.symm⟩
    · rintro ⟨h,hn⟩
      exact ⟨⟨h,fun h' => hn (.inl h')⟩,fun hk => hn (.inr hk.symm)⟩

/-- The ghosts after an instance was entered. -/
theorem recordStatus_ghosts {e v : Engine D} {i : GroundInstance D} {head : Fact D}
    (he : ∀ k, k ∈ e.ghostFacts ↔ (∃ i ∈ e.instances, i.head = k ∧ i.ghost = true) ∧ ¬e.Supported .observed k)
    (hi : i.head = head.factKey) (hlicensed : i.ghost = true → i.observed = .licensed)
    (hunseen : i.ghost = true → ¬e.Supported .observed i.head) (hv : v.instances = e.instances++[i])
    (hg : v.ghostFacts = e.ghostFacts) (k : FactHash) : k ∈ (v.recordStatus i head).ghostFacts ↔
      (∃ i ∈ v.instances, i.head = k ∧ i.ghost = true) ∧ ¬v.Supported .observed k := by
  have hghost : (∃ j ∈ v.instances, j.head = k ∧ j.ghost = true) ↔
      (∃ j ∈ e.instances, j.head = k ∧ j.ghost = true) ∨ i.head = k ∧ i.ghost = true := by
    simp only [hv,List.mem_append,List.mem_singleton]
    constructor
    · rintro ⟨j,hj | rfl,hk⟩
      · exact .inl ⟨j,hj,hk⟩
      · exact .inr hk
    · rintro (⟨j,hj,hk⟩ | hk)
      · exact ⟨j,.inl hj,hk⟩
      · exact ⟨i,.inr rfl,hk⟩
  rw [hghost,supported_append hv]
  unfold recordStatus
  cases hobs : i.observed with
  | licensed =>
    simp only [if_true,reduceCtorEq,and_false,or_false]
    by_cases hgi : i.ghost = true
    · rw [if_pos hgi,mem_adjoin,hg,he]
      constructor
      · rintro (rfl | h)
        · exact ⟨.inr ⟨hi,hgi⟩,hi ▸ hunseen hgi⟩
        · exact ⟨.inl h.1,h.2⟩
      · rintro ⟨h | ⟨rfl,-⟩,hn⟩
        · exact .inr ⟨h,hn⟩
        · exact .inl hi
    · rw [if_neg hgi,hg,he]
      exact ⟨fun h => ⟨.inl h.1,h.2⟩,fun h => ⟨h.1.resolve_right fun hk => hgi hk.2,h.2⟩⟩
  | observed =>
    have hno : ¬i.ghost = true := fun h => by simp [hlicensed h] at hobs
    simp only [reduceCtorEq,if_false,and_true,List.mem_filter,decide_eq_true_eq,hg,he,hno,and_false,or_false]
    rw [hi]
    constructor
    · rintro ⟨h,hne⟩
      exact ⟨h.1,fun h' => h'.elim h.2 fun hk => hne hk.symm⟩
    · rintro ⟨h,hn⟩
      exact ⟨⟨h,fun h' => hn (.inl h')⟩,fun hk => hn (.inr hk.symm)⟩

/-- The spans after an addition was noted. -/
theorem recordSpan_within {e : Engine D} {i : GroundInstance D} {head : Fact D} {span : Option (ℤ × ℤ)}
    (he : ∀ (f : Fact D) lo hi, Dict.get? e.licensedSpan f.factKey = some (lo,hi) → lo ≤ f.tick ∧ f.tick ≤ hi)
    (hspan : ∀ p, span = some p → p.1 ≤ head.tick ∧ head.tick ≤ p.2) (f : Fact D) (lo hi : ℤ)
    (h : Dict.get? (e.recordSpan i head span).licensedSpan f.factKey = some (lo,hi)) :
    lo ≤ f.tick ∧ f.tick ≤ hi := by
  rcases span with _ | ⟨lo',hi'⟩
  · exact he f lo hi h
  obtain ⟨hlo,hhi⟩ := hspan _ rfl
  simp only at hlo hhi
  by_cases hobs : i.observed = .licensed
  · rw [recordSpan,if_pos hobs] at h
    simp only [Dict.get?_set] at h
    split at h
    · rename_i hk
      obtain rfl := Fact.key_inj hk
      cases hprior : Dict.get? e.licensedSpan head.factKey with
      | none =>
        rw [hprior] at h
        cases h
        exact ⟨hlo,hhi⟩
      | some prior =>
        rw [hprior] at h
        cases h
        exact ⟨(min_le_left _ _).trans hlo,hhi.trans (le_max_left _ _)⟩
    · exact he f lo hi h
  · rw [recordSpan,if_neg hobs] at h
    exact he f lo hi h

theorem recordSpan_keeps (e : Engine D) (i : GroundInstance D) (head : Fact D) (span : Option (ℤ × ℤ))
    (k : FactHash) : ((Dict.get? e.licensedSpan k).isSome →
      (Dict.get? (e.recordSpan i head span).licensedSpan k).isSome) ∧
    (i.observed = .licensed → span.isSome →
      (Dict.get? (e.recordSpan i head span).licensedSpan head.factKey).isSome) := by
  rcases span with _ | ⟨lo,hi⟩
  · exact ⟨id,fun _ h => by cases h⟩
  by_cases hobs : i.observed = .licensed
  · rw [recordSpan,if_pos hobs]
    simp only [Dict.get?_set]
    refine ⟨fun h => ?_,fun _ _ => by simp⟩
    split
    · rfl
    · exact h
  · rw [recordSpan,if_neg hobs]
    exact ⟨id,fun h => absurd h hobs⟩

/-- An addition leaves the records alone but for the span, or enters the instance in them. -/
theorem addInstance_cases (C : Ceilings) (e : Engine D) (i : GroundInstance D) (head : Fact D)
    (span : Option (ℤ × ℤ)) :
    (e.addInstance C i head span).1.licensedSpan = (e.recordSpan i head span).licensedSpan ∧
    ((e.addInstance C i head span).1.instances = e.instances ∧
        (e.addInstance C i head span).1.licensedFacts = e.licensedFacts ∧
        (e.addInstance C i head span).1.ghostFacts = e.ghostFacts ∨
      e.hasInstance i.instanceId = false ∧ ∃ v : Engine D, (e.addInstance C i head span).1 =
        v.recordStatus i head ∧ v.instances = e.instances++[i] ∧ v.licensedFacts = e.licensedFacts ∧
        v.ghostFacts = e.ghostFacts) := by
  obtain ⟨sp,hsp⟩ := e.recordSpan_eq i head span
  have hknown : (e.recordSpan i head span).hasInstance i.instanceId = e.hasInstance i.instanceId := by
    rw [hsp]
    rfl
  simp only [addInstance,hknown]
  by_cases hk : e.hasInstance i.instanceId = true
  · rw [if_pos hk,hsp]
    exact ⟨rfl,.inl ⟨rfl,rfl,rfl⟩⟩
  · rw [if_neg hk,hsp]
    by_cases hfull : C.maxInstances ≤ ({e with licensedSpan := sp} : Engine D).instances.length
    · rw [if_pos hfull]
      exact ⟨rfl,.inl ⟨rfl,rfl,rfl⟩⟩
    · rw [if_neg hfull]
      obtain ⟨l,g,hstatus⟩ := recordStatus_eq
        (({e with licensedSpan := sp, instances := e.instances++[i]} : Engine D).addFact C head).1 i head
      obtain ⟨b,d,c,t,hfact,-⟩ := addFact_spec C
        ({e with licensedSpan := sp, instances := e.instances++[i]} : Engine D) head
      refine ⟨?_,.inr ⟨Bool.eq_false_iff.mpr hk,_,rfl,?_,?_,?_⟩⟩
      · rw [hstatus,hfact]
      · rw [hfact]
      · rw [hfact]
      · rw [hfact]

theorem recordStatus_ghostKeys {v : Engine D} (i : GroundInstance D) (head : Fact D)
    (h : v.ghostFacts.Nodup) : (v.recordStatus i head).ghostFacts.Nodup := by
  unfold recordStatus
  split
  · simp only
    split
    · exact adjoin_nodup h
    · exact h
  · exact h.filter _

/-- The records agree with the instances after every addition a stage may make. -/
theorem Tracked.add {e : Engine D} {i : GroundInstance D} {head : Fact D} {span : Option (ℤ × ℤ)}
    (he : e.Tracked) (ha : e.Addition i head span) : (e.addInstance C i head span).1.Tracked := by
  have hadded := addInstance_added C e i head span
  have hheaded := hadded.headed ha.heads he.headed
  have hcapped := hadded.le.capped
  obtain ⟨hspan,hcases⟩ := addInstance_cases C e i head span
  have hwithin := recordSpan_within (i := i) he.spans ha.within
  rw [← hspan] at hwithin
  have hkeeps := recordSpan_keeps e i head span
  rw [← hspan] at hkeeps
  generalize (e.addInstance C i head span).1 = u at *
  rcases hcases with ⟨hinst,hl,hg⟩ | ⟨hnew,v,rfl,hv,hl,hg⟩
  · have hsup : ∀ o k, u.Supported o k ↔ e.Supported o k := by simp [Supported,hinst]
    refine ⟨hheaded,hinst ▸ he.ids,hg ▸ he.ghostKeys,fun k => ?_,fun hc k => ?_,hwithin,fun j hj hlic => ?_⟩
    · rw [hl,he.licensed,hsup,hsup]
    · rw [hg,he.ghosts (hcapped hc),hsup,hinst]
    · exact (he.spanned j (hinst ▸ hj) hlic).imp (hkeeps j.head).1 id
  · obtain ⟨l,g,hstatus⟩ := recordStatus_eq v i head
    have hinst : (v.recordStatus i head).instances = e.instances++[i] := by rw [hstatus,← hv]
    have hsup : ∀ o k, (v.recordStatus i head).Supported o k ↔ v.Supported o k := by
      intro o k
      simp only [Supported,hstatus]
    refine ⟨hheaded,?_,recordStatus_ghostKeys i head (hg ▸ he.ghostKeys),fun k => ?_,fun hc k => ?_,hwithin,
      fun j hj hlic => ?_⟩
    · rw [hinst,List.map_append]
      refine List.nodup_append.mpr ⟨he.ids,List.nodup_singleton _,?_⟩
      rintro a hmem b hb rfl
      obtain ⟨j,hj,hid⟩ := List.mem_map.mp hmem
      have hno := List.any_eq_false.mp hnew j hj
      simp only [decide_eq_true_eq] at hno
      exact hno (hid.trans (List.mem_singleton.mp hb))
    · rw [hsup,hsup]
      exact recordStatus_licensed he.licensed ha.heads hv hl k
    · rw [hsup,hinst,← hv]
      exact recordStatus_ghosts (he.ghosts (hcapped hc)) ha.heads ha.ghost (fun h => ha.unseen h (hcapped hc))
        hv hg k
    · rw [hinst] at hj
      rcases List.mem_append.mp hj with hj | hj
      · exact (he.spanned j hj hlic).imp (hkeeps j.head).1 id
      · obtain rfl := List.mem_singleton.mp hj
        exact (ha.spanned hlic).imp (fun h => ha.heads ▸ (hkeeps j.head).2 hlic h) id

theorem tracked_steady : Steady (Tracked (D := D)) := by
  intro e d tf sp n k b t h
  refine ⟨fun hc => h.headed ?_,h.ids,h.ghostKeys,h.licensed,fun hc => h.ghosts ?_,h.spans,h.spanned⟩
  · exact (Bool.or_eq_false_iff.mp hc).1
  · exact (Bool.or_eq_false_iff.mp hc).1

theorem seed_ghosts {e : Engine D} (h : empty.seed C s = .ok e) : e.ghostFacts = [] := by
  obtain ⟨u,hu,h⟩ := Runs.bind_ok.mp h
  cases h
  show u.ghostFacts = []
  refine Runs.foldlM_inv (P := fun e : Engine D => e.ghostFacts = []) (fun v ev w _ hv hw => ?_) rfl hu
  obtain ⟨f,-,hw⟩ := Runs.bind_ok.mp hw
  cases hw
  obtain ⟨b,d,c,t,hfact,-⟩ := addFact_spec C v f
  simp only [seedFact,hfact]
  exact hv

theorem seed_tracked {e : Engine D} (h : empty.seed C s = .ok e) : e.Tracked := by
  have hs := seed_seeded h
  have hnone : ∀ o k, ¬e.Supported o k := by simp [Supported,hs.instances]
  refine ⟨hs.headed,by simp [hs.instances],by simp [seed_ghosts h],fun k => ?_,fun _ k => ?_,?_,?_⟩
  · simp [hs.licensed,hnone]
  · simp [seed_ghosts h,hs.instances]
  · simp [hs.span]
  · simp [hs.instances]

/-- What a rule fires on the records is an addition of this kind. -/
theorem Observes.addition {e : Engine D} {i : GroundInstance D} {head : Fact D} {span : Option (ℤ × ℤ)}
    (h : Observes s e i head span) : e.Addition i head span := by
  obtain ⟨hspan,compiled,-,chosen,bind,-,-,hem⟩ := h
  obtain ⟨extra,-,-,hm⟩ := hem.fires
  have hghost : i.ghost = false := congrArg (·.ghost) (GroundInstance.mint_ok hm)
  have hobs : i.observed = .observed := hem.fields.2.2.2.1
  exact ⟨hem.fields.2.1,by simp [hghost],by simp [hghost],by simp [hspan],by simp [hobs]⟩

theorem Tracked.saturate {e e' : Engine D} (he : e.Tracked) (h : e.saturate C s = .ok e') : e'.Tracked :=
  tracked_steady.grows (saturate_grows h) (tracked_steady.opened he) fun _ _ _ _ hv hq => hv.add hq.addition

end Engine

/-! ### Runs of the silent stage and of the obligations -/

section Keeps

variable {P : SilentState D → Prop}

theorem silentBound_keeps {compiled : CompiledRule} {tick : ℤ} {span : ℤ × ℤ} {ids : List LicenseId}
    (hturn : ∀ st st' bound, P st → silentTurn C compiled tick span ids st bound = .ok st' → P st')
    (hcap : ∀ st, P st → P (st.recordCap C)) {bounds : List EntityBinding} {st : SilentState D}
    {r : SilentState D × Bool} (h : silentBound C compiled tick span ids bounds st = .ok r) (hst : P st) :
    P r.1 := by
  induction bounds generalizing st with
  | nil =>
    cases h
    exact hst
  | cons bound bounds ih =>
    rw [silentBound] at h
    split at h
    · cases h
      exact hcap st hst
    · obtain ⟨u,hu,h⟩ := Runs.bind_ok.mp h
      exact ih h (hturn st u bound hst hu)

theorem silentWindows_keeps {compiled : CompiledRule}
    (hmint : ∀ (st : SilentState D) sources window licences, P st →
      licencesForWindow D view sources window = .ok (some licences) → P (st.mint licences))
    (hturn : ∀ w ids st st' bound, P st →
      silentTurn C compiled (windowTick w) (windowSpan w) ids st bound = .ok st' → P st')
    (hcap : ∀ st, P st → P (st.recordCap C)) {bounds : List EntityBinding} {windows : List Interval}
    {st st' : SilentState D} (h : silentWindows C view compiled bounds windows st = .ok st') (hst : P st) :
    P st' := by
  induction windows generalizing st with
  | nil =>
    cases h
    exact hst
  | cons window windows ih =>
    obtain ⟨l,hl,h⟩ := Runs.bind_ok.mp h
    cases l with
    | none => exact ih h hst
    | some licences =>
      obtain ⟨r,hr,h⟩ := Runs.bind_ok.mp h
      have hst' := silentBound_keeps (hturn window (licenceIds licences)) hcap hr
        (hmint st _ window licences hst hl)
      split at h
      · cases h
        exact hst'
      · exact ih h hst'

/-- What the licences of a window and the turns of a rule keep, the silent stage keeps. -/
theorem silentStage_keeps {rules : List CompiledRule}
    (hmint : ∀ (st : SilentState D) sources window licences, P st →
      licencesForWindow D view sources window = .ok (some licences) → P (st.mint licences))
    (hturn : ∀ compiled ∈ rules, ∀ w ids st st' bound, P st →
      silentTurn C compiled (windowTick w) (windowSpan w) ids st bound = .ok st' → P st')
    (hcap : ∀ st, P st → P (st.recordCap C)) {st st' : SilentState D}
    (h : rules.foldlM (addSilentDetect C view entities) st = .ok st') (hst : P st) : P st' := by
  refine Runs.foldlM_inv (fun st compiled st' hc hst h => ?_) hst h
  obtain ⟨windows,-,h⟩ := Runs.bind_ok.mp h
  exact silentWindows_keeps hmint (hturn compiled hc) hcap h hst

theorem obligationTriggers_keeps {compiled : CompiledRule} (hr : compiled ∈ s.table.obligationRules)
    (hmint : ∀ (st : SilentState D) sources window licences, P st →
      licencesForWindow D view sources window = .ok (some licences) → P (st.mint licences))
    (hadd : ∀ (st : SilentState D) i head, P st → Obliges s st.engine i head none → i.ghost = true →
      P (st.add C none (i,head)))
    (hcap : ∀ st, P st → P (st.recordCap C)) {within : ℤ} {pattern : Pattern} {triggers : List (Fact D)}
    {st st' : ObligationState D} (ht : ∀ f ∈ triggers, f ∈ st.1.engine.base.facts)
    (h : obligationTriggers C view compiled within pattern triggers st = .ok st') (hst : P st.1) : P st'.1 := by
  induction triggers generalizing st with
  | nil =>
    cases h
    exact hst
  | cons f triggers ih =>
    have hrest := fun g hg => ht g (List.mem_cons_of_mem f hg)
    rw [obligationTriggers] at h
    split at h
    · exact ih hrest h hst
    · obtain ⟨head,hhead,h⟩ := Runs.bind_ok.mp h
      split at h
      · exact ih hrest h hst
      · rename_i hfresh
        rw [Engine.hasFact,FactBase.hasFact_iff] at hfresh
        obtain ⟨w,-,h⟩ := Runs.bind_ok.mp h
        obtain ⟨l,hl,h⟩ := Runs.bind_ok.mp h
        cases l with
        | none => exact @ih (st.1,st.2++[_]) hrest h hst
        | some licences =>
          have hminted := hmint st.1 _ w licences hst hl
          simp only at h
          split at h
          · cases h
            exact hcap _ hminted
          · obtain ⟨i,hi,h⟩ := Runs.bind_ok.mp h
            have hf := GroundInstance.mint_ok hi
            have hobliges : Obliges s (st.1.mint licences).engine i head none :=
              ⟨rfl,congrArg (·.observed) hf,congrArg (·.head) hf,hfresh,
                ⟨f,ht f (by simp),congrArg (·.body) hf⟩,compiled,hr,congrArg (·.ruleId) hf,
                (Fact.mint_ok hhead).1⟩
            refine ih (fun g hg => ?_) h (hadd _ i head hminted hobliges (congrArg (·.ghost) hf))
            exact (Engine.addInstance_added C (st.1.mint licences).engine i head none).le.facts (hrest g hg)

/-- What the licences of a window and the obliged instances keep, the obligations keep. -/
theorem obligations_keep (hmint : ∀ (st : SilentState D) sources window licences, P st →
      licencesForWindow D view sources window = .ok (some licences) → P (st.mint licences))
    (hadd : ∀ (st : SilentState D) i head, P st → Obliges s st.engine i head none → i.ghost = true →
      P (st.add C none (i,head)))
    (hcap : ∀ st, P st → P (st.recordCap C)) {st : SilentState D} {st' : ObligationState D}
    (h : addObligations C view s.table st = .ok st') (hst : P st) : P st'.1 := by
  obtain ⟨u,hu,h⟩ := Runs.bind_ok.mp h
  cases h
  show P u.1
  refine Runs.foldlM_inv (P := fun st : ObligationState D => P st.1) (fun st compiled st' hr hst h => ?_) hst hu
  unfold obligationRule at h
  split at h
  · obtain ⟨pattern,-,h⟩ := Runs.bind_ok.mp h
    exact obligationTriggers_keeps hr hmint hadd hcap (fun f hf => (FactBase.mem_factsFor.mp hf).1) h hst
  · cases h

end Keeps

/-! ### Every stage -/

namespace Engine

/-- The instances of one turn, the ghosts among them of facts that nothing was seen of. -/
theorem Tracked.addAll {l : List (GroundInstance D × Fact D)} {w : Interval} {st : SilentState D}
    (hl : ∀ x ∈ l, x.1.head = x.2.factKey ∧ x.1.observed = .licensed ∧ x.2.tick = windowTick w)
    (hunseen : ∀ x ∈ l, x.1.ghost = true → st.engine.capped = false → ¬st.engine.Supported .observed x.1.head)
    (h : st.engine.Tracked) : (l.foldl (SilentState.add C (some (windowSpan w))) st).engine.Tracked := by
  induction l generalizing st with
  | nil => exact h
  | cons x l ih =>
    obtain ⟨hhead,hlicensed,htick⟩ := hl x (by simp)
    have hadd : st.engine.Addition x.1 x.2 (some (windowSpan w)) := by
      refine ⟨hhead,fun _ => hlicensed,hunseen x (by simp),?_,fun _ => .inl rfl⟩
      rintro p ⟨⟩
      rw [htick]
      exact ⟨le_rfl,le_max_left _ _⟩
    have hadded := addInstance_added C st.engine x.1 x.2 (some (windowSpan w))
    refine ih (fun y hy => hl y (by simp [hy])) (fun y hy hghost hc => ?_) (h.add hadd)
    rintro ⟨j,hj,hhead',hobs⟩
    rcases hadded.instances hj with hj | rfl
    · exact hunseen y (by simp [hy]) hghost (hadded.le.capped hc) ⟨j,hj,hhead',hobs⟩
    · rw [hlicensed] at hobs
      cases hobs

/-- Nothing was seen of a fact the base lacks. -/
theorem Tracked.unseen {e : Engine D} (h : e.Tracked) {i : GroundInstance D} {f : Fact D}
    (hi : i.head = f.factKey) (hf : f ∉ e.base.facts) (hc : e.capped = false) : ¬e.Supported .observed i.head := by
  rintro ⟨j,hj,hhead,-⟩
  obtain ⟨g,hg,hkey⟩ := h.headed hc j hj
  exact hf (Fact.key_inj (hkey.trans (hhead.trans hi)) ▸ hg)

theorem Tracked.silentTurn {compiled : CompiledRule} {w : Interval} {ids : List LicenseId}
    {st st' : SilentState D} {bound : EntityBinding} (h : st.engine.Tracked)
    (ht : silentTurn C compiled (windowTick w) (windowSpan w) ids st bound = .ok st') : st'.engine.Tracked := by
  rcases silentTurn_cases ht with ⟨rfl,-⟩ | ⟨facts,premises,i,head,hs,rfl⟩
  · exact h
  refine Tracked.addAll (fun x hx => ⟨hs.heads x hx,?_⟩) (fun x hx hghost hc => ?_) h
  · rcases List.mem_append.mp hx with hx | hx
    · obtain ⟨⟨p,-,hd⟩,-,hf⟩ := hs.premises x hx
      exact ⟨congrArg (·.observed) hf,hd.2.2⟩
    · rw [List.mem_singleton.mp hx]
      exact ⟨congrArg (·.observed) hs.fields,hs.drawn.2.2⟩
  · rcases List.mem_append.mp hx with hx | hx
    · exact h.unseen (hs.heads _ (by simp [hx])) (hs.premises x hx).fresh hc
    · rw [List.mem_singleton.mp hx] at hghost
      have hno : i.ghost = false := congrArg (·.ghost) hs.fields
      simp only [hno] at hghost
      cases hghost

end Engine

theorem Staged.tracked {e : Engine D} (h : Staged C s e) : e.Tracked := by
  have hcap : ∀ st : SilentState D, st.engine.Tracked → (st.recordCap C).engine.Tracked := by
    intro st h
    have hgrow : Engine.Grows C False (fun _ _ _ _ => False) st.engine (st.recordCap C).engine :=
      recordCap_grows _ _
    exact Engine.tracked_steady.grows hgrow h fun _ _ _ _ _ hq => hq.elim
  induction h with
  | seeded h => exact Engine.seed_tracked h
  | saturated _ hs ih => exact ih.saturate hs
  | silenced _ _ hs ih =>
    exact silentStage_keeps (P := fun st : SilentState D => st.engine.Tracked) (fun _ _ _ _ h _ => h)
      (fun _ _ _ _ _ _ _ h ht => h.silentTurn ht) hcap hs ih
  | obliged _ ho ih =>
    refine obligations_keep (P := fun st : SilentState D => st.engine.Tracked) (fun _ _ _ _ h _ => h)
      (fun st i head h ho hghost => h.add ⟨ho.heads,fun _ => ho.licensed,fun _ hc => ?_,by simp,fun _ => ?_⟩) hcap ho ih
    · exact h.unseen ho.heads ho.fresh hc
    · obtain ⟨trigger,-,hb⟩ := ho.body
      exact .inr ⟨hghost,by simp [hb]⟩

/-- Whatever stages an engine has been through: a fact is licensed when some licensed instance supports it
and no observed one does, a ghost when some ghost does and no observed instance does, here and in what is
published, and the ticks written down for a licensed fact are there for every fact that was drawn into a
blind window, and take in the tick the fact has. -/
theorem statuses_exact {e : Engine D} (h : Staged C s e) :
    (∀ k, k ∈ e.licensedFacts ↔ (∃ i ∈ e.instances, i.head = k ∧ i.observed = .licensed) ∧
      ¬∃ i ∈ e.instances, i.head = k ∧ i.observed = .observed) ∧
    (e.capped = false → ∀ kind licences program, e.snapshot kind licences = .ok program → ∀ k,
      k ∈ program.ghosts ↔ (∃ i ∈ program.instances, i.head = k ∧ i.ghost = true) ∧
        ¬∃ i ∈ program.instances, i.head = k ∧ i.observed = .observed) ∧
    (∀ i ∈ e.instances, i.observed = .licensed →
      (Dict.get? e.licensedSpan i.head).isSome ∨ i.ghost = true ∧ i.body ≠ []) ∧
    ∀ (f : Fact D) lo hi, Dict.get? e.licensedSpan f.factKey = some (lo,hi) → lo ≤ f.tick ∧ f.tick ≤ hi := by
  have ht := h.tracked
  refine ⟨ht.licensed,fun hc kind licences program hp k => ?_,ht.spanned,ht.spans⟩
  obtain ⟨-,hi,-⟩ := Engine.snapshot_ok hp
  have hg : k ∈ program.ghosts ↔ k ∈ e.ghostFacts := by
    obtain ⟨-,rfl⟩ := validated_ok.mp hp
    exact List.mem_insertionSort _
  simp only [hg,hi]
  exact ht.ghosts hc k

def ghostRun := returned (upperEngine sampleDigest .source loginSetup iamView [alice])
  (fun ob => decide (ob.1.engine.ghostFacts ≠ [])) (by decide +kernel)

theorem statuses_exact_login : ∃ ob, upperEngine sampleDigest .source loginSetup iamView [alice] = .ok ob ∧
    ob.1.engine.ghostFacts ≠ [] ∧
    ∀ k, k ∈ ob.1.engine.licensedFacts ↔
      (∃ i ∈ ob.1.engine.instances, i.head = k ∧ i.observed = .licensed) ∧
        ¬∃ i ∈ ob.1.engine.instances, i.head = k ∧ i.observed = .observed := by
  obtain ⟨ob,hob,hghosts⟩ := ghostRun
  exact ⟨ob,hob,of_decide_eq_true hghosts,(statuses_exact (upperEngine_staged hob)).1⟩

end Spectra
