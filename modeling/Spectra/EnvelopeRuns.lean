import Spectra.Envelope
import Spectra.GroundRuns

/-! What the envelope's stages add to the upper engine, stage by stage: what a saturation
observes, what a silent binding licenses, what an obligation obliges. -/
namespace Spectra

variable {D : Digest} {C : Ceilings} {s : Setup} {view : LivenessView} {entities : List Entity}

/-! ### Licensed additions -/

/-- What the silent stage may add: a ghost premise or the instance over its premises. -/
structure Licenses (s : Setup) (e : Engine D) (i : GroundInstance D) (head : Fact D)
    (span : Option (ℤ × ℤ)) : Prop where
  window : ∃ w, span = some (windowSpan w) ∧ head.tick = windowTick w
  licensed : i.observed = .licensed
  heads : i.head = head.factKey
  body : e.capped = false → ∀ k ∈ i.body, ∃ f ∈ e.base.facts, f.factKey = k
  free : i.body = [] → i.blockers = []
  rule : ∃ compiled ∈ silentRules s.table, i.ruleId = compiled.ruleId ∧
    (i.body = [] ∧ (∃ p ∈ compiled.body, head.predicate = p.predicate) ∨
      i.body ≠ [] ∧ head.predicate = compiled.head.predicate)

/-- What the obligation stage may add. -/
structure Obliges (s : Setup) (e : Engine D) (i : GroundInstance D) (head : Fact D)
    (span : Option (ℤ × ℤ)) : Prop where
  spanless : span = none
  licensed : i.observed = .licensed
  heads : i.head = head.factKey
  fresh : head ∉ e.base.facts
  body : ∃ trigger ∈ e.base.facts, i.body = [trigger.factKey]
  rule : ∃ compiled ∈ s.table.obligationRules, i.ruleId = compiled.ruleId ∧
    head.predicate = compiled.head.predicate

theorem Engine.Observes.heads {e : Engine D} {i : GroundInstance D} {head : Fact D}
    {span : Option (ℤ × ℤ)} (h : Engine.Observes s e i head span) : i.head = head.factKey := by
  obtain ⟨-,compiled,-,chosen,bind,-,-,he⟩ := h
  exact he.fields.2.1

theorem mem_silentRules {compiled : CompiledRule} : compiled ∈ silentRules s.table ↔
    compiled ∈ s.table.detectRules ∧ compiled.rule.silentPossible = true := by
  simp [silentRules]

/-- The fact a binding draws for a pattern. -/
def Draws (bound : EntityBinding) (tick : ℤ) (p : Pattern) (f : Fact D) : Prop :=
  boundArgs bound p.entityVars = some f.args ∧ f.predicate = p.predicate ∧ f.tick = tick

/-- A ghost premise the base lacked. -/
structure Premise (e : Engine D) (compiled : CompiledRule) (bound : EntityBinding) (tick : ℤ)
    (ids : List LicenseId) (ps : List Pattern) (x : GroundInstance D × Fact D) : Prop where
  draws : ∃ p ∈ ps, Draws bound tick p x.2
  fresh : x.2 ∉ e.base.facts
  fields : x.1.toInstanceFields = ⟨x.1.instanceId,compiled.ruleId,compiled.rule.ruleVersion,
    x.2.factKey,[],[],.licensed,tick,[],ids,true⟩

theorem ghostPremise_ok {e : Engine D} {compiled : CompiledRule} {tick : ℤ} {ids : List LicenseId}
    {f : Fact D} {own : List (GroundInstance D × Fact D)}
    (h : ghostPremise e compiled tick ids f = .ok own) :
    (f ∈ e.base.facts ∨ ∃ i, (i,f) ∈ own) ∧
      ∀ x ∈ own, x.2 = f ∧ x.2 ∉ e.base.facts ∧ x.1.toInstanceFields = ⟨x.1.instanceId,
        compiled.ruleId,compiled.rule.ruleVersion,x.2.factKey,[],[],.licensed,tick,[],ids,true⟩ := by
  unfold ghostPremise at h
  split at h
  · rename_i hf
    cases h
    exact ⟨.inl (FactBase.hasFact_iff.mp hf),by simp⟩
  · rename_i hf
    rw [Engine.hasFact,FactBase.hasFact_iff] at hf
    obtain ⟨i,hi,h⟩ := Runs.bind_ok.mp h
    cases h
    refine ⟨.inr ⟨i,by simp⟩,fun x hx => ?_⟩
    rw [List.mem_singleton.mp hx]
    exact ⟨rfl,hf,GroundInstance.mint_ok hi⟩

theorem silentPremises_ok {e : Engine D} {compiled : CompiledRule} {tick : ℤ}
    {ids : List LicenseId} {bound : EntityBinding} {ps : List Pattern}
    {keys : List FactHash} {premises : List (GroundInstance D × Fact D)}
    (h : silentPremises e compiled tick ids bound ps = .ok (some (keys,premises))) :
    ∃ facts : List (Fact D), keys = facts.map (·.factKey) ∧
      List.Forall₂ (Draws bound tick) ps facts ∧
      (∀ f ∈ facts, f ∈ e.base.facts ∨ ∃ i, (i,f) ∈ premises) ∧
      ∀ x ∈ premises, Premise e compiled bound tick ids ps x := by
  induction ps generalizing keys premises with
  | nil =>
    cases h
    exact ⟨[],rfl,.nil,by simp,by simp⟩
  | cons p ps ih =>
    rw [silentPremises] at h
    split at h
    · cases h
    · rename_i args hargs
      obtain ⟨f,hf,h⟩ := Runs.bind_ok.mp h
      obtain ⟨own,hown,h⟩ := Runs.bind_ok.mp h
      obtain ⟨more,hmore,h⟩ := Runs.bind_ok.mp h
      cases more with
      | none => cases h
      | some more =>
        obtain ⟨rfl,rfl⟩ := Prod.mk.inj (Option.some.inj (Runs.pure_ok.mp h))
        obtain ⟨facts,hk,hd,hin,hp⟩ := ih hmore
        obtain ⟨hpred,hfargs,htick⟩ := Fact.mint_ok hf
        have hdraw : Draws bound tick p f := ⟨by rw [hargs,hfargs],hpred,htick⟩
        have hp' : ∀ x ∈ more.2, Premise e compiled bound tick ids (p::ps) x := fun x hx =>
          ⟨(hp x hx).draws.imp fun q hq => ⟨by simp [hq.1],hq.2⟩,(hp x hx).fresh,(hp x hx).fields⟩
        refine ⟨f::facts,by rw [hk]; rfl,.cons hdraw hd,?_,?_⟩
        · rintro g (_ | ⟨_,hg⟩)
          · exact (ghostPremise_ok hown).1.imp id fun ⟨i,hi⟩ => ⟨i,by simp [hi]⟩
          · exact (hin g hg).imp id fun ⟨i,hi⟩ => ⟨i,by simp [hi]⟩
        · intro x hx
          rcases List.mem_append.mp hx with hx | hx
          · obtain ⟨rfl,hno,hfields⟩ := (ghostPremise_ok hown).2 x hx
            exact ⟨⟨p,by simp,hdraw⟩,hno,hfields⟩
          · exact hp' x hx

/-- What one binding of one window adds. -/
structure Silent (e : Engine D) (compiled : CompiledRule) (bound : EntityBinding) (tick : ℤ)
    (ids : List LicenseId) (facts : List (Fact D)) (premises : List (GroundInstance D × Fact D))
    (i : GroundInstance D) (head : Fact D) : Prop where
  body : List.Forall₂ (Draws bound tick) compiled.body facts
  supplied : ∀ f ∈ facts, f ∈ e.base.facts ∨ ∃ j, (j,f) ∈ premises
  premises : ∀ x ∈ premises, Premise e compiled bound tick ids compiled.body x
  drawn : Draws bound tick compiled.head head
  fields : i.toInstanceFields = ⟨i.instanceId,compiled.ruleId,compiled.rule.ruleVersion,
    head.factKey,facts.map (·.factKey),compiled.blockers,.licensed,tick,[],ids,false⟩

theorem silentTurn_cases {compiled : CompiledRule} {tick : ℤ} {span : ℤ × ℤ} {ids : List LicenseId}
    {st st' : SilentState D} {bound : EntityBinding}
    (h : silentTurn C compiled tick span ids st bound = .ok st') :
    st' = st ∧ (∃ p ∈ compiled.head::compiled.body, boundArgs bound p.entityVars = none) ∨
    ∃ facts premises i head, Silent st.engine compiled bound tick ids facts premises i head ∧
      st' = (premises++[(i,head)]).foldl (SilentState.add C (some span)) st := by
  obtain ⟨r,hr,h⟩ := Runs.bind_ok.mp h
  cases r with
  | none =>
    refine .inl ⟨(Runs.pure_ok.mp h).symm,?_⟩
    have hnone : ∀ ps : List Pattern, silentPremises st.engine compiled tick ids bound ps = .ok none →
        ∃ p ∈ ps, boundArgs bound p.entityVars = none := by
      intro ps
      induction ps with
      | nil => intro h; cases h
      | cons p ps ih =>
        intro h
        rw [silentPremises] at h
        split at h
        · rename_i hn; exact ⟨p,by simp,hn⟩
        · obtain ⟨f,-,h⟩ := Runs.bind_ok.mp h
          obtain ⟨own,-,h⟩ := Runs.bind_ok.mp h
          obtain ⟨more,hmore,h⟩ := Runs.bind_ok.mp h
          cases more with
          | none => exact (ih hmore).imp fun q hq => ⟨by simp [hq.1],hq.2⟩
          | some more => cases h
    exact (hnone _ hr).imp fun p hp => ⟨by simp [hp.1],hp.2⟩
  | some r =>
    obtain ⟨keys,premises⟩ := r
    obtain ⟨facts,rfl,hd,hin,hp⟩ := silentPremises_ok hr
    simp only at h
    split at h
    · rename_i hn
      exact .inl ⟨(Runs.pure_ok.mp h).symm,compiled.head,by simp,hn⟩
    · rename_i args hargs
      obtain ⟨head,hh,h⟩ := Runs.bind_ok.mp h
      obtain ⟨i,hi,h⟩ := Runs.bind_ok.mp h
      obtain ⟨hpred,ha,ht⟩ := Fact.mint_ok hh
      exact .inr ⟨facts,premises,i,head,
        ⟨hd,hin,hp,⟨by rw [hargs,ha],hpred,ht⟩,GroundInstance.mint_ok hi⟩,(Runs.pure_ok.mp h).symm⟩

/-! ### The silent stage -/

section Additions

variable {Q : Engine D → GroundInstance D → Fact D → Option (ℤ × ℤ) → Prop}
  {span : Option (ℤ × ℤ)}

theorem add_engine (st : SilentState D) (x : GroundInstance D × Fact D) :
    (st.add C span x).engine = (st.engine.addInstance C x.1 x.2 span).1 := rfl

theorem addAll_grows {l : List (GroundInstance D × Fact D)} {st : SilentState D}
    (hQ : ∀ e, ∀ x ∈ l, Q e x.1 x.2 span) :
    Engine.Grows C False Q st.engine (l.foldl (SilentState.add C span) st).engine := by
  induction l generalizing st with
  | nil => exact .refl
  | cons x l ih =>
    have hx : Engine.Grows C False Q st.engine (st.add C span x).engine :=
      .add .refl (hQ st.engine x (by simp))
    rw [List.foldl_cons]
    exact hx.trans (ih fun e y hy => hQ e y (by simp [hy]))

/-- Additions no ceiling stopped leave their heads behind. -/
theorem addAll_lands {l : List (GroundInstance D × Fact D)} {st : SilentState D}
    (hh : ∀ x ∈ l, x.1.head = x.2.factKey) (he : st.engine.Headed)
    (hc : (l.foldl (SilentState.add C span) st).engine.capped = false) :
    ∀ x ∈ l, x.2 ∈ (l.foldl (SilentState.add C span) st).engine.base.facts := by
  induction l generalizing st with
  | nil => simp
  | cons x l ih =>
    have ha := Engine.addInstance_added C st.engine x.1 x.2 span
    have hgrow : Engine.Grows C False (fun _ i head _ => i.head = head.factKey) (st.add C span x).engine
        (l.foldl (SilentState.add C span) (st.add C span x)).engine :=
      addAll_grows fun _ y hy => hh y (by simp [hy])
    intro y hy
    rcases List.mem_cons.mp hy with rfl | hy
    · exact hgrow.le.facts (ha.lands (hh y (by simp)) he (hgrow.le.capped hc)).1
    · exact ih (fun z hz => hh z (by simp [hz])) (ha.headed (hh x (by simp)) he) hc y hy

end Additions

theorem Silent.heads {e : Engine D} {compiled : CompiledRule} {bound : EntityBinding} {tick : ℤ}
    {ids : List LicenseId} {facts : List (Fact D)} {premises : List (GroundInstance D × Fact D)}
    {i : GroundInstance D} {head : Fact D}
    (h : Silent e compiled bound tick ids facts premises i head) :
    ∀ x ∈ premises++[(i,head)], x.1.head = x.2.factKey := by
  intro x hx
  rcases List.mem_append.mp hx with hx | hx
  · exact congrArg (·.head) (h.premises x hx).fields
  · rw [List.mem_singleton.mp hx]; exact congrArg (·.head) h.fields

theorem silentTurn_grows {compiled : CompiledRule} (hr : compiled ∈ silentRules s.table)
    {w : Interval} {ids : List LicenseId} {st st' : SilentState D} {bound : EntityBinding}
    (he : st.engine.Headed)
    (h : silentTurn C compiled (windowTick w) (windowSpan w) ids st bound = .ok st') :
    Engine.Grows C False (Licenses s) st.engine st'.engine := by
  rcases silentTurn_cases h with ⟨rfl,-⟩ | ⟨facts,premises,i,head,hs,rfl⟩
  · exact .refl
  rw [List.foldl_append]
  have hprem : ∀ e, ∀ x ∈ premises, Licenses s e x.1 x.2 (some (windowSpan w)) := by
    intro e x hx
    obtain ⟨⟨p,hp,hd⟩,-,hf⟩ := hs.premises x hx
    have hb : x.1.body = [] := congrArg (·.body) hf
    exact ⟨⟨w,rfl,hd.2.2⟩,congrArg (·.observed) hf,congrArg (·.head) hf,by simp [hb],
      fun _ => congrArg (·.blockers) hf,compiled,hr,congrArg (·.ruleId) hf,.inl ⟨hb,p,hp,hd.2.1⟩⟩
  have hgrow : Engine.Grows C False (Licenses s) st.engine
      (premises.foldl (SilentState.add C (some (windowSpan w))) st).engine := addAll_grows hprem
  have hb : i.body = facts.map (·.factKey) := congrArg (·.body) hs.fields
  have hne : i.body ≠ [] := by
    intro hn
    have hlen := hs.body.length_eq
    rw [List.map_eq_nil_iff.mp (hb.symm.trans hn)] at hlen
    exact compiled.body_ne_nil (List.length_eq_zero_iff.mp hlen)
  refine hgrow.trans (.add .refl ⟨⟨w,rfl,hs.drawn.2.2⟩,congrArg (·.observed) hs.fields,
    congrArg (·.head) hs.fields,?_,fun hn => absurd hn hne,compiled,hr,congrArg (·.ruleId) hs.fields,
    .inr ⟨hne,hs.drawn.2.1⟩⟩)
  -- the premises the base lacked were added just before
  intro hc k hk
  rw [hb,List.mem_map] at hk
  obtain ⟨f,hf,rfl⟩ := hk
  rcases hs.supplied f hf with hf | ⟨j,hj⟩
  · exact ⟨f,hgrow.le.facts hf,rfl⟩
  · exact ⟨f,addAll_lands (fun x hx => hs.heads x (by simp [hx])) he hc _ hj,rfl⟩

theorem Engine.Headed.grows {taking : Prop} {e u : Engine D} (he : e.Headed)
    (h : Engine.Grows C taking (Licenses s) e u) : u.Headed :=
  h.headed (fun _ _ _ _ h => h.heads) he

theorem recordCap_grows {taking : Prop}
    {Q : Engine D → GroundInstance D → Fact D → Option (ℤ × ℤ) → Prop} (e : Engine D) (d : String) :
    Engine.Grows C taking Q e (e.recordCap d) := by
  have h : Engine.Grows C taking Q e _ := .note .refl e.iterations e.fixpointSteps true
    (if e.capDetail = "" then d else e.capDetail)
  rwa [Bool.or_true] at h

theorem silentBound_grows {compiled : CompiledRule} (hr : compiled ∈ silentRules s.table)
    {w : Interval} {ids : List LicenseId} {bs : List EntityBinding} {st : SilentState D}
    {r : SilentState D × Bool} (he : st.engine.Headed)
    (h : silentBound C compiled (windowTick w) (windowSpan w) ids bs st = .ok r) :
    Engine.Grows C False (Licenses s) st.engine r.1.engine := by
  induction bs generalizing st with
  | nil => cases h; exact .refl
  | cons b bs ih =>
    rw [silentBound] at h
    split at h
    · cases h; exact recordCap_grows _ _
    · obtain ⟨u,hu,h⟩ := Runs.bind_ok.mp h
      have hgrow := silentTurn_grows hr he hu
      exact hgrow.trans (ih (he.grows hgrow) h)

theorem silentWindows_grows {compiled : CompiledRule} (hr : compiled ∈ silentRules s.table)
    {bs : List EntityBinding} {ws : List Interval} {st st' : SilentState D} (he : st.engine.Headed)
    (h : silentWindows C view compiled bs ws st = .ok st') :
    Engine.Grows C False (Licenses s) st.engine st'.engine := by
  induction ws generalizing st with
  | nil => cases h; exact .refl
  | cons w ws ih =>
    obtain ⟨l,-,h⟩ := Runs.bind_ok.mp h
    cases l with
    | none => exact ih he h
    | some licences =>
      obtain ⟨r,hr',h⟩ := Runs.bind_ok.mp h
      have hgrow := silentBound_grows hr (show (st.mint licences).engine.Headed from he) hr'
      split at h
      · cases h; exact hgrow
      · exact hgrow.trans (ih (he.grows hgrow) h)

theorem silentStage_grows {rules : List CompiledRule} (hrules : rules ⊆ silentRules s.table)
    {st st' : SilentState D} (he : st.engine.Headed)
    (h : rules.foldlM (addSilentDetect C view entities) st = .ok st') :
    Engine.Grows C False (Licenses s) st.engine st'.engine := by
  induction rules generalizing st with
  | nil => cases h; exact .refl
  | cons compiled rules ih =>
    obtain ⟨u,hu,h⟩ := Runs.foldlM_cons_ok.mp h
    obtain ⟨ws,-,hu⟩ := Runs.bind_ok.mp hu
    have hgrow := silentWindows_grows (hrules (by simp)) he hu
    exact hgrow.trans (ih (fun _ hc => hrules (by simp [hc])) (he.grows hgrow) h)

/-! ### The obligation stage -/

theorem obligationTriggers_grows {compiled : CompiledRule} (hr : compiled ∈ s.table.obligationRules)
    {within : ℤ} {pattern : Pattern} {triggers : List (Fact D)} {st st' : ObligationState D}
    (ht : ∀ f ∈ triggers, f ∈ st.1.engine.base.facts)
    (h : obligationTriggers C view compiled within pattern triggers st = .ok st') :
    Engine.Grows C False (Obliges s) st.1.engine st'.1.engine := by
  induction triggers generalizing st with
  | nil => cases h; exact .refl
  | cons f triggers ih =>
    have hrest := fun g hg => ht g (List.mem_cons_of_mem f hg)
    rw [obligationTriggers] at h
    split at h
    · exact ih hrest h
    · obtain ⟨head,hhead,h⟩ := Runs.bind_ok.mp h
      split at h
      · exact ih hrest h
      · rename_i hfresh
        rw [Engine.hasFact,FactBase.hasFact_iff] at hfresh
        obtain ⟨w,-,h⟩ := Runs.bind_ok.mp h
        obtain ⟨l,-,h⟩ := Runs.bind_ok.mp h
        cases l with
        | none =>
          exact @ih (st.1,st.2++[_]) hrest h
        | some licences =>
          simp only at h
          split at h
          · cases h; exact recordCap_grows _ _
          · obtain ⟨i,hi,h⟩ := Runs.bind_ok.mp h
            have hf := GroundInstance.mint_ok hi
            have hadd : Engine.Grows C False (Obliges s) st.1.engine
                ((st.1.mint licences).add C none (i,head)).engine :=
              .add .refl ⟨rfl,congrArg (·.observed) hf,congrArg (·.head) hf,hfresh,
                ⟨f,ht f (by simp),congrArg (·.body) hf⟩,compiled,hr,congrArg (·.ruleId) hf,
                (Fact.mint_ok hhead).1⟩
            exact hadd.trans (ih (fun g hg => hadd.le.facts (hrest g hg)) h)

theorem obligationRule_grows {compiled : CompiledRule} (hr : compiled ∈ s.table.obligationRules)
    {st st' : ObligationState D} (h : obligationRule C view st compiled = .ok st') :
    Engine.Grows C False (Obliges s) st.1.engine st'.1.engine := by
  unfold obligationRule at h
  split at h
  · obtain ⟨p,-,h⟩ := Runs.bind_ok.mp h
    exact obligationTriggers_grows hr (fun f hf => (FactBase.mem_factsFor.mp hf).1) h
  · cases h

theorem addObligations_grows {st : SilentState D} {st' : ObligationState D}
    (h : addObligations C view s.table st = .ok st') :
    Engine.Grows C False (Obliges s) st.engine st'.1.engine := by
  obtain ⟨u,hu,h⟩ := Runs.bind_ok.mp h
  cases h
  exact Runs.foldlM_rel (R := fun a b : ObligationState D =>
      Engine.Grows C False (Obliges s) a.1.engine b.1.engine)
    (fun _ => .refl) .trans (fun _ _ _ hr h => obligationRule_grows hr h) hu

/-! ### The stages of the upper engine -/

/-- The states between the stages, from the seeded base to the engine that is snapshotted. -/
structure Stages (C : Ceilings) (s : Setup) (seeded fresh silent second obliged final : Engine D) :
    Prop where
  seed : Engine.empty.seed C s = .ok seeded
  saturated : seeded.saturate C s = .ok fresh
  silenced : Engine.Grows C False (Licenses s) fresh silent
  resaturated : silent.saturate C s = .ok second
  obliges : Engine.Grows C False (Obliges s) second obliged
  finished : obliged.saturate C s = .ok final

theorem freshEngine_ok {e : Engine D} (h : freshEngine D C s = .ok e) :
    ∃ seeded, Engine.empty.seed C s = .ok seeded ∧ seeded.saturate C s = .ok e :=
  Runs.bind_ok.mp h

theorem Engine.Seeded.headed {R : Fact D → CanonicalEvent → Prop} {e : Engine D}
    (h : Engine.Seeded R e) : e.Headed := by
  intro _ i hi
  rw [h.instances] at hi
  cases hi

theorem Engine.Headed.saturate {e e' : Engine D} (he : e.Headed) (h : e.saturate C s = .ok e') :
    e'.Headed :=
  (Engine.saturate_grows h).headed (fun _ _ _ _ h => h.heads) he

theorem upperEngine_stages {ob : ObligationState D}
    (h : upperEngine D C s view entities = .ok ob) : ∃ seeded fresh silent second obliged,
      freshEngine D C s = .ok fresh ∧
      Stages C s seeded fresh silent second obliged ob.1.engine := by
  obtain ⟨fresh,hfresh,h⟩ := Runs.bind_ok.mp h
  obtain ⟨st,hst,h⟩ := Runs.bind_ok.mp h
  obtain ⟨second,hsecond,h⟩ := Runs.bind_ok.mp h
  obtain ⟨ob',hob,h⟩ := Runs.bind_ok.mp h
  obtain ⟨final,hfinal,h⟩ := Runs.bind_ok.mp h
  obtain ⟨-,-,h⟩ := Runs.bind_ok.mp h
  cases h
  obtain ⟨seeded,hseed,hsat⟩ := freshEngine_ok hfresh
  have hheaded := (Engine.seed_seeded hseed).headed.saturate hsat
  exact ⟨seeded,fresh,st.engine,second,ob'.1.engine,hfresh,hseed,hsat,
    silentStage_grows (fun _ h => h) hheaded hst,hsecond,addObligations_grows hob,hfinal⟩

/-- Everything a stage may add to the upper engine. -/
inductive Brackets (s : Setup) (e : Engine D) (i : GroundInstance D) (head : Fact D)
    (span : Option (ℤ × ℤ)) : Prop
  | observes (h : Engine.Observes s e i head span)
  | licenses (h : Licenses s e i head span)
  | obliges (h : Obliges s e i head span)

theorem Brackets.heads {e : Engine D} {i : GroundInstance D} {head : Fact D}
    {span : Option (ℤ × ℤ)} (h : Brackets s e i head span) : i.head = head.factKey := by
  cases h with
  | observes h => exact h.heads
  | licenses h => exact h.heads
  | obliges h => exact h.heads

/-- What is said about the base and the instances, and not about the round being run. -/
def Engine.Steady (P : Engine D → Prop) : Prop :=
  ∀ e d tf sp n k b t, P e → P {e with
    delta := d, timeFreeSnapshot := tf, spanSnapshot := sp, iterations := n, fixpointSteps := k,
    capped := e.capped || b, capDetail := t}

theorem Engine.Steady.opened {P : Engine D → Prop} (hs : Engine.Steady P) {e : Engine D} (h : P e) :
    P e.openRound := by
  have := hs e e.delta e.licensedFacts e.licensedSpan e.iterations e.fixpointSteps false e.capDetail h
  simpa [Engine.openRound] using this

theorem Engine.Steady.grows {P : Engine D → Prop} (hs : Engine.Steady P) {taking : Prop}
    {Q : Engine D → GroundInstance D → Fact D → Option (ℤ × ℤ) → Prop} {e u : Engine D}
    (h : Engine.Grows C taking Q e u) (he : P e)
    (hadd : ∀ v i head span, P v → Q v i head span → P (v.addInstance C i head span).1) : P u := by
  refine h.induct he (fun v i head span _ => hadd v i head span) (fun v n k b d hv => ?_)
    fun v _ hv => ?_
  · exact hs v v.delta v.timeFreeSnapshot v.spanSnapshot n k b d hv
  · have := hs v [] v.timeFreeSnapshot v.spanSnapshot v.iterations v.fixpointSteps false v.capDetail hv
    simpa using this

/-- What every addition keeps holds from the seeded base to the final engine. -/
theorem Stages.induct {seeded fresh silent second obliged final : Engine D}
    (h : Stages C s seeded fresh silent second obliged final) {P : Engine D → Prop}
    (hs : Engine.Steady P) (h0 : P seeded)
    (hadd : ∀ v i head span, P v → Brackets s v i head span → P (v.addInstance C i head span).1) :
    P fresh ∧ P final := by
  have hobs := fun v i head span hv hq => hadd v i head span hv (.observes hq)
  have hfresh := hs.grows (Engine.saturate_grows h.saturated) (hs.opened h0) hobs
  have hsilent := hs.grows h.silenced hfresh fun v i head span hv hq => hadd v i head span hv (.licenses hq)
  have hsecond := hs.grows (Engine.saturate_grows h.resaturated) (hs.opened hsilent) hobs
  have hobliged := hs.grows h.obliges hsecond fun v i head span hv hq => hadd v i head span hv (.obliges hq)
  exact ⟨hfresh,hs.grows (Engine.saturate_grows h.finished) (hs.opened hobliged) hobs⟩

end Spectra
