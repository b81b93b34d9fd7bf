import Spectra.Saturation

/-! The three outcomes of an absence in the two engines: which combinations the bracket holds, and what the
silent stage draws beside them. -/
namespace Spectra

variable {D : Digest} {C : Ceilings} {s : Setup} {view : LivenessView} {entities : List Entity}
  {pMin : Option (Program D)} {result : EnvelopeResult D}

/-! ### What the silent stage draws -/

/-- A joint blind window that licences of every source cover. -/
def BlindWindow (D : Digest) (view : LivenessView) (compiled : CompiledRule) (window : Interval) : Prop :=
  (∃ windows, view.jointBlindWindows compiled.rule.producingSources = .ok windows ∧ window ∈ windows) ∧
    ∃ licences, licencesForWindow D view compiled.rule.producingSources window = .ok (some licences)

/-- A binding draws the facts for the body at the tick of the window, and it binds the head. -/
structure DrawnBy (compiled : CompiledRule) (window : Interval) (bound : EntityBinding)
    (chosen : List (Fact D)) : Prop where
  body : List.Forall₂ (Draws bound (windowTick window)) compiled.body chosen
  head : (boundArgs bound compiled.head.entityVars).isSome = true

/-- The rule may fire silently, and a binding of some blind window draws these facts for it. -/
def SilentlyDrawn (C : Ceilings) (view : LivenessView) (entities : List Entity) (compiled : CompiledRule)
    (chosen : List (Fact D)) : Prop :=
  compiled.rule.silentPossible = true ∧ ∃ window, BlindWindow D view compiled window ∧
    ∃ bound ∈ silentBindings C compiled entities, DrawnBy compiled window bound chosen

/-- What the silent stage may add: a ghost premise, or an instance over facts it drew. -/
def Drafts (C : Ceilings) (s : Setup) (view : LivenessView) (entities : List Entity) (_ : Engine D)
    (i : GroundInstance D) (head : Fact D) (_ : Option (ℤ × ℤ)) : Prop :=
  i.head = head.factKey ∧ (i.body = [] ∨ ∃ compiled ∈ silentRules s.table, ∃ chosen,
    SilentlyDrawn C view entities compiled chosen ∧ i.Of compiled chosen)

theorem Engine.Grows.drafts_headed {e u : Engine D}
    (h : Engine.Grows C False (Drafts C s view entities) e u) (he : e.Headed) : u.Headed :=
  h.headed (fun _ _ _ _ hq => hq.1) he

section Stage

variable {compiled : CompiledRule} {window : Interval} {ids : List LicenseId}

theorem Draws.unique {bound : EntityBinding} {tick : ℤ} {p : Pattern} {f g : Fact D}
    (hf : Draws bound tick p f) (hg : Draws bound tick p g) : f = g :=
  Fact.ext_fields (hf.2.1.trans hg.2.1.symm) (Option.some.inj (hf.1.symm.trans hg.1))
    (hf.2.2.trans hg.2.2.symm)

theorem drawn_unique {bound : EntityBinding} {tick : ℤ} {ps : List Pattern} {fs gs : List (Fact D)}
    (hf : List.Forall₂ (Draws bound tick) ps fs) (hg : List.Forall₂ (Draws bound tick) ps gs) : fs = gs := by
  induction hf generalizing gs with
  | nil => cases hg; rfl
  | cons h _ ih =>
    cases hg with
    | cons h' hrest => rw [h.unique h',ih hrest]

theorem silentTurn_drafts (hr : compiled ∈ silentRules s.table) (hw : BlindWindow D view compiled window)
    {bound : EntityBinding} (hb : bound ∈ silentBindings C compiled entities) {st st' : SilentState D}
    (h : silentTurn C compiled (windowTick window) (windowSpan window) ids st bound = .ok st') :
    Engine.Grows C False (Drafts C s view entities) st.engine st'.engine := by
  rcases silentTurn_cases h with ⟨rfl,-⟩ | ⟨facts,premises,i,head,hs,rfl⟩
  · exact .refl
  refine addAll_grows fun e x hx => ⟨hs.heads x hx,?_⟩
  rcases List.mem_append.mp hx with hx | hx
  · exact .inl (congrArg (·.body) (hs.premises x hx).fields)
  · obtain rfl := List.mem_singleton.mp hx
    refine .inr ⟨compiled,hr,facts,⟨(mem_silentRules.mp hr).2,window,hw,bound,hb,hs.body,?_⟩,
      congrArg (·.ruleId) hs.fields,congrArg (·.body) hs.fields⟩
    rw [hs.drawn.1]
    rfl

/-- A turn no ceiling stopped leaves the instance of what it draws. -/
theorem silentTurn_lands {bound : EntityBinding} {st st' : SilentState D} (he : st.engine.Headed)
    (h : silentTurn C compiled (windowTick window) (windowSpan window) ids st bound = .ok st')
    (hcap : st'.engine.capped = false) {chosen : List (Fact D)} (hd : DrawnBy compiled window bound chosen) :
    ∃ i ∈ st'.engine.instances, i.Of compiled chosen := by
  rcases silentTurn_cases h with ⟨rfl,p,hp,hnone⟩ | ⟨facts,premises,i,head,hs,rfl⟩
  · rcases List.mem_cons.mp hp with rfl | hp
    · exact absurd hd.head (by simp [hnone])
    · obtain ⟨k,hk,rfl⟩ := List.mem_iff_getElem.mp hp
      have hdraw := hd.body.get hk (hd.body.length_eq ▸ hk)
      cases hnone.symm.trans hdraw.1
  · obtain rfl := drawn_unique hs.body hd.body
    rw [List.foldl_append] at hcap ⊢
    have hprem : Engine.Grows C False (fun _ i head _ => i.head = head.factKey) st.engine
        (premises.foldl (SilentState.add C (some (windowSpan window))) st).engine :=
      addAll_grows fun _ x hx => hs.heads x (by simp [hx])
    have hadded := Engine.addInstance_added C
      (premises.foldl (SilentState.add C (some (windowSpan window))) st).engine i head
      (some (windowSpan window))
    obtain ⟨-,j,hj,hid⟩ := hadded.lands (hs.heads (i,head) (by simp))
      (hprem.headed (fun _ _ _ _ hq => hq) he) hcap
    obtain ⟨hrule,-,hbody,-⟩ := GroundInstance.id_inj hid
    exact ⟨j,hj,hrule.trans (congrArg (·.ruleId) hs.fields),hbody.trans (congrArg (·.body) hs.fields)⟩

variable (hr : compiled ∈ silentRules s.table)

include hr in
theorem silentBound_drafts (hw : BlindWindow D view compiled window) {bs : List EntityBinding}
    (hbs : bs ⊆ silentBindings C compiled entities) {st : SilentState D} {r : SilentState D × Bool}
    (h : silentBound C compiled (windowTick window) (windowSpan window) ids bs st = .ok r) :
    Engine.Grows C False (Drafts C s view entities) st.engine r.1.engine := by
  induction bs generalizing st with
  | nil => cases h; exact .refl
  | cons b bs ih =>
    rw [silentBound] at h
    split at h
    · cases h; exact recordCap_grows _ _
    · obtain ⟨u,hu,h⟩ := Runs.bind_ok.mp h
      exact (silentTurn_drafts hr hw (hbs (by simp)) hu).trans (ih (fun _ hb => hbs (by simp [hb])) h)

include hr in
theorem silentBound_lands (hw : BlindWindow D view compiled window) {bs : List EntityBinding}
    (hbs : bs ⊆ silentBindings C compiled entities) {st : SilentState D} {r : SilentState D × Bool}
    (he : st.engine.Headed)
    (h : silentBound C compiled (windowTick window) (windowSpan window) ids bs st = .ok r)
    (hcap : r.1.engine.capped = false) : r.2 = false ∧ ∀ b ∈ bs, ∀ chosen, DrawnBy compiled window b chosen →
      ∃ i ∈ r.1.engine.instances, i.Of compiled chosen := by
  induction bs generalizing st with
  | nil => cases h; simp
  | cons b bs ih =>
    rw [silentBound] at h
    split at h
    · cases h
      cases hcap
    · obtain ⟨u,hu,h⟩ := Runs.bind_ok.mp h
      have hbs' : bs ⊆ silentBindings C compiled entities := fun _ hb => hbs (by simp [hb])
      have hturn := silentTurn_drafts (s := s) hr hw (hbs (by simp)) hu
      have hrest := silentBound_drafts (s := s) hr hw hbs' h
      obtain ⟨hend,hall⟩ := ih hbs' (hturn.drafts_headed he) h
      refine ⟨hend,fun b' hb' chosen hd => ?_⟩
      rcases List.mem_cons.mp hb' with rfl | hb'
      · obtain ⟨i,hi,hof⟩ := silentTurn_lands he hu (hrest.le.capped hcap) hd
        exact ⟨i,hrest.le.instances hi,hof⟩
      · exact hall b' hb' chosen hd

variable {windows : List Interval}
  (hj : view.jointBlindWindows compiled.rule.producingSources = .ok windows)

include hr hj in
theorem silentWindows_drafts {ws : List Interval} (hws : ws ⊆ windows) {st st' : SilentState D}
    (h : silentWindows C view compiled (silentBindings C compiled entities) ws st = .ok st') :
    Engine.Grows C False (Drafts C s view entities) st.engine st'.engine := by
  induction ws generalizing st with
  | nil => cases h; exact .refl
  | cons w ws ih =>
    have hrest : ws ⊆ windows := fun _ hw => hws (by simp [hw])
    obtain ⟨l,hl,h⟩ := Runs.bind_ok.mp h
    cases l with
    | none => exact ih hrest h
    | some licences =>
      obtain ⟨r,hr',h⟩ := Runs.bind_ok.mp h
      have hgrow := silentBound_drafts (s := s) hr ⟨⟨windows,hj,hws (by simp)⟩,licences,hl⟩ (fun _ hb => hb) hr'
      split at h
      · cases h; exact hgrow
      · exact hgrow.trans (ih hrest h)

include hr hj in
theorem silentWindows_lands {ws : List Interval} (hws : ws ⊆ windows) {st st' : SilentState D}
    (he : st.engine.Headed)
    (h : silentWindows C view compiled (silentBindings C compiled entities) ws st = .ok st')
    (hcap : st'.engine.capped = false) : ∀ w ∈ ws, BlindWindow D view compiled w →
      ∀ b ∈ silentBindings C compiled entities, ∀ chosen, DrawnBy compiled w b chosen →
        ∃ i ∈ st'.engine.instances, i.Of compiled chosen := by
  induction ws generalizing st with
  | nil => simp
  | cons w ws ih =>
    have hrest : ws ⊆ windows := fun _ hw => hws (by simp [hw])
    obtain ⟨l,hl,h⟩ := Runs.bind_ok.mp h
    cases l with
    | none =>
      intro w' hw' hblind b hb chosen hd
      rcases List.mem_cons.mp hw' with rfl | hw'
      · obtain ⟨-,licences,hsome⟩ := hblind
        cases hl.symm.trans hsome
      · exact ih hrest he h w' hw' hblind b hb chosen hd
    | some licences =>
      obtain ⟨r,hr',h⟩ := Runs.bind_ok.mp h
      have hblind : BlindWindow D view compiled w := ⟨⟨windows,hj,hws (by simp)⟩,licences,hl⟩
      have hgrow := silentBound_drafts (s := s) hr hblind (fun _ hb => hb) hr'
      have hminted : (st.mint licences).engine.Headed := he
      split at h
      · rename_i hstop
        cases h
        cases hstop.symm.trans (silentBound_lands (s := s) hr hblind (fun _ hb => hb) hminted hr' hcap).1
      · have hmore := silentWindows_drafts (s := s) hr hj hrest h
        have hhere := silentBound_lands (s := s) hr hblind (fun _ hb => hb) hminted hr' (hmore.le.capped hcap)
        intro w' hw' hblind' b hb chosen hd
        rcases List.mem_cons.mp hw' with rfl | hw'
        · obtain ⟨i,hi,hof⟩ := hhere.2 b hb chosen hd
          exact ⟨i,hmore.le.instances hi,hof⟩
        · exact ih hrest (hgrow.drafts_headed he) h w' hw' hblind' b hb chosen hd

end Stage

theorem silentStage_drafts {rules : List CompiledRule} (hrules : rules ⊆ silentRules s.table)
    {st st' : SilentState D} (h : rules.foldlM (addSilentDetect C view entities) st = .ok st') :
    Engine.Grows C False (Drafts C s view entities) st.engine st'.engine := by
  induction rules generalizing st with
  | nil => cases h; exact .refl
  | cons compiled rules ih =>
    obtain ⟨u,hu,h⟩ := Runs.foldlM_cons_ok.mp h
    obtain ⟨ws,hws,hu⟩ := Runs.bind_ok.mp hu
    exact (silentWindows_drafts (hrules (by simp)) hws (fun _ hw => hw) hu).trans
      (ih (fun _ hc => hrules (by simp [hc])) h)

/-- Every combination a blind window's binding draws has an instance when no ceiling was reached. -/
theorem silentStage_lands {rules : List CompiledRule} (hrules : rules ⊆ silentRules s.table)
    {st st' : SilentState D} (he : st.engine.Headed)
    (h : rules.foldlM (addSilentDetect C view entities) st = .ok st') (hcap : st'.engine.capped = false) :
    ∀ compiled ∈ rules, ∀ chosen, SilentlyDrawn C view entities compiled chosen →
      ∃ i ∈ st'.engine.instances, i.Of compiled chosen := by
  induction rules generalizing st with
  | nil => simp
  | cons compiled rules ih =>
    obtain ⟨u,hu,h⟩ := Runs.foldlM_cons_ok.mp h
    obtain ⟨ws,hws,hu⟩ := Runs.bind_ok.mp hu
    have hrest : rules ⊆ silentRules s.table := fun _ hc => hrules (by simp [hc])
    have hr := hrules (List.mem_cons_self ..)
    have hgrow := silentWindows_drafts hr hws (fun _ hw => hw) hu
    have hmore := silentStage_drafts hrest h
    intro c hc chosen hd
    rcases List.mem_cons.mp hc with rfl | hc
    · obtain ⟨-,w,hw,b,hb,hdraw⟩ := hd
      obtain ⟨⟨ws',hws',hin⟩,-⟩ := id hw
      cases hws.symm.trans hws'
      obtain ⟨i,hi,hof⟩ := silentWindows_lands hr hws (fun _ hw => hw) he hu (hmore.le.capped hcap) w hin hw b
        hb chosen hdraw
      exact ⟨i,hmore.le.instances hi,hof⟩
    · exact ih hrest (hgrow.drafts_headed he) h c hc chosen hd

/-! ### Where the instances of a combination come from -/

/-- The clause of the rule is an absence, and this is how it is judged for the facts. -/
def JudgedAbsent (s : Setup) (compiled : CompiledRule) (chosen : List (Fact D)) (judged : Absence) : Prop :=
  ∃ within before pattern anchor window, compiled.temporal = some (.absence within before pattern) ∧
    slotItem chosen before = some anchor ∧
      Interval.of ((anchor.tick-within)*tickNs) (anchor.tick*tickNs) = .ok window ∧
        s.absence compiled.rule.producingSources window = judged

/-- Only an absence judged as observed lets a rule fire. -/
theorem Engine.Emits.judged {e : Engine D} {compiled : CompiledRule} {chosen : List (Fact D)} {bind : Bind}
    {i : GroundInstance D} {head : Fact D} (h : Engine.Emits s e compiled chosen bind i head) {judged : Absence}
    (hj : JudgedAbsent s compiled chosen judged) : judged = .observed := by
  obtain ⟨within,before,pattern,anchor,window,hc,ha,hw,rfl⟩ := hj
  obtain ⟨extra,ht,-⟩ := h.fires
  simp only [Engine.checkTemporal,hc] at ht
  obtain ⟨k,hk,ht⟩ := Runs.bind_ok.mp ht
  obtain ⟨a,hn,ht⟩ := Runs.bind_ok.mp ht
  cases ha.symm.trans (Engine.slotItem_ok hk hn)
  split at ht
  · cases ht
  · obtain ⟨w,hw',ht⟩ := Runs.bind_ok.mp ht
    cases hw.symm.trans hw'
    have := Runs.pure_ok.mp ht
    split at this
    · assumption
    · cases this

/-- The instance was fired by a detect rule on its body. -/
def Fired (s : Setup) (i : GroundInstance D) : Prop :=
  ∃ compiled ∈ s.table.detectRules, ∃ e chosen bind head, Engine.joined [] compiled.body chosen = some bind ∧
    Engine.Emits s e compiled chosen bind i head

theorem Engine.Grows.fired {taking : Prop} {e u : Engine D}
    (h : Engine.Grows C taking (Engine.Observes s) e u) {i : GroundInstance D} (hi : i ∈ u.instances) :
    i ∈ e.instances ∨ Fired s i := by
  rcases h.instance_of hi with hi | ⟨v,head,span,-,⟨-,compiled,hr,chosen,bind,-,hj,hem⟩,-⟩
  · exact .inl hi
  · exact .inr ⟨compiled,hr,v,chosen,bind,head,hj,hem⟩

/-- An instance of a combination that fired was fired on that combination. -/
theorem Fired.of {i : GroundInstance D} (h : Fired s i) {compiled : CompiledRule} {chosen : List (Fact D)}
    (hr : compiled ∈ s.table.detectRules) (hof : i.Of compiled chosen) {judged : Absence}
    (hj : JudgedAbsent s compiled chosen judged) {bind : Bind}
    (hjoin : Engine.joined [] compiled.body chosen = some bind) :
    judged = .observed ∧ headFact D compiled bind ≠ .ok none := by
  obtain ⟨compiled',hr',e,chosen',bind',head,hjoin',hem⟩ := h
  obtain ⟨rfl,rfl⟩ := hof.unique hem.of hr hr'
  cases hjoin.symm.trans hjoin'
  refine ⟨hem.judged hj,fun hn => ?_⟩
  cases hem.head.symm.trans hn

theorem Engine.Seeded.fired {R : Fact D → CanonicalEvent → Prop} {e u : Engine D} (h : Engine.Seeded R e)
    (hu : e.saturate C s = .ok u) {i : GroundInstance D} (hi : i ∈ u.instances) : Fired s i := by
  refine ((Engine.saturate_grows hu).fired hi).resolve_left fun hold => ?_
  have hnone : e.openRound.instances = [] := h.instances
  rw [hnone] at hold
  cases hold

/-- An instance of a detect rule in the upper engine fired or was drawn silently. -/
theorem upperEngine_origin {ob : ObligationState D} (h : upperEngine D C s view entities = .ok ob)
    {compiled : CompiledRule} {chosen : List (Fact D)} (hr : compiled ∈ s.table.detectRules)
    (hne : chosen ≠ []) {i : GroundInstance D} (hi : i ∈ ob.1.engine.instances) (hof : i.Of compiled chosen) :
    Fired s i ∨ SilentlyDrawn C view entities compiled chosen := by
  obtain ⟨fresh,hfresh,h⟩ := Runs.bind_ok.mp h
  obtain ⟨st,hst,h⟩ := Runs.bind_ok.mp h
  obtain ⟨second,hsecond,h⟩ := Runs.bind_ok.mp h
  obtain ⟨ob',hob,h⟩ := Runs.bind_ok.mp h
  obtain ⟨final,hfinal,h⟩ := Runs.bind_ok.mp h
  obtain ⟨-,-,h⟩ := Runs.bind_ok.mp h
  cases h
  obtain ⟨seeded,hseed,hsat⟩ := freshEngine_ok hfresh
  rcases (Engine.saturate_grows hfinal).fired hi with hi | hi
  swap
  · exact .inl hi
  rcases (addObligations_grows hob).instance_of hi with hi | ⟨v,head,span,-,hq,-⟩
  swap
  · -- an obligation's instance names an obligation rule
    obtain ⟨c,hc,hid,-⟩ := hq.rule
    have hsame := RuleTable.ruleId_inj (RuleTable.mem_detectRules.mp hr).1 (List.mem_filter.mp hc).1
      (hof.rule.symm.trans hid)
    have hkind := (RuleTable.mem_detectRules.mp hr).2
    rw [hsame,(List.mem_filter.mp hc).2] at hkind
    cases hkind
  rcases (Engine.saturate_grows hsecond).fired hi with hi | hi
  swap
  · exact .inl hi
  rcases (silentStage_drafts (s := s) (fun _ h => h) hst).instance_of hi with hi | ⟨v,head,span,-,hq,-⟩
  · exact .inl ((Engine.seed_seeded hseed).fired hsat hi)
  · rcases hq.2 with hbody | ⟨c,hc,chosen',hd,hof'⟩
    · exact absurd (List.map_eq_nil_iff.mp (hof.body.symm.trans hbody)) hne
    · obtain ⟨rfl,rfl⟩ := hof.unique hof' hr (mem_silentRules.mp hc).1
      exact .inr hd

/-- What the silent stage draws is in the upper engine when no ceiling was reached. -/
theorem upperEngine_silent {ob : ObligationState D} (h : upperEngine D C s view entities = .ok ob)
    (hcap : ob.1.engine.capped = false) {compiled : CompiledRule} {chosen : List (Fact D)}
    (hr : compiled ∈ s.table.detectRules) (hd : SilentlyDrawn C view entities compiled chosen) :
    ∃ i ∈ ob.1.engine.instances, i.Of compiled chosen := by
  obtain ⟨fresh,hfresh,h⟩ := Runs.bind_ok.mp h
  obtain ⟨st,hst,h⟩ := Runs.bind_ok.mp h
  obtain ⟨second,hsecond,h⟩ := Runs.bind_ok.mp h
  obtain ⟨ob',hob,h⟩ := Runs.bind_ok.mp h
  obtain ⟨final,hfinal,h⟩ := Runs.bind_ok.mp h
  obtain ⟨-,-,h⟩ := Runs.bind_ok.mp h
  cases h
  obtain ⟨seeded,hseed,hsat⟩ := freshEngine_ok hfresh
  have hheaded := (Engine.seed_seeded hseed).headed.saturate hsat
  have h₁ := (Engine.saturate_grows hsecond).le
  have h₂ := (addObligations_grows hob).le
  have h₃ := (Engine.saturate_grows hfinal).le
  obtain ⟨i,hi,hof⟩ := silentStage_lands (fun _ h => h) hheaded hst (h₁.capped (h₂.capped (h₃.capped hcap)))
    compiled (mem_silentRules.mpr ⟨hr,hd.1⟩) chosen hd
  exact ⟨i,h₃.instances (h₂.instances (h₁.instances hi)),hof⟩

/-! ### The bracket of an absence -/

/-- A rule with facts that satisfy its patterns and its guard, none of the lookback, and the judgement of the
absence. The facts are of the programs the instance belongs to. -/
structure AbsenceCombination (s : Setup) (result : EnvelopeResult D) (compiled : CompiledRule)
    (chosen : List (Fact D)) (bind : Bind) (judged : Absence) : Prop where
  rule : compiled ∈ s.table.detectRules
  joins : Engine.joined [] compiled.body chosen = some bind
  guard : evalWhen compiled.when (guardEnv compiled chosen) = true
  drawn : ∀ f ∈ chosen, f ∈ if judged = .observed then result.pMin.facts else result.pMax.facts
  unmet : ∀ f ∈ result.pMin.facts, ¬compiled.Meets chosen bind f
  absent : JudgedAbsent s compiled chosen judged

/-- Observed absences are in both programs, the others in the upper one only. -/
def AbsenceBracketed (result : EnvelopeResult D) (compiled : CompiledRule) (chosen : List (Fact D)) :
    Absence → Prop
  | .observed => (∃ i ∈ result.pMin.instances, i.Of compiled chosen) ∧
      ∃ i ∈ result.pMax.instances, i.Of compiled chosen
  | .licensed | .undetermined => (∃ i ∈ result.pMax.instances, i.Of compiled chosen) ∧
      ¬∃ i ∈ result.pMin.instances, i.Of compiled chosen

/-- The body binds the head of an observed absence; an unresolved one is what the silent stage draws. -/
def AbsenceAdmitted (D : Digest) (C : Ceilings) (view : LivenessView) (entities : List Entity)
    (compiled : CompiledRule) (chosen : List (Fact D)) (bind : Bind) : Absence → Prop
  | .observed => headFact D compiled bind ≠ .ok none
  | .licensed | .undetermined => SilentlyDrawn C view entities compiled chosen

section

variable {compiled : CompiledRule} {chosen : List (Fact D)} {bind : Bind} {judged : Absence}

theorem AbsenceCombination.ne_nil (hc : AbsenceCombination s result compiled chosen bind judged) :
    chosen ≠ [] := by
  rintro rfl
  exact compiled.body_ne_nil (List.length_eq_zero_iff.mp (Engine.joined_length hc.joins).symm)

/-- An observed absence whose head is bound fires in the first saturation. -/
theorem AbsenceCombination.fires {seeded fresh : Engine D}
    (hc : AbsenceCombination s result compiled chosen bind .observed)
    (hfacts : ∀ f, f ∈ result.pMin.facts ↔ f ∈ fresh.base.facts)
    (hseed : Engine.empty.seed C s = .ok seeded) (hsat : seeded.saturate C s = .ok fresh)
    (hcap : fresh.capped = false) (hh : headFact D compiled bind ≠ .ok none) :
    ∃ i ∈ fresh.instances, i.Of compiled chosen := by
  have hs := Engine.seed_seeded hseed
  rw [Engine.saturate_eq] at hsat
  have hdrawn : ∀ f ∈ chosen, f ∈ fresh.base.facts := fun f hf => (hfacts f).mp (by simpa using hc.drawn f hf)
  obtain ⟨u,v,hu,huv,hv⟩ := Engine.ended_visits hs (List.Perm.refl _) hsat hcap hc.rule hdrawn hc.joins
  have hloose : ∀ f ∈ chosen, Loose s f :=
    fun f hf => Engine.ended_loose hs (List.Perm.refl _) hsat f (hdrawn f hf)
  have htimed := hs.openRound_timed.grows hu
  have hg : u.guarded compiled chosen = true := htimed.guarded ▸ hc.guard
  obtain ⟨t,ht,hhead⟩ := Engine.emit_checks huv hg
  have hvcap := hv.le.capped hcap
  have hgrow : Engine.Le u v := by
    rcases Engine.emit_cases huv with rfl | ⟨i,head,-,rfl⟩
    · exact .refl _
    · exact (Engine.addInstance_added C u i head none).le
  -- the lookback holds no match at the time of the visit either
  have hclause : ClauseHolds s {f | f ∈ u.base.facts} compiled chosen bind := by
    obtain ⟨within,before,pattern,anchor,window,hclause,ha,hw,hj⟩ := hc.absent
    simp only [ClauseHolds,hclause]
    exact ⟨fun f hf => hc.unmet f ((hfacts f).mpr (hv.le.facts (hgrow.facts hf))),anchor,ha,window,hw,hj⟩
  obtain ⟨extra,rfl⟩ := Option.isSome_iff_exists.mp ((Engine.checkTemporal_iff htimed ht).mpr hclause)
  have hev : u.evidenceFor compiled chosen extra ≠ [] :=
    hs.evidenceFor hu.le (Engine.evidenced hc.rule hloose hc.joins)
  obtain ⟨hd,hhd⟩ := hhead extra rfl hev
  cases hd with
  | none => exact absurd hhd hh
  | some head =>
    obtain ⟨i,hem,rfl⟩ := Engine.emit_fires huv hg ht hev hhd
    have hheaded : u.Headed := hu.headed (fun _ _ _ _ hq => hq.heads) hs.headed
    obtain ⟨-,j,hj,hid⟩ := (Engine.addInstance_added C u i head none).lands hem.fields.2.1 hheaded hvcap
    obtain ⟨hrule,-,hbody,-⟩ := GroundInstance.id_inj hid
    exact ⟨j,hv.le.instances hj,hrule.trans hem.of.rule,hbody.trans hem.of.body⟩

/-- An observed absence is in both programs when the body binds the head, and an unresolved one is in the
upper program when the silent stage draws it, and only then. -/
theorem absence_bracketed_iff (h : envelope D C s view entities pMin = .ok result)
    (hcap : result.capped = false) (hc : AbsenceCombination s result compiled chosen bind judged) :
    AbsenceBracketed result compiled chosen judged ↔
      AbsenceAdmitted D C view entities compiled chosen bind judged := by
  obtain ⟨fresh,final,hb⟩ := envelope_built h
  obtain ⟨ob,hob,rfl⟩ := hb.upper
  obtain ⟨licences,hup⟩ := hb.snapshot
  obtain ⟨hfacts,hlower,-⟩ := Engine.snapshot_ok hb.lower
  obtain ⟨-,hupper,-⟩ := Engine.snapshot_ok hup
  obtain ⟨seeded,hseed,hsat⟩ := freshEngine_ok hb.observed
  obtain ⟨hupcap,hlowcap⟩ := Bool.or_eq_false_iff.mp (hb.capped.symm.trans hcap)
  have hfired : ∀ i ∈ result.pMin.instances, i.Of compiled chosen →
      judged = .observed ∧ headFact D compiled bind ≠ .ok none := fun i hi hof =>
    ((Engine.seed_seeded hseed).fired hsat ((hlower i).mp hi)).of hc.rule hof hc.absent hc.joins
  have hunresolved : judged ≠ .observed → ((∃ i ∈ result.pMax.instances, i.Of compiled chosen) ∧
      (¬∃ i ∈ result.pMin.instances, i.Of compiled chosen) ↔
        SilentlyDrawn C view entities compiled chosen) := by
    intro hne
    constructor
    · rintro ⟨⟨i,hi,hof⟩,-⟩
      refine (upperEngine_origin hob hc.rule hc.ne_nil ((hupper i).mp hi) hof).resolve_left fun hf => ?_
      exact hne (hf.of hc.rule hof hc.absent hc.joins).1
    · intro hd
      obtain ⟨i,hi,hof⟩ := upperEngine_silent hob hupcap hc.rule hd
      exact ⟨⟨i,(hupper i).mpr hi,hof⟩,fun ⟨j,hj,hof'⟩ => hne (hfired j hj hof').1⟩
  cases judged with
  | observed =>
    constructor
    · rintro ⟨⟨i,hi,hof⟩,-⟩
      exact (hfired i hi hof).2
    · intro hh
      obtain ⟨i,hi,hof⟩ := hc.fires hfacts hseed hsat hlowcap hh
      obtain ⟨seeded',silent,second,obliged,hst⟩ := hb.stages
      exact ⟨⟨i,(hlower i).mpr hi,hof⟩,i,(hupper i).mpr (hst.grown.2 hi),hof⟩
  | licensed => exact hunresolved (by simp)
  | undetermined => exact hunresolved (by simp)

end

/-! ### A lookback nobody watched -/

/-- The sessions before the login are licensed to be missing. -/
def unseenSetup : Setup :=
  {quietSetup with absenceAvailability := some fun _ _ => .licensed}

def unseenLogin : Fact watchDigest := valueOf (Fact.mint watchDigest "login" ["en:a"] 20) login_minted

def unseenRun := returned (envelope watchDigest .source unseenSetup iamView [alice] none)
  (fun result => decide (result.capped = false ∧ unseenLogin ∈ result.pMax.facts ∧
    (∀ f ∈ result.pMin.facts, f.predicate ≠ "session") ∧ result.pMax.instances = [])) (by decide +kernel)

theorem unseen_combination : ∃ result bind,
    envelope watchDigest .source unseenSetup iamView [alice] none = .ok result ∧ result.capped = false ∧
      AbsenceCombination unseenSetup result quietRule [unseenLogin] bind .licensed ∧
        result.pMax.instances = [] := by
  obtain ⟨result,hr,hc⟩ := unseenRun
  obtain ⟨hcap,hlogin,hsessions,hnone⟩ := of_decide_eq_true hc
  have hjoin : (Engine.joined [] quietRule.body [unseenLogin]).isSome = true := by decide
  obtain ⟨bind,hbind⟩ := Option.isSome_iff_exists.mp hjoin
  have hwindow : (Interval.of ((unseenLogin.tick-10)*tickNs) (unseenLogin.tick*tickNs)).isOk = true := by
    decide
  refine ⟨result,bind,hr,hcap,⟨?_,hbind,?_,?_,?_,10,"a",sessionPattern,unseenLogin,_,rfl,?_,
    valueOf_ok _ hwindow,rfl⟩,hnone⟩
  · exact RuleTable.mem_detectRules.mpr ⟨List.mem_singleton_self _,rfl⟩
  · decide
  · simpa using hlogin
  · rintro f hf ⟨anchor,-,-,hu⟩
    rw [unify,if_pos (.inl (hsessions f hf))] at hu
    cases hu
  · decide

theorem absence_bracketed_iff_unseen : ∃ result bind,
    envelope watchDigest .source unseenSetup iamView [alice] none = .ok result ∧
      (AbsenceBracketed result quietRule [unseenLogin] .licensed ↔
        AbsenceAdmitted watchDigest .source iamView [alice] quietRule [unseenLogin] bind .licensed) := by
  obtain ⟨result,bind,hr,hcap,hc,-⟩ := unseen_combination
  exact ⟨result,bind,hr,absence_bracketed_iff hr hcap hc⟩

/-- The upper engine drops the login as the lower one does. -/
theorem licensed_absence_dropped : ¬∀ (D : Digest) (C : Ceilings) (s : Setup) (view : LivenessView)
    (entities : List Entity) (result : EnvelopeResult D) (compiled : CompiledRule) (chosen : List (Fact D))
    (bind : Bind) (judged : Absence), envelope D C s view entities none = .ok result → result.capped = false →
      AbsenceCombination s result compiled chosen bind judged →
        AbsenceBracketed result compiled chosen judged := by
  intro hall
  obtain ⟨result,bind,hr,hcap,hc,hnone⟩ := unseen_combination
  obtain ⟨⟨i,hi,-⟩,-⟩ := hall _ _ _ _ _ _ _ _ _ _ hr hcap hc
  rw [hnone] at hi
  cases hi

end Spectra
