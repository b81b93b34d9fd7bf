import Spectra.EnvelopeRuns
import Spectra.Goal

/-! The two programs the envelope returns: which facts are their axioms, and that the least
fixpoint of `P_min` lies in that of `P_max` under every cut. -/
namespace Spectra

variable {D : Digest} {C : Ceilings} {s : Setup} {view : LivenessView} {entities : List Entity}
  {pMin : Option (Program D)} {result : EnvelopeResult D}

/-! ### Snapshots -/

theorem Engine.mem_snapshotAxioms {e : Engine D} {k : FactHash} :
    k ∈ e.snapshotAxioms ↔ (∃ f ∈ e.base.facts, f.factKey = k) ∧
      ∀ i ∈ e.instances, i.body ≠ [] → i.head ≠ k := by
  have hs : k ∉ e.supported ↔ ∀ i ∈ e.instances, i.body ≠ [] → i.head ≠ k := by
    simp [Engine.supported]
  rw [Engine.snapshotAxioms,List.mem_insertionSort,List.mem_filter,List.mem_map,
    decide_eq_true_eq,hs]

theorem Engine.snapshot_ok {e : Engine D} {kind : ProgramKind} {licences : List Licence}
    {p : Program D} (h : e.snapshot kind licences = .ok p) :
    (∀ f, f ∈ p.facts ↔ f ∈ e.base.facts) ∧ (∀ i, i ∈ p.instances ↔ i ∈ e.instances) ∧
      p.axioms = e.snapshotAxioms := by
  obtain ⟨-,rfl⟩ := validated_ok.mp h
  exact ⟨fun _ => List.mem_insertionSort _,fun _ => List.mem_insertionSort _,rfl⟩

/-- The engines behind a bracket. -/
structure Built (D : Digest) (C : Ceilings) (s : Setup) (view : LivenessView)
    (entities : List Entity) (result : EnvelopeResult D) (fresh final : Engine D) : Prop where
  observed : freshEngine D C s = .ok fresh
  upper : ∃ ob, upperEngine D C s view entities = .ok ob ∧ ob.1.engine = final
  lower : fresh.snapshot .pMin [] = .ok result.pMin
  snapshot : ∃ licences, final.snapshot .pMax licences = .ok result.pMax
  capped : result.capped = (final.capped || fresh.capped)

theorem envelope_built (h : envelope D C s view entities pMin = .ok result) :
    ∃ fresh final, Built D C s view entities result fresh final := by
  obtain ⟨fresh,hfresh,h⟩ := Runs.bind_ok.mp h
  obtain ⟨lower,hlower,h⟩ := Runs.bind_ok.mp h
  obtain ⟨ob,hob,h⟩ := Runs.bind_ok.mp h
  obtain ⟨upper,hupper,h⟩ := Runs.bind_ok.mp h
  obtain ⟨-,-,h⟩ := Runs.bind_ok.mp h
  obtain ⟨-,-,h⟩ := Runs.bind_ok.mp h
  cases h
  exact ⟨fresh,ob.1.engine,hfresh,⟨ob,hob,rfl⟩,hlower,⟨_,hupper⟩,rfl⟩

variable {fresh final : Engine D}

theorem Built.stages (h : Built D C s view entities result fresh final) :
    ∃ seeded silent second obliged, Stages C s seeded fresh silent second obliged final := by
  obtain ⟨ob,hob,rfl⟩ := h.upper
  obtain ⟨seeded,fresh',silent,second,obliged,hf,hs⟩ := upperEngine_stages hob
  cases h.observed.symm.trans hf
  exact ⟨seeded,silent,second,obliged,hs⟩

theorem Stages.grown {seeded silent second obliged : Engine D}
    (h : Stages C s seeded fresh silent second obliged final) :
    fresh.base.facts ⊆ final.base.facts ∧ fresh.instances ⊆ final.instances := by
  have h₁ := h.silenced.le
  have h₂ := (Engine.saturate_grows h.resaturated).le
  have h₃ := h.obliges.le
  have h₄ := (Engine.saturate_grows h.finished).le
  exact ⟨fun _ hf => h₄.facts (h₃.facts (h₂.facts (h₁.facts hf))),
    fun _ hi => h₄.instances (h₃.instances (h₂.instances (h₁.instances hi)))⟩

/-! ### Axioms -/

/-- The facts of the seeded base stay, and an instance with a body heads none of them
unless a detect rule's head predicate does. -/
def Engine.Rested (s : Setup) (base₀ : List (Fact D)) (e : Engine D) : Prop :=
  base₀ ⊆ e.base.facts ∧ ∀ i ∈ e.instances, i.body ≠ [] → ∃ f : Fact D, f.factKey = i.head ∧
    ((∃ c ∈ s.table.detectRules, f.predicate = c.head.predicate) ∨ f ∉ base₀)

theorem headFact_predicate {compiled : CompiledRule} {bind : Bind} {head : Fact D}
    (h : headFact D compiled bind = .ok (some head)) : head.predicate = compiled.head.predicate := by
  unfold headFact at h
  split at h
  · obtain ⟨f,hf,h⟩ := Runs.bind_ok.mp h
    cases h
    exact (Fact.mint_ok hf).1
  · cases h

theorem Engine.rested_add {base₀ : List (Fact D)} {e : Engine D} {i : GroundInstance D}
    {head : Fact D} {span : Option (ℤ × ℤ)} (he : e.Rested s base₀)
    (hb : Brackets s e i head span) : (e.addInstance C i head span).1.Rested s base₀ := by
  have ha := Engine.addInstance_added C e i head span
  refine ⟨fun _ hf => ha.le.facts (he.1 hf),fun j hj hne => ?_⟩
  rcases ha.instances hj with hj | rfl
  · exact he.2 j hj hne
  refine ⟨head,hb.heads.symm,?_⟩
  cases hb with
  | observes h =>
    obtain ⟨-,compiled,hr,chosen,bind,-,-,hem⟩ := h
    exact .inl ⟨compiled,hr,headFact_predicate hem.head⟩
  | licenses h =>
    obtain ⟨compiled,hr,-,⟨hb,-⟩ | ⟨-,hp⟩⟩ := h.rule
    · exact absurd hb hne
    · exact .inl ⟨compiled,(mem_silentRules.mp hr).1,hp⟩
  | obliges h => exact .inr fun hm => h.fresh (he.1 hm)

theorem Engine.rested_steady {base₀ : List (Fact D)} : Engine.Steady (Engine.Rested s base₀) :=
  fun _ _ _ _ _ _ _ _ h => h

theorem Stages.rested {seeded silent second obliged : Engine D}
    (h : Stages C s seeded fresh silent second obliged final) :
    fresh.Rested s seeded.base.facts ∧ final.Rested s seeded.base.facts := by
  refine h.induct Engine.rested_steady ⟨fun _ h => h,fun i hi => ?_⟩ fun _ _ _ _ => Engine.rested_add
  rw [(Engine.seed_seeded h.seed).instances] at hi
  cases hi

/-- A fact of the observed base was seeded or is the head of an instance with a body. -/
theorem Stages.origin {seeded silent second obliged : Engine D}
    (h : Stages C s seeded fresh silent second obliged final) {f : Fact D}
    (hf : f ∈ fresh.base.facts) :
    f ∈ seeded.base.facts ∨ (∃ c ∈ s.table.detectRules, f.predicate = c.head.predicate) ∧
      ∃ i ∈ fresh.instances, i.head = f.factKey ∧ i.body ≠ [] := by
  refine ((Engine.saturate_grows h.saturated).fact_of hf).imp id ?_
  rintro ⟨v,i,span,-,⟨-,compiled,hr,chosen,bind,-,hj,he⟩,hi⟩
  refine ⟨⟨compiled,hr,headFact_predicate he.head⟩,i,hi,he.fields.2.1,fun hn => compiled.body_ne_nil ?_⟩
  have hlen := Engine.joined_length hj
  rw [he.fields.2.2.1,List.map_eq_nil_iff] at hn
  exact List.length_eq_zero_iff.mp (hlen.symm.trans (by rw [hn]; rfl))

/-- No bundle event type is the head predicate of a detect rule. -/
def Setup.HeadsApart (s : Setup) : Prop :=
  ∀ ev ∈ s.events, ∀ c ∈ s.table.detectRules, ev.eventType ≠ c.head.predicate

theorem Engine.Recorded.predicate {f : Fact D} {ev : CanonicalEvent} (h : Engine.Recorded s f ev) :
    f.predicate = ev.eventType :=
  (Fact.mint_ok h.2).1

theorem Engine.Rested.unheaded {seeded e : Engine D} (hs : s.HeadsApart)
    (hseed : Engine.Seeded (Engine.Recorded s) seeded) (he : e.Rested s seeded.base.facts)
    {f : Fact D} (hf : f ∈ seeded.base.facts) : ∀ i ∈ e.instances, i.body ≠ [] → i.head ≠ f.factKey := by
  intro i hi hne hh
  obtain ⟨g,hg,hor⟩ := he.2 i hi hne
  cases Fact.key_inj (hg.trans hh)
  rcases hor with ⟨c,hc,hp⟩ | hn
  · obtain ⟨ev,hev⟩ := hseed.origin f hf
    exact hs ev hev.1 c hc (hev.predicate.symm.trans hp)
  · exact hn hf

/-- The axioms of `P_min` are the seeded facts, and `P_max` keeps them. -/
theorem Built.axioms_subset (h : Built D C s view entities result fresh final)
    (hs : s.HeadsApart) : result.pMin.axioms ⊆ result.pMax.axioms := by
  obtain ⟨seeded,silent,second,obliged,hst⟩ := h.stages
  obtain ⟨licences,hup⟩ := h.snapshot
  intro k hk
  rw [(Engine.snapshot_ok h.lower).2.2,Engine.mem_snapshotAxioms] at hk
  obtain ⟨⟨f,hf,rfl⟩,hun⟩ := hk
  rw [(Engine.snapshot_ok hup).2.2,Engine.mem_snapshotAxioms]
  rcases hst.origin hf with hseed | ⟨-,i,hi,hh,hne⟩
  · exact ⟨⟨f,hst.grown.1 hf,rfl⟩,hst.rested.2.unheaded hs (Engine.seed_seeded hst.seed) hseed⟩
  · exact absurd hh (hun i hi hne)

/-- The bracket under every cut: what `P_min` still derives, `P_max` still derives. -/
theorem envelope_reach_subset (h : envelope D C s view entities pMin = .ok result)
    (hs : s.HeadsApart) {goal goal' : FactHash} {evidence evidence' : List (FactHash × List EventId)}
    {library library' : List FactHash} {p q : ReachProgram}
    (hp : buildReach result.pMin goal evidence library none = .ok p)
    (hq : buildReach result.pMax goal' evidence' library' none = .ok q) (cutMask : Mask) :
    (reach p cutMask).closure ⊆ (reach q cutMask).closure := by
  obtain ⟨fresh,final,hb⟩ := envelope_built h
  obtain ⟨hpa,hpi⟩ := buildReach_ok hp
  obtain ⟨hqa,hqi⟩ := buildReach_ok hq
  obtain ⟨licences,hup⟩ := hb.snapshot
  obtain ⟨seeded,silent,second,obliged,hst⟩ := hb.stages
  intro k hk
  rw [mem_reach_closure] at hk ⊢
  refine hk.mono (fun a ha => .seed ?_) ?_
  · rw [Set.mem_ofPred_eq,hpa] at ha
    rw [Set.mem_ofPred_eq,hqa]
    exact hb.axioms_subset hs ha
  · rintro r ⟨i,hi,hblock,rfl⟩
    rw [hpi,List.mem_map] at hi
    obtain ⟨j,hj,rfl⟩ := hi
    refine ⟨j.toRuleInstance,?_,hblock,rfl⟩
    rw [hqi,List.mem_map]
    exact ⟨j,((Engine.snapshot_ok hup).2.1 j).mpr
      (hst.grown.2 (((Engine.snapshot_ok hb.lower).2.1 j).mp hj)),rfl⟩

/-! ### Seeded facts -/

/-- The fact is an axiom of both programs and survives every cut of both. -/
def Unseverable (result : EnvelopeResult D) (f : Fact D) : Prop :=
  f.factKey ∈ result.pMin.axioms ∧ f.factKey ∈ result.pMax.axioms ∧
    ∀ goal evidence library p, buildReach result.pMin goal evidence library none = .ok p ∨
        buildReach result.pMax goal evidence library none = .ok p →
      ∀ cutMask, f.factKey ∈ (reach p cutMask).closure

theorem unseverable_iff {f : Fact D} : Unseverable result f ↔
    f.factKey ∈ result.pMin.axioms ∧ f.factKey ∈ result.pMax.axioms := by
  refine ⟨fun h => ⟨h.1,h.2.1⟩,fun h => ⟨h.1,h.2,fun goal evidence library p hp cutMask => ?_⟩⟩
  rw [mem_reach_closure]
  refine .seed ?_
  rcases hp with hp | hp
  · rw [Set.mem_ofPred_eq,(buildReach_ok hp).1]; exact h.1
  · rw [Set.mem_ofPred_eq,(buildReach_ok hp).1]; exact h.2

/-- No instance with a body heads a seeded fact when the upper engine is snapshotted. -/
def SeedsRest (s : Setup) (base : List (Fact D)) (e : Engine D) : Prop :=
  ∀ f ev, Engine.Recorded s f ev → f ∈ base → ∀ i ∈ e.instances, i.body ≠ [] → i.head ≠ f.factKey

/-- Seeded facts are unseverable exactly when no grounded instance heads one; event types
that are no detect rule's head predicate are enough. -/
theorem envelope_seeds_unseverable_iff (h : envelope D C s view entities pMin = .ok result)
    {ob : ObligationState D} (hob : upperEngine D C s view entities = .ok ob) :
    ((∀ f ev, Engine.Recorded s f ev → f ∈ result.pMin.facts → Unseverable result f) ↔
      SeedsRest s result.pMin.facts ob.1.engine) ∧
    (s.HeadsApart → SeedsRest s result.pMin.facts ob.1.engine) := by
  obtain ⟨fresh,final,hb⟩ := envelope_built h
  obtain ⟨licences,hup⟩ := hb.snapshot
  obtain ⟨seeded,silent,second,obliged,hst⟩ := hb.stages
  obtain ⟨ob',hob',hfinal⟩ := hb.upper
  cases hob.symm.trans hob'
  rw [hfinal]
  have hlow := Engine.snapshot_ok hb.lower
  have hmax := Engine.snapshot_ok hup
  refine ⟨⟨fun hall f ev hev hf => ?_,fun hrest f ev hev hf => unseverable_iff.mpr ⟨?_,?_⟩⟩,?_⟩
  · have hx := (hall f ev hev hf).2.1
    rw [hmax.2.2,Engine.mem_snapshotAxioms] at hx
    exact hx.2
  · rw [hlow.2.2,Engine.mem_snapshotAxioms]
    exact ⟨⟨f,(hlow.1 f).mp hf,rfl⟩,fun i hi => hrest f ev hev hf i (hst.grown.2 hi)⟩
  · rw [hmax.2.2,Engine.mem_snapshotAxioms]
    exact ⟨⟨f,hst.grown.1 ((hlow.1 f).mp hf),rfl⟩,hrest f ev hev hf⟩
  · intro hs f ev hev hf i hi hne hh
    obtain ⟨g,hg,hor⟩ := hst.rested.2.2 i hi hne
    cases Fact.key_inj (hg.trans hh)
    rcases hor with ⟨c,hc,hp⟩ | hn
    · exact hs ev hev.1 c hc (hev.predicate.symm.trans hp)
    · rcases hst.origin ((hlow.1 f).mp hf) with hseed | ⟨⟨c,hc,hp⟩,-⟩
      · exact hn hseed
      · exact hs ev hev.1 c hc (hev.predicate.symm.trans hp)

/-! ### One silent session -/

def loginPattern : Pattern where
  predicate := "login"
  vars := ["user","t"]
  valid := by decide

def sessionPattern : Pattern where
  predicate := "session"
  vars := ["user","t"]
  valid := by decide

/-- A session at the tick of a login; the rule may fire silently. -/
def sessionRule : CompiledRule where
  rule := ⟨"rl:r0001","1.0.0",.detect,["src:iam"],true,""⟩
  head := sessionPattern
  body := [loginPattern]
  when := none
  blockers := [1]
  temporal := none
  silentBindKinds := [("user","account")]
  valid := by decide
  kindsSorted := by decide

def sessionTable : RuleTable := ⟨[sessionRule],by decide⟩

def alice : Entity := ⟨"en:a","account","alice"⟩

def loginRecord : CanonicalEvent where
  eventId := "ev:1"
  sourceId := "src:iam"
  seq := 0
  eventType := "login"
  tEvtNs := 20000000000
  valid := by decide

def sessionRecord : CanonicalEvent where
  eventId := "ev:2"
  sourceId := "src:iam"
  seq := 1
  eventType := "session"
  tEvtNs := 20000000000
  valid := by decide

/-- The source is blind for its first ten seconds. -/
def iamView : LivenessView where
  sources := [⟨"src:iam",[⟨0,10000000000,.blind,"silence",[],by decide⟩],by decide⟩]
  valid := by decide

/-- The payloads of the facts and of the licence the samples mint. -/
def sampleDigest : Digest := .tabled [
  factPayload "login" ["en:a"] 20,factPayload "session" ["en:a"] 20,factPayload "login" ["en:a"] 0,
  factPayload "session" ["en:a"] 0,
  do licencePayload .blind "silence" "src:iam" (← Interval.of 0 10000000000)]

def loginSetup : Setup :=
  ⟨sessionTable,[loginRecord],[⟨"ev:1","user","en:a"⟩],none⟩

theorem loginSetup_headsApart : loginSetup.HeadsApart := by
  unfold Setup.HeadsApart
  decide +kernel

/-- The run on the login, with what is indexed of the two programs. -/
def loginRun := returned (do
    let result ← envelope sampleDigest .source loginSetup iamView [alice] none
    let p ← buildReach result.pMin "fh:" [] [] none
    let q ← buildReach result.pMax "fh:" [] [] none
    let u ← ReachProgram.build .pMax (result.pMax.instances.map (·.toRuleInstance)) result.pMax.axioms
      "fh:" [] none
    pure (result,p,q,u) : Fallible _)
  (fun r => decide (r.1.capped = false ∧ r.1.pMax.capped = false ∧ r.1.pMax.instances ≠ []))
  (by decide +kernel)

theorem envelope_reach_subset_login : ∃ result p q,
    envelope sampleDigest .source loginSetup iamView [alice] none = .ok result ∧
    buildReach result.pMin "fh:" [] [] none = .ok p ∧ buildReach result.pMax "fh:" [] [] none = .ok q ∧
    (reach p 1).closure ⊆ (reach q 1).closure := by
  obtain ⟨result,hr,hrun⟩ := Runs.bind_ok.mp loginRun.2.1
  obtain ⟨p,hp,hrun⟩ := Runs.bind_ok.mp hrun
  obtain ⟨q,hq,-⟩ := Runs.bind_ok.mp hrun
  exact ⟨result,p,q,hr,hp,hq,envelope_reach_subset hr loginSetup_headsApart hp hq 1⟩

/-- The second record's type is the head predicate of the rule. -/
def sessionSetup : Setup :=
  ⟨sessionTable,[loginRecord,sessionRecord],
    [⟨"ev:1","user","en:a"⟩,⟨"ev:2","user","en:a"⟩],none⟩

def sessionFact : Fact sampleDigest :=
  valueOf (Fact.mint sampleDigest "session" ["en:a"] 20) (by decide)

/-- The run on both records, with what is indexed of the programs and the engine above. -/
def sessionRun := returned (do
    let result ← envelope sampleDigest .source sessionSetup iamView [alice] none
    let p ← buildReach result.pMin "fh:" [] [] none
    let q ← buildReach result.pMax "fh:" [] [] none
    let ob ← upperEngine sampleDigest .source sessionSetup iamView [alice]
    pure (result,p,q,ob) : Fallible _)
  (fun r => decide (sessionFact ∈ r.1.pMin.facts ∧ sessionFact.factKey ∉ r.1.pMin.axioms ∧
    sessionFact.factKey ∉ (reach r.2.1 1).closure ∧ sessionFact.factKey ∉ (reach r.2.2.1 1).closure))
  (by decide +kernel)

/-- The session is recorded, and the mask of the rule's blocker severs it in both programs. -/
theorem envelope_seed_severed : ∃ result p q,
    envelope sampleDigest .source sessionSetup iamView [alice] none = .ok result ∧
    buildReach result.pMin "fh:" [] [] none = .ok p ∧ buildReach result.pMax "fh:" [] [] none = .ok q ∧
    Engine.Recorded sessionSetup sessionFact sessionRecord ∧
    sessionFact ∈ result.pMin.facts ∧ sessionFact.factKey ∉ result.pMin.axioms ∧
    sessionFact.factKey ∉ (reach p 1).closure ∧ sessionFact.factKey ∉ (reach q 1).closure := by
  obtain ⟨result,hr,hrun⟩ := Runs.bind_ok.mp sessionRun.2.1
  obtain ⟨p,hp,hrun⟩ := Runs.bind_ok.mp hrun
  obtain ⟨q,hq,hrun⟩ := Runs.bind_ok.mp hrun
  obtain ⟨ob,-,hrun⟩ := Runs.bind_ok.mp hrun
  have hc := of_decide_eq_true sessionRun.2.2
  rw [← Runs.pure_ok.mp hrun] at hc
  exact ⟨result,p,q,hr,hp,hq,⟨by simp [sessionSetup],valueOf_ok _ _⟩,hc⟩

theorem envelope_seeds_unseverable_iff_session : ∃ result ob,
    envelope sampleDigest .source sessionSetup iamView [alice] none = .ok result ∧
    upperEngine sampleDigest .source sessionSetup iamView [alice] = .ok ob ∧
    ((∀ f ev, Engine.Recorded sessionSetup f ev → f ∈ result.pMin.facts → Unseverable result f) ↔
      SeedsRest sessionSetup result.pMin.facts ob.1.engine) ∧
    (sessionSetup.HeadsApart → SeedsRest sessionSetup result.pMin.facts ob.1.engine) := by
  obtain ⟨result,hr,hrun⟩ := Runs.bind_ok.mp sessionRun.2.1
  obtain ⟨_,-,hrun⟩ := Runs.bind_ok.mp hrun
  obtain ⟨_,-,hrun⟩ := Runs.bind_ok.mp hrun
  obtain ⟨ob,hob,-⟩ := Runs.bind_ok.mp hrun
  exact ⟨result,ob,hr,hob,envelope_seeds_unseverable_iff hr hob⟩

end Spectra
