import Spectra.Bracket
import Spectra.CheckerInputs

/-! The two closures over one snapshot: the emitter's, from the axioms of the snapshot, and the
checker's, from the axioms it reads off the published instances. -/
namespace Spectra

variable {D : Digest} {C : Ceilings} {s : Setup} {view : LivenessView} {entities : List Entity}

/-! ### Engines between stages -/

/-- The engines the stages of grounding pass on, in whatever order the stages come. -/
inductive Staged (C : Ceilings) (s : Setup) : Engine D → Prop
  | seeded {e : Engine D} (h : Engine.empty.seed C s = .ok e) : Staged C s e
  | saturated {e e' : Engine D} (h : Staged C s e) (hs : e.saturate C s = .ok e') : Staged C s e'
  | silenced {st st' : SilentState D} {rules : List CompiledRule} {view : LivenessView}
      {entities : List Entity} (h : Staged C s st.engine) (hr : rules ⊆ silentRules s.table)
      (hs : rules.foldlM (addSilentDetect C view entities) st = .ok st') : Staged C s st'.engine
  | obliged {st : SilentState D} {st' : ObligationState D} {view : LivenessView}
      (h : Staged C s st.engine) (ho : addObligations C view s.table st = .ok st') :
      Staged C s st'.1.engine

/-- A program that the snapshot of such an engine makes. -/
def Snapshotted (C : Ceilings) (s : Setup) (program : Program D) : Prop :=
  ∃ e kind licences, Staged C s e ∧ Engine.snapshot e kind licences = .ok program

theorem freshEngine_staged {e : Engine D} (h : freshEngine D C s = .ok e) : Staged C s e := by
  obtain ⟨seeded,hseed,hsat⟩ := freshEngine_ok h
  exact .saturated (.seeded hseed) hsat

theorem upperEngine_staged {ob : ObligationState D}
    (h : upperEngine D C s view entities = .ok ob) : Staged C s ob.1.engine := by
  obtain ⟨fresh,hfresh,h⟩ := Runs.bind_ok.mp h
  obtain ⟨st,hst,h⟩ := Runs.bind_ok.mp h
  obtain ⟨second,hsecond,h⟩ := Runs.bind_ok.mp h
  obtain ⟨ob',hob,h⟩ := Runs.bind_ok.mp h
  obtain ⟨final,hfinal,h⟩ := Runs.bind_ok.mp h
  obtain ⟨-,-,h⟩ := Runs.bind_ok.mp h
  cases h
  have hsilent : Staged C s st.engine :=
    .silenced (show Staged C s (⟨fresh,[],0⟩ : SilentState D).engine from freshEngine_staged hfresh)
      (fun _ hc => hc) hst
  have hob : Staged C s ob'.1.engine :=
    .obliged (show Staged C s ({st with engine := second} : SilentState D).engine from
      .saturated hsilent hsecond) hob
  exact .saturated hob hfinal

theorem ground_snapshotted {result : GroundingResult D} (h : ground D C s = .ok result) :
    Snapshotted C s result.program := by
  obtain ⟨seeded,hseed,h⟩ := Runs.bind_ok.mp h
  obtain ⟨e,hsat,h⟩ := Runs.bind_ok.mp h
  obtain ⟨-,-,h⟩ := Runs.bind_ok.mp h
  obtain ⟨program,hp,h⟩ := Runs.bind_ok.mp h
  cases h
  exact ⟨e,.pMin,[],.saturated (.seeded hseed) hsat,hp⟩

theorem envelope_snapshotted {pMin : Option (Program D)} {result : EnvelopeResult D}
    (h : envelope D C s view entities pMin = .ok result) :
    Snapshotted C s result.pMin ∧ Snapshotted C s result.pMax := by
  obtain ⟨fresh,final,hb⟩ := envelope_built h
  obtain ⟨ob,hob,rfl⟩ := hb.upper
  obtain ⟨licences,hup⟩ := hb.snapshot
  exact ⟨⟨fresh,.pMin,[],freshEngine_staged hb.observed,hb.lower⟩,
    ⟨ob.1.engine,.pMax,licences,upperEngine_staged hob,hup⟩⟩

/-! ### What every stage keeps -/

/-- Bodies are in the base unless a ceiling kept a fact out, and a step without a body is free. -/
structure Engine.Bodied (e : Engine D) : Prop where
  headed : e.Headed
  body : e.capped = false → ∀ i ∈ e.instances, ∀ k ∈ i.body, ∃ f ∈ e.base.facts, f.factKey = k
  free : ∀ i ∈ e.instances, i.body = [] → i.blockers = []

theorem Engine.bodied_steady : Engine.Steady (Engine.Bodied (D := D)) := by
  intro e d tf sp n k b t h
  refine ⟨fun hc => h.headed ?_,fun hc => h.body ?_,h.free⟩
  · exact (Bool.or_eq_false_iff.mp hc).1
  · exact (Bool.or_eq_false_iff.mp hc).1

/-- The body of an addition is in the base, and the addition is free when it has none. -/
theorem Brackets.body {e : Engine D} {i : GroundInstance D} {head : Fact D}
    {span : Option (ℤ × ℤ)} (h : Brackets s e i head span) :
    (e.capped = false → ∀ k ∈ i.body, ∃ f ∈ e.base.facts, f.factKey = k) ∧
      (i.body = [] → i.blockers = []) := by
  cases h with
  | observes h =>
    obtain ⟨-,compiled,-,chosen,bind,hf,hj,he⟩ := h
    rw [he.fields.2.2.1]
    refine ⟨fun _ k hk => ?_,fun hn => absurd ?_ compiled.body_ne_nil⟩
    · obtain ⟨f,hm,rfl⟩ := List.mem_map.mp hk
      exact ⟨f,hf f hm,rfl⟩
    · have hlen := Engine.joined_length hj
      rw [List.map_eq_nil_iff.mp hn] at hlen
      exact List.length_eq_zero_iff.mp hlen.symm
  | licenses h => exact ⟨h.body,h.free⟩
  | obliges h =>
    obtain ⟨trigger,ht,hb⟩ := h.body
    rw [hb]
    refine ⟨fun _ k hk => ⟨trigger,ht,(List.mem_singleton.mp hk).symm⟩,by simp⟩

theorem Engine.bodied_add {e : Engine D} {i : GroundInstance D} {head : Fact D}
    {span : Option (ℤ × ℤ)} (he : e.Bodied) (hb : Brackets s e i head span) :
    (e.addInstance C i head span).1.Bodied := by
  have ha := Engine.addInstance_added C e i head span
  refine ⟨ha.headed hb.heads he.headed,fun hc j hj k hk => ?_,fun j hj hn => ?_⟩
  · have hold : ∃ f ∈ e.base.facts, f.factKey = k := by
      rcases ha.instances hj with hj | rfl
      · exact he.body (ha.le.capped hc) j hj k hk
      · exact hb.body.1 (ha.le.capped hc) k hk
    exact hold.imp fun f hf => ⟨ha.le.facts hf.1,hf.2⟩
  · rcases ha.instances hj with hj | rfl
    · exact he.free j hj hn
    · exact hb.body.2 hn

theorem Staged.bodied {e : Engine D} (h : Staged C s e) : e.Bodied := by
  induction h with
  | seeded h =>
    have hs := Engine.seed_seeded h
    refine ⟨hs.headed,fun _ i hi => ?_,fun i hi => ?_⟩
    · rw [hs.instances] at hi; cases hi
    · rw [hs.instances] at hi; cases hi
  | saturated _ hs ih =>
    exact Engine.bodied_steady.grows (Engine.saturate_grows hs) (Engine.bodied_steady.opened ih)
      fun _ _ _ _ hv hq => Engine.bodied_add hv (.observes hq)
  | silenced _ hr hs ih =>
    exact Engine.bodied_steady.grows (silentStage_grows hr ih.headed hs) ih
      fun _ _ _ _ hv hq => Engine.bodied_add hv (.licenses hq)
  | obliged _ ho ih =>
    exact Engine.bodied_steady.grows (addObligations_grows ho) ih
      fun _ _ _ _ hv hq => Engine.bodied_add hv (.obliges hq)

/-! ### One closure -/

def Observation.text : Observation → String
  | .observed => "OBSERVED"
  | .licensed => "LICENSED"

/-- An instance as the certificate publishes it. -/
def InstanceFields.published (i : InstanceFields) : Checker.Published where
  blockers := i.blockers
  body := i.body
  evidence := i.evidence
  ghost := i.ghost
  head := i.head
  instanceId := i.instanceId
  licenseIds := i.licenseIds
  observed := i.observed.text
  ruleId := i.ruleId
  ruleVersion := i.ruleVersion
  tick := i.tick

def Program.published (p : Program D) : List Checker.Published :=
  p.instances.map fun i => i.toInstanceFields.published

/-- The facts of the instances, as head or in a body. -/
def Program.Occurs (p : Program D) (k : FactHash) : Prop :=
  ∃ i ∈ p.instances, i.head = k ∨ k ∈ i.body

/-- The rules of a program under a cut, from either side. -/
def Program.standing (p : Program D) (cutMask : Mask) : Set (Horn.Rule FactHash) :=
  {r | ∃ i ∈ p.instances, instanceBlocked i.toInstanceFields cutMask = false ∧
    i.toInstanceFields.rule = r}

theorem Program.derives_published {p : Program D} {axioms : List FactHash} {cutMask : Mask}
    {k : FactHash} : Checker.Derives p.published axioms cutMask k ↔
      Horn.Derivable {a | a ∈ axioms} (p.standing cutMask) k := by
  have hrules : {r | ∃ i ∈ p.published, Checker.blocked i.blockers cutMask = false ∧ i.rule = r} =
      p.standing cutMask := by
    ext r
    simp only [published,List.mem_map,exists_exists_and_eq_and,Set.mem_ofPred_eq,standing]
    rfl
  rw [Checker.Derives,hrules]

theorem Program.derives_reach {program : Program D} {kind : ProgramKind} {goal : FactHash}
    {evidence : List (FactHash × List EventId)} {goals : Option (List FactHash)} {p : ReachProgram}
    (h : ReachProgram.build kind (program.instances.map (·.toRuleInstance)) program.axioms goal
      evidence goals = .ok p) {cutMask : Mask} {k : FactHash} :
    p.Derives cutMask k ↔ Horn.Derivable {a | a ∈ program.axioms} (program.standing cutMask) k := by
  unfold ReachProgram.build at h
  simp only at h
  split at h
  · cases h
  · cases h
    have hrules : enabledUnder (program.instances.map (·.toRuleInstance)) cutMask =
        program.standing cutMask := by
      ext r
      simp [enabledUnder,standing]
    rw [ReachProgram.Derives,hrules]

theorem Program.mem_axiomsOf {p : Program D} {k : FactHash} :
    k ∈ Checker.axiomsOf p.published ↔
      (∃ i ∈ p.instances, k ∈ i.body) ∧ ∀ i ∈ p.instances, i.head ≠ k := by
  rw [Checker.mem_axiomsOf]
  simp [published,InstanceFields.published]

/-- The axioms the checker infers are axioms of the snapshot; what the snapshot has beyond
them and occurs at all is the head of a step that no cut takes away. -/
theorem Snapshotted.axioms {program : Program D} (h : Snapshotted C s program)
    (hc : program.capped = false) :
    (∀ k ∈ Checker.axiomsOf program.published, k ∈ program.axioms) ∧
    ∀ k ∈ program.axioms, program.Occurs k → k ∈ Checker.axiomsOf program.published ∨
      ∃ i ∈ program.instances, i.head = k ∧ i.body = [] ∧ i.blockers = [] := by
  obtain ⟨e,kind,licences,hstaged,hsnap⟩ := h
  obtain ⟨-,hi,hax⟩ := Engine.snapshot_ok hsnap
  have hcapped : program.capped = e.capped := by
    obtain ⟨-,rfl⟩ := validated_ok.mp hsnap
    rfl
  rw [hc,eq_comm] at hcapped
  have hb := hstaged.bodied
  refine ⟨fun k hk => ?_,fun k hk ho => ?_⟩
  · obtain ⟨⟨i,him,hk⟩,hheads⟩ := Program.mem_axiomsOf.mp hk
    rw [hax,Engine.mem_snapshotAxioms]
    exact ⟨hb.body hcapped i ((hi i).mp him) k hk,fun j hj _ => hheads j ((hi j).mpr hj)⟩
  · rw [hax,Engine.mem_snapshotAxioms] at hk
    by_cases hheads : ∀ i ∈ program.instances, i.head ≠ k
    · obtain ⟨i,him,hor⟩ := ho
      exact .inl (Program.mem_axiomsOf.mpr ⟨⟨i,him,hor.resolve_left (hheads i him)⟩,hheads⟩)
    · push Not at hheads
      obtain ⟨i,him,rfl⟩ := hheads
      have hn : i.body = [] := by
        by_contra hne
        exact hk.2 i ((hi i).mp him) hne rfl
      exact .inr ⟨i,him,rfl,hn,hb.free i ((hi i).mp him) hn⟩

/-- A fact of some instance is in both closures or in neither. -/
theorem reach_agrees {program : Program D} (h : Snapshotted C s program)
    (hc : program.capped = false) {kind : ProgramKind} {goal : FactHash}
    {evidence : List (FactHash × List EventId)} {goals : Option (List FactHash)} {p : ReachProgram}
    (hp : ReachProgram.build kind (program.instances.map (·.toRuleInstance)) program.axioms goal
      evidence goals = .ok p) (cutMask : Mask) {k : FactHash} (hk : program.Occurs k) :
    k ∈ (reach p cutMask).closure ↔
      k ∈ Checker.reach program.published (Checker.axiomsOf program.published) cutMask := by
  obtain ⟨hsub,hextra⟩ := h.axioms hc
  rw [mem_reach_closure,Checker.mem_reach,Program.derives_reach hp,Program.derives_published]
  constructor
  · refine fun hd => hd.on (S := {k | program.Occurs k}) ?_ ?_ hk
    · rintro r ⟨i,hi,-,rfl⟩ b hb
      exact ⟨i,hi,.inr hb⟩
    · intro a ha ho
      rcases hextra a ha ho with hin | ⟨i,hi,rfl,hbody,hfree⟩
      · exact .seed hin
      · refine .fire (r := i.toInstanceFields.rule) ⟨i,hi,by simp [instanceBlocked,hfree],rfl⟩ ?_
        simp [InstanceFields.rule,hbody]
  · exact fun hd => hd.mono (fun a ha => .seed (hsub a ha)) fun _ hr => hr

/-- The upper program of a silent session, whose premise no record seeds, reached by both. -/
theorem reach_agrees_login : ∃ result p, envelope sampleDigest .source loginSetup iamView [alice]
      none = .ok result ∧
    ReachProgram.build .pMax (result.pMax.instances.map (·.toRuleInstance)) result.pMax.axioms "fh:" []
      none = .ok p ∧ ∃ k, result.pMax.Occurs k ∧ (k ∈ (reach p 1).closure ↔
        k ∈ Checker.reach result.pMax.published (Checker.axiomsOf result.pMax.published) 1) := by
  obtain ⟨result,hr,hrun⟩ := Runs.bind_ok.mp loginRun.2.1
  obtain ⟨_,-,hrun⟩ := Runs.bind_ok.mp hrun
  obtain ⟨_,-,hrun⟩ := Runs.bind_ok.mp hrun
  obtain ⟨p,hp,hrun⟩ := Runs.bind_ok.mp hrun
  have hc := of_decide_eq_true loginRun.2.2
  rw [← Runs.pure_ok.mp hrun] at hc
  obtain ⟨-,hcap,hne⟩ := hc
  obtain ⟨i,hi⟩ := List.exists_mem_of_ne_nil _ hne
  have hk : result.pMax.Occurs i.head := ⟨i,hi,.inl rfl⟩
  exact ⟨result,p,hr,hp,i.head,hk,reach_agrees (envelope_snapshotted hr).2 hcap hp 1 hk⟩

end Spectra
