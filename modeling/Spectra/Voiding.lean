import Spectra.Agreement
import Spectra.LivenessDocument
import Spectra.ProveStage

/-! `spectra_vs.pipeline`, the voiding counterfactual: what is left derivable without the licences that rest
on disputed instants, computed from the axioms of the program that still has them. -/
namespace Spectra

open Cert (Safety)

variable {D : Digest} {C : Ceilings} {s : Setup} {view : LivenessView} {entities : List Entity}
  {pMin : Option (Program D)} {result : EnvelopeResult D}

/-! ### The counterfactual -/

/-- The licences of a program that rest on a disputed instant, by their ids. -/
def disputedLicences (document : Liveness.LivenessDocument) (pMax : Program D) : List LicenseId :=
  ((pMax.licences.filter fun l => Liveness.licenceDisputed document l.sourceId l.t0Ns l.t1Ns).map
    (·.licenseId)).insertionSort (· ≤ ·)

/-- The instances that cite none of the voided licences. -/
def keptInstances (pMax : Program D) (voided : List LicenseId) : List (GroundInstance D) :=
  pMax.instances.filter fun i => !i.licenseIds.any (· ∈ voided)

/-- What the counterfactual propagates over; the axioms are those of the whole program. -/
def voidedProgram (pMax : Program D) (document : Liveness.LivenessDocument) (goalKey : FactHash)
    (library : List FactHash) (evidence : List (FactHash × List EventId)) : Fallible ReachProgram :=
  buildReach pMax goalKey evidence library
    (some ((keptInstances pMax (disputedLicences document pMax)).map (·.toRuleInstance)))

/-- Whether some goal is left derivable. -/
def voidedDerivable (pMax : Program D) (document : Liveness.LivenessDocument) (goalKey : FactHash)
    (library : List FactHash) (evidence : List (FactHash × List EventId)) (cutMask : Mask) :
    Fallible Bool := do
  let p ← voidedProgram pMax document goalKey library evidence
  pure (reach p cutMask).derivable

/-- `_voiding_counterfactual`. -/
def voidingCounterfactual (pMax : Program D) (document : Liveness.LivenessDocument) (goalKey : FactHash)
    (library : List FactHash) (evidence : List (FactHash × List EventId)) (cutMask : Mask)
    (flags : List String) (goalInPmin : Bool) : Fallible (List LicenseId × Option Safety) := do
  let disputed := disputedLicences document pMax
  if disputed = [] then pure ([],none)
  else
    let derivable ← voidedDerivable pMax document goalKey library evidence cutMask
    let safety ← decideSafety flags derivable goalInPmin true false
    pure (disputed,some safety)

/-! ### What it should decide -/

/-- The instance cites no licence that rests on a disputed instant. -/
def Undisputed (document : Liveness.LivenessDocument) (pMax : Program D) (i : GroundInstance D) : Prop :=
  ∀ l ∈ pMax.licences, Liveness.licenceDisputed document l.sourceId l.t0Ns l.t1Ns = true →
    l.licenseId ∉ i.licenseIds

/-- The undisputed instances a cut leaves standing. -/
def Upheld (document : Liveness.LivenessDocument) (pMax : Program D) (cutMask : Mask) :
    Set (Horn.Rule FactHash) :=
  {r | ∃ i ∈ pMax.instances, Undisputed document pMax i ∧
    instanceBlocked i.toInstanceFields cutMask = false ∧ i.toInstanceFields.rule = r}

/-- Under every cut some goal is found derivable exactly when the seeds and the undisputed instances derive
one. -/
def VoidingExact (seeds : Set FactHash) (document : Liveness.LivenessDocument) (pMax : Program D) : Prop :=
  ∀ goalKey library evidence cutMask derivable,
    voidedDerivable pMax document goalKey library evidence cutMask = .ok derivable →
    (derivable = true ↔ ∃ g ∈ goalKey::library, Horn.Derivable seeds (Upheld document pMax cutMask) g)

/-- An axiom that was not seeded keeps an instance; a seeded fact that is no axiom is derived from the
axioms whatever the cut. -/
structure Upholds (seeds : Set FactHash) (document : Liveness.LivenessDocument) (pMax : Program D) :
    Prop where
  premise : ∀ k ∈ pMax.axioms, k ∉ seeds → ∃ i ∈ pMax.instances, Undisputed document pMax i ∧ i.head = k
  seed : ∀ k ∈ seeds, (∃ i ∈ pMax.instances, i.body ≠ [] ∧ i.head = k) →
    Horn.Derivable {a | a ∈ pMax.axioms} (Upheld document pMax (BitVec.allOnes 64)) k

/-! ### The program without the licences -/

theorem reach_derives_iff {p : ReachProgram} {cutMask : Mask} :
    (reach p cutMask).derivable = true ↔ ∃ g ∈ p.goals, p.Derives cutMask g := by
  rw [← not_iff_not,Bool.not_eq_true,reach_derivable,ReachProgram.Severs]
  push Not
  rfl

theorem mem_keptInstances {document : Liveness.LivenessDocument} {pMax : Program D} {i : GroundInstance D} :
    i ∈ keptInstances pMax (disputedLicences document pMax) ↔
      i ∈ pMax.instances ∧ Undisputed document pMax i := by
  have hvoided : ∀ id, id ∈ disputedLicences document pMax ↔ ∃ l ∈ pMax.licences,
      Liveness.licenceDisputed document l.sourceId l.t0Ns l.t1Ns = true ∧ l.licenseId = id := by
    intro id
    rw [disputedLicences,List.mem_insertionSort,List.mem_map]
    simp only [List.mem_filter,and_assoc]
  rw [keptInstances,List.mem_filter]
  refine and_congr_right fun _ => ?_
  simp only [Bool.not_eq_true',List.any_eq_false,decide_eq_true_eq,hvoided,Undisputed]
  constructor
  · intro h l hl hd hid
    exact h l.licenseId hid ⟨l,hl,hd,rfl⟩
  · rintro h id hid ⟨l,hl,hd,rfl⟩
    exact h l hl hd hid

theorem enabledUnder_kept {document : Liveness.LivenessDocument} {pMax : Program D} (cutMask : Mask) :
    enabledUnder ((keptInstances pMax (disputedLicences document pMax)).map (·.toRuleInstance)) cutMask =
      Upheld document pMax cutMask := by
  ext r
  constructor
  · rintro ⟨i,hi,hb,hr⟩
    obtain ⟨kept,hkept,rfl⟩ := List.mem_map.mp hi
    obtain ⟨hin,hu⟩ := mem_keptInstances.mp hkept
    exact ⟨kept,hin,hu,hb,hr⟩
  · rintro ⟨i,hi,hu,hb,hr⟩
    exact ⟨i.toRuleInstance,List.mem_map.mpr ⟨i,mem_keptInstances.mpr ⟨hi,hu⟩,rfl⟩,hb,hr⟩

theorem voidedProgram_ok {pMax : Program D} {document : Liveness.LivenessDocument} {goalKey : FactHash}
    {library : List FactHash} {evidence : List (FactHash × List EventId)} {p : ReachProgram}
    (h : voidedProgram pMax document goalKey library evidence = .ok p) :
    (∀ g, g ∈ p.goals ↔ g ∈ goalKey::library) ∧ ∀ cutMask k, p.Derives cutMask k ↔
      Horn.Derivable {a | a ∈ pMax.axioms} (Upheld document pMax cutMask) k := by
  unfold voidedProgram buildReach ReachProgram.build at h
  simp only at h
  split at h
  · cases h
  · cases h
    refine ⟨fun g => ?_,fun cutMask k => ?_⟩
    · simp only [Option.getD_some]
      by_cases hl : library = []
      · simp [hl]
      · by_cases hg : goalKey ∈ library
        · simp [hl,hg,or_iff_right_of_imp (fun h : g = goalKey => h ▸ hg)]
        · simp [hl,hg,or_comm]
    · rw [ReachProgram.Derives,← enabledUnder_kept]
      rfl

theorem voidedDerivable_ok {pMax : Program D} {document : Liveness.LivenessDocument} {goalKey : FactHash}
    {library : List FactHash} {evidence : List (FactHash × List EventId)} {cutMask : Mask} {derivable : Bool}
    (h : voidedDerivable pMax document goalKey library evidence cutMask = .ok derivable) :
    derivable = true ↔ ∃ g ∈ goalKey::library,
      Horn.Derivable {a | a ∈ pMax.axioms} (Upheld document pMax cutMask) g := by
  obtain ⟨p,hp,h⟩ := Runs.bind_ok.mp h
  cases h
  obtain ⟨hgoals,hderives⟩ := voidedProgram_ok hp
  simp only [reach_derives_iff,hgoals,hderives]

/-- The safety printed is the one of the derivability found. -/
theorem voidingCounterfactual_ok {pMax : Program D} {document : Liveness.LivenessDocument}
    {goalKey : FactHash} {library : List FactHash} {evidence : List (FactHash × List EventId)}
    {cutMask : Mask} {flags : List String} {goalInPmin : Bool} {disputed : List LicenseId} {safety : Safety}
    (h : voidingCounterfactual pMax document goalKey library evidence cutMask flags goalInPmin =
      .ok (disputed,some safety)) :
    disputedLicences document pMax ≠ [] ∧ ∃ derivable,
      voidedDerivable pMax document goalKey library evidence cutMask = .ok derivable ∧
        decideSafety flags derivable goalInPmin true false = .ok safety := by
  unfold voidingCounterfactual at h
  dsimp only at h
  split at h
  · cases h
  · rename_i hne
    obtain ⟨derivable,hd,h⟩ := Runs.bind_ok.mp h
    obtain ⟨found,hs,h⟩ := Runs.bind_ok.mp h
    cases h
    exact ⟨hne,derivable,hd,hs⟩

/-- The call returns for a goal of its own. -/
theorem voidedProgram_returns (pMax : Program D) (document : Liveness.LivenessDocument) (goalKey : FactHash) :
    ∃ p, voidedProgram pMax document goalKey [] [] = .ok p := by
  have hvalid := pMax.valid
  simp only [ProgramFields.postInit,checks_cons,checkStrictlyAscending_ok] at hvalid
  obtain ⟨-,hinstances,-,haxioms,-⟩ := hvalid
  have hfields : ReachFields.postInit ⟨pMax.kind,
      (keptInstances pMax (disputedLicences document pMax)).map (·.toRuleInstance),pMax.axioms,goalKey,
      [goalKey],[]⟩ = .ok () := by
    simp only [ReachFields.postInit,checks_cons,checks_nil,checkStrictlyAscending_ok,ensure_ok,checks_map]
    refine ⟨?_,haxioms,List.pairwise_singleton _ _,List.mem_singleton_self _,List.Pairwise.nil,?_,trivial⟩
    · rw [List.map_map]
      exact List.pairwise_map.mpr ((List.pairwise_map.mp hinstances).filter _)
    · intro i _ term ht
      exact i.blockers_single term ht
  refine ⟨⟨_,hfields⟩,?_⟩
  unfold voidedProgram buildReach ReachProgram.build
  dsimp only [Option.getD_some,List.filter_nil]
  split
  · rename_i e he
    rw [if_pos rfl,if_pos (List.mem_singleton_self _)] at he
    cases hfields.symm.trans he
  · simp

/-! ### When it is exact -/

/-- What a snapshot says about its axioms, its seeds and the instances without a body. -/
structure Anchored (seeds : Set FactHash) (pMax : Program D) : Prop where
  free : ∀ i ∈ pMax.instances, i.body = [] → i.blockers = []
  unsupported : ∀ k ∈ pMax.axioms, ∀ i ∈ pMax.instances, i.body ≠ [] → i.head ≠ k
  seeded : ∀ k ∈ seeds, (∀ i ∈ pMax.instances, i.body ≠ [] → i.head ≠ k) → k ∈ pMax.axioms

section

variable {seeds : Set FactHash} {pMax : Program D} {document : Liveness.LivenessDocument}

theorem Upheld.mono {cutMask : Mask} :
    Upheld document pMax (BitVec.allOnes 64) ⊆ Upheld document pMax cutMask := by
  rintro r ⟨i,hi,hu,hb,hr⟩
  refine ⟨i,hi,hu,Bool.eq_false_iff.mpr fun hblocked => ?_,hr⟩
  have hall : ∀ b, cutMask.getLsbD b = true → (BitVec.allOnes 64).getLsbD b = true := fun b hb =>
    (BitVec.getLsbD_allOnes ..).trans (decide_eq_true (BitVec.lt_of_getLsbD hb))
  cases hb.symm.trans (instanceBlocked_mono hall hblocked)

/-- An undisputed instance without a body stands under every cut. -/
theorem Anchored.fires (ha : Anchored seeds pMax) {i : GroundInstance D} (hi : i ∈ pMax.instances)
    (hu : Undisputed document pMax i) (hn : i.body = []) (cutMask : Mask) (ax : Set FactHash) :
    Horn.Derivable ax (Upheld document pMax cutMask) i.head := by
  refine .fire (r := i.toInstanceFields.rule) ⟨i,hi,hu,?_,rfl⟩ fun b hb => ?_
  · rw [instanceBlocked,ha.free i hi hn]
    rfl
  · rw [InstanceFields.rule,hn] at hb
    cases hb

theorem Upholds.exact (h : Upholds seeds document pMax) (ha : Anchored seeds pMax) :
    VoidingExact seeds document pMax := by
  intro goalKey library evidence cutMask derivable hd
  have haxioms : ∀ k ∈ {a | a ∈ pMax.axioms}, Horn.Derivable seeds (Upheld document pMax cutMask) k := by
    intro k hk
    by_cases hs : k ∈ seeds
    · exact .seed hs
    · obtain ⟨i,hi,hu,rfl⟩ := h.premise k hk hs
      exact ha.fires hi hu (not_not.mp fun hne => ha.unsupported _ hk i hi hne rfl) cutMask seeds
  have hseeds : ∀ k ∈ seeds, Horn.Derivable {a | a ∈ pMax.axioms} (Upheld document pMax cutMask) k := by
    intro k hk
    by_cases hs : ∃ i ∈ pMax.instances, i.body ≠ [] ∧ i.head = k
    · exact (h.seed k hk hs).mono (fun _ => .seed) Upheld.mono
    · push Not at hs
      exact .seed (ha.seeded k hk hs)
  rw [voidedDerivable_ok hd]
  exact ⟨fun ⟨g,hg,h⟩ => ⟨g,hg,h.mono haxioms subset_rfl⟩,fun ⟨g,hg,h⟩ => ⟨g,hg,h.mono hseeds subset_rfl⟩⟩

theorem VoidingExact.upholds (h : VoidingExact seeds document pMax) : Upholds seeds document pMax := by
  -- one fact is the goal, and every control is raised
  have hgoal : ∀ k, Horn.Derivable {a | a ∈ pMax.axioms} (Upheld document pMax (BitVec.allOnes 64)) k ↔
      Horn.Derivable seeds (Upheld document pMax (BitVec.allOnes 64)) k := by
    intro k
    obtain ⟨p,hp⟩ := voidedProgram_returns pMax document k
    have hd : voidedDerivable pMax document k [] [] (BitVec.allOnes 64) =
        .ok (reach p (BitVec.allOnes 64)).derivable := Runs.bind_ok.mpr ⟨p,hp,rfl⟩
    have hall := (voidedDerivable_ok hd).symm.trans (h k [] [] _ _ hd)
    simpa only [List.mem_singleton,exists_eq_left] using hall
  refine ⟨fun k hk hs => ?_,fun k hk _ => (hgoal k).mpr (.seed hk)⟩
  cases (hgoal k).mp (.seed hk) with
  | seed hin => exact absurd hin hs
  | fire hr _ =>
    obtain ⟨i,hi,hu,-,rfl⟩ := hr
    exact ⟨i,hi,hu,rfl⟩

end

/-- The facts the bundle seeds, by their keys. -/
def Engine.keys (e : Engine D) : Set FactHash := {k | ∃ f ∈ e.base.facts, f.factKey = k}

theorem envelope_anchored (h : envelope D C s view entities pMin = .ok result) {seeded : Engine D}
    (hseed : Engine.empty.seed C s = .ok seeded) : Anchored seeded.keys result.pMax := by
  obtain ⟨fresh,final,hb⟩ := envelope_built h
  obtain ⟨licences,hup⟩ := hb.snapshot
  obtain ⟨seeded',silent,second,obliged,hst⟩ := hb.stages
  cases hseed.symm.trans hst.seed
  obtain ⟨ob,hob,hfinal⟩ := hb.upper
  obtain ⟨-,hi,hax⟩ := Engine.snapshot_ok hup
  have hbodied := (upperEngine_staged hob).bodied
  rw [hfinal] at hbodied
  refine ⟨fun i him hn => hbodied.free i ((hi i).mp him) hn,fun k hk i him hne => ?_,fun k hk hun => ?_⟩
  · rw [hax,Engine.mem_snapshotAxioms] at hk
    exact hk.2 i ((hi i).mp him) hne
  · obtain ⟨f,hf,rfl⟩ := hk
    rw [hax,Engine.mem_snapshotAxioms]
    exact ⟨⟨f,hst.rested.2.1 hf,rfl⟩,fun i him => hun i ((hi i).mpr him)⟩

/-- The counterfactual is exact when the premises that count as axioms keep an undisputed instance and no
seeded fact was lost for good, and only then. -/
theorem voiding_exact_iff (h : envelope D C s view entities pMin = .ok result) {seeded : Engine D}
    (hseed : Engine.empty.seed C s = .ok seeded) (document : Liveness.LivenessDocument) :
    VoidingExact seeded.keys document result.pMax ↔ Upholds seeded.keys document result.pMax :=
  ⟨VoidingExact.upholds,fun hu => hu.exact (envelope_anchored h hseed)⟩

/-! ### A disputed silence -/

/-- A timestamp inside the silence of the source cannot be believed. -/
def disputedDocument : Liveness.LivenessDocument where
  modeGlobal := .f0Calibrated
  quantile := "1/2"
  slack := "1/1"
  nMin := 2
  mMin := 1
  sources := [{ source := "iam"
                integrityClass := .chained
                mode := .f0Calibrated
                intervals := [⟨⟨0,10000000000,.blind,.unbracketed,none,[]⟩,by decide⟩]
                blindVolumeNsByReason := [(.unbracketed,10000000000)]
                suppressedVolumeNs := 0
                thresholdNs := none
                thresholdProvenance := none
                regimeThresholds := []
                tamperSuspected := true
                valid := by decide }]
  flags := ⟨false,false,false,false,true,false⟩
  profileId := none
  disputedEvents := [⟨"ev:1","iam",5000000000,by decide⟩]
  valid := by decide

/-- The view of the document. -/
def disputedView : LivenessView :=
  valueOf (Liveness.livenessView disputedDocument) (by decide +kernel)

/-- The payloads of the facts and of the licence of the disputed silence. -/
def disputedDigest : Digest := .tabled [
  factPayload "login" ["en:a"] 20,factPayload "session" ["en:a"] 20,factPayload "login" ["en:a"] 0,
  factPayload "session" ["en:a"] 0,
  do licencePayload .blind "B_UNBRACKETED" "src:iam" (← Interval.of 0 10000000000)]

/-- The login nobody recorded: a premise of the silent session. -/
def premiseKey : FactHash :=
  (valueOf (Fact.mint disputedDigest "login" ["en:a"] 0) (by decide)).factKey

/-- The run on the disputed silence: its premise is found without the disputed licences. -/
def disputedRun := returned (do
    let result ← envelope disputedDigest .source loginSetup disputedView [alice] none
    let seeded ← (Engine.empty : Engine disputedDigest).seed .source loginSetup
    let derivable ← voidedDerivable result.pMax disputedDocument premiseKey [] [] 0
    pure (result,seeded,derivable) : Fallible _)
  (fun r => decide (disputedLicences disputedDocument r.1.pMax ≠ [] ∧ r.2.2 = true ∧
    (∀ f ∈ r.2.1.base.facts, f.factKey ≠ premiseKey) ∧
    ∀ i ∈ keptInstances r.1.pMax (disputedLicences disputedDocument r.1.pMax), i.head ≠ premiseKey))
  (by decide +kernel)

theorem voiding_exact_iff_login : ∃ (result : EnvelopeResult disputedDigest)
    (seeded : Engine disputedDigest),
    envelope disputedDigest .source loginSetup disputedView [alice] none = .ok result ∧
    Engine.empty.seed .source loginSetup = .ok seeded ∧
    (VoidingExact seeded.keys disputedDocument result.pMax ↔
      Upholds seeded.keys disputedDocument result.pMax) := by
  obtain ⟨result,hr,hrun⟩ := Runs.bind_ok.mp disputedRun.2.1
  obtain ⟨seeded,hseed,-⟩ := Runs.bind_ok.mp hrun
  exact ⟨result,seeded,hr,hseed,voiding_exact_iff hr hseed disputedDocument⟩

/-- Its only licence is voided, and it is still there. -/
theorem voided_premise_survives : ¬∀ (D : Digest) (C : Ceilings) (s : Setup) (view : LivenessView)
    (entities : List Entity) (result : EnvelopeResult D) (seeded : Engine D)
    (document : Liveness.LivenessDocument), envelope D C s view entities none = .ok result →
    Engine.empty.seed C s = .ok seeded → disputedLicences document result.pMax ≠ [] →
    VoidingExact seeded.keys document result.pMax := by
  obtain ⟨result,hr,hrun⟩ := Runs.bind_ok.mp disputedRun.2.1
  obtain ⟨seeded,hseed,hrun⟩ := Runs.bind_ok.mp hrun
  obtain ⟨derivable,hdec,hrun⟩ := Runs.bind_ok.mp hrun
  have hc := of_decide_eq_true disputedRun.2.2
  rw [← Runs.pure_ok.mp hrun] at hc
  obtain ⟨hd,hfound,hun,hheads⟩ := hc
  intro hall
  obtain ⟨g,hg,hderived⟩ := (hall _ _ _ _ _ _ _ disputedDocument hr hseed hd _ _ _ _ _ hdec).mp hfound
  obtain rfl := List.mem_singleton.mp hg
  generalize hk : premiseKey = k at hderived hun hheads
  cases hderived with
  | seed hin =>
    obtain ⟨f,hf,hkey⟩ := hin
    exact hun f hf hkey
  | fire hr _ =>
    obtain ⟨i,hi,hu,-,rfl⟩ := hr
    exact hheads i (mem_keptInstances.mpr ⟨hi,hu⟩) rfl

end Spectra
