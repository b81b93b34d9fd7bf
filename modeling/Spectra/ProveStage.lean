import Spectra.CutProbe
import Spectra.Verdict

/-! `spectra_vs.pipeline`, the verdict half of the prove stage: the flags of a run, the safety
decided for each cut of the bracket, the witness trees published beside it and the verdicts
built from both. -/
namespace Spectra

open Cert (Safety Verdict VerdictProposal)

/-! ### The bracket of searches -/

structure Bracket where
  lower : CutSearch
  upper : CutSearch

def twoSidedBracket (D : Digest) (pMin pMax : ReachProgram) (atoms : AtomTable)
    (budget corridorCap : ℤ) : Fallible Bracket := do
  ensure (pMin.kind = .pMin) (ErrorType.schemaError.mk
    "two_sided_bracket: the lower side must be a PMin program")
  ensure (pMax.kind = .pMax) (ErrorType.schemaError.mk
    "two_sided_bracket: the upper side must be a PMax program")
  let lower ← enumeratePsi D pMin atoms budget corridorCap
  let upper ← enumeratePsi D pMax atoms budget corridorCap
  pure ⟨lower,upper⟩

def Bracket.corridorCap (b : Bracket) : Bool := b.lower.corridorCapHit || b.upper.corridorCapHit

/-! ### What the stage reads of the liveness document -/

structure SourceEntry where
  sourceId : SourceId
  tamperSuspected : Bool
  deriving DecidableEq, Repr

structure LivenessDocument where
  sources : List SourceEntry
  verdictTamperSensitive : Bool
  valid : checkStrictlyAscending "sources" (sources.map (·.sourceId)) = .ok ()
  deriving DecidableEq

def LivenessDocument.tamperBlocksRobust (document : LivenessDocument) : Bool :=
  document.sources.any (·.tamperSuspected)

/-! ### Flags, safety and the verdict -/

/-- The flags the earlier stages hand over. -/
structure RunFlags where
  groundingCapped : Bool
  erAmbiguous : Bool
  quarantined : Bool
  deriving DecidableEq, Repr

def flagBit (name : String) : ℕ := ((Cert.flagByName name).map (·.bit)).getD 0

/-- The raised flags in bit order. -/
def flagsFor (groundingCapped corridorCap erAmbiguous quarantined profileMissing
    atomsOverBudget : Bool) : List String :=
  let named := [("grounding_capped",groundingCapped),("corridor_cap",corridorCap),
    ("atoms_over_budget",atomsOverBudget),("er_ambiguous",erAmbiguous),
    ("quarantined_records",quarantined),("profile_missing",profileMissing)]
  ((named.filter (·.2)).map (·.1)).insertionSort fun a b => flagBit a ≤ flagBit b

def decideSafety (flags : List String) (goalInPmax goalInPmin pmaxTerminated
    tamperBlocksRobust : Bool) : Fallible Safety := do
  let mask ← Cert.flagsMask flags
  if mask &&& Cert.soundnessMask = 0 then
    if !goalInPmax && pmaxTerminated && !tamperBlocksRobust then pure .robust
    else if goalInPmin then pure .unsafeVerdict
    else pure .optimisticOnly
  else if goalInPmin then pure .unsafeVerdict
  else pure .indeterminate

def proposedClass (safety : Safety) (flags : List String) (witnessHasSilent : Bool) :
    Option Cert.WitnessClass :=
  if safety ≠ .unsafeVerdict then none
  else if "er_ambiguous" ∈ flags then some .contested
  else if witnessHasSilent then some .licensed
  else some .observed

def buildVerdict (safety : Safety) (minimality : Minimality) (flags : List String)
    (witnessHasSilent : Bool) (liveness : LivenessDocument) : Fallible Verdict := do
  let proposal : VerdictProposal := ⟨safety,minimality,flags,Cert.derivedSuppressedAlways,.unchecked,
    proposedClass safety flags witnessHasSilent⟩
  let token ← if safety = .robust then
      (Cert.mintNoTamperToken ((liveness.sources.filter (·.tamperSuspected)).map (·.sourceId))
        liveness.verdictTamperSensitive liveness.sources.length).map some
    else pure none
  -- neither fact about the witnesses is passed, so both stand at their defaults
  Verdict.build proposal token false false true

/-! ### Witness trees -/

/-- A step the certificate has no word for, or the error a constructor raised. -/
inductive WitnessRefusal where
  | unrepresentable (instanceId : InstanceId)
  | raised (e : SpectraError)

def witnessKinds : WitnessKind → Option Cert.StepKind
  | .observedKind => some .observed
  | .ghostKind => some .ghost
  | .licensedKind => some .licensed
  | .axiomKind => none

mutual
/-- A derivation in the certificate's shape; an axiom leaf is not published. -/
def certWitness : WitnessNode → Except WitnessRefusal (Option Cert.Node)
  | .node _ _ none _ _ => .ok none
  | .node head kind (some instanceId) evidence children =>
    match witnessKinds kind with
    | none => .error (.unrepresentable instanceId)
    | some kind => do
      let children ← certChildren children
      match h : Cert.checkNode kind (evidence.insertionSort (· ≤ ·)) with
      | .error e => .error (.raised e)
      | .ok () => pure (some (.node instanceId head kind (evidence.insertionSort (· ≤ ·)) children h))
def certChildren : List WitnessNode → Except WitnessRefusal (List Cert.Node)
  | [] => .ok []
  | t::ts => do
    let node ← certWitness t
    let rest ← certChildren ts
    pure (node.toList++rest)
end

structure PublishedTrees where
  entries : List Cert.WitnessEntry
  hasSilent : Bool
  complaints : List String

/-- The levels of a cut, one control left out. -/
def levelsWithout (cut : Cut) (control : ControlId) : ControlId → ℕ := fun c =>
  if c = control then 0
  else ((cut.atoms.filter (·.controlId = c)).map (·.level)).foldl max 0

/-- Publish the derivation that re-appears when the control is dropped, if one does. -/
def witnessWithout (upper : ReachProgram) (atoms : AtomTable) (cut : Cut) (st : PublishedTrees)
    (control : ControlId) : Fallible PublishedTrees := do
  let probe ← atoms.cutOfLevels (levelsWithout cut control) .unverified
  let probeReach := reach upper probe.mask
  if !probeReach.derivable then pure st
  else
    let tree ← witnessTree upper probe.mask probeReach none
    match certWitness tree with
    | .error (.raised e) => .error e
    | .error (.unrepresentable refused) => pure {st with complaints := st.complaints++
        ["the derivation that re-appears when "++control++" is dropped runs through instance "
          ++refused++", whose kind has no word in the certificate, so no witness tree is "
          ++"published for that control"]}
    | .ok none => pure st
    | .ok (some node) => pure {st with
        entries := st.entries++[⟨control,node⟩]
        hasSilent := st.hasSilent || node.containsSilent}

def publishedTrees (upper : ReachProgram) (atoms : AtomTable) (cut : Cut) :
    Fallible PublishedTrees := do
  let raised := (cut.atoms.map (·.controlId)).dedup.insertionSort (· ≤ ·)
  let st ← raised.foldlM (witnessWithout upper atoms cut) ⟨[],false,[]⟩
  pure {st with entries := st.entries.insertionSort (·.removedControl ≤ ·.removedControl)}

/-! ### The stage -/

def RunFlags.names (run : RunFlags) (bracket : Bracket) : List String :=
  flagsFor run.groundingCapped bracket.corridorCap run.erAmbiguous run.quarantined false false

/-- The safety decided for one side's cut, and the verdict built from it. -/
def verdictAt (lower upper : ReachProgram) (bracket : Bracket) (run : RunFlags)
    (document : LivenessDocument) (witnessHasSilent : Bool) (side : CutSearch) : Fallible Verdict := do
  let safety ← decideSafety (run.names bracket) (reach upper side.cut.mask).derivable
    (reach lower side.cut.mask).derivable true document.tamperBlocksRobust
  buildVerdict safety side.minimality (run.names bracket) witnessHasSilent document

structure ProveOutcome where
  bracket : Bracket
  trees : PublishedTrees
  verdictMax : Verdict
  verdictMin : Verdict

/-- Deciding a safety raises on the flags alone, so the two cuts are taken one by one. -/
def prove (D : Digest) (lower upper : ReachProgram) (atoms : AtomTable) (budget corridorCap : ℤ)
    (run : RunFlags) (document : LivenessDocument) : Fallible ProveOutcome := do
  let bracket ← twoSidedBracket D lower upper atoms budget corridorCap
  let trees ← publishedTrees upper atoms bracket.upper.cut
  let verdictMax ← verdictAt lower upper bracket run document trees.hasSilent bracket.upper
  let verdictMin ← verdictAt lower upper bracket run document trees.hasSilent bracket.lower
  pure ⟨bracket,trees,verdictMax,verdictMin⟩

/-! ### Which verdicts are built -/

/-- Some flag of the run is of the soundness class. -/
def RunFlags.blocksRobust (run : RunFlags) (bracket : Bracket) : Bool :=
  run.groundingCapped || bracket.corridorCap || run.erAmbiguous || run.quarantined

structure NamesMask (run : RunFlags) (bracket : Bracket) (mask : ℕ) : Prop where
  names : Cert.flagsMask (run.names bracket) = .ok mask
  reserved : mask &&& Cert.reservedMask = 0
  soundness : mask &&& Cert.soundnessMask = 0 ↔ run.blocksRobust bracket = false
  cap : (∃ name ∈ Cert.minimalityCapFlags, name ∈ run.names bracket) ↔ bracket.corridorCap = true

theorem flagsFor_mask : ∀ g c e q : Bool,
    ((Cert.flagsMask (flagsFor g c e q false false)).toOption.any fun mask =>
      decide (mask &&& Cert.reservedMask = 0) &&
        (decide (mask &&& Cert.soundnessMask = 0) == !(g || c || e || q)) &&
        ((Cert.minimalityCapFlags.any fun name => name ∈ flagsFor g c e q false false) == c)) =
      true := by
  decide

theorem RunFlags.names_mask (run : RunFlags) (bracket : Bracket) :
    ∃ mask, NamesMask run bracket mask := by
  have h := flagsFor_mask run.groundingCapped bracket.corridorCap run.erAmbiguous run.quarantined
  obtain ⟨mask,hm,h⟩ := Option.any_eq_true _ _ |>.mp h
  simp only [Bool.and_eq_true,decide_eq_true_eq,beq_iff_eq] at h
  refine ⟨mask,Runs.toOption_some hm,h.1.1,?_,?_⟩
  · have hs := h.1.2
    rw [RunFlags.blocksRobust,← Bool.not_eq_true',← hs,decide_eq_true_eq]
  · have hc := h.2
    rw [← hc,List.any_eq_true]
    simp [RunFlags.names]

/-- The safety the stage decides for a cut. -/
def safetyOf (blocksRobust goalInPmax goalInPmin tamperBlocksRobust : Bool) : Safety :=
  if blocksRobust then if goalInPmin then .unsafeVerdict else .indeterminate
  else if !goalInPmax && !tamperBlocksRobust then .robust
  else if goalInPmin then .unsafeVerdict
  else .optimisticOnly

theorem decideSafety_names (run : RunFlags) (bracket : Bracket) (goalInPmax goalInPmin tamper : Bool) :
    decideSafety (run.names bracket) goalInPmax goalInPmin true tamper =
      .ok (safetyOf (run.blocksRobust bracket) goalInPmax goalInPmin tamper) := by
  obtain ⟨mask,hm⟩ := run.names_mask bracket
  unfold decideSafety safetyOf
  rw [hm.names]
  change (if mask &&& Cert.soundnessMask = 0 then _ else _) = _
  by_cases hs : run.blocksRobust bracket = true
  · rw [if_neg (by simp [hm.soundness,hs]),if_pos hs]
    split <;> rfl
  · rw [if_pos (hm.soundness.mpr (by simpa using hs)),if_neg hs]
    simp only [Bool.and_true]
    split
    · rfl
    · split <;> rfl

theorem ascending_suppressed : Cert.derivedSuppressedAlways.Pairwise (· < ·) := by decide

/-- A verdict that is not UNSAFE is admitted unless an exact label meets a corridor cap. -/
theorem algebra_admits {run : RunFlags} {bracket : Bracket} {safety : Safety}
    {minimality : Minimality} {silent : Bool} (hsafe : safety ≠ .unsafeVerdict)
    (hrobust : safety = .robust → run.blocksRobust bracket = false) :
    Cert.checkVerdictAlgebra ⟨safety,minimality,run.names bracket,Cert.derivedSuppressedAlways,
        .unchecked,proposedClass safety (run.names bracket) silent⟩ = .ok () ↔
      ¬(Cert.isExact minimality = true ∧ bracket.corridorCap = true) := by
  obtain ⟨mask,hm⟩ := run.names_mask bracket
  unfold Cert.checkVerdictAlgebra
  rw [hm.names]
  change checks _ = _ ↔ _
  simp only [checks_cons,checks_nil,Cert.checkReservedBits,ensure_ok,checkStrictlyAscending_ok,
    hm.cap,hm.reserved,proposedClass,hsafe,ne_eq,not_false_eq_true,not_true_eq_false,if_true,
    false_and,and_false,true_and,and_true,ascending_suppressed]
  constructor
  · exact fun h => h.2.1
  · refine fun h => ⟨fun hr => hr.2 (hm.soundness.mpr (hrobust hr.1)),h,fun _ h => h⟩


/-- A call raises no `VerdictError`. -/
def RaisesNoVerdictError {α : Type} (call : Fallible α) : Prop :=
  ∀ e, call = .error e → e.type ≠ .verdictError

theorem raisesNoVerdictError_build {v : VerdictProposal} {token : Option Cert.NoTamperToken}
    {present silent terminated : Bool} (hd : v.derivedSuppressed.Pairwise (· < ·)) :
    RaisesNoVerdictError (Verdict.build v token present silent terminated) ↔
      Cert.checkVerdictAlgebra v = .ok () ∧
        Cert.buildChecks v token present silent terminated = .ok () := by
  constructor
  · intro h
    cases hb : Verdict.build v token present silent terminated with
    | error e => exact absurd (Verdict.build_error hd hb) (h e hb)
    | ok verdict => exact (Verdict.build_ok.mp hb).2
  · rintro ⟨ha,hc⟩ e he
    have hok : Verdict.build v token present silent terminated = .ok ⟨v,ha⟩ :=
      Verdict.build_ok.mpr ⟨rfl,ha,hc⟩
    cases hok.symm.trans he

theorem raisesNoVerdictError_mint {document : LivenessDocument}
    (hs : document.tamperBlocksRobust = false) :
    (∃ e, Cert.mintNoTamperToken ((document.sources.filter (·.tamperSuspected)).map (·.sourceId))
        document.verdictTamperSensitive document.sources.length = .error e ∧
      (e.type = .verdictError ↔ document.verdictTamperSensitive = true)) ∨
    document.verdictTamperSensitive = false ∧ ∃ token, Cert.mintNoTamperToken
      ((document.sources.filter (·.tamperSuspected)).map (·.sourceId))
        document.verdictTamperSensitive document.sources.length = .ok token := by
  have hnil : (document.sources.filter (·.tamperSuspected)).map (·.sourceId) = [] := by
    rw [List.map_eq_nil_iff,List.filter_eq_nil_iff]
    exact fun entry he => by simpa using List.any_eq_false.mp hs entry he
  rw [hnil]
  unfold Cert.mintNoTamperToken
  cases hsens : document.verdictTamperSensitive with
  | true => exact .inl ⟨_,rfl,by simp [Cert.verdictError]⟩
  | false =>
    cases hu : u32 document.sources.length with
    | error e =>
      refine .inl ⟨e,rfl,?_⟩
      unfold u32 uint at hu
      split at hu <;> cases hu
      simp [widthError]
    | ok octets => exact .inr ⟨rfl,_,rfl⟩

variable {lower upper : ReachProgram} {bracket : Bracket} {run : RunFlags}
  {document : LivenessDocument} {witnessHasSilent : Bool} {side : CutSearch}

/-- The safety decided for one side's cut. -/
def sideSafety (lower upper : ReachProgram) (bracket : Bracket) (run : RunFlags)
    (document : LivenessDocument) (side : CutSearch) : Safety :=
  safetyOf (run.blocksRobust bracket) (reach upper side.cut.mask).derivable
    (reach lower side.cut.mask).derivable document.tamperBlocksRobust

theorem sideSafety_robust : sideSafety lower upper bracket run document side = .robust ↔
    run.blocksRobust bracket = false ∧ document.tamperBlocksRobust = false ∧
      upper.Severs side.cut.mask := by
  rw [← reach_derivable,sideSafety]
  cases run.blocksRobust bracket <;> cases document.tamperBlocksRobust <;>
    cases (reach upper side.cut.mask).derivable <;>
    cases (reach lower side.cut.mask).derivable <;> simp [safetyOf]

theorem verdictAt_eq : verdictAt lower upper bracket run document witnessHasSilent side =
    buildVerdict (sideSafety lower upper bracket run document side) side.minimality
      (run.names bracket) witnessHasSilent document := by
  unfold verdictAt
  rw [decideSafety_names]
  rfl

theorem buildVerdict_breached {minimality : Minimality} :
    ¬RaisesNoVerdictError (buildVerdict .unsafeVerdict minimality (run.names bracket)
      witnessHasSilent document) := by
  intro h
  have hb := (raisesNoVerdictError_build ascending_suppressed).mp h
  simp [Cert.buildChecks] at hb

theorem buildVerdict_robust {minimality : Minimality}
    (hflags : run.blocksRobust bracket = false) (htamper : document.tamperBlocksRobust = false) :
    RaisesNoVerdictError (buildVerdict .robust minimality (run.names bracket) witnessHasSilent
      document) ↔ document.verdictTamperSensitive = false := by
  have hcap : bracket.corridorCap = false := by
    simp only [RunFlags.blocksRobust,Bool.or_eq_false_iff] at hflags
    exact hflags.1.1.2
  rcases raisesNoVerdictError_mint htamper with ⟨e,he,ht⟩ | ⟨hs,token,ht⟩
  · unfold RaisesNoVerdictError buildVerdict
    rw [if_pos rfl,he,← Bool.not_eq_true,← ht]
    exact ⟨fun h => h e rfl,fun h e' he' => by cases he'; exact h⟩
  · rw [hs]
    refine iff_of_true ?_ rfl
    unfold buildVerdict
    rw [if_pos rfl,ht]
    refine (raisesNoVerdictError_build ascending_suppressed).mpr ⟨?_,?_⟩
    · exact (algebra_admits (by simp) fun _ => hflags).mpr (by simp [hcap])
    · simp [Cert.buildChecks]

theorem buildVerdict_other {safety : Safety} {minimality : Minimality}
    (hbreach : safety ≠ .unsafeVerdict) (hrobust : safety ≠ .robust) :
    RaisesNoVerdictError (buildVerdict safety minimality (run.names bracket) witnessHasSilent
      document) ↔ ¬(Cert.isExact minimality = true ∧ bracket.corridorCap = true) := by
  unfold buildVerdict
  rw [if_neg hrobust]
  change RaisesNoVerdictError (Verdict.build _ none false false true) ↔ _
  rw [raisesNoVerdictError_build ascending_suppressed,algebra_admits hbreach fun h => absurd h hrobust]
  simp [Cert.buildChecks,hbreach,hrobust]

/-- Exactly when deciding and building one side's verdict raises nothing of the algebra. -/
theorem verdictAt_raises_iff :
    RaisesNoVerdictError (verdictAt lower upper bracket run document witnessHasSilent side) ↔
      sideSafety lower upper bracket run document side ≠ .unsafeVerdict ∧
      ¬(Cert.isExact side.minimality = true ∧ bracket.corridorCap = true) ∧
      ¬(sideSafety lower upper bracket run document side = .robust ∧
        document.verdictTamperSensitive = true) := by
  rw [verdictAt_eq]
  by_cases hu : sideSafety lower upper bracket run document side = .unsafeVerdict
  · rw [hu]
    simp [buildVerdict_breached]
  by_cases hr : sideSafety lower upper bracket run document side = .robust
  · obtain ⟨hflags,htamper,-⟩ := sideSafety_robust.mp hr
    have hcap : bracket.corridorCap = false := by
      simp only [RunFlags.blocksRobust,Bool.or_eq_false_iff] at hflags
      exact hflags.1.1.2
    rw [hr,buildVerdict_robust hflags htamper]
    simp [hcap]
  · rw [buildVerdict_other hu hr]
    simp [hu,hr]

/-! ### The claim of the stage -/

/-- What the lower program derives under a cut the upper one derives, towards the same goals. -/
structure Contained (lower upper : ReachProgram) : Prop where
  goals : lower.goals = upper.goals
  closure : ∀ s, (reach lower s).closure ⊆ (reach upper s).closure

theorem Contained.of_subset (hg : lower.goals = upper.goals)
    (hi : lower.instances ⊆ upper.instances) (ha : lower.axioms ⊆ upper.axioms) :
    Contained lower upper := by
  refine ⟨hg,fun s k hk => ?_⟩
  rw [mem_reach_closure] at hk ⊢
  refine hk.mono (fun a h => .seed (ha h)) ?_
  rintro r ⟨i,hm,hb,rfl⟩
  exact ⟨i,hi hm,hb,rfl⟩

theorem Contained.severs (h : Contained lower upper) {s : Mask} (hs : upper.Severs s) :
    lower.Severs s := fun g hg hd =>
  hs g (h.goals ▸ hg) (mem_reach_closure.mp (h.closure s (mem_reach_closure.mpr hd)))

/-- A verdict comes out of either cut, and an observed attack out of the published one comes
out as UNSAFE with a tree beside it. -/
structure ReachesVerdict (D : Digest) (lower upper : ReachProgram) (atoms : AtomTable)
    (budget corridorCap : ℤ) (bracket : Bracket) (run : RunFlags) (document : LivenessDocument)
    (witnessHasSilent : Bool) : Prop where
  raises : ∀ side ∈ [bracket.upper,bracket.lower],
    RaisesNoVerdictError (verdictAt lower upper bracket run document witnessHasSilent side)
  badNews : ¬lower.Severs bracket.upper.cut.mask →
    ∃ outcome, prove D lower upper atoms budget corridorCap run document = .ok outcome ∧
      outcome.verdictMax.safety = .unsafeVerdict ∧ outcome.trees.entries ≠ []

/-- No goal of `P_min` survives either cut, no exact label stands next to the other side's
cap, and a tamper-sensitive document meets no cut that would be ROBUST. -/
structure Buildable (lower upper : ReachProgram) (bracket : Bracket) (run : RunFlags)
    (document : LivenessDocument) : Prop where
  severed : ∀ side ∈ [bracket.upper,bracket.lower], lower.Severs side.cut.mask
  upperLabel : bracket.lower.corridorCapHit = true → bracket.upper.minimality ≠ .exactPsiRelative
  lowerLabel : bracket.upper.corridorCapHit = true → bracket.lower.minimality ≠ .exactPsiRelative
  tamper : document.verdictTamperSensitive = true → run.blocksRobust bracket = true ∨
    document.tamperBlocksRobust = true ∨
      ∀ side ∈ [bracket.upper,bracket.lower], ¬upper.Severs side.cut.mask

theorem sideSafety_breached (h : Contained lower upper) :
    sideSafety lower upper bracket run document side ≠ .unsafeVerdict ↔
      lower.Severs side.cut.mask := by
  rw [← reach_derivable,sideSafety]
  cases hl : (reach lower side.cut.mask).derivable with
  | false =>
    refine iff_of_true ?_ rfl
    unfold safetyOf
    split <;> simp
    split <;> simp
  | true =>
    have hu : (reach upper side.cut.mask).derivable = true := by
      rw [← Bool.not_eq_false,reach_derivable]
      intro hs
      rw [reach_derivable.mpr (h.severs hs)] at hl
      cases hl
    rw [hu]
    unfold safetyOf
    simp

theorem isExact_capped {D : Digest} {p : ReachProgram} {atoms : AtomTable} {budget corridorCap : ℤ}
    {search : CutSearch} (h : enumeratePsi D p atoms budget corridorCap = .ok search)
    (other : Bool) : Cert.isExact search.minimality = true ∧ (other || search.corridorCapHit) = true ↔
      other = true ∧ search.minimality = .exactPsiRelative := by
  obtain ⟨hne,hcap⟩ := enumeratePsi_labels h
  simp only [Cert.isExact,Bool.or_eq_true,decide_eq_true_eq,hne,false_or]
  constructor
  · rintro ⟨hm,ho | hc⟩
    · exact ⟨ho,hm⟩
    · cases hm.symm.trans (hcap hc)
  · exact fun h => ⟨h.2,.inl h.1⟩

theorem twoSidedBracket_ok (D : Digest) {atoms : AtomTable} (hmin : lower.kind = .pMin)
    (hmax : upper.kind = .pMax) (hlo : BlockersIn lower atoms) (hup : BlockersIn upper atoms)
    (budget corridorCap : ℤ) : ∃ bracket,
      twoSidedBracket D lower upper atoms budget corridorCap = .ok bracket ∧
        enumeratePsi D lower atoms budget corridorCap = .ok bracket.lower ∧
        enumeratePsi D upper atoms budget corridorCap = .ok bracket.upper := by
  obtain ⟨low,hl,-⟩ := enumeratePsi_spec D hlo budget corridorCap
  obtain ⟨up,hu,-⟩ := enumeratePsi_spec D hup budget corridorCap
  refine ⟨⟨low,up⟩,?_,hl,hu⟩
  unfold twoSidedBracket
  rw [ensure_ok.mpr hmin,ensure_ok.mpr hmax,hl,hu]
  rfl

/-- The stage reaches a verdict for both cuts exactly when no observed attack survives them
and no cap or suspicion of one side meets the claim of the other. -/
theorem verdict_reached_iff (D : Digest) {atoms : AtomTable} (hmin : lower.kind = .pMin)
    (hmax : upper.kind = .pMax) (hin : Contained lower upper) (hlo : BlockersIn lower atoms)
    (hup : BlockersIn upper atoms) (budget corridorCap : ℤ) (run : RunFlags)
    (document : LivenessDocument) (witnessHasSilent : Bool) : ∃ bracket,
      twoSidedBracket D lower upper atoms budget corridorCap = .ok bracket ∧
        (ReachesVerdict D lower upper atoms budget corridorCap bracket run document
          witnessHasSilent ↔ Buildable lower upper bracket run document) := by
  obtain ⟨bracket,hb,hl,hu⟩ := twoSidedBracket_ok D hmin hmax hlo hup budget corridorCap
  have hupper := isExact_capped hu bracket.lower.corridorCapHit
  have hlower := isExact_capped hl bracket.upper.corridorCapHit
  rw [Bool.or_comm] at hlower
  refine ⟨bracket,hb,fun h => ?_,fun h => ?_⟩
  · have hside : ∀ side ∈ [bracket.upper,bracket.lower], _ := fun side hs =>
      verdictAt_raises_iff.mp (h.raises side hs)
    refine ⟨fun side hs => (sideSafety_breached hin).mp (hside side hs).1,fun hc hm => ?_,
      fun hc hm => ?_,fun ht => ?_⟩
    · exact (hside bracket.upper (by simp)).2.1 (hupper.mpr ⟨hc,hm⟩)
    · exact (hside bracket.lower (by simp)).2.1 (hlower.mpr ⟨hc,hm⟩)
    · by_contra hno
      simp only [not_or,Bool.not_eq_true,not_forall,not_not] at hno
      obtain ⟨hf,hd,side,hs,hsev⟩ := hno
      exact (hside side hs).2.2 ⟨sideSafety_robust.mpr ⟨hf,hd,hsev⟩,ht⟩
  · have hlabel : ∀ side ∈ [bracket.upper,bracket.lower],
        ¬(Cert.isExact side.minimality = true ∧ bracket.corridorCap = true) := by
      simp only [List.mem_cons,List.not_mem_nil,or_false]
      rintro side (rfl | rfl) hc
      · exact h.upperLabel (hupper.mp hc).1 (hupper.mp hc).2
      · exact h.lowerLabel (hlower.mp hc).1 (hlower.mp hc).2
    refine ⟨fun side hs => verdictAt_raises_iff.mpr ⟨?_,hlabel side hs,?_⟩,fun hbad => ?_⟩
    · exact (sideSafety_breached hin).mpr (h.severed side hs)
    · rintro ⟨hr,ht⟩
      obtain ⟨hf,hd,hsev⟩ := sideSafety_robust.mp hr
      rcases h.tamper ht with hf' | hd' | hno
      · simp [hf'] at hf
      · simp [hd'] at hd
      · exact hno side hs hsev
    · exact absurd (h.severed bracket.upper (by simp)) hbad

/-- A document of one source that nothing suspects. -/
def calmDocument : LivenessDocument := ⟨[⟨"src:edr",false⟩],false,by decide⟩

theorem contained_twoRoutes : Contained (twoRoutes .pMin) (twoRoutes .pMax) :=
  Contained.of_subset rfl (fun _ h => h) fun _ h => h

theorem verdict_reached_iff_twoRoutes : ∃ bracket,
    twoSidedBracket Digest.spelled (twoRoutes .pMin) (twoRoutes .pMax) threeControls stepBudget
        corridorCapDefault = .ok bracket ∧
      (ReachesVerdict Digest.spelled (twoRoutes .pMin) (twoRoutes .pMax) threeControls stepBudget
          corridorCapDefault bracket ⟨false,false,false⟩ calmDocument false ↔
        Buildable (twoRoutes .pMin) (twoRoutes .pMax) bracket ⟨false,false,false⟩ calmDocument) :=
  verdict_reached_iff Digest.spelled rfl rfl contained_twoRoutes (by decide)
    (by decide) stepBudget corridorCapDefault ⟨false,false,false⟩ calmDocument false

/-- One observed step that nothing blocks: `g ← s`. -/
def openRoute (kind : ProgramKind) : ReachProgram where
  kind := kind
  instances := [⟨⟨"in:1","rl:step","1.0.0","fh:g",["fh:s"],[],.observed,0,[⟨"e","ev:1","src:s",0⟩],
    [],false⟩,by decide⟩]
  axioms := ["fh:s"]
  goal := "fh:g"
  goals := ["fh:g"]
  axiomEvidence := []
  valid := by cases kind <;> decide

theorem openRoute_derives (kind : ProgramKind) (s : Mask) : (openRoute kind).Derives s "fh:g" := by
  refine .fire (r := ⟨"fh:g",["fh:s"]⟩) ⟨_,List.mem_singleton.mpr rfl,rfl,rfl⟩ fun b hb => ?_
  exact .seed hb

theorem contained_openRoute : Contained (openRoute .pMin) (openRoute .pMax) :=
  Contained.of_subset rfl (fun _ h => h) fun _ h => h

/-- The observed attack no control blocks: the stage raises where UNSAFE was due. -/
theorem verdict_not_reached : ¬∀ (D : Digest) (lower upper : ReachProgram) (atoms : AtomTable)
    (budget corridorCap : ℤ) (run : RunFlags) (document : LivenessDocument)
    (witnessHasSilent : Bool), lower.kind = .pMin → upper.kind = .pMax → Contained lower upper →
    BlockersIn lower atoms → BlockersIn upper atoms → ∃ bracket,
      twoSidedBracket D lower upper atoms budget corridorCap = .ok bracket ∧
        ReachesVerdict D lower upper atoms budget corridorCap bracket run document
          witnessHasSilent := by
  intro h
  obtain ⟨bracket,-,hr⟩ := h Digest.spelled (openRoute .pMin) (openRoute .pMax) threeControls
    stepBudget corridorCapDefault ⟨false,false,false⟩ calmDocument false rfl rfl
    contained_openRoute (by decide) (by decide)
  have hside := (verdictAt_raises_iff.mp (hr.raises bracket.upper (by simp))).1
  exact (sideSafety_breached contained_openRoute).mp hside "fh:g" (List.mem_singleton.mpr rfl) (openRoute_derives .pMin _)

end Spectra
