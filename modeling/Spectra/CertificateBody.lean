import Spectra.CertificateFile
import Spectra.HonestLabels
import Spectra.Preimages
import Spectra.WitnessNodes

/-! `spectra_vs.cert`, the body: its sections with what their constructors ask, and `build_body`,
which tests what the sections say of each other before any octets are produced. -/
namespace Spectra
namespace Cert

open Checker (Library texts)

def schemaError (code detail : String) : SpectraError := ⟨.schemaError,code,detail⟩

/-- A reference that `canon.parse_hash_ref` takes. -/
def isHashRef (value : String) : Fallible Unit := do
  let _ ← parseHashRef value

def isU32 (value : ℤ) : Fallible Unit := do
  let _ ← u32 value

/-! ### Scope and inputs -/

def attacker : String := "non-adaptive"

structure ScopeFields where
  rules : String
  controls : String
  liveness : String
  er : String
  goal : String
  bundle : String
  attacker : String := Cert.attacker
  deriving DecidableEq

namespace ScopeFields

variable (s : ScopeFields)

def postInit : Fallible Unit := checks (
  ensure (s.attacker = Cert.attacker) (verdictError "VRD-005"
    "scope.attacker must be 'non-adaptive', the only value v1 accepts")::
  [("rules",s.rules),("controls",s.controls),("liveness",s.liveness),("er",s.er),("goal",s.goal),
    ("bundle",s.bundle)].map fun p => checks [
      ensure (p.2 ≠ "") (verdictError "VRD-005" ("scope."++p.1++" is empty; scope is total")),
      isHashRef p.2])

def named : List (String × String) := [("attacker",s.attacker),("bundle",s.bundle),
  ("controls",s.controls),("er",s.er),("goal",s.goal),("liveness",s.liveness),("rules",s.rules)]

def asMember : Json := .obj (s.named.map fun p => (p.1,.str p.2))

end ScopeFields

/-- The scope is total. -/
structure Scope extends ScopeFields where
  valid : toScopeFields.postInit = .ok ()

structure InputsFields where
  rulesHash : String
  rulesTextHash : String
  guardAstHash : String
  controlsHash : String
  catalogBitsHash : String
  bundleHash : String
  livenessHash : String
  profileHash : String
  goalHash : String
  erHash : String
  instancesHash : String
  seed : Mask
  k : ℤ
  deriving DecidableEq

namespace InputsFields

variable (i : InputsFields)

/-- The digests, in the order of `INPUT_HASH_COVERAGE`. -/
def hashes : List (String × String) := [("rules_hash",i.rulesHash),
  ("rules_text_hash",i.rulesTextHash),("guard_ast_hash",i.guardAstHash),
  ("controls_hash",i.controlsHash),("catalog_bits_hash",i.catalogBitsHash),
  ("bundle_hash",i.bundleHash),("liveness_hash",i.livenessHash),("profile_hash",i.profileHash),
  ("goal_hash",i.goalHash),("er_hash",i.erHash),("instances_hash",i.instancesHash)]

def postInit : Fallible Unit := checks ((i.hashes.map fun p => isHashRef p.2)++[isU32 i.k])

def members : List (String × Json) := [("bundle_provenance",.str "synthetic_generator_no_range"),
  ("grounding_mode",.str "replayed"),("implementation",.str "python-reference"),("k",.int i.k),
  ("seed",.str (Checker.maskHex i.seed))]++i.hashes.map fun p => (p.1,.str p.2)

def asMember : Json := .obj i.members

end InputsFields

/-- Every pinned digest and the declarations beside them. -/
structure Inputs extends InputsFields where
  valid : toInputsFields.postInit = .ok ()

def scopeToInput : List (String × String) :=
  [("bundle","bundle_hash"),("controls","controls_hash"),("er","er_hash"),("goal","goal_hash"),
    ("liveness","liveness_hash"),("rules","rules_hash")]

/-! ### The verdict as a member -/

def Safety.text : Safety → String
  | .robust => "ROBUST"
  | .optimisticOnly => "OPTIMISTIC_ONLY"
  | .unsafeVerdict => "UNSAFE"
  | .indeterminate => "INDETERMINATE"

def minimalityText : Minimality → String
  | .exactExhaustive => "EXACT_EXHAUSTIVE"
  | .exactPsiRelative => "EXACT_PSI_RELATIVE"
  | .subset => "SUBSET"
  | .unverified => "UNVERIFIED"

def WitnessClass.text : WitnessClass → String
  | .observed => "OBSERVED"
  | .licensed => "LICENSED"
  | .contested => "CONTESTED"

def Realizability.text : Realizability → String
  | .checked => "CHECKED"
  | .unchecked => "UNCHECKED"

/-- `witness_class` is present and null on every verdict but UNSAFE. -/
def VerdictProposal.asMember (v : VerdictProposal) : Json := .obj [
  ("derived_suppressed",texts v.derivedSuppressed),("flags",texts v.flags),
  ("minimality",.str (minimalityText v.minimality)),("realizability",.str v.realizability.text),
  ("safety",.str v.safety.text),("witness_class",v.witnessClass.elim .null fun c => .str c.text)]

/-! ### The other sections -/

structure BudgetsFields where
  fixpointSteps : ℤ
  bbNodes : ℤ
  stepBudget : ℤ
  budgetExhausted : Bool
  exhaustiveRan : Bool
  exhaustiveCutsTested : ℤ
  deriving DecidableEq

def BudgetsFields.postInit (b : BudgetsFields) : Fallible Unit :=
  checks ([b.fixpointSteps,b.bbNodes,b.stepBudget,b.exhaustiveCutsTested].map isU32)

def BudgetsFields.asMember (b : BudgetsFields) : Json := .obj [("bb_nodes",.int b.bbNodes),
  ("budget_exhausted",.bool b.budgetExhausted),
  ("exhaustive_cuts_tested",.int b.exhaustiveCutsTested),("exhaustive_ran",.bool b.exhaustiveRan),
  ("fixpoint_steps",.int b.fixpointSteps),("step_budget",.int b.stepBudget)]

/-- Deterministic step counters. -/
structure Budgets extends BudgetsFields where
  valid : toBudgetsFields.postInit = .ok ()

/-- One goal, and whether it is derivable under the published cut. -/
structure GoalRef where
  goalKey : FactHash
  derivable : Bool
  deriving DecidableEq

def GoalRef.asMember (g : GoalRef) : Json := Checker.goalMember (g.goalKey,g.derivable)

structure SilentRefFields where
  instanceId : InstanceId
  licenseIds : List LicenseId
  deriving DecidableEq

def SilentRefFields.postInit (s : SilentRefFields) : Fallible Unit := checks [
  ensure (s.licenseIds ≠ []) (schemaError "E-LICENSE-UNIMPLIED"
    "silent: an unlicensed silent instance has no place in a certificate"),
  checkStrictlyAscending "silent.license_ids" s.licenseIds]

def SilentRefFields.asMember (s : SilentRefFields) : Json :=
  Checker.silentMember (s.instanceId,s.licenseIds)

/-- A silent instance and the licences it rests on. -/
structure SilentRef extends SilentRefFields where
  valid : toSilentRefFields.postInit = .ok ()

def WitnessEntry.asMember (w : WitnessEntry) : Json := .obj [
  ("nodes",.list (w.tree.flatten.map FlatNode.toJson)),("removed_control",.str w.removedControl)]

/-- `Corridor.verify_id`. -/
def verifyCorridor (lib : Library) (c : Corridor) : Bool :=
  c.corridorId = "cor:"++lib.digestHex "cor" (leb128Seq c.atomRanks) 32

structure PsiFields where
  program : ProgramKind
  complete : Bool
  corridors : List Corridor
  deriving DecidableEq

def PsiFields.postInit (lib : Library) (p : PsiFields) : Fallible Unit := checks [
  checkStrictlyAscending "psi.corridors" (p.corridors.map (·.corridorId)),
  checks (p.corridors.map fun c => ensure (verifyCorridor lib c) (schemaError "E-PSI-HIT"
    ("psi: "++c.corridorId++" does not recompute from its atom ranks")))]

def PsiFields.asMember (p : PsiFields) : Json := .obj [("complete",.bool p.complete),
  ("corridors",.list (p.corridors.map fun c => Checker.corridorMember (Checker.corridorOf c))),
  ("program",.str (Checker.programText p.program))]

/-- The published corridor database. -/
structure Psi (lib : Library) extends PsiFields where
  valid : toPsiFields.postInit lib = .ok ()

structure ResidualFields where
  program : ProgramKind
  goalsDerivable : List FactHash
  goalsSevered : List FactHash
  corridorsOpen : List String
  corridorsExhaustive : Bool
  deriving DecidableEq

def ResidualFields.postInit (r : ResidualFields) : Fallible Unit := checks [
  checkStrictlyAscending "residual.goals_derivable" r.goalsDerivable,
  checkStrictlyAscending "residual.goals_severed" r.goalsSevered,
  checkStrictlyAscending "residual.corridors_open" r.corridorsOpen,
  ensure (∀ g ∈ r.goalsDerivable, g ∉ r.goalsSevered) (schemaError "E-GOAL-MEMBER"
    "residual: a goal is both derivable and severed")]

def ResidualFields.asMember (r : ResidualFields) : Json := .obj [
  ("corridors_exhaustive",.bool r.corridorsExhaustive),("corridors_open",texts r.corridorsOpen),
  ("goals_derivable",texts r.goalsDerivable),("goals_severed",texts r.goalsSevered),
  ("program",.str (Checker.programText r.program))]

/-- The residual: two sets of goals, no scalar. -/
structure Residual extends ResidualFields where
  valid : toResidualFields.postInit = .ok ()

structure PremiumEntryFields where
  controlId : ControlId
  licenseIds : List LicenseId
  calibrationDeficiency : ℚ
  deriving DecidableEq

def PremiumEntryFields.postInit (p : PremiumEntryFields) : Fallible Unit := checks [
  checkStrictlyAscending "premium.license_ids" p.licenseIds,
  ensure (0 ≤ p.calibrationDeficiency ∧ p.calibrationDeficiency ≤ 1)
    (ErrorType.schemaError.mk "premium.calibration_deficiency lies in [0, 1]"),
  isU32 p.calibrationDeficiency.num,isU32 p.calibrationDeficiency.den]

def PremiumEntryFields.asMember (p : PremiumEntryFields) : Json := .obj [
  ("calibration_deficiency",.obj [("den",.int p.calibrationDeficiency.den),
    ("num",.int p.calibrationDeficiency.num)]),
  ("control_id",.str p.controlId),("license_ids",texts p.licenseIds)]

/-- One premium control, its licences, and how much of it rests on missing calibration. -/
structure PremiumEntry extends PremiumEntryFields where
  valid : toPremiumEntryFields.postInit = .ok ()

structure PremiumFields where
  necMax : List ControlId
  occMin : List ControlId
  blindnessPremium : List ControlId
  perControl : List PremiumEntry

def PremiumFields.postInit (p : PremiumFields) : Fallible Unit := checks [
  checkStrictlyAscending "premium.nec_max" p.necMax,
  checkStrictlyAscending "premium.occ_min" p.occMin,
  checkStrictlyAscending "premium.blindness_premium" p.blindnessPremium,
  checkStrictlyAscending "premium.per_control" (p.perControl.map (·.controlId)),
  ensure (p.blindnessPremium = p.necMax.filter (· ∉ p.occMin)) (schemaError "E-FLAG-DERIVED"
    "premium.blindness_premium must be exactly nec_max minus occ_min"),
  ensure (∀ c ∈ p.blindnessPremium, c ∈ p.perControl.map (·.controlId)) (schemaError "E-FLAG-DERIVED"
    ("premium.per_control omits a control; every premium control states its licences and its "++
      "calibration deficiency"))]

def PremiumFields.asMember (p : PremiumFields) : Json := .obj [
  ("blindness_premium",texts p.blindnessPremium),("nec_max",texts p.necMax),
  ("occ_min",texts p.occMin),("per_control",.list (p.perControl.map (·.asMember)))]

/-- NEC over the upper corridor database minus OCC over the lower one. -/
structure Premium extends PremiumFields where
  valid : toPremiumFields.postInit = .ok ()

/-! ### What the sections say of each other -/

/-- `instances_hash`: the digest of the instances in published order. -/
def instancesHash (lib : Library) (instances : List RuleInstance) : Fallible String := do
  pure (lib.hashRef "instances" (← orderedSeq (·.canonicalBytes lib) instances))

/-- The arguments of `build_body`. -/
structure Sections (lib : Library) where
  scope : Scope
  inputs : Inputs
  verdict : Verdict
  atoms : List ThresholdLiteral
  cut : Cut
  goals : List GoalRef
  invariant : Option (List FactHash)
  instances : List RuleInstance
  licenses : List Licence
  silent : List SilentRef
  witnesses : List WitnessEntry
  psi : Psi lib
  premium : Option Premium
  premiumSuppressedReason : Option String
  cutDeltaCanonical : List ControlId
  residual : Residual
  budgets : Budgets
  observedEventCount : ℤ
  ghostCount : ℤ
  psiMinComplete : Bool

/-- The canonical order of the literals: the bare control name, then the level. -/
def canonicalOrder (atoms : List ThresholdLiteral) : List ThresholdLiteral :=
  atoms.insertionSort fun a b => toLex (Checker.removePrefix "ctl:" a.controlId,a.level) ≤
    toLex (Checker.removePrefix "ctl:" b.controlId,b.level)

def checkAtomTable (atoms : List ThresholdLiteral) (cut : Cut) : Fallible Unit := checks [
  ensure (atoms.length ≤ 64) (schemaError "E-LIMIT-COUNT"
    ("atoms.n is "++toString atoms.length++"; the mask is 64 bits wide")),
  checkStrictlyAscending "atoms.assign" (atoms.map (·.bit)),
  checks ((canonicalOrder atoms).zipIdx.map fun p => ensure (p.1.rank = p.2)
    (schemaError "E-LITERAL-TABLE" ("atoms: "++p.1.controlId++" level "++toString p.1.level++
      " carries rank "++toString p.1.rank++" but the canonical atom order puts it at "++toString p.2))),
  checks (cut.atoms.map fun a =>
    match atoms.reverse.find? fun b => b.controlId = a.controlId ∧ b.level = a.level with
    | none => .error (schemaError "E-LITERAL-TABLE" ("cut cites "++a.controlId++" level "++
        toString a.level++", which is not in the atom table"))
    | some b => ensure (b.bit = a.bit ∧ b.rank = a.rank) (schemaError "E-LITERAL-TABLE"
        ("cut cites "++a.controlId++" level "++toString a.level++" with bit "++toString a.bit++
          " rank "++toString a.rank++"; the atom table says bit "++toString b.bit++" rank "++
          toString b.rank)))]

/-- `{str(i.instance_id): i for i in instances}`. -/
def byId (instances : List RuleInstance) (id : InstanceId) : Option RuleInstance :=
  instances.reverse.find? (·.instanceId = id)

def checkSilentRef (instances : List RuleInstance) (licenses : List Licence) (ref : SilentRef) :
    Fallible Unit := checks [
  -- every reference was found to name an instance
  ensure (∀ i ∈ byId instances ref.instanceId, ref.licenseIds = i.licenseIds)
    (schemaError "E-LICENSE-UNIMPLIED"
      ("silent: "++ref.instanceId++" cites licences the instance does not")),
  checks (ref.licenseIds.map fun id => ensure (id ∈ licenses.map (·.licenseId))
    (schemaError "E-LICENSE-UNIMPLIED" ("silent: "++id++" is not in the published licence set")))]

def checkSilent (silent : List SilentRef) (instances : List RuleInstance) (licenses : List Licence) :
    Fallible Unit := checks [
  checkStrictlyAscending "silent" (silent.map (·.instanceId)),
  ensure (silent.map (·.instanceId) =
      ((instances.filter (·.licenseIds ≠ [])).map (·.instanceId)).insertionSort (· ≤ ·))
    (schemaError "E-LICENSE-UNIMPLIED"
      "silent must list exactly the published instances that cite a licence"),
  checks (silent.map (checkSilentRef instances licenses))]

/-- What a witness node says of the instance it stands for. -/
def checkStep (i : RuleInstance) (id : InstanceId) (head : FactHash) (kind : StepKind) :
    Fallible Unit := checks [
  ensure (i.head = head) (schemaError "E-WITNESS-EVENT"
    ("witness: "++id++" heads "++i.head++", not "++head)),
  ensure (¬(kind = .ghost ∧ i.ghost = false)) (schemaError "E-GHOST-COUNT"
    ("witness: "++id++" is marked GHOST but the instance is not")),
  ensure (¬(kind = .licensed ∧ (i.ghost = true ∨ i.observed ≠ .licensed ∨ i.licenseIds = [])))
    (schemaError "E-WITNESS-EVENT" ("witness: "++id++
      " is marked LICENSED but the instance is not a licensed, non-GHOST silent instance")),
  ensure (¬(kind = .observed ∧ i.observed ≠ .observed)) (schemaError "E-WITNESS-EVENT"
    ("witness: "++id++" is marked OBSERVED but the instance rests on a licence"))]

mutual

/-- `_walk_witness`. -/
def walkWitness (instances : List RuleInstance) (seen : List InstanceId) : Node → Fallible Unit
  | .node id head kind _ children _ =>
    if id ∈ seen then .error (schemaError "E-WITNESS-CYCLE"
      ("witness: "++id++" supports itself; the tree is not well founded"))
    else match byId instances id with
      | none => .error (schemaError "E-WITNESS-EVENT"
          ("witness: "++id++" is not in the published instance set"))
      | some i => do
        checkStep i id head kind
        walkWitnesses instances (seen++[id]) children

def walkWitnesses (instances : List RuleInstance) (seen : List InstanceId) : List Node → Fallible Unit
  | [] => .ok ()
  | t::ts => do
    walkWitness instances seen t
    walkWitnesses instances seen ts

end

/-- What the premium may not be published with, where it is the case. -/
def unmet {lib : Library} (s : Sections lib) : List String :=
  (if s.psi.complete then [] else ["the upper corridor database did not reach fixpoint"])++
  (if s.psiMinComplete then [] else ["the lower corridor database did not reach fixpoint"])++
  (if "grounding_capped" ∈ s.verdict.flags then ["grounding_capped is set"] else [])++
  (if "corridor_cap" ∈ s.verdict.flags then ["corridor_cap is set"] else [])++
  (if s.budgets.budgetExhausted then ["a deterministic budget fired"] else [])

/-- `_atoms_member`. -/
def atomsMember (atoms : List ThresholdLiteral) : Json := Checker.atomsMember (atoms.map Checker.rowOf)

/-- `_cut_member`. -/
def cutMember (cut : Cut) : Json := Checker.cutMember (Checker.cutRows cut)

def bodyMembers : List String := ["atoms","budgets","cut","cut_delta_canonical","ghost_count","goals",
  "inputs","instances","invariant","licenses","observed_event_count","premium",
  "premium_suppressed_reason","psi","residual","schema","scope","silent","verdict","witnesses"]

/-- Absent rather than empty. -/
def optionalBodyMembers : List String := ["invariant","premium","premium_suppressed_reason"]

/-- The members every body has. -/
def Sections.required {lib : Library} (s : Sections lib) : List (String × Json) := [
  ("atoms",atomsMember s.atoms),("budgets",s.budgets.asMember),("cut",cutMember s.cut),
  ("cut_delta_canonical",texts s.cutDeltaCanonical),("ghost_count",.int s.ghostCount),
  ("goals",.list (s.goals.map (·.asMember))),("inputs",s.inputs.asMember),
  ("instances",.list (s.instances.map (·.member))),("licenses",.list (s.licenses.map (·.member))),
  ("observed_event_count",.int s.observedEventCount),("psi",s.psi.asMember),
  ("residual",s.residual.asMember),("schema",Checker.schema),("scope",s.scope.asMember),
  ("silent",.list (s.silent.map (·.asMember))),("verdict",s.verdict.asMember),
  ("witnesses",.list (s.witnesses.map (·.asMember)))]

def Sections.optional {lib : Library} (s : Sections lib) : List (String × Json) :=
  (s.invariant.toList.map fun u => ("invariant",.obj [("u",texts u)]))++
  (s.premium.toList.map fun p => ("premium",p.asMember))++
  s.premiumSuppressedReason.toList.map fun reason => ("premium_suppressed_reason",.str reason)

def Sections.members {lib : Library} (s : Sections lib) : List (String × Json) :=
  s.required++s.optional

end Cert
end Spectra
