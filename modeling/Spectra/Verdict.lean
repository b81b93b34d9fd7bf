import Spectra.CutSearch
import Spectra.Runs

/-! `spectra_vs.cert`, the verdict: the closed flag table, the token the universal claim
needs, the algebra the single constructor enforces and the nodes a witness is published with. -/
namespace Spectra
namespace Cert

def verdictError (code detail : String) : SpectraError := ⟨.verdictError,code,detail⟩

/-! ### Flags -/

/-- S, M, D and R. -/
inductive FlagClass where
  | soundness | minimality | derived | aggregate
  deriving DecidableEq, Repr

structure Flag where
  bit : ℕ
  name : String
  classes : List FlagClass
  deriving DecidableEq, Repr

def Flag.blocksRobust (f : Flag) : Bool := .soundness ∈ f.classes

def flags : List Flag := [
  ⟨0,"grounding_capped",[.soundness]⟩,
  ⟨1,"corridor_cap",[.soundness,.minimality,.derived]⟩,
  ⟨2,"atoms_over_budget",[.minimality]⟩,
  ⟨3,"er_ambiguous",[.soundness]⟩,
  ⟨4,"quarantined_records",[.soundness]⟩,
  ⟨5,"license_voided_by_suspected_tampering",[.soundness]⟩,
  ⟨6,"greedy_cover",[.derived]⟩,
  ⟨7,"sampled_matrix",[.aggregate]⟩,
  ⟨8,"profile_missing",[.soundness]⟩]

def flagByName (name : String) : Option Flag := flags.find? (·.name = name)

def soundnessMask : ℕ := ((flags.filter (·.blocksRobust)).map fun f => 2^f.bit).sum

def reservedMask : ℕ := ((List.range' flags.length (16-flags.length)).map fun b => 2^b).sum

def minimalityCapFlags : List String := ["atoms_over_budget","corridor_cap"]

def flagsMaskFrom : ℤ → ℕ → List String → Fallible ℕ
  | _, mask, [] => .ok mask
  | previous, mask, name::rest =>
    match flagByName name with
    | none => .error (verdictError "VRD-008" ("flags: "++name++" is not a declared flag"))
    | some flag =>
      if (flag.bit : ℤ) ≤ previous then .error (verdictError "VRD-008" ("flags: "++name++" at bit "
        ++toString flag.bit++" does not follow bit "++toString previous++" ascending"))
      else flagsMaskFrom flag.bit (mask ||| 2^flag.bit) rest

/-- The mask of an array of flag names, which is in bit order and never alphabetical. -/
def flagsMask (names : List String) : Fallible ℕ := flagsMaskFrom (-1) 0 names

def checkReservedBits (mask : ℕ) : Fallible Unit :=
  ensure (mask &&& reservedMask = 0) (verdictError "VRD-009"
    "flags: reserved bit set; bits 9..15 must be zero")

/-! ### The algebra -/

inductive Safety where
  | robust | optimisticOnly | unsafeVerdict | indeterminate
  deriving DecidableEq, Repr

/-- What an UNSAFE witness rests on. -/
inductive WitnessClass where
  | observed | licensed | contested
  deriving DecidableEq, Repr

inductive Realizability where
  | checked | unchecked
  deriving DecidableEq, Repr

structure NoTamperToken where
  sourcesChecked : ℕ
  deriving DecidableEq, Repr

def mintNoTamperToken (tamperSuspectedSources : List SourceId) (verdictTamperSensitive : Bool)
    (sources : ℕ) : Fallible NoTamperToken := do
  ensure (verdictTamperSensitive = false)
    (verdictError "VRD-001" "NoTamperToken: the liveness document is tamper-sensitive")
  ensure (tamperSuspectedSources = []) (verdictError "VRD-001" ("NoTamperToken: "++
    toString tamperSuspectedSources.length++" source(s) are tamper-suspected"))
  let _ ← u32 sources
  pure ⟨sources⟩

def derivedSuppressedAlways : List String := ["pareto_frontier","redundancy_index"]

structure VerdictProposal where
  safety : Safety
  minimality : Minimality
  flags : List String
  derivedSuppressed : List String
  realizability : Realizability
  witnessClass : Option WitnessClass
  deriving DecidableEq, Repr

def isExact (m : Minimality) : Bool := m = .exactExhaustive || m = .exactPsiRelative

def checkVerdictAlgebra (v : VerdictProposal) : Fallible Unit := do
  let mask ← flagsMask v.flags
  checks [
    checkReservedBits mask,
    ensure (¬(v.safety = .robust ∧ mask &&& soundnessMask ≠ 0)) (verdictError "VRD-001"
      "the universal claim is unconstructible while soundness flags are set"),
    ensure (¬(v.safety ≠ .unsafeVerdict ∧ v.witnessClass ≠ none)) (verdictError "VRD-006"
      "witness_class is present-and-null on every non-UNSAFE verdict"),
    ensure (¬(v.safety = .unsafeVerdict ∧ v.witnessClass = none)) (verdictError "VRD-002"
      "UNSAFE carries a mandatory witness_class"),
    ensure (¬(v.safety = .unsafeVerdict ∧ "er_ambiguous" ∈ v.flags ∧
        v.witnessClass ≠ some .contested)) (verdictError "VRD-007"
      "er_ambiguous fabricates the leaves themselves, so the witness class is CONTESTED"),
    ensure (¬(isExact v.minimality = true ∧ ∃ name ∈ minimalityCapFlags, name ∈ v.flags))
      (verdictError "VRD-004" "exact minimality is unearned while its cap flags are set"),
    checkStrictlyAscending "verdict.derived_suppressed" v.derivedSuppressed,
    ensure (∀ name ∈ derivedSuppressedAlways, name ∈ v.derivedSuppressed)
      (verdictError "VRD-014" "derived_suppressed omits a product that is out of scope")]

/-- The sealed verdict: a proposal the algebra admits. -/
structure Verdict extends VerdictProposal where
  valid : checkVerdictAlgebra toVerdictProposal = .ok ()
  deriving DecidableEq

/-- What the constructor asks on top of the algebra. -/
def buildChecks (v : VerdictProposal) (noTamperToken : Option NoTamperToken)
    (witnessPresent witnessContainsSilent pmaxFixpointTerminated : Bool) : Fallible Unit := checks [
  ensure (¬(v.safety = .robust ∧ noTamperToken = none)) (verdictError "VRD-001"
    "the universal claim requires a NoTamperToken from the liveness stage"),
  ensure (¬(v.safety = .robust ∧ pmaxFixpointTerminated = false)) (verdictError "VRD-001"
    "the universal claim requires the upper-program fixpoint to have terminated inside its deterministic budget"),
  ensure (¬(v.safety = .unsafeVerdict ∧ witnessPresent = false)) (verdictError "VRD-002"
    "UNSAFE requires a witness tree"),
  ensure (¬(v.safety = .unsafeVerdict ∧ v.witnessClass = some .observed ∧
      witnessContainsSilent = true)) (verdictError "VRD-003"
    "an OBSERVED witness class was proposed for a tree containing a GHOST or LICENSED node; a silent step is never an event"),
  ensure (¬(v.safety = .unsafeVerdict ∧ v.witnessClass = some .licensed ∧
      witnessContainsSilent = false)) (verdictError "VRD-003"
    "a LICENSED witness class was proposed for a tree with no silent node")]

/-- The single constructor. -/
def Verdict.build (proposal : VerdictProposal) (noTamperToken : Option NoTamperToken)
    (witnessPresent witnessContainsSilent pmaxFixpointTerminated : Bool) : Fallible Verdict :=
  match h : checkVerdictAlgebra proposal with
  | .error e => .error e
  | .ok () => do
    buildChecks proposal noTamperToken witnessPresent witnessContainsSilent pmaxFixpointTerminated
    pure ⟨proposal,h⟩

theorem flagsMaskFrom_error {names : List String} {previous : ℤ} {mask : ℕ} {e : SpectraError}
    (h : flagsMaskFrom previous mask names = .error e) : e.type = .verdictError := by
  induction names generalizing previous mask with
  | nil => cases h
  | cons name rest ih =>
    rw [flagsMaskFrom] at h
    split at h
    · cases h; rfl
    · split at h
      · cases h; rfl
      · exact ih h

theorem checkVerdictAlgebra_error {v : VerdictProposal} {e : SpectraError}
    (hd : v.derivedSuppressed.Pairwise (· < ·)) (h : checkVerdictAlgebra v = .error e) :
    e.type = .verdictError := by
  unfold checkVerdictAlgebra at h
  cases hm : flagsMask v.flags with
  | error e' =>
    rw [hm] at h
    cases h
    exact flagsMaskFrom_error hm
  | ok mask =>
    rw [hm] at h
    have hasc : checkStrictlyAscending "verdict.derived_suppressed" _ = .ok () :=
      checkStrictlyAscending_ok.mpr hd
    have hmem := checks_error h
    simp only [List.mem_cons,List.not_mem_nil,or_false] at hmem
    rcases hmem with h | h | h | h | h | h | h | h <;>
      first
        | rw [ensure_error h.symm]; rfl
        | (rw [hasc] at h; cases h)


theorem buildChecks_error {v : VerdictProposal} {token : Option NoTamperToken}
    {present silent terminated : Bool} {e : SpectraError}
    (h : buildChecks v token present silent terminated = .error e) : e.type = .verdictError := by
  have hmem := checks_error h
  simp only [List.mem_cons,List.not_mem_nil,or_false] at hmem
  rcases hmem with h | h | h | h | h <;> (rw [ensure_error h.symm]; rfl)

theorem Verdict.build_error {v : VerdictProposal} {token : Option NoTamperToken}
    {present silent terminated : Bool} {e : SpectraError}
    (hd : v.derivedSuppressed.Pairwise (· < ·))
    (h : Verdict.build v token present silent terminated = .error e) : e.type = .verdictError := by
  unfold Verdict.build at h
  split at h
  · rename_i e' he
    cases h
    exact checkVerdictAlgebra_error hd he
  · cases hb : buildChecks v token present silent terminated with
    | error e' =>
      rw [hb] at h
      cases h
      exact buildChecks_error hb
    | ok u =>
      rw [hb] at h
      cases h

theorem Verdict.build_ok {v : VerdictProposal} {token : Option NoTamperToken}
    {present silent terminated : Bool} {verdict : Verdict} :
    Verdict.build v token present silent terminated = .ok verdict ↔
      verdict.toVerdictProposal = v ∧ checkVerdictAlgebra v = .ok () ∧
        buildChecks v token present silent terminated = .ok () := by
  unfold Verdict.build
  split
  · rename_i e he
    simp [he]
  · rename_i he
    rw [Runs.bind_ok]
    simp only [Runs.pure_ok,he,true_and]
    constructor
    · rintro ⟨u,hb,rfl⟩
      exact ⟨rfl,hb⟩
    · rintro ⟨rfl,hb⟩
      exact ⟨(),hb,rfl⟩

/-! ### Witnesses -/

inductive StepKind where
  | observed | ghost | licensed
  deriving DecidableEq, Repr

def StepKind.isSilent : StepKind → Bool
  | .observed => false
  | .ghost | .licensed => true

def checkNode (kind : StepKind) (evidence : List EventId) : Fallible Unit := checks [
  checkStrictlyAscending "witness.evidence" evidence,
  ensure (¬(kind = .ghost ∧ evidence ≠ [])) ⟨.schemaError,"E-GHOST-COUNT",
    "a GHOST node carries no evidence; it is a licensed unobserved step"⟩,
  ensure (¬(kind = .licensed ∧ evidence ≠ [])) ⟨.schemaError,"E-WITNESS-EVENT",
    "a LICENSED node carries no evidence; it is a step nobody could have seen"⟩,
  ensure (¬(kind = .observed ∧ evidence = [])) ⟨.schemaError,"E-WITNESS-EVENT",
    "an OBSERVED node cites at least one record"⟩]

/-- One AND-node of a derivation. -/
inductive Node where
  | node (instanceId : InstanceId) (head : FactHash) (kind : StepKind) (evidence : List EventId)
      (children : List Node) (valid : checkNode kind evidence = .ok ())

mutual
def Node.containsSilent : Node → Bool
  | .node _ _ kind _ children _ => kind.isSilent || anySilent children
def anySilent : List Node → Bool
  | [] => false
  | t::ts => t.containsSilent || anySilent ts
end

structure WitnessEntry where
  removedControl : ControlId
  tree : Node

end Cert
end Spectra
