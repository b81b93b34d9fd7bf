import Mathlib.Data.List.Dedup
import Mathlib.Data.Prod.Lex
import Spectra.Canon

/-! `spectra_core.model`: the records the cut search exchanges. A record is its fields
together with the fact that its constructor accepted them, so a value that the
constructor would refuse cannot be built. -/
namespace Spectra

abbrev FactHash := String
abbrev InstanceId := String
abbrev EventId := String
abbrev SourceId := String
abbrev LicenseId := String
abbrev RuleId := String
abbrev ControlId := String
abbrev EntityId := String

inductive Observation where
  | observed | licensed
  deriving DecidableEq, Repr

inductive Minimality where
  | exactExhaustive | exactPsiRelative | subset | unverified
  deriving DecidableEq, Repr

inductive ProgramKind where
  | pMin | pMax
  deriving DecidableEq, Repr

def bitCount (m : Mask) : ℕ := (List.range 64).countP fun b => m.getLsbD b

theorem bitCount_eq_one {m : Mask} (h : bitCount m = 1) :
    ∃ b < 64, ∀ i, m.getLsbD i = decide (i = b) := by
  unfold bitCount at h
  rw [List.countP_eq_length_filter,List.length_eq_one_iff] at h
  obtain ⟨b,hb⟩ := h
  have hm : ∀ i, i < 64 ∧ m.getLsbD i = true ↔ i = b := by
    intro i
    have hi : i ∈ (List.range 64).filter (fun b => m.getLsbD b) ↔ i ∈ [b] := by rw [hb]
    simpa using hi
  refine ⟨b,((hm b).mpr rfl).1,fun i => ?_⟩
  by_cases hi : i = b
  · simp [hi,((hm b).mpr rfl).2]
  · have hn : ¬(i < 64 ∧ m.getLsbD i = true) := fun hc => hi ((hm i).mp hc)
    by_cases hl : i < 64
    · simpa [hl,hi] using hn
    · simpa [hi] using m.getLsbD_of_ge i (by omega)

/-- A term is satisfied by a cut that raises every literal in it. -/
theorem and_eq_iff {t s : Mask} : t &&& s = t ↔ ∀ i, t.getLsbD i = true → s.getLsbD i = true := by
  rw [BitVec.eq_of_getLsbD_eq_iff]
  constructor
  · intro h i hi
    have := h i (by
      by_contra hn
      rw [BitVec.getLsbD_of_ge _ _ (by omega)] at hi
      cases hi)
    simpa [hi] using this
  · intro h i _
    have := h i
    rw [BitVec.getLsbD_and]
    cases ht : t.getLsbD i <;> simp_all

def unionMask (terms : List Mask) : Mask := terms.foldl (fun mask term => mask ||| term) 0

theorem unionMask_getLsbD {terms : List Mask} {i : ℕ} :
    (unionMask terms).getLsbD i = true ↔ ∃ t ∈ terms, t.getLsbD i = true := by
  have hm : ∀ (l : List Mask) (m : Mask), (l.foldl (fun mask term => mask ||| term) m).getLsbD i = true ↔
      m.getLsbD i = true ∨ ∃ t ∈ l, t.getLsbD i = true := by
    intro l
    induction l with
    | nil => simp
    | cons t l ih => intro m; simp [ih,or_assoc]
  simpa [unionMask] using hm terms 0

/-! ### Rule instances -/

structure EvidenceRef where
  binding : String
  eventId : EventId
  sourceId : SourceId
  tEvtNs : ℤ
  deriving DecidableEq, Repr

structure InstanceFields where
  instanceId : InstanceId
  ruleId : RuleId
  ruleVersion : String
  head : FactHash
  body : List FactHash
  blockers : List Mask
  observed : Observation
  tick : ℤ
  evidence : List EvidenceRef
  licenseIds : List LicenseId
  ghost : Bool
  deriving DecidableEq, Repr

def checkTick (loc : String) (tick : ℤ) : Fallible Unit :=
  ensure (0 ≤ tick ∧ tick < 2^64)
    (ErrorType.identifierError.mk (loc++": tick out of u64 range: "++toString tick))

def InstanceFields.postInit (i : InstanceFields) : Fallible Unit := checks [
  checks (i.blockers.map fun mask => ensure (bitCount mask = 1)
    ⟨.schemaError,"E-VS-BLOCK-CONJ","RuleInstance.blockers: C-SLICE-1 narrows blockers to single literals"⟩),
  checkStrictlyAscending "RuleInstance.blockers"
    (i.blockers.map fun mask => toLex (bitCount mask,mask.toNat)),
  checkTick "RuleInstance.tick" i.tick,
  checkStrictlyAscending "RuleInstance.evidence"
    (i.evidence.map fun e => toLex (e.binding,e.eventId)),
  checkStrictlyAscending "RuleInstance.license_ids" i.licenseIds,
  ensure (¬(i.observed = .observed ∧ (i.licenseIds ≠ [] ∨ i.evidence = [])))
    (ErrorType.schemaError.mk "RuleInstance: an OBSERVED instance cites evidence and no licences"),
  ensure (¬(i.observed = .licensed ∧ (i.evidence ≠ [] ∨ i.licenseIds = [])))
    (ErrorType.schemaError.mk "RuleInstance: a LICENSED instance cites licences and no evidence"),
  ensure (¬(i.ghost = true ∧ i.observed ≠ .licensed))
    (ErrorType.schemaError.mk "RuleInstance: a GHOST-headed instance is always LICENSED")]

structure RuleInstance extends InstanceFields where
  valid : toInstanceFields.postInit = .ok ()
  deriving DecidableEq

def InstanceFields.construct (i : InstanceFields) : Fallible RuleInstance :=
  match h : i.postInit with
  | .error e => .error e
  | .ok _ => .ok ⟨i,h⟩

theorem RuleInstance.blockers_single (i : RuleInstance) : ∀ t ∈ i.blockers, bitCount t = 1 := by
  have h := i.valid
  simp only [InstanceFields.postInit,checks_cons,checks_map,ensure_ok] at h
  exact h.1

/-- body, evidence event ids, head, licence ids, rule id; the masks stay out. -/
def instancePayload (ruleId : RuleId) (head : FactHash) (body : List FactHash)
    (evidence : List EvidenceRef) (licenseIds : List LicenseId) : Fallible Bytes :=
  Framing.concat [orderedSeq asciiText body,orderedSeq asciiText (evidence.map (·.eventId)),
    asciiText head,orderedSeq asciiText licenseIds,asciiText ruleId]

theorem instancePayload_inj {r r' : RuleId} {h h' : FactHash} {b b' : List FactHash}
    {e e' : List EvidenceRef} {l l' : List LicenseId} {p : Bytes}
    (hp : instancePayload r h b e l = .ok p) (hp' : instancePayload r' h' b' e' l' = .ok p) :
    r = r' ∧ h = h' ∧ b = b' ∧ e.map (·.eventId) = e'.map (·.eventId) ∧ l = l' := by
  have hseq := orderedSeq_selfDelimiting asciiText_selfDelimiting
  obtain ⟨hb,p₁,q₁,hp₁,hq₁,h₁⟩ := hseq.peel hp hp' (x := []) (y := []) rfl
  obtain ⟨he,p₂,q₂,hp₂,hq₂,h₂⟩ := hseq.peel hp₁ hq₁ h₁
  obtain ⟨hh,p₃,q₃,hp₃,hq₃,h₃⟩ := asciiText_selfDelimiting.peel hp₂ hq₂ h₂
  obtain ⟨hl,p₄,q₄,hp₄,hq₄,h₄⟩ := hseq.peel hp₃ hq₃ h₃
  obtain ⟨hr,-⟩ := asciiText_selfDelimiting.peel hp₄ hq₄ h₄
  exact ⟨hr,hh,hb,he,hl⟩

/-! ### Threshold literals, corridors and cuts -/

/-- `control ≥ level`, with its place in the canonical order and in the bit lock. -/
structure ThresholdLiteral where
  controlId : ControlId
  level : ℕ
  bit : ℕ
  rank : ℕ
  levelRange : 1 ≤ level ∧ level ≤ 99
  bitRange : bit < 64
  rankRange : rank < 65536
  deriving DecidableEq

/-! The bounds of the first few literals. -/

theorem level_one : 1 ≤ 1 ∧ 1 ≤ 99 := by decide
theorem level_two : 1 ≤ 2 ∧ 2 ≤ 99 := by decide
theorem bit_zero : 0 < 64 := by decide
theorem bit_one : 1 < 64 := by decide
theorem bit_two : 2 < 64 := by decide
theorem bit_three : 3 < 64 := by decide
theorem rank_zero : 0 < 65536 := by decide
theorem rank_one : 1 < 65536 := by decide
theorem rank_two : 2 < 65536 := by decide
theorem rank_three : 3 < 65536 := by decide

structure Corridor where
  corridorId : String
  atomRanks : List ℕ
  mask : Mask
  deriving DecidableEq

def Corridor.mint (D : Digest) (atomRanks : List ℕ) (mask : Mask) : Fallible Corridor :=
  match checks [
      checks (atomRanks.map fun rank => ensure (rank < 65536) (widthError "u16")),
      checkStrictlyAscending "Corridor.atom_ranks" atomRanks] with
  | .error e => .error e
  | .ok _ => .ok ⟨D.mint "cor" (leb128Seq atomRanks) 32,atomRanks,mask⟩

structure CutFields where
  atoms : List ThresholdLiteral
  cardinality : ℕ
  mask : Mask
  minimality : Minimality
  deriving DecidableEq

/-- Raising a control to level L asserts the levels 1..L-1 too. -/
def CutFields.checkUpwardClosed (c : CutFields) : Fallible Unit :=
  checks (((c.atoms.map (·.controlId)).dedup.insertionSort (· ≤ ·)).map fun control =>
    let levels := ((c.atoms.filter (·.controlId = control)).map (·.level)).insertionSort (· ≤ ·)
    ensure (levels = List.range' 1 levels.length)
      ⟨.schemaError,"E-CUT-CLOSURE","Cut: "++control++" levels are not upward-closed from 1"⟩)

def CutFields.postInit (c : CutFields) : Fallible Unit := checks [
  checkStrictlyAscending "Cut.atoms" (c.atoms.map (·.rank)),
  ensure (c.cardinality < 256) (widthError "u8"),
  c.checkUpwardClosed,
  ensure (c.cardinality = (c.atoms.map (·.controlId)).dedup.length)
    (ErrorType.schemaError.mk "Cut.cardinality is not the number of raised controls")]

structure Cut extends CutFields where
  valid : toCutFields.postInit = .ok ()
  deriving DecidableEq

def maskOf (atoms : List ThresholdLiteral) : Mask :=
  unionMask (atoms.map fun a => BitVec.twoPow 64 a.bit)

def Cut.mint (atoms : List ThresholdLiteral) (minimality : Minimality) : Fallible Cut :=
  let fields : CutFields :=
    ⟨atoms,(atoms.map (·.controlId)).dedup.length,maskOf atoms,minimality⟩
  match h : fields.postInit with
  | .error e => .error e
  | .ok _ => .ok ⟨fields,h⟩

theorem maskOf_getLsbD (atoms : List ThresholdLiteral) (i : ℕ) :
    (maskOf atoms).getLsbD i = true ↔ ∃ a ∈ atoms, a.bit = i := by
  rw [maskOf,unionMask_getLsbD]
  simp only [List.mem_map,exists_exists_and_eq_and,BitVec.getLsbD_twoPow,Bool.and_eq_true,
    decide_eq_true_eq]
  constructor
  · rintro ⟨a,ha,-,h⟩; exact ⟨a,ha,h⟩
  · rintro ⟨a,ha,rfl⟩; exact ⟨a,ha,a.bitRange,rfl⟩

end Spectra
