import Spectra.RawStream

/-! `spectra_vs.degrade`: the completeness operator, the interventions, and the manifest that accounts
for everything they did. -/
namespace Spectra

open Checker (Library)

/-- Texts are unique and in bytewise order. Two texts of one normal form are refused: where the order
of a set decides, the raw event they would be part of is refused too. -/
def Checker.Library.checkSorted (lib : Library) (texts : List String) (e : SpectraError) : Fallible Unit := do
  let keys ← texts.mapM lib.orderKey
  ensure (keys.Pairwise (· < ·)) e

/-- `canon.mask_hex` of an integer that need not fit. -/
def maskHexOf (value : ℤ) : Fallible String :=
  if 0 ≤ value ∧ value < 2^64 then .ok (Checker.maskHex (BitVec.ofInt 64 value))
  else .error (widthError ("mask_hex: "++toString value++" does not fit 64 bits"))

namespace Degrade

def degradationSchema : String := "spectra.vs.degradation/1"

def manifestKind : String := "vsdegmanifest"

/-- Twenty minutes. -/
def outageBlockSpanNs : ℤ := 1200000000000

def blockKind : String := "vsdegblk"

def recordKind : String := "vsdegrec"

def selectError (detail : String) : SpectraError := ⟨.schemaError,"E-DEGRADE-SELECT",detail⟩

/-! ### Completeness -/

/-- An exact rational in lowest terms. -/
structure Completeness where
  num : ℤ
  den : ℤ
  valid : checks [
    (u32 num).map fun _ => (),
    (u32 den).map fun _ => (),
    ensure (den ≠ 0) (ErrorType.schemaError.mk "Completeness: denominator must be positive"),
    ensure (0 ≤ num ∧ num ≤ den) (ErrorType.schemaError.mk
      ("Completeness: "++toString num++"/"++toString den++" is not in [0, 1]")),
    ensure (Int.gcd num den = 1) (ErrorType.schemaError.mk
      ("Completeness: "++toString num++"/"++toString den++" is not in lowest terms; "
        ++"the contract requires a reduced rational"))] = .ok ()
  deriving DecidableEq

namespace Completeness

/-- `Completeness.of(1, 1)`. -/
def identity : Completeness := ⟨1,1,by decide⟩

variable (c : Completeness)

/-- How many of a population survive: the floor. -/
def keep (population : ℕ) : ℤ := population*c.num/c.den

def toScf : Json := .obj [("den",.int c.den),("num",.int c.num)]

instance : LT Completeness := ⟨fun c other => c.num*other.den < other.num*c.den⟩

instance (c other : Completeness) : Decidable (c < other) :=
  inferInstanceAs (Decidable (c.num*other.den < other.num*c.den))

end Completeness

/-! ### The rows of the manifest -/

/-- One deleted record. -/
structure RemovedRef where
  sourceId : SourceId
  seq : ℤ
  eventId : EventId
  deriving DecidableEq, Repr

namespace RemovedRef

variable (ref : RemovedRef)

def source : String := sourceKey ref.sourceId

def sortKey (lib : Library) : Fallible (List ℕ ×ₗ ℤ) := do
  let source ← lib.orderKey ref.source
  pure (toLex (source,ref.seq))

def toScf : Json := .obj [("event_id",.str ref.eventId),("seq",.int ref.seq),("source_id",.str ref.source)]

end RemovedRef

/-- One record whose time an operator rewrote. -/
structure RewrittenRef where
  sourceId : String
  seq : ℤ
  wasTEvtNs : ℤ
  nowTEvtNs : ℤ
  wasEventId : EventId
  nowEventId : EventId
  deriving DecidableEq, Repr

def RewrittenRef.toScf (ref : RewrittenRef) : Json := .obj [("now_event_id",.str ref.nowEventId),
  ("now_t_evt_ns",.str (Checker.decimalText ref.nowTEvtNs)),("seq",.int ref.seq),
  ("source_id",.str ref.sourceId),("was_event_id",.str ref.wasEventId),
  ("was_t_evt_ns",.str (Checker.decimalText ref.wasTEvtNs))]

/-- One record that lost attributes, and their keys. -/
structure StrippedRef where
  sourceId : String
  seq : ℤ
  fields : List String
  wasEventId : EventId
  nowEventId : EventId
  deriving DecidableEq, Repr

def StrippedRef.sortKey (lib : Library) (ref : StrippedRef) : Fallible (List ℕ ×ₗ ℤ) := do
  let source ← lib.orderKey ref.sourceId
  pure (toLex (source,ref.seq))

def StrippedRef.toScf (ref : StrippedRef) : Json := .obj [("fields",.list (ref.fields.map .str)),
  ("now_event_id",.str ref.nowEventId),("seq",.int ref.seq),("source_id",.str ref.sourceId),
  ("was_event_id",.str ref.wasEventId)]

/-- One fabricated line. -/
structure ForgedRef where
  sourceId : String
  seq : ℤ
  tEvtNs : ℤ
  eventType : String
  eventId : EventId
  deriving DecidableEq, Repr

def ForgedRef.sortKey (lib : Library) (ref : ForgedRef) : Fallible (List ℕ ×ₗ ℤ) := do
  let source ← lib.orderKey ref.sourceId
  pure (toLex (source,ref.seq))

def ForgedRef.toScf (ref : ForgedRef) : Json := .obj [("event_id",.str ref.eventId),
  ("event_type",.str ref.eventType),("fate",.str "synthetic"),("kind",.str "forged"),("seq",.int ref.seq),
  ("source_id",.str ref.sourceId),("t_evt_ns",.str (Checker.decimalText ref.tEvtNs))]

/-- One real record that was renumbered. -/
structure ResealedRef where
  sourceId : String
  wasSeq : ℤ
  nowSeq : ℤ
  wasEventId : EventId
  nowEventId : EventId
  deriving DecidableEq, Repr

def ResealedRef.sortKey (lib : Library) (ref : ResealedRef) : Fallible (List ℕ ×ₗ ℤ) := do
  let source ← lib.orderKey ref.sourceId
  pure (toLex (source,ref.nowSeq))

def ResealedRef.toScf (ref : ResealedRef) : Json := .obj [("now_event_id",.str ref.nowEventId),
  ("now_seq",.int ref.nowSeq),("source_id",.str ref.sourceId),("was_event_id",.str ref.wasEventId),
  ("was_seq",.int ref.wasSeq)]

/-! ### The interventions -/

/-- Delete the records of some sources in a half-open window. -/
structure Blackout (lib : Library) where
  sources : List String
  t0Ns : ℤ
  t1Ns : ℤ
  valid : checks [
    ensure (sources ≠ []) (ErrorType.schemaError.mk "Blackout: at least one source is required"),
    lib.checkSorted sources (ErrorType.schemaError.mk
      "Blackout: sources must be unique and in bytewise order"),
    (u64 t0Ns).map fun _ => (),
    (u64 t1Ns).map fun _ => (),
    ensure (t0Ns < t1Ns) (ErrorType.schemaError.mk "Blackout: the window must be non-empty, t0 < t1")] = .ok ()

variable {lib : Library}

def Blackout.covers (spec : Blackout lib) (r : RawEvent lib) : Bool :=
  r.source ∈ spec.sources ∧ spec.t0Ns ≤ r.tEvtNs ∧ r.tEvtNs < spec.t1Ns

def Blackout.toScf (spec : Blackout lib) : Json := .obj [("sources",.list (spec.sources.map .str)),
  ("t0_ns",.str (Checker.decimalText spec.t0Ns)),("t1_ns",.str (Checker.decimalText spec.t1Ns))]

/-- Move the time of one record. -/
structure Backdate where
  sourceId : String
  eventType : String
  shiftNs : ℤ
  occurrence : ℤ := 0
  valid : checks [
    ensure (sourceId ≠ "" ∧ eventType ≠ "") (ErrorType.schemaError.mk
      "Backdate: source_id and event_type are required"),
    ensure (shiftNs ≠ 0) (ErrorType.schemaError.mk "Backdate: a zero shift rewrites nothing"),
    (i64 shiftNs).map fun _ => ()] = .ok ()

def Backdate.selects (spec : Backdate) (r : RawEvent lib) : Bool :=
  r.source = spec.sourceId ∧ r.eventType = spec.eventType

/-- The occurrence is written as it is; one outside u32 is refused by the encoding. -/
def Backdate.members (spec : Backdate) : List (String × Json) := [("event_type",.str spec.eventType),
  ("occurrence",.int spec.occurrence),("shift_ns",.str (Checker.decimalText spec.shiftNs)),
  ("source_id",.str spec.sourceId)]

/-- Remove some attributes of one source. -/
structure StripIdentity (lib : Library) where
  sourceId : String
  fields : List String
  valid : checks [
    ensure (sourceId ≠ "") (ErrorType.schemaError.mk "StripIdentity: source_id is required"),
    ensure (fields ≠ []) (ErrorType.schemaError.mk "StripIdentity: at least one field is required"),
    ensure (∀ name ∈ fields, name ≠ "") (ErrorType.schemaError.mk
      "StripIdentity: a field name must be a non-empty string"),
    lib.checkSorted fields (ErrorType.schemaError.mk
      "StripIdentity: fields must be unique and in bytewise order")] = .ok ()

def StripIdentity.selects (spec : StripIdentity lib) (r : RawEvent lib) : Bool := r.source = spec.sourceId

/-- The named keys the record carries. -/
def StripIdentity.strips (spec : StripIdentity lib) (r : RawEvent lib) : List String :=
  if spec.selects r then spec.fields.filter (· ∈ r.attrs.map (·.1)) else []

def StripIdentity.members (spec : StripIdentity lib) : List (String × Json) :=
  [("fields",.list (spec.fields.map .str)),("source_id",.str spec.sourceId)]

/-- Fabricate records behind one of a source, and renumber those that follow. -/
structure ChainForge (lib : Library) where
  sourceId : String
  afterSeq : ℤ
  count : ℤ
  eventType : String
  attrs : List (String × String) := []
  valid : checks [
    ensure (sourceId ≠ "" ∧ eventType ≠ "") (ErrorType.schemaError.mk
      "ChainForge: source_id and event_type are required"),
    (u32 afterSeq).map fun _ => (),
    (u32 count).map fun _ => (),
    ensure (count ≠ 0) (ErrorType.schemaError.mk "ChainForge: a count of zero fabricates nothing"),
    lib.checkSorted (attrs.map (·.1)) (ErrorType.schemaError.mk
      "ChainForge: template attribute keys must be unique and in bytewise order")] = .ok ()

def ChainForge.members (spec : ChainForge lib) : List (String × Json) := [("after_seq",.int spec.afterSeq),
  ("attrs",.obj (spec.attrs.map fun p => (p.1,.str p.2))),("count",.int spec.count),
  ("event_type",.str spec.eventType),("source_id",.str spec.sourceId)]

/-! ### Results -/

/-- The surviving stream, and what accounts for every deletion. -/
structure ResultFields (lib : Library) where
  raw : List (RawEvent lib)
  removed : List RemovedRef
  completeness : Completeness
  degradationSeed : ℤ
  parentRawHash : String
  nestedParentManifestHash : Option String := none
  blackout : Option (Blackout lib) := none
  backdate : Option Backdate := none
  rewritten : List RewrittenRef := []
  stripIdentity : Option (StripIdentity lib) := none
  stripped : List StrippedRef := []
  chainForge : Option (ChainForge lib) := none
  forged : List ForgedRef := []
  resealed : List ResealedRef := []

namespace ResultFields

variable (r : ResultFields lib)

/-- The interventions the result carries. -/
def applied : List String := (List.filter (·.2) [("whole_source_blackout",r.blackout.isSome),
  ("backdate",r.backdate.isSome),("strip_identity",r.stripIdentity.isSome),
  ("chain_forge",r.chainForge.isSome)]).map (·.1)

/-- Rows of one kind are there with their operator only. -/
def checkRows (rows owner : Bool) (name : String) : Fallible Unit :=
  ensure (rows = true → owner = true) (ErrorType.schemaError.mk ("DegradationResult: "++name
    ++" rows without the operator that produced them would describe a change that nothing did"))

def postInit : Fallible Unit := checks [
  ensure (r.applied.length ≤ 1) (ErrorType.schemaError.mk
    ("DegradationResult: a cell applies one operator; "++" with ".intercalate r.applied
      ++" could not attribute an effect to either")),
  checkRows (!r.rewritten.isEmpty) r.backdate.isSome "rewritten",
  checkRows (!r.stripped.isEmpty) r.stripIdentity.isSome "stripped",
  checkRows (!r.forged.isEmpty) r.chainForge.isSome "forged",
  checkRows (!r.resealed.isEmpty) r.chainForge.isSome "resealed"]

/-- The deletions as pairs of a source and a number. -/
def removedKeys : List (String × ℤ) := r.removed.map fun ref => (ref.source,ref.seq)

/-- `_operator_name`. -/
def operatorName : String :=
  if r.backdate.isSome then "backdate"
  else if r.blackout.isSome then "whole_source_blackout"
  else if r.stripIdentity.isSome then "strip_identity"
  else if r.chainForge.isSome then "chain_forge"
  else "delete"

def manifest : Fallible Json := do
  let seed ← maskHexOf r.degradationSeed
  pure (.obj ([("completeness",r.completeness.toScf),("degradation_seed",.str seed),
    ("operators",.list [.str r.operatorName]),("parent_raw_hash",.str r.parentRawHash),
    ("removed",.list (r.removed.map (·.toScf))),("schema",.str degradationSchema)]++
    (r.blackout.map fun spec => ("blackout",spec.toScf)).toList++
    (r.backdate.map fun spec => ("backdate",.obj (spec.members++
      [("rewritten",.list (r.rewritten.map (·.toScf)))]))).toList++
    (r.stripIdentity.map fun spec => ("strip_identity",.obj (spec.members++
      [("stripped",.list (r.stripped.map (·.toScf)))]))).toList++
    (r.chainForge.map fun spec => ("chain_forge",.obj (spec.members++
      [("forged",.list (r.forged.map (·.toScf))),("resealed",.list (r.resealed.map (·.toScf)))]))).toList++
    (r.nestedParentManifestHash.map fun hash => ("nested_parent_manifest_hash",.str hash)).toList))

def manifestHash : Fallible String := do
  let document ← r.manifest
  pure (lib.hashRef manifestKind (← document.scfBytes "manifest"))

end ResultFields

/-- A result of one operator. -/
structure DegradationResult (lib : Library) extends ResultFields lib where
  valid : toResultFields.postInit = .ok ()

def ResultFields.construct (r : ResultFields lib) : Fallible (DegradationResult lib) :=
  validated r.postInit fun h => ⟨r,h⟩

/-! ### The completeness operator -/

/-- The order deletion walks: the block of an outage first, the record second. The digests are compared
as lowercase hexadecimal, which keeps their order. -/
def deletionKey (seed : ℤ) (r : RawEvent lib) : Fallible (List ℕ ×ₗ ℤ ×ₗ List ℕ ×ₗ ℤ) := do
  let block := r.tEvtNs/outageBlockSpanNs
  let blockPayload ← Framing.concat [u64 seed,asciiText r.source,i64 block]
  let eventId ← r.eventId lib
  let recordPayload ← Framing.concat [u64 seed,asciiText eventId]
  pure (toLex (ordinals (octets (lib.digestHex blockKind blockPayload 32)),toLex (block,
    toLex (ordinals (octets (lib.digestHex recordKind recordPayload 32)),r.seq))))

def removedRef (r : RawEvent lib) : Fallible RemovedRef := do
  let eventId ← r.eventId lib
  pure ⟨r.sourceId,r.seq,eventId⟩

/-- How many of the records of a source go. -/
def Completeness.cut (c : Completeness) (population : ℕ) : ℕ := (population-c.keep population).toNat

/-- One source: what is removed, and what survives. -/
def degradeSource (c : Completeness) (seed : ℤ) (name : String) (records : List (RawEvent lib)) :
    Fallible (List RemovedRef × List (RawEvent lib)) := do
  checkStrictlyAscending ("degrade."++name++".seq")
    ((records.insertionSort (·.seq ≤ ·.seq)).map (·.seq))
  let order ← sortedOn (deletionKey seed) records
  let removed ← (order.take (c.cut records.length)).mapM removedRef
  pure (removed,order.drop (c.cut records.length))

/-- The deletions of all sources, and the survivors, each in the order of its file. -/
def deletions (raw : List (RawEvent lib)) (c : Completeness) (seed : ℤ) :
    Fallible (List RemovedRef × List (RawEvent lib)) := do
  let _ ← u64 seed
  let bySource ← sortedOn (fun p => lib.orderKey p.1) (Groups.gather (·.source) raw)
  let parts ← bySource.mapM fun p => degradeSource c seed p.1 p.2
  let removed ← sortedOn (·.sortKey lib) (parts.flatMap (·.1))
  checkStrictlyAscending "degrade.removed" (← removed.mapM (·.sortKey lib))
  let survivors := (parts.flatMap (·.2)).insertionSort (·.sortKey ≤ ·.sortKey)
  checkStrictlyAscending "degrade.raw" (survivors.map (·.sortKey))
  pure (removed,survivors)

def nestingViolated : SpectraError := ErrorType.schemaError.mk
  ("degrade: nesting violated; the lower completeness level must delete a superset of the higher "
    ++"level's deletions")

/-- What is checked against the result of the higher level, and the digest that is cited. -/
def nestedHash (c : Completeness) (seed : ℤ) (removed : List RemovedRef) :
    Option (DegradationResult lib) → Fallible (Option String)
  | none => .ok none
  | some parent => do
    ensure (c < parent.completeness) (ErrorType.schemaError.mk
      ("degrade: parent completeness "++toString parent.completeness.num++"/"
        ++toString parent.completeness.den++" must be strictly greater than "++toString c.num++"/"
        ++toString c.den))
    ensure (parent.degradationSeed = seed) (ErrorType.schemaError.mk
      "degrade: a nested chain must hold the degradation seed fixed")
    ensure (parent.removedKeys ⊆ removed.map fun ref => (ref.source,ref.seq)) nestingViolated
    let hash ← parent.manifestHash
    pure (some hash)

/-- Delete records down to a completeness. -/
def degrade (raw : List (RawEvent lib)) (c : Completeness) (seed : ℤ)
    (parent : Option (DegradationResult lib)) : Fallible (DegradationResult lib) := do
  let (removed,survivors) ← deletions raw c seed
  let parentHash ← nestedHash c seed removed parent
  let parentRawHash ← rawHash raw
  ResultFields.construct {raw := survivors
                          removed
                          completeness := c
                          degradationSeed := seed
                          parentRawHash
                          nestedParentManifestHash := parentHash}

/-! ### The other operators -/

/-- Delete exactly the records that the window covers. -/
def blackout (raw : List (RawEvent lib)) (spec : Blackout lib) : Fallible (DegradationResult lib) := do
  let covered ← (raw.filter spec.covers).mapM removedRef
  let removed ← sortedOn (·.sortKey lib) covered
  let survivors := (raw.filter (!spec.covers ·)).insertionSort (·.sortKey ≤ ·.sortKey)
  checkStrictlyAscending "blackout.raw" (survivors.map (·.sortKey))
  let parentRawHash ← rawHash raw
  ResultFields.construct {raw := survivors
                          removed
                          completeness := .identity
                          degradationSeed := 0
                          parentRawHash
                          blackout := some spec}

/-- `matching[occurrence]`: from the front, or from the back when it is negative. -/
def occurrenceOf {α : Type} (matching : List α) (occurrence : ℤ) : Option α :=
  if 0 ≤ occurrence then matching[occurrence.toNat]?
  else if -occurrence ≤ matching.length then matching[(matching.length+occurrence).toNat]?
  else none

/-- Move the time of one selected record. -/
def backdate (raw : List (RawEvent lib)) (spec : Backdate) : Fallible (DegradationResult lib) := do
  let numbered ← sortedOn (fun p : RawEvent lib × ℕ => do
    let eventId ← p.1.eventId lib
    pure (toLex (p.1.seq,eventId))) (raw.zipIdx.filter (spec.selects ·.1))
  ensure (numbered ≠ []) (selectError ("backdate: no record of "++spec.eventType++" on "
    ++spec.sourceId++" to rewrite"))
  match occurrenceOf numbered spec.occurrence with
  | none => .error (selectError ("backdate: occurrence "++toString spec.occurrence++" of "
      ++toString numbered.length++" does not exist"))
  | some (target,index) =>
    let movedTo := target.tEvtNs+spec.shiftNs
    ensure (0 ≤ movedTo) (selectError "backdate: the shift moves the record before the epoch")
    let moved ← RawFields.construct lib {target.toRawFields with tEvtNs := movedTo}
    let survivors := (raw.set index moved).insertionSort (·.sortKey ≤ ·.sortKey)
    checkStrictlyAscending "backdate.raw" (survivors.map (·.sortKey))
    let parentRawHash ← rawHash raw
    let wasEventId ← target.eventId lib
    let nowEventId ← moved.eventId lib
    ResultFields.construct {raw := survivors
                            removed := []
                            completeness := .identity
                            degradationSeed := 0
                            parentRawHash
                            backdate := some spec
                            rewritten := [⟨target.source,target.seq,target.tEvtNs,movedTo,wasEventId,
                              nowEventId⟩]}

/-- One record without the named attributes it carries. -/
def stripRecord (spec : StripIdentity lib) (r : RawEvent lib) :
    Fallible (RawEvent lib × Option StrippedRef) := do
  let removedKeys := spec.strips r
  if removedKeys = [] then pure (r,none)
  else
    let kept ← RawFields.construct lib {r.toRawFields with
      attrs := r.attrs.filter (·.1 ∉ removedKeys)}
    let wasEventId ← r.eventId lib
    let nowEventId ← kept.eventId lib
    pure (kept,some ⟨r.source,r.seq,removedKeys,wasEventId,nowEventId⟩)

/-- Remove some attributes from the records of one source. -/
def stripIdentity (raw : List (RawEvent lib)) (spec : StripIdentity lib) :
    Fallible (DegradationResult lib) := do
  let kept ← raw.mapM (stripRecord spec)
  let stripped := kept.filterMap (·.2)
  ensure (stripped ≠ []) (selectError ("strip_identity: no record on "++spec.sourceId
    ++" carries any of the fields to remove"))
  let ordered := (kept.map (·.1)).insertionSort (·.sortKey ≤ ·.sortKey)
  checkStrictlyAscending "strip_identity.raw" (ordered.map (·.sortKey))
  let parentRawHash ← rawHash raw
  let stripped ← sortedOn (·.sortKey lib) stripped
  ResultFields.construct {raw := ordered
                          removed := []
                          completeness := .identity
                          degradationSeed := 0
                          parentRawHash
                          stripIdentity := some spec
                          stripped}

/-- One fabricated record, in the gap behind its host. -/
def fabricate (spec : ChainForge lib) (host : RawEvent lib) (step : ℤ) (index : ℕ) :
    Fallible (RawEvent lib × ForgedRef) := do
  let r ← RawFields.construct lib ⟨host.sourceId,spec.afterSeq+1+index,host.tEvtNs+step*(index+1),
    spec.eventType,spec.attrs⟩
  let eventId ← r.eventId lib
  pure (r,⟨spec.sourceId,r.seq,r.tEvtNs,r.eventType,eventId⟩)

/-- One real record, renumbered when it comes later on the source. -/
def reseal (spec : ChainForge lib) (r : RawEvent lib) : Fallible (RawEvent lib × Option ResealedRef) := do
  if r.source ≠ spec.sourceId ∨ r.seq ≤ spec.afterSeq then pure (r,none)
  else
    let moved ← RawFields.construct lib {r.toRawFields with seq := r.seq+spec.count}
    let wasEventId ← r.eventId lib
    let nowEventId ← moved.eventId lib
    pure (moved,some ⟨spec.sourceId,r.seq,moved.seq,wasEventId,nowEventId⟩)

/-- The fabricated records and the renumbered ones. -/
def forge (raw : List (RawEvent lib)) (spec : ChainForge lib) (host successor : RawEvent lib) :
    Fallible (DegradationResult lib) := do
  let gap := successor.tEvtNs-host.tEvtNs
  ensure (spec.count+1 ≤ gap) (selectError ("chain_forge: the "++toString gap++" ns between records "
    ++toString host.seq++" and "++toString successor.seq++" of "++spec.sourceId++" cannot hold "
    ++toString spec.count++" distinct instants strictly inside it"))
  let fabricated ← (List.range spec.count.toNat).mapM (fabricate spec host (gap/(spec.count+1)))
  let kept ← raw.mapM (reseal spec)
  let ordered := (fabricated.map (·.1)++kept.map (·.1)).insertionSort (·.sortKey ≤ ·.sortKey)
  checkStrictlyAscending "chain_forge.raw" (ordered.map (·.sortKey))
  let parentRawHash ← rawHash raw
  let forged ← sortedOn (·.sortKey lib) (fabricated.map (·.2))
  let resealed ← sortedOn (·.sortKey lib) (kept.filterMap (·.2))
  ResultFields.construct {raw := ordered
                          removed := []
                          completeness := .identity
                          degradationSeed := 0
                          parentRawHash
                          chainForge := some spec
                          forged
                          resealed}

/-- Insert fabricated records behind one of a source, and reseal the numbering after them. -/
def chainForge (raw : List (RawEvent lib)) (spec : ChainForge lib) : Fallible (DegradationResult lib) := do
  let source := (raw.filter (·.source = spec.sourceId)).insertionSort (·.seq ≤ ·.seq)
  ensure (source ≠ []) (selectError ("chain_forge: "++spec.sourceId++" delivered no record to forge onto"))
  checkStrictlyAscending ("chain_forge."++spec.sourceId++".seq") (source.map (·.seq))
  let vocabulary ← sortedOn lib.orderKey (source.map (·.eventType)).dedup
  ensure (spec.eventType ∈ vocabulary) (selectError ("chain_forge: "++spec.sourceId++" never emitted "
    ++spec.eventType++"; a fabrication outside the source's own vocabulary is distinguishable without "
    ++"looking at the chain at all"))
  -- the host and what follows it
  match source.dropWhile (·.seq ≠ spec.afterSeq) with
  | [] => .error (selectError ("chain_forge: "++spec.sourceId++" has no record numbered "
      ++toString spec.afterSeq))
  | [_] => .error (selectError ("chain_forge: record "++toString spec.afterSeq++" is the last on "
      ++spec.sourceId++"; appending past the end needs no reseal and is not this operator"))
  | host::successor::_ => forge raw spec host successor

end Degrade

end Spectra
