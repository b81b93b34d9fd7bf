import Spectra.Bundle
import Spectra.Scf

/-! `spectra_vs.ingest`: raw lines become the sealed bundle, and every line that does not is
accounted for. -/
namespace Spectra

open Checker (Library)

/-! ### Outcomes -/

/-- What ingest can raise: the abort on a leaked oracle key, an error of the project, or a
built-in exception nothing catches. -/
inductive IngestError where
  | labelPurity (key : String)
  | spectra (e : SpectraError)
  | unicodeEncode
  | valueError
  | keyError
  deriving DecidableEq

abbrev Ingested (α : Type) := Except IngestError α

def ingested {α : Type} (x : Fallible α) : Ingested α := x.mapError .spectra

@[simp] theorem ingested_ok {α : Type} {x : Fallible α} {a : α} : ingested x = .ok a ↔ x = .ok a := by
  cases x <;> simp [ingested,Except.mapError]

inductive IntegrityClass where
  | chained | sequenced | unlinked
  deriving DecidableEq, Repr

/-- `Source`, as far as ingest reads it; the id is its snake. -/
structure DeclaredSource where
  source : String
  integrityClass : IntegrityClass
  emitsEventTypes : List String
  deriving DecidableEq, Repr

inductive QuarantineReason where
  | unparseable | noncanonical | floatPresent | unknownSource | unknownEventType | duplicateRecord
  | seqRegression | arithSaturation
  deriving DecidableEq, Repr

def QuarantineReason.text : QuarantineReason → String
  | .unparseable => "Q_UNPARSEABLE"
  | .noncanonical => "Q_NONCANONICAL"
  | .floatPresent => "Q_FLOAT_PRESENT"
  | .unknownSource => "Q_UNKNOWN_SOURCE"
  | .unknownEventType => "Q_UNKNOWN_EVENT_TYPE"
  | .duplicateRecord => "Q_DUPLICATE_RECORD"
  | .seqRegression => "Q_SEQ_REGRESSION"
  | .arithSaturation => "Q_ARITH_SATURATION"

structure QuarantineRecord where
  reason : QuarantineReason
  sourceId : String
  recordId : String
  detail : String
  deriving DecidableEq, Repr

/-- The bounds on a raw line and on the record it makes. -/
structure IngestLimits where
  maxLineBytes : ℕ := 65536
  maxRecordBytes : ℕ := 65536
  maxAttrs : ℕ := 64
  maxAttrKeyBytes : ℕ := 64
  maxAttrValueBytes : ℕ := 4096
  maxEventTypeBytes : ℕ := 64
  maxRecords : ℕ := 2000000
  deriving DecidableEq, Repr

/-- The library, and which texts UTF-8 encodes: all but those with a lone surrogate. -/
structure Runtime extends Library where
  encodes : String → Bool

def Runtime.encode (rt : Runtime) (s : String) : Ingested Bytes :=
  if rt.encodes s then .ok (octets s) else .error .unicodeEncode

/-- A line that passed every per-line check. -/
structure Candidate where
  recordId : String
  source : String
  seq : ℤ
  eventType : String
  tEvtNs : ℤ
  attrs : List (String × String)
  deriving DecidableEq, Repr

/-! ### Lines -/

/-- `_split_lines`: the lines, and whether a line feed ends each. -/
def splitOctets (raw : Bytes) : List (Bytes × Bool) :=
  if raw = [] then []
  else
    let parts := raw.splitOn 0x0a
    if parts.getLast? = some [] then parts.dropLast.map fun part => (part,true)
    else parts.zipIdx.map fun p => (p.1,decide (p.2+1 ≠ parts.length))

/-- One octet string occurs inside another. -/
def occursIn (part line : Bytes) : Bool := line.tails.any (part.isPrefixOf ·)

def forbiddenKeys : List String := ["is_attack","label","scenario","truth"]

def forbiddenKeyPrefix : String := "__truth"

def forbiddenKey (key : String) : Bool :=
  forbiddenKeys.contains key || Checker.hasPrefix forbiddenKeyPrefix key

/-- `_scan_bytes_for_labels`. -/
def scanBytesForLabels (line : Bytes) : Option String :=
  match forbiddenKeys.find? fun key => occursIn (0x22::octets key++[0x22]) line with
  | some key => some key
  | none =>
    if occursIn (0x22::octets forbiddenKeyPrefix) line then some (forbiddenKeyPrefix++"*") else none

/-- The first forbidden key in sorted order. -/
def leakedKey (members : List (String × Json)) : Option String :=
  ((members.map (·.1)).insertionSort (· ≤ ·)).find? forbiddenKey

/-- `_assert_label_pure`: the record's own keys, then those of its attributes. -/
def assertLabelPure (parsed : List (String × Json)) : Ingested Unit :=
  match leakedKey parsed with
  | some key => .error (.labelPurity key)
  | none => match Dict.get? parsed "attrs" with
    | some (.obj attrs) => match leakedKey attrs with
      | some key => .error (.labelPurity key)
      | none => .ok ()
    | _ => .ok ()

/-- `_pairs_hook`, `_reject_float` and `_reject_constant`; the two exceptions of ingest are
told apart by the detail they are quarantined under. -/
def ingestHooks : Checker.Hooks :=
  ⟨fun pairs => if (pairs.map (·.1)).Nodup then .ok (.obj pairs) else reject "duplicate_key",
    fun _ => reject "float_literal",fun _ => reject "float_literal"⟩

def rawMembers : List String := ["attrs","event_type","seq","source_id","t_evt_ns"]

/-- `0|-?[1-9][0-9]*`. -/
def isInstantText (s : String) : Bool :=
  match octets s with
  | 0x2d::digits => Checker.isNumeral digits && digits ≠ [0x30]
  | digits => Checker.isNumeral digits

/-- `int` of such a text; the interpreter refuses more than 4300 digits. -/
def instantOf (s : String) : Ingested ℤ :=
  match Checker.intText (.str s) with
  | .ok n => .ok n
  | .error _ => .error .valueError

/-- A drop: the reason and the detail. -/
abbrev Drop := QuarantineReason × String

/-- What the normal form of a text tells: it is rejected, it differs, or it is the text. -/
def checkNormal (rt : Runtime) (form : Drop) (s : String) : Option Drop :=
  match nfc (rt.normalize s) with
  | .error _ => some form
  | .ok t => if t = s then none else some (.noncanonical,"not_nfc")

/-- The checks on one attribute. -/
def checkAttr (rt : Runtime) (limits : IngestLimits) (p : String × Json) :
    Ingested (Option Drop) :=
  if !Checker.isKey p.1 then .ok (some (.unparseable,"attr_key_form"))
  else if limits.maxAttrKeyBytes < (octets p.1).length then .ok (some (.unparseable,"attr_key_too_long"))
  else match p.2 with
    | .str value => do
      let encoded ← rt.encode value
      if limits.maxAttrValueBytes < encoded.length then
        return some (.unparseable,"attr_value_too_long")
      return checkNormal rt (.unparseable,"attr_value_form") value
    | _ => .ok (some (.unparseable,"attr_value_form"))

/-- The first attribute that is dropped for. -/
def checkAttrList (rt : Runtime) (limits : IngestLimits) :
    List (String × Json) → Ingested (Option Drop)
  | [] => .ok none
  | p::rest => do
    match ← checkAttr rt limits p with
    | some drop => pure (some drop)
    | none => checkAttrList rt limits rest

/-- The attributes, which are all texts once they have been checked. -/
def attrTexts (attrs : List (String × Json)) : List (String × String) :=
  attrs.filterMap fun p => p.2.str?.map fun value => (p.1,value)

/-- The checks on a record of a declared source, in order: a candidate, or the first drop. -/
def checkRecord (rt : Runtime) (limits : IngestLimits) (line : Bytes) (source : DeclaredSource)
    (parsed : List (String × Json)) : Ingested (Candidate ⊕ Drop) := do
  let eventType ← match Dict.get? parsed "event_type" with
    | some (.str eventType) => pure eventType
    | _ => return .inr (.unknownEventType,"event_type_form")
  if eventType = "" then return .inr (.unknownEventType,"event_type_form")
  let encoded ← rt.encode eventType
  if limits.maxEventTypeBytes < encoded.length then
    return .inr (.unknownEventType,"event_type_too_long")
  if let some drop := checkNormal rt (.unknownEventType,"event_type_form") eventType then
    return .inr drop
  if eventType ∉ source.emitsEventTypes then
    return .inr (.unknownEventType,"event_type_undeclared")
  let seq ← match Dict.get? parsed "seq" with
    | some (.int seq) => pure seq
    | _ => return .inr (.unparseable,"seq_form")
  if ¬(0 ≤ seq ∧ seq < 2^32) then return .inr (.unparseable,"seq_width")
  let instant ← match Dict.get? parsed "t_evt_ns" with
    | some (.str instant) => pure instant
    | _ => return .inr (.unparseable,"t_evt_ns_form")
  if !isInstantText instant then return .inr (.unparseable,"t_evt_ns_form")
  let tEvtNs ← instantOf instant
  if ¬(-2^63 ≤ tEvtNs ∧ tEvtNs < 2^63) then return .inr (.arithSaturation,"t_evt_ns_width")
  let attrs ← match Dict.get? parsed "attrs" with
    | some (.obj attrs) => pure attrs
    | _ => return .inr (.unparseable,"attrs_form")
  if limits.maxAttrs < attrs.length then return .inr (.unparseable,"attr_count")
  if let some drop ← checkAttrList rt limits attrs then return .inr drop
  match (Json.obj parsed).scfDumps with
  | .error _ => return .inr (.noncanonical,"key_form")
  | .ok reserialised =>
    if limits.maxRecordBytes < reserialised.length then
      return .inr (.unparseable,"record_too_large")
    if reserialised ≠ line then return .inr (.noncanonical,"reserialise_differs")
    return .inl ⟨"rc:"++rt.digestHex "rc" line 32,source.source,seq,eventType,tEvtNs,
      (attrTexts attrs).insertionSort (·.1 ≤ ·.1)⟩

/-- `_ingest_one`: the candidate a line makes, or the record of its drop. -/
def ingestOne (rt : Runtime) (limits : IngestLimits) (declared : List (String × DeclaredSource))
    (line : Bytes) (hasNewline : Bool) : Ingested (Candidate ⊕ QuarantineRecord) := do
  let drop (sourceId : String) (d : Drop) : Candidate ⊕ QuarantineRecord :=
    .inr ⟨d.1,sourceId,"rc:"++rt.digestHex "rc" line 32,d.2⟩
  if !hasNewline then return drop "" (.noncanonical,"no_trailing_newline")
  if line = [] then return drop "" (.unparseable,"empty_line")
  if limits.maxLineBytes < line.length then
    match scanBytesForLabels line with
    | some key => throw (.labelPurity key)
    | none => return drop "" (.unparseable,"line_too_long")
  match rt.decode line with
  | none => return drop "" (.unparseable,"invalid_utf8")
  | some text => match rt.jsonLoads ingestHooks text with
    | .error (.rejected detail) =>
      return drop "" (if detail = "float_literal" then .floatPresent else .noncanonical,detail)
    | .error _ => return drop "" (.unparseable,"not_json")
    | .ok (.obj parsed) =>
      assertLabelPure parsed
      if ¬(rawMembers ⊆ parsed.map (·.1) ∧ parsed.map (·.1) ⊆ rawMembers) then
        return drop "" (.unparseable,"member_set")
      match Dict.get? parsed "source_id" with
      | some (.str rawSource) =>
        if !isSnake rawSource then return drop "" (.unknownSource,"source_id_form")
        match Dict.get? declared rawSource with
        | none => return drop rawSource (.unknownSource,"source_undeclared")
        | some source => match ← checkRecord rt limits line source parsed with
          | .inl candidate => return .inl candidate
          | .inr d => return drop rawSource d
      | _ => return drop "" (.unknownSource,"source_id_form")
    | .ok _ => return drop "" (.unparseable,"not_object")

/-! ### Collisions -/

/-- The candidates under each key, in the order of the keys. -/
def grouped {κ : Type} [LinearOrder κ] (key : Candidate → κ) (candidates : List Candidate) :
    List (κ × List Candidate) :=
  (candidates.foldl (fun d c => Dict.set d (key c) ((Dict.get? d (key c)).getD []++[c])) []).insertionSort
    (·.1 ≤ ·.1)

/-- The copies of a line that are dropped. -/
def duplicates (candidates : List Candidate) : List QuarantineRecord :=
  (grouped (·.recordId) candidates).flatMap fun group => group.2.tail.map fun extra =>
    ⟨.duplicateRecord,extra.source,group.1,"identical_line"⟩

/-- One candidate for each line. -/
def uniqueCandidates (candidates : List Candidate) : List Candidate :=
  (grouped (·.recordId) candidates).flatMap fun group => group.2.head?.toList

def bySeq (candidates : List Candidate) : List ((String ×ₗ ℤ) × List Candidate) :=
  grouped (fun c => toLex (c.source,c.seq)) (uniqueCandidates candidates)

/-- All the candidates that claim one sequence number of a source. -/
def seqCollisions (candidates : List Candidate) : List QuarantineRecord :=
  (bySeq candidates).flatMap fun group => if group.2.length = 1 then []
    else group.2.map fun colliding => ⟨.seqRegression,colliding.source,colliding.recordId,"seq_collision"⟩

/-- `_drop_cross_record_collisions`. -/
def dropCrossRecordCollisions (candidates : List Candidate) :
    List Candidate × List QuarantineRecord :=
  ((bySeq candidates).flatMap fun group => if group.2.length = 1 then group.2 else [],
    duplicates candidates++seqCollisions candidates)

/-! ### Sealing -/

section

variable (lib : Library)

/-- `chain_genesis`. -/
def chainGenesis (sourceId : SourceId) : Fallible String := do
  pure (lib.hashRef "chain" (← asciiText sourceId))

/-- `chain_seal`. -/
def chainSeal (e : BundleFields) (chainPrev : String) : Fallible String := do
  let payload ← Framing.concat [parseHashRef chainPrev,asciiText e.eventId,e.identityBytes lib,i64 e.tIngNs]
  pure (lib.hashRef "chain" payload)

def BundleFields.construct (e : BundleFields) : Fallible (BundleRecord lib) :=
  validated (e.postInit lib) fun h => ⟨e,h⟩

/-- The event of a candidate, under the id its content mints. -/
def unsealedEvent (ingestTimeNs : Option ℤ) (c : Candidate) : Fallible (BundleRecord lib) := do
  let fields : BundleFields := ⟨"",c.recordId,c.source,c.seq,c.eventType,c.tEvtNs,
    ingestTimeNs.getD c.tEvtNs,c.attrs,none,none⟩
  let payload ← fields.identityBytes lib
  {fields with eventId := "ev:"++lib.digestHex "ev" payload 16}.construct lib

/-- The bundle file order. -/
def BundleFields.sortKey (e : BundleFields) : ℤ ×ₗ SourceId ×ₗ ℤ ×ₗ EventId :=
  toLex (e.tEvtNs,toLex (e.sourceId,toLex (e.seq,e.eventId)))

/-- The hash the next event of a source is chained to. -/
def lastHash (chains : List (String × String)) (e : BundleFields) : Ingested String :=
  match Dict.get? chains e.source with
  | some last => .ok last
  | none => ingested (chainGenesis lib e.sourceId)

/-- One event joins the chain of its source, unless the source declares none. -/
def sealNext (declared : List (String × DeclaredSource))
    (st : List (String × String) × List (BundleRecord lib)) (e : BundleRecord lib) :
    Ingested (List (String × String) × List (BundleRecord lib)) :=
  match Dict.get? declared e.source with
  | none => .error .keyError
  | some source =>
    if source.integrityClass = .unlinked then .ok (st.1,st.2++[e])
    else do
      let chainPrev ← lastHash lib st.1 e.toBundleFields
      let chainHash ← ingested (chainSeal lib e.toBundleFields chainPrev)
      let linked ← ingested ({e.toBundleFields with
        chainHash := some chainHash,chainPrev := some chainPrev}.construct lib)
      pure (Dict.set st.1 e.source chainHash,st.2++[linked])

/-- `_seal`. -/
def sealEvents (declared : List (String × DeclaredSource)) (ingestTimeNs : Option ℤ)
    (candidates : List Candidate) : Ingested (List (BundleRecord lib)) := do
  let unsealed ← candidates.mapM fun c => ingested (unsealedEvent lib ingestTimeNs c)
  let ordered := unsealed.insertionSort (·.sortKey ≤ ·.sortKey)
  let (_,sealed) ← ordered.foldlM (sealNext lib declared) ([],[])
  ingested (checkStrictlyAscending "ingest: bundle order" (sealed.map (·.sortKey)))
  pure sealed

end

/-! ### The stage -/

/-- `_declared_sources`. -/
def declaredSources : List DeclaredSource → Ingested (List (String × DeclaredSource)) :=
  List.foldlM (fun table source =>
    if (Dict.get? table source.source).isSome then
      .error (.spectra (ErrorType.schemaError.mk
        ("ingest: source "++source.source++" is declared twice")))
    else .ok (table++[(source.source,source)])) []

/-- How often each key comes, in the order of the keys. -/
def sortedCounts (keys : List String) : List (String × ℕ) :=
  (keys.dedup.insertionSort (· ≤ ·)).map fun key => (key,keys.count key)

structure IngestCounts where
  linesRead : ℕ
  recordsBundled : ℕ
  recordsQuarantined : ℕ
  byReason : List (String × ℕ)
  bySourceBundled : List (String × ℕ)
  bySourceQuarantined : List (String × ℕ)
  deriving DecidableEq, Repr

structure IngestResult (lib : Library) where
  events : List (BundleRecord lib)
  bundleBytes : Bytes
  bundleHash : String
  quarantined : List QuarantineRecord
  counts : IngestCounts

def QuarantineRecord.sortKey (q : QuarantineRecord) : String ×ₗ String ×ₗ String ×ₗ String :=
  toLex (q.sourceId,toLex (q.recordId,toLex (q.reason.text,q.detail)))

/-- The candidates and the drops of the lines, in their order. -/
def ingestLines (rt : Runtime) (limits : IngestLimits) (declared : List (String × DeclaredSource))
    (lines : List (Bytes × Bool)) : Ingested (List Candidate × List QuarantineRecord) := do
  let outcomes ← lines.mapM fun line => ingestOne rt limits declared line.1 line.2
  pure (outcomes.filterMap Sum.getLeft?,outcomes.filterMap Sum.getRight?)

/-- The candidates that are kept, sealed and written, and the account of every line. -/
def sealBundle (rt : Runtime) (declared : List (String × DeclaredSource)) (ingestTimeNs : Option ℤ)
    (linesRead : ℕ) (candidates : List Candidate) (dropped : List QuarantineRecord) :
    Ingested (IngestResult rt.toLibrary) := do
  let collided := (dropCrossRecordCollisions candidates).2
  let events ← sealEvents rt.toLibrary declared ingestTimeNs (dropCrossRecordCollisions candidates).1
  let bundleLines ← events.mapM fun e => ingested e.bundleObj.scfLine
  let quarantined := dropped++collided
  pure {
    events := events
    bundleBytes := bundleLines.flatten
    bundleHash := rt.hashRef "bn" bundleLines.flatten
    quarantined := quarantined.insertionSort (·.sortKey ≤ ·.sortKey)
    counts := ⟨linesRead,events.length,quarantined.length,
      sortedCounts (quarantined.map (·.reason.text)),sortedCounts (events.map (·.source)),
      sortedCounts (quarantined.map (·.sourceId))⟩}

/-- `ingest_bytes`. -/
def ingestBytes (rt : Runtime) (raw : Bytes) (sources : List DeclaredSource) (limits : IngestLimits)
    (ingestTimeNs : Option ℤ) : Ingested (IngestResult rt.toLibrary) := do
  let declared ← declaredSources sources
  ingested (checks (ingestTimeNs.toList.map (checkNanos "ingest_bytes.ingest_time_ns")))
  let lines := splitOctets raw
  ingested (ensure (lines.length ≤ limits.maxRecords) (ErrorType.limitError.mk ("ingest: "++
    toString lines.length++" lines exceeds max_records "++toString limits.maxRecords++
    "; truncating would manufacture a silent absence")))
  let (candidates,dropped) ← ingestLines rt limits declared lines
  sealBundle rt declared ingestTimeNs lines.length candidates dropped

end Spectra
