import Spectra.GuardRuns
import Spectra.Query
import Spectra.ReadBundle

/-! `spectra_vs.store` and `db/schema.sql`: an index over the records of bundles, loaded a file at a time
in one transaction each, and the four ordered queries asked of it. -/
namespace Spectra
namespace Store

/-! ### The table -/

/-- One row in the order of `EVENT_COLUMNS`; `attrs` is the text of an object. -/
structure EventColumns where
  eventId : String
  sourceId : String
  seq : ℤ
  eventType : String
  tEvtNs : ℤ
  tIngNs : ℤ
  chainHash : Option String
  chainPrev : Option String
  attrs : String
  deriving DecidableEq, Repr

/-- The `CHECK` clauses of `proj_event`. -/
def EventColumns.Checked (row : EventColumns) : Prop := 0 ≤ row.seq ∧ 0 ≤ row.tEvtNs ∧ 0 ≤ row.tIngNs

instance (row : EventColumns) : Decidable row.Checked := inferInstanceAs (Decidable (_ ∧ _))

/-- `proj_event`: rows in the order they were inserted, under a primary key. -/
structure ProjEvent where
  rows : List EventColumns
  keyed : (rows.map (·.eventId)).Nodup
  checked : ∀ row ∈ rows, row.Checked
  deriving DecidableEq

@[ext] theorem ProjEvent.ext {table table' : ProjEvent} (h : table.rows = table'.rows) : table = table' := by
  cases table
  cases table'
  cases h
  rfl

def ProjEvent.empty : ProjEvent := ⟨[],List.nodup_nil,by simp⟩

/-- What the constraints ask of a row that is inserted. -/
def ProjEvent.Admits (table : ProjEvent) (row : EventColumns) : Prop :=
  row.eventId ∉ table.rows.map (·.eventId) ∧ row.Checked

instance (table : ProjEvent) (row : EventColumns) : Decidable (table.Admits row) :=
  inferInstanceAs (Decidable (_ ∧ _))

def ProjEvent.add (table : ProjEvent) (row : EventColumns) (h : table.Admits row) : ProjEvent where
  rows := table.rows++[row]
  keyed := by
    rw [List.map_append,List.nodup_append_comm]
    exact List.nodup_cons.mpr ⟨h.1,table.keyed⟩
  checked := by
    intro other ho
    rcases List.mem_append.mp ho with ho | ho
    · exact table.checked other ho
    · exact List.mem_singleton.mp ho ▸ h.2

/-- `INSERT`; a constraint that fails is a `SchemaError` of the loader. -/
def ProjEvent.insert (table : ProjEvent) (row : EventColumns) : Check ProjEvent :=
  if h : table.Admits row then .ok (table.add row h)
  else .error (.canon (ErrorType.schemaError.mk
    ("store.load: the database refused the row for "++row.eventId)))

/-- What is committed, and what the open transaction has made of it. -/
structure Database where
  committed : ProjEvent
  working : ProjEvent

/-- A database the schema has just been executed in. -/
def Database.fresh : Database := ⟨.empty,.empty⟩

/-- The inserts of a load, up to the first one that is refused. -/
def insertRows : Database → List EventColumns → Check Unit × Database
  | db, [] => (.ok (),db)
  | db, row::rows => match db.working.insert row with
    | .ok table => insertRows {db with working := table} rows
    | .error e => (.error e,db)

/-- `with connection`: commit, or roll back what was refused. -/
def withConnection (body : Database → Check Unit × Database) (db : Database) : Check Unit × Database :=
  match body db with
  | (.ok (),db) => (.ok (),{db with committed := db.working})
  | (.error e,db) => (.error e,{db with working := db.committed})

/-! ### One line -/

/-- `_pairs_or_refuse`, from what is built so far. -/
def pairsOrRefuse : List (String × Json) → List (String × Json) → Check Json
  | built, [] => .ok (.obj built)
  | built, (key,value)::pairs =>
    if (Dict.get? built key).isSome then
      .error (.canon (ErrorType.canonError.mk ("store: object key "++key++" appears twice in one line")))
    else pairsOrRefuse (built++[(key,value)]) pairs

/-- The hooks of `_row_from_line`: `_refuse_float` and `_refuse_constant`. -/
def lineHooks : Checker.Hooks :=
  ⟨pairsOrRefuse [],
    fun text => .error (.canon ⟨.canonError,"E-CANON-FLOAT",
      "store: "++text++" is a float, and there is no float anywhere in a bundle"⟩),
    fun text => .error (.canon (ErrorType.canonError.mk
      ("store: "++text++" is not a JSON value the contract admits")))⟩

/-- The widest integer a column holds. -/
def int64Max : ℤ := 2^63-1

/-- `_decimal_ns`. -/
def decimalNs (loc : String) (value : Option Json) : Check ℤ :=
  match value with
  | some (.str text) => do
    demand (Checker.isNumeral (octets text) = true)
      (ErrorType.schemaError.mk (loc++": "++text++" is not a plain non-negative decimal string"))
    let parsed ← Checker.decimalValue (octets text)
    demand ((parsed : ℤ) ≤ int64Max) ⟨.schemaError,"E-CANON-WIDTH",
      loc++": "++text++" exceeds the signed 64-bit range a column holds"⟩
    pure parsed
  | _ => .error (.canon ⟨.schemaError,"E-CANON-WIDTH",loc++": a time is a decimal string on the wire"⟩)

/-- `_text`. -/
def nonEmptyText (loc : String) (value : Option Json) : Check String := do
  let text ← textOf value (ErrorType.schemaError.mk (loc++": expected a non-empty string"))
  demand (text ≠ "") (ErrorType.schemaError.mk (loc++": expected a non-empty string"))
  pure text

/-- `_optional_text`. -/
def optionalMember (loc : String) (value : Option Json) : Check (Option String) :=
  match value with
  | none => .ok none
  | some value => do pure (some (← nonEmptyText loc (some value)))

/-- A bare integer below 2³². -/
def seqMember (loc : String) (value : Option Json) : Check ℤ :=
  match value with
  | some (.int seq) => do
    demand (0 ≤ seq ∧ seq ≤ Checker.u32Max) (ErrorType.schemaError.mk (loc++": seq is not a u32"))
    pure seq
  | _ => .error (.canon (ErrorType.schemaError.mk (loc++": seq is not a u32")))

/-- The columns of the object of a line. -/
def rowFromObject (obj : List (String × Json)) (loc : String) : Check EventColumns := do
  demand (requiredMembers ⊆ obj.map (·.1)) (ErrorType.schemaError.mk (loc++": missing member(s)"))
  demand (obj.map (·.1) ⊆ requiredMembers++optionalMembers) (ErrorType.schemaError.mk (loc++": unknown member(s)"))
  let seq ← seqMember loc (Dict.get? obj "seq")
  let attrs ← objectOf (Dict.get? obj "attrs") (ErrorType.schemaError.mk (loc++": attrs is not an object"))
  let eventId ← nonEmptyText (loc++".event_id") (Dict.get? obj "event_id")
  let sourceId ← nonEmptyText (loc++".source_id") (Dict.get? obj "source_id")
  let eventType ← nonEmptyText (loc++".event_type") (Dict.get? obj "event_type")
  let tEvtNs ← decimalNs (loc++".t_evt_ns") (Dict.get? obj "t_evt_ns")
  let tIngNs ← decimalNs (loc++".t_ing_ns") (Dict.get? obj "t_ing_ns")
  let chainHash ← optionalMember (loc++".chain_hash") (Dict.get? obj "chain_hash")
  let chainPrev ← optionalMember (loc++".chain_prev") (Dict.get? obj "chain_prev")
  pure ⟨eventId,sourceId,seq,eventType,tEvtNs,tIngNs,chainHash,chainPrev,String.ofList (Json.obj attrs).text⟩

section

variable (rt : Runtime)

/-- `_row_from_line`. -/
def rowFromLine (text loc : String) : Check EventColumns := do
  match ← rt.jsonLoads lineHooks text with
  | .obj obj => rowFromObject obj loc
  | _ => .error (.canon (ErrorType.schemaError.mk
    (loc++": a bundle line is a JSON object, not a bare value")))

/-- What `split` leaves of a file, without the empty part behind the last line feed. -/
def segments (raw : Bytes) : List Bytes :=
  let parts := raw.splitOn 0x0a
  if parts.getLast? = some [] then parts.dropLast else parts

def rowFromSegment (segment : Bytes) (index : ℕ) : Check EventColumns :=
  match rt.decode segment with
  | some text => rowFromLine rt text ("store.load["++toString index++"]")
  | none => .error .unicodeDecode

/-- The rows of a file, before any of them is inserted. -/
def fileRows (raw : Bytes) : Check (List EventColumns) := do
  demand (0x0d ∉ raw) (ErrorType.canonError.mk "store.load: the file carries a CR")
  demand (raw ≠ [] → raw.getLast? = some 0x0a)
    ⟨.canonError,"E-CANON-TRAILING","store.load: the final line has no LF"⟩
  (segments raw).zipIdx.mapM fun segment => rowFromSegment rt segment.1 segment.2

/-- `EventStore.load`. -/
def load (db : Database) (raw : Bytes) : Check ℕ × Database :=
  match fileRows rt raw with
  | .ok rows =>
    let ran := withConnection (insertRows · rows) db
    (ran.1.map fun _ => rows.length,ran.2)
  | .error e => (.error e,db)

/-- Loads one after another, with what each returned. -/
def loads : Database → List Bytes → List (Check ℕ) × Database
  | db, [] => ([],db)
  | db, raw::files =>
    let rest := loads (load rt db raw).2 files
    ((load rt db raw).1::rest.1,rest.2)

end

/-! ### The queries -/

/-- The BINARY collation: a text is ordered by its octets. -/
def Binary : Type := Bytes

instance : LinearOrder Binary := Node.bytesOrder

def binary (text : String) : Binary := octets text

structure SourceStats where
  sourceId : String
  records : ℕ
  firstTEvtNs : ℤ
  lastTEvtNs : ℤ
  deriving DecidableEq, Repr

structure Gap where
  sourceId : String
  prevSeq : ℤ
  nextSeq : ℤ
  prevTEvtNs : ℤ
  nextTEvtNs : ℤ
  deltaNs : ℤ
  deriving DecidableEq, Repr

/-- A row with its attributes read back, in the order of their keys. -/
structure EventRow where
  eventId : String
  sourceId : String
  seq : ℤ
  eventType : String
  tEvtNs : ℤ
  tIngNs : ℤ
  chainHash : Option String
  chainPrev : Option String
  attrs : List (String × Json)

/-- `ORDER BY seq, event_id`. -/
def seqKey (row : EventColumns) : ℤ ×ₗ Binary := toLex (row.seq,binary row.eventId)

/-- `ORDER BY t_evt_ns, seq, event_id`. -/
def timeKey (row : EventColumns) : ℤ ×ₗ ℤ ×ₗ Binary := toLex (row.tEvtNs,seqKey row)

/-- The rows of one source. -/
def ofSource (source : String) (rows : List EventColumns) : List EventColumns :=
  Query.group (·.sourceId) source rows

/-- One group of `SOURCE_STATS_SQL`. -/
def statsOf (rows : List EventColumns) (source : String) : SourceStats :=
  let times := (ofSource source rows).map (·.tEvtNs)
  ⟨source,times.length,times.min?.getD 0,times.max?.getD 0⟩

/-- `source_stats`. -/
def sourceStats (db : Database) : List SourceStats :=
  (Query.orderBy binary (db.working.rows.map (·.sourceId)).dedup).map (statsOf db.working.rows)

/-- A row of the subquery of `GAPS_SQL` whose `prev_seq` is not null. -/
def gapOf (p : EventColumns × EventColumns) : Gap :=
  ⟨p.2.sourceId,p.1.seq,p.2.seq,p.1.tEvtNs,p.2.tEvtNs,p.2.tEvtNs-p.1.tEvtNs⟩

/-- `gaps`. -/
def gaps (db : Database) (source : String) : Check (List Gap) := do
  demand (source ≠ "") (ErrorType.schemaError.mk "gaps: expected a non-empty string")
  let bySeq := Query.neighbours (Query.orderBy seqKey (ofSource source db.working.rows))
  pure ((Query.orderBy (fun p => seqKey p.2) bySeq).map gapOf)

section

variable (rt : Runtime)

/-- The reader of a stored object: a repeated key is refused, a float is a float. -/
def rowHooks : Checker.Hooks :=
  ⟨pairsOrRefuse [],fun text => .ok (.scalar text),fun text => .ok (.scalar text)⟩

/-- `_event_from_row`. -/
def eventFromRow (row : EventColumns) : Check EventRow := do
  match ← rt.jsonLoads rowHooks row.attrs with
  | .obj attrs => do
    let attrs ← byteOrdered rt.toLibrary attrs
    pure ⟨row.eventId,row.sourceId,row.seq,row.eventType,row.tEvtNs,row.tIngNs,row.chainHash,row.chainPrev,attrs⟩
  | _ => .error .attributeError

/-- The row a lookup found, or none. -/
def foundRow : Option EventColumns → Check (Option EventRow)
  | none => .ok none
  | some row => do pure (some (← eventFromRow rt row))

/-- `event`. -/
def event (db : Database) (eventId : String) : Check (Option EventRow) := do
  demand (eventId ≠ "") (ErrorType.schemaError.mk "event: expected a non-empty string")
  foundRow rt (Query.orderBy (fun row => binary row.eventId) (db.working.rows.filter (·.eventId = eventId))).head?

/-- `window`. -/
def window (db : Database) (source : String) (t0Ns t1Ns : ℤ) : Check (List EventRow) := do
  forEach [("t0_ns",t0Ns),("t1_ns",t1Ns)] fun bound =>
    demand (0 ≤ bound.2 ∧ bound.2 ≤ int64Max)
      (ErrorType.schemaError.mk ("window: "++bound.1++"="++toString bound.2++" is outside the indexed range"))
  demand (t0Ns < t1Ns) (ErrorType.schemaError.mk "window: the window must be non-empty and half-open")
  demand (source ≠ "") (ErrorType.schemaError.mk "window: expected a non-empty string")
  (Query.orderBy timeKey (Query.between (·.tEvtNs) t0Ns t1Ns (ofSource source db.working.rows))).mapM (eventFromRow rt)

/-- What can be asked of a store. -/
inductive Question where
  | sourceStats
  | gaps (source : String)
  | event (eventId : String)
  | window (source : String) (t0Ns t1Ns : ℤ)

inductive Answer where
  | sourceStats (stats : List SourceStats)
  | gaps (gaps : List Gap)
  | event (found : Option EventRow)
  | window (rows : List EventRow)

def answer (db : Database) : Question → Check Answer
  | .sourceStats => .ok (.sourceStats (sourceStats db))
  | .gaps source => (gaps db source).map .gaps
  | .event eventId => (event rt db eventId).map .event
  | .window source t0Ns t1Ns => (window rt db source t0Ns t1Ns).map .window

end

end Store
end Spectra
