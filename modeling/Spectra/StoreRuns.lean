import Spectra.Store

/-! Runs of loads: what a file is indexed as, that a load takes the whole of its file or leaves the table as
it is, and that the order and the cut of the files are not seen by any query. -/
namespace Spectra
namespace Store

/-! ### Inserts -/

theorem insert_ok {table table' : ProjEvent} {row : EventColumns} :
    table.insert row = .ok table' ↔ table.Admits row ∧ table'.rows = table.rows++[row] := by
  unfold ProjEvent.insert
  split
  · rename_i h
    rw [Except.ok.injEq,ProjEvent.ext_iff,and_iff_right h,eq_comm]
    rfl
  · rename_i h
    exact iff_of_false (fun he => by cases he) fun hr => h hr.1

theorem insertRows_cons {db : Database} {row : EventColumns} {rows : List EventColumns} :
    insertRows db (row::rows) = match db.working.insert row with
      | .ok table => insertRows {db with working := table} rows
      | .error e => (.error e,db) := rfl

/-- Inserts stay in the open transaction. -/
theorem insertRows_committed {rows : List EventColumns} {db : Database} :
    (insertRows db rows).2.committed = db.committed := by
  induction rows generalizing db with
  | nil => rfl
  | cons row rows ih =>
    rw [insertRows_cons]
    split
    · exact ih
    · rfl

/-- All rows are inserted exactly when no id is there twice. -/
theorem insertRows_ok {rows : List EventColumns} {db : Database} : (insertRows db rows).1 = .ok () ↔
    ((db.working.rows++rows).map (·.eventId)).Nodup ∧ ∀ row ∈ rows, row.Checked := by
  induction rows generalizing db with
  | nil => simpa [insertRows] using db.working.keyed
  | cons row rows ih =>
    rw [insertRows_cons]
    cases hi : db.working.insert row with
    | ok table =>
      obtain ⟨hadmits,hrows⟩ := insert_ok.mp hi
      dsimp only
      rw [ih,hrows,List.append_assoc,List.singleton_append,List.forall_mem_cons]
      exact and_congr_right fun _ => (and_iff_right hadmits.2).symm
    | error e =>
      refine iff_of_false (fun he => by cases he) fun h => ?_
      have hadmits : db.working.Admits row := by
        refine ⟨fun hm => ?_,h.2 row (by simp)⟩
        rw [List.map_append,List.nodup_append] at h
        exact h.1.2.2 _ hm row.eventId (by simp) rfl
      rw [ProjEvent.insert,dif_pos hadmits] at hi
      cases hi

theorem insertRows_rows {rows : List EventColumns} {db : Database} (h : (insertRows db rows).1 = .ok ()) :
    (insertRows db rows).2.working.rows = db.working.rows++rows := by
  induction rows generalizing db with
  | nil => simp [insertRows]
  | cons row rows ih =>
    rw [insertRows_cons] at h ⊢
    cases hi : db.working.insert row with
    | ok table =>
      rw [hi] at h
      dsimp only at h ⊢
      rw [ih h,(insert_ok.mp hi).2,List.append_assoc,List.singleton_append]
    | error e =>
      rw [hi] at h
      cases h

/-! ### Lines -/

/-- A count of nanoseconds as the wire spells it. -/
def Spelled (value : Option Json) (t : ℤ) : Prop :=
  ∃ text, value = some (.str text) ∧ Checker.isNumeral (octets text) = true ∧
    ∃ n : ℕ, Checker.decimalValue (octets text) = .ok n ∧ t = n ∧ t ≤ int64Max

theorem decimalNs_ok {loc : String} {value : Option Json} {t : ℤ} : decimalNs loc value = .ok t ↔ Spelled value t := by
  unfold decimalNs Spelled
  split
  · rename_i text
    simp only [Runs.bind_ok,demand_ok,Runs.pure_ok,Option.some.injEq,Json.str.injEq,exists_eq_left']
    constructor
    · rintro ⟨_,hn,n,hv,_,hle,rfl⟩
      exact ⟨hn,n,hv,rfl,hle⟩
    · rintro ⟨hn,n,hv,rfl,hle⟩
      exact ⟨(),hn,n,hv,(),hle,rfl⟩
  · rename_i hno
    refine iff_of_false (fun h => by cases h) ?_
    rintro ⟨text,h,_⟩
    exact hno text h

theorem textOf_ok {value : Option Json} {e : SpectraError} {text : String} :
    textOf value e = .ok text ↔ value = some (.str text) := by
  unfold textOf
  split <;> simp_all

theorem nonEmptyText_ok {loc : String} {value : Option Json} {text : String} :
    nonEmptyText loc value = .ok text ↔ value = some (.str text) ∧ text ≠ "" := by
  simp only [nonEmptyText,Runs.bind_ok,textOf_ok,demand_ok,Runs.pure_ok]
  constructor
  · rintro ⟨_,hv,_,hne,rfl⟩
    exact ⟨hv,hne⟩
  · rintro ⟨hv,hne⟩
    exact ⟨text,hv,(),hne,rfl⟩

theorem optionalMember_ok {loc : String} {value : Option Json} {text : Option String} :
    optionalMember loc value = .ok text ↔ value = text.map .str ∧ text ≠ some "" := by
  unfold optionalMember
  split
  · cases text <;> simp
  · simp only [Runs.bind_ok,nonEmptyText_ok,Runs.pure_ok]
    cases text with
    | none => simp
    | some text => simp [and_assoc]

theorem seqMember_ok {loc : String} {value : Option Json} {seq : ℤ} :
    seqMember loc value = .ok seq ↔ value = some (.int seq) ∧ 0 ≤ seq ∧ seq ≤ Checker.u32Max := by
  unfold seqMember
  split
  · rename_i n
    simp only [Runs.bind_ok,demand_ok,Runs.pure_ok,Option.some.injEq,Json.int.injEq]
    constructor
    · rintro ⟨_,h,rfl⟩
      exact ⟨rfl,h⟩
    · rintro ⟨rfl,h⟩
      exact ⟨(),h,rfl⟩
  · rename_i hno
    exact iff_of_false (fun h => by cases h) fun h => hno seq h.1

theorem objectOf_ok {value : Option Json} {e : SpectraError} {members : List (String × Json)} :
    objectOf value e = .ok members ↔ value = some (.obj members) := by
  unfold objectOf
  split <;> simp_all

/-- An object of a line and the columns it is indexed as. -/
structure RowOf (obj : List (String × Json)) (row : EventColumns) : Prop where
  required : requiredMembers ⊆ obj.map (·.1)
  known : obj.map (·.1) ⊆ requiredMembers++optionalMembers
  seq : Dict.get? obj "seq" = some (.int row.seq) ∧ 0 ≤ row.seq ∧ row.seq ≤ Checker.u32Max
  attrs : ∃ attrs, Dict.get? obj "attrs" = some (.obj attrs) ∧ row.attrs = String.ofList (Json.obj attrs).text
  eventId : Dict.get? obj "event_id" = some (.str row.eventId) ∧ row.eventId ≠ ""
  sourceId : Dict.get? obj "source_id" = some (.str row.sourceId) ∧ row.sourceId ≠ ""
  eventType : Dict.get? obj "event_type" = some (.str row.eventType) ∧ row.eventType ≠ ""
  tEvtNs : Spelled (Dict.get? obj "t_evt_ns") row.tEvtNs
  tIngNs : Spelled (Dict.get? obj "t_ing_ns") row.tIngNs
  chainHash : Dict.get? obj "chain_hash" = row.chainHash.map .str ∧ row.chainHash ≠ some ""
  chainPrev : Dict.get? obj "chain_prev" = row.chainPrev.map .str ∧ row.chainPrev ≠ some ""

theorem rowFromObject_ok {obj : List (String × Json)} {loc : String} {row : EventColumns} :
    rowFromObject obj loc = .ok row ↔ RowOf obj row := by
  simp only [rowFromObject,Runs.bind_ok,demand_ok,seqMember_ok,objectOf_ok,nonEmptyText_ok,decimalNs_ok,
    optionalMember_ok,Runs.pure_ok]
  constructor
  · rintro ⟨_,hrequired,_,hknown,seq,hseq,attrs,hattrs,_,hid,_,hsource,_,htype,_,hevt,_,hing,_,hhash,_,hprev,rfl⟩
    exact ⟨hrequired,hknown,hseq,⟨attrs,hattrs,rfl⟩,hid,hsource,htype,hevt,hing,hhash,hprev⟩
  · rintro ⟨hrequired,hknown,hseq,⟨attrs,hattrs,htext⟩,hid,hsource,htype,hevt,hing,hhash,hprev⟩
    refine ⟨(),hrequired,(),hknown,_,hseq,attrs,hattrs,_,hid,_,hsource,_,htype,_,hevt,_,hing,_,hhash,_,hprev,?_⟩
    cases row
    cases htext
    rfl

theorem Spelled.range {value : Option Json} {t : ℤ} (h : Spelled value t) : 0 ≤ t ∧ t ≤ int64Max := by
  obtain ⟨_,-,-,n,-,rfl,hle⟩ := h
  exact ⟨by omega,hle⟩

theorem RowOf.checked {obj : List (String × Json)} {row : EventColumns} (h : RowOf obj row) : row.Checked :=
  ⟨h.seq.2.1,h.tEvtNs.range.1,h.tIngNs.range.1⟩

section

variable {rt : Runtime}

/-- A line and the columns it is indexed as. -/
def LineRow (rt : Runtime) (line : Bytes) (row : EventColumns) : Prop :=
  ∃ text obj, rt.decode line = some text ∧ rt.jsonLoads lineHooks text = .ok (.obj obj) ∧ RowOf obj row

theorem rowFromSegment_ok {line : Bytes} {index : ℕ} {row : EventColumns} :
    rowFromSegment rt line index = .ok row ↔ LineRow rt line row := by
  unfold rowFromSegment LineRow
  split
  · rename_i text ht
    simp only [ht,Option.some.injEq,rowFromLine,Runs.bind_ok]
    constructor
    · rintro ⟨j,hj,h⟩
      split at h
      · rename_i obj
        exact ⟨text,obj,rfl,hj,rowFromObject_ok.mp h⟩
      · cases h
    · rintro ⟨_,obj,rfl,hj,h⟩
      exact ⟨.obj obj,hj,rowFromObject_ok.mpr h⟩
  · rename_i ht
    refine iff_of_false (fun h => by cases h) ?_
    rintro ⟨_,_,h,_⟩
    rw [ht] at h
    cases h

theorem LineRow.checked {line : Bytes} {row : EventColumns} (h : LineRow rt line row) : row.Checked := by
  obtain ⟨_,_,-,-,h⟩ := h
  exact h.checked

/-- No check of a line reads its number. -/
theorem mapM_segments {lines : List Bytes} {rows : List EventColumns} (start : ℕ) :
    (lines.zipIdx start).mapM (fun segment => rowFromSegment rt segment.1 segment.2) = .ok rows ↔
      List.Forall₂ (LineRow rt) lines rows := by
  induction lines generalizing start rows with
  | nil => cases rows <;> simp
  | cons line lines ih =>
    rw [List.zipIdx_cons,List.mapM_cons]
    simp only [Runs.bind_ok,rowFromSegment_ok,ih,Runs.pure_ok]
    constructor
    · rintro ⟨row,hrow,rows,hrows,rfl⟩
      exact .cons hrow hrows
    · rintro (_ | ⟨hrow,hrows⟩)
      exact ⟨_,hrow,_,hrows,rfl⟩

theorem fileRows_ok {raw : Bytes} {rows : List EventColumns} : fileRows rt raw = .ok rows ↔
    0x0d ∉ raw ∧ (raw ≠ [] → raw.getLast? = some 0x0a) ∧ List.Forall₂ (LineRow rt) (segments raw) rows := by
  simp only [fileRows,Runs.bind_ok,demand_ok,mapM_segments]
  constructor
  · rintro ⟨_,h,_,h',h''⟩
    exact ⟨h,h',h''⟩
  · rintro ⟨h,h',h''⟩
    exact ⟨(),h,(),h',h''⟩

theorem fileRows_checked {raw : Bytes} {rows : List EventColumns} (h : fileRows rt raw = .ok rows) :
    ∀ row ∈ rows, row.Checked := by
  intro row hr
  obtain ⟨line,-,hline⟩ := (forall₂_mem (fileRows_ok.mp h).2.2).2 row hr
  exact hline.checked

/-! ### Loads -/

/-- No transaction is open. -/
def Database.Settled (db : Database) : Prop := db.working = db.committed

/-- What a load does: all rows of the file are committed, or the database is as it was. -/
theorem load_cases {db : Database} (hs : db.Settled) (raw : Bytes) :
    (∃ rows, fileRows rt raw = .ok rows ∧ ((db.committed.rows++rows).map (·.eventId)).Nodup ∧
      (load rt db raw).1 = .ok rows.length ∧ (load rt db raw).2.Settled ∧
      (load rt db raw).2.committed.rows = db.committed.rows++rows) ∨
    ∃ e, (load rt db raw).1 = .error e ∧ (load rt db raw).2 = db ∧
      ∀ rows, fileRows rt raw = .ok rows → ¬((db.committed.rows++rows).map (·.eventId)).Nodup := by
  cases hf : fileRows rt raw with
  | error e => exact .inr ⟨e,by simp [load,hf],by simp [load,hf],fun rows h => by cases h⟩
  | ok rows =>
    have hok := @insertRows_ok rows db
    have hrows := @insertRows_rows rows db
    have hcommitted := @insertRows_committed rows db
    rw [hs] at hok hrows
    simp only [load,hf,withConnection]
    generalize hi : insertRows db rows = ran at hok hrows hcommitted
    obtain ⟨outcome,after⟩ := ran
    cases outcome with
    | ok u =>
      exact .inl ⟨rows,rfl,(hok.mp rfl).1,rfl,rfl,hrows rfl⟩
    | error e =>
      refine .inr ⟨e,rfl,?_,fun rows' h hn => ?_⟩
      · obtain ⟨committed,working⟩ := db
        obtain ⟨committed',working'⟩ := after
        cases hcommitted
        cases hs
        rfl
      · cases h
        exact absurd (hok.mpr ⟨hn,fileRows_checked hf⟩) (by simp)

theorem load_settled {db : Database} (hs : db.Settled) (raw : Bytes) : (load rt db raw).2.Settled := by
  obtain ⟨_,-,-,-,h,-⟩ | ⟨_,-,h,-⟩ := @load_cases rt _ hs raw
  · exact h
  · rwa [h]

/-- A property of the table that accepted rows keep, every run of loads keeps. -/
theorem loads_inv {P : List EventColumns → Prop} {files : List Bytes}
    (step : ∀ raw ∈ files, ∀ table rows, P table → fileRows rt raw = .ok rows →
      ((table++rows).map (·.eventId)).Nodup → P (table++rows))
    {db : Database} (hs : db.Settled) (h : P db.committed.rows) :
    (loads rt db files).2.Settled ∧ P (loads rt db files).2.committed.rows := by
  induction files generalizing db with
  | nil => exact ⟨hs,h⟩
  | cons raw files ih =>
    refine ih (fun raw hr => step raw (List.mem_cons_of_mem _ hr)) (load_settled hs raw) ?_
    obtain ⟨rows,hf,hn,-,-,hrows⟩ | ⟨_,-,hsame,-⟩ := @load_cases rt _ hs raw
    · exact hrows ▸ step raw (by simp) _ rows h hf hn
    · rwa [hsame]

theorem loads_append {db : Database} {files more : List Bytes} : loads rt db (files++more) =
    ((loads rt db files).1++(loads rt (loads rt db files).2 more).1,(loads rt (loads rt db files).2 more).2) := by
  induction files generalizing db with
  | nil => rfl
  | cons raw files ih => simp only [List.cons_append,loads,ih]

theorem fresh_settled : Database.fresh.Settled := rfl

theorem loads_settled (files : List Bytes) : (loads rt .fresh files).2.Settled :=
  (loads_inv (P := fun _ => True) (fun _ _ _ _ _ _ _ => trivial) fresh_settled trivial).1

/-! ### What a store is for -/

end

/-- The records by their ids. -/
def Archive : Type := String → Option EventColumns

namespace Archive

def empty : Archive := fun _ => none

/-- No id is offered twice, and none that is held. -/
def Takes (archive : Archive) (rows : List EventColumns) : Prop :=
  (rows.map (·.eventId)).Nodup ∧ ∀ row ∈ rows, archive row.eventId = none

instance (archive : Archive) (rows : List EventColumns) : Decidable (archive.Takes rows) :=
  inferInstanceAs (Decidable (_ ∧ _))

def take (archive : Archive) (rows : List EventColumns) : Archive :=
  fun eventId => (archive eventId).or (rows.find? (·.eventId = eventId))

/-- The records of a file are taken together or not at all; how many were is told. -/
def offer (archive : Archive) (file : Option (List EventColumns)) : Option ℕ × Archive :=
  match file with
  | some rows => if archive.Takes rows then (some rows.length,archive.take rows) else (none,archive)
  | none => (none,archive)

def offers : Archive → List (Option (List EventColumns)) → List (Option ℕ) × Archive
  | archive, [] => ([],archive)
  | archive, file::files =>
    let rest := offers (archive.offer file).2 files
    ((archive.offer file).1::rest.1,rest.2)

end Archive

def ProjEvent.archive (table : ProjEvent) : Archive := fun eventId => table.rows.find? (·.eventId = eventId)

theorem find?_none_iff {rows : List EventColumns} {eventId : String} :
    rows.find? (·.eventId = eventId) = none ↔ eventId ∉ rows.map (·.eventId) := by
  rw [List.find?_eq_none,List.mem_map]
  simp

theorem archive_mem {table : ProjEvent} {row : EventColumns} (h : row ∈ table.rows) :
    table.archive row.eventId = some row := by
  cases hf : table.archive row.eventId with
  | none => exact absurd (List.mem_map_of_mem h) (find?_none_iff.mp hf)
  | some other =>
    have hid : other.eventId = row.eventId := by
      have hdecided := List.find?_some hf
      exact of_decide_eq_true hdecided
    rw [List.inj_on_of_nodup_map table.keyed (List.mem_of_find?_eq_some hf) h hid]

/-- An archive takes rows exactly when the primary key lets them in. -/
theorem takes_iff {table : ProjEvent} {rows : List EventColumns} :
    table.archive.Takes rows ↔ ((table.rows++rows).map (·.eventId)).Nodup := by
  rw [List.map_append,List.nodup_append,and_iff_right table.keyed]
  refine and_congr_right fun _ => ?_
  simp only [ProjEvent.archive,find?_none_iff]
  constructor
  · rintro h a ha b hb rfl
    obtain ⟨row,hr,rfl⟩ := List.mem_map.mp hb
    exact h row hr ha
  · exact fun h row hr hm => h _ hm _ (List.mem_map_of_mem hr) rfl

section

variable {rt : Runtime}

/-- A load is an offer of the rows of its file. -/
theorem load_offer {db : Database} (hs : db.Settled) (raw : Bytes) :
    (load rt db raw).1.toOption = (db.committed.archive.offer (fileRows rt raw).toOption).1 ∧
      (load rt db raw).2.committed.archive = (db.committed.archive.offer (fileRows rt raw).toOption).2 := by
  obtain ⟨rows,hf,hn,hcount,-,hrows⟩ | ⟨e,herror,hsame,hno⟩ := @load_cases rt _ hs raw
  · rw [hf]
    dsimp only [Except.toOption,Archive.offer]
    rw [if_pos (takes_iff.mpr hn),hcount]
    refine ⟨rfl,funext fun eventId => ?_⟩
    rw [ProjEvent.archive,hrows,List.find?_append]
    rfl
  · rw [herror,hsame]
    cases hf : fileRows rt raw with
    | error e => exact ⟨rfl,rfl⟩
    | ok rows =>
      dsimp only [Except.toOption,Archive.offer]
      rw [if_neg fun h => hno rows hf (takes_iff.mp h)]
      exact ⟨rfl,rfl⟩

theorem loads_offers {files : List Bytes} {db : Database} (hs : db.Settled) :
    (loads rt db files).1.map Except.toOption =
        (db.committed.archive.offers (files.map fun raw => (fileRows rt raw).toOption)).1 ∧
      (loads rt db files).2.committed.archive =
        (db.committed.archive.offers (files.map fun raw => (fileRows rt raw).toOption)).2 := by
  induction files generalizing db with
  | nil => exact ⟨rfl,rfl⟩
  | cons raw files ih =>
    obtain ⟨hcount,harchive⟩ := @load_offer rt _ hs raw
    obtain ⟨hcounts,harchives⟩ := ih (load_settled hs raw)
    rw [harchive] at hcounts harchives
    exact ⟨List.cons_eq_cons.mpr ⟨hcount,hcounts⟩,harchives⟩

/-- The lookup by id reads the archive. -/
theorem event_archive {db : Database} (hs : db.Settled) {eventId : String} (hne : eventId ≠ "") :
    event rt db eventId = foundRow rt (db.committed.archive eventId) := by
  have hone : (Query.orderBy (fun row => binary row.eventId)
      (db.working.rows.filter (·.eventId = eventId))).head? = db.committed.archive eventId := by
    rw [hs,ProjEvent.archive,← List.head?_filter]
    have hkeyed := db.committed.keyed
    generalize db.committed.rows = rows at hkeyed ⊢
    have hall : ∀ a ∈ rows.filter (·.eventId = eventId), ∀ b ∈ rows.filter (·.eventId = eventId), a = b := by
      intro a ha b hb
      rw [List.mem_filter,decide_eq_true_eq] at ha hb
      exact List.inj_on_of_nodup_map hkeyed ha.1 hb.1 (ha.2.trans hb.2.symm)
    have hsame : ∀ rows : List EventColumns, (∀ a ∈ rows, ∀ b ∈ rows, a = b) →
        (Query.orderBy (fun row => binary row.eventId) rows).head? = rows.head? := by
      intro rows hrows
      cases rows with
      | nil => rfl
      | cons row rows =>
        cases ho : Query.orderBy (fun row => binary row.eventId) (row::rows) with
        | nil => exact absurd (congrArg List.length ho) (by simp)
        | cons other others =>
          have hm : other ∈ row::rows := (@Query.mem_orderBy _ _ _ (fun row => binary row.eventId) _ _).mp (ho ▸ by simp)
          rw [List.head?_cons,List.head?_cons,hrows other hm row (by simp)]
    exact hsame _ hall
  simp only [event,hone]
  rw [show demand (eventId ≠ "") _ = .ok () from demand_ok.mpr hne]
  rfl

theorem segments_eq (raw : Bytes) : segments raw = (splitOctets raw).map (·.1) := by
  unfold segments splitOctets
  by_cases hr : raw = []
  · subst hr
    rfl
  · rw [if_neg hr]
    dsimp only
    split
    · rw [List.map_map]
      exact (List.map_id _).symm
    · rw [List.map_map]
      exact (List.zipIdx_map_fst 0 _).symm

theorem segments_ne_nil {raw : Bytes} (h : raw ≠ []) : segments raw ≠ [] := by
  have hjoin := @List.intercalate_splitOn _ raw _ _ (0x0a : UInt8)
  unfold segments
  dsimp only
  split
  · rename_i hlast
    intro hnil
    obtain ⟨parts,hparts⟩ := List.getLast?_eq_some_iff.mp hlast
    rw [hparts,List.dropLast_concat] at hnil
    rw [hparts,hnil] at hjoin
    exact h hjoin.symm
  · exact List.splitOn_ne_nil _ _

/-- The rows of a file that was accepted stay. -/
theorem accepted_stays {files : List Bytes} {db : Database} (hs : db.Settled) {raw : Bytes} {n : ℕ}
    (h : (raw,.ok n) ∈ files.zip (loads rt db files).1) : ∃ rows, fileRows rt raw = .ok rows ∧
      rows ⊆ (loads rt db files).2.committed.rows := by
  induction files generalizing db with
  | nil => cases h
  | cons file files ih =>
    have hsettled := @load_settled rt _ hs file
    rcases List.mem_cons.mp h with h | h
    · obtain ⟨rfl,hok⟩ := Prod.mk.inj h
      obtain ⟨rows,hf,-,-,-,hrows⟩ | ⟨e,herror,-⟩ := @load_cases rt _ hs raw
      · refine ⟨rows,hf,(loads_inv (P := fun table => rows ⊆ table) ?_ hsettled ?_).2⟩
        · exact fun _ _ table more hsub _ _ row hr => List.mem_append_left _ (hsub hr)
        · exact hrows ▸ List.subset_append_right _ _
      · rw [herror] at hok
        cases hok
    · exact ih hsettled h

theorem loads_again {files later : List Bytes} {raw : Bytes} {n : ℕ} (hne : raw ≠ [])
    (h : (raw,.ok n) ∈ files.zip (loads rt .fresh files).1) :
    ∃ e, load rt (loads rt .fresh (files++later)).2 raw = (.error e,(loads rt .fresh (files++later)).2) := by
  obtain ⟨rows,hf,hsub⟩ := accepted_stays fresh_settled h
  have hkept : rows ⊆ (loads rt .fresh (files++later)).2.committed.rows := by
    rw [loads_append]
    refine (loads_inv (P := fun table => rows ⊆ table) ?_ (loads_settled files) hsub).2
    exact fun _ _ table more hsub _ _ row hr => List.mem_append_left _ (hsub hr)
  obtain ⟨rows',hf',hn,-⟩ | ⟨e,herror,hsame,-⟩ := @load_cases rt _ (loads_settled (files++later)) raw
  · obtain rfl : rows = rows' := Except.ok.inj (hf.symm.trans hf')
    have hlength := (fileRows_ok.mp hf).2.2.length_eq
    obtain ⟨row,hrow⟩ := List.exists_mem_of_length_pos
      (hlength ▸ List.length_pos_iff.mpr (segments_ne_nil hne))
    rw [List.map_append,List.nodup_append] at hn
    exact absurd rfl (hn.2.2 _ (List.mem_map_of_mem (hkept hrow)) _ (List.mem_map_of_mem hrow))
  · exact ⟨e,Prod.ext herror hsame⟩

end

/-- Over every run of loads the store is the archive its files were offered to: each load tells what the
archive took, a lookup finds what the archive holds, and a file that was taken is refused ever after. -/
theorem store_refines_archive (rt : Runtime) (files : List Bytes) :
    (loads rt .fresh files).1.map Except.toOption =
        (Archive.empty.offers (files.map fun raw => (fileRows rt raw).toOption)).1 ∧
      (loads rt .fresh files).2.working = (loads rt .fresh files).2.committed ∧
      (∀ eventId, eventId ≠ "" → event rt (loads rt .fresh files).2 eventId = foundRow rt
        ((Archive.empty.offers (files.map fun raw => (fileRows rt raw).toOption)).2 eventId)) ∧
      ∀ raw n, (raw,.ok n) ∈ files.zip (loads rt .fresh files).1 → raw ≠ [] → ∀ later,
        ∃ e, load rt (loads rt .fresh (files++later)).2 raw = (.error e,(loads rt .fresh (files++later)).2) := by
  obtain ⟨hcounts,harchive⟩ := @loads_offers rt files _ fresh_settled
  refine ⟨hcounts,loads_settled files,fun eventId hne => ?_,fun raw n h hne later => loads_again hne h⟩
  rw [event_archive (loads_settled files) hne,harchive]
  rfl

/-! ### The lines of the files -/

section

variable {rt : Runtime}

theorem segments_feed {lines : List Bytes} (h : ∀ line ∈ lines, (0x0a : UInt8) ∉ line) :
    segments (feed lines) = lines := by
  rw [segments_eq,splitOctets_feed h,List.map_map]
  exact List.map_id _

/-- A file of whole lines is accepted line by line. -/
theorem fileRows_feed {lines : List Bytes} (h : ∀ line ∈ lines, (0x0a : UInt8) ∉ line) {rows : List EventColumns} :
    fileRows rt (feed lines) = .ok rows ↔
      (∀ line ∈ lines, (0x0d : UInt8) ∉ line) ∧ List.Forall₂ (LineRow rt) lines rows := by
  have hlast : feed lines ≠ [] → (feed lines).getLast? = some 0x0a := by
    intro hne
    rcases List.eq_nil_or_concat lines with rfl | ⟨front,line,rfl⟩
    · exact absurd rfl hne
    · rw [List.concat_eq_append,feed,List.flatMap_append,List.flatMap_singleton,← List.append_assoc,
        List.getLast?_concat]
  have hcr : 0x0d ∉ feed lines ↔ ∀ line ∈ lines, (0x0d : UInt8) ∉ line := by
    simp only [feed,List.mem_flatMap,List.mem_append,List.mem_singleton]
    constructor
    · exact fun hno line hl hm => hno ⟨line,hl,.inl hm⟩
    · rintro hno ⟨line,hl,hm | hm⟩
      · exact hno line hl hm
      · exact absurd hm (by decide)
  rw [fileRows_ok,segments_feed h,hcr,and_iff_right hlast]

/-- Files that are all accepted, and what they leave. -/
theorem loads_accepted {files : List Bytes} {db : Database} (hs : db.Settled)
    (h : ∀ outcome ∈ (loads rt db files).1, ∃ n, outcome = .ok n) : ∃ tables,
      List.Forall₂ (fun raw rows => fileRows rt raw = .ok rows) files tables ∧
        (loads rt db files).2.committed.rows = db.committed.rows++tables.flatten := by
  induction files generalizing db with
  | nil => exact ⟨[],.nil,by simp [loads]⟩
  | cons raw files ih =>
    obtain ⟨hone,hrest⟩ := List.forall_mem_cons.mp h
    obtain ⟨tables,htables,hall⟩ := ih (load_settled hs raw) hrest
    obtain ⟨rows,hf,-,-,-,hrows⟩ | ⟨e,herror,-⟩ := @load_cases rt _ hs raw
    · refine ⟨rows::tables,.cons hf htables,?_⟩
      rw [hrows,List.append_assoc] at hall
      exact hall
    · obtain ⟨n,hn⟩ := hone
      rw [herror] at hn
      cases hn

/-- Files whose records have distinct ids, new ones, are all accepted. -/
theorem loads_accept {files : List Bytes} {tables : List (List EventColumns)}
    (hf : List.Forall₂ (fun raw rows => fileRows rt raw = .ok rows) files tables) {db : Database} (hs : db.Settled)
    (hn : ((db.committed.rows++tables.flatten).map (·.eventId)).Nodup) :
    ∀ outcome ∈ (loads rt db files).1, ∃ n, outcome = .ok n := by
  induction hf generalizing db with
  | nil => exact fun _ h => by cases h
  | @cons raw rows files tables hone _ ih =>
    rw [List.flatten_cons,← List.append_assoc,List.map_append] at hn
    obtain ⟨rows',hf',-,hcount,hsettled,hrows⟩ | ⟨e,-,-,hno⟩ := @load_cases rt _ hs raw
    · obtain rfl : rows = rows' := Except.ok.inj (hone.symm.trans hf')
      refine List.forall_mem_cons.mpr ⟨⟨_,hcount⟩,ih hsettled ?_⟩
      rwa [hrows,List.map_append]
    · exact absurd (List.nodup_append.mp hn).1 (hno rows hone)

theorem forall₂_split {α β : Type} {R : α → β → Prop} {parts : List (List α)} {l : List β}
    (h : List.Forall₂ R parts.flatten l) : ∃ parts', List.Forall₂ (List.Forall₂ R) parts parts' ∧ parts'.flatten = l := by
  induction parts generalizing l with
  | nil => exact ⟨[],.nil,by cases h; rfl⟩
  | cons part parts ih =>
    have hpart := (List.forall₂_take_append _ _ _ h.flip).flip
    obtain ⟨parts',hparts,hflat⟩ := ih (List.forall₂_drop_append _ _ _ h.flip).flip
    exact ⟨_,.cons hpart hparts,by rw [List.flatten_cons,hflat,List.take_append_drop]⟩

end

end Store
end Spectra
