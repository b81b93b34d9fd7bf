import Spectra.Sealable

/-! Whole runs of ingest: every line is bundled or quarantined, their order is lost, and a call ends
otherwise only where a line aborts it, a limit is passed, or a record raises what nothing catches. -/
namespace Spectra

open Checker (Library)

/-- `RecordId.mint`. -/
def Runtime.recordId (rt : Runtime) (line : Bytes) : String := "rc:"++rt.digestHex "rc" line 32

def outcomeId : Candidate ⊕ QuarantineRecord → String := Sum.elim (·.recordId) (·.recordId)

section

variable {rt : Runtime} {limits : IngestLimits} {declared : List (String × DeclaredSource)}
  {lines : List (Bytes × Bool)} {outcomes : Outcomes}

theorem ingestOne_id {line : Bytes} {terminated : Bool} {outcome : Candidate ⊕ QuarantineRecord}
    (h : ingestOne rt limits declared line terminated = .ok outcome) : outcomeId outcome = rt.recordId line := by
  cases outcome with
  | inl c =>
    obtain ⟨-,parsed,source,-,-,hadmitted⟩ := ingestOne_candidate h
    exact hadmitted.recordId
  | inr q => exact ingestOne_dropped h

theorem outcomes_ids
    (h : List.Forall₂ (fun line outcome => ingestOne rt limits declared line.1 line.2 = .ok outcome) lines
      outcomes) : outcomes.map outcomeId = lines.map fun line => rt.recordId line.1 := by
  induction h with
  | nil => rfl
  | cons hone _ ih => rw [List.map_cons,List.map_cons,ingestOne_id hone,ih]

theorem outcomes_split : ((outcomes.filterMap Sum.getLeft?).map (·.recordId)++
    (outcomes.filterMap Sum.getRight?).map (·.recordId)).Perm (outcomes.map outcomeId) := by
  induction outcomes with
  | nil => exact .nil
  | cons outcome outcomes ih =>
    cases outcome with
    | inl c => exact ih.cons c.recordId
    | inr q => exact List.perm_middle.trans (ih.cons q.recordId)

end

/-! ### Accounts -/

section

variable {rt : Runtime} {raw : Bytes} {sources : List DeclaredSource} {limits : IngestLimits}
  {time : Option ℤ} {result : IngestResult rt.toLibrary}

/-- Every line is bundled or quarantined, once, under its id. -/
structure IngestResult.Accounts (rt : Runtime) (result : IngestResult rt.toLibrary) (lines : List Bytes) :
    Prop where
  ids : (result.events.map (·.recordId)++result.quarantined.map (·.recordId)).Perm (lines.map rt.recordId)
  read : result.counts.linesRead = lines.length
  bundled : result.counts.recordsBundled = result.events.length
  quarantined : result.counts.recordsQuarantined = result.quarantined.length
  adds : result.counts.linesRead = result.counts.recordsBundled+result.counts.recordsQuarantined

theorem sealBundle_ids {declared : List (String × DeclaredSource)} {n : ℕ} {candidates : List Candidate}
    {dropped : List QuarantineRecord}
    (h : sealBundle rt declared time n candidates dropped = .ok result) :
    (result.events.map (·.recordId)++result.quarantined.map (·.recordId)).Perm
      (candidates.map (·.recordId)++dropped.map (·.recordId)) ∧ result.counts.linesRead = n ∧
      result.counts.recordsBundled = result.events.length ∧
      result.counts.recordsQuarantined = result.quarantined.length ∧ dropped ⊆ result.quarantined := by
  obtain ⟨events,hseal,h⟩ := Runs.bind_ok.mp h
  obtain ⟨written,-,h⟩ := Runs.bind_ok.mp h
  obtain rfl := Runs.pure_ok.mp h
  have hevents : (events.map (·.recordId)).Perm
      ((dropCrossRecordCollisions candidates).1.map (·.recordId)) := by
    have hperm := (sealEvents_perm hseal).map (·.recordId)
    rwa [List.map_map] at hperm
  refine ⟨?_,rfl,rfl,(List.length_insertionSort _ _).symm,fun q hq => ?_⟩
  · refine (hevents.append ((List.perm_insertionSort _ _).map _)).trans ?_
    rw [List.map_append]
    refine (List.perm_append_comm_assoc _ _ _).trans (List.perm_append_comm.trans ?_)
    exact dropCrossRecordCollisions_perm.append_right _
  · exact (List.mem_insertionSort _).mpr (List.mem_append_left _ hq)

theorem ingestBytes_accounts (h : ingestBytes rt raw sources limits time = .ok result) :
    result.Accounts rt ((splitOctets raw).map (·.1)) := by
  obtain ⟨declared,outcomes,-,ho,hseal⟩ := ingestBytes_returned h
  obtain ⟨hids,hread,hbundled,hquarantined,-⟩ := sealBundle_ids hseal
  have hall : (result.events.map (·.recordId)++result.quarantined.map (·.recordId)).Perm
      (((splitOctets raw).map (·.1)).map rt.recordId) := by
    refine hids.trans (outcomes_split.trans ?_)
    rw [outcomes_ids (mapM_ok.mp ho),List.map_map]
    rfl
  have hlength := hall.length_eq
  simp only [List.length_append,List.length_map] at hlength
  exact ⟨hall,by rw [hread,List.length_map],hbundled,hquarantined,by omega⟩

/-- A line that is no event is quarantined. -/
theorem ingestBytes_quarantines (h : ingestBytes rt raw sources limits time = .ok result)
    {declared : List (String × DeclaredSource)} (hd : declaredSources sources = .ok declared)
    {line : Bytes} {terminated : Bool} (hl : (line,terminated) ∈ splitOctets raw)
    (hn : ¬(terminated = true ∧ ∃ c, LineAdmitted rt limits declared line c)) :
    ∃ q ∈ result.quarantined, q.recordId = rt.recordId line := by
  obtain ⟨declared',outcomes,hd',ho,hseal⟩ := ingestBytes_returned h
  obtain rfl := Except.ok.inj (hd'.symm.trans hd)
  obtain ⟨outcome,hmem,hone⟩ := (forall₂_mem (mapM_ok.mp ho)).1 _ hl
  cases outcome with
  | inl c =>
    obtain ⟨hterminated,hadmitted⟩ := ingestOne_candidate hone
    exact absurd ⟨hterminated,c,hadmitted⟩ hn
  | inr q =>
    obtain ⟨-,-,-,-,hsub⟩ := sealBundle_ids hseal
    exact ⟨q,hsub (mem_dropped.mpr hmem),ingestOne_dropped hone⟩

/-! ### Ends of a call -/

/-- Too many lines for the bound. -/
def TooMany (raw : Bytes) (limits : IngestLimits) : Prop := limits.maxRecords < (splitOctets raw).length

/-- An exception of the interpreter that nothing catches. -/
def IngestError.Uncaught : IngestError → Prop
  | .labelPurity _ => False
  | .spectra s => s.type ≠ .limitError
  | _ => True

/-- The abort on an oracle key. -/
def IngestError.IsAbort : IngestError → Prop
  | .labelPurity _ => True
  | _ => False

variable {declared : List (String × DeclaredSource)}

/-- The stage, for sources and a time that are in order. -/
theorem ingestBytes_eq (hd : declaredSources sources = .ok declared) (ht : ∀ t ∈ time, IsNanos t) :
    ingestBytes rt raw sources limits time = (do
      ingested (ensure ((splitOctets raw).length ≤ limits.maxRecords) (ErrorType.limitError.mk ("ingest: "++
        toString (splitOctets raw).length++" lines exceeds max_records "++toString limits.maxRecords++
        "; truncating would manufacture a silent absence")))
      let outcomes ← (splitOctets raw).mapM fun line => ingestOne rt limits declared line.1 line.2
      sealBundle rt declared time (splitOctets raw).length (outcomes.filterMap Sum.getLeft?)
        (outcomes.filterMap Sum.getRight?)) := by
  have htime : checks (time.toList.map (checkNanos "ingest_bytes.ingest_time_ns")) = .ok () :=
    checks_map.mpr fun t htt => ensure_ok.mpr (ht t (by simpa using htt))
  rw [ingestBytes,hd,Runs.ok_bind,ingested_ok.mpr htime,Runs.ok_bind]
  simp only [ingestLines,bind_assoc,pure_bind]

theorem uncaught_of_raises {line : Bytes} {e : IngestError} (h : LineRaises rt limits declared line e) :
    e.Uncaught := by
  obtain ⟨_,_,_,_,hraises⟩ := h
  cases hraises <;> trivial

theorem onlyAborts_iff {line : Bytes} {terminated : Bool} :
    Runs.OnlyRaises IngestError.IsAbort (ingestOne rt limits declared line terminated) ↔
      (terminated = true → ∀ e, ¬LineRaises rt limits declared line e) := by
  constructor
  · intro h hterminated e hraises
    have habort := h e (ingestOne_error.mpr ⟨hterminated,.inr hraises⟩)
    have huncaught := uncaught_of_raises hraises
    cases e <;> first | exact habort | exact huncaught
  · intro h e he
    obtain ⟨hterminated,⟨key,rfl,-⟩ | hraises⟩ := ingestOne_error.mp he
    · trivial
    · exact absurd hraises (h hterminated e)

theorem onlyUncaught_iff {line : Bytes} {terminated : Bool} :
    Runs.OnlyRaises IngestError.Uncaught (ingestOne rt limits declared line terminated) ↔
      (terminated = true → ∀ key, ¬LineAborts rt limits line key) := by
  constructor
  · intro h hterminated key haborts
    exact h _ (ingestOne_error.mpr ⟨hterminated,.inl ⟨key,rfl,haborts⟩⟩)
  · intro h e he
    obtain ⟨hterminated,⟨key,rfl,haborts⟩ | hraises⟩ := ingestOne_error.mp he
    · exact absurd haborts (h hterminated key)
    · exact uncaught_of_raises hraises

/-- The candidates of a run can be sealed. -/
theorem outcomes_sealable (hrt : rt.Documented) (hlimits : limits.maxAttrs < 2^32)
    (hd : declaredSources sources = .ok declared) {lines : List (Bytes × Bool)} {outcomes : Outcomes}
    (h : lines.mapM (fun line => ingestOne rt limits declared line.1 line.2) = .ok outcomes) :
    ∀ c ∈ outcomes.filterMap Sum.getLeft?, c.Sealable rt.toLibrary declared := by
  intro c hc
  obtain ⟨line,-,hone⟩ := (forall₂_mem (mapM_ok.mp h)).2 _ (mem_candidates.mp hc)
  exact (ingestOne_candidate hone).2.sealable hrt hlimits (declaredSources_keys hd)

/-- A call ends with what a line raised, unless a limit is passed. -/
theorem ingestBytes_raises (P : IngestError → Prop)
    (hP : ∀ s : SpectraError, s.type = .limitError → ¬P (.spectra s)) (hrt : rt.Documented)
    (hlimits : limits.maxAttrs < 2^32) (hd : declaredSources sources = .ok declared)
    (ht : ∀ t ∈ time, IsNanos t) :
    (∃ e, P e ∧ ingestBytes rt raw sources limits time = .error e) ↔ ¬TooMany raw limits ∧
      ∃ e, P e ∧ (splitOctets raw).mapM (fun line => ingestOne rt limits declared line.1 line.2) = .error e := by
  rw [ingestBytes_eq hd ht]
  by_cases hmany : TooMany raw limits
  · rw [ensure,if_neg (not_le.mpr hmany)]
    constructor
    · rintro ⟨e,he,h⟩
      obtain rfl := Except.error.inj h
      exact absurd he (hP _ rfl)
    · exact fun h => absurd hmany h.1
  rw [ensure,if_pos (not_lt.mp hmany),show ingested (Except.ok ()) = .ok () from rfl,Runs.ok_bind]
  refine ⟨fun ⟨e,he,h⟩ => ⟨hmany,e,he,?_⟩,fun ⟨_,e,he,h⟩ => ⟨e,he,Runs.bind_error.mpr (.inl h)⟩⟩
  rcases Runs.bind_error.mp h with h | ⟨outcomes,ho,h⟩
  · exact h
  · obtain ⟨s,rfl,hs⟩ := sealBundle_within hrt ht (outcomes_sealable hrt hlimits hd ho) e h
    exact absurd he (hP s hs)

variable (hrt : rt.Documented) (hlimits : limits.maxAttrs < 2^32)
  (hd : declaredSources sources = .ok declared) (ht : ∀ t ∈ time, IsNanos t)

include hrt hlimits hd ht

/-- The call aborts where a line does, and no line before it raises. -/
theorem aborts_iff : (∃ key, ingestBytes rt raw sources limits time = .error (.labelPurity key)) ↔
    ¬TooMany raw limits ∧ ∃ before line after key, splitOctets raw = before++(line,true)::after ∧
      LineAborts rt limits line key ∧
      ∀ l ∈ before, l.2 = true → ∀ e, ¬LineRaises rt limits declared l.1 e := by
  have hcall : (∃ e : IngestError, e.IsAbort ∧ ingestBytes rt raw sources limits time = .error e) ↔ _ :=
    ingestBytes_raises IngestError.IsAbort (fun _ _ => id) hrt hlimits hd ht
  rw [Runs.mapM_raises] at hcall
  constructor
  · rintro ⟨key,h⟩
    obtain ⟨hfew,before,⟨line,terminated⟩,after,e,hsplit,he,hone,hbefore⟩ := hcall.mp ⟨.labelPurity key,trivial,h⟩
    obtain ⟨rfl,⟨key,rfl,haborts⟩ | hraises⟩ := ingestOne_error.mp hone
    · exact ⟨hfew,before,line,after,key,hsplit,haborts,fun l hl => onlyAborts_iff.mp (hbefore l hl)⟩
    · have huncaught := uncaught_of_raises hraises
      cases e <;> first | exact he.elim | exact huncaught.elim
  · rintro ⟨hfew,before,line,after,key,hsplit,haborts,hbefore⟩
    obtain ⟨e,he,h⟩ := hcall.mpr ⟨hfew,before,(line,true),after,_,hsplit,
      show IngestError.IsAbort (.labelPurity key) from trivial,
      ingestOne_error.mpr ⟨rfl,.inl ⟨key,rfl,haborts⟩⟩,fun l hl => onlyAborts_iff.mpr (hbefore l hl)⟩
    cases e with
    | labelPurity key => exact ⟨key,h⟩
    | _ => exact he.elim

/-- The call raises what nothing catches where a record does, and no line before it aborts. -/
theorem crashes_iff : (∃ e : IngestError, e.Uncaught ∧ ingestBytes rt raw sources limits time = .error e) ↔
    ¬TooMany raw limits ∧ ∃ before line after e, splitOctets raw = before++(line,true)::after ∧
      LineRaises rt limits declared line e ∧
      ∀ l ∈ before, l.2 = true → ∀ key, ¬LineAborts rt limits l.1 key := by
  rw [ingestBytes_raises IngestError.Uncaught (fun _ hs h => h hs) hrt hlimits hd ht,Runs.mapM_raises]
  refine and_congr_right fun _ => ?_
  constructor
  · rintro ⟨before,⟨line,terminated⟩,after,e,hsplit,he,hone,hbefore⟩
    obtain ⟨rfl,⟨key,rfl,-⟩ | hraises⟩ := ingestOne_error.mp hone
    · exact he.elim
    · exact ⟨before,line,after,e,hsplit,hraises,fun l hl => onlyUncaught_iff.mp (hbefore l hl)⟩
  · rintro ⟨before,line,after,e,hsplit,hraises,hbefore⟩
    exact ⟨before,(line,true),after,e,hsplit,uncaught_of_raises hraises,
      ingestOne_error.mpr ⟨rfl,.inr hraises⟩,fun l hl => onlyUncaught_iff.mpr (hbefore l hl)⟩

end

/-- The call ends as documented: with a result that accounts for every line, an abort or a limit. -/
structure Handled (rt : Runtime) (raw : Bytes) (sources : List DeclaredSource)
    (declared : List (String × DeclaredSource)) (limits : IngestLimits) (time : Option ℤ) : Prop where
  ends : ∀ e, ingestBytes rt raw sources limits time = .error e →
    (∃ key, e = .labelPurity key) ∨ ∃ s : SpectraError, e = .spectra s ∧ s.type = .limitError
  accounts : ∀ result, ingestBytes rt raw sources limits time = .ok result →
    result.Accounts rt ((splitOctets raw).map (·.1))
  quarantines : ∀ result, ingestBytes rt raw sources limits time = .ok result →
    ∀ line terminated, (line,terminated) ∈ splitOctets raw →
    ¬(terminated = true ∧ ∃ c, LineAdmitted rt limits declared line c) →
    ∃ q ∈ result.quarantined, q.recordId = rt.recordId line

theorem uncaught_iff {e : IngestError} : e.Uncaught ↔
    ¬((∃ key, e = .labelPurity key) ∨ ∃ s : SpectraError, e = .spectra s ∧ s.type = .limitError) := by
  cases e <;> simp [IngestError.Uncaught]

/-! ### A lone surrogate -/

theorem documented_of {rt : Runtime} (hn : rt.normalize = id) (hd : rt.digestHex = Checker.digestHex)
    (hj : ∀ text j, rt.jsonLoads ingestHooks text = .ok j → j.distinct = true) : rt.Documented := by
  refine ⟨fun s _ => by rw [hn]; rfl,fun kind payload n hmem => ?_,hj⟩
  have hn : n ≤ 32 := by
    simp only [List.mem_cons,List.not_mem_nil,or_false] at hmem
    omega
  have hoctets : octets (rt.digestHex kind payload n) =
      Checker.hexOctets ((Checker.digest kind payload).take n) := by rw [hd]; rfl
  obtain ⟨digits,hdigits⟩ := Checker.hexDigits_hexOctets ((Checker.digest kind payload).take n)
  have hlength := hexDigits_length hdigits
  rw [Checker.length_hexOctets,List.length_take,Checker.length_digest,min_eq_left hn] at hlength
  exact ⟨digits,hoctets ▸ hdigits,hlength.symm⟩

/-- The runtime that reads these texts. -/
def tableRuntime (table : List (Bytes × Json)) (encodes : String → Bool) : Runtime :=
  {Checker.standard table [] with encodes := encodes}

theorem tableRuntime_documented {table : List (Bytes × Json)} (h : ∀ p ∈ table, p.2.distinct = true)
    (encodes : String → Bool) : (tableRuntime table encodes).Documented := by
  refine documented_of rfl rfl fun text j hj => ?_
  cases hget : Dict.get? table (octets text) with
  | none =>
    simp only [tableRuntime,Checker.standard,hget] at hj
    cases hj
  | some v =>
    simp only [tableRuntime,Checker.standard,hget] at hj
    exact Except.ok.inj hj ▸ h _ (Dict.get?_mem hget)

/-- Stands for the text of one surrogate, which no `String` is. -/
def loneSurrogate : String := "\ufffd"

/-- `{"attrs":{},"event_type":"\ud800","seq":0,"source_id":"iam","t_evt_ns":"5"}`. -/
def surrogateLine : Bytes := octets
  "\x7b\"attrs\":\x7b\x7d,\"event_type\":\"\\ud800\",\"seq\":0,\"source_id\":\"iam\",\"t_evt_ns\":\"5\"\x7d"

def surrogateRecord : Json := .obj [("attrs",.obj []),("event_type",.str loneSurrogate),("seq",.int 0),
  ("source_id",.str "iam"),("t_evt_ns",.str "5")]

def surrogateRuntime : Runtime := tableRuntime [(surrogateLine,surrogateRecord)] fun s => s ≠ loneSurrogate

def isUnicodeEncode {α : Type} : Ingested α → Bool
  | .error .unicodeEncode => true
  | _ => false

theorem isUnicodeEncode_error {α : Type} {x : Ingested α} (h : isUnicodeEncode x = true) :
    x = .error .unicodeEncode := by
  unfold isUnicodeEncode at h
  split at h
  · rfl
  · cases h

theorem surrogateRuntime_documented : surrogateRuntime.Documented :=
  tableRuntime_documented (fun p hp => by rw [List.mem_singleton.mp hp]; decide) _

theorem surrogate_raises : ingestBytes surrogateRuntime (surrogateLine++[0x0a]) loginSources {} none =
    .error .unicodeEncode := isUnicodeEncode_error (by decide +kernel)

/-- Ingest handles its input exactly when no record raises before a line aborts, or there are too many
lines to look at any. -/
theorem ingest_handled_iff (rt : Runtime) (raw : Bytes) (sources : List DeclaredSource)
    (declared : List (String × DeclaredSource)) (limits : IngestLimits) (time : Option ℤ)
    (hrt : rt.Documented) (hlimits : limits.maxAttrs < 2^32) (hd : declaredSources sources = .ok declared)
    (ht : ∀ t ∈ time, IsNanos t) :
    Handled rt raw sources declared limits time ↔ TooMany raw limits ∨
      ∀ before line after e, splitOctets raw = before++(line,true)::after →
        LineRaises rt limits declared line e →
        ∃ l ∈ before, l.2 = true ∧ ∃ key, LineAborts rt limits l.1 key := by
  have hcrash : (∃ e : IngestError, e.Uncaught ∧ ingestBytes rt raw sources limits time = .error e) ↔ _ :=
    crashes_iff hrt hlimits hd ht
  have hends : Handled rt raw sources declared limits time ↔
      ¬∃ e : IngestError, e.Uncaught ∧ ingestBytes rt raw sources limits time = .error e := by
    constructor
    · rintro h ⟨e,he,herror⟩
      exact uncaught_iff.mp he (h.ends e herror)
    · intro h
      refine ⟨fun e he => ?_,fun result => ingestBytes_accounts,
        fun result hr line terminated hl hn => ingestBytes_quarantines hr hd hl hn⟩
      by_contra hn
      exact h ⟨e,uncaught_iff.mpr hn,he⟩
  rw [hends,hcrash,not_and_or,not_not]
  refine or_congr_right ⟨fun h before line after e hsplit hraises => ?_,?_⟩
  · by_contra hn
    refine h ⟨before,line,after,e,hsplit,hraises,fun l hl hterminated key haborts => ?_⟩
    exact hn ⟨l,hl,hterminated,key,haborts⟩
  · rintro h ⟨before,line,after,e,hsplit,hraises,hbefore⟩
    obtain ⟨l,hl,hterminated,key,haborts⟩ := h before line after e hsplit hraises
    exact hbefore l hl hterminated key haborts

theorem ingest_handled_iff_surrogate : ∃ declared, declaredSources loginSources = .ok declared ∧
    (Handled surrogateRuntime (surrogateLine++[0x0a]) loginSources declared {} none ↔
      TooMany (surrogateLine++[0x0a]) {} ∨
      ∀ before line after e, splitOctets (surrogateLine++[0x0a]) = before++(line,true)::after →
        LineRaises surrogateRuntime {} declared line e →
        ∃ l ∈ before, l.2 = true ∧ ∃ key, LineAborts surrogateRuntime {} l.1 key) :=
  ⟨_,rfl,ingest_handled_iff surrogateRuntime _ _ _ _ _ surrogateRuntime_documented (by decide) rfl (by simp)⟩

/-- An event type with a lone surrogate is not quarantined. -/
theorem ingest_unhandled : ¬∀ (rt : Runtime) (raw : Bytes) (sources : List DeclaredSource)
    (declared : List (String × DeclaredSource)) (limits : IngestLimits) (time : Option ℤ),
    rt.Documented → limits.maxAttrs < 2^32 → declaredSources sources = .ok declared →
    (∀ t ∈ time, IsNanos t) → Handled rt raw sources declared limits time := by
  intro hall
  have h := hall surrogateRuntime (surrogateLine++[0x0a]) loginSources _ {} none
    surrogateRuntime_documented (by decide) rfl (by simp)
  rcases h.ends _ surrogate_raises with ⟨key,hkey⟩ | ⟨s,hs,-⟩
  · cases hkey
  · cases hs

end Spectra
