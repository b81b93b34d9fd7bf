import Spectra.Raising
import Spectra.Sealing

/-! What ingest makes of one line: when it makes a candidate, when it aborts, and when an exception
that nothing catches escapes. -/
namespace Spectra

open Checker (Library)

variable {rt : Runtime} {limits : IngestLimits} {source : DeclaredSource}

/-- UTF-8 has no octets for the text. -/
def Runtime.Unencodable (rt : Runtime) (s : String) : Prop := rt.encodes s = false

/-- The text is its own normal form, and prints. -/
def Checker.Library.Normal (lib : Library) (s : String) : Prop := nfc (lib.normalize s) = .ok s

theorem Runtime.encode_ok {s : String} {b : Bytes} :
    rt.encode s = .ok b ↔ rt.encodes s = true ∧ octets s = b := by
  unfold Runtime.encode
  split <;> simp_all

theorem Runtime.encode_error {s : String} {e : IngestError} :
    rt.encode s = .error e ↔ rt.Unencodable s ∧ IngestError.unicodeEncode = e := by
  unfold Runtime.encode Runtime.Unencodable
  split <;> simp_all

theorem checkNormal_none {form : Drop} {s : String} : checkNormal rt form s = none ↔ rt.Normal s := by
  unfold checkNormal Library.Normal
  split
  · rename_i h; simp [h]
  · rename_i t h; simp [h]

theorem Checker.Library.Normal.eq {lib : Library} {s : String} (h : lib.Normal s) : lib.normalize s = s := by
  unfold Library.Normal nfc at h
  split at h
  · cases h
  · exact Except.ok.inj h

/-- Normal form and print are kept by the encoder of a text that is normal already. -/
theorem Checker.Library.Normal.nfc {lib : Library} {s : String} (h : lib.Normal s) : Spectra.nfc s = .ok s := by
  have he : Spectra.nfc (lib.normalize s) = .ok s := h
  rwa [h.eq] at he

/-! ### Attributes -/

/-- An attribute a record may carry. -/
structure AttrAdmitted (rt : Runtime) (limits : IngestLimits) (p : String × Json) : Prop where
  key : Checker.isKey p.1 = true
  keyShort : (octets p.1).length ≤ limits.maxAttrKeyBytes
  value : ∃ value, p.2 = .str value ∧ rt.encodes value = true ∧
    (octets value).length ≤ limits.maxAttrValueBytes ∧ rt.Normal value

/-- A well-formed key with a text UTF-8 has no octets for. -/
structure AttrUnencodable (rt : Runtime) (limits : IngestLimits) (p : String × Json) : Prop where
  key : Checker.isKey p.1 = true
  keyShort : (octets p.1).length ≤ limits.maxAttrKeyBytes
  value : ∃ value, p.2 = .str value ∧ rt.Unencodable value

theorem checkAttr_none {p : String × Json} :
    checkAttr rt limits p = .ok none ↔ AttrAdmitted rt limits p := by
  constructor
  · intro h
    unfold checkAttr at h
    split at h
    · cases h
    · rename_i hkey
      split at h
      · cases h
      · rename_i hshort
        split at h
        · rename_i value hvalue
          obtain ⟨encoded,he,h⟩ := Runs.bind_ok.mp h
          obtain ⟨hencodes,rfl⟩ := Runtime.encode_ok.mp he
          split at h
          · cases h
          · rename_i hlong
            exact ⟨by simpa using hkey,not_lt.mp hshort,value,hvalue,hencodes,not_lt.mp hlong,
              checkNormal_none.mp (Except.ok.inj h)⟩
        · cases h
  · rintro ⟨hkey,hshort,value,hvalue,hencodes,hlong,hnormal⟩
    rw [checkAttr,hkey,if_neg (by simp),if_neg (not_lt.mpr hshort),hvalue]
    refine Runs.bind_ok.mpr ⟨_,Runtime.encode_ok.mpr ⟨hencodes,rfl⟩,?_⟩
    rw [if_neg (not_lt.mpr hlong)]
    exact congrArg _ (checkNormal_none.mpr hnormal)

theorem checkAttr_error {p : String × Json} {e : IngestError} :
    checkAttr rt limits p = .error e ↔ AttrUnencodable rt limits p ∧ IngestError.unicodeEncode = e := by
  constructor
  · intro h
    unfold checkAttr at h
    split at h
    · cases h
    · rename_i hkey
      split at h
      · cases h
      · rename_i hshort
        split at h
        · rename_i value hvalue
          rcases Runs.bind_error.mp h with he | ⟨encoded,-,h⟩
          · obtain ⟨hu,rfl⟩ := Runtime.encode_error.mp he
            exact ⟨⟨by simpa using hkey,not_lt.mp hshort,value,hvalue,hu⟩,rfl⟩
          · split at h <;> cases h
        · cases h
  · rintro ⟨⟨hkey,hshort,value,hvalue,hu⟩,rfl⟩
    rw [checkAttr,hkey,if_neg (by simp),if_neg (not_lt.mpr hshort),hvalue]
    exact Runs.bind_error.mpr (.inl (Runtime.encode_error.mpr ⟨hu,rfl⟩))

theorem checkAttrList_none {attrs : List (String × Json)} :
    checkAttrList rt limits attrs = .ok none ↔ ∀ p ∈ attrs, AttrAdmitted rt limits p := by
  induction attrs with
  | nil => simp [checkAttrList]
  | cons p rest ih =>
    rw [checkAttrList,Runs.bind_ok,List.forall_mem_cons,← ih,← checkAttr_none]
    constructor
    · rintro ⟨d,hd,h⟩
      cases d with
      | none => exact ⟨hd,h⟩
      | some drop => cases h
    · rintro ⟨hp,h⟩
      exact ⟨none,hp,h⟩

/-- The first attribute that is not admitted has a text UTF-8 has no octets for. -/
def AttrsUnencodable (rt : Runtime) (limits : IngestLimits) (attrs : List (String × Json)) : Prop :=
  ∃ before p after, attrs = before++p::after ∧ (∀ q ∈ before, AttrAdmitted rt limits q) ∧
    AttrUnencodable rt limits p

theorem checkAttrList_error {attrs : List (String × Json)} {e : IngestError} :
    checkAttrList rt limits attrs = .error e ↔
      AttrsUnencodable rt limits attrs ∧ IngestError.unicodeEncode = e := by
  induction attrs with
  | nil => simp [checkAttrList,AttrsUnencodable]
  | cons p rest ih =>
    rw [checkAttrList,Runs.bind_error]
    constructor
    · rintro (h | ⟨d,hd,h⟩)
      · obtain ⟨hp,rfl⟩ := checkAttr_error.mp h
        exact ⟨⟨[],p,rest,rfl,by simp,hp⟩,rfl⟩
      · cases d with
        | some drop => cases h
        | none =>
          obtain ⟨⟨before,q,after,rfl,hb,hq⟩,rfl⟩ := ih.mp h
          exact ⟨⟨p::before,q,after,rfl,List.forall_mem_cons.mpr ⟨checkAttr_none.mp hd,hb⟩,hq⟩,rfl⟩
    · rintro ⟨⟨before,q,after,hsplit,hb,hq⟩,rfl⟩
      cases before with
      | nil =>
        obtain ⟨rfl,rfl⟩ := List.cons.inj hsplit
        exact .inl (checkAttr_error.mpr ⟨hq,rfl⟩)
      | cons r before =>
        obtain ⟨rfl,rfl⟩ := List.cons.inj hsplit
        obtain ⟨hr,hb⟩ := List.forall_mem_cons.mp hb
        exact .inr ⟨none,checkAttr_none.mpr hr,ih.mpr ⟨⟨before,q,after,rfl,hb,hq⟩,rfl⟩⟩

/-! ### Instants -/

/-- The digits of an instant's text. -/
def instantDigits (s : String) : Bytes :=
  match octets s with
  | 0x2d::digits => digits
  | digits => digits

theorem instantOf_error {s : String} (h : isInstantText s = true) {e : IngestError} :
    instantOf s = .error e ↔ 4300 < (instantDigits s).length ∧ IngestError.valueError = e := by
  have hr : ∀ {digits : Bytes}, Checker.isNumeral digits = true →
      require (Checker.isNumeral digits = true) "E-CANON-WIDTH" = .ok () := fun h => require_ok.mpr h
  unfold isInstantText at h
  unfold instantOf Checker.intText instantDigits
  dsimp only
  split at h
  · rename_i digits hd
    rw [Bool.and_eq_true] at h
    try simp only [hd]
    rw [hr h.1,Runs.ok_bind,Checker.decimalValue]
    split_ifs with hlong
    · simp [bind,Except.bind,hlong]
    · simp [bind,Except.bind,pure,Except.pure,hlong]
  · try simp only
    rw [hr h,Runs.ok_bind,Checker.decimalValue]
    split_ifs with hlong
    · simp [bind,Except.bind,hlong]
    · simp [bind,Except.bind,pure,Except.pure,hlong]

/-! ### Records -/

/-- The event type of a record, taken for its source. -/
structure Typed (rt : Runtime) (limits : IngestLimits) (source : DeclaredSource)
    (parsed : List (String × Json)) (eventType : String) : Prop where
  member : Dict.get? parsed "event_type" = some (.str eventType)
  named : eventType ≠ ""
  encodes : rt.encodes eventType = true
  short : (octets eventType).length ≤ limits.maxEventTypeBytes
  normal : rt.Normal eventType
  declared : eventType ∈ source.emitsEventTypes

structure Sequenced (parsed : List (String × Json)) (seq : ℤ) : Prop where
  member : Dict.get? parsed "seq" = some (.int seq)
  range : 0 ≤ seq ∧ seq < 2^32

structure Timed (parsed : List (String × Json)) (tEvtNs : ℤ) : Prop where
  member : ∃ instant, Dict.get? parsed "t_evt_ns" = some (.str instant) ∧ isInstantText instant = true ∧
    instantOf instant = .ok tEvtNs
  range : -2^63 ≤ tEvtNs ∧ tEvtNs < 2^63

structure Attributed (limits : IngestLimits) (parsed : List (String × Json))
    (attrs : List (String × Json)) : Prop where
  member : Dict.get? parsed "attrs" = some (.obj attrs)
  few : attrs.length ≤ limits.maxAttrs

/-- A record of the source that its own line spells. -/
structure RecordAdmitted (rt : Runtime) (limits : IngestLimits) (line : Bytes) (source : DeclaredSource)
    (parsed : List (String × Json)) (c : Candidate) : Prop where
  recordId : c.recordId = "rc:"++rt.digestHex "rc" line 32
  sourceName : c.source = source.source
  typed : Typed rt limits source parsed c.eventType
  sequenced : Sequenced parsed c.seq
  timed : Timed parsed c.tEvtNs
  attrs : ∃ attrs, Attributed limits parsed attrs ∧ (∀ p ∈ attrs, AttrAdmitted rt limits p) ∧
    c.attrs = (attrTexts attrs).insertionSort (·.1 ≤ ·.1)
  spelled : (Json.obj parsed).scfDumps = .ok line
  short : line.length ≤ limits.maxRecordBytes

/-- The defects of a record that no check catches: a text UTF-8 has no octets for, and an instant
of more digits than the interpreter converts. -/
inductive RecordRaises (rt : Runtime) (limits : IngestLimits) (source : DeclaredSource)
    (parsed : List (String × Json)) : IngestError → Prop where
  | eventType {eventType : String} (member : Dict.get? parsed "event_type" = some (.str eventType))
      (named : eventType ≠ "") (unencodable : rt.Unencodable eventType) :
      RecordRaises rt limits source parsed .unicodeEncode
  | instant {eventType : String} {seq : ℤ} {instant : String}
      (typed : Typed rt limits source parsed eventType) (sequenced : Sequenced parsed seq)
      (member : Dict.get? parsed "t_evt_ns" = some (.str instant)) (form : isInstantText instant = true)
      (long : 4300 < (instantDigits instant).length) :
      RecordRaises rt limits source parsed .valueError
  | attrs {eventType : String} {seq tEvtNs : ℤ} {attrs : List (String × Json)}
      (typed : Typed rt limits source parsed eventType) (sequenced : Sequenced parsed seq)
      (timed : Timed parsed tEvtNs) (attributed : Attributed limits parsed attrs)
      (unencodable : AttrsUnencodable rt limits attrs) :
      RecordRaises rt limits source parsed .unicodeEncode

variable {line : Bytes} {parsed : List (String × Json)}

/-- A record is dropped, or it is admitted as the candidate, or it raises. -/
def RecordSettled (rt : Runtime) (limits : IngestLimits) (line : Bytes) (source : DeclaredSource)
    (parsed : List (String × Json)) : Ingested (Candidate ⊕ Drop) → Prop
  | .ok (.inl c) => RecordAdmitted rt limits line source parsed c
  | .ok (.inr _) => True
  | .error e => RecordRaises rt limits source parsed e

theorem checkRecord_settled (rt : Runtime) (limits : IngestLimits) (line : Bytes)
    (source : DeclaredSource) (parsed : List (String × Json)) :
    RecordSettled rt limits line source parsed (checkRecord rt limits line source parsed) := by
  unfold checkRecord
  split
  case h_2 => trivial
  rename_i eventType htype
  rw [pure_bind]
  split
  · trivial
  rename_i hnamed
  cases he : rt.encode eventType with
  | error e =>
    obtain ⟨hu,rfl⟩ := Runtime.encode_error.mp he
    exact .eventType htype hnamed hu
  | ok encoded =>
  obtain ⟨hencodes,rfl⟩ := Runtime.encode_ok.mp he
  rw [Runs.ok_bind]
  split
  · trivial
  rename_i hshort
  split
  · trivial
  rename_i hnormal
  split
  · trivial
  rename_i hdeclared
  have htyped : Typed rt limits source parsed eventType :=
    ⟨htype,hnamed,hencodes,not_lt.mp hshort,
      checkNormal_none.mp (Option.eq_none_iff_forall_ne_some.mpr hnormal),not_not.mp hdeclared⟩
  split
  case h_2 => trivial
  rename_i seq hseq
  rw [pure_bind]
  split
  · trivial
  rename_i hrange
  have hsequenced : Sequenced parsed seq := ⟨hseq,not_not.mp hrange⟩
  split
  case h_2 => trivial
  rename_i instant hinstant
  rw [pure_bind]
  split
  · trivial
  rename_i hform
  have hform : isInstantText instant = true := by simpa using hform
  cases ht : instantOf instant with
  | error e =>
    obtain ⟨hlong,rfl⟩ := (instantOf_error hform).mp ht
    exact .instant htyped hsequenced hinstant hform hlong
  | ok tEvtNs =>
  rw [Runs.ok_bind]
  split
  · trivial
  rename_i hwidth
  have htimed : Timed parsed tEvtNs := ⟨⟨instant,hinstant,hform,ht⟩,not_not.mp hwidth⟩
  split
  case h_2 => trivial
  rename_i attrs hattrs
  rw [pure_bind]
  split
  · trivial
  rename_i hfew
  have hattributed : Attributed limits parsed attrs := ⟨hattrs,not_lt.mp hfew⟩
  cases hd : checkAttrList rt limits attrs with
  | error e =>
    obtain ⟨hu,rfl⟩ := checkAttrList_error.mp hd
    exact .attrs htyped hsequenced htimed hattributed hu
  | ok drop =>
  cases drop with
  | some drop => trivial
  | none =>
  rw [Runs.ok_bind]
  dsimp only
  split
  · trivial
  rename_i reserialised hspelled
  split
  · trivial
  rename_i hlong
  split
  · trivial
  rename_i hsame
  obtain rfl := not_not.mp hsame
  exact ⟨rfl,rfl,htyped,hsequenced,htimed,⟨attrs,hattributed,checkAttrList_none.mp hd,rfl⟩,hspelled,
    not_lt.mp hlong⟩

/-- What no check catches escapes. -/
theorem checkRecord_raises {e : IngestError} (h : RecordRaises rt limits source parsed e) :
    checkRecord rt limits line source parsed = .error e := by
  have htype : ∀ {eventType : String}, Typed rt limits source parsed eventType →
      rt.encode eventType = .ok (octets eventType) ∧
        checkNormal rt (.unknownEventType,"event_type_form") eventType = none :=
    fun ht => ⟨Runtime.encode_ok.mpr ⟨ht.encodes,rfl⟩,checkNormal_none.mpr ht.normal⟩
  unfold checkRecord
  cases h with
  | eventType hmember hnamed hu =>
    rw [hmember]
    dsimp only
    rw [pure_bind,if_neg hnamed,Runtime.encode_error.mpr ⟨hu,rfl⟩]
    rfl
  | instant ht hs hmember hform hlong =>
    obtain ⟨hencode,hnormal⟩ := htype ht
    rw [ht.member]
    dsimp only
    rw [pure_bind,if_neg ht.named,hencode,Runs.ok_bind,if_neg (not_lt.mpr ht.short),hnormal]
    dsimp only
    rw [if_neg (not_not.mpr ht.declared),hs.member]
    dsimp only
    rw [pure_bind,if_neg (not_not.mpr hs.range),hmember]
    dsimp only
    rw [pure_bind,hform,if_neg (by simp),(instantOf_error hform).mpr ⟨hlong,rfl⟩]
    rfl
  | attrs ht hs htimed hattributed hu =>
    obtain ⟨hencode,hnormal⟩ := htype ht
    obtain ⟨instant,hmember,hform,hinstant⟩ := htimed.member
    rw [ht.member]
    dsimp only
    rw [pure_bind,if_neg ht.named,hencode,Runs.ok_bind,if_neg (not_lt.mpr ht.short),hnormal]
    dsimp only
    rw [if_neg (not_not.mpr ht.declared),hs.member]
    dsimp only
    rw [pure_bind,if_neg (not_not.mpr hs.range),hmember]
    dsimp only
    rw [pure_bind,hform,if_neg (by simp),hinstant,Runs.ok_bind,if_neg (not_not.mpr htimed.range),
      hattributed.member]
    dsimp only
    rw [pure_bind,if_neg (not_lt.mpr hattributed.few),checkAttrList_error.mpr ⟨hu,rfl⟩]
    rfl

/-! ### Lines -/

/-- The line, which is not too long, spells this object. -/
structure Loaded (rt : Runtime) (limits : IngestLimits) (line : Bytes) (parsed : List (String × Json)) :
    Prop where
  filled : line ≠ []
  short : line.length ≤ limits.maxLineBytes
  spells : ∃ text, rt.decode line = some text ∧ rt.jsonLoads ingestHooks text = .ok (.obj parsed)

/-- A record with the members of one, of a source that is declared. -/
structure OfSource (declared : List (String × DeclaredSource)) (parsed : List (String × Json))
    (source : DeclaredSource) : Prop where
  pure : assertLabelPure parsed = .ok ()
  members : rawMembers ⊆ parsed.map (·.1) ∧ parsed.map (·.1) ⊆ rawMembers
  named : ∃ name, Dict.get? parsed "source_id" = some (.str name) ∧ isSnake name = true ∧
    Dict.get? declared name = some source

/-- An oracle key is found in the line. -/
inductive LineAborts (rt : Runtime) (limits : IngestLimits) (line : Bytes) (key : String) : Prop where
  | scanned (long : limits.maxLineBytes < line.length) (found : scanBytesForLabels line = some key)
  | loaded {parsed : List (String × Json)} (loaded : Loaded rt limits line parsed)
      (found : assertLabelPure parsed = .error (.labelPurity key))

/-- A line that is bundled unless another is in its way. -/
def LineAdmitted (rt : Runtime) (limits : IngestLimits) (declared : List (String × DeclaredSource))
    (line : Bytes) (c : Candidate) : Prop :=
  ∃ parsed source, Loaded rt limits line parsed ∧ OfSource declared parsed source ∧
    RecordAdmitted rt limits line source parsed c

/-- A line whose record no check guards against. -/
def LineRaises (rt : Runtime) (limits : IngestLimits) (declared : List (String × DeclaredSource))
    (line : Bytes) (e : IngestError) : Prop :=
  ∃ parsed source, Loaded rt limits line parsed ∧ OfSource declared parsed source ∧
    RecordRaises rt limits source parsed e

variable {declared : List (String × DeclaredSource)} {terminated : Bool}

/-- A line is dropped under its own id, it is admitted, it aborts the call, or it raises. -/
def LineSettled (rt : Runtime) (limits : IngestLimits) (declared : List (String × DeclaredSource))
    (line : Bytes) (terminated : Bool) : Ingested (Candidate ⊕ QuarantineRecord) → Prop
  | .ok (.inl c) => terminated = true ∧ LineAdmitted rt limits declared line c
  | .ok (.inr q) => q.recordId = "rc:"++rt.digestHex "rc" line 32
  | .error e => terminated = true ∧ ((∃ key, IngestError.labelPurity key = e ∧ LineAborts rt limits line key) ∨
      LineRaises rt limits declared line e)

theorem assertLabelPure_error {e : IngestError} (h : assertLabelPure parsed = .error e) :
    ∃ key, IngestError.labelPurity key = e := by
  unfold assertLabelPure at h
  split at h
  · exact ⟨_,Except.error.inj h⟩
  · split at h
    · split at h
      · exact ⟨_,Except.error.inj h⟩
      · cases h
    · cases h

theorem ingestOne_settled :
    LineSettled rt limits declared line terminated (ingestOne rt limits declared line terminated) := by
  unfold ingestOne
  dsimp only
  split
  · rfl
  rename_i hterminated
  have hterminated : terminated = true := by simpa using hterminated
  split
  · rfl
  rename_i hfilled
  split
  · rename_i hlong
    split
    · rename_i key hfound
      exact ⟨hterminated,.inl ⟨key,rfl,.scanned hlong hfound⟩⟩
    · rfl
  rename_i hshort
  split
  · rfl
  rename_i text htext
  split
  · rfl
  · rfl
  · rename_i parsed hparsed
    have hloaded : Loaded rt limits line parsed := ⟨hfilled,not_lt.mp hshort,text,htext,hparsed⟩
    cases hpure : assertLabelPure parsed with
    | error e =>
      obtain ⟨key,rfl⟩ := assertLabelPure_error hpure
      exact ⟨hterminated,.inl ⟨key,rfl,.loaded hloaded hpure⟩⟩
    | ok _ =>
    rw [Runs.ok_bind]
    split
    · rfl
    rename_i hmembers
    split
    case h_2 => rfl
    rename_i name hname
    split
    · rfl
    rename_i hsnake
    split
    · rfl
    rename_i source hsource
    have hof : OfSource declared parsed source :=
      ⟨hpure,not_not.mp hmembers,name,hname,by simpa using hsnake,hsource⟩
    have hsettled := checkRecord_settled rt limits line source parsed
    cases hrecord : checkRecord rt limits line source parsed with
    | error e =>
      rw [hrecord] at hsettled
      exact ⟨hterminated,.inr ⟨parsed,source,hloaded,hof,hsettled⟩⟩
    | ok outcome =>
    cases outcome with
    | inl c =>
      rw [hrecord] at hsettled
      exact ⟨hterminated,parsed,source,hloaded,hof,hsettled⟩
    | inr d => rfl
  · rfl

theorem ingestOne_candidate {c : Candidate}
    (h : ingestOne rt limits declared line terminated = .ok (.inl c)) :
    terminated = true ∧ LineAdmitted rt limits declared line c := by
  have hs := @ingestOne_settled rt limits line declared terminated
  rwa [h] at hs

theorem ingestOne_dropped {q : QuarantineRecord}
    (h : ingestOne rt limits declared line terminated = .ok (.inr q)) :
    q.recordId = "rc:"++rt.digestHex "rc" line 32 := by
  have hs := @ingestOne_settled rt limits line declared terminated
  rwa [h] at hs

/-- The two ways a line ends the call. -/
theorem ingestOne_error {e : IngestError} : ingestOne rt limits declared line terminated = .error e ↔
    terminated = true ∧ ((∃ key, IngestError.labelPurity key = e ∧ LineAborts rt limits line key) ∨
      LineRaises rt limits declared line e) := by
  constructor
  · intro h
    have hs := @ingestOne_settled rt limits line declared terminated
    rwa [h] at hs
  · rintro ⟨rfl,⟨key,rfl,hlong,hfound⟩ | ⟨parsed,source,hloaded,hof,hraises⟩⟩
    · have hfilled : line ≠ [] := by rintro rfl; simp at hlong
      simp only [ingestOne,Bool.not_true,Bool.false_eq_true,if_false,if_neg hfilled,if_pos hlong,hfound]
      rfl
    · rename_i parsed hloaded hfound
      obtain ⟨text,htext,hparsed⟩ := hloaded.spells
      simp only [ingestOne,Bool.not_true,Bool.false_eq_true,if_false,if_neg hloaded.filled,
        if_neg (not_lt.mpr hloaded.short),htext,hparsed,hfound]
      rfl
    · obtain ⟨text,htext,hparsed⟩ := hloaded.spells
      obtain ⟨name,hname,hsnake,hsource⟩ := hof.named
      simp only [ingestOne,Bool.not_true,Bool.false_eq_true,if_false,if_neg hloaded.filled,
        if_neg (not_lt.mpr hloaded.short),htext,hparsed,hof.pure,Runs.ok_bind,
        if_neg (not_not.mpr hof.members),hname,hsnake,hsource,checkRecord_raises hraises]
      rfl

end Spectra
