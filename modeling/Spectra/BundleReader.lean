import Spectra.Sealing

/-! `_load_bundle` on the octets ingest writes: ingest ends a line with a line feed, and the
reader ends one wherever `str.splitlines` does. -/
namespace Spectra

/-! ### Characters of a text -/

namespace Json

/-- What a reader takes a line to end at although the writer leaves it as it is. -/
def bareBreak (c : Char) : Prop := c.val ∈ [0x85,0x2028,0x2029]

instance (c : Char) : Decidable (bareBreak c) := inferInstanceAs (Decidable (_ ∈ _))

theorem bareBreak_high {c : Char} (h : bareBreak c) : 128 ≤ c.toNat := by
  have hc : c.val.toNat = c.toNat := rfl
  simp only [bareBreak,List.mem_cons,List.not_mem_nil,or_false] at h
  rcases h with h | h | h <;> rw [h] at hc <;> rw [← hc] <;> decide

mutual

/-- The texts and the keys of a value. -/
def texts : Json → List String
  | .str s => [s]
  | .list l => textsItems l
  | .obj m => textsMembers m
  | _ => []

def textsItems : List Json → List String
  | [] => []
  | a::as => a.texts++textsItems as

def textsMembers : List (String × Json) → List String
  | [] => []
  | (k,v)::m => k::v.texts++textsMembers m

end

theorem textsItems_eq (l : List Json) : textsItems l = l.flatMap texts := by
  induction l with
  | nil => rfl
  | cons a l ih => rw [textsItems,ih]; rfl

theorem textsMembers_eq (m : List (String × Json)) :
    textsMembers m = m.flatMap fun p => p.1::p.2.texts := by
  induction m with
  | nil => rfl
  | cons p m ih => rw [textsMembers,ih]; rfl

/-- No text or key holds a character that ends a line for the reader only. -/
def unbroken (j : Json) : Prop := ∀ s ∈ j.texts, ∀ c ∈ s.toList, ¬bareBreak c

-- not through `∀ c`, which would enumerate the characters
instance (j : Json) : Decidable j.unbroken :=
  decidable_of_iff ((j.texts.all fun s => s.toList.all fun c => ¬bareBreak c) = true)
    (by simp [unbroken])

theorem asciiChars_low {l : Bytes} (h : ∀ b ∈ l, b.toNat < 128) : ∀ c ∈ asciiChars l, c.toNat < 128 := by
  intro c hc
  obtain ⟨b,hb,rfl⟩ := List.mem_map.mp hc
  rw [toNat_ofNat_ascii (h b hb)]
  exact h b hb

theorem mem_escapeChar {c d : Char} (h : 128 ≤ c.toNat) : c ∈ escapeChar d ↔ c = d := by
  unfold escapeChar
  split
  · rename_i hd
    have hlow : ∀ c ∈ asciiChars (escape (UInt8.ofNat d.toNat)), c.toNat < 128 :=
      asciiChars_low (escape_ascii (by rw [UInt8.toNat_ofNat']; omega))
    constructor
    · intro hc; have := hlow c hc; omega
    · rintro rfl; omega
  · simp

theorem mem_quotedText {c : Char} {s : String} (h : 128 ≤ c.toNat) : c ∈ quotedText s ↔ c ∈ s.toList := by
  have hq : c ≠ '"' := by rintro rfl; exact absurd h (by decide)
  simp only [quotedText,List.cons_append,List.mem_cons,List.mem_append,List.mem_flatMap,hq,
    List.not_mem_nil,false_or,or_false,mem_escapeChar h]
  constructor
  · rintro ⟨d,hd,rfl⟩
    exact hd
  · exact fun hc => ⟨c,hc,rfl⟩

theorem mem_commaText {c : Char} {l : List (List Char)} (h : 128 ≤ c.toNat) :
    c ∈ commaText l ↔ ∃ p ∈ l, c ∈ p := by
  have hq : c ≠ ',' := by rintro rfl; exact absurd h (by decide)
  induction l with
  | nil => simp [commaText]
  | cons p l ih =>
    cases l with
    | nil => simp [commaText]
    | cons q l =>
      simp only [commaText,List.mem_append,List.mem_cons,hq,false_or,ih,exists_eq_or_imp]

/-- A character outside ASCII is written exactly where a text or a key has it. -/
theorem mem_text {c : Char} (h : 128 ≤ c.toNat) {j : Json} (hj : j.keyed = true) :
    c ∈ j.text ↔ ∃ s ∈ j.texts, c ∈ s.toList := by
  have hlow : ∀ l : List Char, (∀ d ∈ l, d.toNat < 128) → c ∉ l :=
    fun l hl hc => absurd (hl c hc) (by omega)
  have hplain : ∀ l : List Char, (l.all fun d => d.toNat < 128) = true → c ∉ l :=
    fun l hl => hlow l fun d hd => by simpa using List.all_eq_true.mp hl d hd
  induction j using nestedInduction with
  | null => exact iff_of_false (hplain _ (by decide)) (by simp [texts])
  | bool b => exact iff_of_false (hplain _ (by cases b <;> decide)) (by simp [texts])
  | int n =>
    refine iff_of_false (hlow _ (asciiChars_low fun b hb => ?_)) (by simp [texts])
    have := (readable_decimal n b hb).2
    omega
  | scalar s => cases hj
  | str s => simp [text,texts,mem_quotedText h]
  | list l ih =>
    rw [keyed,keyedItems_iff] at hj
    have hopen : c ≠ '[' ∧ c ≠ ']' :=
      ⟨by rintro rfl; exact absurd h (by decide),by rintro rfl; exact absurd h (by decide)⟩
    simp only [text,texts,textItems_eq,textsItems_eq,List.cons_append,List.mem_cons,List.mem_append,
      hopen.1,hopen.2,List.not_mem_nil,false_or,or_false,mem_commaText h,List.mem_flatMap]
    constructor
    · rintro ⟨p,hp,hc⟩
      obtain ⟨a,ha,rfl⟩ := List.mem_map.mp hp
      obtain ⟨s,hs,hc⟩ := (ih a ha (hj a ha)).mp hc
      exact ⟨s,⟨a,ha,hs⟩,hc⟩
    · rintro ⟨s,⟨a,ha,hs⟩,hc⟩
      exact ⟨a.text,List.mem_map_of_mem ha,(ih a ha (hj a ha)).mpr ⟨s,hs,hc⟩⟩
  | obj m ih =>
    rw [keyed,keyedMembers_iff] at hj
    have hopen : c ≠ '\x7b' ∧ c ≠ '\x7d' ∧ c ≠ ':' :=
      ⟨by rintro rfl; exact absurd h (by decide),by rintro rfl; exact absurd h (by decide),
        by rintro rfl; exact absurd h (by decide)⟩
    simp only [text,texts,textMembers_eq,textsMembers_eq,List.cons_append,List.mem_cons,
      List.mem_append,hopen.1,hopen.2.1,List.not_mem_nil,false_or,or_false,mem_commaText h,
      List.mem_flatMap]
    constructor
    · rintro ⟨p,hp,hc⟩
      obtain ⟨q,hq,rfl⟩ := List.mem_map.mp hp
      obtain ⟨r,hr,rfl⟩ := List.mem_map.mp ((List.mem_insertionSort _).mp hq)
      rw [List.mem_append,List.mem_cons,mem_quotedText h] at hc
      rcases hc with hc | hc | hc
      · exact ⟨r.1,⟨r,hr,.inl rfl⟩,hc⟩
      · exact absurd hc hopen.2.2
      · obtain ⟨s,hs,hc⟩ := (ih r hr (hj r hr).2).mp hc
        exact ⟨s,⟨r,hr,.inr hs⟩,hc⟩
    · rintro ⟨s,⟨r,hr,hs⟩,hc⟩
      refine ⟨_,List.mem_map_of_mem ((List.mem_insertionSort _).mpr (List.mem_map_of_mem hr)),?_⟩
      rw [List.mem_append,List.mem_cons,mem_quotedText h]
      rcases hs with rfl | hs
      · exact .inl hc
      · exact .inr (.inr ((ih r hr (hj r hr).2).mpr ⟨s,hs,hc⟩))

/-- No control character of ASCII is in the text. -/
theorem text_printed {j : Json} (hj : j.keyed = true) : ∀ c ∈ j.text, 0x20 ≤ c.toNat := by
  intro c hc
  by_contra hn
  have hb : UInt8.ofNat c.toNat ∈ j.dumps true := by
    rw [← octets_text,octets_ofList]
    exact List.mem_flatMap.mpr ⟨c,hc,by rw [utf8EncodeChar_ascii (by omega)]; simp⟩
  have := dumps_printed hj _ hb
  rw [UInt8.toNat_ofNat'] at this
  omega

end Json

namespace Checker

/-! ### Lines of a text -/

/-- The characters `str.splitlines` ends a line at. -/
def endsLine (c : Char) : Prop :=
  c.val ∈ [0x0a,0x0b,0x0c,0x0d,0x1c,0x1d,0x1e,0x85,0x2028,0x2029]

instance (c : Char) : Decidable (endsLine c) := inferInstanceAs (Decidable (_ ∈ _))

theorem splitLines_append {line l rest : List Char} (h : ∀ c ∈ l, ¬endsLine c) :
    splitLines line (l++rest) = splitLines (line++l) rest := by
  induction l generalizing line with
  | nil => simp
  | cons c l ih =>
    have hc : ¬endsLine c := h c (by simp)
    have hr : c ≠ '\r' := by rintro rfl; exact hc (by decide)
    have hl := @ih (line++[c]) fun d hd => h d (by simp [hd])
    rw [List.cons_append,splitLines,if_neg (show ¬c.val ∈ _ from hc),hl]
    · simp
    · exact fun _ he => absurd he hr

theorem splitLines_break {line rest : List Char} {c : Char} (h : endsLine c) (hr : c ≠ '\r') :
    splitLines line (c::rest) = String.ofList line::splitLines [] rest := by
  rw [splitLines,if_pos (show c.val ∈ _ from h)]
  exact fun _ he => absurd he hr

/-- In a value's text a line ends only where a bare break is. -/
theorem endsLine_text {j : Json} (hj : j.keyed = true) {c : Char} (hc : c ∈ j.text) :
    endsLine c ↔ Json.bareBreak c := by
  have hlow : 0x20 ≤ c.val.toNat := Json.text_printed hj c hc
  simp only [endsLine,Json.bareBreak,List.mem_cons,List.not_mem_nil,or_false]
  constructor
  · rintro (h | h | h | h | h | h | h | h)
    all_goals first | exact h | (rw [h] at hlow; exact absurd hlow (by decide))
  · intro h; simp only [h,or_true]

/-- A value whose text is broken opens with a part the reader takes for a whole line. -/
theorem broken_text {j : Json} (hj : j.keyed = true) (h : ¬j.unbroken) :
    ∃ part c rest, j.text = part++c::rest ∧ (∀ d ∈ part, ¬endsLine d) ∧ endsLine c ∧ c ≠ '\r' := by
  have hex : ∃ c ∈ j.text, Json.bareBreak c := by
    by_contra hn
    push Not at hn
    refine h fun s hs c hc hb => hn c ?_ hb
    exact (Json.mem_text (Json.bareBreak_high hb) hj).mpr ⟨s,hs,hc⟩
  obtain ⟨c,hc,hb⟩ := hex
  have hfind : (j.text.find? fun c => decide (Json.bareBreak c)).isSome :=
    List.find?_isSome.mpr ⟨c,hc,by simpa using hb⟩
  obtain ⟨d,hd⟩ := Option.isSome_iff_exists.mp hfind
  obtain ⟨hbreak,part,rest,htext,hpart⟩ := List.find?_eq_some_iff_append.mp hd
  have hbreak : Json.bareBreak d := by simpa using hbreak
  have hmem : d ∈ j.text := by rw [htext]; simp
  refine ⟨part,d,rest,htext,fun x hx => ?_,(endsLine_text hj hmem).mpr hbreak,?_⟩
  · rw [endsLine_text hj (by rw [htext]; simp [hx])]
    simpa using hpart x hx
  · rintro rfl
    exact absurd hbreak (by decide)

theorem unbroken_text {j : Json} (hj : j.keyed = true) (h : j.unbroken) : ∀ c ∈ j.text, ¬endsLine c := by
  intro c hc
  rw [endsLine_text hj hc]
  intro hb
  obtain ⟨s,hs,hm⟩ := (Json.mem_text (Json.bareBreak_high hb) hj).mp hc
  exact h s hs c hm hb

/-! ### The reader -/

/-- One line of the bundle is indexed. -/
def indexLine (lib : Library) (records : List (String × Json)) (line : String) :
    Check (List (String × Json)) := do
  require (line ≠ "") "E-CANON-FORM"
  let record ← lib.jsonLoads certificateHooks line
  let key ← record.item "event_id"
  key.hash
  match key with
  | .str eventId => pure (Dict.set records eventId record)
  | _ => pure records

theorem loadBundle_eq {lib : Library} {content : Bytes} {text : String}
    (hm : content.take 2 ∉ compressionMagics) (ht : lib.decode content = some text) :
    loadBundle lib (.octets content) = (splitLines [] text.toList).foldlM (indexLine lib) [] := by
  rw [loadBundle,SideFile.read]
  simp only [bind,Except.bind,require,if_pos hm,ht]
  rfl

end Checker

open Checker

namespace BundleRecord

variable {lib : Library} {e : BundleRecord lib}

theorem distinct (e : BundleRecord lib) : e.bundleObj.distinct = true := by
  rw [BundleFields.bundleObj_eq,Json.distinct_obj]
  refine ⟨e.nodup_members,fun p hp => ?_⟩
  have hattrs : (Json.obj (e.attrs.map fun p => (p.1,.str p.2))).distinct = true := by
    rw [Json.distinct_obj]
    refine ⟨by rw [List.map_map]; exact e.nodup_keys,fun p hp => ?_⟩
    obtain ⟨q,-,rfl⟩ := List.mem_map.mp hp
    rfl
  unfold BundleFields.members at hp
  split at hp
  all_goals
    simp only [List.cons_append,List.nil_append,List.append_nil,List.mem_cons,List.not_mem_nil,or_false] at hp
    rcases hp with rfl | rfl | rfl | rfl | rfl | rfl | rfl | rfl | rfl
  all_goals first | exact hattrs | rfl

theorem text_ne_nil (e : BundleRecord lib) : e.bundleObj.text ≠ [] := by
  simp [BundleFields.bundleObj,Json.text]

/-- The line of a record is indexed under the id of the record. -/
theorem indexLine_text (hs : e.bundleObj.scf = true) (hj : lib.Reads certificateHooks e.bundleObj)
    (records : List (String × Json)) : indexLine lib records (String.ofList e.bundleObj.text) =
      .ok (Dict.set records e.eventId e.bundleObj.readBack) := by
  have hread := hj.value (Json.keyed_of_scf hs) e.distinct (.inl (Json.octets_text _))
  have hid : e.bundleObj.readBack.item "event_id" = .ok (.str e.eventId) := by
    rw [BundleFields.bundleObj_eq,Json.item_readBack e.nodup_members (v := .str e.eventId)
      (by simp [BundleFields.members,Dict.get?])]
    rfl
  have hne : String.ofList e.bundleObj.text ≠ "" := by
    intro h
    exact e.text_ne_nil (by simpa using congrArg String.toList h)
  simp only [indexLine,require,if_pos hne,hread]
  refine Runs.bind_ok.mpr ⟨(),rfl,Runs.bind_ok.mpr ⟨_,rfl,Runs.bind_ok.mpr ⟨_,hid,?_⟩⟩⟩
  rfl

/-- A part of a record's line is not indexed. -/
theorem indexLine_part (hj : lib.RefusesParts certificateHooks e.bundleObj) {part rest : List Char}
    (ht : e.bundleObj.text = part++rest) (hr : rest ≠ []) (records r : List (String × Json)) :
    indexLine lib records (String.ofList part) ≠ .ok r := by
  intro h
  obtain ⟨_,-,h⟩ := Runs.bind_ok.mp h
  obtain ⟨record,hread,-⟩ := Runs.bind_ok.mp h
  rw [hj part rest ht hr] at hread
  cases hread

/-- The reader gets through the lines of some records exactly when none of them is broken, and
then it has indexed each. -/
theorem indexLines_ok {events : List (BundleRecord lib)} (hs : ∀ e ∈ events, e.bundleObj.scf = true)
    (hj : ∀ e ∈ events, lib.Reads certificateHooks e.bundleObj ∧
      lib.RefusesParts certificateHooks e.bundleObj) {records r : List (String × Json)} :
    (splitLines [] (events.flatMap fun e => e.bundleObj.text++['\n'])).foldlM (indexLine lib) records = .ok r ↔
      (∀ e ∈ events, e.bundleObj.unbroken) ∧
        events.foldl (fun d e => Dict.set d e.eventId e.bundleObj.readBack) records = r := by
  induction events generalizing records with
  | nil => simp [splitLines]
  | cons e events ih =>
    have hkeyed : e.bundleObj.keyed = true := Json.keyed_of_scf (hs e (by simp))
    have hlines := @ih (fun e he => hs e (by simp [he])) (fun e he => hj e (by simp [he]))
      (Dict.set records e.eventId e.bundleObj.readBack)
    rw [List.flatMap_cons,List.append_assoc,List.forall_mem_cons,List.foldl_cons]
    by_cases hu : e.bundleObj.unbroken
    · rw [splitLines_append (unbroken_text hkeyed hu),List.nil_append,List.singleton_append,
        splitLines_break (by decide) (by decide),Runs.foldlM_cons_ok]
      simp only [indexLine_text (hs e (by simp)) (hj e (by simp)).1,Except.ok.injEq,exists_eq_left',
        hlines,hu,true_and]
    · obtain ⟨part,c,rest,htext,hpart,hc,hr⟩ := broken_text hkeyed hu
      rw [htext,List.append_assoc,splitLines_append hpart,List.nil_append,List.cons_append,
        splitLines_break hc hr,Runs.foldlM_cons_ok]
      refine iff_of_false ?_ fun h => hu h.1.1
      rintro ⟨t,ht,-⟩
      exact indexLine_part (hj e (by simp)).2 htext (by simp) records t ht

end BundleRecord

/-! ### The bundle -/

/-- The octets of some records, one line each. -/
theorem bundleLines_octets {lib : Library} {events : List (BundleRecord lib)} {lines : List Bytes}
    (h : events.mapM (fun e => ingested e.bundleObj.scfLine) = .ok lines) :
    (∀ e ∈ events, e.bundleObj.scf = true) ∧ lines.flatten =
      octets (String.ofList (events.flatMap fun e => e.bundleObj.text++['\n'])) := by
  have hfeed : String.utf8EncodeChar '\n' = [0x0a] := by decide
  have hf := mapM_ok.mp h
  rw [octets_ofList]
  clear h
  induction hf with
  | nil => simp
  | @cons e line _ _ he _ ih =>
    obtain ⟨hs,rfl⟩ := Json.scfLine_ok.mp (ingested_ok.mp he)
    refine ⟨List.forall_mem_cons.mpr ⟨hs,ih.1⟩,?_⟩
    have htext := Json.octets_text e.bundleObj
    rw [octets_ofList] at htext
    simp only [List.flatMap_cons,List.flatMap_append,List.flatten_cons,List.flatMap_nil,ih.2,htext,hfeed,
      List.append_nil]

/-- A bundle does not open with a compression magic: its first line is an object. -/
theorem bundle_uncompressed {lib : Library} (events : List (BundleRecord lib)) :
    (octets (String.ofList (events.flatMap fun e => e.bundleObj.text++['\n']))).take 2 ∉
      compressionMagics := by
  have hbrace : String.utf8EncodeChar '\x7b' = [0x7b] := by decide
  have hmagics : compressionMagics.all (fun m => m.head? ≠ some 0x7b && m ≠ []) = true := by decide
  intro h
  have hm := List.all_eq_true.mp hmagics _ h
  rw [octets_ofList] at hm
  cases events with
  | nil => simp at hm
  | cons e events => simp [BundleFields.bundleObj,Json.text,hbrace] at hm

theorem ingestBytes_ok {rt : Runtime} {raw : Bytes} {sources : List DeclaredSource}
    {limits : IngestLimits} {time : Option ℤ} {result : IngestResult rt.toLibrary}
    (h : ingestBytes rt raw sources limits time = .ok result) :
    (∃ declared kept, sealEvents rt.toLibrary declared time kept = .ok result.events) ∧
      ∃ lines, result.events.mapM (fun e => ingested e.bundleObj.scfLine) = .ok lines ∧
        result.bundleBytes = lines.flatten := by
  obtain ⟨declared,-,h⟩ := Runs.bind_ok.mp h
  obtain ⟨_,-,h⟩ := Runs.bind_ok.mp h
  obtain ⟨_,-,h⟩ := Runs.bind_ok.mp h
  obtain ⟨found,-,h⟩ := Runs.bind_ok.mp h
  obtain ⟨events,hseal,h⟩ := Runs.bind_ok.mp h
  obtain ⟨lines,hlines,h⟩ := Runs.bind_ok.mp h
  obtain rfl := Runs.pure_ok.mp h
  exact ⟨⟨declared,_,hseal⟩,lines,hlines,rfl⟩

/-- The reader gives one entry for each bundled event, under its id, equal to the object that
was written for it. -/
def IngestResult.ReadsBack {lib : Library} (result : IngestResult lib) : Prop :=
  ∃ records, loadBundle lib (.octets result.bundleBytes) = .ok records ∧
    (records.map (·.1)).Nodup ∧
    List.Forall₂ (fun entry e => entry.1 = e.eventId ∧ entry.2.eq e.bundleObj = true) records result.events

section

variable {rt : Runtime} {raw : Bytes} {sources : List DeclaredSource} {limits : IngestLimits}
  {time : Option ℤ} {result : IngestResult rt.toLibrary}

/-- What the reader makes of a bundle. -/
theorem loadBundle_ok (h : ingestBytes rt raw sources limits time = .ok result)
    (hdecode : rt.DecodesText) (hjson : ∀ e ∈ result.events, rt.Reads certificateHooks e.bundleObj ∧
      rt.RefusesParts certificateHooks e.bundleObj)
    (hdigest : rt.TellsApart (result.events.map (·.toBundleFields))) {r : List (String × Json)} :
    loadBundle rt.toLibrary (.octets result.bundleBytes) = .ok r ↔
      (∀ e ∈ result.events, e.bundleObj.unbroken) ∧
        (result.events.map fun e => (e.eventId,e.bundleObj.readBack)) = r := by
  obtain ⟨⟨declared,kept,hseal⟩,lines,hlines,hbytes⟩ := ingestBytes_ok h
  obtain ⟨hscf,htext⟩ := bundleLines_octets hlines
  have hids := sealEvents_ids hseal hdigest
  rw [hbytes,htext,loadBundle_eq (bundle_uncompressed _) (hdecode _),String.toList_ofList,
    BundleRecord.indexLines_ok hscf hjson,Dict.foldl_set_fresh (by simpa using hids)]
  rfl

/-- A bundle reads back exactly when no text in it holds a character at which the reader, but
not the writer, ends a line. -/
theorem bundle_reads_back_iff (h : ingestBytes rt raw sources limits time = .ok result)
    (hdecode : rt.DecodesText) (hjson : ∀ e ∈ result.events, rt.Reads certificateHooks e.bundleObj ∧
      rt.RefusesParts certificateHooks e.bundleObj)
    (hdigest : rt.TellsApart (result.events.map (·.toBundleFields))) :
    result.ReadsBack ↔ ∀ e ∈ result.events, e.bundleObj.unbroken := by
  have hload := fun r => loadBundle_ok (r := r) h hdecode hjson hdigest
  constructor
  · rintro ⟨records,hr,-⟩
    exact ((hload records).mp hr).1
  · intro hu
    have hids : (result.events.map (·.eventId)).Nodup := by
      obtain ⟨⟨declared,kept,hseal⟩,-⟩ := ingestBytes_ok h
      exact sealEvents_ids hseal hdigest
    refine ⟨_,(hload _).mpr ⟨hu,rfl⟩,by rwa [List.map_map],?_⟩
    rw [List.forall₂_map_left_iff]
    exact List.forall₂_same.mpr fun e _ => ⟨rfl,Json.eq_readBack e.distinct⟩

end

/-- A reader of listed documents refuses the parts of one when no listed text is such a part. -/
theorem readerOf_refusesParts {documents : List Json} {j : Json}
    (h : ∀ p ∈ documents.flatMap fun d => [(d.dumps true,d.readBack),(d.dumps true++[0x0a],d.readBack)],
      p.1 <+: j.dumps true → p.1 = j.dumps true) (hooks : Hooks) :
    (readerOf documents).RefusesParts hooks j := by
  intro part rest htext hrest
  have hdumps : j.dumps true = octets (String.ofList part)++rest.flatMap String.utf8EncodeChar := by
    rw [← Json.octets_text,htext,octets_ofList,octets_ofList,List.flatMap_append]
  have hlong : rest.flatMap String.utf8EncodeChar ≠ [] := by
    obtain ⟨c,cs,rfl⟩ := List.exists_cons_of_ne_nil hrest
    rw [List.flatMap_cons]
    exact fun he => String.utf8EncodeChar_ne_nil (List.append_eq_nil_iff.mp he).1
  have hget : Dict.get? (documents.flatMap fun d => [(d.dumps true,d.readBack),
      (d.dumps true++[0x0a],d.readBack)]) (octets (String.ofList part)) = none := by
    by_contra hn
    obtain ⟨v,hv⟩ := Option.ne_none_iff_exists'.mp hn
    have hpart := h _ (Dict.get?_mem hv) ⟨_,hdumps.symm⟩
    rw [hdumps] at hpart
    exact hlong (List.self_eq_append_right.mp hpart)
  simp only [readerOf,standard,hget]
  rfl

section Relay

/-- The line a source sends about one login. -/
def loginLine (host : String) : Json := .obj [("attrs",.obj [("host",.str host)]),
  ("event_type",.str "login"),("seq",.int 0),("source_id",.str "iam"),("t_evt_ns",.str "5")]

/-- The event that is made of it. -/
def loginEvent (host eventId recordId : String) : BundleFields :=
  ⟨eventId,recordId,"iam",0,"login",5,5,[("host",host)],none,none⟩

def loginDocuments (host eventId : String) : List Json :=
  [loginLine host,(loginEvent host eventId "").bundleObj]

def loginRuntime (host eventId : String) : Runtime :=
  {readerOf (loginDocuments host eventId) with encodes := fun _ => true}

def loginBytes (host : String) : Bytes := (loginLine host).dumps true++[0x0a]

def loginSources : List DeclaredSource := [⟨"iam",.unlinked,["login"]⟩]

/-- The line is ingested as that event. -/
def loginIngested (host eventId recordId : String) : Bool :=
  match ingestBytes (loginRuntime host eventId) (loginBytes host) loginSources {} none with
  | .ok result => decide (result.events.map (·.toBundleFields) = [loginEvent host eventId recordId])
  | .error _ => false

def loginTable (host eventId : String) : List (Bytes × Json) :=
  (loginDocuments host eventId).flatMap fun d => [(d.dumps true,d.readBack),(d.dumps true++[0x0a],d.readBack)]

/-- The texts of the two documents are told apart, and none opens the event's. -/
def LoginTexts (host eventId : String) : Prop :=
  ((loginTable host eventId).map (·.1)).Nodup ∧ (loginEvent host eventId "").bundleObj.keyed = true ∧
    (loginEvent host eventId "").bundleObj.distinct = true ∧
    ∀ k ∈ (loginTable host eventId).map (·.1), k <+: (loginEvent host eventId "").bundleObj.dumps true →
      k = (loginEvent host eventId "").bundleObj.dumps true

instance (host eventId : String) : Decidable (LoginTexts host eventId) :=
  inferInstanceAs (Decidable (_ ∧ _ ∧ _ ∧ _))

variable {host eventId recordId : String}

theorem loginRuntime_library :
    (loginRuntime host eventId).toLibrary = readerOf (loginDocuments host eventId) := rfl

theorem login_ingested (hi : loginIngested host eventId recordId = true)
    (ht : LoginTexts host eventId) : ∃ result,
    ingestBytes (loginRuntime host eventId) (loginBytes host) loginSources {} none = .ok result ∧
      (loginRuntime host eventId).DecodesText ∧
      (∀ e ∈ result.events, (loginRuntime host eventId).Reads certificateHooks e.bundleObj ∧
        (loginRuntime host eventId).RefusesParts certificateHooks e.bundleObj) ∧
      (loginRuntime host eventId).TellsApart (result.events.map (·.toBundleFields)) ∧
      result.events.map (·.toBundleFields) = [loginEvent host eventId recordId] := by
  unfold loginIngested at hi
  split at hi
  · rename_i result hr
    have hevents := of_decide_eq_true hi
    obtain ⟨hn,hk,hd,hp⟩ := ht
    refine ⟨result,hr,?_,fun e he => ?_,?_,hevents⟩
    · rw [loginRuntime_library]
      exact readerOf_decodes _
    · have hmem := List.mem_map_of_mem (f := (·.toBundleFields)) he
      rw [hevents,List.mem_singleton] at hmem
      have hobj : e.bundleObj = (loginEvent host eventId "").bundleObj := by rw [hmem]; rfl
      rw [hobj,loginRuntime_library]
      refine ⟨readerOf_reads (by simp [loginDocuments]) hn hk hd,readerOf_refusesParts ?_ _⟩
      exact fun p hpm => hp p.1 (List.mem_map_of_mem hpm)
    · rw [hevents]
      intro e he e' he' p p' hep hep' _
      rw [List.mem_singleton] at he he'
      subst he he'
      exact Except.ok.inj (hep.symm.trans hep')
  · cases hi

end Relay

/-- The record id of the login at `web`. -/
def webRecord : {recordId : String // loginIngested "web" "ev:2b1a3a60b298ba10e5709d4b0c790dad" recordId = true ∧
    LoginTexts "web" "ev:2b1a3a60b298ba10e5709d4b0c790dad"} :=
  ⟨"rc:f83f2a4e741c21270e98b1e5e1e275a0d94b3e36e12cce9ee60432cdc5c4803f",by decide +kernel⟩

theorem bundle_reads_back_iff_login : ∃ result,
    ingestBytes (loginRuntime "web" "ev:2b1a3a60b298ba10e5709d4b0c790dad") (loginBytes "web")
      loginSources {} none = .ok result ∧
    (result.ReadsBack ↔ ∀ e ∈ result.events, e.bundleObj.unbroken) := by
  obtain ⟨result,hr,hd,hj,ht,-⟩ := login_ingested webRecord.2.1 webRecord.2.2
  exact ⟨result,hr,bundle_reads_back_iff hr hd hj ht⟩

/-- The record id of the login at a host with a line separator in its name. -/
def brokenRecord : {recordId : String //
    loginIngested "a\u2028b" "ev:a44ec464b481111ef681a2bab0f113da" recordId = true ∧
      LoginTexts "a\u2028b" "ev:a44ec464b481111ef681a2bab0f113da"} :=
  ⟨"rc:71ff399d2fe58d1cd9a273de4351a1a00a6552766303409f74dfd8a5f1f4b590",by decide +kernel⟩

/-- The host `a b`, with the line separator of Unicode between its letters, ends a line of the
bundle inside a record. -/
theorem bundle_not_read_back : ¬∀ (rt : Runtime) (raw : Bytes) (sources : List DeclaredSource)
    (limits : IngestLimits) (time : Option ℤ) (result : IngestResult rt.toLibrary),
    ingestBytes rt raw sources limits time = .ok result → rt.DecodesText →
    (∀ e ∈ result.events, rt.Reads certificateHooks e.bundleObj ∧
      rt.RefusesParts certificateHooks e.bundleObj) →
    rt.TellsApart (result.events.map (·.toBundleFields)) → result.ReadsBack := by
  intro hall
  obtain ⟨result,hr,hd,hj,ht,hevents⟩ := login_ingested brokenRecord.2.1 brokenRecord.2.2
  obtain ⟨records,hload,-⟩ := hall _ _ _ _ _ result hr hd hj ht
  have hunbroken := ((loadBundle_ok hr hd hj ht).mp hload).1
  obtain ⟨e,he,hfields⟩ := List.mem_map.mp (hevents ▸ List.mem_singleton_self _)
  have hline := hunbroken e he
  rw [hfields] at hline
  exact absurd hline (by decide)

end Spectra
