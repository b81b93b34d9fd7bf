import Spectra.StoreAnswers

/-! The bundle ingest seals, indexed: which bundles the store takes, the columns of every record, and the
record a lookup gives back. -/
namespace Spectra
namespace Store

/-! ### Reading a line -/

theorem pairsOrRefuse_ok {built pairs : List (String × Json)} (hn : ((built++pairs).map (·.1)).Nodup) :
    pairsOrRefuse built pairs = .ok (.obj (built++pairs)) := by
  induction pairs generalizing built with
  | nil => simp [pairsOrRefuse]
  | cons p pairs ih =>
    obtain ⟨key,value⟩ := p
    have hfresh : ¬(Dict.get? built key).isSome := by
      intro hsome
      rw [List.map_append,List.nodup_append] at hn
      exact hn.2.2 key (Dict.isSome_get?_iff.mp hsome) key (by simp) rfl
    rw [pairsOrRefuse,if_neg hfresh,ih (by simpa using hn)]
    simp

/-- Hooks that refuse repeated keys let a value through as it is that has no float and repeats none. -/
theorem revive_pairs {hooks : Checker.Hooks} (hp : hooks.pairs = pairsOrRefuse []) {j : Json}
    (hk : j.keyed = true) (hd : j.distinct = true) : hooks.revive j = .ok j := by
  induction j using Json.nestedInduction with
  | list l ih =>
    rw [Json.keyed,Json.keyedItems_iff] at hk
    rw [Checker.Hooks.revive,Checker.reviveItems_ok fun a ha => ih a ha (hk a ha) (Json.distinct_list.mp hd a ha)]
    rfl
  | obj m ih =>
    rw [Json.keyed,Json.keyedMembers_iff] at hk
    obtain ⟨hn,hm⟩ := Json.distinct_obj.mp hd
    rw [Checker.Hooks.revive,Checker.reviveMembers_ok fun p hp => ih p hp (hk p hp).2 (hm p hp)]
    exact (congrFun hp m).trans (pairsOrRefuse_ok hn)
  | scalar s => cases hk
  | _ => rfl

/-- A value is read as it was written. -/
theorem loads_written {rt : Runtime} {hooks : Checker.Hooks} (hp : hooks.pairs = pairsOrRefuse []) {j : Json}
    (hj : rt.Reads hooks j) (hk : j.keyed = true) (hd : j.distinct = true) :
    rt.jsonLoads hooks (String.ofList j.text) = .ok j.readBack := by
  rw [hj _ (.inl (Json.octets_text j)),revive_pairs hp (Json.keyed_readBack hk) (Json.distinct_readBack hd)]

/-- The text of a value is that of the value it is read as. -/
theorem text_readBack (j : Json) : String.ofList j.readBack.text = String.ofList j.text :=
  octets_injective (by rw [Json.octets_text,Json.octets_text,Json.dumps_readBack])

/-- The store takes the text of an instant exactly when the instant is not before zero. -/
theorem spelled_decimalText {t t' : ℤ} (h : IsNanos t) :
    Spelled (some (.str (Checker.decimalText t))) t' ↔ 0 ≤ t ∧ t' = t := by
  have hocts : octets (Checker.decimalText t) = Json.decimal t := Checker.octets_asciiString _
  unfold IsNanos at h
  by_cases ht : t < 0
  · refine iff_of_false ?_ fun hno => absurd hno.1 (by omega)
    rintro ⟨text,htext,hnum,-⟩
    cases htext
    rw [hocts,Json.decimal,if_pos ht] at hnum
    cases hnum
  · have hdec : Json.decimal t = Json.digitOctets t.natAbs := if_neg ht
    have hvalue := Checker.decimalValue_digitOctets (n := t.natAbs) (by omega)
    constructor
    · rintro ⟨text,htext,-,n,hn,rfl,-⟩
      cases htext
      rw [hocts,hdec,hvalue] at hn
      cases hn
      exact ⟨by omega,by omega⟩
    · rintro ⟨h0,rfl⟩
      refine ⟨_,rfl,?_,t'.natAbs,?_,by omega,by unfold int64Max; omega⟩
      · rw [hocts,hdec]
        exact Json.isNumeral_digitOctets _
      · rw [hocts,hdec,hvalue]

/-! ### Records -/

/-- The attributes of a record as one object. -/
def attrsObject (e : BundleFields) : Json := .obj (e.attrs.map fun p => (p.1,.str p.2))

def columnsOf (e : BundleFields) : EventColumns :=
  ⟨e.eventId,e.source,e.seq,e.eventType,e.tEvtNs,e.tIngNs,e.chainHash,e.chainPrev,String.ofList (attrsObject e).text⟩

/-- The record as the store answers it. -/
def answered (e : BundleFields) : EventRow :=
  ⟨e.eventId,e.source,e.seq,e.eventType,e.tEvtNs,e.tIngNs,e.chainHash,e.chainPrev,e.attrs.map fun p => (p.1,.str p.2)⟩

/-- What the store asks of a record beyond what ingest does. -/
def Indexable (e : BundleFields) : Prop := 0 ≤ e.tEvtNs ∧ 0 ≤ e.tIngNs ∧ e.eventType ≠ ""

instance (e : BundleFields) : Decidable (Indexable e) := inferInstanceAs (Decidable (_ ∧ _))

section

variable {rt : Runtime}

theorem hash_ne_empty {e : BundleRecord rt.toLibrary} :
    e.chainHash ≠ some "" ∧ e.chainPrev ≠ some "" := by
  have h := e.valid
  simp only [BundleFields.postInit,checks_cons,checks_map] at h
  have hall := h.2.2.2.2.2.2.1
  have hempty : (parseHashRef "").map (fun _ => ()) ≠ .ok () := by decide
  constructor
  · intro he
    exact hempty (hall "" (by simp [he]))
  · intro he
    exact hempty (hall "" (by simp [he]))

/-- The members of a record, read back. -/
theorem get?_bundleObj {e : BundleFields} {obj : List (String × Json)} (ho : e.bundleObj.readBack = .obj obj)
    (key : String) : Dict.get? obj key = (Dict.get? e.members key).map Json.readBack := by
  rw [BundleFields.bundleObj_eq,Json.readBack_obj,Json.obj.injEq] at ho
  exact ho ▸ Json.get?_readBack e.nodup_members key

theorem keys_bundleObj {e : BundleFields} {obj : List (String × Json)} (ho : e.bundleObj.readBack = .obj obj) :
    requiredMembers ⊆ obj.map (·.1) ∧ obj.map (·.1) ⊆ requiredMembers++optionalMembers := by
  rw [BundleFields.bundleObj_eq,Json.readBack_obj,Json.obj.injEq] at ho
  have hkeys : (obj.map (·.1)).Perm (e.members.map (·.1)) := by
    rw [← ho]
    refine ((List.perm_insertionSort _ _).map _).trans ?_
    rw [List.map_map]
    rfl
  have hmembers : requiredMembers ⊆ e.members.map (·.1) ∧
      e.members.map (·.1) ⊆ requiredMembers++optionalMembers := by
    rcases e.members_keys with h | h <;> rw [h]
    · exact ⟨List.subset_append_left _ _,List.Subset.refl _⟩
    · exact ⟨List.Subset.refl _,List.subset_append_left _ _⟩
  exact ⟨fun key hk => hkeys.mem_iff.mpr (hmembers.1 hk),fun key hk => hmembers.2 (hkeys.mem_iff.mp hk)⟩

/-- The columns of a record's line. -/
theorem rowOf_bundleObj {e : BundleRecord rt.toLibrary} (hm : e.Minted rt.toLibrary) {obj : List (String × Json)}
    (ho : e.bundleObj.readBack = .obj obj) {row : EventColumns} :
    RowOf obj row ↔ Indexable e.toBundleFields ∧ row = columnsOf e.toBundleFields := by
  have hread : ∀ key v, Dict.get? e.members key = some v → Dict.get? obj key = some v.readBack :=
    fun key v h => by rw [get?_bundleObj ho,h]; rfl
  have hid := hread "event_id" (.str e.eventId) (by simp [BundleFields.members,Dict.get?])
  have hsource := hread "source_id" (.str e.source) (by simp [BundleFields.members,Dict.get?])
  have htype := hread "event_type" (.str e.eventType) (by simp [BundleFields.members,Dict.get?])
  have hseq := hread "seq" (.int e.seq) (by simp [BundleFields.members,Dict.get?])
  have hevt := hread "t_evt_ns" (.str (Checker.decimalText e.tEvtNs)) (by simp [BundleFields.members,Dict.get?])
  have hing := hread "t_ing_ns" (.str (Checker.decimalText e.tIngNs)) (by simp [BundleFields.members,Dict.get?])
  have hattrs := hread "attrs" (attrsObject e.toBundleFields)
    (by simp [BundleFields.members,Dict.get?,attrsObject])
  obtain ⟨hhash,hprev⟩ := get?_members e
  have hoptional : ∀ t : Option String, (t.map Json.str).map Json.readBack = t.map .str := by
    intro t
    cases t <;> rfl
  have hhash' : Dict.get? obj "chain_hash" = e.chainHash.map .str := by rw [get?_bundleObj ho,hhash,hoptional]
  have hprev' : Dict.get? obj "chain_prev" = e.chainPrev.map .str := by rw [get?_bundleObj ho,hprev,hoptional]
  have hvalid := e.valid
  simp only [BundleFields.postInit,checks_cons,ensure_ok] at hvalid
  obtain ⟨-,hseqWidth,ht,hi,-⟩ := hvalid
  constructor
  · rintro ⟨-,-,⟨hseq',-⟩,⟨attrs,hattrs',htext⟩,⟨hid',-⟩,⟨hsource',-⟩,⟨htype',hne⟩,hevt',hing',⟨hh,-⟩,⟨hp,-⟩⟩
    obtain ⟨h0,het⟩ := (spelled_decimalText (checkNanos_range ht)).mp (hevt ▸ hevt')
    obtain ⟨h1,hit⟩ := (spelled_decimalText (checkNanos_range hi)).mp (hing ▸ hing')
    have hse : e.seq = row.seq := Json.int.inj (Option.some.inj (hseq.symm.trans hseq'))
    have hie : e.eventId = row.eventId := Json.str.inj (Option.some.inj (hid.symm.trans hid'))
    have hso : e.source = row.sourceId := Json.str.inj (Option.some.inj (hsource.symm.trans hsource'))
    have hty : e.eventType = row.eventType := Json.str.inj (Option.some.inj (htype.symm.trans htype'))
    have hat : (attrsObject e.toBundleFields).readBack = .obj attrs := Option.some.inj (hattrs.symm.trans hattrs')
    have hch : e.chainHash = row.chainHash :=
      Option.map_injective (fun _ _ => Json.str.inj) (hhash'.symm.trans hh)
    have hcp : e.chainPrev = row.chainPrev :=
      Option.map_injective (fun _ _ => Json.str.inj) (hprev'.symm.trans hp)
    refine ⟨⟨h0,h1,hty ▸ hne⟩,?_⟩
    rw [← hat,text_readBack] at htext
    cases row
    simp only [columnsOf,EventColumns.mk.injEq]
    exact ⟨hie.symm,hso.symm,hse.symm,hty.symm,het,hit,hch.symm,hcp.symm,htext⟩
  · rintro ⟨⟨h0,h1,hne⟩,rfl⟩
    obtain ⟨payload,-,hminted⟩ := hm
    have hnamed : e.eventId ≠ "" := by
      intro he
      have := congrArg String.length (hminted.symm.trans he)
      rw [String.length_append] at this
      exact absurd this (by simp)
    have hsnake : e.source ≠ "" := fun he => absurd e.snake (by rw [he]; decide)
    obtain ⟨sorted,hsorted⟩ : ∃ sorted, (attrsObject e.toBundleFields).readBack = .obj sorted :=
      ⟨_,Json.readBack_obj _⟩
    exact {
      required := (keys_bundleObj ho).1
      known := (keys_bundleObj ho).2
      seq := ⟨hseq,hseqWidth.1,by have := hseqWidth.2; simp only [Checker.u32Max,columnsOf]; omega⟩
      attrs := ⟨sorted,hsorted ▸ hattrs,by rw [← hsorted,text_readBack]; rfl⟩
      eventId := ⟨hid,hnamed⟩
      sourceId := ⟨hsource,hsnake⟩
      eventType := ⟨htype,hne⟩
      tEvtNs := hevt ▸ (spelled_decimalText (checkNanos_range ht)).mpr ⟨h0,rfl⟩
      tIngNs := hing ▸ (spelled_decimalText (checkNanos_range hi)).mpr ⟨h1,rfl⟩
      chainHash := ⟨hhash',hash_ne_empty.1⟩
      chainPrev := ⟨hprev',hash_ne_empty.2⟩ }

/-- The line of a record is indexed exactly when the record is indexable. -/
theorem lineRow_bundleObj {e : BundleRecord rt.toLibrary} (hdecode : rt.DecodesText)
    (hm : e.Minted rt.toLibrary) (hs : e.bundleObj.scf = true) (hj : rt.Reads lineHooks e.bundleObj)
    {row : EventColumns} : LineRow rt (e.bundleObj.dumps true) row ↔
      Indexable e.toBundleFields ∧ row = columnsOf e.toBundleFields := by
  obtain ⟨obj,hobj⟩ : ∃ obj, e.bundleObj.readBack = .obj obj :=
    ⟨_,by rw [BundleFields.bundleObj_eq,Json.readBack_obj]⟩
  have htext : rt.decode (e.bundleObj.dumps true) = some (String.ofList e.bundleObj.text) := by
    rw [← Json.octets_text,hdecode]
  have hloads := loads_written rfl hj (Json.keyed_of_scf hs) e.distinct
  rw [← rowOf_bundleObj hm hobj]
  constructor
  · rintro ⟨text,obj',ht,hl,hrow⟩
    obtain rfl := Option.some.inj (htext.symm.trans ht)
    rw [hloads,hobj] at hl
    cases hl
    exact hrow
  · exact fun hrow => ⟨_,obj,htext,by rw [hloads,hobj],hrow⟩

theorem lineRows_bundle {events : List (BundleRecord rt.toLibrary)} (hdecode : rt.DecodesText)
    (hm : ∀ e ∈ events, e.Minted rt.toLibrary) (hs : ∀ e ∈ events, e.bundleObj.scf = true)
    (hj : ∀ e ∈ events, rt.Reads lineHooks e.bundleObj) {rows : List EventColumns} :
    List.Forall₂ (LineRow rt) (events.map fun e => e.bundleObj.dumps true) rows ↔
      (∀ e ∈ events, Indexable e.toBundleFields) ∧ rows = events.map fun e => columnsOf e.toBundleFields := by
  induction events generalizing rows with
  | nil => cases rows <;> simp
  | cons e events ih =>
    obtain ⟨hme,hm⟩ := List.forall_mem_cons.mp hm
    obtain ⟨hse,hs⟩ := List.forall_mem_cons.mp hs
    obtain ⟨hje,hj⟩ := List.forall_mem_cons.mp hj
    cases rows with
    | nil => simp
    | cons row rows =>
      rw [List.map_cons,List.forall₂_cons,lineRow_bundleObj hdecode hme hse hje,ih hm hs hj,List.map_cons,
        List.forall_mem_cons,List.cons.injEq]
      tauto

/-- The attributes come back in the order the record keeps them in. -/
theorem eventFromRow_columnsOf {e : BundleRecord rt.toLibrary} (hs : e.bundleObj.scf = true)
    (hj : rt.Reads rowHooks (attrsObject e.toBundleFields)) :
    eventFromRow rt (columnsOf e.toBundleFields) = .ok (answered e.toBundleFields) := by
  have hkeyed : (attrsObject e.toBundleFields).keyed = true := by
    have h := Json.keyed_of_scf hs
    rw [BundleFields.bundleObj_eq,Json.keyed,Json.keyedMembers_iff] at h
    exact (h ("attrs",_) (by simp [BundleFields.members])).2
  have hdistinct : (attrsObject e.toBundleFields).distinct = true := by
    have h := e.distinct
    rw [BundleFields.bundleObj_eq,Json.distinct_obj] at h
    exact h.2 ("attrs",_) (by simp [BundleFields.members])
  have hvalid := e.valid
  simp only [BundleFields.postInit,checks_cons] at hvalid
  obtain ⟨-,-,-,-,hordered,-⟩ := hvalid
  have hbytes : byteOrdered rt.toLibrary ((e.attrs.insertionSort (·.1 ≤ ·.1)).map fun p => (p.1,Json.str p.2)) =
      .ok (e.attrs.map fun p => (p.1,Json.str p.2)) := by
    have hkeys : rt.checkKeys "CanonicalEvent.attrs" 0 none
        ((e.attrs.map fun p => (p.1,Json.str p.2)).map (·.1)) = .ok () := by rwa [List.map_map]
    exact byteOrdered_checked ((List.perm_insertionSort _ _).map _) hkeys
  refine Runs.bind_ok.mpr ⟨_,loads_written rfl hj hkeyed hdistinct,?_⟩
  rw [attrsObject,BundleFields.attrs_readBack]
  exact Runs.bind_ok.mpr ⟨_,hbytes,rfl⟩

end

/-- A sealed bundle is indexed in a fresh store exactly when no record is before time zero or has an empty
type and no id is there twice; then the rows are its records, and each is found under its id as it is. -/
theorem sealed_bundle_indexed (rt : Runtime) (raw : Bytes) (sources : List DeclaredSource)
    (limits : IngestLimits) (time : Option ℤ) (result : IngestResult rt.toLibrary)
    (h : ingestBytes rt raw sources limits time = .ok result) (hdecode : rt.DecodesText)
    (hlines : ∀ e ∈ result.events, rt.Reads lineHooks e.bundleObj)
    (hattrs : ∀ e ∈ result.events, rt.Reads rowHooks (attrsObject e.toBundleFields)) :
    ((∃ n, (load rt .fresh result.bundleBytes).1 = .ok n) ↔
      (∀ e ∈ result.events, Indexable e.toBundleFields) ∧ (result.events.map (·.eventId)).Nodup) ∧
    ∀ n, (load rt .fresh result.bundleBytes).1 = .ok n → n = result.events.length ∧
      (load rt .fresh result.bundleBytes).2.working.rows = result.events.map (fun e => columnsOf e.toBundleFields) ∧
      ∀ e ∈ result.events,
        event rt (load rt .fresh result.bundleBytes).2 e.eventId = .ok (some (answered e.toBundleFields)) := by
  obtain ⟨⟨declared,kept,hseal⟩,lines,hl,hbytes⟩ := ingestBytes_ok h
  obtain ⟨hscf,hfeed⟩ := bundleLines_feed hl
  have hprinted : ∀ line ∈ result.events.map (fun e => e.bundleObj.dumps true), ∀ b ∈ line, 0x20 ≤ b.toNat := by
    intro line hm b hb
    obtain ⟨e,he,rfl⟩ := List.mem_map.mp hm
    exact Json.dumps_printed (Json.keyed_of_scf (hscf e he)) b hb
  have hrows : ∀ rows, fileRows rt result.bundleBytes = .ok rows ↔
      (∀ e ∈ result.events, Indexable e.toBundleFields) ∧
        rows = result.events.map fun e => columnsOf e.toBundleFields := by
    intro rows
    rw [hbytes,hfeed,fileRows_feed fun line hm hb => absurd (hprinted line hm _ hb) (by decide),
      lineRows_bundle hdecode (sealEvents_minted hseal) hscf hlines]
    exact and_iff_right fun line hm hb => absurd (hprinted line hm _ hb) (by decide)
  have hids : (result.events.map fun e => columnsOf e.toBundleFields).map (·.eventId) =
      result.events.map (·.eventId) := List.map_map
  obtain ⟨rows,hf,hn,hcount,hsettled,htable⟩ | ⟨e,herror,-,hno⟩ := @load_cases rt _ fresh_settled result.bundleBytes
  · obtain ⟨hall,rfl⟩ := (hrows _).mp hf
    have hfresh : Database.fresh.committed.rows = [] := rfl
    rw [hfresh,List.nil_append] at hn htable
    refine ⟨iff_of_true ⟨_,hcount⟩ ⟨hall,hids ▸ hn⟩,fun n hok => ⟨?_,?_,fun e he => ?_⟩⟩
    · rw [hcount,List.length_map] at hok
      exact (Except.ok.inj hok).symm
    · rw [hsettled,htable]
    · have hnamed : e.eventId ≠ "" := (rowOf_bundleObj (sealEvents_minted hseal e he)
        (by rw [BundleFields.bundleObj_eq,Json.readBack_obj])).mpr ⟨hall e he,rfl⟩ |>.eventId.2
      have hfound : (load rt .fresh result.bundleBytes).2.committed.archive e.eventId =
          some (columnsOf e.toBundleFields) :=
        @archive_mem _ (columnsOf e.toBundleFields) (htable ▸ List.mem_map.mpr ⟨e,he,rfl⟩)
      rw [event_archive hsettled hnamed,hfound,foundRow,eventFromRow_columnsOf (hscf e he) (hattrs e he)]
      rfl
  · refine ⟨iff_of_false ?_ fun hc => ?_,fun n hok => ?_⟩
    · rintro ⟨n,hok⟩
      rw [herror] at hok
      cases hok
    · exact hno _ ((hrows _).mpr ⟨hc.1,rfl⟩) (by rw [List.map_append,hids]; exact hc.2)
    · rw [herror] at hok
      cases hok

/-! ### The bundle of one login -/

def loginAttrs : Json := .obj [("host",.str "web")]

/-- The line, the event that is sealed of it, and its attributes. -/
def indexedDocuments : List Json := chainedDocuments++[loginAttrs]

def indexedRun := returned (ingestBytes (documentRuntime indexedDocuments) (loginBytes "web") chainedSources {} none)
  (fun result => decide (result.events.length = 1 ∧
    result.events.map (·.toBundleFields) = chainedEvents [loginLine "web"] ∧
    ∀ e ∈ result.events, e.attrs = [("host","web")])) (by decide +kernel)

def indexedTold : ToldDocuments :=
  ⟨indexedDocuments,by decide +kernel,by decide +kernel,by decide +kernel⟩

theorem indexedDocuments_reads {j : Json} (hj : j ∈ indexedDocuments) {hooks : Checker.Hooks}
    (hp : hooks.pairs = pairsOrRefuse []) : (documentRuntime indexedDocuments).Reads hooks j := by
  have hkept := List.all_eq_true.mp indexedTold.kept j hj
  rw [Bool.and_eq_true] at hkept
  intro text ht
  have hget : Dict.get? (documentTable indexedDocuments) (octets text) = some j.readBack := by
    refine Dict.get?_of_mem indexedTold.apart (List.mem_flatMap.mpr ⟨j,hj,?_⟩)
    rcases ht with ht | ht <;> rw [ht] <;> simp
  rw [revive_pairs hp (Json.keyed_readBack hkept.1) (Json.distinct_readBack hkept.2),documentRuntime_loads,hget]
  rfl

theorem sealed_bundle_indexed_login : ∃ result : IngestResult (documentRuntime indexedDocuments).toLibrary,
    ingestBytes (documentRuntime indexedDocuments) (loginBytes "web") chainedSources {} none = .ok result ∧
    result.events.length = 1 ∧
    ((∃ n, (load (documentRuntime indexedDocuments) .fresh result.bundleBytes).1 = .ok n) ↔
      (∀ e ∈ result.events, Indexable e.toBundleFields) ∧ (result.events.map (·.eventId)).Nodup) := by
  obtain ⟨result,hresult,hrun⟩ := indexedRun
  obtain ⟨hlength,hsame,hattrs⟩ := of_decide_eq_true hrun
  refine ⟨result,hresult,hlength,(sealed_bundle_indexed _ _ _ _ _ result hresult
    (Checker.readerOf_decodes indexedDocuments) (fun e he => ?_) fun e he => ?_).1⟩
  · refine indexedDocuments_reads ?_ rfl
    refine List.mem_append_left _ (List.mem_cons_of_mem _ (List.mem_map.mpr ⟨e.toBundleFields,?_,rfl⟩))
    exact hsame ▸ List.mem_map_of_mem he
  · have hobject : attrsObject e.toBundleFields = loginAttrs := by
      rw [attrsObject,hattrs e he]
      rfl
    exact indexedDocuments_reads (hobject ▸ List.mem_append_right _ (List.mem_singleton.mpr rfl)) rfl

end Store
end Spectra
