import Spectra.Independence
import Spectra.BundleReader

/-! `s7_liveness`: a bundle is split by source before its timelines are built. In a sealed bundle
each source's records are one chain, so continuity of links never blinds them. -/
namespace Spectra

open Checker (Library sourcePrefix readerOf)

/-- A declared source, as far as ingest and the liveness stage read it. -/
structure SpecSource extends DeclaredSource where
  nominalPeriodNs : Option ℤ
  valid : checks [
    ensure (isSnake source) (ErrorType.identifierError.mk "SourceInput.source_id"),
    ensure (∀ n ∈ nominalPeriodNs, 0 < n) (ErrorType.schemaError.mk
      "SourceInput.nominal_period_ns must be positive when present")] = .ok ()

namespace Liveness

variable {lib : Library}

/-- The records of one source, in the order of the bundle. -/
def ownRecords (bundle : List (BundleRecord lib)) (source : String) : List (BundleRecord lib) :=
  bundle.filter (·.source = source)

/-- A declared source with its records, which may be none. -/
def stageSource (bundle : List (BundleRecord lib)) (declared : SpecSource) : SourceInput lib :=
  ⟨declared.source,declared.integrityClass,ownRecords bundle declared.source,declared.nominalPeriodNs,
    declared.valid⟩

/-- The sources `s7_liveness` builds its document from. -/
def stageSources (declared : List SpecSource) (bundle : List (BundleRecord lib)) :
    List (SourceInput lib) :=
  (declared.insertionSort fun d d' => sourcePrefix++d.source ≤ sourcePrefix++d'.source).map
    (stageSource bundle)

theorem mem_stageSources {declared : List SpecSource} {bundle : List (BundleRecord lib)} {d : SpecSource}
    (h : d ∈ declared) : stageSource bundle d ∈ stageSources declared bundle :=
  List.mem_map_of_mem ((List.mem_insertionSort _).mpr h)

/-! ### Order -/

theorem arrivalKey_lt {e e' : BundleFields} (hs : e.source = e'.source) (h : e.sortKey < e'.sortKey) :
    e.arrivalKey < e'.arrivalKey := by
  simp only [BundleFields.sortKey,BundleFields.sourceId,hs,Prod.Lex.toLex_lt_toLex,lt_self_iff_false,
    true_and,false_or] at h
  simp only [BundleFields.arrivalKey,Prod.Lex.toLex_lt_toLex]
  exact h

/-- The records of a source come in the order of the bundle. -/
theorem ownRecords_ascending {bundle : List (BundleRecord lib)}
    (h : (bundle.map (·.sortKey)).Pairwise (· < ·)) (source : String) :
    (ownRecords bundle source).Pairwise fun e e' => e.arrivalKey < e'.arrivalKey := by
  refine ((List.pairwise_map.mp h).filter (fun e => e.source = source)).imp_of_mem ?_
  intro e e' he he' hlt
  have hs : e.source = source := by simpa using (List.mem_filter.mp he).2
  have hs' : e'.source = source := by simpa using (List.mem_filter.mp he').2
  exact arrivalKey_lt (hs.trans hs'.symm) hlt

theorem sortedEvents_own {bundle : List (BundleRecord lib)}
    (h : (bundle.map (·.sortKey)).Pairwise (· < ·)) (source : String) :
    sortedEvents (ownRecords bundle source) = ownRecords bundle source :=
  ((ownRecords_ascending h source).imp le_of_lt).insertionSort_eq

/-- In the order of a bundle no two records of a source have one key. -/
theorem stageSource_keyed {bundle : List (BundleRecord lib)}
    (h : (bundle.map (·.sortKey)).Pairwise (· < ·)) (d : SpecSource) : Keyed (stageSource bundle d) := by
  intro e he e' he' hkey
  have hn : ((ownRecords bundle d.source).map (·.arrivalKey)).Nodup :=
    List.pairwise_map.mpr ((ownRecords_ascending h d.source).imp ne_of_lt)
  exact List.inj_on_of_nodup_map hn he he' hkey

/-! ### Chains -/

/-- The records of a source that keeps a chain: each carries its link to the one before it. -/
structure Chained (own : List (BundleRecord lib)) : Prop where
  hashed : ∀ e ∈ own, e.chainHash.isSome ∧ e.chainPrev.isSome
  linked : own.IsChain fun e e' => e'.chainPrev = e.chainHash

/-- What sealing keeps of a source that keeps a chain: the last hash noted for it is the one of its
last record. -/
structure SealState (declared : List (String × DeclaredSource)) (source : String)
    (st : List (String × String) × List (BundleRecord lib)) : Prop where
  chained : Chained (ownRecords st.2 source)
  last : (ownRecords st.2 source).getLast?.map (·.chainHash) = (Dict.get? st.1 source).map some

variable {declared : List (String × DeclaredSource)} {source : String} {d : DeclaredSource}

theorem Chained.append {own : List (BundleRecord lib)} (h : Chained own) {e : BundleRecord lib}
    (hh : e.chainHash.isSome) (hp : e.chainPrev.isSome)
    (hlast : ∀ l ∈ own.getLast?, e.chainPrev = l.chainHash) : Chained (own++[e]) where
  hashed := by
    intro x hx
    rcases List.mem_append.mp hx with hx | hx
    · exact h.hashed x hx
    · rw [List.mem_singleton.mp hx]
      exact ⟨hh,hp⟩
  linked := List.isChain_append.mpr ⟨h.linked,.singleton _,fun l hl x hx => by
    cases hx
    exact hlast l hl⟩

theorem SealState.step (hd : Dict.get? declared source = some d) (hc : d.integrityClass ≠ .unlinked)
    {st t : List (String × String) × List (BundleRecord lib)} {e : BundleRecord lib}
    (hs : SealState declared source st) (h : sealNext lib declared st e = .ok t) :
    SealState declared source t := by
  have hother : ∀ x : BundleRecord lib, x.source ≠ source →
      ownRecords (st.2++[x]) source = ownRecords st.2 source := by
    intro x hx
    simp [ownRecords,List.filter_append,hx]
  have hown : ∀ x : BundleRecord lib, x.source = source →
      ownRecords (st.2++[x]) source = ownRecords st.2 source++[x] := by
    intro x hx
    simp [ownRecords,List.filter_append,hx]
  unfold sealNext at h
  split at h
  · cases h
  · rename_i d' hd'
    by_cases he : e.source = source
    · have hdd : d' = d := Option.some.inj (by rw [← hd',← hd,he])
      rw [if_neg (by rw [hdd]; exact hc)] at h
      obtain ⟨prev,hprev,h⟩ := Runs.bind_ok.mp h
      obtain ⟨hash,-,h⟩ := Runs.bind_ok.mp h
      obtain ⟨linked,hl,h⟩ := Runs.bind_ok.mp h
      obtain rfl := Runs.pure_ok.mp h
      have hfields := construct_ok (ingested_ok.mp hl)
      have hsource : linked.source = source := by rw [hfields]; exact he
      have hhash : linked.chainHash = some hash := by rw [hfields]
      have hchain : linked.chainPrev = some prev := by rw [hfields]
      have hrecords := hown linked hsource
      refine ⟨?_,?_⟩
      · rw [hrecords]
        refine hs.chained.append (by rw [hhash]; rfl) (by rw [hchain]; rfl) fun l hlast => ?_
        have hnoted := hs.last
        rw [Option.mem_def.mp hlast] at hnoted
        obtain ⟨noted,hn,hnl⟩ := Option.map_eq_some_iff.mp hnoted.symm
        rw [lastHash,he,hn] at hprev
        rw [hchain,← Except.ok.inj hprev]
        exact hnl
      · rw [hrecords,List.getLast?_concat,he,Dict.get?_set_self]
        exact congrArg some hhash
    · split at h
      · cases h
        exact ⟨by rw [hother e he]; exact hs.chained,by rw [hother e he]; exact hs.last⟩
      · obtain ⟨prev,-,h⟩ := Runs.bind_ok.mp h
        obtain ⟨hash,-,h⟩ := Runs.bind_ok.mp h
        obtain ⟨linked,hl,h⟩ := Runs.bind_ok.mp h
        obtain rfl := Runs.pure_ok.mp h
        have hfields := construct_ok (ingested_ok.mp hl)
        have hsource : linked.source ≠ source := by rw [hfields]; exact he
        refine ⟨by rw [hother linked hsource]; exact hs.chained,?_⟩
        rw [hother linked hsource,Dict.get?_set,if_neg he]
        exact hs.last

theorem sealEvents_chained {time : Option ℤ} {candidates : List Candidate}
    {events : List (BundleRecord lib)} (h : sealEvents lib declared time candidates = .ok events)
    (hd : Dict.get? declared source = some d) (hc : d.integrityClass ≠ .unlinked) :
    Chained (ownRecords events source) := by
  obtain ⟨unsealed,-,h⟩ := Runs.bind_ok.mp h
  obtain ⟨⟨chains,sealed⟩,hs,h⟩ := Runs.bind_ok.mp h
  obtain ⟨_,-,h⟩ := Runs.bind_ok.mp h
  obtain rfl := Runs.pure_ok.mp h
  have hrun := Runs.foldlM_inv (P := SealState declared source)
    (fun _ _ _ _ hst ht => hst.step hd hc ht) ⟨⟨by simp [ownRecords],.nil⟩,rfl⟩ hs
  exact hrun.chained

/-- The sources of a run are declared under their own names. -/
theorem declaredSources_get {sources : List DeclaredSource} {declared : List (String × DeclaredSource)}
    (h : declaredSources sources = .ok declared) {d : DeclaredSource} (hd : d ∈ sources) :
    Dict.get? declared d.source = some d := by
  have hrun : ∀ (sources : List DeclaredSource) (table : List (String × DeclaredSource)),
      (table.map (·.1)).Nodup → sources.foldlM (fun table source =>
        if (Dict.get? table source.source).isSome then
          (.error (.spectra (ErrorType.schemaError.mk
            ("ingest: source "++source.source++" is declared twice"))) : Ingested _)
        else .ok (table++[(source.source,source)])) table = .ok declared →
      (declared.map (·.1)).Nodup ∧ table ⊆ declared ∧ ∀ d ∈ sources, (d.source,d) ∈ declared := by
    intro sources
    induction sources with
    | nil =>
      intro table hn h
      obtain rfl := Runs.foldlM_nil_ok.mp h
      exact ⟨hn,List.Subset.refl _,by simp⟩
    | cons s sources ih =>
      intro table hn h
      obtain ⟨table',hstep,h⟩ := Runs.foldlM_cons_ok.mp h
      split at hstep
      · cases hstep
      · rename_i hfresh
        obtain rfl := Except.ok.inj hstep
        have hkey : s.source ∉ table.map (·.1) := fun hk => hfresh (Dict.isSome_get?_iff.mpr hk)
        have hn' : ((table++[(s.source,s)]).map (·.1)).Nodup := by
          rw [List.map_append,List.nodup_append_comm]
          exact List.nodup_cons.mpr ⟨hkey,hn⟩
        obtain ⟨hnodup,hsub,hrest⟩ := ih _ hn' h
        refine ⟨hnodup,fun p hp => hsub (List.mem_append_left _ hp),fun x hx => ?_⟩
        rcases List.mem_cons.mp hx with rfl | hx
        · exact hsub (List.mem_append_right _ (List.mem_singleton_self _))
        · exact hrest x hx
  obtain ⟨hn,-,hall⟩ := hrun sources [] .nil h
  exact Dict.get?_of_mem hn (hall d hd)

/-! ### Ingested bundles -/

section

variable {rt : Runtime} {raw : Bytes} {sources : List DeclaredSource} {limits : IngestLimits}
  {time : Option ℤ} {result : IngestResult rt.toLibrary}

theorem ingested_ascending (h : ingestBytes rt raw sources limits time = .ok result) :
    (result.events.map (·.sortKey)).Pairwise (· < ·) := by
  obtain ⟨⟨declared,kept,hseal⟩,-⟩ := ingestBytes_ok h
  exact sealEvents_ascending hseal

theorem ingested_chained (h : ingestBytes rt raw sources limits time = .ok result)
    {d : DeclaredSource} (hd : d ∈ sources) (hc : d.integrityClass ≠ .unlinked) :
    Chained (ownRecords result.events d.source) := by
  obtain ⟨declared,hdeclared,h⟩ := Runs.bind_ok.mp h
  obtain ⟨_,-,h⟩ := Runs.bind_ok.mp h
  obtain ⟨_,-,h⟩ := Runs.bind_ok.mp h
  obtain ⟨found,-,h⟩ := Runs.bind_ok.mp h
  obtain ⟨events,hseal,h⟩ := Runs.bind_ok.mp h
  obtain ⟨lines,-,h⟩ := Runs.bind_ok.mp h
  obtain rfl := Runs.pure_ok.mp h
  exact sealEvents_chained hseal (declaredSources_get hdeclared hd) hc

end

/-- Neighbours on a chain are linked for the default verifier. -/
theorem Chained.continuous {own earlier later : List (BundleRecord lib)} {l r : BundleRecord lib}
    (h : Chained own) (hs : own = earlier++l::r::later) :
    chainLinkContinuityOnly none l = true ∧ chainLinkContinuityOnly (some l) r = true := by
  subst hs
  obtain ⟨hl,hl'⟩ := h.hashed l (by simp)
  obtain ⟨hr,-⟩ := h.hashed r (by simp)
  obtain ⟨hash,hhash⟩ := Option.isSome_iff_exists.mp hl
  obtain ⟨prev,hprev⟩ := Option.isSome_iff_exists.mp hl'
  obtain ⟨hash',hhash'⟩ := Option.isSome_iff_exists.mp hr
  have hlink : r.chainPrev = l.chainHash :=
    (List.isChain_cons_cons.mp (List.isChain_append.mp h.linked).2.1).1
  simp [chainLinkContinuityOnly,hhash,hprev,hhash',hlink]

/-- On a sealed source, records link exactly when no number is missing between them. -/
theorem linked_iff {inputs : BuildInputs lib} {bundle : List (BundleRecord lib)} {d : SpecSource}
    (hb : (bundle.map (·.sortKey)).Pairwise (· < ·))
    (hc : d.integrityClass ≠ .unlinked → Chained (ownRecords bundle d.source))
    (hv : inputs.chainVerifier = chainLinkContinuityOnly) {l r : BundleRecord lib} {tNs : ℤ}
    (hbr : Brackets (sortedEvents (stageSource bundle d).events) l r tNs) :
    Linked inputs (stageSource bundle d) l r ↔ (d.integrityClass ≠ .unlinked → r.seq ≤ l.seq+1) := by
  obtain ⟨⟨earlier,later,he⟩,-,-⟩ := hbr
  rw [show (stageSource bundle d).events = ownRecords bundle d.source from rfl,sortedEvents_own hb] at he
  constructor
  · exact fun h hd => (h hd).2.2
  · intro h hd
    obtain ⟨hnone,hsome⟩ := (hc hd).continuous he
    rw [hv]
    exact ⟨hnone,hsome,h hd⟩

end Liveness

end Spectra
