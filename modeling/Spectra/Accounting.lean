import Mathlib.Data.List.ReduceOption
import Spectra.Arrivals
import Spectra.Generator

/-! Generator accounting: what the raw stream and the ground truth of one generation have to do with each
other and with the scenario. -/
namespace Spectra

open Checker (Library)
open Scenario (AttackStep AttackChain BlindnessDecl ScenarioSpec)

namespace Generator

variable {lib : Library} {scenario : ScenarioSpec lib} {seed : ℤ}

/-! ### Emissions -/

/-- An emission its source is not declared blind for; the step it is of can be observed. -/
structure Emitted (scenario : ScenarioSpec lib) (o : Occurrence lib) : Prop where
  sighted : scenario.isDeclaredBlind o.sourceId o.tEvtNs = .ok false
  step : ∀ step, o.step = some step → step ∈ scenario.attack.steps ∧ step.observable = true

theorem benignOccurrence_emitted {family : String} {sourceId : SourceId} {tick index : ℕ} {o : Occurrence lib}
    (h : benignOccurrence scenario seed family sourceId tick index = .ok (some o)) : Emitted scenario o := by
  obtain ⟨offset,-,h⟩ := Runs.bind_ok.mp h
  obtain ⟨blind,hblind,h⟩ := Runs.bind_ok.mp h
  cases blind with
  | true =>
    rw [if_pos rfl] at h
    cases Runs.pure_ok.mp h
  | false =>
    rw [if_neg Bool.false_ne_true] at h
    obtain ⟨principal,-,h⟩ := Runs.bind_ok.mp h
    obtain ⟨attrs,-,h⟩ := Runs.bind_ok.mp h
    obtain rfl := Option.some.inj (Runs.pure_ok.mp h)
    exact ⟨hblind,fun step hstep => absurd hstep (Option.some_ne_none step).symm⟩

theorem emitFrom_emitted {family : String} {sourceId : SourceId} {left tick emitted : ℕ}
    {out : List (Occurrence lib)} (h : emitFrom scenario seed family sourceId left tick emitted = .ok out) :
    ∀ o ∈ out, Emitted scenario o := by
  induction left generalizing tick emitted out with
  | zero => cases h; simp
  | succ left ih =>
    obtain ⟨here,hhere,h⟩ := Runs.bind_ok.mp h
    obtain ⟨later,hlater,h⟩ := Runs.bind_ok.mp h
    obtain rfl := Runs.pure_ok.mp h
    refine List.forall_mem_append.mpr ⟨fun o ho => ?_,ih hlater⟩
    obtain ⟨index,-,hindex⟩ := mapM_mem hhere (List.reduceOption_mem_iff.mp ho)
    exact benignOccurrence_emitted hindex

theorem benignOccurrences_emitted {out : List (Occurrence lib)}
    (h : benignOccurrences scenario seed = .ok out) : ∀ o ∈ out, Emitted scenario o := by
  obtain ⟨families,hfamilies,h⟩ := Runs.bind_ok.mp h
  obtain rfl := Runs.pure_ok.mp h
  intro o ho
  obtain ⟨emissions,hmem,ho⟩ := List.mem_flatten.mp ho
  obtain ⟨family,-,hfamily⟩ := mapM_mem hfamilies hmem
  obtain ⟨source,-,hemit⟩ := Runs.bind_ok.mp hfamily
  exact emitFrom_emitted hemit o ho

theorem attackOccurrence_emitted {step : AttackStep lib} (hs : step ∈ scenario.attack.steps)
    (ho : step.observable = true) {sourceId : SourceId} {o : Occurrence lib}
    (h : attackOccurrence scenario step sourceId = .ok (some o)) : Emitted scenario o := by
  obtain ⟨blind,hblind,h⟩ := Runs.bind_ok.mp h
  cases blind with
  | true =>
    rw [if_pos rfl] at h
    cases Runs.pure_ok.mp h
  | false =>
    rw [if_neg Bool.false_ne_true] at h
    split at h
    · cases h
    · obtain rfl := Option.some.inj (Runs.pure_ok.mp h)
      refine ⟨hblind,fun step' hstep => ?_⟩
      obtain rfl := Option.some.inj hstep
      exact ⟨hs,ho⟩

theorem attackOccurrences_emitted {out : List (Occurrence lib)}
    (h : attackOccurrences scenario = .ok out) : ∀ o ∈ out, Emitted scenario o := by
  obtain ⟨parts,hparts,h⟩ := Runs.bind_ok.mp h
  obtain rfl := Runs.pure_ok.mp h
  intro o ho
  obtain ⟨emissions,hmem,ho⟩ := List.mem_flatten.mp ho
  obtain ⟨step,hstep,hemit⟩ := mapM_mem hparts hmem
  obtain ⟨sightings,hsightings,hemit⟩ := Runs.bind_ok.mp hemit
  obtain rfl := Runs.pure_ok.mp hemit
  obtain ⟨sourceId,-,hsource⟩ := mapM_mem hsightings (List.reduceOption_mem_iff.mp ho)
  obtain ⟨hs,ho⟩ := List.mem_filter.mp hstep
  exact attackOccurrence_emitted hs ho hsource

/-! ### Numbers -/

/-- A record says what the occurrence under it says. -/
structure Records (p : RawEvent lib × Occurrence lib) : Prop where
  sourceId : p.1.sourceId = p.2.sourceId
  tEvtNs : p.1.tEvtNs = p.2.tEvtNs

/-- The numbers of a source count on from the next one of it. -/
theorem numberFrom_ok {nextSeq : List (String × ℕ)} {l : List (Occurrence lib)}
    {numbered : List (RawEvent lib × Occurrence lib)} (h : numberFrom nextSeq l = .ok numbered) :
    numbered.map (·.2) = l ∧ (∀ p ∈ numbered, Records p) ∧ ∀ source,
      (numbered.filter (·.1.source = source)).map (·.1.seq) =
        (List.range' ((Dict.get? nextSeq source).getD 0)
          (numbered.filter (·.1.source = source)).length).map (Nat.cast : ℕ → ℤ) := by
  induction l generalizing nextSeq numbered with
  | nil =>
    cases h
    exact ⟨rfl,by simp,by simp⟩
  | cons o rest ih =>
    obtain ⟨event,hevent,h⟩ := Runs.bind_ok.mp h
    obtain ⟨later,hlater,h⟩ := Runs.bind_ok.mp h
    obtain rfl := Runs.pure_ok.mp h
    have hfields := RawFields.construct_ok.mp hevent
    obtain ⟨hmap,hrecords,hseqs⟩ := ih hlater
    refine ⟨by rw [List.map_cons,hmap],List.forall_mem_cons.mpr ⟨⟨?_,?_⟩,hrecords⟩,fun source => ?_⟩
    · show event.toRawFields.sourceId = o.sourceId
      rw [hfields]
    · show event.toRawFields.tEvtNs = o.tEvtNs
      rw [hfields]
    have hsource : event.source = sourceKey o.sourceId := by
      rw [RawFields.source,hfields]
    by_cases hs : sourceKey o.sourceId = source
    · have hhead : event.seq = ((Dict.get? nextSeq source).getD 0 : ℕ) := by
        show event.toRawFields.seq = _
        rw [hfields,hs]
      have hlater := hseqs source
      rw [hs,Dict.get?_set_self,Option.getD_some] at hlater
      rw [List.filter_cons_of_pos (by simpa [hsource] using hs),List.map_cons,List.length_cons,
        List.range'_succ,List.map_cons,hlater,hhead]
    · have hlater := hseqs source
      rw [Dict.get?_set,if_neg hs] at hlater
      rw [List.filter_cons_of_neg (by simpa [hsource] using hs),hlater]

/-- The time of an occurrence is what it is ordered by first. -/
theorem orderKey_time {o : Occurrence lib} {k : ℤ ×ₗ List ℕ ×ₗ List ℕ ×ₗ List ℕ}
    (h : o.orderKey = .ok k) : (ofLex k).1 = o.tEvtNs := by
  obtain ⟨_,-,h⟩ := Runs.bind_ok.mp h
  obtain ⟨_,-,h⟩ := Runs.bind_ok.mp h
  obtain ⟨_,-,h⟩ := Runs.bind_ok.mp h
  obtain rfl := Runs.pure_ok.mp h
  rfl

theorem sorted_chronological {l out : List (Occurrence lib)} (h : sortedOn (·.orderKey) l = .ok out) :
    out.Pairwise (·.tEvtNs ≤ ·.tEvtNs) := by
  refine (sortedOn_ok h).2.2.imp ?_
  rintro o o' ⟨j,k,hj,hk,hle⟩
  rw [← orderKey_time hj,← orderKey_time hk]
  exact Prod.Lex.monotone_fst _ _ hle

theorem sortKey_le {e e' : RawFields} (ht : e.tEvtNs ≤ e'.tEvtNs) (hs : e.source = e'.source)
    (hq : e.seq ≤ e'.seq) : e.sortKey ≤ e'.sortKey := by
  rw [RawFields.sortKey,RawFields.sortKey,Prod.Lex.toLex_le_toLex,Prod.Lex.toLex_le_toLex]
  rcases ht.lt_or_eq with ht | ht
  · exact .inl ht
  · exact .inr ⟨ht,.inr ⟨hs,hq⟩⟩

/-- Records of a source that are numbered in the order of their times are the file's. -/
theorem source_seqs {numbered raw : List (RawEvent lib)} {source : String} (hp : raw.Perm numbered)
    (hsorted : raw.Pairwise (·.sortKey ≤ ·.sortKey)) (htimes : numbered.Pairwise (·.tEvtNs ≤ ·.tEvtNs))
    (hseqs : ((numbered.filter (·.source = source)).map (·.seq)).Pairwise (· ≤ ·)) :
    (raw.filter (·.source = source)).map (·.seq) = (numbered.filter (·.source = source)).map (·.seq) := by
  have hnumbered : (numbered.filter (·.source = source)).Pairwise (·.sortKey ≤ ·.sortKey) := by
    refine ((htimes.filter _).and (List.pairwise_map.mp hseqs)).imp_of_mem fun {e e'} he he' h => ?_
    have hs := of_decide_eq_true (List.mem_filter.mp he).2
    have hs' := of_decide_eq_true (List.mem_filter.mp he').2
    exact sortKey_le h.1 (hs.trans hs'.symm) h.2
  have hkeys : (raw.filter (·.source = source)).map (·.sortKey) =
      (numbered.filter (·.source = source)).map (·.sortKey) :=
    List.Perm.eq_of_pairwise (fun _ _ _ _ => le_antisymm) (List.pairwise_map.mpr (hsorted.filter _))
      (List.pairwise_map.mpr hnumbered) ((hp.filter _).map _)
  have hseq := congrArg (List.map fun k : ℤ ×ₗ String ×ₗ ℤ => (ofLex (ofLex k).2).2) hkeys
  rwa [List.map_map,List.map_map] at hseq

/-! ### Event ids -/

theorem checkEventIds_ok {seen : List EventId} {l : List (RawEvent lib)} (h : checkEventIds seen l = .ok ()) :
    ∃ ids, l.mapM (·.eventId lib) = .ok ids ∧ ids.Nodup ∧ ∀ eventId ∈ ids, eventId ∉ seen := by
  induction l generalizing seen with
  | nil => exact ⟨[],rfl,List.nodup_nil,by simp⟩
  | cons e l ih =>
    obtain ⟨eventId,hid,h⟩ := Runs.bind_ok.mp h
    obtain ⟨_,hfresh,h⟩ := Runs.bind_ok.mp h
    obtain ⟨ids,hids,hnodup,hseen⟩ := ih h
    refine ⟨eventId::ids,?_,List.nodup_cons.mpr ⟨fun hmem => hseen _ hmem List.mem_cons_self,hnodup⟩,
      List.forall_mem_cons.mpr ⟨ensure_ok.mp hfresh,fun other hmem hin => ?_⟩⟩
    · rw [List.mapM_cons,hid,hids]
      rfl
    · exact hseen other hmem (List.mem_cons_of_mem _ hin)

/-! ### Annotations -/

theorem TruthMembers.mint_ok {m : TruthMembers} {row : GroundTruth lib} (h : m.mint lib = .ok row) :
    row.toTruthMembers = m := by
  obtain ⟨payload,-,h⟩ := Runs.bind_ok.mp h
  obtain ⟨-,rfl⟩ := validated_ok.mp h
  rfl

/-- The annotation of a record names its event, and its step if it is of one. -/
structure Annotates (p : RawEvent lib × Occurrence lib) (row : GroundTruth lib) : Prop where
  event : ∃ eventId, p.1.eventId lib = .ok eventId ∧ row.eventId = some eventId
  step : row.stepK = p.2.step.map (·.k)

theorem eventTruth_ok {p : RawEvent lib × Occurrence lib} {row : GroundTruth lib}
    (h : eventTruth scenario p = .ok row) : Annotates p row := by
  obtain ⟨eventId,hid,h⟩ := Runs.bind_ok.mp h
  cases hstep : p.2.step with
  | none =>
    rw [hstep] at h
    have hrow := TruthMembers.mint_ok h
    exact ⟨⟨eventId,hid,by rw [hrow]⟩,by rw [hrow,hstep]; rfl⟩
  | some step =>
    rw [hstep] at h
    have hrow := TruthMembers.mint_ok h
    exact ⟨⟨eventId,hid,by rw [hrow]⟩,by rw [hrow,hstep]; rfl⟩

/-- The annotation of a step that was not observed names no event. -/
structure Unobserved (step : AttackStep lib) (row : GroundTruth lib) : Prop where
  kind : row.kind = .attackUnobserved
  event : row.eventId = none
  step : row.stepK = some step.k

theorem unobservedTruth_ok {step : AttackStep lib} {row : GroundTruth lib}
    (h : unobservedTruth scenario step = .ok row) : Unobserved step row := by
  have hrow := TruthMembers.mint_ok h
  exact ⟨by rw [hrow],by rw [hrow],by rw [hrow]⟩

theorem truthStream_ok {numbered : List (RawEvent lib × Occurrence lib)} {truth : List (GroundTruth lib)}
    (h : truthStream scenario numbered = .ok truth) : ∃ observed unobserved,
      List.Forall₂ Annotates numbered observed ∧
      List.Forall₂ Unobserved (scenario.attack.steps.filter (!·.observable)) unobserved ∧
      truth.Perm (observed++unobserved) := by
  obtain ⟨observed,hobserved,h⟩ := Runs.bind_ok.mp h
  obtain ⟨unobserved,hunobserved,h⟩ := Runs.bind_ok.mp h
  obtain ⟨ordered,hordered,h⟩ := Runs.bind_ok.mp h
  obtain ⟨_,-,h⟩ := Runs.bind_ok.mp h
  obtain ⟨_,-,h⟩ := Runs.bind_ok.mp h
  obtain rfl := Runs.pure_ok.mp h
  exact ⟨observed,unobserved,(mapM_ok.mp hobserved).imp fun _ _ => eventTruth_ok,
    (mapM_ok.mp hunobserved).imp fun _ _ => unobservedTruth_ok,(sortedOn_ok hordered).1⟩

/-- The annotations of the records name their events in order. -/
theorem annotated_ids {numbered : List (RawEvent lib × Occurrence lib)} {observed : List (GroundTruth lib)}
    (h : List.Forall₂ Annotates numbered observed) :
    (numbered.map (·.1)).mapM (·.eventId lib) = .ok (observed.filterMap (·.eventId)) := by
  induction h with
  | nil => rfl
  | cons ha _ ih =>
    obtain ⟨eventId,hid,hrow⟩ := ha.event
    rw [List.map_cons,List.mapM_cons,hid,ih,List.filterMap_cons]
    simp only [hrow]
    rfl

theorem unobserved_unnamed {steps : List (AttackStep lib)} {rows : List (GroundTruth lib)}
    (h : List.Forall₂ Unobserved steps rows) : rows.filterMap (·.eventId) = [] :=
  List.filterMap_eq_nil_iff.mpr fun row hrow => by
    obtain ⟨step,-,hstep⟩ := (forall₂_mem h).2 row hrow
    exact hstep.event

/-- One annotation has the number of a step that was not observed. -/
theorem unobserved_row {steps : List (AttackStep lib)} {rows : List (GroundTruth lib)}
    (h : List.Forall₂ Unobserved steps rows) (hk : steps.Pairwise (·.k < ·.k)) {step : AttackStep lib}
    (hs : step ∈ steps) : ∃ row, rows.filter (·.stepK = some step.k) = [row] ∧ Unobserved step row := by
  induction h with
  | nil => cases hs
  | @cons first row rest rows hrow hrows ih =>
    obtain ⟨hfirst,hrest⟩ := List.pairwise_cons.mp hk
    rcases List.mem_cons.mp hs with rfl | hs
    · refine ⟨row,?_,hrow⟩
      rw [List.filter_cons_of_pos (by simp [hrow.step]),List.filter_eq_nil_iff.mpr]
      intro other hother
      obtain ⟨later,hlater,hstep⟩ := (forall₂_mem hrows).2 other hother
      have hlt := hfirst later hlater
      simp only [hstep.step,Option.some.injEq,decide_eq_true_eq]
      exact hlt.ne'
    · obtain ⟨found,hfilter,hfound⟩ := ih hrest hs
      have hlt := hfirst step hs
      refine ⟨found,?_,hfound⟩
      rw [List.filter_cons_of_neg,hfilter]
      simp only [hrow.step,Option.some.injEq,decide_eq_true_eq]
      exact hlt.ne

/-! ### The accounts of a generation -/

/-- What the two streams of a generation have to do with each other and with the scenario. -/
structure Accounted (scenario : ScenarioSpec lib) (r : GenResult lib) : Prop where
  numbered : ∀ source, (r.raw.filter (·.source = source)).map (·.seq) =
    (List.range (r.raw.filter (·.source = source)).length).map (Nat.cast : ℕ → ℤ)
  chronological : ∀ source, (r.raw.filter (·.source = source)).Pairwise (·.tEvtNs ≤ ·.tEvtNs)
  named : ∃ ids, r.raw.mapM (·.eventId lib) = .ok ids ∧ ids.Nodup ∧ (r.truth.filterMap (·.eventId)).Perm ids
  unobserved : ∀ step ∈ scenario.attack.steps, step.observable = false →
    ∃ row, r.truth.filter (·.stepK = some step.k) = [row] ∧ Unobserved step row
  sighted : ∀ e ∈ r.raw, ∀ decl ∈ scenario.blindness, sourceKey decl.sourceId = e.source →
    decl.interval.contains e.tEvtNs = false

/-- The streams as they come out of the numbered occurrences. -/
theorem accounted_of_numbered {ordered : List (Occurrence lib)} {r : GenResult lib}
    {numbered : List (RawEvent lib × Occurrence lib)} (hemitted : ∀ o ∈ ordered, Emitted scenario o)
    (htimes : ordered.Pairwise (·.tEvtNs ≤ ·.tEvtNs)) (hnumbered : numberFrom [] ordered = .ok numbered)
    (hraw : r.raw = (numbered.map (·.1)).insertionSort (·.sortKey ≤ ·.sortKey))
    (hids : checkEventIds [] r.raw = .ok ()) (htruth : truthStream scenario numbered = .ok r.truth) :
    Accounted scenario r := by
  obtain ⟨hordered,hrecords,hseqs⟩ := numberFrom_ok hnumbered
  have hperm : r.raw.Perm (numbered.map (·.1)) := hraw ▸ List.perm_insertionSort _ _
  have hsorted : r.raw.Pairwise (·.sortKey ≤ ·.sortKey) :=
    hraw ▸ List.pairwise_insertionSort (fun e e' : RawEvent lib => e.sortKey ≤ e'.sortKey) _
  obtain ⟨observed,unobserved,hobserved,hunobserved,htperm⟩ := truthStream_ok htruth
  have hemitted : ∀ p ∈ numbered, Emitted scenario p.2 := fun p hp =>
    hemitted p.2 (hordered ▸ List.mem_map_of_mem hp)
  refine ⟨fun source => ?_,fun source => ?_,?_,fun step hs ho => ?_,fun e he decl hd hs => ?_⟩
  · have hfilter : (numbered.map (·.1)).filter (·.source = source) =
        (numbered.filter (·.1.source = source)).map (·.1) := List.filter_map
    have htimes : (numbered.map (·.1)).Pairwise (·.tEvtNs ≤ ·.tEvtNs) := by
      rw [← hordered] at htimes
      refine List.pairwise_map.mpr ((List.pairwise_map.mp htimes).imp_of_mem fun hp hq hle => ?_)
      rw [(hrecords _ hp).tEvtNs,(hrecords _ hq).tEvtNs]
      exact hle
    have hcount := hseqs source
    rw [Dict.get?_nil,Option.getD_none,← List.range_eq_range'] at hcount
    have hseq : ((numbered.map (·.1)).filter (·.source = source)).map (·.seq) =
        (List.range (numbered.filter (·.1.source = source)).length).map (Nat.cast : ℕ → ℤ) := by
      rw [hfilter,List.map_map]
      exact hcount
    have hlength : (r.raw.filter (·.source = source)).length =
        (numbered.filter (·.1.source = source)).length := by
      rw [(hperm.filter _).length_eq,hfilter,List.length_map]
    rw [source_seqs hperm hsorted htimes,hseq,hlength]
    rw [hseq]
    exact List.pairwise_map.mpr (List.pairwise_lt_range.imp fun hlt => by exact_mod_cast hlt.le)
  · exact (hsorted.filter _).imp fun hle => Prod.Lex.monotone_fst _ _ hle
  · obtain ⟨ids,hids,hnodup,-⟩ := checkEventIds_ok hids
    obtain ⟨ids',hids',hpids⟩ := Runs.mapM_perm hperm (annotated_ids hobserved)
    obtain rfl := Except.ok.inj (hids.symm.trans hids')
    refine ⟨ids,hids,hnodup,?_⟩
    have hnamed := htperm.filterMap (·.eventId)
    rw [List.filterMap_append,unobserved_unnamed hunobserved,List.append_nil] at hnamed
    exact hnamed.trans hpids.symm
  · have hk := scenario.attack.steps_ascending
    obtain ⟨row,hrow,hstep⟩ := unobserved_row hunobserved (hk.filter _)
      (List.mem_filter.mpr ⟨hs,by simp [ho]⟩)
    refine ⟨row,List.perm_singleton.mp ?_,hstep⟩
    have hnone : observed.filter (·.stepK = some step.k) = [] := by
      -- the step of a record is observable, and no other step has its number
      refine List.filter_eq_nil_iff.mpr fun other hother hk' => ?_
      obtain ⟨p,hp,hannotates⟩ := (forall₂_mem hobserved).2 other hother
      rw [hannotates.step,decide_eq_true_eq] at hk'
      obtain ⟨step',hstep',hk'⟩ := Option.map_eq_some_iff.mp hk'
      obtain ⟨hs',ho'⟩ := (hemitted p hp).step step' hstep'
      obtain rfl := List.inj_on_of_nodup_map (List.pairwise_map.mpr (hk.imp ne_of_lt)) hs' hs hk'
      cases ho.symm.trans ho'
    have := htperm.filter (·.stepK = some step.k)
    rwa [List.filter_append,hnone,List.nil_append,hrow] at this
  · obtain ⟨p,hp,rfl⟩ := List.mem_map.mp (hperm.mem_iff.mp he)
    rw [(hrecords p hp).tEvtNs]
    exact ScenarioSpec.sighted (hemitted p hp).sighted hd
      (hs.trans (congrArg sourceKey (hrecords p hp).sourceId))

/-- Every scenario and seed a generation returns for is accounted for. -/
theorem gen_accounted {r : GenResult lib} (h : gen scenario seed = .ok r) : Accounted scenario r := by
  obtain ⟨_,-,h⟩ := Runs.bind_ok.mp h
  obtain ⟨benign,hbenign,h⟩ := Runs.bind_ok.mp h
  obtain ⟨attack,hattack,h⟩ := Runs.bind_ok.mp h
  obtain ⟨ordered,hordered,h⟩ := Runs.bind_ok.mp h
  obtain ⟨_,-,h⟩ := Runs.bind_ok.mp h
  obtain ⟨_,-,h⟩ := Runs.bind_ok.mp h
  obtain ⟨numbered,hnumbered,h⟩ := Runs.bind_ok.mp h
  obtain ⟨_,-,h⟩ := Runs.bind_ok.mp h
  obtain ⟨_,hids,h⟩ := Runs.bind_ok.mp h
  obtain ⟨truth,htruth,h⟩ := Runs.bind_ok.mp h
  obtain ⟨_,-,h⟩ := Runs.bind_ok.mp h
  obtain rfl := Runs.pure_ok.mp h
  have hemitted : ∀ o ∈ ordered, Emitted scenario o := fun o ho =>
    List.forall_mem_append.mpr ⟨benignOccurrences_emitted hbenign,attackOccurrences_emitted hattack⟩ o
      ((sortedOn_ok hordered).1.mem_iff.mp ho)
  exact accounted_of_numbered hemitted (sorted_chronological hordered) hnumbered rfl hids htruth

/-! ### One chain -/

/-- A login and a reset, of which only the login is seen; logins are not seen in the first second. -/
def resetScenario : ScenarioSpec (Checker.readerOf []) where
  schema := "spectra.vs.scenario/1"
  scenarioId := "vs-01-reset"
  family := "reset"
  epochNs := 0
  horizonTicks := 2
  tickGranularityNs := 1000000000
  sources := [⟨"src:edr",.unlinked,1,[],none,by decide⟩,⟨"src:iam",.chained,0,["login"],none,by decide⟩]
  phases := [⟨"day",⟨0,2000000000,by decide⟩⟩]
  excludedIntervals := []
  entities := {principals := [("alice","user")]
               devices := []
               credentials := [("token","alice","session")]
               services := [("sso","core")]
               resources := [("ledger","core","high")]
               zones := ["core"]}
  noise := ⟨1,1,["login"],by decide⟩
  attack := {chainId := "vs-01"
             steps := [⟨1,"mallory","enter",["src:iam"],[("resource","ledger")],true,1000000000,[],
                 some "login",by decide⟩,
               ⟨2,"mallory","reset",[],[("credential","token")],false,1500000000,[],none,by decide⟩]
             ordered := by decide}
  blindness := [⟨"src:iam",⟨0,1000000000,by decide⟩,"blind",by decide⟩]
  goal := ⟨"owned",["ledger"],5,by decide⟩
  granularity := rfl

def resetRun := returned (gen resetScenario 7) (fun _ => true) (by decide +kernel)

theorem gen_accounted_reset : ∃ r, gen resetScenario 7 = .ok r ∧ Accounted resetScenario r := by
  exact ⟨resetRun.1,resetRun.2.1,gen_accounted resetRun.2.1⟩

end Generator

end Spectra
