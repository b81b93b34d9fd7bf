import Spectra.Nesting

/-! A forged chain: what it leaves of the numbering of its source, of the instants and of the other
records, and how the stream before it is recovered. -/
namespace Spectra

open Checker (Library)

namespace Degrade

variable {lib : Library}

/-! ### What a forgery is -/

/-- The record of a stream that a forgery leaves in the place of one. -/
def Resealed (spec : ChainForge lib) (e e' : RawEvent lib) : Prop :=
  e'.toRawFields = if e.source ≠ spec.sourceId ∨ e.seq ≤ spec.afterSeq then e.toRawFields
    else {e.toRawFields with seq := e.seq+spec.count}

/-- Two consecutive numbers of a source lie this far apart. -/
def SeqGap (raw : List (RawEvent lib)) (s : String) (gap : ℤ) : Prop :=
  ∃ l ∈ raw, ∃ r ∈ raw, l.source = s ∧ r.source = s ∧ l.seq < r.seq ∧ gap = r.seq-l.seq ∧
    ∀ e ∈ raw, e.source = s → e.seq ≤ l.seq ∨ r.seq ≤ e.seq

/-- Delete what was fabricated, and count back what comes later. -/
def unforge (spec : ChainForge lib) (e : RawFields) : Option RawFields :=
  if e.source ≠ spec.sourceId ∨ e.seq ≤ spec.afterSeq then some e
  else if e.seq ≤ spec.afterSeq+spec.count then none
  else some {e with seq := e.seq-spec.count}

/-- The host, its successor, the records between them that are fabricated, and the real ones. -/
structure Forgery (raw : List (RawEvent lib)) (spec : ChainForge lib) (r : DegradationResult lib)
    (host successor : RawEvent lib) (fabricated kept : List (RawEvent lib)) : Prop where
  hosted : host ∈ raw ∧ host.source = spec.sourceId ∧ host.seq = spec.afterSeq
  followed : successor ∈ raw ∧ successor.source = spec.sourceId ∧ host.seq < successor.seq
  consecutive : ∀ e ∈ raw, e.source = spec.sourceId → e.seq ≤ host.seq ∨ successor.seq ≤ e.seq
  numbers : fabricated.map (·.seq) = (List.range spec.count.toNat).map fun index : ℕ => spec.afterSeq+1+index
  template : ∀ e ∈ fabricated, e.sourceId = host.sourceId ∧ e.eventType = spec.eventType ∧ e.attrs = spec.attrs
  instants : (fabricated.map (·.tEvtNs)).Pairwise (· < ·)
  between : ∀ e ∈ fabricated, host.tEvtNs < e.tEvtNs ∧ e.tEvtNs < successor.tEvtNs
  resealed : List.Forall₂ (Resealed spec) raw kept
  stream : r.raw.Perm (fabricated++kept)
  rows : r.forged.Perm (fabricated.map fun e =>
    ⟨spec.sourceId,e.seq,e.tEvtNs,e.eventType,((e.eventId lib).toOption).getD ""⟩)
  unique : ((raw.filter (·.source = spec.sourceId)).map (·.seq)).Nodup
  ascending : r.raw.Pairwise fun a b => a.sortKey < b.sortKey

/-! ### The operator -/

section

variable {raw : List (RawEvent lib)} {spec : ChainForge lib} {r : DegradationResult lib}

theorem ChainForge.range (spec : ChainForge lib) : 0 < spec.count ∧ 0 ≤ spec.afterSeq := by
  have h := spec.valid
  simp only [checks_cons,ensure_ok,u32,uint] at h
  obtain ⟨-,hafter,hcount,hzero,-⟩ := h
  split at hafter
  · split at hcount
    · omega
    · cases hcount
  · cases hafter

theorem reseal_ok {e : RawEvent lib} {p : RawEvent lib × Option ResealedRef} (h : reseal spec e = .ok p) :
    Resealed spec e p.1 := by
  unfold reseal at h
  unfold Resealed
  split at h
  · rename_i hout
    rw [← Runs.pure_ok.mp h,if_pos hout]
  · rename_i hin
    obtain ⟨moved,hmoved,h⟩ := Runs.bind_ok.mp h
    obtain ⟨_,-,h⟩ := Runs.bind_ok.mp h
    obtain ⟨_,-,h⟩ := Runs.bind_ok.mp h
    rw [← Runs.pure_ok.mp h,if_neg hin]
    exact RawFields.construct_ok.mp hmoved

theorem fabricate_ok {host : RawEvent lib} {step : ℤ} {index : ℕ} {p : RawEvent lib × ForgedRef}
    (h : fabricate spec host step index = .ok p) :
    p.1.toRawFields = ⟨host.sourceId,spec.afterSeq+1+index,host.tEvtNs+step*(index+1),spec.eventType,spec.attrs⟩ ∧
      p.2 = ⟨spec.sourceId,p.1.seq,p.1.tEvtNs,p.1.eventType,((p.1.eventId lib).toOption).getD ""⟩ := by
  obtain ⟨e,he,h⟩ := Runs.bind_ok.mp h
  obtain ⟨eventId,hid,h⟩ := Runs.bind_ok.mp h
  obtain rfl := Runs.pure_ok.mp h
  exact ⟨RawFields.construct_ok.mp he,by simp only [hid]; rfl⟩

/-- Equal steps inside a gap stay inside it. -/
theorem step_between {gap count index : ℤ} (hcount : 0 < count) (hgap : count+1 ≤ gap) (h0 : 0 ≤ index)
    (h1 : index < count) : 0 < gap/(count+1) ∧ 0 < gap/(count+1)*(index+1) ∧ gap/(count+1)*(index+1) < gap := by
  have hstep : 1 ≤ gap/(count+1) := (Int.le_ediv_iff_mul_le (by omega)).mpr (by omega)
  refine ⟨by omega,mul_pos (by omega) (by omega),?_⟩
  calc gap/(count+1)*(index+1) ≤ gap/(count+1)*count := by
        have hle : index+1 ≤ count := h1
        gcongr
    _ < gap/(count+1)*(count+1) := by
        have hlt : count < count+1 := by omega
        gcongr
    _ ≤ gap := Int.ediv_mul_le _ (by omega)

theorem forge_ok {host successor : RawEvent lib} (h : forge raw spec host successor = .ok r) :
    ∃ fabricated kept, spec.count+1 ≤ successor.tEvtNs-host.tEvtNs ∧
      List.Forall₂ (fun (index : ℕ) (e : RawEvent lib) => e.toRawFields = ⟨host.sourceId,spec.afterSeq+1+index,
        host.tEvtNs+(successor.tEvtNs-host.tEvtNs)/(spec.count+1)*(index+1),spec.eventType,spec.attrs⟩)
        (List.range spec.count.toNat) fabricated ∧
      List.Forall₂ (Resealed spec) raw kept ∧ r.raw.Perm (fabricated++kept) ∧
      r.forged.Perm (fabricated.map fun e =>
        ⟨spec.sourceId,e.seq,e.tEvtNs,e.eventType,((e.eventId lib).toOption).getD ""⟩) ∧
      r.raw.Pairwise fun a b => a.sortKey < b.sortKey := by
  obtain ⟨_,hgap,h⟩ := Runs.bind_ok.mp h
  obtain ⟨fabricated,hfabricated,h⟩ := Runs.bind_ok.mp h
  obtain ⟨kept,hkept,h⟩ := Runs.bind_ok.mp h
  obtain ⟨_,hascending,h⟩ := Runs.bind_ok.mp h
  obtain ⟨_,-,h⟩ := Runs.bind_ok.mp h
  obtain ⟨forged,hforged,h⟩ := Runs.bind_ok.mp h
  obtain ⟨resealed,-,h⟩ := Runs.bind_ok.mp h
  obtain ⟨_,rfl⟩ := validated_ok.mp h
  have hall := mapM_ok.mp hfabricated
  refine ⟨fabricated.map (·.1),kept.map (·.1),ensure_ok.mp hgap,?_,?_,List.perm_insertionSort _ _,?_,?_⟩
  · exact List.forall₂_map_right_iff.mpr (hall.imp fun _ _ hp => (fabricate_ok hp).1)
  · exact List.forall₂_map_right_iff.mpr ((mapM_ok.mp hkept).imp fun _ _ hp => reseal_ok hp)
  · refine (sortedOn_ok hforged).1.trans (.of_eq ?_)
    rw [List.map_map]
    refine List.map_congr_left fun p hp => ?_
    obtain ⟨index,-,hindex⟩ := (forall₂_mem hall).2 p hp
    exact (fabricate_ok hindex).2
  · exact List.pairwise_map.mp (checkStrictlyAscending_ok.mp hascending)

theorem map_of_forall₂ {α β γ : Type} {R : α → β → Prop} {f : β → γ} {g : α → γ} {l : List α} {m : List β}
    (h : List.Forall₂ R l m) (hfg : ∀ a b, R a b → f b = g a) : m.map f = l.map g := by
  induction h with
  | nil => rfl
  | cons hab _ ih => rw [List.map_cons,List.map_cons,hfg _ _ hab,ih]

/-- The first of an ascending list with a number, and what comes after it. -/
theorem dropWhile_host {α : Type} {seq : α → ℤ} {n : ℤ} {l rest : List α} {host successor : α}
    (hs : (l.map seq).Pairwise (· < ·)) (h : l.dropWhile (fun a => decide (seq a ≠ n)) = host::successor::rest) :
    host ∈ l ∧ successor ∈ l ∧ seq host = n ∧ seq host < seq successor ∧
      ∀ a ∈ l, seq a ≤ seq host ∨ seq successor ≤ seq a := by
  have hl := List.takeWhile_append_dropWhile (p := fun a => decide (seq a ≠ n)) (l := l)
  rw [h] at hl
  have hhost : seq host = n := by
    have hne := List.head_dropWhile_not (fun a => decide (seq a ≠ n)) (l := l) (by rw [h]; simp)
    simp only [h,List.head_cons] at hne
    simpa using hne
  rw [← hl,List.map_append,List.map_cons,List.map_cons,List.pairwise_append] at hs
  obtain ⟨-,hs,hbefore⟩ := hs
  obtain ⟨hfirst,hs⟩ := List.pairwise_cons.mp hs
  have hnext := (List.pairwise_cons.mp hs).1
  refine ⟨by rw [← hl]; simp,by rw [← hl]; simp,hhost,hfirst _ (by simp),fun a ha => ?_⟩
  rw [← hl,List.mem_append,List.mem_cons,List.mem_cons] at ha
  rcases ha with ha | rfl | rfl | ha
  · exact .inl (hbefore _ (List.mem_map_of_mem ha) _ (by simp)).le
  · exact .inl le_rfl
  · exact .inr le_rfl
  · exact .inr (hnext _ (List.mem_map_of_mem ha)).le

theorem chainForge_ok (h : chainForge raw spec = .ok r) :
    ∃ host successor fabricated kept, Forgery raw spec r host successor fabricated kept := by
  obtain ⟨_,-,h⟩ := Runs.bind_ok.mp h
  obtain ⟨_,hseqs,h⟩ := Runs.bind_ok.mp h
  obtain ⟨vocabulary,-,h⟩ := Runs.bind_ok.mp h
  obtain ⟨_,-,h⟩ := Runs.bind_ok.mp h
  have hascending := checkStrictlyAscending_ok.mp hseqs
  have hperm := List.perm_insertionSort (fun a b : RawEvent lib => a.seq ≤ b.seq)
    (raw.filter (·.source = spec.sourceId))
  have hmem : ∀ e, e ∈ (raw.filter (·.source = spec.sourceId)).insertionSort (·.seq ≤ ·.seq) ↔
      e ∈ raw ∧ e.source = spec.sourceId := by
    intro e
    rw [hperm.mem_iff,List.mem_filter,decide_eq_true_iff]
  split at h
  · cases h
  · cases h
  · rename_i host successor rest hdrop
    obtain ⟨hhost,hsuccessor,hnumber,hlt,hconsecutive⟩ := dropWhile_host hascending hdrop
    obtain ⟨fabricated,kept,hgap,hfabricated,hkept,hstream,hrows,hsorted⟩ := forge_ok h
    rw [hmem] at hhost hsuccessor
    obtain ⟨hcount,-⟩ := spec.range
    have hfields := forall₂_mem hfabricated
    refine ⟨host,successor,fabricated,kept,⟨hhost.1,hhost.2,hnumber⟩,⟨hsuccessor.1,hsuccessor.2,hlt⟩,
      fun e he hs => hconsecutive e ((hmem e).mpr ⟨he,hs⟩),?_,?_,?_,?_,hkept,hstream,hrows,?_,hsorted⟩
    · exact map_of_forall₂ hfabricated fun index e he => by rw [he]
    · intro e he
      obtain ⟨index,-,hindex⟩ := hfields.2 e he
      rw [hindex]
      exact ⟨rfl,rfl,rfl⟩
    · have hstep := (@step_between _ spec.count 0 hcount hgap le_rfl hcount).1
      rw [map_of_forall₂ hfabricated fun index e he => congrArg (·.tEvtNs) he,List.pairwise_map]
      refine List.pairwise_lt_range.imp fun {a b} hab => ?_
      dsimp only
      gcongr
    · intro e he
      obtain ⟨index,hmem,hindex⟩ := hfields.2 e he
      have hlt := List.mem_range.mp hmem
      have hstep := @step_between _ spec.count index hcount hgap (by omega) (by omega)
      rw [hindex]
      dsimp only
      omega
    · exact (hperm.map _).nodup_iff.mp (hascending.imp ne_of_lt)

/-! ### What it leaves -/

/-- A resealed record is from the same source, and numbered as it was or further on. -/
theorem Resealed.number {e e' : RawEvent lib} (h : Resealed spec e e') : e'.source = e.source ∧
    e'.seq = if e.source ≠ spec.sourceId ∨ e.seq ≤ spec.afterSeq then e.seq else e.seq+spec.count := by
  rw [h]
  split <;> exact ⟨rfl,rfl⟩

/-- Counting back recovers the record. -/
theorem Resealed.unforge {e e' : RawEvent lib} (h : Resealed spec e e') :
    unforge spec e'.toRawFields = some e.toRawFields := by
  have hcount := spec.range.1
  rw [h]
  unfold Degrade.unforge
  split
  · rfl
  · rename_i hin
    rw [not_or,not_not] at hin
    rw [if_neg (by
      rw [not_or,not_not]
      exact ⟨hin.1,by dsimp only; omega⟩),if_neg (by dsimp only; omega)]
    simp

namespace Forgery

variable {host successor : RawEvent lib} {fabricated kept : List (RawEvent lib)}

theorem fabricated_source (h : Forgery raw spec r host successor fabricated kept) {e : RawEvent lib}
    (he : e ∈ fabricated) : e.source = spec.sourceId := by
  rw [RawFields.source,(h.template e he).1]
  exact h.hosted.2.1

/-- The numbers right behind the host are those of the fabricated records. -/
theorem fabricated_number (h : Forgery raw spec r host successor fabricated kept) {n : ℤ} :
    (∃ e ∈ fabricated, e.seq = n) ↔ spec.afterSeq < n ∧ n ≤ spec.afterSeq+spec.count := by
  rw [← List.mem_map,h.numbers,List.mem_map]
  constructor
  · rintro ⟨index,hindex,rfl⟩
    have := List.mem_range.mp hindex
    omega
  · rintro ⟨h0,h1⟩
    exact ⟨(n-spec.afterSeq-1).toNat,List.mem_range.mpr (by omega),by omega⟩

/-- Where a number of the source comes from. -/
theorem number_of (h : Forgery raw spec r host successor fabricated kept) {e : RawEvent lib} (he : e ∈ r.raw)
    (hs : e.source = spec.sourceId) : (spec.afterSeq < e.seq ∧ e.seq ≤ spec.afterSeq+spec.count) ∨
      ∃ e₀ ∈ raw, e₀.source = spec.sourceId ∧ ((e₀.seq ≤ spec.afterSeq ∧ e.seq = e₀.seq) ∨
        (spec.afterSeq < e₀.seq ∧ e.seq = e₀.seq+spec.count)) := by
  rcases List.mem_append.mp (h.stream.mem_iff.mp he) with hf | hk
  · exact .inl (h.fabricated_number.mp ⟨e,hf,rfl⟩)
  · obtain ⟨e₀,he₀,hreseal⟩ := (forall₂_mem h.resealed).2 e hk
    obtain ⟨hsource,hseq⟩ := hreseal.number
    have hs₀ : e₀.source = spec.sourceId := hsource.symm.trans hs
    refine .inr ⟨e₀,he₀,hs₀,?_⟩
    split at hseq
    · rename_i hout
      exact .inl ⟨hout.resolve_left (not_not.mpr hs₀),hseq⟩
    · rename_i hin
      exact .inr ⟨not_le.mp (not_or.mp hin).2,hseq⟩

/-- Every record of the source is still there, under its number or the one further on. -/
theorem numbered (h : Forgery raw spec r host successor fabricated kept) {e : RawEvent lib} (he : e ∈ raw)
    (hs : e.source = spec.sourceId) : ∃ e' ∈ r.raw, e'.source = spec.sourceId ∧
      e'.seq = if e.seq ≤ spec.afterSeq then e.seq else e.seq+spec.count := by
  obtain ⟨e',he',hreseal⟩ := (forall₂_mem h.resealed).1 e he
  obtain ⟨hsource,hseq⟩ := hreseal.number
  refine ⟨e',h.stream.mem_iff.mpr (List.mem_append_right _ he'),hsource.trans hs,?_⟩
  simpa [hs] using hseq

/-- So is every fabricated number. -/
theorem inserted (h : Forgery raw spec r host successor fabricated kept) {n : ℤ} (h0 : spec.afterSeq < n)
    (h1 : n ≤ spec.afterSeq+spec.count) : ∃ e ∈ r.raw, e.source = spec.sourceId ∧ e.seq = n := by
  obtain ⟨e,he,hn⟩ := h.fabricated_number.mpr ⟨h0,h1⟩
  exact ⟨e,h.stream.mem_iff.mpr (List.mem_append_left _ he),h.fabricated_source he,hn⟩

/-- Two consecutive numbers are one apart, or as far apart as two were before. -/
theorem gaps (h : Forgery raw spec r host successor fabricated kept) {gap : ℤ}
    (hgap : SeqGap r.raw spec.sourceId gap) : gap = 1 ∨ SeqGap raw spec.sourceId gap := by
  obtain ⟨l,hl,q,hq,hls,hqs,hlt,rfl,hno⟩ := hgap
  have hcount := spec.range.1
  have hfree : ∀ n, spec.afterSeq < n → n ≤ spec.afterSeq+spec.count → n ≤ l.seq ∨ q.seq ≤ n := by
    intro n h0 h1
    obtain ⟨e,he,hes,rfl⟩ := h.inserted h0 h1
    exact hno e he hes
  have hold : ∀ e ∈ raw, e.source = spec.sourceId →
      (if e.seq ≤ spec.afterSeq then e.seq else e.seq+spec.count) ≤ l.seq ∨
        q.seq ≤ if e.seq ≤ spec.afterSeq then e.seq else e.seq+spec.count := by
    intro e he hs
    obtain ⟨e',he',hs',hseq⟩ := h.numbered he hs
    rw [← hseq]
    exact hno e' he' hs'
  have hhost := hold host h.hosted.1 h.hosted.2.1
  rw [h.hosted.2.2,if_pos le_rfl] at hhost
  have hnext := hfree (spec.afterSeq+1) (by omega) (by omega)
  have hlast := hfree (spec.afterSeq+spec.count) (by omega) le_rfl
  have hsucc := hfree (l.seq+1)
  rcases h.number_of hl hls with hlm | ⟨l₀,hl₀,hls₀,⟨hla,hll⟩ | ⟨hla,hll⟩⟩ <;>
    rcases h.number_of hq hqs with hqm | ⟨q₀,hq₀,hqs₀,⟨hqa,hqq⟩ | ⟨hqa,hqq⟩⟩
  · exact .inl (by omega)
  · omega
  · -- from the last fabricated record to the old successor of the host
    refine .inr ⟨host,h.hosted.1,q₀,hq₀,h.hosted.2.1,hqs₀,by rw [h.hosted.2.2]; exact hqa,
      by rw [h.hosted.2.2]; omega,fun e he hs => ?_⟩
    have he' := hold e he hs
    rw [h.hosted.2.2]
    split at he' <;> omega
  · exact .inl (by omega)
  · refine .inr ⟨l₀,hl₀,q₀,hq₀,hls₀,hqs₀,by omega,by omega,fun e he hs => ?_⟩
    have he' := hold e he hs
    split at he' <;> omega
  · omega
  · omega
  · omega
  · refine .inr ⟨l₀,hl₀,q₀,hq₀,hls₀,hqs₀,by omega,by omega,fun e he hs => ?_⟩
    have he' := hold e he hs
    split at he' <;> omega

/-- The numbers of the source stay unique. -/
theorem numbers_nodup (h : Forgery raw spec r host successor fabricated kept) :
    ((r.raw.filter (·.source = spec.sourceId)).map (·.seq)).Nodup := by
  have hcount := spec.range.1
  have hfabricated : fabricated.filter (·.source = spec.sourceId) = fabricated :=
    List.filter_eq_self.mpr fun e he => by simpa using h.fabricated_source he
  have hkept : (kept.filter (·.source = spec.sourceId)).map (·.seq) =
      (raw.filter (·.source = spec.sourceId)).map fun e =>
        if e.seq ≤ spec.afterSeq then e.seq else e.seq+spec.count := by
    refine map_of_forall₂ (R := fun e e' => e.source = spec.sourceId ∧ Resealed spec e e') ?_ fun e e' he => ?_
    · refine (List.forall₂_and_left _ _).mpr ⟨fun e he => by simpa using (List.mem_filter.mp he).2,?_⟩
      exact List.rel_filter (fun e e' he => by simp [he.number.1]) h.resealed
    · simpa [he.1] using he.2.number.2
  rw [((h.stream.filter _).map _).nodup_iff,List.filter_append,List.map_append,hfabricated,hkept,h.numbers]
  refine List.nodup_append.mpr ⟨?_,?_,?_⟩
  · exact List.nodup_range.map fun _ _ h => by simpa using h
  · have hinjective : Function.Injective fun n : ℤ =>
        if n ≤ spec.afterSeq then n else n+spec.count := by
      intro n m hnm
      dsimp only at hnm
      split at hnm <;> split at hnm <;> omega
    have hmap := h.unique.map hinjective
    rwa [List.map_map] at hmap
  · intro n hn m hm
    obtain ⟨index,hindex,rfl⟩ := List.mem_map.mp hn
    obtain ⟨e,-,rfl⟩ := List.mem_map.mp hm
    have := List.mem_range.mp hindex
    split <;> omega

/-- A row of the manifest names what is deleted to undo the forgery. -/
theorem row_iff (h : Forgery raw spec r host successor fabricated kept) {e : RawEvent lib} :
    unforge spec e.toRawFields = none ↔ ∃ ref ∈ r.forged, ref.sourceId = e.source ∧ ref.seq = e.seq := by
  have hrow : (∃ ref ∈ r.forged, ref.sourceId = e.source ∧ ref.seq = e.seq) ↔
      spec.sourceId = e.source ∧ ∃ f ∈ fabricated, f.seq = e.seq := by
    simp only [h.rows.mem_iff,List.mem_map,exists_exists_and_eq_and]
    tauto
  rw [hrow,h.fabricated_number,unforge]
  split
  · rename_i hout
    refine iff_of_false (by simp) fun hin => ?_
    rcases hout with hout | hout
    · exact hout hin.1.symm
    · omega
  · rename_i hin
    rw [not_or,not_not] at hin
    split
    · exact iff_of_true rfl ⟨hin.1.symm,by omega⟩
    · exact iff_of_false (by simp) fun hrow => by omega

/-- Deleting and counting back leaves the stream. -/
theorem undone_perm (h : Forgery raw spec r host successor fabricated kept) :
    (r.raw.filterMap fun e => unforge spec e.toRawFields).Perm (raw.map (·.toRawFields)) := by
  have hfabricated : (fabricated.filterMap fun e => unforge spec e.toRawFields) = [] := by
    refine List.filterMap_eq_nil_iff.mpr fun e he => h.row_iff.mpr ?_
    exact ⟨_,h.rows.mem_iff.mpr (List.mem_map_of_mem he),(h.fabricated_source he).symm,rfl⟩
  have hkept : (kept.filterMap fun e => unforge spec e.toRawFields) = raw.map (·.toRawFields) := by
    have hall := h.resealed
    clear h hfabricated
    induction hall with
    | nil => rfl
    | cons he _ ih => simp only [List.filterMap_cons,he.unforge,ih,List.map_cons]
  refine (h.stream.filterMap _).trans (.of_eq ?_)
  rw [List.filterMap_append,hfabricated,hkept,List.nil_append]

/-- Counting back keeps the order of the file. -/
theorem unforge_lt {e e' : RawEvent lib} (hlt : e.sortKey < e'.sortKey) {f f' : RawFields}
    (hf : unforge spec e.toRawFields = some f) (hf' : unforge spec e'.toRawFields = some f') :
    f.sortKey < f'.sortKey := by
  have hcount := spec.range.1
  have hread : ∀ {e f : RawFields}, unforge spec e = some f → f.tEvtNs = e.tEvtNs ∧ f.source = e.source ∧
      (((e.source ≠ spec.sourceId ∨ e.seq ≤ spec.afterSeq) ∧ f.seq = e.seq) ∨
        (e.source = spec.sourceId ∧ spec.afterSeq+spec.count < e.seq ∧ f.seq = e.seq-spec.count)) := by
    intro e f h
    unfold unforge at h
    split_ifs at h with hout hin
    · obtain rfl := Option.some.inj h
      exact ⟨rfl,rfl,.inl ⟨hout,rfl⟩⟩
    · obtain rfl := Option.some.inj h
      exact ⟨rfl,rfl,.inr ⟨not_not.mp (not_or.mp hout).1,not_le.mp hin,rfl⟩⟩
  obtain ⟨ht,hs,hseq⟩ := hread hf
  obtain ⟨ht',hs',hseq'⟩ := hread hf'
  simp only [RawFields.sortKey,Prod.Lex.toLex_lt_toLex] at hlt ⊢
  rw [ht,ht',hs,hs']
  refine hlt.imp_right fun ⟨htime,hlt⟩ => ⟨htime,hlt.imp_right fun ⟨hsource,hlt⟩ => ⟨hsource,?_⟩⟩
  rcases hseq with ⟨hout,hseq⟩ | ⟨hin,hlate,hseq⟩ <;> rcases hseq' with ⟨hout',hseq'⟩ | ⟨hin',hlate',hseq'⟩
  · omega
  · have hearly := hout.resolve_left (not_not.mpr (hsource.trans hin'))
    omega
  · have hearly := hout'.resolve_left (not_not.mpr (hsource.symm.trans hin))
    omega
  · omega

/-- The stream is recovered in the order of its file. -/
theorem undone (h : Forgery raw spec r host successor fabricated kept) :
    (r.raw.filterMap fun e => unforge spec e.toRawFields) =
      (raw.map (·.toRawFields)).insertionSort (·.sortKey ≤ ·.sortKey) := by
  have hsort := List.perm_insertionSort (fun f g : RawFields => f.sortKey ≤ g.sortKey) (raw.map (·.toRawFields))
  have hle := List.pairwise_insertionSort (fun f g : RawFields => f.sortKey ≤ g.sortKey) (raw.map (·.toRawFields))
  have hlt : (r.raw.filterMap fun e => unforge spec e.toRawFields).Pairwise fun f g => f.sortKey < g.sortKey :=
    List.pairwise_filterMap.mpr (h.ascending.imp fun hab f hf g hg => unforge_lt hab hf hg)
  have hperm := h.undone_perm.trans hsort.symm
  -- the keys differ, so that sorting leaves no choice
  have hkeys := (hperm.map (·.sortKey)).nodup_iff.mp (List.pairwise_map.mpr (hlt.imp ne_of_lt))
  refine hperm.eq_of_pairwise (fun f g _ _ hfg hgf => absurd hgf hfg.asymm) hlt ?_
  exact (hle.and (List.pairwise_map.mp hkeys)).imp fun hfg => lt_of_le_of_ne hfg.1 hfg.2

end Forgery

end

/-- A forged chain keeps the numbers of its source unique and adds no gap between them but the one of
dense numbering, its instants fit between the host and its successor, every real record is as it was but
for its number, and the stream before it is recovered from its manifest. -/
theorem chain_forge_undone {raw : List (RawEvent lib)} {spec : ChainForge lib} {r : DegradationResult lib}
    (h : chainForge raw spec = .ok r) : ∃ host successor fabricated kept,
      Forgery raw spec r host successor fabricated kept ∧
      ((r.raw.filter (·.source = spec.sourceId)).map (·.seq)).Nodup ∧
      (∀ gap, SeqGap r.raw spec.sourceId gap → gap = 1 ∨ SeqGap raw spec.sourceId gap) ∧
      (∀ e ∈ r.raw, unforge spec e.toRawFields = none ↔
        ∃ ref ∈ r.forged, ref.sourceId = e.source ∧ ref.seq = e.seq) ∧
      (r.raw.filterMap fun e => unforge spec e.toRawFields) =
        (raw.map (·.toRawFields)).insertionSort (·.sortKey ≤ ·.sortKey) := by
  obtain ⟨host,successor,fabricated,kept,hforgery⟩ := chainForge_ok h
  exact ⟨host,successor,fabricated,kept,hforgery,hforgery.numbers_nodup,fun gap => hforgery.gaps,
    fun e _ => hforgery.row_iff,hforgery.undone⟩

/-! ### Every other number -/

/-- Two logins with a number left out between them. -/
def sparseLogins : List (RawEvent (Checker.readerOf [])) := [rawLogin 0 firstLogin_raw,rawLogin 2 (by decide)]

/-- One more login behind the first. -/
def oneForged : ChainForge (Checker.readerOf []) := ⟨"iam",0,1,"login",[],by decide⟩

theorem sparse_returns : ∃ r, chainForge sparseLogins oneForged = .ok r := by
  have hrun : (chainForge sparseLogins oneForged).isOk = true := by decide
  exact ⟨valueOf _ hrun,valueOf_ok _ hrun⟩

theorem chain_forge_undone_sparse : ∃ r, chainForge sparseLogins oneForged = .ok r ∧
    ∃ host successor fabricated kept, Forgery sparseLogins oneForged r host successor fabricated kept ∧
      ((r.raw.filter (·.source = oneForged.sourceId)).map (·.seq)).Nodup ∧
      (∀ gap, SeqGap r.raw oneForged.sourceId gap → gap = 1 ∨ SeqGap sparseLogins oneForged.sourceId gap) ∧
      (∀ e ∈ r.raw, unforge oneForged e.toRawFields = none ↔
        ∃ ref ∈ r.forged, ref.sourceId = e.source ∧ ref.seq = e.seq) ∧
      (r.raw.filterMap fun e => unforge oneForged e.toRawFields) =
        (sparseLogins.map (·.toRawFields)).insertionSort (·.sortKey ≤ ·.sortKey) := by
  obtain ⟨r,h⟩ := sparse_returns
  exact ⟨r,h,chain_forge_undone h⟩

/-- Where every other number was left out, the fabricated one is next to its host. -/
theorem forged_gap_new : ¬∀ (lib : Library) (raw : List (RawEvent lib)) (spec : ChainForge lib)
    (r : DegradationResult lib), chainForge raw spec = .ok r →
    ∀ gap, SeqGap r.raw spec.sourceId gap → SeqGap raw spec.sourceId gap := by
  intro hall
  obtain ⟨r,h⟩ := sparse_returns
  obtain ⟨host,successor,fabricated,kept,hforgery⟩ := chainForge_ok h
  obtain ⟨l,hl,hls,hseq⟩ := hforgery.numbered hforgery.hosted.1 hforgery.hosted.2.1
  obtain ⟨q,hq,hqs,hnext⟩ := @Forgery.inserted _ _ _ _ _ _ _ _ hforgery 1 (by decide) (by decide)
  rw [hforgery.hosted.2.2,if_pos le_rfl] at hseq
  have hzero : l.seq = 0 := hseq
  obtain ⟨l',hl',q',hq',-,-,-,hgap,-⟩ := hall _ _ _ _ h 1 ⟨l,hl,q,hq,hls,hqs,by omega,by omega,
    fun e _ _ => by omega⟩
  -- the numbers before were 0 and 2
  have hseqs : ∀ e ∈ sparseLogins, e.seq = 0 ∨ e.seq = 2 := by decide
  have hleft := hseqs l' hl'
  have hright := hseqs q' hq'
  omega

end Degrade

end Spectra
