import Spectra.Groups
import Spectra.Lines

/-! From the lines to the bundle: every event of a bundle is a candidate some line was admitted as. -/
namespace Spectra

open Checker (Library)

/-! ### Collisions -/

section

variable {κ : Type} [LinearOrder κ] {candidates candidates' : List Candidate}

theorem grouped_eq {key : Candidate → κ} : grouped key candidates = Groups.byKey key candidates := rfl

/-- Each line is kept once or noted as a copy. -/
theorem uniqueCandidates_perm : ((uniqueCandidates candidates).map (·.recordId)++
    (duplicates candidates).map (·.recordId)).Perm (candidates.map (·.recordId)) := by
  have hgroup : ∀ group ∈ grouped (·.recordId) candidates, group.2.map (·.recordId) =
      group.2.head?.toList.map (·.recordId)++group.2.tail.map fun _ => group.1 := by
    intro group hg
    obtain ⟨c,rest,hc⟩ := List.exists_cons_of_ne_nil (Groups.group_ne_nil hg)
    have hkey : ∀ x ∈ group.2, x.recordId = group.1 := fun x hx => Groups.group_key hg hx
    rw [hc] at hkey ⊢
    exact congrArg _ (List.map_congr_left fun x hx => hkey x (List.mem_cons_of_mem c hx))
  have hperm := (@Groups.byKey_perm _ _ _ Candidate.recordId candidates).map Candidate.recordId
  rw [← grouped_eq,List.map_flatMap,List.flatMap_congr hgroup] at hperm
  rw [uniqueCandidates,duplicates,List.map_flatMap,List.map_flatMap]
  simp only [List.map_map]
  exact (List.flatMap_append_perm _ _ _).trans hperm

theorem mem_uniqueCandidates {c : Candidate} (h : c ∈ uniqueCandidates candidates) : c ∈ candidates := by
  obtain ⟨group,hg,hc⟩ := List.mem_flatMap.mp h
  exact Groups.byKey_perm.mem_iff.mp (List.mem_flatMap.mpr ⟨group,hg,List.mem_of_mem_head? (by simpa using hc)⟩)

/-- What is kept, and what is noted, are all the lines. -/
theorem dropCrossRecordCollisions_perm : ((dropCrossRecordCollisions candidates).1.map (·.recordId)++
    (dropCrossRecordCollisions candidates).2.map (·.recordId)).Perm (candidates.map (·.recordId)) := by
  have hgroup : ∀ group ∈ bySeq candidates,
      (if group.2.length = 1 then group.2 else []).map Candidate.recordId++
        (if group.2.length = 1 then [] else group.2.map fun colliding =>
          (⟨.seqRegression,colliding.source,colliding.recordId,"seq_collision"⟩ : QuarantineRecord)).map
            QuarantineRecord.recordId = group.2.map (·.recordId) := by
    intro group _
    split <;> simp
  have hunique : ((bySeq candidates).flatMap fun group => group.2.map (·.recordId)).Perm
      ((uniqueCandidates candidates).map (·.recordId)) := by
    rw [← List.map_flatMap]
    exact Groups.byKey_perm.map _
  have hsplit := (List.flatMap_append_perm (bySeq candidates) _ _).trans
    ((List.flatMap_congr hgroup).symm ▸ hunique)
  rw [dropCrossRecordCollisions,seqCollisions,List.map_append,List.map_flatMap,List.map_flatMap]
  refine List.Perm.trans ?_ uniqueCandidates_perm
  refine (List.perm_append_comm_assoc _ _ _).trans (List.perm_append_comm.trans ?_)
  exact hsplit.append_right _

theorem mem_kept {c : Candidate} (h : c ∈ (dropCrossRecordCollisions candidates).1) : c ∈ candidates := by
  obtain ⟨group,hg,hc⟩ := List.mem_flatMap.mp h
  split at hc
  · exact mem_uniqueCandidates (Groups.byKey_perm.mem_iff.mp (List.mem_flatMap.mpr ⟨group,hg,hc⟩))
  · cases hc

/-- No two lines that are kept have one number of one source. -/
theorem kept_ascending : ((dropCrossRecordCollisions candidates).1.map fun c =>
    toLex (c.source,c.seq)).Pairwise (· < ·) := by
  refine Groups.picked_ascending fun group hg => ?_
  split
  · rename_i hone
    obtain ⟨c,hc⟩ := List.length_eq_one_iff.mp hone
    exact .inr ⟨c,by simp [hc],hc⟩
  · exact .inl rfl

/-- Where the digest tells the lines apart, their order does not matter. -/
theorem dropCrossRecordCollisions_congr (h : candidates.Perm candidates')
    (hid : ∀ c ∈ candidates, ∀ c' ∈ candidates, c.recordId = c'.recordId → c = c') :
    dropCrossRecordCollisions candidates = dropCrossRecordCollisions candidates' := by
  have hgroups : grouped (·.recordId) candidates = grouped (·.recordId) candidates' :=
    Groups.byKey_congr h hid
  have hunique : uniqueCandidates candidates = uniqueCandidates candidates' := by
    rw [uniqueCandidates,uniqueCandidates,hgroups]
  have hseq : bySeq candidates = bySeq candidates' := by rw [bySeq,bySeq,hunique]
  rw [dropCrossRecordCollisions,dropCrossRecordCollisions,duplicates,duplicates,seqCollisions,
    seqCollisions,hgroups,hseq]

end

/-! ### Sealed events -/

/-- What an event keeps of the line it was made of. -/
def BundleFields.candidate (e : BundleFields) : Candidate :=
  ⟨e.recordId,e.source,e.seq,e.eventType,e.tEvtNs,e.attrs⟩

section

variable {lib : Library} {declared : List (String × DeclaredSource)} {time : Option ℤ}
  {candidates : List Candidate} {events : List (BundleRecord lib)}

theorem unsealedEvent_candidate {c : Candidate} {e : BundleRecord lib}
    (h : unsealedEvent lib time c = .ok e) : e.candidate = c := by
  obtain ⟨payload,-,h⟩ := Runs.bind_ok.mp h
  rw [construct_ok h]
  rfl

theorem unsealed_candidates {unsealed : List (BundleRecord lib)}
    (h : List.Forall₂ (fun c e => ingested (unsealedEvent lib time c) = .ok e) candidates unsealed) :
    unsealed.map (·.candidate) = candidates := by
  induction h with
  | nil => rfl
  | cons he _ ih => rw [List.map_cons,ih,unsealedEvent_candidate (ingested_ok.mp he)]

theorem sealNext_candidate {st t : List (String × String) × List (BundleRecord lib)} {e : BundleRecord lib}
    (h : sealNext lib declared st e = .ok t) :
    t.2.map (·.candidate) = st.2.map (·.candidate)++[e.candidate] := by
  obtain ⟨linked,hash,prev,hl,hfields⟩ := sealNext_ok h
  rw [hl,List.map_append,List.map_singleton,hfields]
  rfl

/-- Sealing neither loses nor adds a candidate. -/
theorem sealEvents_perm (h : sealEvents lib declared time candidates = .ok events) :
    (events.map (·.candidate)).Perm candidates := by
  obtain ⟨unsealed,hu,h⟩ := Runs.bind_ok.mp h
  obtain ⟨⟨chains,sealed⟩,hs,h⟩ := Runs.bind_ok.mp h
  obtain ⟨_,-,h⟩ := Runs.bind_ok.mp h
  obtain rfl := Runs.pure_ok.mp h
  have hrun : ∀ (todo : List (BundleRecord lib)) (st : List (String × String) × List (BundleRecord lib)),
      todo.foldlM (sealNext lib declared) st = .ok (chains,sealed) →
      sealed.map (·.candidate) = st.2.map (·.candidate)++todo.map (·.candidate) := by
    intro todo
    induction todo with
    | nil =>
      intro st h
      rw [Runs.foldlM_nil_ok.mp h,List.map_nil,List.append_nil]
    | cons e todo ih =>
      intro st h
      obtain ⟨next,hnext,h⟩ := Runs.foldlM_cons_ok.mp h
      rw [ih next h,sealNext_candidate hnext,List.append_assoc,List.map_cons,List.singleton_append]
  rw [hrun _ _ hs,List.map_nil,List.nil_append]
  rw [← unsealed_candidates (mapM_ok.mp hu)]
  exact (List.perm_insertionSort _ _).map _

end

/-! ### The stage -/

section

variable {rt : Runtime} {raw : Bytes} {sources : List DeclaredSource} {limits : IngestLimits}
  {time : Option ℤ} {result : IngestResult rt.toLibrary}

/-- What each line became. -/
abbrev Outcomes := List (Candidate ⊕ QuarantineRecord)

/-- A call that returns has settled every line, and sealed what they were admitted as. -/
theorem ingestBytes_returned (h : ingestBytes rt raw sources limits time = .ok result) :
    ∃ (declared : List (String × DeclaredSource)) (outcomes : Outcomes),
      declaredSources sources = .ok declared ∧
      (splitOctets raw).mapM (fun line => ingestOne rt limits declared line.1 line.2) = .ok outcomes ∧
      sealBundle rt declared time (splitOctets raw).length (outcomes.filterMap Sum.getLeft?)
        (outcomes.filterMap Sum.getRight?) = .ok result := by
  obtain ⟨declared,hd,h⟩ := Runs.bind_ok.mp h
  obtain ⟨_,-,h⟩ := Runs.bind_ok.mp h
  obtain ⟨_,-,h⟩ := Runs.bind_ok.mp h
  obtain ⟨found,hfound,h⟩ := Runs.bind_ok.mp h
  obtain ⟨outcomes,ho,hfound⟩ := Runs.bind_ok.mp hfound
  obtain rfl := Runs.pure_ok.mp hfound
  exact ⟨declared,outcomes,hd,ho,h⟩

theorem sealBundle_events {declared : List (String × DeclaredSource)} {n : ℕ} {candidates : List Candidate}
    {dropped : List QuarantineRecord}
    (h : sealBundle rt declared time n candidates dropped = .ok result) :
    sealEvents rt.toLibrary declared time (dropCrossRecordCollisions candidates).1 = .ok result.events := by
  obtain ⟨events,hseal,h⟩ := Runs.bind_ok.mp h
  obtain ⟨lines,-,h⟩ := Runs.bind_ok.mp h
  obtain rfl := Runs.pure_ok.mp h
  exact hseal

/-- The candidates and the drops are the outcomes in two piles. -/
theorem mem_candidates {outcomes : Outcomes} {c : Candidate} :
    c ∈ outcomes.filterMap Sum.getLeft? ↔ .inl c ∈ outcomes := by
  simp [List.mem_filterMap,Sum.getLeft?_eq_some_iff]

theorem mem_dropped {outcomes : Outcomes} {q : QuarantineRecord} :
    q ∈ outcomes.filterMap Sum.getRight? ↔ .inr q ∈ outcomes := by
  simp [List.mem_filterMap,Sum.getRight?_eq_some_iff]

/-- Every event is what some terminated line was admitted as. -/
theorem ingested_admitted (h : ingestBytes rt raw sources limits time = .ok result) :
    ∃ declared, declaredSources sources = .ok declared ∧ ∀ e ∈ result.events,
      ∃ line, (line,true) ∈ splitOctets raw ∧ LineAdmitted rt limits declared line e.candidate := by
  obtain ⟨declared,outcomes,hd,ho,hseal⟩ := ingestBytes_returned h
  refine ⟨declared,hd,fun e he => ?_⟩
  have hkept := (sealEvents_perm (sealBundle_events hseal)).mem_iff.mp
    (List.mem_map_of_mem (f := fun e : BundleRecord rt.toLibrary => e.candidate) he)
  obtain ⟨⟨line,terminated⟩,hl,hone⟩ := (forall₂_mem (mapM_ok.mp ho)).2 _ (mem_candidates.mp (mem_kept hkept))
  obtain ⟨rfl,hadmitted⟩ := ingestOne_candidate hone
  exact ⟨line,hl,hadmitted⟩

end

end Spectra
