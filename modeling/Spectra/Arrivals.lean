import Spectra.IngestRuns
import Spectra.Tally

/-! Ingest forgets the order its lines arrive in: each choice between them is made by their content. -/
namespace Spectra

open Checker (Library)

/-! ### Permutations -/

theorem Runs.mapM_perm {ε α β : Type} {f : α → Except ε β} {l l' : List α} {r : List β} (h : l'.Perm l)
    (hr : l.mapM f = .ok r) : ∃ r', l'.mapM f = .ok r' ∧ r'.Perm r := by
  obtain ⟨r',hr',hperm⟩ := List.perm_comp_forall₂ h (mapM_ok.mp hr)
  exact ⟨r',mapM_ok.mpr hr',hperm⟩

theorem sortedCounts_congr {keys keys' : List String} (h : keys.Perm keys') :
    sortedCounts keys = sortedCounts keys' := by
  have hsorted : keys.dedup.insertionSort (· ≤ ·) = keys'.dedup.insertionSort (· ≤ ·) :=
    Tally.insertionSort_perm (fun _ _ _ _ hab => hab) h.dedup
  rw [sortedCounts,sortedCounts,hsorted]
  exact List.map_congr_left fun key _ => by rw [h.count_eq]

theorem QuarantineReason.text_injective : Function.Injective QuarantineReason.text := by
  intro r r' h
  cases r <;> cases r' <;> first | rfl | exact absurd h (by decide)

theorem QuarantineRecord.sortKey_injective : Function.Injective QuarantineRecord.sortKey := by
  rintro ⟨reason,sourceId,recordId,detail⟩ ⟨reason',sourceId',recordId',detail'⟩ h
  simp only [sortKey,toLex_inj,Prod.mk.injEq] at h
  obtain ⟨rfl,rfl,hreason,rfl⟩ := h
  rw [QuarantineReason.text_injective hreason]

/-! ### Bundles -/

section

variable {rt : Runtime} {declared : List (String × DeclaredSource)} {time : Option ℤ}

theorem sealBundle_congr {n : ℕ} {candidates candidates' : List Candidate} {dropped dropped' : List QuarantineRecord}
    (hc : candidates.Perm candidates') (hd : dropped.Perm dropped')
    (hid : ∀ c ∈ candidates, ∀ c' ∈ candidates, c.recordId = c'.recordId → c = c') :
    sealBundle rt declared time n candidates dropped = sealBundle rt declared time n candidates' dropped' := by
  have hall := hd.append_right (dropCrossRecordCollisions candidates').2
  unfold sealBundle
  rw [dropCrossRecordCollisions_congr hc hid]
  dsimp only
  rw [Tally.insertionSort_perm (fun _ _ _ _ hab => QuarantineRecord.sortKey_injective hab) hall,hall.length_eq,
    sortedCounts_congr (hall.map fun q => q.reason.text),sortedCounts_congr (hall.map fun q => q.sourceId)]

end

/-- The octets of terminated lines. -/
def feed (lines : List Bytes) : Bytes := lines.flatMap (·++[0x0a])

theorem feed_eq {lines : List Bytes} : feed lines = [0x0a].intercalate (lines++[[]]) := by
  induction lines with
  | nil => rfl
  | cons line rest ih =>
    rw [feed,List.flatMap_cons,← feed,ih,List.cons_append,List.intercalate_cons_of_ne_nil (by simp)]

theorem splitOctets_feed {lines : List Bytes} (h : ∀ line ∈ lines, (0x0a : UInt8) ∉ line) :
    splitOctets (feed lines) = lines.map (·,true) := by
  cases hl : lines with
  | nil => rfl
  | cons line rest =>
    rw [← hl]
    have hne : feed lines ≠ [] := by rw [hl,feed,List.flatMap_cons]; simp
    have hparts : (feed lines).splitOn 0x0a = lines++[[]] := by
      rw [feed_eq]
      refine List.splitOn_intercalate 0x0a (fun l hmem => ?_) (by simp)
      rcases List.mem_append.mp hmem with hmem | hmem
      · exact h l hmem
      · rw [List.mem_singleton.mp hmem]
        exact List.not_mem_nil
    rw [splitOctets,if_neg hne]
    dsimp only
    rw [hparts,List.getLast?_concat,if_pos rfl,List.dropLast_concat]

section

variable {rt : Runtime} {lines lines' : List Bytes} {sources : List DeclaredSource} {limits : IngestLimits}
  {time : Option ℤ} {declared : List (String × DeclaredSource)}

/-- The digest of a record id tells the lines apart. -/
def Runtime.TellsLines (rt : Runtime) (lines : List Bytes) : Prop :=
  ∀ line ∈ lines, ∀ line' ∈ lines, rt.recordId line = rt.recordId line' → line = line'

/-- The bundle of the lines in another order. -/
theorem ingestBytes_perm (hd : declaredSources sources = .ok declared) (ht : ∀ t ∈ time, IsNanos t)
    (hn : ∀ line ∈ lines, (0x0a : UInt8) ∉ line) (htells : rt.TellsLines lines)
    {result : IngestResult rt.toLibrary} (h : ingestBytes rt (feed lines) sources limits time = .ok result)
    (hp : lines'.Perm lines) : ingestBytes rt (feed lines') sources limits time = .ok result := by
  have hn' : ∀ line ∈ lines', (0x0a : UInt8) ∉ line := fun line hl => hn line (hp.mem_iff.mp hl)
  rw [ingestBytes_eq hd ht,splitOctets_feed hn] at h
  rw [ingestBytes_eq hd ht,splitOctets_feed hn',List.length_map,hp.length_eq]
  rw [List.length_map] at h
  obtain ⟨_,hfew,h⟩ := Runs.bind_ok.mp h
  obtain ⟨outcomes,ho,h⟩ := Runs.bind_ok.mp h
  obtain ⟨outcomes',ho',hperm⟩ := Runs.mapM_perm (hp.map (·,true)) ho
  refine Runs.bind_ok.mpr ⟨_,hfew,Runs.bind_ok.mpr ⟨outcomes',ho',?_⟩⟩
  rw [sealBundle_congr (hperm.filterMap _) (hperm.filterMap _) fun c hc c' hc' hid => ?_]
  · exact h
  -- two candidates of one id are of one line
  obtain ⟨⟨line,_⟩,hl,hone⟩ := (forall₂_mem (mapM_ok.mp ho')).2 _ (mem_candidates.mp hc)
  obtain ⟨⟨line',_⟩,hl',hone'⟩ := (forall₂_mem (mapM_ok.mp ho')).2 _ (mem_candidates.mp hc')
  obtain ⟨_,hlm,⟨⟩⟩ := List.mem_map.mp hl
  obtain ⟨_,hlm',⟨⟩⟩ := List.mem_map.mp hl'
  have hids : rt.recordId line = rt.recordId line' :=
    (ingestOne_id hone).symm.trans (hid.trans (ingestOne_id hone'))
  obtain rfl := htells line (hp.mem_iff.mp hlm) line' (hp.mem_iff.mp hlm') hids
  exact Sum.inl.inj (Except.ok.inj (hone.symm.trans hone'))

end

/-- Where no oracle key and no limit ends the call, the lines are accounted for whatever their order
exactly when none of them raises. -/
theorem arrival_order_iff (rt : Runtime) (lines : List Bytes) (sources : List DeclaredSource)
    (declared : List (String × DeclaredSource)) (limits : IngestLimits) (time : Option ℤ)
    (hrt : rt.Documented) (hlimits : limits.maxAttrs < 2^32) (hd : declaredSources sources = .ok declared)
    (ht : ∀ t ∈ time, IsNanos t) (hn : ∀ line ∈ lines, (0x0a : UInt8) ∉ line) (htells : rt.TellsLines lines)
    (hpure : ∀ key, ingestBytes rt (feed lines) sources limits time ≠ .error (.labelPurity key))
    (hwithin : ∀ s : SpectraError, s.type = .limitError →
      ingestBytes rt (feed lines) sources limits time ≠ .error (.spectra s)) :
    (∃ result, ingestBytes rt (feed lines) sources limits time = .ok result ∧ result.Accounts rt lines ∧
      ∀ lines', lines'.Perm lines → ingestBytes rt (feed lines') sources limits time = .ok result) ↔
      ∀ line ∈ lines, ∀ e, ¬LineRaises rt limits declared line e := by
  have hsplit := splitOctets_feed hn
  constructor
  · rintro ⟨result,h,-,-⟩ line hl e hraises
    obtain ⟨declared',outcomes,hd',ho,-⟩ := ingestBytes_returned h
    obtain rfl := Except.ok.inj (hd'.symm.trans hd)
    have hmem : (line,true) ∈ splitOctets (feed lines) := hsplit ▸ List.mem_map_of_mem hl
    obtain ⟨outcome,-,hone⟩ := (forall₂_mem (mapM_ok.mp ho)).1 _ hmem
    rw [ingestOne_error.mpr ⟨rfl,.inr hraises⟩] at hone
    cases hone
  · intro hquiet
    cases h : ingestBytes rt (feed lines) sources limits time with
    | ok result =>
      have hids := ingestBytes_accounts h
      rw [hsplit,List.map_map] at hids
      exact ⟨result,rfl,by simpa [Function.comp_def] using hids,fun lines' hp => ingestBytes_perm hd ht hn htells h hp⟩
    | error e =>
      exfalso
      by_cases he : e.Uncaught
      · obtain ⟨-,before,line,after,e,hl,hraises,-⟩ := (crashes_iff hrt hlimits hd ht).mp ⟨e,he,h⟩
        have hmem : (line,true) ∈ lines.map (·,true) := by
          rw [← hsplit,hl]
          simp
        obtain ⟨l,hlm,⟨⟩⟩ := List.mem_map.mp hmem
        exact hquiet _ hlm e hraises
      · rcases not_not.mp (uncaught_iff.not.mp he) with ⟨key,rfl⟩ | ⟨s,rfl,hs⟩
        · exact hpure key h
        · exact hwithin s hs h

theorem surrogateFeed_raises : ingestBytes surrogateRuntime (feed [surrogateLine]) loginSources {} none =
    .error .unicodeEncode := surrogate_raises

theorem surrogate_tellsLines : surrogateRuntime.TellsLines [surrogateLine] := by
  intro line hl line' hl' _
  rw [List.mem_singleton.mp hl,List.mem_singleton.mp hl']

theorem arrival_order_iff_surrogate : ∃ declared, declaredSources loginSources = .ok declared ∧
    ((∃ result, ingestBytes surrogateRuntime (feed [surrogateLine]) loginSources {} none = .ok result ∧
      result.Accounts surrogateRuntime [surrogateLine] ∧ ∀ lines', lines'.Perm [surrogateLine] →
        ingestBytes surrogateRuntime (feed lines') loginSources {} none = .ok result) ↔
      ∀ line ∈ [surrogateLine], ∀ e, ¬LineRaises surrogateRuntime {} declared line e) := by
  refine ⟨_,rfl,arrival_order_iff surrogateRuntime _ _ _ _ _ surrogateRuntime_documented (by decide) rfl
    (by simp) (by decide) surrogate_tellsLines (fun key hkey => ?_) fun s _ hs => ?_⟩
  · cases surrogateFeed_raises.symm.trans hkey
  · cases surrogateFeed_raises.symm.trans hs

/-- A line is lost with all the others, though no oracle key and no limit is met. -/
theorem arrival_lost : ¬∀ (rt : Runtime) (lines : List Bytes) (sources : List DeclaredSource)
    (declared : List (String × DeclaredSource)) (limits : IngestLimits) (time : Option ℤ),
    rt.Documented → limits.maxAttrs < 2^32 → declaredSources sources = .ok declared →
    (∀ t ∈ time, IsNanos t) → (∀ line ∈ lines, (0x0a : UInt8) ∉ line) → rt.TellsLines lines →
    (∀ key, ingestBytes rt (feed lines) sources limits time ≠ .error (.labelPurity key)) →
    (∀ s : SpectraError, s.type = .limitError →
      ingestBytes rt (feed lines) sources limits time ≠ .error (.spectra s)) →
    ∃ result, ingestBytes rt (feed lines) sources limits time = .ok result ∧ result.Accounts rt lines ∧
      ∀ lines', lines'.Perm lines → ingestBytes rt (feed lines') sources limits time = .ok result := by
  intro hall
  obtain ⟨result,h,-⟩ := hall surrogateRuntime [surrogateLine] loginSources _ {} none
    surrogateRuntime_documented (by decide) rfl (by simp) (by decide) surrogate_tellsLines
    (fun key hkey => by cases surrogateFeed_raises.symm.trans hkey)
    fun s _ hs => by cases surrogateFeed_raises.symm.trans hs
  cases surrogateFeed_raises.symm.trans h

end Spectra
