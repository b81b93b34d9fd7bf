import Spectra.Bracket
import Spectra.Json

/-! What a licence of the envelope is licensed by: the licences of a window are those of the
runs that cover it, and no stage adds a licensed instance but under the licences of a window. -/
namespace Spectra

variable {D : Digest} {C : Ceilings} {s : Setup} {view : LivenessView} {entities : List Entity}
  {pMin : Option (Program D)} {result : EnvelopeResult D}

/-! ### The licences of a window -/

/-- The basis a run is licensed on. -/
def NonLiveRun.basis (run : NonLiveRun) : LicenceBasis :=
  if run.verdict = .suppressed then .suppressed else .blind

/-- The licence repeats the run, under the identifier that the run mints. -/
structure NonLiveRun.Licensed (D : Digest) (run : NonLiveRun) (l : Licence) : Prop where
  sourceId : l.sourceId = run.sourceId
  start : l.t0Ns = run.t0Ns
  stop : l.t1Ns = run.t1Ns
  basis : l.basis = run.basis
  reason : l.reason = run.reason
  minted : ∃ interval payload, interval.t0Ns = run.t0Ns ∧ interval.t1Ns = run.t1Ns ∧
    licencePayload l.basis l.reason l.sourceId interval = .ok payload ∧
      l.licenseId = D.mint "lic" payload 32

theorem Licence.mint_ok {source : SourceId} {interval : Interval} {basis : LicenceBasis}
    {reason : String} {witness : List EventId} {l : Licence}
    (h : Licence.mint D source interval basis reason witness = .ok l) :
    l.toLicenceFields =
        ⟨l.licenseId,source,interval.t0Ns,interval.t1Ns,basis,reason,witness⟩ ∧
      ∃ payload, licencePayload basis reason source interval = .ok payload ∧
        l.licenseId = D.mint "lic" payload 32 := by
  unfold Licence.mint at h
  split at h
  · cases h
  · rename_i payload hp
    obtain ⟨_,rfl⟩ := validated_ok.mp h
    exact ⟨rfl,payload,hp,rfl⟩

theorem licencePayload_inj {b b' : LicenceBasis} {r r' : String} {s s' : SourceId} {i i' : Interval}
    {p : Bytes} (hp : licencePayload b r s i = .ok p) (hp' : licencePayload b' r' s' i' = .ok p) :
    b = b' ∧ r = r' ∧ s = s' ∧ i.t0Ns = i'.t0Ns ∧ i.t1Ns = i'.t1Ns := by
  obtain ⟨hb,p₁,q₁,hp₁,hq₁,h₁⟩ := asciiText_selfDelimiting.peel hp hp' (x := []) (y := []) rfl
  obtain ⟨hr,p₂,q₂,hp₂,hq₂,h₂⟩ := utf8Text_selfDelimiting.peel hp₁ hq₁ h₁
  obtain ⟨hs,p₃,q₃,hp₃,hq₃,h₃⟩ := asciiText_selfDelimiting.peel hp₂ hq₂ h₂
  obtain ⟨h0,p₄,q₄,hp₄,hq₄,h₄⟩ := i64_selfDelimiting.peel hp₃ hq₃ h₃
  obtain ⟨h1,-⟩ := i64_selfDelimiting.peel hp₄ hq₄ h₄
  refine ⟨?_,hr,hs,h0,h1⟩
  cases b <;> cases b' <;> first | rfl | exact absurd hb (by decide)

theorem NonLiveRun.licence_ok {run : NonLiveRun} {l : Licence} (h : run.licence D = .ok l) :
    run.Licensed D l := by
  obtain ⟨interval,hi,h⟩ := Runs.bind_ok.mp h
  obtain ⟨h0,h1⟩ := Interval.of_ok.mp hi
  have hmint : Licence.mint D run.sourceId interval run.basis run.reason
      ((if run.basis = .suppressed then run.witness else []).insertionSort (· ≤ ·)) = .ok l := h
  obtain ⟨hf,payload,hp,hm⟩ := Licence.mint_ok hmint
  have hbasis : l.basis = run.basis := congrArg (·.basis) hf
  have hreason : l.reason = run.reason := congrArg (·.reason) hf
  have hsource : l.sourceId = run.sourceId := congrArg (·.sourceId) hf
  refine ⟨hsource,(congrArg (·.t0Ns) hf).trans h0,(congrArg (·.t1Ns) hf).trans h1,hbasis,hreason,
    interval,payload,h0,h1,?_,hm⟩
  rw [hbasis,hreason,hsource]
  exact hp

/-- Two licences under one identifier have the same fields, the witness apart. -/
theorem NonLiveRun.Licensed.id_inj {run run' : NonLiveRun} {l l' : Licence}
    (h : run.Licensed D l) (h' : run'.Licensed D l') (hid : l.licenseId = l'.licenseId) :
    l.basis = l'.basis ∧ l.reason = l'.reason ∧ l.sourceId = l'.sourceId ∧ l.t0Ns = l'.t0Ns ∧
      l.t1Ns = l'.t1Ns := by
  obtain ⟨i,p,h0,h1,hp,hm⟩ := h.minted
  obtain ⟨i',p',h0',h1',hp',hm'⟩ := h'.minted
  have hpp : p = p' := D.mint_injective "lic" 32 (hm.symm.trans (hid.trans hm'))
  obtain ⟨hb,hr,hs,ht0,ht1⟩ := licencePayload_inj hp (hpp ▸ hp')
  exact ⟨hb,hr,hs,by rw [h.start,h'.start,← h0,← h0',ht0],by rw [h.stop,h'.stop,← h1,← h1',ht1]⟩

/-- The licences of the runs that cover the window on each source. -/
structure Cover (D : Digest) (view : LivenessView) (sources : List SourceId) (window : Interval)
    (licences : List Licence) : Prop where
  covered : ∀ s ∈ sources, ∃ runs, view.coveringRuns s window = some runs ∧
    ∀ run ∈ runs, ∃ l ∈ licences, ∃ l', run.licence D = .ok l' ∧ l'.licenseId = l.licenseId
  runs : ∀ l ∈ licences, ∃ s ∈ sources, ∃ runs, view.coveringRuns s window = some runs ∧
    ∃ run ∈ runs, run.licence D = .ok l

theorem licencesFrom_ok {window : Interval} {sources : List SourceId} {found : List Licence}
    (h : licencesFrom D view window sources = .ok (some found)) :
    Cover D view sources window found := by
  induction sources generalizing found with
  | nil =>
    cases h
    exact ⟨by simp,by simp⟩
  | cons source rest ih =>
    rw [licencesFrom] at h
    split at h
    · cases h
    · rename_i runs hruns
      obtain ⟨own,hown,h⟩ := Runs.bind_ok.mp h
      obtain ⟨more,hmore,h⟩ := Runs.bind_ok.mp h
      cases more with
      | none => cases h
      | some more =>
        obtain rfl := Option.some.inj (Runs.pure_ok.mp h)
        obtain ⟨hcovered,hmem⟩ := ih hmore
        have hown := forall₂_mem (mapM_ok.mp hown)
        constructor
        · refine List.forall_mem_cons.mpr ⟨⟨runs,hruns,fun run hrun => ?_⟩,fun s hs => ?_⟩
          · obtain ⟨l,hl,he⟩ := hown.1 run hrun
            exact ⟨l,by simp [hl],l,he,rfl⟩
          · obtain ⟨runs',hr,hall⟩ := hcovered s hs
            refine ⟨runs',hr,fun run hrun => ?_⟩
            obtain ⟨l,hl,he⟩ := hall run hrun
            exact ⟨l,by simp [hl],he⟩
        · intro l hl
          rcases List.mem_append.mp hl with hl | hl
          · obtain ⟨run,hrun,he⟩ := hown.2 l hl
            exact ⟨source,by simp,runs,hruns,run,hrun,he⟩
          · obtain ⟨s,hs,he⟩ := hmem l hl
            exact ⟨s,by simp [hs],he⟩

/-- Keeping one licence under each identifier keeps every identifier. -/
theorem mem_unique {found : List Licence} {l : Licence} :
    (l ∈ (found.foldl (fun unique l => Dict.set unique l.licenseId l) []).map (·.2) → l ∈ found) ∧
      (l ∈ found → ∃ l' ∈ (found.foldl (fun unique l => Dict.set unique l.licenseId l) []).map (·.2),
        l.licenseId = l'.licenseId) := by
  have hn : ((found.foldl (fun unique l => Dict.set unique l.licenseId l) []).map (·.1)).Nodup :=
    Dict.nodup_keys_foldl (f := fun l : Licence => l.licenseId) (v := fun _ l => l) (by simp)
  have hentry : ∀ p ∈ found.foldl (fun unique l => Dict.set unique l.licenseId l) [],
      p.1 = p.2.licenseId ∧ p.2 ∈ found := by
    intro p hp
    rcases Dict.get?_foldl_mem (Dict.get?_of_mem hn hp) with h | ⟨b,hb,hk,rfl⟩
    · cases h
    · exact ⟨hk.symm,hb⟩
  constructor
  · intro h
    obtain ⟨p,hp,rfl⟩ := List.mem_map.mp h
    exact (hentry p hp).2
  · intro h
    have hk := (Dict.mem_keys_foldl (f := fun l : Licence => l.licenseId) (v := fun _ l => l) (l := found)
      (d := ([] : List (LicenseId × Licence)))).mpr (.inr ⟨l,h,rfl⟩)
    obtain ⟨p,hp,hid⟩ := List.mem_map.mp hk
    exact ⟨p.2,List.mem_map.mpr ⟨p,hp,rfl⟩,hid.symm.trans (hentry p hp).1⟩

theorem licencesForWindow_ok {sources : List SourceId} {window : Interval} {licences : List Licence}
    (h : licencesForWindow D view sources window = .ok (some licences)) :
    Cover D view sources window licences := by
  obtain ⟨found,hfound,h⟩ := Runs.bind_ok.mp h
  cases found with
  | none => cases h
  | some found =>
    obtain rfl := Option.some.inj (Runs.pure_ok.mp h)
    obtain ⟨hcovered,hmem⟩ := licencesFrom_ok hfound
    constructor
    · intro s hs
      obtain ⟨runs,hr,hall⟩ := hcovered s ((List.mem_insertionSort _).mpr hs)
      refine ⟨runs,hr,fun run hrun => ?_⟩
      obtain ⟨l,hl,l',he,hid⟩ := hall run hrun
      obtain ⟨l'',hl'',hid'⟩ := mem_unique.2 hl
      exact ⟨l'',(List.mem_insertionSort _).mpr hl'',l',he,hid.trans hid'⟩
    · intro l hl
      obtain ⟨s,hs,hrest⟩ := hmem l (mem_unique.1 ((List.mem_insertionSort _).mp hl))
      exact ⟨s,(List.mem_insertionSort _).mp hs,hrest⟩

theorem mem_licenceIds {licences : List Licence} {id : LicenseId} :
    id ∈ licenceIds licences ↔ ∃ l ∈ licences, l.licenseId = id := by
  simp [licenceIds]

end Spectra
