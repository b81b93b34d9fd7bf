import Spectra.Render

/-! Licences: what O10 and O11 establish about the instances the silent section lists, and
what the octets of the rule file decide. -/
namespace Spectra
namespace Checker

/-- Every instant of `[t0,t1)` lies in an interval whose verdict is not LIVE. -/
def NonLive (rows : List Row) (t0 t1 : ℤ) : Prop :=
  ∀ t, t0 ≤ t → t < t1 → ∃ r ∈ rows, r.t0Ns ≤ t ∧ t < r.t1Ns ∧ r.verdict.eq (.str "LIVE") = false

theorem nonLive_of_nonLiveFrom {rows : List Row} {cursor t1 : ℤ}
    (h : nonLiveFrom t1 cursor rows = true) : NonLive rows cursor t1 := by
  induction rows generalizing cursor with
  | nil =>
    intro t h0 h1
    have : t1 ≤ cursor := by simpa [nonLiveFrom] using h
    omega
  | cons r rows ih =>
    have hlater : ∀ {c}, nonLiveFrom t1 c rows = true → ∀ t, c ≤ t → t < t1 →
        ∃ q ∈ r::rows, q.t0Ns ≤ t ∧ t < q.t1Ns ∧ q.verdict.eq (.str "LIVE") = false := by
      intro c hc t h0 h1
      obtain ⟨q,hq,hrest⟩ := ih hc t h0 h1
      exact ⟨q,by simp [hq],hrest⟩
    intro t h0 h1
    rw [nonLiveFrom] at h
    split_ifs at h with hend hstart hlive hstop
    · exact hlater h t h0 h1
    · exact ⟨r,by simp,by omega,by omega,by simpa using hlive⟩
    · by_cases ht : t < r.t1Ns
      · exact ⟨r,by simp,by omega,ht,by simpa using hlive⟩
      · exact hlater h t (by omega) h1

/-- The entries of the silent section. -/
def silentSection (body : Json) : Check (List Json) := do (← body.member "silent").iter

/-- The producing sources of each rule, as O10 reads them. -/
def producingOf (lib : Library) (rules : SideFile) : Check (List (RuleId × List SourceId)) := do
  readProducing lib (← parseToml lib rules)

/-- The intervals of each source, as O10 reads them. -/
def intervalsOf (lib : Library) (liveness : SideFile) : Check (List (SourceId × List Row)) := do
  readIntervals (← parseSideJson lib liveness)

/-- An instance rests on licences: at least one, each published and of a span over which
every producing source of its rule is non-LIVE. -/
structure RestsOnLicences (producing : List (RuleId × List SourceId))
    (intervals : List (SourceId × List Row)) (licences : List PublishedLicence) (i : Published) :
    Prop where
  cites : i.licenseIds ≠ []
  implied : ∃ sources, Dict.get? producing i.ruleId = some sources ∧ ∀ id ∈ i.licenseIds,
    ∃ lic ∈ licences, lic.licenseId = id ∧ ∀ s ∈ sources, ∃ rows, Dict.get? intervals s = some rows ∧
      NonLive rows lic.t0Ns lic.t1Ns

/-- The published instance an entry of the silent section resolves to. -/
def refInstance (instances : List Published) (ref : Json) : Option Published :=
  match ref.item "instance_id" with
  | .ok id => id.str?.bind (byId instances)
  | .error _ => none

namespace State

/-- Every LICENSED instance rests on licences, by the two side files. -/
def LicencesImplied (st : State) (lib : Library) (files : CheckerInputs) : Prop :=
  ∃ producing intervals, producingOf lib files.rules = .ok producing ∧
    intervalsOf lib files.liveness = .ok intervals ∧ ∀ i ∈ st.instances, i.observed = "LICENSED" →
      RestsOnLicences producing intervals st.licences i

/-- The silent section lists every LICENSED instance. -/
def SilentComplete (st : State) : Prop := ∀ i ∈ st.instances, i.observed = "LICENSED" →
  ∃ ref ∈ st.silent, refInstance st.instances ref = some i

end State

theorem checkCited_ok {intervals : List (SourceId × List Row)} {licences : List PublishedLicence}
    {sources : List SourceId} {id : LicenseId}
    (h : checkCited intervals licences sources id = .ok ()) : ∃ lic ∈ licences, lic.licenseId = id ∧
      ∀ s ∈ sources, ∃ rows, Dict.get? intervals s = some rows ∧ NonLive rows lic.t0Ns lic.t1Ns := by
  unfold checkCited at h
  split at h
  · cases h
  · rename_i lic hlic
    refine ⟨lic,?_,by simpa using List.find?_some hlic,fun s hs => ?_⟩
    · exact List.mem_reverse.mp (List.mem_of_find?_eq_some hlic)
    · obtain ⟨_,-,h⟩ := Runs.bind_ok.mp h
      obtain ⟨_,hsources,-⟩ := Runs.bind_ok.mp h
      have hone := forEach_ok.mp hsources s hs
      split at hone
      · cases hone
      · rename_i rows hrows
        exact ⟨rows,hrows,nonLive_of_nonLiveFrom (require_ok.mp hone)⟩

theorem refInstance_eq {instances : List Published} {ref id : Json} {o : Option Published}
    (hid : ref.item "instance_id" = .ok id) (h : instanceOf instances id = .ok o) :
    refInstance instances ref = o := by
  obtain ⟨_,-,h⟩ := Runs.bind_ok.mp h
  rw [refInstance,hid]
  exact Runs.pure_ok.mp h

/-- Every licence of the instance that an entry resolves to is implied. -/
theorem checkSilent_ok {producing : List (RuleId × List SourceId)}
    {intervals : List (SourceId × List Row)} {licences : List PublishedLicence}
    {instances : List Published} {ref : Json} {i : Published}
    (h : checkSilent producing intervals licences instances ref = .ok ())
    (hi : refInstance instances ref = some i) :
    ∃ sources, Dict.get? producing i.ruleId = some sources ∧
      ∀ id ∈ i.licenseIds, checkCited intervals licences sources id = .ok () := by
  obtain ⟨id,hid,h⟩ := Runs.bind_ok.mp h
  obtain ⟨o,ho,h⟩ := Runs.bind_ok.mp h
  rw [← refInstance_eq hid ho,hi] at h
  obtain ⟨_,-,h⟩ := Runs.bind_ok.mp h
  obtain ⟨_,-,h⟩ := Runs.bind_ok.mp h
  obtain ⟨_,-,h⟩ := Runs.bind_ok.mp h
  obtain ⟨_,-,h⟩ := Runs.bind_ok.mp h
  split at h
  · cases h
  · rename_i sources hs
    exact ⟨sources,hs,forEach_ok.mp h⟩

/-- The parts of O10. -/
theorem o10Licenses_ok {lib : Library} {body : Json} {files : CheckerInputs}
    {instances : List Published} {licences : List PublishedLicence} {silent : List Json} :
    o10Licenses lib body files instances = .ok (licences,silent) ↔
      ∃ producing intervals, producingOf lib files.rules = .ok producing ∧
        intervalsOf lib files.liveness = .ok intervals ∧ readLicences lib body = .ok licences ∧
        silentSection body = .ok silent ∧
        ∀ ref ∈ silent, checkSilent producing intervals licences instances ref = .ok () := by
  simp only [o10Licenses,producingOf,intervalsOf,silentSection,Runs.bind_ok,Runs.pure_ok,forEach_ok]
  constructor
  · rintro ⟨_,-,_,-,liveness,hl,rules,hr,producing,hp,intervals,hi,_,hlic,listed,hm,_,hs,_,hall,he⟩
    obtain ⟨rfl,rfl⟩ := Prod.mk.inj he
    exact ⟨producing,intervals,⟨rules,hr,hp⟩,⟨liveness,hl,hi⟩,hlic,⟨listed,hm,hs⟩,hall⟩
  · rintro ⟨producing,intervals,⟨rules,hr,hp⟩,⟨liveness,hl,hi⟩,hlic,⟨listed,hm,hs⟩,hall⟩
    have hrl : ∃ c, files.liveness.read = .ok c := by
      simp only [parseSideJson,Runs.bind_ok] at hl
      exact ⟨_,hl.choose_spec.1⟩
    have hrr : ∃ c, files.rules.read = .ok c := by
      simp only [parseToml,Runs.bind_ok] at hr
      exact ⟨_,hr.choose_spec.1⟩
    exact ⟨_,hrl.choose_spec,_,hrr.choose_spec,liveness,hl,rules,hr,producing,hp,intervals,hi,_,hlic,
      listed,hm,_,hs,(),hall,rfl⟩

section

variable {lib : Library} {content : Bytes} {files : CheckerInputs} {st : State}

/-- An accepted certificate whose silent section lists every LICENSED instance rests each of
them on licences. -/
theorem licences_implied_of_complete (h : Accepts lib content files st)
    (hc : st.SilentComplete) : st.LicencesImplied lib files := by
  obtain ⟨document,h⟩ := h.established
  obtain ⟨producing,intervals,hp,hi,-,-,hsilent⟩ := o10Licenses_ok.mp h.o10
  obtain ⟨_,hghost,-⟩ := Runs.bind_ok.mp h.o11
  refine ⟨producing,intervals,hp,hi,fun i hmem hl => ?_⟩
  obtain ⟨ref,href,hri⟩ := hc i hmem hl
  obtain ⟨sources,hsources,hcited⟩ := checkSilent_ok (hsilent ref href) hri
  have hcites : i.licenseIds ≠ [] := by
    have hok := forEach_ok.mp hghost i hmem
    rw [ghostOk,if_pos hl] at hok
    simp only [Runs.bind_ok,require_ok] at hok
    obtain ⟨_,-,_,hcites,-⟩ := hok
    exact hcites
  exact ⟨hcites,sources,hsources,fun id hid => checkCited_ok (hcited id hid)⟩

/-- A step nobody could have seen: its source is blind for the ten nanoseconds of its licence. -/
def gapLicence : PublishedLicence := blindLicence "gap" "src:s" ⟨0,10,rfl⟩

def gapStep : Published :=
  mintInstance ⟨[],[],[],false,"fh:g","",[gapLicence.licenseId],"LICENSED","rl:r","1",0⟩

def listed : Subject := {
  rules := [("r",["s"])]
  otherRules := [[("q",[]),("r",["s"])],[]]
  sources := [.obj [("intervals",.list [.obj [("reason",.str "gap"),("t0_ns",.str "0"),
    ("t1_ns",.str "10"),("verdict",.str "BLIND")]]),("source_id",.str "s")]]
  goals := [("fh:g",true)]
  instances := [gapStep]
  licenses := [gapLicence]
  silent := [(gapStep.instanceId,[gapLicence.licenseId])]}

/-- The step is LICENSED, and the silent section lists it. -/
def listedPass : listed.Passed fun st =>
    st.silent.any (fun ref => (refInstance st.instances ref).isSome) && st.instances.all fun i => i.observed = "LICENSED" &&
      st.silent.any fun ref => refInstance st.instances ref = some i :=
  listed.pass _ (by decide +kernel) (by decide +kernel)

theorem licences_implied_of_complete_listed : ∃ st,
    Accepts listed.library listed.content listed.files st ∧ st.SilentComplete ∧
      st.LicencesImplied listed.library listed.files := by
  obtain ⟨st,h,hst⟩ := listedPass
  have hc : st.SilentComplete := by
    intro i hi _
    have hone := List.all_eq_true.mp (Bool.and_eq_true_iff.mp hst).2 i hi
    simp only [Bool.and_eq_true,List.any_eq_true,decide_eq_true_eq] at hone
    exact hone.2
  exact ⟨st,h,hc,licences_implied_of_complete h hc⟩

/-- The same step under a licence that is not published, left out of the silent section. -/
def unlisted : Subject := {
  goals := [("fh:g",true)]
  instances := [mintInstance ⟨[],[],[],false,"fh:g","",["lic:0"],"LICENSED","rl:r","1",0⟩]}

def unlistedPass : unlisted.Passed fun st =>
    st.licences = [] && st.instances.any fun i => i.observed = "LICENSED" && i.licenseIds ≠ [] :=
  unlisted.pass _ (by decide +kernel) (by decide +kernel)

/-- An accepted LICENSED instance whose licence does not exist. -/
theorem licences_unimplied : ¬∀ lib content files st, Accepts lib content files st →
    st.LicencesImplied lib files := by
  intro hall
  obtain ⟨st,h,hst⟩ := unlistedPass
  simp only [Bool.and_eq_true,decide_eq_true_eq,List.any_eq_true] at hst
  obtain ⟨hnone,i,hi,hl,hcites⟩ := hst
  obtain ⟨_,_,-,-,himplied⟩ := hall _ _ _ st h
  obtain ⟨-,_,-,hpublished⟩ := himplied i hi hl
  obtain ⟨id,hid⟩ := List.exists_mem_of_ne_nil _ hcites
  obtain ⟨lic,hlic,-⟩ := hpublished id hid
  rw [hnone] at hlic
  cases hlic

end

/-! ### The octets of the rule file -/

/-- The instances that the entries of the silent section resolve to, read off the certificate. -/
def silentInstances (lib : Library) (content : Bytes) : List Published :=
  let read : Check (List Published) := do
    let body ← bodyOf (← parseDocument lib content)
    let (instances,_) ← seqField lib.instanceCanonical (← body.member "instances")
    pure ((← silentSection body).filterMap (refInstance instances))
  match read with
  | .ok instances => instances
  | .error _ => []

/-- O4 reads the instances off the certificate. -/
theorem o4Inputs_instances {lib : Library} {body : Json} {files : CheckerInputs}
    {instances : List Published} (h : o4Inputs lib body files = .ok instances) :
    ∃ listed octets, body.member "instances" = .ok listed ∧
      seqField lib.instanceCanonical listed = .ok (instances,octets) := by
  simp only [o4Inputs,Runs.bind_ok,Runs.pure_ok] at h
  obtain ⟨_,-,_,-,_,-,_,-,_,-,_,-,_,-,_,-,_,-,_,-,listed,hl,⟨instances',octets⟩,hi,_,-,_,-,rfl⟩ := h
  exact ⟨listed,octets,hl,hi⟩

section

variable {lib : Library} {content : Bytes} {files : CheckerInputs} {document : Json} {st : State}

theorem Established.silentInstances_eq (h : Established lib content files document st) :
    silentInstances lib content = st.silent.filterMap (refInstance st.instances) := by
  obtain ⟨listed,octets,hl,hi⟩ := o4Inputs_instances h.o4
  obtain ⟨_,_,-,-,-,hsilent,-⟩ := o10Licenses_ok.mp h.o10
  simp [silentInstances,h.parsed,h.body,hl,hi,hsilent,bind,Except.bind,pure,Except.pure]

/-- The rule file of an accepted certificate gives every rule that a silent entry leads to. -/
theorem Established.producing (h : Established lib content files document st) :
    ∃ producing, producingOf lib files.rules = .ok producing ∧
      ∀ i ∈ silentInstances lib content, (Dict.get? producing i.ruleId).isSome := by
  obtain ⟨producing,intervals,hp,-,-,-,hsilent⟩ := o10Licenses_ok.mp h.o10
  refine ⟨producing,hp,fun i hi => ?_⟩
  rw [h.silentInstances_eq] at hi
  obtain ⟨ref,href,hri⟩ := List.mem_filterMap.mp hi
  obtain ⟨sources,hs,-⟩ := checkSilent_ok (hsilent ref href) hri
  rw [hs]; rfl

end

/-- Two rule files can be read, and give every rule that a silent entry leads to the same
producing sources. -/
def SameProducing (lib : Library) (content : Bytes) (rules rules' : SideFile) : Prop :=
  ∃ producing producing', producingOf lib rules = .ok producing ∧
    producingOf lib rules' = .ok producing' ∧ ∀ i ∈ silentInstances lib content,
      Dict.get? producing i.ruleId = Dict.get? producing' i.ruleId

theorem SameProducing.symm {lib : Library} {content : Bytes} {rules rules' : SideFile}
    (h : SameProducing lib content rules rules') : SameProducing lib content rules' rules := by
  obtain ⟨p,p',hp,hp',hsame⟩ := h
  exact ⟨p',p,hp',hp,fun i hi => (hsame i hi).symm⟩

end Checker

end Spectra
