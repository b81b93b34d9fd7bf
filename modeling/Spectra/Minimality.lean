import Spectra.Admissible
import Spectra.Closure

/-! The minimality labels: what the probe of O15 rules out among the smaller cuts, and what
it passes over. -/
namespace Spectra
namespace Checker

namespace State

/-- Every published corridor is hit. -/
def Hits (st : State) (mask : Mask) : Prop := ∀ c ∈ st.corridors, c.mask &&& mask ≠ 0

instance (st : State) (mask : Mask) : Decidable (st.Hits mask) :=
  inferInstanceAs (Decidable (∀ c ∈ st.corridors, _))

/-- Some declared goal is derivable from the published instances under a mask. -/
def DerivesGoal (st : State) (mask : Mask) : Prop :=
  ∃ g ∈ st.goals, goalIn (reach st.instances (axiomsOf st.instances) mask) g = true

instance (st : State) (mask : Mask) : Decidable (st.DerivesGoal mask) :=
  inferInstanceAs (Decidable (∃ g ∈ st.goals, _))

/-- The cut hits every corridor, with the fewest controls that an admissible cut can. -/
structure PsiOptimal (st : State) : Prop where
  hits : st.Hits st.cut.mask
  least : IsLeast {n | ∃ cut : AdmissibleCut st.atoms, st.Hits cut.mask ∧ cut.controls.card = n}
    st.cut.controls.length

/-- An admissible cut of fewer controls leaves some goal derivable. -/
def Optimal (st : State) : Prop :=
  ∀ cut : AdmissibleCut st.atoms, cut.controls.card < st.cut.controls.length →
    st.DerivesGoal cut.mask

/-- What hits every corridor with one control fewer, hits them with the rows that the table of
bits keeps. -/
def KeptRowsHit (st : State) : Prop :=
  ∀ T ⊆ st.atoms.controls, T.card+1 = st.cut.controls.length →
    st.Hits (AdmissibleCut.raise st.atoms T).mask → st.Hits (st.atoms.keptMask T)

/-- The probe goes past a set of controls: some corridor is not hit by the rows that the table
of bits keeps, or these are not all rows. -/
def PassedOver (st : State) (T : Finset ControlId) : Prop :=
  ¬st.Hits (st.atoms.keptMask T) ∨ st.atoms.keptMask T ≠ (AdmissibleCut.raise st.atoms T).mask

/-- What the probe goes past leaves some goal derivable. -/
def PassedOverDerive (st : State) : Prop :=
  ∀ T ⊆ st.atoms.controls, T.card+1 = st.cut.controls.length → st.PassedOver T →
    st.DerivesGoal (AdmissibleCut.raise st.atoms T).mask

end State

section

variable {st : State} {s t : Mask}

theorem State.Hits.mono (h : ∀ i, s.getLsbD i = true → t.getLsbD i = true) (hs : st.Hits s) :
    st.Hits t := by
  intro c hc he
  refine hs c hc (BitVec.eq_of_getLsbD_eq_iff.mpr fun i _ => ?_)
  have hz : (c.mask &&& t).getLsbD i = false := by rw [he]; simp
  rw [BitVec.getLsbD_and,Bool.and_eq_false_iff] at hz
  have hn : s.getLsbD i = true → c.mask.getLsbD i = false := by
    intro hi
    rcases hz with hz | hz
    · exact hz
    · rw [h i hi] at hz; cases hz
  rw [BitVec.getLsbD_and]
  cases hi : s.getLsbD i <;> simp_all

theorem State.DerivesGoal.anti (h : ∀ i, s.getLsbD i = true → t.getLsbD i = true)
    (ht : st.DerivesGoal t) : st.DerivesGoal s := by
  obtain ⟨g,hg,hin⟩ := ht
  exact ⟨g,hg,goalIn_mono (reach_antitone h) hin⟩

end

/-- A goal that is derived is one of the declared goals. -/
theorem anyDerived_goalIn {facts : List FactHash} {goals : List Json} {keys : List Json}
    (hk : goals.mapM (·.item "goal_key") = Except.ok (ε := Raised) keys)
    (h : anyDerived facts keys = .ok true) : ∃ g ∈ goals, goalIn facts g = true := by
  induction goals generalizing keys with
  | nil => cases mapM_ok.mp hk; cases h
  | cons g goals ih =>
    obtain _ | @⟨_,key,_,keys,hg,hkeys⟩ := mapM_ok.mp hk
    obtain ⟨b,hb,h⟩ := Runs.bind_ok.mp h
    cases b with
    | true => exact ⟨g,by simp,inFacts_goalIn hg hb⟩
    | false =>
      obtain ⟨g',hg',hin⟩ := ih (mapM_ok.mpr hkeys) h
      exact ⟨g',by simp [hg'],hin⟩

section

variable {lib : Library} {content : Bytes} {files : CheckerInputs} {document : Json} {st : State}

theorem readCorridor_ok {atoms : Atoms} {cutMask : Mask} {c : Json} {corridor : PublishedCorridor}
    (h : readCorridor lib atoms cutMask c = .ok corridor) :
    (do maskText (← c.item "mask")) = Except.ok (ε := Raised) corridor.mask ∧
      corridor.mask &&& cutMask ≠ 0 := by
  simp only [readCorridor,Runs.bind_ok,Runs.pure_ok,require_ok] at h
  obtain ⟨_,-,_,-,_,-,ranks,-,_,-,_,-,_,-,text,htext,declared,hdeclared,_,-,_,hcut,rfl⟩ := h
  exact ⟨Runs.bind_ok.mpr ⟨text,htext,hdeclared⟩,hcut⟩

/-- O6b and O13 read the same corridors, and the cut hits each. -/
theorem Established.corridors (h : Established lib content files document st) :
    st.corridorMasks = st.corridors.map (·.mask) ∧ st.Hits st.cut.mask := by
  have h6 := h.o6b
  have h13 := h.o13
  simp only [o6bLevels,Runs.bind_ok,Runs.pure_ok] at h6
  simp only [o13PsiHit,Runs.bind_ok] at h13
  obtain ⟨psi,hpsi,listed,hl,corridors,hc,masks,hmasks,_,-,heq⟩ := h6
  obtain ⟨_,hpsi',_,-,_,-,_,hl',_,hc',_,-,_,-,hread⟩ := h13
  cases hpsi.symm.trans hpsi'
  cases hl.symm.trans hl'
  cases hc.symm.trans hc'
  refine ⟨heq ▸ ?_,fun c hc => (readCorridor_ok (mapM_mem hread hc).choose_spec.2).2⟩
  have hm := mapM_ok.mp hmasks
  have hr := mapM_ok.mp hread
  generalize st.corridors = corridors' at hr ⊢
  clear * - hm hr
  induction hr generalizing masks with
  | nil => cases hm; rfl
  | cons hcorridor _ ih =>
    cases hm with
    | cons hmask hm =>
      rw [(readCorridor_ok hcorridor).1] at hmask
      rw [List.map_cons,← ih _ hm,Except.ok.inj hmask]

/-- The raised controls are controls of the table. -/
theorem Established.raised (h : Established lib content files document st) :
    ∃ T ⊆ st.atoms.controls, T.card = st.cut.controls.length ∧
      ∀ i, st.cut.mask.getLsbD i = true → (AdmissibleCut.raise st.atoms T).mask.getLsbD i = true := by
  obtain ⟨hcut,hrows,-⟩ := o6Cut_ok h.o6
  have hmem : ∀ p ∈ st.cut.rows, p.2 ∈ st.atoms.byRank := fun p hp =>
    List.mem_of_getElem? (hrows p hp)
  refine ⟨(st.cut.rows.map (·.2.controlId)).toFinset,?_,?_,fun i hi => ?_⟩
  · intro c hc
    obtain ⟨p,hp,rfl⟩ := List.mem_map.mp (List.mem_toFinset.mp hc)
    exact List.mem_toFinset.mpr (List.mem_map_of_mem (hmem p hp))
  · rw [hcut]
    exact PublishedCut.length_controls.symm
  · rw [hcut] at hi
    obtain ⟨p,hp,hi⟩ := PublishedCut.getLsbD_mask.mp hi
    refine getLsbD_maskOfRows.mpr ⟨p.2,List.mem_filter.mpr ⟨hmem p hp,?_⟩,hi⟩
    exact decide_eq_true (List.mem_toFinset.mpr (List.mem_map.mpr ⟨p,hp,rfl⟩))

/-- The probes O15 makes under an exact label, over the declared goals. -/
theorem Established.probes (h : Established lib content files document st)
    (hm : st.verdict.minimality = "EXACT_EXHAUSTIVE" ∨
      st.verdict.minimality = "EXACT_PSI_RELATIVE") (htarget : st.cut.controls.length ≠ 0) :
    ∃ keys, st.goals.mapM (·.item "goal_key") = Except.ok (ε := Raised) keys ∧
      ∀ subset ∈ combinations (st.cut.controls.length-1)
        ((st.atoms.controlLevels.map (·.1)).insertionSort (· ≤ ·)),
        probe st.verdict.minimality st.instances st.atoms st.corridorMasks keys subset = .ok () := by
  have h15 := h.o15
  have h9 := h.o9
  have hlabel : ¬(st.verdict.minimality = "SUBSET" ∨ st.verdict.minimality = "UNVERIFIED") := by
    rcases hm with hm | hm <;> rw [hm] <;> decide
  simp only [o15Minimality] at h15
  rw [if_neg hlabel,if_neg htarget] at h15
  obtain ⟨_,-,h15⟩ := Runs.bind_ok.mp h15
  have hrest : ∃ listed goals keys, st.body.item "goals" = Except.ok (ε := Raised) listed ∧
      listed.iter = Except.ok (ε := Raised) goals ∧
      goals.mapM (·.item "goal_key") = Except.ok (ε := Raised) keys ∧
      ∀ subset ∈ combinations (st.cut.controls.length-1)
        ((st.atoms.controlLevels.map (·.1)).insertionSort (· ≤ ·)),
        probe st.verdict.minimality st.instances st.atoms st.corridorMasks keys subset = .ok () := by
    split at h15
    · simp only [Runs.bind_ok,forEach_ok] at h15
      obtain ⟨_,-,_,-,_,-,_,-,_,-,listed,hl,goals,hg,keys,hk,hall⟩ := h15
      exact ⟨listed,goals,keys,hl,hg,hk,hall⟩
    · simp only [Runs.bind_ok,forEach_ok] at h15
      obtain ⟨listed,hl,goals,hg,keys,hk,hall⟩ := h15
      exact ⟨listed,goals,keys,hl,hg,hk,hall⟩
  obtain ⟨listed,goals,keys,hl,hg,hkeys,hall⟩ := hrest
  simp only [o9Goals,Runs.bind_ok] at h9
  obtain ⟨listed',hl',declared,hg',_,-,_,-,h9⟩ := h9
  cases (Json.member_ok.mp hl').symm.trans hl
  cases hg'.symm.trans hg
  have hdeclared : goals = st.goals := by
    split at h9
    · exact Runs.pure_ok.mp h9
    · obtain ⟨_,-,h9⟩ := Runs.bind_ok.mp h9
      exact Runs.pure_ok.mp h9
  exact ⟨keys,hdeclared ▸ hkeys,hall⟩

/-- The probe of a set of controls that hits every corridor: the label is not relative to the
corridors, and a goal is derivable. -/
theorem Established.probed (h : Established lib content files document st)
    (hm : st.verdict.minimality = "EXACT_EXHAUSTIVE" ∨
      st.verdict.minimality = "EXACT_PSI_RELATIVE") {T : Finset ControlId}
    (hT : T ⊆ st.atoms.controls) (hcard : T.card+1 = st.cut.controls.length)
    (hhits : st.Hits (st.atoms.keptMask T)) :
    st.verdict.minimality ≠ "EXACT_PSI_RELATIVE" ∧ st.DerivesGoal (st.atoms.keptMask T) := by
  obtain ⟨rows,hatoms⟩ := o5Atoms_ok h.o5
  obtain ⟨keys,hkeys,hall⟩ := h.probes hm (by omega)
  obtain ⟨subset,hsub,hfin⟩ : ∃ subset ∈ combinations T.card
      ((st.atoms.controlLevels.map (·.1)).insertionSort (· ≤ ·)), subset.toFinset = T := by
    refine exists_combination ?_ fun c hc => ?_
    · exact (List.perm_insertionSort _ _).nodup_iff.mpr (hatoms ▸ Atoms.nodup_controlLevels)
    · rw [List.mem_insertionSort,hatoms]
      exact Atoms.mem_controlLevels.mpr (hatoms ▸ hT hc)
  obtain ⟨mask,hmask,hprobe⟩ := Runs.bind_ok.mp (hall subset (by rwa [← hcard]))
  have hmask : mask = st.atoms.keptMask T := by
    rw [hatoms] at hmask ⊢
    exact hfin ▸ maskOfControls_ok hmask
  have hcovered : (st.corridorMasks.all fun m => m &&& mask ≠ 0) = true := by
    rw [h.corridors.1,hmask,List.all_map,List.all_eq_true]
    exact fun c hc => decide_eq_true (hhits c hc)
  rw [if_pos hcovered] at hprobe
  split at hprobe
  · cases hprobe
  · rename_i hne
    obtain ⟨b,hb,hreq⟩ := Runs.bind_ok.mp hprobe
    rw [require_ok.mp hreq,hmask] at hb
    exact ⟨hne,anyDerived_goalIn hkeys hb⟩

/-- A set of controls of the table with fewer than the cut raises grows to one fewer. -/
theorem Established.grow (h : Established lib content files document st) (cut : AdmissibleCut st.atoms)
    (hcard : cut.controls.card < st.cut.controls.length) :
    ∃ T ⊆ st.atoms.controls, cut.controls ⊆ T ∧ T.card+1 = st.cut.controls.length := by
  obtain ⟨R,hR,hlen,-⟩ := h.raised
  have hle : st.cut.controls.length ≤ st.atoms.controls.card := hlen ▸ Finset.card_le_card hR
  have hsub : cut.controls ⊆ st.atoms.controls := by
    intro c hc
    obtain ⟨r,hr,rfl⟩ := List.mem_map.mp (List.mem_toFinset.mp hc)
    exact List.mem_toFinset.mpr (List.mem_map_of_mem (cut.listed r hr))
  obtain ⟨T,hT,hTs,hTc⟩ := Finset.exists_subsuperset_card_eq hsub
    (n := st.cut.controls.length-1) (by omega) (by omega)
  exact ⟨T,hTs,hT,by omega⟩

theorem card_controls_raise_lt {T : Finset ControlId}
    (hcard : T.card+1 = st.cut.controls.length) :
    (AdmissibleCut.raise st.atoms T).controls.card < st.cut.controls.length :=
  (Finset.card_le_card (AdmissibleCut.controls_raise_subset T)).trans_lt (by omega)

/-- A cut that raises exactly the controls the published cut raises, each to its top. -/
theorem Established.hits_raised (h : Established lib content files document st) :
    ∃ cut : AdmissibleCut st.atoms, st.Hits cut.mask ∧
      cut.controls.card ≤ st.cut.controls.length := by
  obtain ⟨R,-,hlen,hmask⟩ := h.raised
  exact ⟨AdmissibleCut.raise st.atoms R,h.corridors.2.mono hmask,
    hlen ▸ Finset.card_le_card (AdmissibleCut.controls_raise_subset R)⟩

/-- A label relative to the corridors is a true optimum exactly when no control set is missed
for the rows that the table of bits drops. -/
theorem psi_relative_optimal_iff (h : Accepts lib content files st)
    (hm : st.verdict.minimality = "EXACT_PSI_RELATIVE") : st.PsiOptimal ↔ st.KeptRowsHit := by
  obtain ⟨document,h⟩ := h.established
  constructor
  · rintro ⟨-,-,hleast⟩ T hT hcard hhits
    have := hleast ⟨_,hhits,rfl⟩
    have := @card_controls_raise_lt st T hcard
    omega
  · intro hkept
    have hleast : ∀ cut : AdmissibleCut st.atoms, st.Hits cut.mask →
        st.cut.controls.length ≤ cut.controls.card := by
      intro cut hhits
      by_contra hlt
      obtain ⟨T,hT,hsub,hcard⟩ := h.grow cut (by omega)
      have := hkept T hT hcard (hhits.mono fun i => cut.mask_le_raise hsub)
      exact (h.probed (.inr hm) hT hcard this).1 hm
    obtain ⟨cut,hhits,hle⟩ := h.hits_raised
    refine ⟨h.corridors.2,⟨cut,hhits,le_antisymm hle (hleast cut hhits)⟩,?_⟩
    rintro n ⟨cut,hhits,rfl⟩
    exact hleast cut hhits

/-- One row for each control and level: the table of bits drops none. -/
theorem Established.keptRowsHit (h : Established lib content files document st)
    (hd : (st.atoms.byRank.map fun r => (r.controlId,r.level)).Nodup) : st.KeptRowsHit := by
  obtain ⟨rows,hatoms⟩ := o5Atoms_ok h.o5
  intro T hT hcard hhits
  have hkept : (AdmissibleCut.raise st.atoms T).rows.filter st.atoms.kept =
      (AdmissibleCut.raise st.atoms T).rows := by
    refine List.filter_eq_self.mpr fun r hr => ?_
    have hmem := (AdmissibleCut.raise st.atoms T).listed r hr
    rw [hatoms] at hd hmem ⊢
    exact Atoms.kept_of_distinct hd hmem
  rwa [Atoms.keptMask,hkept]

/-- A corridor under the id its ranks mint. -/
def mintCorridor (ranks : List ℕ) (mask : Mask) : PublishedCorridor :=
  ⟨"cor:"++digestHex "cor" (leb128Seq ranks) 32,ranks,mask⟩

/-- The rows are a cut over a table. -/
def isAdmissible (atoms : Atoms) (rows : List AtomRow) : Bool :=
  rows.all fun r => r ∈ atoms.byRank && atoms.byRank.all fun r' =>
    r'.controlId ≠ r.controlId || r.level < r'.level || r' ∈ rows

theorem isAdmissible_cut {atoms : Atoms} {rows : List AtomRow} (h : isAdmissible atoms rows = true) :
    ∃ cut : AdmissibleCut atoms, cut.rows = rows := by
  simp only [isAdmissible,List.all_eq_true,Bool.and_eq_true,Bool.or_eq_true,decide_eq_true_eq] at h
  refine ⟨⟨rows,fun r hr => (h r hr).1,fun r hr r' hr' hc hl => ?_⟩,rfl⟩
  rcases (h r hr).2 r' hr' with (hne | hlt) | hin
  · exact absurd hc hne
  · omega
  · exact hin

/-- The control `c` has two rows at one level; the step to the goal is blocked by the first,
and the cut raises `d` besides. -/
def doubled : Subject := {
  atoms := [⟨"ctl:c",1,0⟩,⟨"ctl:c",1,1⟩,⟨"ctl:d",1,2⟩]
  cut := [(0,⟨"ctl:c",1,0⟩),(2,⟨"ctl:d",1,2⟩)]
  goals := [("fh:g",false)]
  instances := [⟨[bitMask 0],[],[],false,"fh:g","in:1",["lic:0"],"LICENSED","rl:r","1",0⟩]
  invariant := some []
  corridors := [mintCorridor [0] (bitMask 0)]
  minimality := "EXACT_PSI_RELATIVE"}

/-- The rows of the control `c`. -/
def doubledRows : List AtomRow := [⟨"ctl:c",1,0⟩,⟨"ctl:c",1,1⟩]

def doubledPass : doubled.Passed fun st =>
    st.verdict.minimality = "EXACT_PSI_RELATIVE" && isAdmissible st.atoms doubledRows &&
      st.Hits (maskOfRows doubledRows) && 1 < st.cut.controls.length :=
  doubled.pass _ (by decide +kernel) (by decide +kernel)

theorem psi_relative_optimal_iff_doubled : ∃ st,
    Accepts doubled.library doubled.content doubled.files st ∧
      st.verdict.minimality = "EXACT_PSI_RELATIVE" ∧ (st.PsiOptimal ↔ st.KeptRowsHit) := by
  obtain ⟨st,h,hst⟩ := doubledPass
  simp only [Bool.and_eq_true,decide_eq_true_eq] at hst
  exact ⟨st,h,hst.1.1.1,psi_relative_optimal_iff h hst.1.1.1⟩

/-- An accepted label relative to the corridors over a cut that is not the least. -/
theorem psi_relative_suboptimal : ¬∀ lib content files st, Accepts lib content files st →
    st.verdict.minimality = "EXACT_PSI_RELATIVE" → st.PsiOptimal := by
  intro hall
  obtain ⟨st,h,hst⟩ := doubledPass
  simp only [Bool.and_eq_true,decide_eq_true_eq] at hst
  obtain ⟨⟨⟨hm,hadm⟩,hhits⟩,hlt⟩ := hst
  obtain ⟨cut,hcut⟩ := isAdmissible_cut hadm
  have hcard : cut.controls.card = 1 := by rw [AdmissibleCut.controls,hcut]; decide
  have := (hall _ _ _ st h hm).least.2 ⟨cut,by rwa [AdmissibleCut.mask,hcut],hcard⟩
  omega

/-- An exhaustive label is a true optimum exactly when the probe goes past no control set that
severs the goals. -/
theorem exhaustive_optimal_iff (h : Accepts lib content files st)
    (hm : st.verdict.minimality = "EXACT_EXHAUSTIVE") : st.Optimal ↔ st.PassedOverDerive := by
  obtain ⟨document,h⟩ := h.established
  constructor
  · intro hopt T hT hcard _
    exact hopt _ (card_controls_raise_lt hcard)
  · intro hpassed cut hlt
    obtain ⟨T,hT,hsub,hcard⟩ := h.grow cut hlt
    refine State.DerivesGoal.anti (fun i => cut.mask_le_raise hsub) ?_
    by_cases hp : st.PassedOver T
    · exact hpassed T hT hcard hp
    · simp only [State.PassedOver,not_or,not_not] at hp
      exact hp.2 ▸ (h.probed (.inl hm) hT hcard hp.1).2

/-- The control `c` alone blocks the step to the goal; one corridor asks for `d` as well. -/
def padded : Subject := {
  atoms := [⟨"ctl:c",1,0⟩,⟨"ctl:d",1,1⟩]
  budgets := [("budget_exhausted",.bool false),("exhaustive_cuts_tested",.int 2),
    ("exhaustive_ran",.bool true)]
  cut := [(0,⟨"ctl:c",1,0⟩),(1,⟨"ctl:d",1,1⟩)]
  goals := [("fh:g",false)]
  instances := [⟨[bitMask 0],[],[],false,"fh:g","in:1",["lic:0"],"LICENSED","rl:r","1",0⟩]
  invariant := some []
  corridors := [mintCorridor [0] (bitMask 0),mintCorridor [1] (bitMask 1)]
  minimality := "EXACT_EXHAUSTIVE"}

/-- The row of the control `c`. -/
def paddedRows : List AtomRow := [⟨"ctl:c",1,0⟩]

def paddedPass : padded.Passed fun st =>
    st.verdict.minimality = "EXACT_EXHAUSTIVE" && isAdmissible st.atoms paddedRows &&
      !decide (st.DerivesGoal (maskOfRows paddedRows)) && 1 < st.cut.controls.length :=
  padded.pass _ (by decide +kernel) (by decide +kernel)

theorem exhaustive_optimal_iff_padded : ∃ st,
    Accepts padded.library padded.content padded.files st ∧
      st.verdict.minimality = "EXACT_EXHAUSTIVE" ∧ (st.Optimal ↔ st.PassedOverDerive) := by
  obtain ⟨st,h,hst⟩ := paddedPass
  simp only [Bool.and_eq_true,decide_eq_true_eq] at hst
  exact ⟨st,h,hst.1.1.1,exhaustive_optimal_iff h hst.1.1.1⟩

/-- An accepted exhaustive label over a cut that is not the least. -/
theorem exhaustive_suboptimal : ¬∀ lib content files st, Accepts lib content files st →
    st.verdict.minimality = "EXACT_EXHAUSTIVE" → st.Optimal := by
  intro hall
  obtain ⟨st,h,hst⟩ := paddedPass
  simp only [Bool.and_eq_true,decide_eq_true_eq,Bool.not_eq_true',decide_eq_false_iff_not] at hst
  obtain ⟨⟨⟨hm,hadm⟩,hsevers⟩,hlt⟩ := hst
  obtain ⟨cut,hcut⟩ := isAdmissible_cut hadm
  have hcard : cut.controls.card = 1 := by rw [AdmissibleCut.controls,hcut]; decide
  refine hsevers ?_
  have := hall _ _ _ st h hm cut (by omega)
  rwa [AdmissibleCut.mask,hcut] at this

end

end Checker

end Spectra
