import Spectra.CatalogTable

/-! The canonical selection reads clauses as sets of literals: controls that occur in no clause, bits,
and the order and the repetition of clauses do not reach the literals it raises. -/
namespace Spectra

variable {atoms atoms' : AtomTable} {clauses clauses' : List Clause}

/-- The literals of a clause, by control and level. -/
def AtomTable.idsOf (atoms : AtomTable) (clause : Clause) : Finset (ControlId × ℕ) :=
  ((atoms.literals.filter (·.rank ∈ clause)).map (·.key)).toFinset

/-- Each clause of one list is, by its literals, one of the other. -/
structure SameClauses (atoms : AtomTable) (clauses : List Clause) (atoms' : AtomTable)
    (clauses' : List Clause) : Prop where
  forward : ∀ c ∈ clauses, ∃ c' ∈ clauses', atoms'.idsOf c' = atoms.idsOf c
  backward : ∀ c' ∈ clauses', ∃ c ∈ clauses, atoms.idsOf c = atoms'.idsOf c'

theorem mem_idsOf {clause : Clause} {key : ControlId × ℕ} :
    key ∈ atoms.idsOf clause ↔ ∃ a ∈ atoms.literals, a.rank ∈ clause ∧ a.key = key := by
  simp [AtomTable.idsOf,and_assoc]

/-! ### Assignments and sets of controls, by literals -/

theorem hits_iff_ids {σ : Assignment atoms} {clause : Clause} :
    σ.Hits clause ↔ ∃ key ∈ atoms.idsOf clause, key.2 ≤ σ.level key.1 := by
  constructor
  · rintro ⟨a,ha,hr,hl⟩
    exact ⟨a.key,(mem_idsOf).mpr ⟨a,ha,hr,rfl⟩,hl⟩
  · rintro ⟨key,hkey,hl⟩
    obtain ⟨a,ha,hr,rfl⟩ := (mem_idsOf).mp hkey
    exact ⟨a,ha,hr,hl⟩

theorem covers_iff_ids {s : Finset ControlId} {clause : Clause} :
    (∃ a ∈ atoms.literals, a.controlId ∈ s ∧ a.rank ∈ clause) ↔ ∃ key ∈ atoms.idsOf clause, key.1 ∈ s := by
  constructor
  · rintro ⟨a,ha,hs,hr⟩
    exact ⟨a.key,(mem_idsOf).mpr ⟨a,ha,hr,rfl⟩,hs⟩
  · rintro ⟨key,hkey,hs⟩
    obtain ⟨a,ha,hr,rfl⟩ := (mem_idsOf).mp hkey
    exact ⟨a,ha,hs,hr⟩

theorem control_of_id {clause : Clause} {key : ControlId × ℕ} (h : key ∈ atoms.idsOf clause) :
    key.1 ∈ atoms.controls := by
  obtain ⟨a,ha,-,rfl⟩ := (mem_idsOf).mp h
  exact AtomTable.mem_controls.mpr ⟨a,ha,rfl⟩

section Transfer

variable (hext : atoms'.Extends atoms) (hsame : SameClauses atoms clauses atoms' clauses')

include hext in
theorem controls_subset {c : ControlId} (hc : c ∈ atoms.controls) : c ∈ atoms'.controls := by
  obtain ⟨a,ha,rfl⟩ := AtomTable.mem_controls.mp hc
  obtain ⟨b,hb,hkey⟩ := hext.kept a ha
  exact AtomTable.mem_controls.mpr ⟨b,hb,congrArg Prod.fst hkey⟩

include hext in
theorem maxLevel_le (c : ControlId) : atoms.maxLevel c ≤ atoms'.maxLevel c := by
  rcases Nat.eq_zero_or_pos (atoms.maxLevel c) with hz | hpos
  · omega
  · obtain ⟨a,ha,rfl,hl⟩ := AtomTable.exists_literal hpos le_rfl
    obtain ⟨b,hb,hkey⟩ := hext.kept a ha
    obtain ⟨hc,hlevel⟩ := ThresholdLiteral.key_eq.mp hkey
    have hle := AtomTable.level_le_maxLevel hb
    rwa [hc,hlevel,hl] at hle

/-- The same levels over the larger table. -/
def Assignment.widen (σ : Assignment atoms) : Assignment atoms' where
  level := σ.level
  admissible c := (σ.admissible c).trans (maxLevel_le hext c)

/-- Levels over the larger table that raise controls of the smaller one only. -/
def Assignment.narrow (τ : Assignment atoms') (h : ∀ c ∈ τ.raised, c ∈ atoms.controls) :
    Assignment atoms where
  level := τ.level
  admissible c := by
    rcases Nat.eq_zero_or_pos (τ.level c) with hz | hpos
    · omega
    · obtain ⟨b,hb,rfl,hl⟩ := AtomTable.exists_literal hpos (τ.admissible c)
      obtain ⟨a,ha,hkey⟩ := hext.shared b hb (h _ (raised_of_level hpos))
      obtain ⟨hc,hlevel⟩ := ThresholdLiteral.key_eq.mp hkey
      have hle := AtomTable.level_le_maxLevel ha
      rwa [hc,hlevel,hl] at hle

include hsame in
theorem hitsAll_transfer {σ : Assignment atoms} {τ : Assignment atoms'} (hlevel : τ.level = σ.level) :
    σ.HitsAll clauses ↔ τ.HitsAll clauses' := by
  have hiff : ∀ {c c' : Clause}, atoms'.idsOf c' = atoms.idsOf c → (σ.Hits c ↔ τ.Hits c') := by
    intro c c' hids
    rw [hits_iff_ids,hits_iff_ids,hids,hlevel]
  constructor
  · intro h c' hc'
    obtain ⟨c,hc,hids⟩ := hsame.backward c' hc'
    exact (hiff hids.symm).mp (h c hc)
  · intro h c hc
    obtain ⟨c',hc',hids⟩ := hsame.forward c hc
    exact (hiff hids).mpr (h c' hc')

include hext hsame in
theorem HittingSet.widen {s : Finset ControlId} (h : HittingSet atoms clauses s) :
    HittingSet atoms' clauses' s := by
  refine ⟨fun c hc => List.mem_toFinset.mpr (controls_subset hext (List.mem_toFinset.mp (h.1 hc))),
    fun c' hc' => ?_⟩
  obtain ⟨c,hc,hids⟩ := hsame.backward c' hc'
  exact covers_iff_ids.mpr (hids ▸ covers_iff_ids.mp (h.2 c hc))

include hsame in
/-- A control that occurs in no clause can be left out. -/
theorem HittingSet.narrow {s : Finset ControlId} (h : HittingSet atoms' clauses' s) :
    HittingSet atoms clauses (s.filter (· ∈ atoms.controls)) := by
  refine ⟨fun c hc => List.mem_toFinset.mpr (Finset.mem_filter.mp hc).2,fun c hc => ?_⟩
  obtain ⟨c',hc',hids⟩ := hsame.forward c hc
  obtain ⟨key,hkey,hs⟩ := covers_iff_ids.mp (h.2 c' hc')
  rw [hids] at hkey
  exact covers_iff_ids.mpr ⟨key,hkey,Finset.mem_filter.mpr ⟨hs,control_of_id hkey⟩⟩

include hext hsame in
theorem IsOptimum.widen {k : ℕ} (h : IsOptimum atoms clauses [] k) : IsOptimum atoms' clauses' [] k where
  attained := by
    obtain ⟨s,hs,hex,hcard⟩ := h.attained
    exact ⟨s,hs.widen hext hsame,hex,hcard⟩
  least s hs _ := (h.least _ (hs.narrow hsame) (by simp)).trans (Finset.card_filter_le _ _)

include hext in
theorem controls_filter {s : Finset ControlId} (hs : ∀ c ∈ s, c ∈ atoms.controls) :
    atoms'.controls.filter (· ∈ s) = atoms.controls.filter (· ∈ s) := by
  refine (AtomTable.controls_ascending.filter _).eq_of_mem_iff (AtomTable.controls_ascending.filter _)
    fun c => ?_
  simp only [List.mem_filter,decide_eq_true_eq]
  exact ⟨fun h => ⟨hs c h.2,h.2⟩,fun h => ⟨controls_subset hext h.1,h.2⟩⟩

end Transfer

/-! ### Shifted ranks -/

/-- The rank that a literal of one table has in another. -/
def AtomTable.rankIn (atoms' atoms : AtomTable) (rank : ℕ) : ℕ :=
  match atoms.literals[rank]? with
  | none => rank
  | some a => atoms'.literals.findIdx (·.key = a.key)

theorem idsOf_shift (hext : atoms'.Extends atoms) {clause : Clause}
    (hranks : ∀ r ∈ clause, r < atoms.literals.length) :
    atoms'.idsOf (clause.image (atoms'.rankIn atoms)) = atoms.idsOf clause := by
  -- the literal of `atoms'` at the shifted rank is the one at the rank
  have hshift : ∀ {r : ℕ} {a : ThresholdLiteral}, atoms.literals[r]? = some a →
      ∃ b, atoms'.literals[atoms'.rankIn atoms r]? = some b ∧ b.key = a.key := by
    intro r a ha
    obtain ⟨b,hb,hkey⟩ := hext.kept a (List.mem_of_getElem? ha)
    have hlt : atoms'.literals.findIdx (·.key = a.key) < atoms'.literals.length :=
      List.findIdx_lt_length.mpr ⟨b,hb,by simpa using hkey⟩
    rw [AtomTable.rankIn,ha]
    refine ⟨_,List.getElem?_eq_getElem hlt,?_⟩
    simpa using List.findIdx_getElem (w := hlt)
  ext key
  rw [mem_idsOf,mem_idsOf]
  constructor
  · rintro ⟨b,hb,hr,rfl⟩
    obtain ⟨r,hrc,hshifted⟩ := Finset.mem_image.mp hr
    have ha := List.getElem?_eq_getElem (hranks r hrc)
    obtain ⟨b',hb',hkey⟩ := hshift ha
    rw [hshifted] at hb'
    obtain rfl := Option.some.inj (hb'.symm.trans (atoms'.getElem?_rank.mpr ⟨hb,rfl⟩))
    obtain ⟨hmem,hrank⟩ := atoms.getElem?_rank.mp ha
    exact ⟨_,hmem,by rwa [hrank],hkey.symm⟩
  · rintro ⟨a,ha,hr,rfl⟩
    obtain ⟨b,hb,hkey⟩ := hshift (atoms.getElem?_rank.mpr ⟨ha,rfl⟩)
    obtain ⟨hmem,hrank⟩ := atoms'.getElem?_rank.mp hb
    exact ⟨b,hmem,Finset.mem_image.mpr ⟨_,hr,hrank.symm⟩,hkey⟩

/-- Clauses over one table, at the ranks of another, in any order and any number of times. -/
theorem sameClauses_shift (hext : atoms'.Extends atoms)
    (hranks : ∀ c ∈ clauses, ∀ r ∈ c, r < atoms.literals.length)
    (hmem : ∀ c', c' ∈ clauses' ↔ c' ∈ clauses.map fun c => c.image (atoms'.rankIn atoms)) :
    SameClauses atoms clauses atoms' clauses' where
  forward c hc := ⟨_,(hmem _).mpr (List.mem_map_of_mem hc),idsOf_shift hext (hranks c hc)⟩
  backward c' hc' := by
    obtain ⟨c,hc,rfl⟩ := List.mem_map.mp ((hmem c').mp hc')
    exact ⟨c,hc,(idsOf_shift hext (hranks c hc)).symm⟩

/-! ### The choice of levels -/

section Choice

variable (hext : atoms'.Extends atoms) (hsame : SameClauses atoms clauses atoms' clauses')
  {σ : Assignment atoms}

include hext in
theorem raised_widen : (σ.widen hext).raised = σ.raised := by
  ext c
  exact ⟨fun h => raised_of_level (AtomTable.mem_raised.mp h).2,
    fun h => raised_of_level (AtomTable.mem_raised.mp h).2⟩

include hext hsame in
/-- The earliest and lowest choice over the smaller table is that over the larger one. -/
theorem EarliestLowest.widen (h : EarliestLowest clauses σ) :
    EarliestLowest clauses' (σ.widen hext) where
  hits := (hitsAll_transfer hsame rfl).mp h.hits
  least s hs := by
    rw [raised_widen]
    exact (h.least _ (hs.narrow hsame)).trans (Finset.card_filter_le _ _)
  earliest s hs hcard := by
    rw [raised_widen] at hcard ⊢
    -- as small a set has no control outside the smaller table
    have hin : s.filter (· ∈ atoms.controls) = s :=
      Finset.eq_of_subset_of_card_le (Finset.filter_subset _ _)
        (hcard.trans_le (h.least _ (hs.narrow hsame)))
    have hs' := hs.narrow hsame
    rw [hin] at hs'
    by_contra hlt
    have hne : (· ∈ σ.raised) ≠ (· ∈ s) := by
      intro he
      have : σ.raised = s := Finset.ext fun c => iff_of_eq (congrFun he c)
      exact hlt (this ▸ le_rfl)
    obtain ⟨c,hc,hdiff,hagree⟩ := @exists_first_difference atoms _ (· ∈ σ.raised) (· ∈ s)
      (fun c hc => propext ⟨fun h => absurd h (raised_off hc),
        fun h => absurd (List.mem_toFinset.mp (hs'.1 h)) hc⟩) hne
    have hagree : ∀ d < c, d ∈ σ.raised ↔ d ∈ s := fun d hd => iff_of_eq (hagree d hd)
    by_cases hσ : c ∈ σ.raised
    · have hns : c ∉ s := fun hcs => hdiff (propext (iff_of_true hσ hcs))
      exact hlt (indices_lt hs.1 hcard.ge (controls_subset hext hc) hagree hσ hns).le
    · have hcs : c ∈ s := by
        by_contra hcs
        exact hdiff (propext (iff_of_false hσ hcs))
      exact (indices_lt (Finset.filter_subset _ _) hcard.le hc (fun d hd => (hagree d hd).symm) hcs
        hσ).not_ge (h.earliest s hs' hcard)
  lowest τ hτ hhits := by
    rw [raised_widen] at hτ ⊢
    have hin : ∀ c ∈ τ.raised, c ∈ atoms.controls := fun c hc =>
      (AtomTable.mem_raised.mp (hτ ▸ hc)).1
    have hraised : (τ.narrow hext hin).raised = σ.raised := by
      rw [← hτ]
      ext c
      exact ⟨fun h => raised_of_level (AtomTable.mem_raised.mp h).2,
        fun h => raised_of_level (AtomTable.mem_raised.mp h).2⟩
    have hle := h.lowest (τ.narrow hext hin) hraised ((hitsAll_transfer hsame rfl).mpr hhits)
    unfold Assignment.vector at hle ⊢
    rw [@controls_filter _ _ hext σ.raised fun c hc => (AtomTable.mem_raised.mp hc).1]
    exact hle

end Choice

/-! ### The selected cut -/

/-- Over both tables the same levels assert the same literals. -/
theorem keys_literalsAt (hext : atoms'.Extends atoms) (σ : Assignment atoms) :
    (atoms'.literalsAt σ.level).map (·.key) = (atoms.literalsAt σ.level).map (·.key) := by
  have hasc : ∀ atoms : AtomTable,
      ((atoms.literalsAt σ.level).map (·.key)).Pairwise fun a b => toLex a < toLex b := by
    intro atoms
    have h := atoms.ascending
    rw [List.pairwise_map] at h ⊢
    exact h.sublist List.filter_sublist
  have hirrefl : Std.Irrefl fun a b : ControlId × ℕ => toLex a < toLex b := ⟨fun _ => lt_irrefl _⟩
  refine (hasc atoms').eq_of_mem_iff (hasc atoms) fun key => ?_
  simp only [List.mem_map,AtomTable.mem_literalsAt]
  constructor
  · rintro ⟨b,⟨hb,hl⟩,rfl⟩
    have hc := raised_of_level (b.levelRange.1.trans hl)
    obtain ⟨a,ha,hkey⟩ := hext.shared b hb (AtomTable.mem_raised.mp hc).1
    obtain ⟨hac,hal⟩ := ThresholdLiteral.key_eq.mp hkey
    exact ⟨a,⟨ha,by rwa [hac,hal]⟩,hkey⟩
  · rintro ⟨a,⟨ha,hl⟩,rfl⟩
    obtain ⟨b,hb,hkey⟩ := hext.kept a ha
    obtain ⟨hbc,hbl⟩ := ThresholdLiteral.key_eq.mp hkey
    exact ⟨b,⟨hb,by rwa [hbc,hbl]⟩,hkey⟩

/-- The literal ids of the cut at the optimum do not depend on controls that occur in no clause, on the
bits, or on the order and repetition of the clauses; a budget of `n*2^n` nodes is enough on both sides. -/
theorem canonical_select_stable {catalog catalog' added : List Cut.ControlSpec}
    {bits bits' : List (String × ℤ)} (hperm : catalog'.Perm (added++catalog))
    (h : AtomTable.fromCatalog catalog bits = .ok atoms)
    (h' : AtomTable.fromCatalog catalog' bits' = .ok atoms')
    (hsame : SameClauses atoms clauses atoms' clauses') {k : ℕ} (hopt : IsOptimum atoms clauses [] k) :
    IsOptimum atoms' clauses' [] k ∧
    (∀ (m m' : Minimality) (budget budget' : ℤ) (cut cut' : Cut) (nodes nodes' : ℕ),
      canonicalSelect clauses atoms k m budget = .ok (cut,nodes) →
      canonicalSelect clauses' atoms' k m' budget' = .ok (cut',nodes') →
      cut'.atoms.map (·.literalId) = cut.atoms.map (·.literalId)) ∧
    (∀ (m : Minimality) (budget : ℤ), (atoms.controls.length*2^atoms.controls.length : ℕ) ≤ budget →
      ∃ r, canonicalSelect clauses atoms k m budget = .ok r) ∧
    ∀ (m : Minimality) (budget : ℤ), (atoms'.controls.length*2^atoms'.controls.length : ℕ) ≤ budget →
      ∃ r, canonicalSelect clauses' atoms' k m budget = .ok r := by
  have hext := fromCatalog_extends hperm h h'
  have hopt' := hopt.widen hext hsame
  refine ⟨hopt',fun m m' budget budget' cut cut' nodes nodes' hrun hrun' => ?_,
    fun m budget hb => canonicalSelect_returns hopt m hb,
    fun m budget hb => canonicalSelect_returns hopt' m hb⟩
  rcases canonicalSelect_cases hopt m budget with ⟨e,he,-⟩ | ⟨cut₀,n,σ,hcut,hσ,-⟩
  · cases hrun.symm.trans he
  rcases canonicalSelect_cases hopt' m' budget' with ⟨e,he,-⟩ | ⟨cut₁,n',τ,hcut',hτ,-⟩
  · cases hrun'.symm.trans he
  obtain ⟨rfl,rfl⟩ := Prod.mk.inj (Except.ok.inj (hrun.symm.trans hcut))
  obtain ⟨rfl,rfl⟩ := Prod.mk.inj (Except.ok.inj (hrun'.symm.trans hcut'))
  have hlevel : τ.level = σ.level :=
    (hτ.earliestLowest hopt').unique ((hσ.earliestLowest hopt).widen hext hsame)
  have hid : ∀ l : List ThresholdLiteral, l.map (·.literalId) = (l.map (·.key)).map fun key =>
      "lit:"++Checker.removePrefix "ctl:" key.1++"@"++toString key.2 := fun l => by
    rw [List.map_map]; rfl
  rw [hid,hid,hσ.renders.literals,hτ.renders.literals,hlevel,keys_literalsAt hext]

/-- The table of one control, and the table with a control before it and other bits. -/
def oneControl : AtomTable := ⟨[⟨"ctl:b",1,0,0,level_one,bit_zero,rank_zero⟩],by decide⟩

def controlBefore : AtomTable :=
  ⟨[⟨"ctl:a",1,7,0,level_one,by decide,rank_zero⟩,⟨"ctl:b",1,5,1,level_one,by decide,rank_one⟩],
    by decide⟩

theorem oneControl_catalog : AtomTable.fromCatalog [⟨"b",["off","on"]⟩] [("lit:b@1",0)] =
    .ok oneControl := by decide

theorem controlBefore_catalog : AtomTable.fromCatalog [⟨"b",["off","on"]⟩,⟨"a",["off","on"]⟩]
    [("lit:a@1",7),("lit:b@1",5)] = .ok controlBefore := by decide

theorem controlAdded : [(⟨"b",["off","on"]⟩ : Cut.ControlSpec),⟨"a",["off","on"]⟩].Perm
    ([⟨"a",["off","on"]⟩]++[⟨"b",["off","on"]⟩]) := List.Perm.swap _ _ []

def oneControlSolve : {r : MinCardinality // r.value = some 1} :=
  ⟨minCardinality [{0}] oneControl 10 [],by decide +kernel⟩

theorem oneControl_optimum : IsOptimum oneControl [{0}] [] 1 := optimum_of_solve oneControlSolve.2

theorem oneControl_same : SameClauses oneControl [{0}] controlBefore [{1},{1}] := by
  have hids : controlBefore.idsOf {1} = oneControl.idsOf {0} := by decide
  exact ⟨by simpa using hids,by simpa using hids.symm⟩

theorem canonical_select_stable_oneControl :
    IsOptimum controlBefore [{1},{1}] [] 1 ∧ ∃ cut cut' nodes nodes',
      canonicalSelect [{0}] oneControl 1 .unverified stepBudget = .ok (cut,nodes) ∧
      canonicalSelect [{1},{1}] controlBefore 1 .unverified stepBudget = .ok (cut',nodes') ∧
      cut'.atoms.map (·.literalId) = cut.atoms.map (·.literalId) := by
  obtain ⟨hopt,hall,henough,henough'⟩ := canonical_select_stable controlAdded oneControl_catalog
    controlBefore_catalog oneControl_same oneControl_optimum
  obtain ⟨r,hr⟩ := henough .unverified stepBudget (by decide)
  obtain ⟨r',hr'⟩ := henough' .unverified stepBudget (by decide)
  exact ⟨hopt,r.1,r'.1,r.2,r'.2,hr,hr',hall _ _ _ _ _ _ _ _ hr hr'⟩

/-- The literals that are selected before and after, within one node. -/
def oneNode : {literals : Option (List String) × Option (List String) // literals.1 ≠ literals.2} :=
  ⟨((canonicalSelect [{0}] oneControl 1 .unverified 1).toOption.map (·.1.atoms.map (·.literalId)),
    (canonicalSelect [{1},{1}] controlBefore 1 .unverified 1).toOption.map (·.1.atoms.map (·.literalId))),
    by decide +kernel⟩

/-- Under one budget the added control takes the node that the selection needs. -/
theorem canonical_select_exhausted : ¬∀ (catalog catalog' added : List Cut.ControlSpec)
    (bits bits' : List (String × ℤ)) (atoms atoms' : AtomTable) (clauses clauses' : List Clause) (k : ℕ)
    (m : Minimality) (budget : ℤ), catalog'.Perm (added++catalog) →
    AtomTable.fromCatalog catalog bits = .ok atoms → AtomTable.fromCatalog catalog' bits' = .ok atoms' →
    SameClauses atoms clauses atoms' clauses' → IsOptimum atoms clauses [] k →
    (canonicalSelect clauses atoms k m budget).toOption.map (·.1.atoms.map (·.literalId)) =
      (canonicalSelect clauses' atoms' k m budget).toOption.map (·.1.atoms.map (·.literalId)) := by
  intro hall
  exact oneNode.2 (hall _ _ _ _ _ _ _ _ _ _ .unverified 1 controlAdded oneControl_catalog controlBefore_catalog
    oneControl_same oneControl_optimum)

end Spectra
