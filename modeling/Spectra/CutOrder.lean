import Spectra.MinimumCuts

/-! The order of the cut tie-break on minimum cuts: the first control two of them raise differently
decides, and the one that raises it higher comes first. -/
namespace Spectra

variable {atoms : AtomTable} {clauses : List Clause}

theorem AtomTable.controls_ascending : atoms.controls.Pairwise (· < ·) := by
  have hle : (atoms.literals.map (·.controlId)).Pairwise (· ≤ ·) := by
    have h := atoms.ascending
    rw [List.pairwise_map] at h ⊢
    exact h.imp fun hab => Prod.Lex.monotone_fst_ofLex hab.le
  rw [controls_eq_dedup]
  exact ((hle.sublist (List.dedup_sublist _)).and (List.nodup_dedup _)).imp fun h =>
    lt_of_le_of_ne h.1 h.2

/-- The first control at which two functions that agree off the table differ. -/
theorem exists_first_difference {α : Type*} {f g : ControlId → α}
    (hoff : ∀ c, c ∉ atoms.controls → f c = g c) (h : f ≠ g) :
    ∃ c ∈ atoms.controls, f c ≠ g c ∧ ∀ d < c, f d = g d := by
  classical
  have hne : (atoms.controls.toFinset.filter fun c => f c ≠ g c).Nonempty := by
    obtain ⟨c,hc⟩ := Function.ne_iff.mp h
    have hmem : c ∈ atoms.controls := by
      by_contra hn
      exact hc (hoff c hn)
    exact ⟨c,by simpa [hmem] using hc⟩
  obtain ⟨hmem,hdiff⟩ := Finset.mem_filter.mp (Finset.min'_mem _ hne)
  refine ⟨_,List.mem_toFinset.mp hmem,hdiff,fun d hd => ?_⟩
  by_contra hn
  have hdc : d ∈ atoms.controls := by
    by_contra hoff'
    exact hn (hoff d hoff')
  exact hd.not_ge (Finset.min'_le _ d (by simpa [hdc] using hn))

/-! ### Earlier controls -/

theorem placesFrom_lt {s t : Finset ControlId} {c : ControlId} (rest : List ControlId)
    (hasc : rest.Pairwise (· < ·)) (hc : c ∈ rest) (hagree : ∀ d < c, d ∈ s ↔ d ∈ t) (hs : c ∈ s)
    (ht : c ∉ t) (hlater : ∃ d ∈ rest, c < d ∧ d ∈ t) (place : ℕ) :
    placesFrom s place rest < placesFrom t place rest := by
  induction rest generalizing place with
  | nil => cases hc
  | cons control rest ih =>
    obtain ⟨hfirst,hasc⟩ := List.pairwise_cons.mp hasc
    obtain ⟨d,hd,hcd,hdt⟩ := hlater
    rcases List.mem_cons.mp hc with rfl | hc
    · have hd : d ∈ rest := (List.mem_cons.mp hd).resolve_left fun he => hcd.ne' he
      rw [placesFrom,if_pos hs,placesFrom,if_neg ht]
      have hne : placesFrom t (place+1) rest ≠ [] := by
        intro hnil
        have hlength := placesFrom_length (s := t) rest (place+1)
        rw [hnil,List.length_nil] at hlength
        have hmem : d ∈ rest.filter (· ∈ t) := by simp [hd,hdt]
        rw [List.length_eq_zero_iff.mp hlength.symm] at hmem
        cases hmem
      obtain ⟨i,l,hl⟩ := List.exists_cons_of_ne_nil hne
      have hi := placesFrom_ge (s := t) rest i (by rw [hl]; simp)
      rw [hl]
      exact List.Lex.rel (by omega)
    · have hd : d ∈ rest := by
        refine (List.mem_cons.mp hd).resolve_left fun he => ?_
        exact absurd (hfirst c hc) (by rw [← he]; exact hcd.asymm)
      have hrest := ih hasc hc ⟨d,hd,hcd,hdt⟩ (place+1)
      rw [placesFrom,placesFrom]
      simp only [hagree control (hfirst c hc)]
      split
      · exact List.Lex.cons hrest
      · exact hrest

/-- Of two sets with as many controls, the one that has the first control they differ in is earlier. -/
theorem indices_lt {s t : Finset ControlId} {c : ControlId} (hcontrols : t ⊆ atoms.controls.toFinset)
    (hcard : s.card ≤ t.card) (hc : c ∈ atoms.controls) (hagree : ∀ d < c, d ∈ s ↔ d ∈ t) (hs : c ∈ s)
    (ht : c ∉ t) : atoms.indices s < atoms.indices t := by
  refine placesFrom_lt _ AtomTable.controls_ascending hc hagree hs ht ?_ 0
  by_contra hn
  push Not at hn
  have hsub : t ⊂ s := by
    refine Finset.ssubset_iff_subset_ne.mpr ⟨fun d hd => ?_,fun he => ht (he ▸ hs)⟩
    rcases lt_trichotomy d c with hlt | rfl | hgt
    · exact (hagree d hlt).mpr hd
    · exact absurd hd ht
    · exact absurd hd (hn d (List.mem_toFinset.mp (hcontrols hd)) hgt)
  have := Finset.card_lt_card hsub
  omega

/-! ### Higher levels -/

/-- Sublists of an ascending list, at the first member that only one of them has. -/
theorem filter_map_lt {α : Type*} {key : α → ℕ} {before after : List α} {a : α} {p q : α → Bool}
    (hagree : ∀ b ∈ before, p b = q b) (hp : p a = true) (hq : q a = false)
    (hasc : ∀ b ∈ after, key a < key b) (hlater : ∃ b ∈ after, q b = true) :
    ((before++a::after).filter p).map key < ((before++a::after).filter q).map key := by
  rw [List.filter_append,List.filter_append,List.filter_congr hagree,List.filter_cons_of_pos hp,
    List.filter_cons_of_neg (by simp [hq]),List.map_append,List.map_append]
  refine List.append_left_lt ?_
  obtain ⟨b,hb,hqb⟩ := hlater
  have hmem : b ∈ after.filter q := List.mem_filter.mpr ⟨hb,hqb⟩
  obtain ⟨d,l,hl⟩ := List.exists_cons_of_ne_nil (List.ne_nil_of_mem hmem)
  have hd : d ∈ after := List.mem_of_mem_filter (hl ▸ List.mem_cons_self)
  rw [hl]
  exact List.Lex.rel (hasc d hd)

/-- Of two minimum cuts the one that raises higher the first control they raise differently has the
smaller rank vector. -/
theorem MinimumCut.ranks_lt {σ τ : Assignment atoms} (hσ : MinimumCut clauses σ)
    (hτ : MinimumCut clauses τ) {c : ControlId} (hagree : ∀ d < c, σ.level d = τ.level d)
    (hlt : τ.level c < σ.level c) :
    (atoms.literalsAt σ.level).map (·.rank) < (atoms.literalsAt τ.level).map (·.rank) := by
  obtain ⟨a,ha,rfl,hal⟩ := AtomTable.exists_literal (Nat.le_add_left 1 (τ.level c))
    (hlt.trans_le (σ.admissible c))
  obtain ⟨before,after,hsplit⟩ := List.append_of_mem ha
  have hasc := atoms.ascending
  rw [hsplit,List.map_append,List.map_cons,List.pairwise_append,List.pairwise_cons] at hasc
  obtain ⟨-,⟨hafter,-⟩,hbefore⟩ := hasc
  have hranks := atoms.ranks_ascending
  rw [hsplit,List.map_append,List.map_cons,List.pairwise_append,List.pairwise_cons] at hranks
  unfold AtomTable.literalsAt
  rw [hsplit]
  refine filter_map_lt (fun b hb => ?_) (by simp; omega) (by simp; omega)
    (fun b hb => hranks.2.1.1 _ (List.mem_map_of_mem hb)) ?_
  · -- a literal before `a` is of an earlier control, or of the same one at a level both have
    have hlex := hbefore _ (List.mem_map_of_mem hb) _ List.mem_cons_self
    rw [Prod.Lex.toLex_lt_toLex] at hlex
    rcases hlex with hlt' | ⟨heq,hlevel⟩
    · rw [hagree _ hlt']
    · simp only at heq hlevel
      rw [heq,decide_eq_true (by omega : b.level ≤ σ.level a.controlId),
        decide_eq_true (by omega : b.level ≤ τ.level a.controlId)]
  · -- the other cut raises a later control, or `σ` could be lowered
    by_contra hn
    push Not at hn
    have hnone : ∀ d, a.controlId < d → τ.level d = 0 := by
      intro d hd
      by_contra hne
      have hpos := Nat.one_le_iff_ne_zero.mpr hne
      obtain ⟨b,hb,rfl,hbl⟩ := AtomTable.exists_literal le_rfl (hpos.trans (τ.admissible d))
      rw [hsplit] at hb
      rcases List.mem_append.mp hb with hb | hb
      · have hlex := hbefore _ (List.mem_map_of_mem hb) _ List.mem_cons_self
        rcases (Prod.Lex.toLex_lt_toLex).mp hlex with hlt' | ⟨heq,-⟩
        · exact hd.asymm hlt'
        · exact hd.ne' heq
      · rcases List.mem_cons.mp hb with rfl | hb
        · exact lt_irrefl _ hd
        · exact hn b hb (by simpa [hbl] using hpos)
    have hle : ∀ d, d ≠ a.controlId → τ.level d ≤ σ.level d := by
      intro d hd
      rcases lt_or_gt_of_ne hd with hlt' | hgt
      · exact (hagree d hlt').ge
      · rw [hnone d hgt]; exact Nat.zero_le _
    have hsub : τ.raised ⊆ σ.raised := by
      intro d hd
      have hd := (AtomTable.mem_raised.mp hd).2
      by_cases he : d = a.controlId
      · rw [he]; exact raised_of_level (by omega)
      · exact raised_of_level (hd.trans (hle d he))
    have hsame := Finset.eq_of_subset_of_card_le hsub (hσ.least _ hτ.hits.hitting_raised)
    have hin : a.controlId ∈ σ.raised := raised_of_level (by omega)
    rw [← hsame] at hin
    have hpos := (AtomTable.mem_raised.mp hin).2
    refine hσ.lowest a.controlId (by omega) (hτ.hits.mono fun d => ?_)
    by_cases hd : d = a.controlId
    · simp only [hd,Assignment.lower,Function.update_self]; omega
    · simpa only [Assignment.lower,Function.update_of_ne hd] using hle d hd

/-! ### The canonical cut among the minimum cuts -/

/-- The earliest controls of any minimum-cardinality set that hits every clause, at the lowest levels. -/
structure EarliestLowest (clauses : List Clause) (σ : Assignment atoms) : Prop where
  hits : σ.HitsAll clauses
  least : ∀ s, HittingSet atoms clauses s → σ.raised.card ≤ s.card
  earliest : ∀ s, HittingSet atoms clauses s → s.card = σ.raised.card →
    atoms.indices σ.raised ≤ atoms.indices s
  lowest : ∀ τ : Assignment atoms, τ.raised = σ.raised → τ.HitsAll clauses →
    σ.vector σ.raised ≤ τ.vector σ.raised

/-- `τ` leaves the levels before some control that `σ` raises, and raises that control higher. -/
def Assignment.Overtakes (τ σ : Assignment atoms) : Prop :=
  ∃ c, 1 ≤ σ.level c ∧ σ.level c < τ.level c ∧ ∀ d < c, τ.level d = σ.level d

theorem CanonicalCut.earliestLowest {k : ℕ} {cut : Cut} {σ : Assignment atoms}
    (hopt : IsOptimum atoms clauses [] k) (h : CanonicalCut atoms clauses k cut σ) :
    EarliestLowest clauses σ where
  hits := h.renders.hits
  least s hs := h.card ▸ hopt.least s hs (by simp)
  earliest s hs hcard := h.earliest s hs (hcard.trans h.card)
  lowest τ hτ hhits := h.lowest τ hτ.subset hhits

theorem CanonicalCut.minimumCut {k : ℕ} {cut : Cut} {σ : Assignment atoms}
    (hopt : IsOptimum atoms clauses [] k) (h : CanonicalCut atoms clauses k cut σ) :
    MinimumCut clauses σ where
  hits := h.renders.hits
  lowest c hc := by
    refine h.stepless c (raised_of_level hc.le) _ (fun d hd => ?_) ?_
    · simp [Assignment.lower,Function.update_of_ne hd]
    · simp only [Assignment.lower,Function.update_self]; omega
  least s hs := h.card ▸ hopt.least s hs (by simp)

theorem raised_off {σ : Assignment atoms} {c : ControlId} (h : c ∉ atoms.controls) : c ∉ σ.raised :=
  fun hc => h (AtomTable.mem_raised.mp hc).1

theorem EarliestLowest.raised_subset {σ τ : Assignment atoms} (hσ : EarliestLowest clauses σ)
    (hτ : EarliestLowest clauses τ) {c : ControlId} (hc : c ∈ atoms.controls)
    (hagree : ∀ d < c, d ∈ σ.raised ↔ d ∈ τ.raised) (hs : c ∈ σ.raised) : c ∈ τ.raised := by
  by_contra ht
  have hcard : σ.raised.card = τ.raised.card :=
    le_antisymm (hσ.least _ hτ.hits.hitting_raised) (hτ.least _ hσ.hits.hitting_raised)
  exact (indices_lt (Finset.filter_subset _ _) hcard.le hc hagree hs ht).not_ge
    (hτ.earliest _ hσ.hits.hitting_raised hcard)

/-- There is one such choice of levels. -/
theorem EarliestLowest.unique {σ τ : Assignment atoms} (hσ : EarliestLowest clauses σ)
    (hτ : EarliestLowest clauses τ) : σ.level = τ.level := by
  have hraised : σ.raised = τ.raised := by
    by_contra hne
    obtain ⟨c,hc,hdiff,hagree⟩ := @exists_first_difference atoms _ (· ∈ σ.raised) (· ∈ τ.raised)
      (fun c hc => propext ⟨fun h => absurd h (raised_off hc),fun h => absurd h (raised_off hc)⟩)
      fun he => hne (Finset.ext fun c => iff_of_eq (congrFun he c))
    have hagree : ∀ d < c, d ∈ σ.raised ↔ d ∈ τ.raised := fun d hd => iff_of_eq (hagree d hd)
    exact hdiff (propext ⟨hσ.raised_subset hτ hc hagree,
      hτ.raised_subset hσ hc fun d hd => (hagree d hd).symm⟩)
  have hvector : σ.vector σ.raised = τ.vector σ.raised :=
    le_antisymm (hσ.lowest τ hraised.symm hτ.hits) (by
      rw [hraised]; exact hτ.lowest σ hraised hσ.hits)
  funext c
  by_cases hc : c ∈ σ.raised
  · have hin : c ∈ atoms.controls.filter (· ∈ σ.raised) := by
      simpa [hc] using (AtomTable.mem_raised.mp hc).1
    exact List.map_inj_left.mp hvector c hin
  · have hσ0 := mt raised_of_level hc
    have hτ0 := mt raised_of_level (hraised ▸ hc)
    omega

/-- The key of a cut from minimum levels, where its order is decided. -/
theorem compareKey_le {σ τ : Assignment atoms} (hσ : MinimumCut clauses σ) (hτ : MinimumCut clauses τ)
    {m m' : Minimality} {cut cut' : Cut} (hcut : atoms.cutOfLevels σ.level m = .ok cut)
    (hcut' : atoms.cutOfLevels τ.level m' = .ok cut') (hle : cut.compareKey ≤ cut'.compareKey) :
    (atoms.literalsAt σ.level).map (·.rank) ≤ (atoms.literalsAt τ.level).map (·.rank) := by
  obtain ⟨c,hc,hca,hcc,-⟩ := @AtomTable.cutOfLevels_ok atoms σ.level m
  obtain ⟨c',hc',hca',hcc',-⟩ := @AtomTable.cutOfLevels_ok atoms τ.level m'
  obtain rfl := Except.ok.inj (hcut.symm.trans hc)
  obtain rfl := Except.ok.inj (hcut'.symm.trans hc')
  have hcard : cut.cardinality = cut'.cardinality := by
    rw [hcc,hcc']
    exact le_antisymm (hσ.least _ hτ.hits.hitting_raised) (hτ.least _ hσ.hits.hitting_raised)
  simp only [Cut.compareKey,Prod.Lex.toLex_le_toLex,hcard,lt_irrefl,false_or,true_and,hca,hca'] at hle
  rcases hle with hlt | ⟨heq,-⟩
  · exact hlt.le
  · exact heq.le

/-- The canonical selection returns the first of all minimum cuts, but for the label, exactly when no
level-minimal minimum cut leaves the levels of the earliest and lowest one before some control that it
raises and raises that control higher. -/
theorem canonical_select_first_iff {k : ℕ} (hopt : IsOptimum atoms clauses [] k)
    {minimality : Minimality} {budget : ℤ} {cut : Cut} {nodes : ℕ}
    (h : canonicalSelect clauses atoms k minimality budget = .ok (cut,nodes)) :
    (∃ first rest, allMinimumCuts clauses atoms = .ok (first::rest) ∧
      first.toCutFields = {cut.toCutFields with minimality := .unverified}) ↔
    ∀ σ τ : Assignment atoms, EarliestLowest clauses σ → MinimumCut clauses τ → ¬τ.Overtakes σ := by
  rcases canonicalSelect_cases hopt minimality budget with ⟨e,he,-⟩ | ⟨cut₀,n,κ,hcut₀,hcanonical,-⟩
  · cases h.symm.trans he
  obtain ⟨rfl,rfl⟩ := Prod.mk.inj (Except.ok.inj (h.symm.trans hcut₀))
  have hr := hcanonical.renders
  have hearliest := hcanonical.earliestLowest hopt
  have hκ := hcanonical.minimumCut hopt
  obtain ⟨cuts,hcuts,hsorted,hfound,hall⟩ := allMinimumCuts_spec hκ
  -- the fields of a cut of the same levels are those of the selected one
  have hfields : ∀ {τ : Assignment atoms} {first : Cut}, τ.level = κ.level →
      atoms.cutOfLevels τ.level .unverified = .ok first →
      first.toCutFields = {cut.toCutFields with minimality := .unverified} := by
    intro τ first heq hfirst
    obtain ⟨c,hc,hca,hcc,hcm,hcmin⟩ := @AtomTable.cutOfLevels_ok atoms τ.level .unverified
    obtain rfl := Except.ok.inj (hfirst.symm.trans hc)
    change (⟨first.atoms,first.cardinality,first.mask,first.minimality⟩ : CutFields) =
      ⟨cut.atoms,cut.cardinality,cut.mask,.unverified⟩
    rw [hca,hcc,hcm,hcmin,heq,hr.literals,hr.cardinality,hr.mask]
    rfl
  have hhead : ∀ {first : Cut} {rest : List Cut}, cuts = first::rest → ∀ cut' ∈ cuts,
      first.compareKey ≤ cut'.compareKey := by
    rintro first rest rfl cut' hcut'
    rcases List.mem_cons.mp hcut' with rfl | hcut'
    · exact le_rfl
    · exact (List.pairwise_cons.mp hsorted).1 cut' hcut'
  obtain ⟨own,hown,hownlevels⟩ := hall κ hκ
  constructor
  · rintro ⟨first,rest,hlist,hfirst⟩ σ τ hσ hτ ⟨c,-,hlt,hagree⟩
    have hlist := Except.ok.inj (hcuts.symm.trans hlist)
    rw [hσ.unique hearliest] at hlt hagree
    obtain ⟨cut',hcut',hlevels⟩ := hall τ hτ
    obtain ⟨ρ,hρ,hρfirst⟩ := hfound first (by rw [hlist]; simp)
    have hle := compareKey_le hρ hτ hρfirst hlevels (hhead hlist cut' hcut')
    obtain ⟨c',hc',hca',-⟩ := @AtomTable.cutOfLevels_ok atoms ρ.level .unverified
    obtain rfl := Except.ok.inj (hρfirst.symm.trans hc')
    rw [← hca',congrArg CutFields.atoms hfirst,hr.literals] at hle
    exact (hτ.ranks_lt hκ hagree hlt).not_ge hle
  · intro hno
    obtain ⟨first,rest,rfl⟩ := List.exists_cons_of_ne_nil (List.ne_nil_of_mem hown)
    obtain ⟨ρ,hρ,hρfirst⟩ := hfound first (by simp)
    refine ⟨first,rest,hcuts,hfields ?_ hρfirst⟩
    by_contra hne
    obtain ⟨c,hc,hdiff,hagree⟩ := @exists_first_difference atoms _ ρ.level κ.level
      (fun c hc => by rw [Assignment.level_off hc,Assignment.level_off hc]) hne
    rcases lt_or_gt_of_ne hdiff with hlt | hgt
    · -- the selected cut would come first
      have hle := compareKey_le hρ hκ hρfirst hownlevels (hhead rfl own hown)
      exact (hκ.ranks_lt hρ (fun d hd => (hagree d hd).symm) hlt).not_ge hle
    · by_cases hpos : 1 ≤ κ.level c
      · exact hno κ ρ hearliest hρ ⟨c,hpos,hgt,hagree⟩
      · -- a control the selected cut skips would make these controls earlier
        have hsame : ∀ d < c, d ∈ ρ.raised ↔ d ∈ κ.raised := by
          intro d hd
          simp only [Assignment.raised,AtomTable.mem_raised,hagree d hd]
        have hle := hκ.least _ hρ.hits.hitting_raised
        have hge := hρ.least _ hκ.hits.hitting_raised
        exact (indices_lt (Finset.filter_subset _ _) hge hc hsame (raised_of_level (by omega))
          fun hin => hpos (AtomTable.mem_raised.mp hin).2).not_ge
          (hearliest.earliest _ hρ.hits.hitting_raised (le_antisymm hge hle))

theorem optimum_of_solve {k : ℕ} {budget : ℤ}
    (h : (minCardinality clauses atoms budget []).value = some k) : IsOptimum atoms clauses [] k := by
  rcases minCardinality_spec clauses atoms budget [] with hs | ⟨hs,-⟩ | ⟨-,v,hv,hopt⟩
  · have hnone : (minCardinality clauses atoms budget []).value = none := by
      unfold minCardinality at hs ⊢
      split
      · rfl
      · dsimp only at hs ⊢
        split <;> simp_all
    cases h.symm.trans hnone
  · cases h.symm.trans (infeasible_value hs)
  · obtain rfl := Option.some.inj (h.symm.trans hv)
    exact hopt

theorem canonical_select_first_iff_twoLevels : IsOptimum twoLevels [{1},{1,2}] [] 1 ∧ ∃ cut nodes,
    canonicalSelect [{1},{1,2}] twoLevels 1 .unverified stepBudget = .ok (cut,nodes) ∧
    ((∃ first rest, allMinimumCuts [{1},{1,2}] twoLevels = .ok (first::rest) ∧
      first.toCutFields = {cut.toCutFields with minimality := .unverified}) ↔
    ∀ σ τ : Assignment twoLevels, EarliestLowest [{1},{1,2}] σ → MinimumCut [{1},{1,2}] τ →
      ¬τ.Overtakes σ) := by
  obtain ⟨r,hr⟩ := canonicalSelect_returns optimum_twoLevels .unverified (by decide : _ ≤ stepBudget)
  exact ⟨optimum_twoLevels,r.1,r.2,hr,canonical_select_first_iff optimum_twoLevels hr⟩

/-- A control of two levels, and two of one. -/
def stepAndTwo : AtomTable :=
  ⟨[⟨"ctl:a",1,0,0,level_one,bit_zero,rank_zero⟩,⟨"ctl:a",2,1,1,level_two,bit_one,rank_one⟩,
    ⟨"ctl:b",1,2,2,level_one,bit_two,rank_two⟩,⟨"ctl:c",1,3,3,level_one,bit_three,rank_three⟩],
    by decide⟩

def stepAndTwoSolve : {r : MinCardinality // r.value = some 2} :=
  ⟨minCardinality [{0},{1,2},{2,3}] stepAndTwo 100 [],by decide +kernel⟩

def stepAndTwoSelected := returned (canonicalSelect [{0},{1,2},{2,3}] stepAndTwo 2 .unverified 100)
  (fun r => decide (r.1.atoms.map (·.rank) = [0,2])) (by decide +kernel)

def stepAndTwoCuts := returned (allMinimumCuts [{0},{1,2},{2,3}] stepAndTwo)
  (fun cuts => decide (cuts.map (·.atoms.map (·.rank)) = [[0,1,3],[0,2]])) (by decide +kernel)

/-- `ctl:a` at its first level with `ctl:b` is selected, and at its second with `ctl:c` comes first. -/
theorem canonical_select_not_first : ¬∀ (clauses : List Clause) (atoms : AtomTable) (k : ℕ)
    (minimality : Minimality) (budget : ℤ) (cut : Cut) (nodes : ℕ), IsOptimum atoms clauses [] k →
    canonicalSelect clauses atoms k minimality budget = .ok (cut,nodes) →
    ∃ first rest, allMinimumCuts clauses atoms = .ok (first::rest) ∧
      first.toCutFields = {cut.toCutFields with minimality := .unverified} := by
  intro hall
  obtain ⟨⟨cut,nodes⟩,hselect,hselected⟩ := stepAndTwoSelected
  obtain ⟨cuts,hall',hbrute⟩ := stepAndTwoCuts
  obtain ⟨first,rest,hcuts,hfirst⟩ := hall _ _ _ _ _ cut nodes (optimum_of_solve stepAndTwoSolve.2) hselect
  obtain rfl := Except.ok.inj (hall'.symm.trans hcuts)
  have hsame := congrArg (fun fields : CutFields => fields.atoms.map (·.rank)) hfirst
  simp_all

end Spectra
