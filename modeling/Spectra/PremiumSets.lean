import Spectra.CutCanonical
import Spectra.PremiumExact

/-! `NEC` and `OCC` as sets of controls: what the solver loops return within a budget, against the
hitting sets of least cardinality. -/
namespace Spectra

variable {atoms : AtomTable} {clauses : List Clause}

/-- A set of controls that hits every clause with as few controls as any. -/
structure MinimumHitting (atoms : AtomTable) (clauses : List Clause) (s : Finset ControlId) : Prop where
  hits : HittingSet atoms clauses s
  least : ∀ t, HittingSet atoms clauses t → s.card ≤ t.card

theorem MinimumHitting.full {s : Finset ControlId} (h : MinimumHitting atoms clauses s) :
    MinHitting atoms clauses (Assignment.full atoms s) := by
  refine ⟨h.hits.full_hitsAll,fun τ hτ => ?_⟩
  rw [Assignment.raised_full h.hits.1]
  exact h.least _ hτ.hitting_raised

theorem MinHitting.raised {σ : Assignment atoms} (h : MinHitting atoms clauses σ) :
    MinimumHitting atoms clauses σ.raised := by
  refine ⟨h.holds.hitting_raised,fun t ht => ?_⟩
  have := h.least _ ht.full_hitsAll
  rwa [Assignment.raised_full ht.1] at this

theorem exists_minimumHitting (h : ∃ s, HittingSet atoms clauses s) :
    ∃ s, MinimumHitting atoms clauses s := by
  obtain ⟨s₀,hs₀⟩ := h
  have hex : ∃ n s, HittingSet atoms clauses s ∧ s.card = n := ⟨_,s₀,hs₀,rfl⟩
  classical
  obtain ⟨s,hs,hcard⟩ := Nat.find_spec hex
  exact ⟨s,hs,fun t ht => hcard.trans_le (Nat.find_min' hex ⟨t,ht,rfl⟩)⟩

/-- A set in terms of assignments is one in terms of controls. -/
theorem forall_minHitting_iff {c : ControlId} (h : ∃ s, HittingSet atoms clauses s) :
    (c ∈ atoms.controls ∧ ∀ σ, MinHitting atoms clauses σ → c ∈ σ.raised) ↔
      ∀ s, MinimumHitting atoms clauses s → c ∈ s := by
  constructor
  · rintro ⟨-,hall⟩ s hs
    have := hall _ hs.full
    rwa [Assignment.raised_full hs.hits.1] at this
  · intro hall
    obtain ⟨s,hs⟩ := exists_minimumHitting h
    exact ⟨List.mem_toFinset.mp (hs.hits.1 (hall s hs)),fun σ hσ => hall _ hσ.raised⟩

theorem exists_minHitting_iff {c : ControlId} :
    (c ∈ atoms.controls ∧ ∃ σ, MinHitting atoms clauses σ ∧ c ∈ σ.raised) ↔
      ∃ s, MinimumHitting atoms clauses s ∧ c ∈ s := by
  constructor
  · rintro ⟨-,σ,hσ,hc⟩
    exact ⟨_,hσ.raised,hc⟩
  · rintro ⟨s,hs,hc⟩
    refine ⟨List.mem_toFinset.mp (hs.hits.1 hc),_,hs.full,?_⟩
    rwa [Assignment.raised_full hs.hits.1]

/-! ### Budgets -/

/-- The nodes any one solve over the table stays within. -/
def solveNodes (atoms : AtomTable) : ℕ := 2^atoms.controls.length

theorem probe_within {budget : ℤ} {spent rest : ℕ}
    (hb : ((spent+(solveNodes atoms+rest) : ℕ) : ℤ) ≤ budget) (excluded : List ControlId) :
    (minCardinality clauses atoms (budget-spent) excluded).status ≠ .budgetExhausted ∧
      ((spent+(minCardinality clauses atoms (budget-spent) excluded).nodes+rest : ℕ) : ℤ) ≤ budget ∧
      (minCardinality clauses atoms (budget-spent) excluded).nodes ≤ solveNodes atoms := by
  have hroom : ((2^atoms.controls.length : ℕ) : ℤ) ≤ budget-spent := by
    change (solveNodes atoms : ℤ) ≤ _
    omega
  obtain ⟨hstatus,hnodes⟩ := @minCardinality_within atoms clauses _ hroom excluded
  have hnodes : (minCardinality clauses atoms (budget-spent) excluded).nodes ≤ solveNodes atoms := hnodes
  exact ⟨hstatus,by omega,hnodes⟩

theorem baseline_within {budget : ℤ} {rest : ℕ} (hb : ((solveNodes atoms+rest : ℕ) : ℤ) ≤ budget) :
    (minCardinality clauses atoms budget []).status ≠ .budgetExhausted ∧
      (((minCardinality clauses atoms budget []).nodes+rest : ℕ) : ℤ) ≤ budget ∧
      (minCardinality clauses atoms budget []).nodes ≤ solveNodes atoms := by
  simpa using @probe_within atoms clauses budget 0 rest (by simpa using hb) []

theorem necessaryLoop_within {budget : ℤ} {v : ℕ} (rest : List ControlId) {spent solves : ℕ}
    {found : List ControlId} (hb : ((spent+rest.length*solveNodes atoms : ℕ) : ℤ) ≤ budget) :
    (necessaryLoop clauses atoms budget v rest spent solves found).exhausted = false ∧
      (necessaryLoop clauses atoms budget v rest spent solves found).nodes ≤
        spent+rest.length*solveNodes atoms := by
  induction rest generalizing spent solves found with
  | nil => simp [necessaryLoop]
  | cons c rest ih =>
    have hsplit : (c::rest).length*solveNodes atoms = solveNodes atoms+rest.length*solveNodes atoms := by
      rw [List.length_cons]; ring
    rw [hsplit] at hb ⊢
    obtain ⟨hstatus,hroom,hnodes⟩ := @probe_within atoms clauses _ _ _ hb [c]
    have hrest : ∀ solves found, _ := fun solves found => @ih _ solves found hroom
    simp only [necessaryLoop]
    split
    · exact absurd ‹_› hstatus
    · exact ⟨(hrest _ _).1,(hrest _ _).2.trans (by omega)⟩
    · exact ⟨(hrest _ _).1,(hrest _ _).2.trans (by omega)⟩

theorem occursAt_within {budget : ℤ} {v : ℕ} {control : ControlId} (levels : List ℕ)
    {spent solves : ℕ} (hb : ((spent+levels.length*solveNodes atoms : ℕ) : ℤ) ≤ budget) :
    ∃ occurs nodes solves', occursAt clauses atoms budget v control levels spent solves =
      (some occurs,nodes,solves') ∧ nodes ≤ spent+levels.length*solveNodes atoms := by
  induction levels generalizing spent solves with
  | nil => exact ⟨_,_,_,rfl,by simp⟩
  | cons level levels ih =>
    have hsplit : (level::levels).length*solveNodes atoms =
        solveNodes atoms+levels.length*solveNodes atoms := by
      rw [List.length_cons]; ring
    rw [hsplit] at hb ⊢
    obtain ⟨hstatus,hroom,hnodes⟩ :=
      @probe_within atoms (keptClauses clauses atoms control level) _ _ _ hb [control]
    obtain ⟨occurs,nodes,solves',hr,hle⟩ := @ih _ (solves+1) hroom
    simp only [occursAt]
    split
    · exact absurd ‹_› hstatus
    · split
      · exact ⟨_,_,_,rfl,by omega⟩
      · exact ⟨occurs,nodes,solves',hr,by omega⟩
    · exact ⟨occurs,nodes,solves',hr,by omega⟩

/-- The literals of some controls, one probe each. -/
def probesOf (atoms : AtomTable) (rest : List ControlId) : ℕ := (rest.map atoms.maxLevel).sum

theorem occurringLoop_within {budget : ℤ} {v : ℕ} (rest : List ControlId) {spent solves : ℕ}
    {found : List ControlId}
    (hb : ((spent+probesOf atoms rest*solveNodes atoms : ℕ) : ℤ) ≤ budget) :
    (occurringLoop clauses atoms budget v rest spent solves found).exhausted = false ∧
      (occurringLoop clauses atoms budget v rest spent solves found).nodes ≤
        spent+probesOf atoms rest*solveNodes atoms := by
  induction rest generalizing spent solves found with
  | nil => simp [occurringLoop]
  | cons c rest ih =>
    have hsplit : probesOf atoms (c::rest)*solveNodes atoms =
        atoms.maxLevel c*solveNodes atoms+probesOf atoms rest*solveNodes atoms := by
      rw [probesOf,List.map_cons,List.sum_cons,add_mul,probesOf]
    rw [hsplit] at hb ⊢
    obtain ⟨occurs,nodes,solves',hr,hle⟩ := @occursAt_within atoms clauses budget v c
      (List.range' 1 (atoms.maxLevel c)) spent solves (by rw [List.length_range']; omega)
    rw [List.length_range'] at hle
    have hrest : ∀ found, _ := fun found => @ih nodes solves' found (by omega)
    simp only [occurringLoop,hr]
    exact ⟨(hrest _).1,(hrest _).2.trans (by omega)⟩

/-! ### Publication -/

theorem necessaryLoop_sublist {budget : ℤ} {v : ℕ} (rest : List ControlId) {spent solves : ℕ}
    {found : List ControlId} :
    (necessaryLoop clauses atoms budget v rest spent solves found).controls.Sublist (found++rest) := by
  induction rest generalizing spent solves found with
  | nil => simp [necessaryLoop]
  | cons c rest ih =>
    have hkeep : found++c::rest = found++[c]++rest := by simp
    have hdrop : (found++rest).Sublist (found++c::rest) :=
      (List.Sublist.refl _).append (List.sublist_cons_self c rest)
    simp only [necessaryLoop]
    split
    · exact List.nil_sublist _
    · split
      · rw [hkeep]; exact ih
      · exact ih.trans hdrop
    · rw [hkeep]; exact ih

theorem occurringLoop_sublist {budget : ℤ} {v : ℕ} (rest : List ControlId) {spent solves : ℕ}
    {found : List ControlId} :
    (occurringLoop clauses atoms budget v rest spent solves found).controls.Sublist (found++rest) := by
  induction rest generalizing spent solves found with
  | nil => simp [occurringLoop]
  | cons c rest ih =>
    have hkeep : found++c::rest = found++[c]++rest := by simp
    have hdrop : (found++rest).Sublist (found++c::rest) :=
      (List.Sublist.refl _).append (List.sublist_cons_self c rest)
    simp only [occurringLoop]
    split
    · exact List.nil_sublist _
    · split
      · rw [hkeep]; exact ih
      · exact ih.trans hdrop

/-- What a loop found is published: its controls are distinct. -/
theorem Solves.publish_ok {loc : String} {s : Solves} (h : s.controls.Sublist atoms.controls) :
    ∃ s', s.publish loc = .ok s' ∧ s'.exhausted = s.exhausted ∧ s'.nodes = s.nodes ∧
      (s.exhausted = false → s'.controls.Pairwise (· < ·)) := by
  unfold Solves.publish
  split
  · rename_i he
    exact ⟨s,rfl,rfl,rfl,fun hf => absurd he (by simp [hf])⟩
  · have hnodup : (s.controls.insertionSort (· ≤ ·)).Nodup :=
      (List.perm_insertionSort _ _).nodup_iff.mpr (AtomTable.controls_nodup.sublist h)
    have hascending : (s.controls.insertionSort (· ≤ ·)).Pairwise (· < ·) :=
      ((List.pairwise_insertionSort (· ≤ ·) s.controls).and hnodup).imp fun hle =>
        lt_of_le_of_ne hle.1 hle.2
    dsimp only
    rw [checkStrictlyAscending_ok.mpr hascending]
    exact ⟨_,rfl,rfl,rfl,fun _ => hascending⟩

/-- A run that was not cut short returned exactly the controls with a property, ascending. -/
def Solves.Exactly (s : Solves) (q : ControlId → Prop) : Prop :=
  s.exhausted = false → s.controls.Pairwise (· < ·) ∧ ∀ c, c ∈ s.controls ↔ q c

/-- The run spends at most some nodes, and is not cut short where the budget has them. -/
def Solves.Within (s : Solves) (nodes : ℕ) (budget : ℤ) : Prop :=
  (nodes : ℤ) ≤ budget → s.exhausted = false ∧ s.nodes ≤ nodes

/-- The first solve, over all controls, of a database that some controls hit. -/
theorem baseline_cases (hsat : ∃ s, HittingSet atoms clauses s) (budget : ℤ) :
    (minCardinality clauses atoms budget []).status = .budgetExhausted ∨
      (minCardinality clauses atoms budget []).status = .exact ∧
        ∃ v, (minCardinality clauses atoms budget []).value = some v := by
  rcases minCardinality_spec clauses atoms budget [] with hs | ⟨-,hno⟩ | ⟨hs,v,hv,-⟩
  · exact .inl hs
  · obtain ⟨s,hs⟩ := hsat
    exact absurd (by simp) (hno s hs)
  · exact .inr ⟨hs,v,hv⟩

variable {psi : Psi}

theorem necessaryControls_exact (hsat : ∃ s, HittingSet atoms psi.clauses s) (budget : ℤ) :
    ∃ nec, necessaryControls psi atoms budget = .ok nec ∧
      nec.Exactly (fun c => ∀ s, MinimumHitting atoms psi.clauses s → c ∈ s) ∧
      nec.Within ((1+atoms.controls.length)*solveNodes atoms) budget := by
  have hmul : (1+atoms.controls.length)*solveNodes atoms =
      solveNodes atoms+atoms.controls.length*solveNodes atoms := by ring
  rw [hmul]
  suffices hrun : ∃ nec, necessaryControls psi atoms budget = .ok nec ∧
      (nec.exhausted = false → nec.controls.Pairwise (· < ·)) ∧
      nec.Within (solveNodes atoms+atoms.controls.length*solveNodes atoms) budget by
    obtain ⟨nec,hnec,hascending,hwithin⟩ := hrun
    exact ⟨nec,hnec,fun he => ⟨hascending he,fun c =>
      (necessaryControls_spec hnec he c).trans (forall_minHitting_iff hsat)⟩,hwithin⟩
  unfold necessaryControls
  rcases baseline_cases hsat budget with hs | ⟨hs,v,hv⟩
  · simp only [hs]
    exact ⟨_,rfl,by simp,fun hb => absurd hs (baseline_within hb).1⟩
  · simp only [hs,hv]
    obtain ⟨nec,hnec,hex,hnodes,hascending⟩ := @Solves.publish_ok atoms "necessary_controls"
      (necessaryLoop psi.clauses atoms budget v atoms.controls
        (minCardinality psi.clauses atoms budget []).nodes 1 []) (necessaryLoop_sublist _)
    refine ⟨nec,hnec,fun he => hascending (hex ▸ he),fun hb => ?_⟩
    obtain ⟨-,hroom,hspent⟩ := @baseline_within atoms psi.clauses _ _ hb
    obtain ⟨hdone,hle⟩ := @necessaryLoop_within atoms psi.clauses budget v atoms.controls _ 1 [] hroom
    exact ⟨hex.trans hdone,hnodes.trans_le (hle.trans (by omega))⟩

theorem occurringControls_exact (hsat : ∃ s, HittingSet atoms psi.clauses s) (budget : ℤ) :
    ∃ occ, occurringControls psi atoms budget = .ok occ ∧
      occ.Exactly (fun c => ∃ s, MinimumHitting atoms psi.clauses s ∧ c ∈ s) ∧
      occ.Within ((1+probesOf atoms atoms.controls)*solveNodes atoms) budget := by
  have hmul : (1+probesOf atoms atoms.controls)*solveNodes atoms =
      solveNodes atoms+probesOf atoms atoms.controls*solveNodes atoms := by ring
  rw [hmul]
  suffices hrun : ∃ occ, occurringControls psi atoms budget = .ok occ ∧
      (occ.exhausted = false → occ.controls.Pairwise (· < ·)) ∧
      occ.Within (solveNodes atoms+probesOf atoms atoms.controls*solveNodes atoms) budget by
    obtain ⟨occ,hocc,hascending,hwithin⟩ := hrun
    exact ⟨occ,hocc,fun he => ⟨hascending he,fun c =>
      (occurringControls_spec hocc he c).trans exists_minHitting_iff⟩,hwithin⟩
  unfold occurringControls
  rcases baseline_cases hsat budget with hs | ⟨hs,v,hv⟩
  · simp only [hs]
    exact ⟨_,rfl,by simp,fun hb => absurd hs (baseline_within hb).1⟩
  · simp only [hs,hv]
    obtain ⟨occ,hocc,hex,hnodes,hascending⟩ := @Solves.publish_ok atoms "occurring_controls"
      (occurringLoop psi.clauses atoms budget v atoms.controls
        (minCardinality psi.clauses atoms budget []).nodes 1 []) (occurringLoop_sublist _)
    refine ⟨occ,hocc,fun he => hascending (hex ▸ he),fun hb => ?_⟩
    obtain ⟨-,hroom,hspent⟩ := @baseline_within atoms psi.clauses _ _ hb
    obtain ⟨hdone,hle⟩ := @occurringLoop_within atoms psi.clauses budget v atoms.controls _ 1 [] hroom
    exact ⟨hex.trans hdone,hnodes.trans_le (hle.trans (by omega))⟩

/-- One database on both sides: the premium is empty, and published where nothing suppresses it. -/
theorem blindnessPremium_equal {psiMin : Psi} (hsat : ∃ s, HittingSet atoms psi.clauses s)
    (heq : ∀ c, c ∈ psiMin.clauses ↔ c ∈ psi.clauses) (hmin : psiMin.program = .pMin)
    (hmax : psi.program = .pMax) (budget : ℤ) (f₁ f₂ f₃ f₄ : Bool) :
    ∃ res, blindnessPremium psiMin psi atoms budget f₁ f₂ f₃ f₄ = .ok res ∧
      res.blindnessPremium = [] ∧
      (f₁ = false → f₂ = false → f₃ = false → f₄ = false → psiMin.complete = true →
        psi.complete = true →
        (((1+atoms.controls.length)*solveNodes atoms+
          (1+probesOf atoms atoms.controls)*solveNodes atoms : ℕ) : ℤ) ≤ budget →
        res.published = true) := by
  have hsat' : ∃ s, HittingSet atoms psiMin.clauses s :=
    hsat.imp fun s hs => (hittingSet_congr heq).mpr hs
  have hsame : ∀ s, MinimumHitting atoms psi.clauses s → MinimumHitting atoms psiMin.clauses s :=
    fun s hs => ⟨(hittingSet_congr heq).mpr hs.hits,fun t ht => hs.least t ((hittingSet_congr heq).mp ht)⟩
  obtain ⟨nec,hnec,hexact,hwithin⟩ := necessaryControls_exact hsat budget
  obtain ⟨occ,hocc,hexact',hwithin'⟩ := occurringControls_exact hsat' (budget-nec.nodes)
  unfold blindnessPremium
  rw [if_neg (by simp [hmax] : ¬psi.program ≠ .pMax),if_neg (by simp [hmin] : ¬psiMin.program ≠ .pMin),
    hnec]
  dsimp only
  rw [hocc]
  dsimp only
  split
  · exact ⟨_,rfl,rfl,fun h => absurd h (by simp_all)⟩
  · split
    · exact ⟨_,rfl,rfl,fun _ _ _ _ h h' => absurd h (by simp_all)⟩
    · split
      · exact ⟨_,rfl,rfl,fun _ h => absurd h (by simp_all)⟩
      · split
        · exact ⟨_,rfl,rfl,fun _ _ h => absurd h (by simp_all)⟩
        · split
          · exact ⟨_,rfl,rfl,fun _ _ _ h => absurd h (by simp_all)⟩
          · split
            · rename_i he
              exact ⟨_,rfl,rfl,fun _ _ _ _ _ _ hb => absurd (hwithin (by omega)).1 (by simp [he])⟩
            · rename_i he
              split
              · rename_i he'
                refine ⟨_,rfl,rfl,fun _ _ _ _ _ _ hb => ?_⟩
                have hspent := (hwithin (by omega)).2
                exact absurd (hwithin' (by omega)).1 (by simp [he'])
              · rename_i he'
                -- a control in every minimum set is in the one that exists
                have hnil : nec.controls.filter (· ∉ occ.controls) = [] := by
                  refine List.filter_eq_nil_iff.mpr fun c hc => ?_
                  obtain ⟨s,hs⟩ := exists_minimumHitting hsat
                  have hall := ((hexact (by simpa using he)).2 c).mp hc s hs
                  simpa using ((hexact' (by simpa using he')).2 c).mpr ⟨s,hsame s hs,hall⟩
                rw [hnil]
                exact ⟨_,rfl,rfl,fun _ _ _ _ _ _ _ => rfl⟩

/-- `NEC` and `OCC` of a database that some controls hit, the first within the second, and the premium of
equal databases. -/
theorem premium_sets_exact (hsat : ∃ s, HittingSet atoms psi.clauses s) (budget : ℤ) :
    ∃ nec occ, necessaryControls psi atoms budget = .ok nec ∧
      occurringControls psi atoms budget = .ok occ ∧
      nec.Exactly (fun c => ∀ s, MinimumHitting atoms psi.clauses s → c ∈ s) ∧
      occ.Exactly (fun c => ∃ s, MinimumHitting atoms psi.clauses s ∧ c ∈ s) ∧
      nec.Within ((1+atoms.controls.length)*solveNodes atoms) budget ∧
      occ.Within ((1+probesOf atoms atoms.controls)*solveNodes atoms) budget ∧
      (nec.exhausted = false → occ.exhausted = false → nec.controls ⊆ occ.controls) ∧
      ∀ psiMin : Psi, (∀ c, c ∈ psiMin.clauses ↔ c ∈ psi.clauses) → psiMin.program = .pMin →
        psi.program = .pMax → ∀ f₁ f₂ f₃ f₄, ∃ res,
          blindnessPremium psiMin psi atoms budget f₁ f₂ f₃ f₄ = .ok res ∧
          res.blindnessPremium = [] ∧
          (f₁ = false → f₂ = false → f₃ = false → f₄ = false → psiMin.complete = true →
            psi.complete = true →
            (((1+atoms.controls.length)*solveNodes atoms+
              (1+probesOf atoms atoms.controls)*solveNodes atoms : ℕ) : ℤ) ≤ budget →
            res.published = true) := by
  obtain ⟨nec,hnec,hexact,hwithin⟩ := necessaryControls_exact hsat budget
  obtain ⟨occ,hocc,hexact',hwithin'⟩ := occurringControls_exact hsat budget
  refine ⟨nec,occ,hnec,hocc,hexact,hexact',hwithin,hwithin',fun he he' c hc => ?_,
    fun psiMin heq hmin hmax => blindnessPremium_equal hsat heq hmin hmax budget⟩
  obtain ⟨s,hs⟩ := exists_minimumHitting hsat
  exact ((hexact' he').2 c).mpr ⟨s,hs,((hexact he).2 c).mp hc s hs⟩

/-- Two corridors that one two-level control hits. -/
def twoLevelsPsi : Psi := ⟨.pMax,true,[⟨"cor:0",[1],2⟩,⟨"cor:1",[1,2],6⟩],corridorCapDefault,0⟩

theorem premium_sets_exact_twoLevels : ∃ nec occ,
    necessaryControls twoLevelsPsi twoLevels stepBudget = .ok nec ∧
    occurringControls twoLevelsPsi twoLevels stepBudget = .ok occ ∧
    (∀ c, c ∈ nec.controls ↔ ∀ s, MinimumHitting twoLevels twoLevelsPsi.clauses s → c ∈ s) ∧
    ∀ c, c ∈ occ.controls ↔ ∃ s, MinimumHitting twoLevels twoLevelsPsi.clauses s ∧ c ∈ s := by
  have hsat : ∃ s, HittingSet twoLevels twoLevelsPsi.clauses s := ⟨{"ctl:a"},by
    unfold HittingSet; decide +kernel⟩
  obtain ⟨nec,occ,hnec,hocc,hexact,hexact',hwithin,hwithin',-⟩ := premium_sets_exact hsat stepBudget
  exact ⟨nec,occ,hnec,hocc,(hexact (hwithin (by decide)).1).2,(hexact' (hwithin' (by decide)).1).2⟩

end Spectra
