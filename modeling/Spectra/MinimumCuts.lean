import Spectra.CutProbe
import Spectra.SubsetMinimal

/-! `all_minimum_cuts`, the cuts in the order of `Cut.compare_key`, and where the canonical selection
returns the first of them. -/
namespace Spectra

variable {atoms : AtomTable} {clauses : List Clause}

/-- `Cut.compare_key`: fewer controls, then the rank vector, then the level vector. -/
def Cut.compareKey (cut : Cut) : ℕ ×ₗ List ℕ ×ₗ List ℕ :=
  toLex (cut.cardinality,toLex (cut.atoms.map (·.rank),cut.atoms.map (·.level)))

/-- One vector of the lattice, with the fewest controls so far and the cuts that raise as few. -/
def minimumStep (clauses : List Clause) (atoms : AtomTable) (st : Option ℕ × List Cut)
    (vector : List ℕ) : Fallible (Option ℕ × List Cut) :=
  let levels := levelsOfVector atoms vector
  let chosen := atoms.controls.filter (1 ≤ levels ·)
  if !hitsAll clauses atoms chosen levels then .ok st
  else if !levelMinimal clauses atoms chosen levels then .ok st
  else if st.1.any (· < chosen.length) then .ok st
  else
    let found := if st.1.all (chosen.length < ·) then [] else st.2
    match atoms.cutOfLevels (fun control => if control ∈ chosen then levels control else 0)
        .unverified with
    | .error e => .error e
    | .ok cut => .ok (some chosen.length,found++[cut])

/-- Every level-minimal minimum-cardinality cut, ascending by the cut tie-break. -/
def allMinimumCuts (clauses : List Clause) (atoms : AtomTable) : Fallible (List Cut) :=
  match (admissibleLevelVectors atoms).foldlM (minimumStep clauses atoms) (none,[]) with
  | .error e => .error e
  | .ok st => .ok (st.2.insertionSort fun a b => a.compareKey ≤ b.compareKey)

/-! ### The cuts of the lattice -/

/-- Levels that hit every clause, none of which can be lowered a step and still raise the control. -/
structure LevelMinimal (clauses : List Clause) (σ : Assignment atoms) : Prop where
  hits : σ.HitsAll clauses
  lowest : ∀ c, 1 < σ.level c → ¬(σ.lower c 1).HitsAll clauses

/-- Level-minimal, with as few controls as any. -/
structure MinimumCut (clauses : List Clause) (σ : Assignment atoms) : Prop extends
    LevelMinimal clauses σ where
  least : ∀ s, HittingSet atoms clauses s → σ.raised.card ≤ s.card

theorem Assignment.level_off {σ : Assignment atoms} {c : ControlId} (h : c ∉ atoms.controls) :
    σ.level c = 0 := by
  by_contra hne
  exact h (AtomTable.mem_raised.mp (raised_of_level (Nat.one_le_iff_ne_zero.mpr hne))).1

/-- Every assignment is the one of its vector. -/
theorem levelsOfVector_map (σ : Assignment atoms) :
    levelsOfVector atoms (atoms.controls.map σ.level) = σ.level := by
  funext c
  by_cases hc : c ∈ atoms.controls
  · have h := @map_levelsOfVector atoms (atoms.controls.map σ.level) (by simp)
    exact List.map_inj_left.mp h c hc
  · have hnone : Dict.get? (atoms.controls.zip (atoms.controls.map σ.level)) c = none := by
      by_contra hn
      obtain ⟨level,hl⟩ := Option.ne_none_iff_exists'.mp hn
      exact hc (List.of_mem_zip (Dict.get?_mem hl)).1
    rw [levelsOfVector,hnone,Assignment.level_off hc]
    rfl

theorem mem_admissible (σ : Assignment atoms) :
    atoms.controls.map σ.level ∈ admissibleLevelVectors atoms := by
  refine LevelVectors.mem_below.mpr ?_
  rw [List.forall₂_map_left_iff,List.forall₂_map_right_iff]
  exact List.forall₂_same.mpr fun c _ => σ.admissible c

/-- The controls a vector raises, in canonical order. -/
def raisedBy (σ : Assignment atoms) : List ControlId := atoms.controls.filter (1 ≤ σ.level ·)

theorem mem_raisedBy {σ : Assignment atoms} {c : ControlId} : c ∈ raisedBy σ ↔ 1 ≤ σ.level c := by
  simp only [raisedBy,List.mem_filter,decide_eq_true_eq,and_iff_right_iff_imp]
  exact fun h => (AtomTable.mem_raised.mp (raised_of_level h)).1

theorem length_raisedBy (σ : Assignment atoms) : (raisedBy σ).length = σ.raised.card := by
  have hnodup : (raisedBy σ).Nodup := AtomTable.controls_nodup.filter _
  rw [← List.toFinset_card_of_nodup hnodup]
  refine congrArg Finset.card (Finset.ext fun c => ?_)
  rw [List.mem_toFinset,mem_raisedBy]
  exact ⟨raised_of_level,fun h => (AtomTable.mem_raised.mp h).2⟩

theorem kept_raisedBy (σ : Assignment atoms) :
    (fun c => if c ∈ raisedBy σ then σ.level c else 0) = σ.level := by
  funext c
  by_cases hc : c ∈ raisedBy σ
  · rw [if_pos hc]
  · rw [if_neg hc]
    have := mt mem_raisedBy.mpr hc
    omega

theorem hitsAll_raisedBy {σ : Assignment atoms} :
    hitsAll clauses atoms (raisedBy σ) σ.level = true ↔ σ.HitsAll clauses :=
  hitsAll_kept (kept_raisedBy σ).symm

theorem levelMinimal_raisedBy {σ : Assignment atoms} :
    levelMinimal clauses atoms (raisedBy σ) σ.level = true ↔
      ∀ c, 1 < σ.level c → ¬(σ.lower c 1).HitsAll clauses := by
  rw [levelMinimal_iff]
  have hstep : ∀ c, 1 < σ.level c →
      (hitsAll clauses atoms (raisedBy σ) (Function.update σ.level c (σ.level c-1)) = true ↔
        (σ.lower c 1).HitsAll clauses) := by
    intro c hc
    refine hitsAll_kept (funext fun d => ?_)
    by_cases hd : d = c
    · rw [hd,if_pos (mem_raisedBy.mpr hc.le)]; rfl
    · have := congrFun (kept_raisedBy σ) d
      simp only [Assignment.lower,Function.update_of_ne hd]
      exact this.symm
  constructor
  · intro h c hc hlow
    rcases h c (mem_raisedBy.mpr hc.le) with hl | hl
    · omega
    · rw [(hstep c hc).mpr hlow] at hl
      cases hl
  · intro h c _
    by_cases hc : 1 < σ.level c
    · exact .inr (by simpa using mt (hstep c hc).mp (h c hc))
    · exact .inl (by omega)

/-! ### The scan of the lattice -/

/-- What the scan holds after some vectors: the level-minimal cuts with the fewest controls so far. -/
structure Scanned (clauses : List Clause) (σs : List (Assignment atoms)) (st : Option ℕ × List Cut) :
    Prop where
  none : st.1 = none → ∀ σ ∈ σs, ¬LevelMinimal clauses σ
  fewest : ∀ b, st.1 = some b → ∀ σ ∈ σs, LevelMinimal clauses σ → b ≤ σ.raised.card
  attained : ∀ b, st.1 = some b → st.2 ≠ []
  found : ∀ cut ∈ st.2, ∃ σ ∈ σs, LevelMinimal clauses σ ∧ st.1 = some σ.raised.card ∧
    atoms.cutOfLevels σ.level .unverified = .ok cut
  complete : ∀ σ ∈ σs, LevelMinimal clauses σ → st.1 = some σ.raised.card →
    ∃ cut ∈ st.2, atoms.cutOfLevels σ.level .unverified = .ok cut

variable {σs : List (Assignment atoms)} {st : Option ℕ × List Cut}

/-- A vector that is passed over changes nothing. -/
theorem Scanned.skip (h : Scanned clauses σs st) {σ : Assignment atoms}
    (hσ : LevelMinimal clauses σ → ∃ b, st.1 = some b ∧ b < σ.raised.card) :
    Scanned clauses (σs++[σ]) st where
  none hn τ hτ hmin := by
    rcases List.mem_append.mp hτ with hτ | hτ
    · exact h.none hn τ hτ hmin
    · obtain ⟨b,hb,-⟩ := hσ (List.mem_singleton.mp hτ ▸ hmin)
      cases hn.symm.trans hb
  fewest b hb τ hτ hmin := by
    rcases List.mem_append.mp hτ with hτ | hτ
    · exact h.fewest b hb τ hτ hmin
    · obtain rfl := List.mem_singleton.mp hτ
      obtain ⟨b',hb',hlt⟩ := hσ hmin
      obtain rfl := Option.some.inj (hb.symm.trans hb')
      exact hlt.le
  attained := h.attained
  found cut hcut := by
    obtain ⟨τ,hτ,hrest⟩ := h.found cut hcut
    exact ⟨τ,List.mem_append_left _ hτ,hrest⟩
  complete τ hτ hmin hcard := by
    rcases List.mem_append.mp hτ with hτ | hτ
    · exact h.complete τ hτ hmin hcard
    · obtain rfl := List.mem_singleton.mp hτ
      obtain ⟨b,hb,hlt⟩ := hσ hmin
      have := Option.some.inj (hcard.symm.trans hb)
      omega

/-- A level-minimal vector with no more controls than the fewest so far is kept. -/
theorem Scanned.keep (h : Scanned clauses σs st) {σ : Assignment atoms} (hmin : LevelMinimal clauses σ)
    (hst : ∀ b, st.1 = some b → σ.raised.card ≤ b) {cut : Cut}
    (hcut : atoms.cutOfLevels σ.level .unverified = .ok cut) :
    Scanned clauses (σs++[σ]) (some σ.raised.card,
      (if st.1.all (σ.raised.card < ·) then [] else st.2)++[cut]) where
  none hn := by cases hn
  fewest b hb τ hτ hτmin := by
    obtain rfl := Option.some.inj hb
    rcases List.mem_append.mp hτ with hτ | hτ
    · cases hs : st.1 with
      | none => exact absurd hτmin (h.none hs τ hτ)
      | some b => exact (hst b hs).trans (h.fewest b hs τ hτ hτmin)
    · rw [List.mem_singleton.mp hτ]
  attained _ _ := by simp
  found cut' hcut' := by
    rcases List.mem_append.mp hcut' with hcut' | hcut'
    · split at hcut'
      · cases hcut'
      · rename_i hall
        obtain ⟨τ,hτ,hτmin,hb,hτcut⟩ := h.found cut' hcut'
        have hle := hst _ hb
        have hge : ¬σ.raised.card < τ.raised.card := by simpa [hb] using hall
        exact ⟨τ,List.mem_append_left _ hτ,hτmin,congrArg some (by omega),hτcut⟩
    · rw [List.mem_singleton.mp hcut']
      exact ⟨σ,by simp,hmin,rfl,hcut⟩
  complete τ hτ hτmin hb := by
    have heq := Option.some.inj hb
    rcases List.mem_append.mp hτ with hτ | hτ
    · cases hs : st.1 with
      | none => exact absurd hτmin (h.none hs τ hτ)
      | some b =>
        have hle := h.fewest b hs τ hτ hτmin
        have hge := hst b hs
        obtain ⟨cut',hcut',hτcut⟩ := h.complete τ hτ hτmin (by rw [hs]; exact congrArg some (by omega))
        rw [if_neg (by simp; omega)]
        exact ⟨cut',List.mem_append_left _ hcut',hτcut⟩
    · rw [List.mem_singleton.mp hτ]
      exact ⟨cut,by simp,hcut⟩

theorem Scanned.step (h : Scanned clauses σs st) (σ : Assignment atoms) :
    ∃ st', minimumStep clauses atoms st (atoms.controls.map σ.level) = .ok st' ∧
      Scanned clauses (σs++[σ]) st' := by
  unfold minimumStep
  rw [levelsOfVector_map]
  dsimp only
  have hraised : atoms.controls.filter (1 ≤ σ.level ·) = raisedBy σ := rfl
  rw [hraised]
  split
  · rename_i hmiss
    exact ⟨st,rfl,h.skip fun hmin => absurd (hitsAll_raisedBy.mpr hmin.hits) (by simpa using hmiss)⟩
  · rename_i hhits
    split
    · rename_i hlow
      exact ⟨st,rfl,h.skip fun hmin => absurd (levelMinimal_raisedBy.mpr hmin.lowest) (by simpa using hlow)⟩
    · rename_i hlow
      have hmin : LevelMinimal clauses σ := ⟨hitsAll_raisedBy.mp (by simpa using hhits),
        levelMinimal_raisedBy.mp (by simpa using hlow)⟩
      rw [length_raisedBy]
      split
      · rename_i hmore
        refine ⟨st,rfl,h.skip fun _ => ?_⟩
        cases hs : st.1 with
        | none => simp [hs] at hmore
        | some b => exact ⟨b,rfl,by simpa [hs] using hmore⟩
      · rename_i hmore
        obtain ⟨cut,hcut,-⟩ := @AtomTable.cutOfLevels_ok atoms σ.level .unverified
        have hkept : atoms.cutOfLevels (fun c => if c ∈ raisedBy σ then σ.level c else 0) .unverified =
            .ok cut := by rw [kept_raisedBy,hcut]
        rw [hkept]
        refine ⟨_,rfl,h.keep hmin (fun b hb => ?_) hcut⟩
        simpa [hb] using hmore

theorem Scanned.run (h : Scanned clauses σs st) (rest : List (Assignment atoms)) :
    ∃ st', (rest.map fun σ => atoms.controls.map σ.level).foldlM (minimumStep clauses atoms) st =
      .ok st' ∧ Scanned clauses (σs++rest) st' := by
  induction rest generalizing σs st with
  | nil => exact ⟨st,rfl,by simpa using h⟩
  | cons σ rest ih =>
    obtain ⟨st₁,hstep,h₁⟩ := h.step σ
    obtain ⟨st₂,hrun,h₂⟩ := ih h₁
    rw [List.map_cons,List.foldlM_cons,hstep]
    exact ⟨st₂,hrun,by simpa using h₂⟩

/-- The lattice is the vectors of some list of assignments that leaves none out. -/
theorem admissible_assignments : ∃ σs : List (Assignment atoms),
    σs.map (fun σ => atoms.controls.map σ.level) = admissibleLevelVectors atoms ∧
      ∀ σ : Assignment atoms, ∃ τ ∈ σs, τ.level = σ.level := by
  have hrange : admissibleLevelVectors atoms ∈
      Set.range (List.map fun σ : Assignment atoms => atoms.controls.map σ.level) := by
    rw [Set.range_list_map]
    intro v hv
    obtain ⟨σ,hσ,-⟩ := assignment_of_vector hv
    refine ⟨σ,?_⟩
    dsimp only
    rw [hσ]
    exact map_levelsOfVector (by simpa using (LevelVectors.mem_below.mp hv).length_eq)
  obtain ⟨σs,hσs⟩ := hrange
  refine ⟨σs,hσs,fun σ => ?_⟩
  have hmem := mem_admissible σ
  rw [← hσs] at hmem
  obtain ⟨τ,hτ,heq⟩ := List.mem_map.mp hmem
  exact ⟨τ,hτ,by rw [← levelsOfVector_map τ,← levelsOfVector_map σ]; exact congrArg _ heq⟩

/-- The brute force returns the minimum cuts, ascending, as soon as there is one. -/
theorem allMinimumCuts_spec {σ : Assignment atoms} (hσ : MinimumCut clauses σ) :
    ∃ cuts, allMinimumCuts clauses atoms = .ok cuts ∧
      cuts.Pairwise (fun a b => a.compareKey ≤ b.compareKey) ∧
      (∀ cut ∈ cuts, ∃ τ : Assignment atoms, MinimumCut clauses τ ∧
        atoms.cutOfLevels τ.level .unverified = .ok cut) ∧
      ∀ τ : Assignment atoms, MinimumCut clauses τ →
        ∃ cut ∈ cuts, atoms.cutOfLevels τ.level .unverified = .ok cut := by
  obtain ⟨σs,hσs,hall⟩ := @admissible_assignments atoms
  have hstart : Scanned clauses ([] : List (Assignment atoms)) (none,[]) :=
    ⟨by simp,by simp,by simp,by simp,by simp⟩
  obtain ⟨st,hrun,hst⟩ := hstart.run σs
  rw [hσs] at hrun
  rw [List.nil_append] at hst
  have hcard : ∀ τ : Assignment atoms, MinimumCut clauses τ → st.1 = some τ.raised.card := by
    intro τ hτ
    obtain ⟨τ',hτ',heq⟩ := hall τ
    obtain rfl : τ' = τ := by cases τ'; cases τ; cases heq; rfl
    cases hs : st.1 with
    | none => exact absurd hτ.toLevelMinimal (hst.none hs τ' hτ')
    | some b =>
      have hle := hst.fewest b hs τ' hτ' hτ.toLevelMinimal
      obtain ⟨cut,hcut⟩ := List.exists_mem_of_ne_nil _ (hst.attained b hs)
      obtain ⟨ρ,-,hρ,hb,-⟩ := hst.found cut hcut
      have := hτ.least _ hρ.hits.hitting_raised
      have := Option.some.inj (hs.symm.trans hb)
      exact congrArg some (by omega)
  unfold allMinimumCuts
  rw [hrun]
  refine ⟨_,rfl,List.pairwise_insertionSort _ _,fun cut hcut => ?_,fun τ hτ => ?_⟩
  · obtain ⟨τ,-,hτ,hb,hcut⟩ := hst.found cut ((List.mem_insertionSort _).mp hcut)
    have hsame := Option.some.inj ((hcard σ hσ).symm.trans hb)
    exact ⟨τ,⟨hτ,fun s hs => hsame ▸ hσ.least s hs⟩,hcut⟩
  · obtain ⟨τ',hτ',heq⟩ := hall τ
    obtain rfl : τ' = τ := by cases τ'; cases τ; cases heq; rfl
    obtain ⟨cut,hin,hcut⟩ := hst.complete τ' hτ' hτ.toLevelMinimal (hcard τ' hτ)
    exact ⟨cut,(List.mem_insertionSort _).mpr hin,hcut⟩

end Spectra
