import Spectra.CutCanonical
import Spectra.HonestLabels

/-! `_subset_minimal`: the fallback cut of the corridor loop. Controls are dropped at their maximum
levels first and lowered afterwards; a step that was refused stays refused, because everything after
it only takes literals away. -/
namespace Spectra

variable {atoms : AtomTable} {clauses : List Clause}

theorem hitsAll_subset {chosen chosen' : List ControlId} {levels : ControlId → ℕ}
    (hs : chosen ⊆ chosen') (h : hitsAll clauses atoms chosen levels = true) :
    hitsAll clauses atoms chosen' levels = true := by
  rw [hitsAll_iff] at h ⊢
  intro c hc
  obtain ⟨a,ha,hin,hl,hr⟩ := h c hc
  exact ⟨a,ha,hs hin,hl,hr⟩

/-- What dropping some controls in turn leaves: every control tried and kept is needed. -/
theorem foldl_dropControl {levels : ControlId → ℕ} (todo : List ControlId) {chosen : List ControlId}
    (hh : hitsAll clauses atoms chosen levels = true) :
    let chosen' := todo.foldl (fun chosen control =>
      let trial := chosen.filter (· ≠ control)
      if hitsAll clauses atoms trial levels then trial else chosen) chosen
    chosen'.Sublist chosen ∧ hitsAll clauses atoms chosen' levels = true ∧
      ∀ c ∈ todo, c ∈ chosen' → hitsAll clauses atoms (chosen'.filter (· ≠ c)) levels = false := by
  induction todo generalizing chosen with
  | nil => exact ⟨List.Sublist.refl _,hh,by simp⟩
  | cons control todo ih =>
    rw [List.foldl_cons]
    dsimp only
    split
    · rename_i htrial
      obtain ⟨hs,hall,hneeded⟩ := ih htrial
      refine ⟨hs.trans List.filter_sublist,hall,fun c hc hin => ?_⟩
      rcases List.mem_cons.mp hc with rfl | hc
      · -- the control was dropped
        simpa using (List.mem_filter.mp (hs.subset hin)).2
      · exact hneeded c hc hin
    · rename_i htrial
      obtain ⟨hs,hall,hneeded⟩ := ih hh
      refine ⟨hs,hall,fun c hc hin => ?_⟩
      rcases List.mem_cons.mp hc with rfl | hc
      · -- the control was needed by more controls than are left
        by_contra hb
        exact htrial (hitsAll_subset (hs.filter _).subset (by simpa using hb))
      · exact hneeded c hc hin

/-- The assignment `σ` with one control taken some levels down. -/
def Assignment.lower (σ : Assignment atoms) (control : ControlId) (steps : ℕ) : Assignment atoms where
  level := Function.update σ.level control (σ.level control-steps)
  admissible c := by
    by_cases hc : c = control
    · rw [hc,Function.update_self]; exact (Nat.sub_le _ _).trans (σ.admissible control)
    · rw [Function.update_of_ne hc]; exact σ.admissible c

theorem Assignment.HitsAll.mono {σ τ : Assignment atoms} (hle : ∀ c, σ.level c ≤ τ.level c)
    (h : σ.HitsAll clauses) : τ.HitsAll clauses := by
  intro c hc
  obtain ⟨a,ha,hr,hl⟩ := h c hc
  exact ⟨a,ha,hr,hl.trans (hle _)⟩

/-- A cut that hits every clause, and none with a control dropped or lowered a step. -/
structure SubsetMinimal (clauses : List Clause) (cut : Cut) (σ : Assignment atoms) : Prop where
  atoms : cut.atoms = atoms.literalsAt σ.level
  minimality : cut.minimality = .subset
  hits : σ.HitsAll clauses
  needed : ∀ c ∈ σ.raised, ¬(σ.lower c (σ.level c)).HitsAll clauses
  lowest : ∀ c ∈ σ.raised, ¬(σ.lower c 1).HitsAll clauses

theorem SubsetMinimal.only_at_top {cut : Cut} {σ : Assignment atoms} {c : ControlId}
    (h : SubsetMinimal clauses cut σ) (hl : 1 < σ.level c) : ∃ clause ∈ clauses,
      ∀ a ∈ atoms.literals, a.rank ∈ clause → a.level ≤ σ.level a.controlId →
        a.controlId = c ∧ a.level = σ.level c := by
  have hn := h.lowest c (raised_of_level hl.le)
  simp only [Assignment.HitsAll,Assignment.Hits,not_forall,not_exists,not_and] at hn
  obtain ⟨clause,hclause,hmiss⟩ := hn
  refine ⟨clause,hclause,fun a ha hr hal => ?_⟩
  have hlow := hmiss a ha hr
  by_cases heq : a.controlId = c
  · simp only [Assignment.lower,heq,Function.update_self] at hlow hal
    exact ⟨heq,by omega⟩
  · exact absurd hal (by simpa [Assignment.lower,Function.update_of_ne heq] using hlow)

theorem Renders.congr {clauses' : List Clause} (h : ∀ c, c ∈ clauses ↔ c ∈ clauses') {cut : Cut}
    {σ : Assignment atoms} (hr : Renders atoms clauses cut σ) : Renders atoms clauses' cut σ := by
  refine ⟨hr.mask,hr.cardinality,fun c hc => hr.hits c ((h c).mpr hc),hr.literals,fun c hl => ?_⟩
  obtain ⟨clause,hclause,honly⟩ := hr.lowest c hl
  exact ⟨clause,(h clause).mp hclause,honly⟩

/-- Levels kept for the chosen controls hit what the scan of the chosen controls hits. -/
theorem hitsAll_kept {chosen : List ControlId} {levels : ControlId → ℕ} {σ : Assignment atoms}
    (hσ : σ.level = fun c => if c ∈ chosen then levels c else 0) :
    hitsAll clauses atoms chosen levels = true ↔ σ.HitsAll clauses := by
  rw [hitsAll_iff]
  refine forall₂_congr fun c _ => ⟨?_,?_⟩
  · rintro ⟨a,ha,hin,hl,hr⟩
    exact ⟨a,ha,hr,by rw [hσ]; simpa [hin] using hl⟩
  · rintro ⟨a,ha,hr,hl⟩
    have hpos := a.levelRange.1
    have hin : a.controlId ∈ chosen := by
      by_contra hn
      simp only [hσ,hn,if_false] at hl
      omega
    exact ⟨a,ha,hin,by simpa [hσ,hin] using hl,hr⟩

/-- The fallback cut, rendered from levels none of which can be given up. -/
theorem subsetMinimal_minimal (h : ∀ c ∈ clauses, ∃ a ∈ atoms.literals, a.rank ∈ c) :
    ∃ (cut : Cut) (σ : Assignment atoms), subsetMinimal clauses atoms = .ok cut ∧
      SubsetMinimal clauses cut σ ∧ Renders atoms clauses cut σ := by
  have hh : hitsAll clauses atoms atoms.controls (maxLevels atoms atoms.controls) = true := by
    refine maxLevels_hitsAll fun c hc => ?_
    obtain ⟨a,ha,hr⟩ := h c hc
    exact ⟨a,ha,AtomTable.mem_controls.mpr ⟨a,ha,rfl⟩,hr⟩
  obtain ⟨hsub,hall,hneeded⟩ := foldl_dropControl atoms.controls.reverse hh
  unfold subsetMinimal
  dsimp only
  rw [if_neg (by simp [hh])]
  dsimp only at hsub hall hneeded
  generalize atoms.controls.reverse.foldl (fun chosen control =>
    if hitsAll clauses atoms (chosen.filter (· ≠ control)) (maxLevels atoms atoms.controls) then
      chosen.filter (· ≠ control) else chosen) atoms.controls = chosen at hsub hall hneeded ⊢
  have hpos : ∀ c ∈ chosen, 1 ≤ maxLevels atoms atoms.controls c := fun c hc => by
    simpa [maxLevels,hsub.subset hc] using AtomTable.maxLevel_pos (hsub.subset hc)
  obtain ⟨h₁,-,h₃,h₄,h₅⟩ := lowerAll_spec (AtomTable.controls_nodup.sublist hsub) hpos hall
  generalize lowerAll clauses atoms chosen (maxLevels atoms atoms.controls) = levels at h₁ h₃ h₄ h₅ ⊢
  let σ : Assignment atoms := ⟨fun c => if c ∈ chosen then levels c else 0,fun c => by
    have := h₄ c
    simp only [maxLevels] at this
    split at this <;> split <;> omega⟩
  obtain ⟨cut,hcut,hca,hcc,hcm,hmin⟩ := @AtomTable.cutOfLevels_ok atoms σ.level .subset
  have hchosen : ∀ c, 1 ≤ σ.level c → c ∈ chosen := by
    intro c hl
    by_contra hn
    simp [σ,hn] at hl
  have hhits : σ.HitsAll clauses := (hitsAll_kept rfl).mp h₁
  have hneeded' : ∀ c ∈ chosen, ¬(σ.lower c (σ.level c)).HitsAll clauses := by
    intro c hc hlow
    have hk : hitsAll clauses atoms (chosen.filter (· ≠ c)) levels = true := by
      refine (@hitsAll_kept _ _ _ _ (σ.lower c (σ.level c)) (funext fun d => ?_)).mpr hlow
      by_cases hd : d = c
      · simp [Assignment.lower,hd]
      · simp [Assignment.lower,hd,σ]
    have := hneeded c (List.mem_reverse.mpr (hsub.subset hc)) hc
    rw [hitsAll_mono h₄ hk] at this
    cases this
  have hlowest : ∀ c ∈ chosen, ¬(σ.lower c 1).HitsAll clauses := by
    intro c hc hlow
    have hlevel : σ.level c = levels c := by simp [σ,hc]
    rcases h₅ c hc with hone | hlower
    · -- a step down from level one drops the control
      refine hneeded' c hc (hlow.mono fun d => ?_)
      by_cases hd : d = c
      · simp only [Assignment.lower,hd,Function.update_self]; omega
      · simp [Assignment.lower,Function.update_of_ne hd]
    · rw [(@hitsAll_kept _ _ _ _ (σ.lower c 1) (funext fun d => ?_)).mpr hlow] at hlower
      · cases hlower
      · by_cases hd : d = c
        · simp [Assignment.lower,hd,hc,σ]
        · simp [Assignment.lower,hd,σ]
  have hraised : ∀ c ∈ σ.raised, c ∈ chosen := fun c hc => hchosen c (AtomTable.mem_raised.mp hc).2
  have hmin' : SubsetMinimal clauses cut σ := ⟨hca,hmin,hhits,fun c hc => hneeded' c (hraised c hc),
    fun c hc => hlowest c (hraised c hc)⟩
  exact ⟨cut,σ,hcut,hmin',hcm,hcc,hhits,hca,fun c hl => hmin'.only_at_top hl⟩

/-- Over non-empty clauses of the table the fallback cut is subset-minimal, and O6b accepts any body
that publishes it with these clauses. -/
theorem subset_minimal_earns (hnonempty : ∀ c ∈ clauses, c.Nonempty)
    (hranks : ∀ c ∈ clauses, ∀ r ∈ c, r < atoms.literals.length) :
    ∃ (cut : Cut) (σ : Assignment atoms), subsetMinimal clauses atoms = .ok cut ∧
      SubsetMinimal clauses cut σ ∧
      ∀ (D : Digest) (search : CutSearch) (body : Json), Checker.ControlIds atoms →
        search.cut = cut → (∀ c, c ∈ search.psi.clauses ↔ c ∈ clauses) →
        Minted D atoms search.psi → body.item "psi" = .ok (Checker.psiSection search.psi) →
        Checker.o6bLevels body (Checker.Atoms.ofRows (Checker.tableRows atoms))
          (Checker.publishedCut search) = .ok (search.psi.corridors.map (·.mask)) := by
  have h : ∀ c ∈ clauses, ∃ a ∈ atoms.literals, a.rank ∈ c := by
    intro c hc
    obtain ⟨r,hr⟩ := hnonempty c hc
    obtain ⟨ha,hrank⟩ := atoms.getElem?_rank.mp (List.getElem?_eq_getElem (hranks c hc r hr))
    exact ⟨_,ha,by rwa [hrank]⟩
  obtain ⟨cut,σ,hcut,hmin,hr⟩ := subsetMinimal_minimal h
  refine ⟨cut,σ,hcut,hmin,?_⟩
  rintro D search body hctl rfl hclauses hminted hpsi
  exact Checker.o6bLevels_published hctl (hr.congr fun c => (hclauses c).symm) hminted hpsi

theorem subset_minimal_earns_twoLevels : ∃ (cut : Cut) (σ : Assignment twoLevels),
    subsetMinimal [{1},{1,2}] twoLevels = .ok cut ∧ SubsetMinimal [{1},{1,2}] cut σ := by
  obtain ⟨cut,σ,hcut,hmin,-⟩ := @subset_minimal_earns twoLevels [{1},{1,2}] (by simp) (by decide)
  exact ⟨cut,σ,hcut,hmin⟩

end Spectra
