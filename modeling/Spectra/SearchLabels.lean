import Spectra.Premium
import Spectra.Verdict

/-! Whether the labels of a search are honest: the exits of the corridor loop set completeness,
severance and the two minimality labels one by one, and the exit of an unblockable derivation
sets them against each other. -/
namespace Spectra

variable {D : Digest} {p : ReachProgram} {atoms : AtomTable} {clauses : List Clause}
  {budget corridorCap : ℤ} {steps nodes : ℕ} {search : CutSearch}

/-- What a search says is true of its cut, and nothing exact, exhaustive or priced is said of a
program that no control severs. -/
structure HonestSearch (p : ReachProgram) (atoms : AtomTable) (search : CutSearch) : Prop where
  complete : search.psi.complete = true → p.Severs search.cut.mask
  recorded : search.cut.minimality = search.minimality
  exact : Cert.isExact search.cut.minimality = true ∨ Cert.isExact search.minimality = true →
    p.Severs search.cut.mask
  unseverable : (∀ σ : Assignment atoms, ¬p.Severs σ.mask) →
    Cert.isExact search.cut.minimality = false ∧
    search.psi.complete = false ∧
    ∀ psiMin budget groundingCapped budgetExhausted horizonTruncated erAmbiguous result,
      blindnessPremium psiMin search.psi atoms budget groundingCapped budgetExhausted
        horizonTruncated erAmbiguous = .ok result → result.published = false

/-! ### What the exits publish -/

theorem finish_fields {cut : Cut} {minimality : Minimality} {complete severs : Bool}
    {witness : Option WitnessNode} {budgetExhausted capHit : Bool}
    (h : finish D p atoms clauses cut minimality complete severs witness steps nodes corridorCap
      budgetExhausted capHit = .ok search) :
    search.cut = cut ∧ search.minimality = minimality ∧ search.psi.complete = complete := by
  unfold finish at h
  split at h
  · cases h
  · dsimp only at h
    split at h
    · cases h
    · cases h
      exact ⟨rfl,rfl,rfl⟩

theorem cutOfLevels_minimality {levels : ControlId → ℕ} {minimality : Minimality} {cut : Cut}
    (h : atoms.cutOfLevels levels minimality = .ok cut) : cut.minimality = minimality := by
  obtain ⟨cut',hcut,-,-,-,hmin⟩ := @AtomTable.cutOfLevels_ok atoms levels minimality
  cases h.symm.trans hcut
  exact hmin

theorem canonicalSelect_minimality {cardinality n : ℕ} {minimality : Minimality} {cut : Cut}
    (h : canonicalSelect clauses atoms cardinality minimality budget = .ok (cut,n)) :
    cut.minimality = minimality := by
  unfold canonicalSelect at h
  split at h
  · cases h
  · split at h
    · cases h
    · dsimp only at h
      split at h
      · cases h
      · split at h
        · cases h
        · split at h
          · cases h
          · rename_i hcut
            cases h
            exact cutOfLevels_minimality hcut

/-- The cut selected at the optimum is an assignment of the table. -/
theorem canonicalSelect_admissible {budget' : ℤ} {cardinality n : ℕ} {minimality : Minimality}
    {cut : Cut} (hstatus : (minCardinality clauses atoms budget []).status = .exact)
    (hvalue : (minCardinality clauses atoms budget []).value = some cardinality)
    (h : canonicalSelect clauses atoms cardinality minimality budget' = .ok (cut,n)) :
    ∃ σ : Assignment atoms, cut.mask = σ.mask := by
  have hopt : IsOptimum atoms clauses [] cardinality := by
    rcases minCardinality_spec clauses atoms budget [] with hs | ⟨hs,-⟩ | ⟨-,v,hv,hopt⟩
    · rw [hs] at hstatus
      cases hstatus
    · rw [hs] at hstatus
      cases hstatus
    · cases hvalue.symm.trans hv
      exact hopt
  rcases canonicalSelect_spec hopt minimality budget' with ⟨e,he,-⟩ | ⟨cut',n',σ,hcut,hr,-,-⟩
  · cases h.symm.trans he
  · cases h.symm.trans hcut
    exact ⟨σ,hr.mask⟩

theorem subsetMinimal_minimality {cut : Cut} (h : subsetMinimal clauses atoms = .ok cut) :
    cut.minimality = .subset := by
  unfold subsetMinimal at h
  dsimp only at h
  split at h
  · cases h
  · exact cutOfLevels_minimality h

/-- A database that is not complete has no premium. -/
theorem unpublished_of_incomplete {psiMin psiMax : Psi} {groundingCapped budgetExhausted
    horizonTruncated erAmbiguous : Bool} {result : PremiumResult} (hc : psiMax.complete = false)
    (h : blindnessPremium psiMin psiMax atoms budget groundingCapped budgetExhausted
      horizonTruncated erAmbiguous = .ok result) : result.published = false := by
  unfold blindnessPremium at h
  split at h
  · cases h
    rfl
  · rw [if_pos (by simp [hc])] at h
    cases h
    rfl

/-- A search is honest that severs with an admissible cut, or claims nothing. -/
theorem HonestSearch.of_labels (hrecorded : search.cut.minimality = search.minimality)
    (h : (∃ σ : Assignment atoms, search.cut.mask = σ.mask ∧ p.Severs σ.mask) ∨
      search.psi.complete = false ∧ Cert.isExact search.cut.minimality = false) :
    HonestSearch p atoms search := by
  rcases h with ⟨σ,hmask,hs⟩ | ⟨hopen,hlabel⟩
  · have hsevers : p.Severs search.cut.mask := hmask ▸ hs
    exact ⟨fun _ => hsevers,hrecorded,fun _ => hsevers,fun hno => absurd hs (hno σ)⟩
  · refine ⟨fun h => ?_,hrecorded,fun h => ?_,fun _ => ⟨hlabel,hopen,
      fun _ _ _ _ _ _ _ h => unpublished_of_incomplete hopen h⟩⟩
    · rw [hopen] at h
      cases h
    · rw [← hrecorded,hlabel] at h
      simp at h

/-! ### The turns of the loop -/

/-- The states in which the loop begins a turn. -/
inductive LoopState (D : Digest) (p : ReachProgram) (atoms : AtomTable) (budget corridorCap : ℤ) :
    List Clause → ℕ → ℕ → Prop
  | start : LoopState D p atoms budget corridorCap [] 0 0
  | learned {clauses : List Clause} {steps nodes : ℕ} {clause : Clause} {steps' nodes' : ℕ}
      (h : LoopState D p atoms budget corridorCap clauses steps nodes)
      (hturn : psiTurn D p atoms budget corridorCap clauses steps nodes =
        .ok (.learned clause steps' nodes'))
      (hcap : ¬corridorCap ≤ clauses.length+1) :
      LoopState D p atoms budget corridorCap (clauses++[clause]) steps' nodes'

/-- The turn's cut leaves a goal derivable, and the derivation found has no blocker. -/
def MeetsUnblockable (p : ReachProgram) (atoms : AtomTable) (budget : ℤ) (clauses : List Clause)
    (nodes : ℕ) : Prop :=
  let solve := minCardinality clauses atoms (budget-nodes) []
  ∃ cardinality cut n tree, solve.status = .exact ∧ solve.value = some cardinality ∧
    canonicalSelect clauses atoms cardinality .exactPsiRelative
      (budget-(nodes+solve.nodes : ℕ)) = .ok (cut,n) ∧
    (reach p cut.mask).derivable = true ∧ witnessTree p cut.mask (reach p cut.mask) none = .ok tree ∧
    witnessMask p tree = 0

/-- How a turn that returns leaves the labels. -/
inductive Labelled (p : ReachProgram) (atoms : AtomTable) (budget : ℤ) (clauses : List Clause)
    (nodes : ℕ) (search : CutSearch) : Prop
  | severed (hc : search.cut.minimality = search.minimality)
      (hs : ∃ σ : Assignment atoms, search.cut.mask = σ.mask ∧ p.Severs σ.mask)
  | unblockable (hm : MeetsUnblockable p atoms budget clauses nodes)
      (hcut : search.cut.minimality = .exactPsiRelative) (hmin : search.minimality = .unverified)
  | fellBack (hcut : search.cut.minimality = .subset) (hmin : search.minimality = .subset)
      (hc : search.psi.complete = false)

theorem fallback_labels {budgetExhausted capHit : Bool}
    (h : fallback D p atoms clauses steps nodes corridorCap budgetExhausted capHit = .ok search) :
    search.cut.minimality = .subset ∧ search.minimality = .subset ∧
      search.psi.complete = false := by
  unfold fallback at h
  split at h
  · cases h
  · rename_i cut hcut
    dsimp only at h
    split at h
    · cases h
    · obtain ⟨hc,hm,hp⟩ := finish_fields h
      exact ⟨hc ▸ subsetMinimal_minimality hcut,hm,hp⟩

theorem psiTurn_labels
    (h : psiTurn D p atoms budget corridorCap clauses steps nodes = .ok (.returned search)) :
    Labelled p atoms budget clauses nodes search := by
  have hfell : ∀ {steps nodes' b c},
      (fallback D p atoms clauses steps nodes' corridorCap b c).map Turn.returned =
        .ok (.returned search) → Labelled p atoms budget clauses nodes search := by
    intro steps nodes' b c h
    obtain ⟨hcut,hmin,hc⟩ := fallback_labels (map_returned h)
    exact .fellBack hcut hmin hc
  unfold psiTurn at h
  dsimp only at h
  split at h
  · exact hfell h
  · rename_i cardinality hstatus hvalue
    split at h
    · split at h
      · exact hfell h
      · cases h
    · rename_i cut n hselect
      have hcut := canonicalSelect_minimality hselect
      split at h
      · rename_i hs
        obtain ⟨hc,hm,-⟩ := finish_fields (map_returned h)
        obtain ⟨σ,hmask⟩ := canonicalSelect_admissible hstatus hvalue hselect
        refine .severed (by rw [hc,hcut,hm]) ⟨σ,hc ▸ hmask,?_⟩
        exact hmask ▸ reach_derivable_iff.mp hs
      · rename_i hs
        split at h
        · cases h
        · rename_i tree htree
          split at h
          · rename_i hz
            obtain ⟨hc,hm,-⟩ := finish_fields (map_returned h)
            exact .unblockable ⟨cardinality,cut,n,tree,hstatus,hvalue,hselect,by simpa using hs,htree,hz⟩
              (hc ▸ hcut) hm
          · split at h <;> cases h
  · cases h

/-- A turn that meets an unblockable derivation returns, with two labels that differ. -/
theorem MeetsUnblockable.turn (hm : MeetsUnblockable p atoms budget clauses nodes) {turn : Turn}
    (h : psiTurn D p atoms budget corridorCap clauses steps nodes = .ok turn) :
    ∃ search, turn = .returned search ∧ search.cut.minimality = .exactPsiRelative ∧
      search.minimality = .unverified := by
  obtain ⟨cardinality,cut,n,tree,hstatus,hvalue,hselect,hd,htree,hz⟩ := hm
  unfold psiTurn at h
  simp only [hstatus,hvalue,hselect,hd,htree,hz,Bool.not_true,if_true] at h
  cases hf : finish D p atoms clauses cut .unverified true false (some tree)
      (steps+(reach p cut.mask).steps)
      (nodes+(minCardinality clauses atoms (budget-nodes) []).nodes+n) corridorCap false false with
  | error e => simp [hf,Except.map] at h
  | ok search =>
    simp [hf,Except.map] at h
    obtain ⟨hc,hmin,-⟩ := finish_fields hf
    exact ⟨search,h.symm,hc ▸ canonicalSelect_minimality hselect,hmin⟩

/-- A derivation without blockers holds under every cut. -/
theorem MeetsUnblockable.unseverable (hm : MeetsUnblockable p atoms budget clauses nodes) (s : Mask) :
    ¬p.Severs s := by
  obtain ⟨-,cut,-,tree,-,-,-,hd,htree,hz⟩ := hm
  obtain ⟨tree',htree',-,g,hg,hderives⟩ := witnessTree_spec hd
  cases htree.symm.trans htree'
  exact fun hs => hs g hg (hderives s fun b hb => by simp [hz] at hb)

/-- The loop ends in a turn that labels the search, or at the corridor cap. -/
theorem psiLoop_labels (hstate : LoopState D p atoms budget corridorCap clauses steps nodes)
    (h : psiLoop D p atoms budget corridorCap clauses steps nodes = .ok search) :
    ∃ clauses steps nodes, LoopState D p atoms budget corridorCap clauses steps nodes ∧
      Labelled p atoms budget clauses nodes search := by
  induction hn : (corridorCap-clauses.length).toNat using Nat.strong_induction_on
    generalizing clauses steps nodes with
  | _ n ih =>
    rw [psiLoop] at h
    split at h
    · cases h
    · rename_i found hturn
      cases h
      exact ⟨_,_,_,hstate,psiTurn_labels hturn⟩
    · rename_i clause steps' nodes' hturn
      split at h
      · obtain ⟨hcut,hmin,hc⟩ := fallback_labels h
        exact ⟨_,_,_,hstate,.fellBack hcut hmin hc⟩
      · rename_i hcap
        exact ih _ (by simp only [List.length_append,List.length_singleton]; push_cast; omega)
          (.learned hstate hturn hcap) h rfl

/-- The run goes on from every state the loop begins a turn in. -/
theorem LoopState.run (hstate : LoopState D p atoms budget corridorCap clauses steps nodes) :
    enumeratePsi D p atoms budget corridorCap =
      psiLoop D p atoms budget corridorCap clauses steps nodes := by
  induction hstate with
  | start => rfl
  | learned _ hturn hcap ih => rw [ih,psiLoop,hturn]; exact if_neg hcap

/-- The labels are honest exactly when no turn of the loop meets a derivation without blockers;
a program that some cut severs is enough. -/
theorem enumeratePsi_honest_iff (h : enumeratePsi D p atoms budget corridorCap = .ok search) :
    (HonestSearch p atoms search ↔ ¬∃ clauses steps nodes,
      LoopState D p atoms budget corridorCap clauses steps nodes ∧
        MeetsUnblockable p atoms budget clauses nodes) ∧
    ((∃ s, p.Severs s) → HonestSearch p atoms search) := by
  have hhonest : (¬∃ clauses steps nodes,
      LoopState D p atoms budget corridorCap clauses steps nodes ∧
        MeetsUnblockable p atoms budget clauses nodes) → HonestSearch p atoms search := by
    intro hno
    obtain ⟨clauses,steps,nodes,hstate,hl⟩ := psiLoop_labels .start h
    cases hl with
    | severed hc hs => exact .of_labels hc (.inl hs)
    | unblockable hm => exact absurd ⟨clauses,steps,nodes,hstate,hm⟩ hno
    | fellBack hcut hmin hc =>
      exact .of_labels (hcut.trans hmin.symm) (.inr ⟨hc,by rw [hcut]; rfl⟩)
  refine ⟨⟨fun hall hex => ?_,hhonest⟩,fun ⟨s,hs⟩ => hhonest ?_⟩
  · obtain ⟨clauses,steps,nodes,hstate,hm⟩ := hex
    rw [hstate.run,psiLoop] at h
    split at h
    · cases h
    · rename_i found hturn
      cases h
      obtain ⟨search',hreturned,hcut,hmin⟩ := hm.turn hturn
      cases hreturned
      have hrecorded := hall.recorded
      rw [hcut,hmin] at hrecorded
      cases hrecorded
    · rename_i clause steps' nodes' hturn
      obtain ⟨search',hreturned,-⟩ := hm.turn hturn
      cases hreturned
  · rintro ⟨clauses,steps,nodes,-,hm⟩
    exact hm.unseverable s hs

/-! ### A goal no control can sever -/

/-- One observed step to the goal without blockers: `g ← s`. -/
def bareRoute (kind : ProgramKind) : ReachProgram where
  kind := kind
  instances := [⟨{observedStep "in:1" "fh:g" ["fh:s"] 0 with blockers := []},by decide⟩]
  axioms := ["fh:s"]
  goal := "fh:g"
  goals := ["fh:g"]
  axiomEvidence := []
  valid := by cases kind <;> decide

/-- The two searches over the bare route, and their premium. -/
def bareRun := returned (do
    let search ← enumeratePsi Digest.spelled (bareRoute .pMax) threeControls stepBudget corridorCapDefault
    let psiMin ← (enumeratePsi Digest.spelled (bareRoute .pMin) threeControls stepBudget
      corridorCapDefault).map (·.psi)
    let premium ← blindnessPremium psiMin search.psi threeControls stepBudget false false false false
    pure (search,premium) : Fallible _)
  (fun r => decide (r.1.psi.complete = true ∧ r.1.cut.minimality = .exactPsiRelative ∧
    r.1.minimality = .unverified ∧ r.2.published = true)) (by decide +kernel)

/-- The empty cut is labelled exact, the database complete and the premium published. -/
theorem enumeratePsi_dishonest : ∃ search psiMin premium,
    enumeratePsi Digest.spelled (bareRoute .pMax) threeControls stepBudget corridorCapDefault =
      .ok search ∧
    (enumeratePsi Digest.spelled (bareRoute .pMin) threeControls stepBudget corridorCapDefault).map
      (·.psi) = .ok psiMin ∧
    blindnessPremium psiMin search.psi threeControls stepBudget false false false false = .ok premium ∧
    search.psi.complete = true ∧ search.cut.minimality = .exactPsiRelative ∧
    search.minimality = .unverified ∧ premium.published = true ∧
    (∀ s, ¬(bareRoute .pMax).Severs s) ∧ ¬HonestSearch (bareRoute .pMax) threeControls search := by
  obtain ⟨search,hs,hrun⟩ := Runs.bind_ok.mp bareRun.2.1
  obtain ⟨psiMin,hp,hrun⟩ := Runs.bind_ok.mp hrun
  obtain ⟨premium,hb,hrun⟩ := Runs.bind_ok.mp hrun
  have hc := of_decide_eq_true bareRun.2.2
  rw [← Runs.pure_ok.mp hrun] at hc
  obtain ⟨hcomplete,hcut,hmin,hpublished⟩ := hc
  obtain ⟨search',hs',hsound⟩ := enumeratePsi_spec Digest.spelled
    (show BlockersIn (bareRoute .pMax) threeControls by decide) stepBudget corridorCapDefault
  cases hs.symm.trans hs'
  obtain ⟨g,hg,hderives⟩ := hsound.unverified hmin
  refine ⟨search,psiMin,premium,hs,hp,hb,hcomplete,hcut,hmin,hpublished,
    fun s hsevers => hsevers g hg (hderives s),fun hhonest => ?_⟩
  have hrecorded := hhonest.recorded
  rw [hcut,hmin] at hrecorded
  cases hrecorded

theorem enumeratePsi_honest_iff_bare : ∃ search,
    enumeratePsi Digest.spelled (bareRoute .pMax) threeControls stepBudget corridorCapDefault =
      .ok search ∧
    (HonestSearch (bareRoute .pMax) threeControls search ↔ ¬∃ clauses steps nodes,
      LoopState Digest.spelled (bareRoute .pMax) threeControls stepBudget corridorCapDefault clauses
          steps nodes ∧ MeetsUnblockable (bareRoute .pMax) threeControls stepBudget clauses nodes) ∧
    ((∃ s, (bareRoute .pMax).Severs s) → HonestSearch (bareRoute .pMax) threeControls search) := by
  obtain ⟨search,hs,-⟩ := Runs.bind_ok.mp bareRun.2.1
  exact ⟨search,hs,enumeratePsi_honest_iff hs⟩

end Spectra
