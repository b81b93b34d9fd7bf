import Spectra.Dict
import Spectra.LevelVectors
import Spectra.PsiLoop

/-! `spectra_vs.cut`: the exhaustive probe of the cuts one control smaller, and the corridors
a search publishes. -/
namespace Spectra

/-- `EXHAUSTIVE_COMBINATION_CAP`. -/
def exhaustiveCombinationCap : ℤ := 200000

/-- Every admissible assignment of one level per control, in canonical order. -/
def admissibleLevelVectors (atoms : AtomTable) : List (List ℕ) :=
  LevelVectors.below (atoms.controls.map atoms.maxLevel)

/-- The levels a vector gives the controls. -/
def levelsOfVector (atoms : AtomTable) (vector : List ℕ) (control : ControlId) : ℕ :=
  (Dict.get? (atoms.controls.zip vector) control).getD 0

structure ExhaustiveProbe where
  ran : Bool
  cutsTested : ℕ
  smallerFound : Bool
  skippedReason : String
  deriving DecidableEq, Repr

/-- The vectors that raise one control fewer. -/
def smallerVectors (atoms : AtomTable) (cardinality : ℕ) : List (List ℕ) :=
  (admissibleLevelVectors atoms).filter fun v => LevelVectors.raised v = cardinality-1

/-- One tested cut: how many were tested, and whether one severed the goals. -/
def probeVector (p : ReachProgram) (atoms : AtomTable) (st : ℕ × Bool) (vector : List ℕ) :
    Fallible (ℕ × Bool) :=
  match atoms.cutOfLevels (levelsOfVector atoms vector) .unverified with
  | .error e => .error e
  | .ok cut => .ok (st.1+1,st.2 || !(reach p cut.mask).derivable)

/-- A fixpoint for every admissible cut one control smaller; it refuses rather than samples. -/
def exhaustiveProbe (p : ReachProgram) (atoms : AtomTable) (cardinality : ℕ)
    (combinationCap : ℤ) : Fallible ExhaustiveProbe :=
  if cardinality < 1 then .ok ⟨false,0,false,"cardinality_zero"⟩
  else
    let candidates := smallerVectors atoms cardinality
    if combinationCap < candidates.length then .ok ⟨false,0,false,"combination_cap"⟩
    else match candidates.foldlM (probeVector p atoms) (0,false) with
      | .error e => .error e
      | .ok (tested,smaller) => .ok ⟨true,tested,smaller,""⟩

section

variable {p : ReachProgram} {atoms : AtomTable}

theorem map_levelsOfVector {vector : List ℕ} (h : vector.length = atoms.controls.length) :
    atoms.controls.map (levelsOfVector atoms vector) = vector := by
  have hzip : ∀ (keys : List ControlId) (v : List ℕ), keys.Nodup → v.length = keys.length →
      keys.map (fun c => (Dict.get? (keys.zip v) c).getD 0) = v := by
    intro keys
    induction keys with
    | nil => intro v _ hv; exact (List.length_eq_zero_iff.mp hv).symm
    | cons k keys ih =>
      intro v hn hv
      obtain ⟨level,v,rfl⟩ := List.exists_cons_of_length_pos (l := v) (by simp [hv])
      rw [List.nodup_cons] at hn
      rw [List.map_cons,List.zip_cons_cons]
      refine congrArg₂ _ (by simp [Dict.get?]) ?_
      refine (List.map_congr_left fun c hc => ?_).trans (ih v hn.2 (by simpa using hv))
      rw [Dict.get?,if_neg (by rintro rfl; exact hn.1 hc)]
  exact hzip _ _ AtomTable.controls_nodup h

/-- A vector of the lattice is an admissible assignment of its own number of raised controls. -/
theorem assignment_of_vector {vector : List ℕ} (h : vector ∈ admissibleLevelVectors atoms) :
    ∃ σ : Assignment atoms, σ.level = levelsOfVector atoms vector ∧
      σ.raised.card = LevelVectors.raised vector := by
  have hle := LevelVectors.mem_below.mp h
  have hlength : vector.length = atoms.controls.length := by simpa using hle.length_eq
  have hmap := map_levelsOfVector hlength
  have htop : ∀ c, levelsOfVector atoms vector c ≤ atoms.maxLevel c := by
    intro c
    by_cases hc : c ∈ atoms.controls
    · rw [← hmap,List.forall₂_map_left_iff,List.forall₂_map_right_iff] at hle
      exact List.forall₂_same.mp hle c hc
    · have hnone : Dict.get? (atoms.controls.zip vector) c = none := by
        by_contra hn
        obtain ⟨level,hl⟩ := Option.ne_none_iff_exists'.mp hn
        exact hc (List.of_mem_zip (Dict.get?_mem hl)).1
      rw [levelsOfVector,hnone]
      exact Nat.zero_le _
  refine ⟨⟨_,htop⟩,rfl,?_⟩
  have hcount : LevelVectors.raised vector =
      (atoms.controls.filter fun c => 1 ≤ levelsOfVector atoms vector c).length := by
    conv_lhs => rw [← hmap]
    rw [LevelVectors.raised,List.countP_map,List.countP_eq_length_filter]; rfl
  rw [hcount,← List.toFinset_card_of_nodup (AtomTable.controls_nodup.filter _),
    List.toFinset_filter]
  simp [Assignment.raised,AtomTable.raised]

/-- The probe never raises; when it runs, it tests every vector and says whether one severs. -/
theorem exhaustiveProbe_ok (p : ReachProgram) (atoms : AtomTable) (cardinality : ℕ)
    (combinationCap : ℤ) : ∃ probe, exhaustiveProbe p atoms cardinality combinationCap = .ok probe ∧
      (probe.ran = true ↔ 1 ≤ cardinality ∧
        ((smallerVectors atoms cardinality).length : ℤ) ≤ combinationCap) ∧
      (probe.ran = true → probe.cutsTested = (smallerVectors atoms cardinality).length ∧
        (probe.smallerFound = true ↔ ∃ vector ∈ smallerVectors atoms cardinality,
          p.Severs (maskOf (atoms.literalsAt (levelsOfVector atoms vector))))) := by
  have hloop : ∀ (l : List (List ℕ)) (st : ℕ × Bool), ∃ found,
      l.foldlM (probeVector p atoms) st = .ok (st.1+l.length,found) ∧ (found = true ↔
        st.2 = true ∨ ∃ v ∈ l, p.Severs (maskOf (atoms.literalsAt (levelsOfVector atoms v)))) := by
    intro l
    induction l with
    | nil => exact fun st => ⟨st.2,by simp [pure,Except.pure],by simp⟩
    | cons v l ih =>
      intro st
      obtain ⟨cut,hcut,-,-,hmask,-⟩ := @AtomTable.cutOfLevels_ok atoms (levelsOfVector atoms v) .unverified
      have hstep : probeVector p atoms st v = .ok (st.1+1,st.2 || !(reach p cut.mask).derivable) := by
        rw [probeVector,hcut]
      obtain ⟨found,hrun,hfound⟩ := ih (st.1+1,st.2 || !(reach p cut.mask).derivable)
      refine ⟨found,?_,?_⟩
      · rw [List.foldlM_cons,hstep]
        refine hrun.trans ?_
        rw [List.length_cons]
        exact congrArg (fun n => Except.ok (n,found)) (by ring)
      · rw [hfound,Bool.or_eq_true,reach_derivable_iff,hmask,List.exists_mem_cons_iff,or_assoc]
  unfold exhaustiveProbe
  split
  · exact ⟨_,rfl,by simp; omega,by simp⟩
  · dsimp only
    split
    · exact ⟨_,rfl,by simp; omega,by simp⟩
    · obtain ⟨found,hrun,hfound⟩ := hloop (smallerVectors atoms cardinality) (0,false)
      rw [hrun]
      refine ⟨_,rfl,by simp; omega,fun _ => ⟨by simp,?_⟩⟩
      simpa using hfound

/-- How many vectors raise one control fewer. -/
theorem length_smallerVectors (cardinality : ℕ) : (smallerVectors atoms cardinality).length =
    LevelVectors.count (atoms.controls.map atoms.maxLevel) (cardinality-1) := by
  rw [smallerVectors,← List.countP_eq_length_filter]; rfl

end

/-! ### Published corridors -/

/-- The corridors of a psi: each under the id its ranks mint, with their mask, in order. -/
structure Minted (D : Digest) (atoms : AtomTable) (psi : Psi) : Prop where
  corridorId : ∀ c ∈ psi.corridors, c.corridorId = D.mint "cor" (leb128Seq c.atomRanks) 32
  ranks : ∀ c ∈ psi.corridors, c.atomRanks.Pairwise (· < ·)
  mask : ∀ c ∈ psi.corridors, c.mask = atoms.maskOfRanks c.atomRanks
  ascending : (psi.corridors.map (·.corridorId)).Pairwise (· < ·)

section

variable {D : Digest} {p : ReachProgram} {atoms : AtomTable} {budget corridorCap : ℤ}
  {clauses : List Clause}

theorem corridorsOf_minted {corridors : List Corridor} (h : corridorsOf D atoms clauses = .ok corridors) :
    ∀ c ∈ corridors, c.corridorId = D.mint "cor" (leb128Seq c.atomRanks) 32 ∧
      c.atomRanks.Pairwise (· < ·) ∧ c.mask = atoms.maskOfRanks c.atomRanks := by
  induction clauses generalizing corridors with
  | nil => cases h; simp
  | cons clause clauses ih =>
    rw [corridorsOf] at h
    split at h
    · cases h
    · rename_i corridor hmint
      split at h
      · cases h
      · rename_i rest hrest
        cases h
        intro c hc
        rcases List.mem_cons.mp hc with rfl | hc
        · unfold Corridor.mint at hmint
          split at hmint
          · cases hmint
          · rename_i hchecks
            cases hmint
            change _ = Except.ok () at hchecks
            simp only [checks_cons,checkStrictlyAscending_ok] at hchecks
            exact ⟨rfl,hchecks.2.1,rfl⟩
        · exact ih hrest c hc

theorem finish_minted {cut : Cut} {minimality : Minimality} {complete severs : Bool}
    {witness : Option WitnessNode} {steps nodes : ℕ} {budgetExhausted capHit : Bool}
    {search : CutSearch} (h : finish D p atoms clauses cut minimality complete severs witness steps
      nodes corridorCap budgetExhausted capHit = .ok search) : Minted D atoms search.psi := by
  unfold finish at h
  split at h
  · cases h
  · rename_i corridors hcorridors
    dsimp only at h
    split at h
    · cases h
    · rename_i hasc
      cases h
      have hall := corridorsOf_minted hcorridors
      have hin : ∀ {c : Corridor}, c ∈ corridors.insertionSort (fun a b =>
          a.corridorId ≤ b.corridorId) → c ∈ corridors := (List.mem_insertionSort _).mp
      exact ⟨fun c hc => (hall c (hin hc)).1,fun c hc => (hall c (hin hc)).2.1,
        fun c hc => (hall c (hin hc)).2.2,checkStrictlyAscending_ok.mp hasc⟩

/-- Whatever the loop returns publishes minted corridors. -/
theorem psiLoop_minted {steps nodes : ℕ} {search : CutSearch}
    (h : psiLoop D p atoms budget corridorCap clauses steps nodes = .ok search) :
    Minted D atoms search.psi := by
  obtain ⟨found,hexit⟩ := psiLoop_exits h
  cases hexit with
  | solved h => exact finish_minted h
  | unblockable h => exact finish_minted h
  | fellBack h =>
    obtain ⟨cut,severs,witness,steps,h⟩ := fallback_finishes h
    exact finish_minted h

/-- An exact severing cut: no cut of fewer controls hits every corridor it is published with. -/
theorem exhaustiveProbe_exact (hb : BlockersIn p atoms) {search : CutSearch}
    (h : enumeratePsi D p atoms budget corridorCap = .ok search) (hsev : search.severs = true)
    (hm : search.minimality = .exactPsiRelative) (hcard : 1 ≤ search.cut.cardinality)
    (combinationCap : ℤ) {probe : ExhaustiveProbe}
    (hprobe : exhaustiveProbe p atoms search.cut.cardinality combinationCap = .ok probe)
    (hran : probe.ran = true) : probe.smallerFound = false := by
  obtain ⟨search',hs,hexact,-⟩ := enumeratePsi_exact D p atoms hb budget corridorCap
  cases h.symm.trans hs
  obtain ⟨probe',hp,-,hfound⟩ := exhaustiveProbe_ok p atoms search.cut.cardinality combinationCap
  cases hprobe.symm.trans hp
  by_contra hne
  obtain ⟨vector,hv,hsevers⟩ := (hfound hran).2.mp (by simpa using hne)
  obtain ⟨hmem,hraised⟩ := List.mem_filter.mp hv
  obtain ⟨σ,hlevel,hσ⟩ := assignment_of_vector hmem
  have hlt : σ.raised.card < search.cut.cardinality := by
    rw [hσ,of_decide_eq_true hraised]; omega
  obtain ⟨g,hg,hin⟩ := (hexact hsev hm).2 σ hlt
  refine hsevers g hg ?_
  rw [← hlevel]
  exact mem_reach_closure.mp hin

end

end Spectra
