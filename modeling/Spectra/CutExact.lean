import Spectra.CutSearch

/-! Exactness of the corridor loop: the solver's values over the clause database, the cut
it renders, and the transfer of optimality from the database to the program. -/
namespace Spectra

variable {atoms : AtomTable} {clauses : List Clause}

/-! ### The solver -/

theorem mem_hitsAtLevel {control : ControlId} {level i : ℕ} :
    i ∈ hitsAtLevel clauses atoms control level ↔ i < clauses.length ∧ ∃ a ∈ atoms.literals,
      a.controlId = control ∧ a.level ≤ level ∧ a.rank ∈ clauses.getD i ∅ := by
  simp only [hitsAtLevel,Finset.mem_filter,Finset.mem_range,List.any_eq_true,decide_eq_true_eq,
    AtomTable.mem_take_levelsOf]
  refine and_congr_right fun _ => exists_congr fun a => ?_
  tauto

theorem mem_hitsAtMax {control : ControlId} {i : ℕ} :
    i ∈ hitsAtMax clauses atoms control ↔ i < clauses.length ∧ ∃ a ∈ atoms.literals,
      a.controlId = control ∧ a.rank ∈ clauses.getD i ∅ := by
  rw [hitsAtMax,mem_hitsAtLevel]
  refine and_congr_right fun _ => exists_congr fun a => ?_
  constructor
  · rintro ⟨ha,hc,-,hr⟩; exact ⟨ha,hc,hr⟩
  · rintro ⟨ha,rfl,hr⟩; exact ⟨ha,rfl,AtomTable.level_le_maxLevel ha,hr⟩

theorem forall_clauses {q : Clause → Prop} :
    (∀ i < clauses.length, q (clauses.getD i ∅)) ↔ ∀ c ∈ clauses, q c := by
  constructor
  · intro h c hc
    obtain ⟨i,hi,rfl⟩ := List.mem_iff_getElem.mp hc
    simpa [hi] using h i hi
  · intro h i hi
    simpa [hi] using h _ (List.getElem_mem hi)

theorem covers_hitsAtMax {s : List ControlId} :
    Hitting.Covers (hitsAtMax clauses atoms) s (Finset.range clauses.length) ↔
      ∀ c ∈ clauses, ∃ a ∈ atoms.literals, a.controlId ∈ s ∧ a.rank ∈ c := by
  rw [← forall_clauses]
  simp only [Hitting.Covers,Finset.mem_range,mem_hitsAtMax]
  refine forall₂_congr fun i hi => ?_
  constructor
  · rintro ⟨control,hs,-,a,ha,rfl,hr⟩; exact ⟨a,ha,hs,hr⟩
  · rintro ⟨a,ha,hs,hr⟩; exact ⟨_,hs,hi,a,ha,rfl,hr⟩

/-- A hitting set is a cover drawn from the controls in canonical order. -/
theorem HittingSet.sublist {s : Finset ControlId} (h : HittingSet atoms clauses s)
    {allowed : List ControlId} (ha : allowed.Sublist atoms.controls)
    (hs : ∀ c ∈ s, c ∈ allowed) : ∃ l : List ControlId, l.Sublist allowed ∧ l.length = s.card ∧
      Hitting.Covers (hitsAtMax clauses atoms) l (Finset.range clauses.length) := by
  have hnd : allowed.Nodup := AtomTable.controls_nodup.sublist ha
  have hm : ∀ c, c ∈ allowed.filter (· ∈ s) ↔ c ∈ s := by
    intro c
    simpa using hs c
  refine ⟨allowed.filter (· ∈ s),List.filter_sublist,?_,?_⟩
  · rw [← List.toFinset_card_of_nodup (hnd.filter _)]
    exact congrArg Finset.card (Finset.ext fun c => by rw [List.mem_toFinset,hm])
  · rw [covers_hitsAtMax]
    intro c hc
    obtain ⟨a,hl,hsa,hr⟩ := h.2 c hc
    exact ⟨a,hl,(hm _).mpr hsa,hr⟩

theorem HittingSet.ofSublist {l allowed : List ControlId} (ha : allowed.Sublist atoms.controls)
    (hl : l.Sublist allowed)
    (hc : Hitting.Covers (hitsAtMax clauses atoms) l (Finset.range clauses.length)) :
    HittingSet atoms clauses l.toFinset ∧ l.toFinset.card = l.length := by
  refine ⟨⟨fun c h => ?_,fun c h => ?_⟩,?_⟩
  · exact List.mem_toFinset.mpr ((hl.trans ha).subset (List.mem_toFinset.mp h))
  · obtain ⟨a,hal,hs,hr⟩ := covers_hitsAtMax.mp hc c h
    exact ⟨a,hal,List.mem_toFinset.mpr hs,hr⟩
  · exact List.toFinset_card_of_nodup (AtomTable.controls_nodup.sublist (hl.trans ha))

/-- The least number of controls outside `excluded` that hit every clause. -/
structure IsOptimum (atoms : AtomTable) (clauses : List Clause) (excluded : List ControlId)
    (v : ℕ) : Prop where
  attained : ∃ s, HittingSet atoms clauses s ∧ (∀ c ∈ excluded, c ∉ s) ∧ s.card = v
  least : ∀ s, HittingSet atoms clauses s → (∀ c ∈ excluded, c ∉ s) → v ≤ s.card

theorem IsOptimum.unique {excluded : List ControlId} {v w : ℕ}
    (hv : IsOptimum atoms clauses excluded v) (hw : IsOptimum atoms clauses excluded w) : v = w := by
  obtain ⟨s,hs,he,rfl⟩ := hv.attained
  obtain ⟨t,ht,hf,rfl⟩ := hw.attained
  exact le_antisymm (hv.least t ht hf) (hw.least s hs he)

/-- What a solve that finished inside its budget says. -/
theorem minCardinality_spec (clauses : List Clause) (atoms : AtomTable) (budget : ℤ)
    (excluded : List ControlId) :
    ((minCardinality clauses atoms budget excluded).status = .budgetExhausted) ∨
    ((minCardinality clauses atoms budget excluded).status = .infeasible ∧
      ∀ s, HittingSet atoms clauses s → ¬∀ c ∈ excluded, c ∉ s) ∨
    ((minCardinality clauses atoms budget excluded).status = .exact ∧
      ∃ v, (minCardinality clauses atoms budget excluded).value = some v ∧
        IsOptimum atoms clauses excluded v) := by
  have hsub : (atoms.controls.filter (· ∉ excluded)).Sublist atoms.controls := List.filter_sublist
  have hall : ∀ s, HittingSet atoms clauses s → (∀ c ∈ excluded, c ∉ s) →
      ∀ c ∈ s, c ∈ atoms.controls.filter (· ∉ excluded) := by
    intro s hs he c hc
    simp only [List.mem_filter,decide_eq_true_eq]
    exact ⟨List.mem_toFinset.mp (hs.1 hc),fun hx => he c hx hc⟩
  unfold minCardinality
  split
  · exact .inl rfl
  · dsimp only
    split
    · exact .inl rfl
    · rename_i box hbb
      refine .inr (.inl ⟨rfl,fun s hs he => ?_⟩)
      obtain ⟨l,hl,-,hc⟩ := hs.sublist hsub (hall s hs he)
      obtain ⟨v,hv,-⟩ := (Hitting.bb_exact hbb).least l hl hc
      cases hv
    · rename_i best box hbb
      have hx := Hitting.bb_exact hbb
      refine .inr (.inr ⟨rfl,best,rfl,?_,?_⟩)
      · rcases hx.sound best rfl with hb | ⟨l,hl,hc,hv⟩
        · cases hb
        · obtain ⟨hh,hcard⟩ := HittingSet.ofSublist hsub hl hc
          refine ⟨_,hh,fun c hc hm => ?_,by omega⟩
          have := List.mem_filter.mp (hl.subset (List.mem_toFinset.mp hm))
          simp [hc] at this
      · intro s hs he
        obtain ⟨l,hl,hlen,hc⟩ := hs.sublist hsub (hall s hs he)
        obtain ⟨v,hv,hle⟩ := hx.least l hl hc
        obtain rfl := Option.some.inj hv
        omega

/-! ### The canonical representative -/

theorem extendable_spec {hits : ControlId → Finset ℕ} {rest : List ControlId} {unhit : Finset ℕ}
    {cap : ℕ} {box box' : Hitting.Box} {found : Bool}
    (h : extendable hits rest unhit cap box = .ok (found,box')) :
    found = true ↔ ∃ l : List ControlId, l.Sublist rest ∧ Hitting.Covers hits l unhit ∧
      l.length ≤ cap := by
  unfold extendable at h
  rw [if_neg (by omega)] at h
  split at h
  · cases h
  · rename_i r _ hbb
    obtain ⟨rfl,-⟩ := Prod.mk.inj (Except.ok.inj h)
    have hx := Hitting.bb_exact hbb
    simp only [Int.toNat_natCast] at hx
    constructor
    · intro hr
      obtain ⟨v,rfl,hv⟩ : ∃ v, r = some v ∧ (v : ℤ) ≤ cap := by
        cases r with
        | none => simp at hr
        | some v => exact ⟨v,rfl,by simpa using hr⟩
      rcases hx.sound v rfl with hb | ⟨l,hl,hc,hlen⟩
      · have := Option.some.inj hb; omega
      · exact ⟨l,hl,hc,by omega⟩
    · rintro ⟨l,hl,hc,hlen⟩
      obtain ⟨v,rfl,hv⟩ := hx.least l hl hc
      simp only [Option.any_some,decide_eq_true_eq]
      omega

/-- Phase one keeps the rest coverable within what is left of the cardinality. -/
theorem selectControls_spec {hits : ControlId → Finset ℕ} {cardinality : ℕ} (rest : List ControlId)
    {chosen chosen' : List ControlId} {unhit unhit' : Finset ℕ} {box box' : Hitting.Box}
    (hle : chosen.length ≤ cardinality)
    (hc : ∃ l : List ControlId, l.Sublist rest ∧ Hitting.Covers hits l unhit ∧
      chosen.length+l.length ≤ cardinality)
    (h : selectControls hits cardinality rest chosen unhit box = .ok (chosen',unhit',box')) :
    unhit' = ∅ ∧ chosen'.length ≤ cardinality ∧
      ∃ l : List ControlId, l.Sublist rest ∧ chosen' = chosen++l ∧ Hitting.Covers hits l unhit := by
  induction rest generalizing chosen unhit box with
  | nil =>
    simp only [selectControls,Except.ok.injEq,Prod.mk.injEq] at h
    obtain ⟨rfl,rfl,-⟩ := h
    obtain ⟨l,hl,hcov,-⟩ := hc
    rw [List.sublist_nil.mp hl,Hitting.covers_nil] at hcov
    exact ⟨hcov,hle,[],by simp,by simp,Hitting.covers_nil.mpr hcov⟩
  | cons control rest ih =>
    obtain ⟨l,hl,hcov,hlen⟩ := hc
    rw [selectControls] at h
    split at h
    · rename_i hfull
      simp only [Except.ok.injEq,Prod.mk.injEq] at h
      obtain ⟨rfl,rfl,-⟩ := h
      have hnil : l = [] := List.length_eq_zero_iff.mp (by omega)
      rw [hnil,Hitting.covers_nil] at hcov
      exact ⟨hcov,hle,[],by simp,by simp,Hitting.covers_nil.mpr hcov⟩
    · rename_i hfull
      have hcap : ((cardinality : ℤ)-chosen.length-1) = ((cardinality-chosen.length-1 : ℕ) : ℤ) := by
        omega
      rw [hcap] at h
      dsimp only at h
      split at h
      · cases h
      · -- taken: the remaining cover is what `extendable` promised
        rename_i hx
        obtain ⟨m,hm,hmc,hml⟩ := (extendable_spec hx).mp rfl
        have hlen' : (chosen++[control]).length = chosen.length+1 := by simp
        obtain ⟨hu,hl',k,hk,rfl,hkc⟩ := ih (by omega) ⟨m,hm,hmc,by omega⟩ h
        exact ⟨hu,hl',control::k,hk.cons_cons _,by simp,Hitting.covers_cons.mpr hkc⟩
      · -- skipped: no cover within the cardinality uses this control
        rename_i hx
        have hno := mt (extendable_spec hx).mpr (by simp)
        rcases List.sublist_cons_iff.mp hl with hl | ⟨m,rfl,hm⟩
        · obtain ⟨hu,hl',k,hk,rfl,hkc⟩ := ih hle ⟨l,hl,hcov,hlen⟩ h
          exact ⟨hu,hl',k,hk.cons _,rfl,hkc⟩
        · refine absurd ⟨m,hm,Hitting.covers_cons.mp hcov,?_⟩ hno
          rw [List.length_cons] at hlen
          omega

theorem coveredBy_subset {chosen : List ControlId} {levels : ControlId → ℕ} {i : ℕ} :
    i ∈ coveredBy clauses atoms chosen levels ↔ i < clauses.length ∧ ∃ a ∈ atoms.literals,
      a.controlId ∈ chosen ∧ a.level ≤ levels a.controlId ∧ a.rank ∈ clauses.getD i ∅ := by
  have hm : ∀ (l : List ControlId) (s : Finset ℕ), i ∈ l.foldl (fun covered control =>
      if 1 ≤ levels control then covered ∪ hitsAtLevel clauses atoms control (levels control)
      else covered) s ↔ i ∈ s ∨ i < clauses.length ∧ ∃ a ∈ atoms.literals,
      a.controlId ∈ l ∧ a.level ≤ levels a.controlId ∧ a.rank ∈ clauses.getD i ∅ := by
    intro l
    induction l with
    | nil => simp
    | cons control l ih =>
      intro s
      rw [List.foldl_cons,ih]
      have hs : i ∈ (if 1 ≤ levels control then
          s ∪ hitsAtLevel clauses atoms control (levels control) else s) ↔
          i ∈ s ∨ i < clauses.length ∧ ∃ a ∈ atoms.literals,
            a.controlId = control ∧ a.level ≤ levels control ∧ a.rank ∈ clauses.getD i ∅ := by
        split
        · rw [Finset.mem_union,mem_hitsAtLevel]
        · rename_i hl
          refine ⟨.inl,fun h => h.resolve_right ?_⟩
          rintro ⟨-,a,-,-,hle,-⟩
          have := a.levelRange.1
          omega
      rw [hs]
      constructor
      · rintro ((h | ⟨hi,a,ha,rfl,hle,hr⟩) | ⟨hi,a,ha,hc,hle,hr⟩)
        · exact .inl h
        · exact .inr ⟨hi,a,ha,by simp,hle,hr⟩
        · exact .inr ⟨hi,a,ha,by simp [hc],hle,hr⟩
      · rintro (h | ⟨hi,a,ha,hc,hle,hr⟩)
        · exact .inl (.inl h)
        · rcases List.mem_cons.mp hc with rfl | hc
          · exact .inl (.inr ⟨hi,a,ha,rfl,hle,hr⟩)
          · exact .inr ⟨hi,a,ha,hc,hle,hr⟩
  simpa [coveredBy] using hm chosen ∅

theorem hitsAll_iff {chosen : List ControlId} {levels : ControlId → ℕ} :
    hitsAll clauses atoms chosen levels = true ↔ ∀ c ∈ clauses, ∃ a ∈ atoms.literals,
      a.controlId ∈ chosen ∧ a.level ≤ levels a.controlId ∧ a.rank ∈ c := by
  have hsub : coveredBy clauses atoms chosen levels ⊆ Finset.range clauses.length := fun i hi =>
    Finset.mem_range.mpr (coveredBy_subset.mp hi).1
  rw [hitsAll,decide_eq_true_eq,← forall_clauses]
  constructor
  · intro h i hi
    have he := Finset.eq_of_subset_of_card_le hsub (by rw [h,Finset.card_range])
    exact (coveredBy_subset.mp (he ▸ Finset.mem_range.mpr hi)).2
  · intro h
    have he : coveredBy clauses atoms chosen levels = Finset.range clauses.length :=
      Finset.Subset.antisymm hsub fun i hi =>
        coveredBy_subset.mpr ⟨Finset.mem_range.mp hi,h i (Finset.mem_range.mp hi)⟩
    rw [he,Finset.card_range]

theorem hitsAll_mono {chosen : List ControlId} {levels levels' : ControlId → ℕ}
    (h : ∀ c, levels c ≤ levels' c) (hh : hitsAll clauses atoms chosen levels = true) :
    hitsAll clauses atoms chosen levels' = true := by
  rw [hitsAll_iff] at hh ⊢
  intro c hc
  obtain ⟨a,ha,hs,hl,hr⟩ := hh c hc
  exact ⟨a,ha,hs,hl.trans (h _),hr⟩

/-- No step down from `control` keeps every clause hit. -/
def Lowest (clauses : List Clause) (atoms : AtomTable) (chosen : List ControlId)
    (levels : ControlId → ℕ) (control : ControlId) : Prop :=
  levels control ≤ 1 ∨
    hitsAll clauses atoms chosen (Function.update levels control (levels control-1)) = false

theorem levelMinimal_iff {chosen : List ControlId} {levels : ControlId → ℕ} :
    levelMinimal clauses atoms chosen levels = true ↔
      ∀ c ∈ chosen, Lowest clauses atoms chosen levels c := by
  simp [levelMinimal,Lowest]

/-- Where no step down keeps every clause hit, some clause is hit at the top alone. -/
theorem Lowest.only_at_top {chosen : List ControlId} {levels : ControlId → ℕ} {c : ControlId}
    (h : Lowest clauses atoms chosen levels c) (hc : ∀ c, 1 ≤ levels c → c ∈ chosen)
    (hl : 1 < levels c) : ∃ clause ∈ clauses, ∀ a ∈ atoms.literals, a.rank ∈ clause →
      a.level ≤ levels a.controlId → a.controlId = c ∧ a.level = levels c := by
  rcases h with h | h
  · omega
  · have hn := mt hitsAll_iff.mpr (by rw [h]; simp)
    push Not at hn
    obtain ⟨clause,hclause,hmiss⟩ := hn
    refine ⟨clause,hclause,fun a ha hr hal => ?_⟩
    have hin := hc a.controlId (a.levelRange.1.trans hal)
    have heq : a.controlId = c := by
      by_contra hne
      exact hmiss a ha hin (by rwa [Function.update_of_ne hne]) hr
    refine ⟨heq,?_⟩
    by_contra hne
    subst heq
    exact hmiss a ha hin (by rw [Function.update_self]; omega) hr

theorem lowerControl_spec {chosen : List ControlId} {control : ControlId} (level : ℕ)
    {levels : ControlId → ℕ} (hl : levels control = level) (hpos : 1 ≤ level)
    (hh : hitsAll clauses atoms chosen levels = true) :
    let levels' := lowerControl clauses atoms chosen control level levels
    hitsAll clauses atoms chosen levels' = true ∧ (∀ c, c ≠ control → levels' c = levels c) ∧
      1 ≤ levels' control ∧ levels' control ≤ levels control ∧
      Lowest clauses atoms chosen levels' control := by
  induction level generalizing levels with
  | zero => omega
  | succ level ih =>
    rw [lowerControl]
    split
    · exact ⟨hh,fun _ _ => rfl,by omega,le_rfl,.inl (by omega)⟩
    · rename_i hz
      dsimp only
      split
      · rename_i ht
        have hself : Function.update levels control level control = level :=
          Function.update_self ..
        obtain ⟨h₁,h₂,h₃,h₄,h₅⟩ := ih hself (by omega) ht
        refine ⟨h₁,fun c hc => ?_,h₃,?_,h₅⟩
        · rw [h₂ c hc,Function.update_of_ne hc]
        · rw [Function.update_self] at h₄
          omega
      · rename_i ht
        refine ⟨hh,fun _ _ => rfl,by omega,le_rfl,.inr ?_⟩
        rw [hl]
        simpa using ht

/-- Lowering some controls in turn lowers each as far as it goes, and no further. -/
theorem foldl_lowerControl {chosen todo : List ControlId} (hnd : todo.Nodup) {levels : ControlId → ℕ}
    (hpos : ∀ c ∈ todo, 1 ≤ levels c) (hh : hitsAll clauses atoms chosen levels = true) :
    let levels' := todo.foldl (fun levels control =>
      lowerControl clauses atoms chosen control (levels control) levels) levels
    hitsAll clauses atoms chosen levels' = true ∧ (∀ c, c ∉ todo → levels' c = levels c) ∧
      (∀ c ∈ todo, 1 ≤ levels' c) ∧ (∀ c, levels' c ≤ levels c) ∧
      ∀ c ∈ todo, Lowest clauses atoms chosen levels' c := by
  induction todo generalizing levels with
  | nil => exact ⟨hh,fun _ _ => rfl,by simp,fun _ => le_rfl,by simp⟩
  | cons control todo ih =>
    obtain ⟨hnot,hnd⟩ := List.nodup_cons.mp hnd
    obtain ⟨h₁,h₂,h₃,h₄,h₅⟩ := lowerControl_spec (levels control) rfl (hpos control (by simp)) hh
    have hne : ∀ c ∈ todo, c ≠ control := fun c hc he => hnot (he ▸ hc)
    obtain ⟨k₁,k₂,k₃,k₄,k₅⟩ := ih hnd
      (fun c hc => by rw [h₂ c (hne c hc)]; exact hpos c (by simp [hc])) h₁
    have hle : ∀ c, lowerControl clauses atoms chosen control (levels control) levels c ≤ levels c := by
      intro c
      by_cases hc : c = control
      · rw [hc]; exact h₄
      · exact (h₂ c hc).le
    refine ⟨k₁,fun c hc => ?_,fun c hc => ?_,fun c => (k₄ c).trans (hle c),fun c hc => ?_⟩
    · rw [List.mem_cons,not_or] at hc
      exact (k₂ c hc.2).trans (h₂ c hc.1)
    · rcases List.mem_cons.mp hc with rfl | hc
      · exact (k₂ c hnot).symm ▸ h₃
      · exact k₃ c hc
    · rcases List.mem_cons.mp hc with rfl | hc
      · -- later steps only lower other controls, so the blocked step stays blocked
        have he := k₂ c hnot
        refine h₅.imp (fun h => he.le.trans h) fun h => ?_
        by_contra hb
        rw [hitsAll_mono (fun d => ?_) (by simpa using hb)] at h
        · cases h
        · by_cases hd : d = c
          · rw [hd,Function.update_self,Function.update_self,he]
          · rw [Function.update_of_ne hd,Function.update_of_ne hd]
            exact k₄ d
      · exact k₅ c hc

/-- Phase two lowers every chosen control as far as it goes, and no further. -/
theorem lowerAll_spec {chosen : List ControlId} (hnd : chosen.Nodup) {levels : ControlId → ℕ}
    (hpos : ∀ c ∈ chosen, 1 ≤ levels c) (hh : hitsAll clauses atoms chosen levels = true) :
    let levels' := lowerAll clauses atoms chosen levels
    hitsAll clauses atoms chosen levels' = true ∧ (∀ c, c ∉ chosen → levels' c = levels c) ∧
      (∀ c ∈ chosen, 1 ≤ levels' c) ∧ (∀ c, levels' c ≤ levels c) ∧
      ∀ c ∈ chosen, Lowest clauses atoms chosen levels' c :=
  foldl_lowerControl hnd hpos hh

theorem maxLevels_hitsAll {chosen : List ControlId} (h : ∀ c ∈ clauses, ∃ a ∈ atoms.literals,
    a.controlId ∈ chosen ∧ a.rank ∈ c) :
    hitsAll clauses atoms chosen (maxLevels atoms chosen) = true := by
  rw [hitsAll_iff]
  intro c hc
  obtain ⟨a,ha,hs,hr⟩ := h c hc
  exact ⟨a,ha,hs,by simpa [maxLevels,hs] using AtomTable.level_le_maxLevel ha,hr⟩

/-- A cut rendered from levels that hit every clause. -/
structure Renders (atoms : AtomTable) (clauses : List Clause) (cut : Cut) (σ : Assignment atoms) :
    Prop where
  mask : cut.mask = σ.mask
  cardinality : cut.cardinality = σ.raised.card
  hits : σ.HitsAll clauses
  literals : cut.atoms = atoms.literalsAt σ.level
  /-- A control above level one is the only one, at that level, to hit some clause. -/
  lowest : ∀ c, 1 < σ.level c → ∃ clause ∈ clauses, ∀ a ∈ atoms.literals, a.rank ∈ clause →
    a.level ≤ σ.level a.controlId → a.controlId = c ∧ a.level = σ.level c

/-- At the optimum the selection fails only by running out of nodes, and what it returns is rendered
from the levels phase two leaves the controls of phase one at. -/
theorem canonicalSelect_levels {cardinality : ℕ} (hopt : IsOptimum atoms clauses [] cardinality)
    (minimality : Minimality) (budget : ℤ) :
    (∃ e box, selectControls (hitsAtMax clauses atoms) cardinality atoms.controls []
        (Finset.range clauses.length) ⟨budget,0⟩ = .error box ∧
      canonicalSelect clauses atoms cardinality minimality budget = .error e ∧ e.type = .budgetError) ∨
    ∃ chosen box cut σ, selectControls (hitsAtMax clauses atoms) cardinality atoms.controls []
        (Finset.range clauses.length) ⟨budget,0⟩ = .ok (chosen,∅,box) ∧
      canonicalSelect clauses atoms cardinality minimality budget = .ok (cut,box.used) ∧
      Renders atoms clauses cut σ ∧ chosen.Sublist atoms.controls ∧ σ.raised = chosen.toFinset ∧
      σ.level = lowerAll clauses atoms chosen (maxLevels atoms chosen) ∧
      hitsAll clauses atoms chosen (maxLevels atoms chosen) = true ∧ σ.raised.card = cardinality ∧
      cut.minimality = minimality := by
  have hself : atoms.controls.Sublist atoms.controls := List.Sublist.refl _
  unfold canonicalSelect
  split
  · rename_i box hsel
    exact .inl ⟨_,box,hsel,rfl,rfl⟩
  · rename_i chosen unhit box hsel
    obtain ⟨s,hs,-,hcard⟩ := hopt.attained
    obtain ⟨l,hl,hlen,hcov⟩ := hs.sublist hself fun c hc => List.mem_toFinset.mp (hs.1 hc)
    obtain ⟨hu,hle,k,hk,hck,hkc⟩ := selectControls_spec atoms.controls (by simp)
      ⟨l,hl,hcov,by simp only [List.length_nil]; omega⟩ hsel
    rw [List.nil_append] at hck
    subst hck
    obtain ⟨hh,hc⟩ := HittingSet.ofSublist hself hk hkc
    have hlen' : chosen.length = cardinality := by
      have := hopt.least _ hh (by simp)
      omega
    have hnd : chosen.Nodup := AtomTable.controls_nodup.sublist hk
    have hpos : ∀ c ∈ chosen, 1 ≤ maxLevels atoms chosen c := fun c hc => by
      simpa [maxLevels,hc] using AtomTable.maxLevel_pos (hk.subset hc)
    obtain ⟨h₁,h₂,h₃,h₄,h₅⟩ := lowerAll_spec hnd hpos
      (maxLevels_hitsAll (covers_hitsAtMax.mp hkc))
    rw [if_neg (by simp [hlen',hu])]
    dsimp only
    rw [if_neg (by simp [h₁]),if_neg (by simpa using levelMinimal_iff.mpr h₅)]
    obtain ⟨cut,hcut,hca,hcc,hcm,hmin⟩ := AtomTable.cutOfLevels_ok
      (lowerAll clauses atoms chosen (maxLevels atoms chosen)) minimality
    rw [hcut]
    let σ : Assignment atoms := ⟨lowerAll clauses atoms chosen (maxLevels atoms chosen),fun c =>
      (h₄ c).trans (by unfold maxLevels; split <;> omega)⟩
    have hraised : σ.raised = chosen.toFinset := by
      ext c
      simp only [Assignment.raised,AtomTable.mem_raised,List.mem_toFinset]
      constructor
      · rintro ⟨-,hl⟩
        by_contra hn
        have := h₂ c hn
        simp only [maxLevels,hn,if_false] at this
        have hl : 1 ≤ lowerAll clauses atoms chosen (maxLevels atoms chosen) c := hl
        omega
      · exact fun hc => ⟨hk.subset hc,h₃ c hc⟩
    have hchosen : ∀ c, 1 ≤ σ.level c → c ∈ chosen := by
      intro c hl
      by_contra hn
      have hz := h₂ c hn
      simp only [maxLevels,hn,if_false] at hz
      exact absurd hl (by rw [show σ.level c = 0 from hz]; omega)
    subst hu
    refine .inr ⟨chosen,box,cut,σ,hsel,rfl,⟨hcm,hcc,fun c hc => ?_,hca,fun c hl => ?_⟩,hk,hraised,rfl,
      maxLevels_hitsAll (covers_hitsAtMax.mp hkc),?_,hmin⟩
    · obtain ⟨a,ha,-,hl,hr⟩ := hitsAll_iff.mp h₁ c hc
      exact ⟨a,ha,hr,hl⟩
    · exact (h₅ c (hchosen c hl.le)).only_at_top (fun c' h' => hchosen c' h') hl
    · rw [hraised,hc,hlen']

/-- It hits every clause with as many controls as the optimum. -/
theorem canonicalSelect_spec {cardinality : ℕ} (hopt : IsOptimum atoms clauses [] cardinality)
    (minimality : Minimality) (budget : ℤ) :
    (∃ e, canonicalSelect clauses atoms cardinality minimality budget = .error e ∧
      e.type = .budgetError) ∨
    ∃ cut nodes σ, canonicalSelect clauses atoms cardinality minimality budget = .ok (cut,nodes) ∧
      Renders atoms clauses cut σ ∧ σ.raised.card = cardinality ∧ cut.minimality = minimality := by
  rcases canonicalSelect_levels hopt minimality budget with ⟨e,-,-,he,ht⟩ |
    ⟨-,box,cut,σ,-,hcut,hr,-,-,-,-,hcard,hmin⟩
  · exact .inl ⟨e,he,ht⟩
  · exact .inr ⟨cut,box.used,σ,hcut,hr,hcard,hmin⟩

/-- The fallback cut exists as soon as every clause names a literal of the universe. -/
theorem subsetMinimal_ok (h : ∀ c ∈ clauses, ∃ a ∈ atoms.literals, a.rank ∈ c) :
    ∃ cut, subsetMinimal clauses atoms = .ok cut ∧ cut.minimality = .subset := by
  have hh : hitsAll clauses atoms atoms.controls (maxLevels atoms atoms.controls) = true := by
    refine maxLevels_hitsAll fun c hc => ?_
    obtain ⟨a,ha,hr⟩ := h c hc
    exact ⟨a,ha,AtomTable.mem_controls.mpr ⟨a,ha,rfl⟩,hr⟩
  unfold subsetMinimal
  dsimp only
  rw [if_neg (by simp [hh])]
  obtain ⟨cut,hcut,-,-,-,hmin⟩ := AtomTable.cutOfLevels_ok _ .subset
  exact ⟨cut,hcut,hmin⟩

end Spectra
