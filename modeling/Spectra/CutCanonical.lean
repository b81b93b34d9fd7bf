import Spectra.Covers
import Spectra.CutExact

/-! `min_cardinality` and `canonical_select` on any clause list: the optimum whatever the order of the
clauses, and the canonical one of the optimal cuts. -/
namespace Spectra

variable {atoms : AtomTable} {clauses clauses' : List Clause}

/-! ### The order of the clauses -/

/-- Each clause of one list has its own place in the other. -/
structure Arranged (place : ℕ → ℕ) (clauses clauses' : List Clause) : Prop where
  length : clauses'.length = clauses.length
  lt : ∀ i < clauses.length, place i < clauses'.length
  inj : ∀ i < clauses.length, ∀ j < clauses.length, place i = place j → i = j
  same : ∀ i < clauses.length, clauses'.getD (place i) ∅ = clauses.getD i ∅

theorem Arranged.image {place : ℕ → ℕ} (h : Arranged place clauses clauses') :
    (Finset.range clauses.length).image place = Finset.range clauses'.length := by
  have hinj : Set.InjOn place (Finset.range clauses.length) := fun i hi j hj =>
    h.inj i (Finset.mem_range.mp hi) j (Finset.mem_range.mp hj)
  refine Finset.eq_of_subset_of_card_le (fun m hm => ?_) ?_
  · obtain ⟨i,hi,rfl⟩ := Finset.mem_image.mp hm
    exact Finset.mem_range.mpr (h.lt i (Finset.mem_range.mp hi))
  · rw [Finset.card_image_of_injOn hinj,Finset.card_range,Finset.card_range,h.length]

theorem arranged_of_perm (h : clauses.Perm clauses') : ∃ place, Arranged place clauses clauses' := by
  induction h with
  | nil => exact ⟨id,rfl,by simp,by simp,by simp⟩
  | cons c _ ih =>
    obtain ⟨place,h⟩ := ih
    refine ⟨fun i => if i = 0 then 0 else place (i-1)+1,by simp [h.length],?_,?_,?_⟩
    · intro i hi
      rw [List.length_cons] at hi ⊢
      split
      · omega
      · have := h.lt (i-1) (by omega)
        omega
    · intro i hi j hj he
      rw [List.length_cons] at hi hj
      by_cases hi0 : i = 0 <;> by_cases hj0 : j = 0 <;>
        simp only [hi0,hj0,if_true,if_false,add_left_inj] at he
      · omega
      · omega
      · omega
      · have := h.inj (i-1) (by omega) (j-1) (by omega) he
        omega
    · intro i hi
      rw [List.length_cons] at hi
      cases i with
      | zero => rfl
      | succ i => exact h.same i (by omega)
  | swap c d l =>
    refine ⟨fun i => if i = 0 then 1 else if i = 1 then 0 else i,rfl,?_,?_,?_⟩
    · intro i hi
      simp only [List.length_cons] at hi ⊢
      split_ifs <;> omega
    · intro i _ j _ he
      split_ifs at he <;> omega
    · intro i _
      rcases i with _ | _ | i <;> rfl
  | trans _ _ ih ih' =>
    obtain ⟨place,h⟩ := ih
    obtain ⟨place',h'⟩ := ih'
    refine ⟨place' ∘ place,h'.length.trans h.length,fun i hi => h'.lt _ (h.lt i hi),?_,?_⟩
    · intro i hi j hj he
      exact h.inj i hi j hj (h'.inj _ (h.lt i hi) _ (h.lt j hj) he)
    · intro i hi
      exact (h'.same _ (h.lt i hi)).trans (h.same i hi)

theorem Arranged.renames {place : ℕ → ℕ} (h : Arranged place clauses clauses') :
    Hitting.Renames place (hitsAtMax clauses atoms) (hitsAtMax clauses' atoms)
      (Finset.range clauses.length) where
  inj i hi j hj := h.inj i (Finset.mem_range.mp hi) j (Finset.mem_range.mp hj)
  hits_iff control i hi := by
    have hi := Finset.mem_range.mp hi
    rw [mem_hitsAtMax,mem_hitsAtMax,h.same i hi,and_iff_right hi,and_iff_right (h.lt i hi)]

/-- The solve does not see the order of the clauses. -/
theorem minCardinality_perm (h : clauses.Perm clauses') (atoms : AtomTable) (budget : ℤ)
    (excluded : List ControlId) :
    minCardinality clauses' atoms budget excluded = minCardinality clauses atoms budget excluded := by
  obtain ⟨place,h⟩ := arranged_of_perm h
  have hbb := Hitting.bb_renames (@Arranged.renames atoms _ _ _ h)
    (atoms.controls.filter (· ∉ excluded)) 0 none ⟨budget,0⟩
  rw [h.image] at hbb
  unfold minCardinality
  simp only [hbb]

/-! ### The optimum -/

theorem hittingSet_congr (h : ∀ c, c ∈ clauses ↔ c ∈ clauses') {s : Finset ControlId} :
    HittingSet atoms clauses s ↔ HittingSet atoms clauses' s := by
  unfold HittingSet
  simp only [h]

theorem IsOptimum.congr (h : ∀ c, c ∈ clauses ↔ c ∈ clauses') {excluded : List ControlId} {v : ℕ}
    (hv : IsOptimum atoms clauses excluded v) : IsOptimum atoms clauses' excluded v := by
  obtain ⟨⟨s,hs,hrest⟩,hleast⟩ := hv
  exact ⟨⟨s,(hittingSet_congr h).mp hs,hrest⟩,fun t ht => hleast t ((hittingSet_congr h).mpr ht)⟩

/-- A budget of `2^n` nodes is enough for `n` controls, and no solve within it spends more. -/
theorem minCardinality_within {budget : ℤ} (hb : (2^atoms.controls.length : ℕ) ≤ budget)
    (excluded : List ControlId) :
    (minCardinality clauses atoms budget excluded).status ≠ .budgetExhausted ∧
      (minCardinality clauses atoms budget excluded).nodes ≤ 2^atoms.controls.length := by
  have hpos := @Nat.one_le_two_pow atoms.controls.length
  have hle : 2^(atoms.controls.filter (· ∉ excluded)).length ≤ 2^atoms.controls.length :=
    Nat.pow_le_pow_right (by omega) (List.length_filter_le _ _)
  have hspends : Hitting.Spends _ ⟨budget,0⟩ (Hitting.bb (hitsAtMax clauses atoms)
      (atoms.controls.filter (· ∉ excluded)) (Finset.range clauses.length) 0 none ⟨budget,0⟩) :=
    Hitting.bb_spends _ (le_trans (by simpa using Int.ofNat_le.mpr hle) hb)
  obtain ⟨found,box,hr,-,hused⟩ := hspends
  unfold minCardinality
  rw [if_neg (by omega)]
  dsimp only
  rw [hr]
  simp only [Nat.zero_add] at hused
  cases found <;> exact ⟨by simp,hused.trans hle⟩

theorem minCardinality_returns {budget : ℤ} (hb : (2^atoms.controls.length : ℕ) ≤ budget)
    (excluded : List ControlId) :
    (minCardinality clauses atoms budget excluded).status ≠ .budgetExhausted :=
  (minCardinality_within hb excluded).1

theorem infeasible_value {budget : ℤ} {excluded : List ControlId}
    (h : (minCardinality clauses atoms budget excluded).status = .infeasible) :
    (minCardinality clauses atoms budget excluded).value = none := by
  unfold minCardinality at h ⊢
  split
  · rfl
  · dsimp only at h ⊢
    split
    · rfl
    · rfl
    · rename_i hbb
      rw [if_neg ‹_›,hbb] at h
      cases h

/-- What a solve says, of the clauses in any order and, once it is not cut short, of any clauses with
the same members. -/
structure SolvesExactly (clauses : List Clause) (atoms : AtomTable) (budget : ℤ)
    (excluded : List ControlId) : Prop where
  exact : (minCardinality clauses atoms budget excluded).status = .exact →
    ∃ v, (minCardinality clauses atoms budget excluded).value = some v ∧
      IsOptimum atoms clauses excluded v
  infeasible : (minCardinality clauses atoms budget excluded).status = .infeasible →
    ∀ s, HittingSet atoms clauses s → ¬∀ c ∈ excluded, c ∉ s
  order : ∀ clauses', clauses.Perm clauses' →
    minCardinality clauses' atoms budget excluded = minCardinality clauses atoms budget excluded
  repetition : ∀ clauses' budget', (∀ c, c ∈ clauses ↔ c ∈ clauses') →
    (minCardinality clauses atoms budget excluded).status ≠ .budgetExhausted →
    (minCardinality clauses' atoms budget' excluded).status ≠ .budgetExhausted →
    (minCardinality clauses' atoms budget' excluded).status =
      (minCardinality clauses atoms budget excluded).status ∧
    (minCardinality clauses' atoms budget' excluded).value =
      (minCardinality clauses atoms budget excluded).value
  enough : (2^atoms.controls.length : ℕ) ≤ budget →
    (minCardinality clauses atoms budget excluded).status ≠ .budgetExhausted

theorem min_cardinality_exact (clauses : List Clause) (atoms : AtomTable) (budget : ℤ)
    (excluded : List ControlId) : SolvesExactly clauses atoms budget excluded where
  exact h := by
    rcases minCardinality_spec clauses atoms budget excluded with hs | ⟨hs,-⟩ | ⟨-,hv⟩
    · cases h.symm.trans hs
    · cases h.symm.trans hs
    · exact hv
  infeasible h := by
    rcases minCardinality_spec clauses atoms budget excluded with hs | ⟨-,hn⟩ | ⟨hs,-⟩
    · cases h.symm.trans hs
    · exact hn
    · cases h.symm.trans hs
  order _ h := minCardinality_perm h atoms budget excluded
  repetition clauses' budget' h hdone hdone' := by
    have hno : ∀ {l l' : List Clause}, (∀ c, c ∈ l ↔ c ∈ l') →
        (∀ s, HittingSet atoms l s → ¬∀ c ∈ excluded, c ∉ s) → ∀ v, ¬IsOptimum atoms l' excluded v := by
      intro l l' hl hnone v hv
      obtain ⟨s,hs,hex,-⟩ := hv.attained
      exact hnone s ((hittingSet_congr hl).mpr hs) hex
    rcases minCardinality_spec clauses atoms budget excluded with hs | ⟨hs,hn⟩ | ⟨hs,v,hv,hopt⟩ <;>
      rcases minCardinality_spec clauses' atoms budget' excluded with hs' | ⟨hs',hn'⟩ | ⟨hs',v',hv',hopt'⟩
    · exact absurd hs hdone
    · exact absurd hs hdone
    · exact absurd hs hdone
    · exact absurd hs' hdone'
    · rw [hs,hs',infeasible_value hs,infeasible_value hs']
      exact ⟨rfl,rfl⟩
    · exact absurd hopt' (hno h hn v')
    · exact absurd hs' hdone'
    · exact absurd hopt (hno (fun c => (h c).symm) hn' v)
    · rw [hs,hs',hv,hv',(hopt.congr h).unique hopt']
      exact ⟨rfl,rfl⟩
  enough h := minCardinality_returns h excluded

def fourControls : AtomTable :=
  ⟨[⟨"ctl:a",1,0,0,level_one,bit_zero,rank_zero⟩,⟨"ctl:b",1,1,1,level_one,bit_one,rank_one⟩,
    ⟨"ctl:c",1,2,2,level_one,bit_two,rank_two⟩,⟨"ctl:d",1,3,3,level_one,bit_three,rank_three⟩],
    by decide⟩

/-- The minima with and without the repeated clause. -/
def repeatedClause : {minima : Option ℕ × Option ℕ // minima.1 ≠ minima.2} :=
  ⟨((minCardinality [{0},{1},{2},{3}] fourControls 11 []).value,
    (minCardinality [{0},{1},{2},{3},{3}] fourControls 11 []).value),by decide +kernel⟩

/-- Under one budget a solve is finished, and is cut short once a clause is repeated. -/
theorem repeated_clause_exhausts : ¬∀ (clauses clauses' : List Clause) (atoms : AtomTable) (budget : ℤ)
    (excluded : List ControlId), (∀ c, c ∈ clauses ↔ c ∈ clauses') →
    (minCardinality clauses atoms budget excluded).value =
      (minCardinality clauses' atoms budget excluded).value := by
  intro hall
  exact repeatedClause.2 (hall [{0},{1},{2},{3}] [{0},{1},{2},{3},{3}] fourControls 11 [] (by simp))

/-! ### The canonical controls -/

/-- The places from `place` on at which the listed controls are in the set. -/
def placesFrom (s : Finset ControlId) : ℕ → List ControlId → List ℕ
  | _, [] => []
  | place, control::rest =>
    if control ∈ s then place::placesFrom s (place+1) rest else placesFrom s (place+1) rest

theorem placesFrom_cons {s : Finset ControlId} {place : ℕ} {control : ControlId} {rest : List ControlId} :
    placesFrom s place (control::rest) =
      if control ∈ s then place::placesFrom s (place+1) rest else placesFrom s (place+1) rest := rfl

/-- The indices of some controls in canonical order, ascending. -/
def AtomTable.indices (atoms : AtomTable) (s : Finset ControlId) : List ℕ :=
  placesFrom s 0 atoms.controls

theorem placesFrom_ge {s : Finset ControlId} (rest : List ControlId) {place : ℕ} :
    ∀ i ∈ placesFrom s place rest, place ≤ i := by
  induction rest generalizing place with
  | nil => exact fun i hi => absurd hi List.not_mem_nil
  | cons control rest ih =>
    intro i hi
    have hlater : ∀ j ∈ placesFrom s (place+1) rest, place ≤ j := fun j hj => (Nat.le_succ _).trans (ih j hj)
    rw [placesFrom_cons] at hi
    split at hi
    · rcases List.mem_cons.mp hi with rfl | hi
      · exact le_rfl
      · exact hlater i hi
    · exact hlater i hi

theorem placesFrom_length {s : Finset ControlId} (rest : List ControlId) (place : ℕ) :
    (placesFrom s place rest).length = (rest.filter (· ∈ s)).length := by
  induction rest generalizing place with
  | nil => rfl
  | cons control rest ih =>
    rw [placesFrom_cons]
    split
    · rename_i hs
      rw [List.filter_cons_of_pos (by simpa using hs),List.length_cons,List.length_cons,ih]
    · rename_i hs
      rw [List.filter_cons_of_neg (by simpa using hs),ih]

theorem placesFrom_congr {s t : Finset ControlId} {rest : List ControlId}
    (h : ∀ c ∈ rest, c ∈ s ↔ c ∈ t) (place : ℕ) : placesFrom s place rest = placesFrom t place rest := by
  induction rest generalizing place with
  | nil => rfl
  | cons control rest ih =>
    rw [placesFrom_cons,placesFrom_cons,ih fun c hc => h c (by simp [hc])]
    simp only [h control (by simp)]

theorem places_of_later {control : ControlId} {l rest : List ControlId} (h : control ∉ rest) {place : ℕ} :
    placesFrom (control::l).toFinset place rest = placesFrom l.toFinset place rest := by
  refine placesFrom_congr (fun c hc => ?_) place
  have : c ≠ control := fun he => h (he ▸ hc)
  simp [this]

/-- Phase one takes the controls of the earliest places: each control it could take it takes, and no
cover of the cardinality uses one it leaves. -/
theorem selectControls_earliest {hits : ControlId → Finset ℕ} {cardinality : ℕ}
    (rest : List ControlId) (hnd : rest.Nodup) {chosen chosen' : List ControlId}
    {unhit unhit' : Finset ℕ} {box box' : Hitting.Box} (hle : chosen.length ≤ cardinality)
    (h : selectControls hits cardinality rest chosen unhit box = .ok (chosen',unhit',box'))
    {s : Finset ControlId} (hs : Hitting.Covers hits (rest.filter (· ∈ s)) unhit)
    (hcard : chosen.length+(rest.filter (· ∈ s)).length = cardinality) (place : ℕ) :
    ∃ l : List ControlId, chosen' = chosen++l ∧ l.Sublist rest ∧
      placesFrom l.toFinset place rest ≤ placesFrom s place rest := by
  induction rest generalizing chosen unhit box place with
  | nil =>
    simp only [selectControls,Except.ok.injEq,Prod.mk.injEq] at h
    exact ⟨[],by simp [h.1],by simp,le_rfl⟩
  | cons control rest ih =>
    obtain ⟨hnot,hnd⟩ := List.nodup_cons.mp hnd
    rw [selectControls] at h
    split at h
    · simp only [Except.ok.injEq,Prod.mk.injEq] at h
      refine ⟨[],by simp [h.1],by simp,?_⟩
      have hempty : ∀ t : Finset ControlId, ((control::rest).filter (· ∈ t)).length = 0 →
          placesFrom t place (control::rest) = [] := by
        intro t ht
        rw [← List.length_eq_zero_iff,placesFrom_length,ht]
      rw [hempty s (by omega),hempty ([] : List ControlId).toFinset (by simp)]
    · rename_i hfull
      have hcap : ((cardinality : ℤ)-chosen.length-1) = ((cardinality-chosen.length-1 : ℕ) : ℤ) := by
        omega
      rw [hcap] at h
      dsimp only at h
      split at h
      · cases h
      · -- taken: a set without this control starts at a later place
        rename_i hx
        have hlen : (chosen++[control]).length = chosen.length+1 := by simp
        by_cases hc : control ∈ s
        · rw [List.filter_cons_of_pos (by simpa using hc)] at hs hcard
          rw [List.length_cons] at hcard
          obtain ⟨l,rfl,hl,hplaces⟩ := ih hnd (by omega) h (Hitting.covers_cons.mp hs) (by omega) (place+1)
          refine ⟨control::l,by simp,hl.cons_cons _,?_⟩
          rw [placesFrom_cons,placesFrom_cons,if_pos (by simp),if_pos hc,places_of_later hnot]
          exact List.cons_le_cons place hplaces
        · rw [List.filter_cons_of_neg (by simpa using hc)] at hs hcard
          obtain ⟨m,hm,hmc,hml⟩ := (extendable_spec hx).mp rfl
          obtain ⟨-,-,l,hl,rfl,-⟩ := selectControls_spec rest (by omega) ⟨m,hm,hmc,by omega⟩ h
          obtain ⟨later,more,hlater⟩ : ∃ i more, placesFrom s (place+1) rest = i::more := by
            refine List.exists_cons_of_length_pos ?_
            rw [placesFrom_length]
            omega
          have hge := placesFrom_ge rest later (by rw [hlater]; simp)
          refine ⟨control::l,by simp,hl.cons_cons _,?_⟩
          rw [placesFrom_cons,placesFrom_cons,if_pos (by simp),if_neg hc,hlater]
          exact le_of_lt (List.Lex.rel hge)
      · -- skipped: no cover within the cardinality uses this control
        rename_i hx
        have hno := mt (extendable_spec hx).mpr (by simp)
        by_cases hc : control ∈ s
        · rw [List.filter_cons_of_pos (by simpa using hc)] at hs hcard
          rw [List.length_cons] at hcard
          exact absurd ⟨_,List.filter_sublist,Hitting.covers_cons.mp hs,by omega⟩ hno
        · rw [List.filter_cons_of_neg (by simpa using hc)] at hs hcard
          obtain ⟨l,rfl,hl,hplaces⟩ := ih hnd hle h hs hcard (place+1)
          refine ⟨l,rfl,hl.cons _,?_⟩
          rwa [placesFrom_cons,placesFrom_cons,if_neg (by simpa using fun hm => hnot (hl.subset hm)),if_neg hc]

theorem extendable_returns {hits : ControlId → Finset ℕ} {rest : List ControlId} {unhit : Finset ℕ}
    {cap : ℤ} {box : Hitting.Box} (hb : (box.used : ℤ)+(2^rest.length : ℕ) ≤ box.limit) :
    ∃ found box', extendable hits rest unhit cap box = .ok (found,box') ∧ box'.limit = box.limit ∧
      box'.used ≤ box.used+2^rest.length := by
  unfold extendable
  split
  · exact ⟨_,box,rfl,rfl,Nat.le_add_right _ _⟩
  · obtain ⟨found,box',hr,hlimit,hused⟩ := @Hitting.bb_spends _ _ _ hits unhit rest 0
      (some (cap.toNat+1)) box hb
    rw [hr]
    exact ⟨_,box',rfl,hlimit,hused⟩

theorem selectControls_returns {hits : ControlId → Finset ℕ} {cardinality : ℕ} (rest : List ControlId)
    {chosen : List ControlId} {unhit : Finset ℕ} {box : Hitting.Box}
    (hb : (box.used : ℤ)+(rest.length*2^rest.length : ℕ) ≤ box.limit) :
    ∃ r, selectControls hits cardinality rest chosen unhit box = .ok r := by
  induction rest generalizing chosen unhit box with
  | nil => exact ⟨_,rfl⟩
  | cons control rest ih =>
    have hpow : 2^rest.length+rest.length*2^rest.length ≤
        (control::rest).length*2^(control::rest).length := by
      rw [List.length_cons,pow_succ]
      nlinarith [@Nat.one_le_two_pow rest.length]
    rw [selectControls]
    split
    · exact ⟨_,rfl⟩
    · obtain ⟨found,box',hr,hlimit,hused⟩ := @extendable_returns hits rest
        (unhit \ (unhit ∩ hits control)) (cardinality-chosen.length-1) box (by omega)
      dsimp only
      rw [hr]
      cases found with
      | false => exact ih (by rw [hlimit]; omega)
      | true => exact ih (by rw [hlimit]; omega)

/-! ### The canonical levels -/

/-- Lowering stops at the least level that keeps every clause hit. -/
theorem lowerControl_least {chosen : List ControlId} {control : ControlId} {levels : ControlId → ℕ}
    (hpos : 1 ≤ levels control) (hh : hitsAll clauses atoms chosen levels = true) {level : ℕ}
    (hlevel : 1 ≤ level) (ht : hitsAll clauses atoms chosen (Function.update levels control level) = true) :
    lowerControl clauses atoms chosen control (levels control) levels control ≤ level := by
  obtain ⟨-,hother,-,-,hlow⟩ := lowerControl_spec (levels control) rfl hpos hh
  rcases hlow with hlow | hlow
  · omega
  · by_contra hlt
    rw [hitsAll_mono (fun c => ?_) ht] at hlow
    · cases hlow
    · by_cases hc : c = control
      · rw [hc,Function.update_self,Function.update_self]
        omega
      · rw [Function.update_of_ne hc,Function.update_of_ne hc,hother c hc]

/-- Lowering the controls in turn ends with the least vector of levels that hit every clause. -/
theorem lowerAll_least {chosen : List ControlId} (todo : List ControlId) (hnd : todo.Nodup)
    {levels τ : ControlId → ℕ} (hpos : ∀ c ∈ todo, 1 ≤ levels c)
    (hh : hitsAll clauses atoms chosen levels = true) (hτ : hitsAll clauses atoms chosen τ = true)
    (hle : ∀ c, τ c ≤ levels c) (hraised : ∀ c ∈ todo, 1 ≤ τ c) :
    todo.map (todo.foldl (fun levels control =>
      lowerControl clauses atoms chosen control (levels control) levels) levels) ≤ todo.map τ := by
  induction todo generalizing levels with
  | nil => exact le_rfl
  | cons control todo ih =>
    obtain ⟨hnot,hnd⟩ := List.nodup_cons.mp hnd
    obtain ⟨h₁,h₂,h₃,h₄,-⟩ := lowerControl_spec (levels control) rfl (hpos control (by simp)) hh
    have hne : ∀ c ∈ todo, c ≠ control := fun c hc he => hnot (he ▸ hc)
    have hpos' : ∀ c ∈ todo, 1 ≤ lowerControl clauses atoms chosen control (levels control) levels c :=
      fun c hc => by rw [h₂ c (hne c hc)]; exact hpos c (by simp [hc])
    -- the later steps leave the level of this control
    have hkept := (foldl_lowerControl hnd hpos' h₁).2.1 control hnot
    have hleast : lowerControl clauses atoms chosen control (levels control) levels control ≤ τ control := by
      refine lowerControl_least (hpos control (by simp)) hh (hraised control (by simp)) ?_
      refine hitsAll_mono (fun c => ?_) hτ
      by_cases hc : c = control
      · rw [hc,Function.update_self]
      · rw [Function.update_of_ne hc]
        exact hle c
    rw [List.foldl_cons,List.map_cons,List.map_cons,hkept]
    rcases hleast.lt_or_eq with hlt | heq
    · exact le_of_lt (List.Lex.rel hlt)
    · rw [heq]
      refine List.cons_le_cons _ (ih hnd hpos' h₁ (fun c => ?_) fun c hc => hraised c (by simp [hc]))
      by_cases hc : c = control
      · rw [hc,heq]
      · rw [h₂ c hc]
        exact hle c

/-! ### The canonical cut -/

/-- The levels of some controls in canonical order. -/
def Assignment.vector (σ : Assignment atoms) (s : Finset ControlId) : List ℕ :=
  (atoms.controls.filter (· ∈ s)).map σ.level

/-- A cut of `k` controls that hits every clause: no `k` controls that do come earlier, no levels of its
controls that do are lower in canonical order, and no control can be lowered a step. -/
structure CanonicalCut (atoms : AtomTable) (clauses : List Clause) (k : ℕ) (cut : Cut)
    (σ : Assignment atoms) : Prop where
  renders : Renders atoms clauses cut σ
  card : σ.raised.card = k
  earliest : ∀ s, HittingSet atoms clauses s → s.card = k → atoms.indices σ.raised ≤ atoms.indices s
  lowest : ∀ τ : Assignment atoms, τ.raised ⊆ σ.raised → τ.HitsAll clauses →
    σ.vector σ.raised ≤ τ.vector σ.raised
  stepless : ∀ c ∈ σ.raised, ∀ τ : Assignment atoms, (∀ d, d ≠ c → τ.level d = σ.level d) →
    τ.level c+1 = σ.level c → ¬τ.HitsAll clauses

theorem raised_of_level {τ : Assignment atoms} {c : ControlId} (h : 1 ≤ τ.level c) : c ∈ τ.raised := by
  obtain ⟨a,ha,rfl,-⟩ := AtomTable.exists_literal le_rfl (h.trans (τ.admissible c))
  exact AtomTable.mem_raised.mpr ⟨AtomTable.mem_controls.mpr ⟨a,ha,rfl⟩,h⟩

/-- At the optimum no cover raises fewer of the controls. -/
theorem IsOptimum.raised_eq {k : ℕ} (hopt : IsOptimum atoms clauses [] k) {σ τ : Assignment atoms}
    (hcard : σ.raised.card = k) (hsub : τ.raised ⊆ σ.raised) (hτ : τ.HitsAll clauses) :
    τ.raised = σ.raised := by
  refine Finset.eq_of_subset_of_card_le hsub ?_
  rw [hcard]
  exact hopt.least _ hτ.hitting_raised (by simp)

theorem filter_sublist_self {l m : List ControlId} (h : l.Sublist m) (hm : m.Nodup) :
    m.filter (· ∈ l) = l := by
  induction h with
  | slnil => rfl
  | @cons l m c hs ih =>
    obtain ⟨hc,hm⟩ := List.nodup_cons.mp hm
    rw [List.filter_cons_of_neg (by simpa using fun hl => hc (hs.subset hl)),ih hm]
  | @cons_cons l m c hs ih =>
    obtain ⟨hc,hm⟩ := List.nodup_cons.mp hm
    rw [List.filter_cons_of_pos (by simp),List.cons.injEq]
    refine ⟨rfl,(List.filter_congr fun d hd => ?_).trans (ih hm)⟩
    have : d ≠ c := fun he => hc (he ▸ hd)
    simp [this]

/-- Where the selection returns, its cut is the canonical one. -/
theorem canonicalSelect_canonical {k : ℕ} (hopt : IsOptimum atoms clauses [] k) {chosen : List ControlId}
    {box : Hitting.Box} {cut : Cut} {σ : Assignment atoms} {budget : ℤ}
    (hsel : selectControls (hitsAtMax clauses atoms) k atoms.controls [] (Finset.range clauses.length)
      ⟨budget,0⟩ = .ok (chosen,∅,box)) (hr : Renders atoms clauses cut σ)
    (hsub : chosen.Sublist atoms.controls) (hraised : σ.raised = chosen.toFinset)
    (hlevel : σ.level = lowerAll clauses atoms chosen (maxLevels atoms chosen))
    (hmax : hitsAll clauses atoms chosen (maxLevels atoms chosen) = true) (hcard : σ.raised.card = k) :
    CanonicalCut atoms clauses k cut σ where
  renders := hr
  card := hcard
  earliest s hs hsk := by
    have hm : ∀ c, c ∈ atoms.controls.filter (· ∈ s) ↔ c ∈ s := by
      intro c
      simpa using fun hc => List.mem_toFinset.mp (hs.1 hc)
    have hlength : (atoms.controls.filter (· ∈ s)).length = k := by
      rw [← hsk,← List.toFinset_card_of_nodup (AtomTable.controls_nodup.filter _)]
      exact congrArg Finset.card (Finset.ext fun c => by rw [List.mem_toFinset,hm])
    have hcovers : Hitting.Covers (hitsAtMax clauses atoms) (atoms.controls.filter (· ∈ s))
        (Finset.range clauses.length) := by
      refine covers_hitsAtMax.mpr fun c hc => ?_
      obtain ⟨a,ha,has,har⟩ := hs.2 c hc
      exact ⟨a,ha,(hm _).mpr has,har⟩
    obtain ⟨l,rfl,-,hle⟩ := selectControls_earliest atoms.controls AtomTable.controls_nodup
      (Nat.zero_le _) hsel hcovers (by simpa using hlength) 0
    rwa [hraised]
  lowest τ hτ hhits := by
    have heq := hopt.raised_eq hcard hτ hhits
    have hvector : ∀ τ : Assignment atoms, τ.vector σ.raised = chosen.map τ.level := by
      intro τ
      rw [Assignment.vector,hraised]
      simp only [List.mem_toFinset]
      rw [filter_sublist_self hsub AtomTable.controls_nodup]
    have hchosen : ∀ c, 1 ≤ τ.level c → c ∈ chosen := fun c hc => by
      rw [← List.mem_toFinset,← hraised,← heq]
      exact raised_of_level hc
    rw [hvector,hvector,hlevel]
    refine lowerAll_least chosen (AtomTable.controls_nodup.sublist hsub) (fun c hc => ?_) hmax ?_
      (fun c => ?_) fun c hc => ?_
    · simpa [maxLevels,hc] using AtomTable.maxLevel_pos (hsub.subset hc)
    · refine hitsAll_iff.mpr fun c hc => ?_
      obtain ⟨a,ha,har,hal⟩ := hhits c hc
      exact ⟨a,ha,hchosen _ (a.levelRange.1.trans hal),hal,har⟩
    · by_cases hc : c ∈ chosen
      · simpa [maxLevels,hc] using τ.admissible c
      · have := mt (hchosen c) hc
        omega
    · have hc : c ∈ τ.raised := by rwa [heq,hraised,List.mem_toFinset]
      exact (AtomTable.mem_raised.mp hc).2
  stepless c hc τ hother hstep hhits := by
    have hsub : τ.raised ⊆ σ.raised := by
      intro d hd
      obtain ⟨hd,hl⟩ := AtomTable.mem_raised.mp hd
      by_cases he : d = c
      · exact he ▸ hc
      · exact AtomTable.mem_raised.mpr ⟨hd,by rwa [← hother d he]⟩
    have heq := hopt.raised_eq hcard hsub hhits
    have hpos := (AtomTable.mem_raised.mp (heq ▸ hc)).2
    -- the control is above level one, where some clause needs all of its level
    obtain ⟨clause,hclause,honly⟩ := hr.lowest c (by omega)
    obtain ⟨a,ha,har,hal⟩ := hhits clause hclause
    have hle : a.level ≤ σ.level a.controlId := by
      by_cases he : a.controlId = c
      · rw [he] at hal ⊢
        omega
      · rwa [← hother _ he]
    obtain ⟨hac,hlevel⟩ := honly a ha har hle
    rw [hac] at hal
    omega

theorem canonicalSelect_cases {k : ℕ} (hopt : IsOptimum atoms clauses [] k) (minimality : Minimality)
    (budget : ℤ) : (∃ e, canonicalSelect clauses atoms k minimality budget = .error e ∧
        e.type = .budgetError) ∨
      ∃ cut nodes σ, canonicalSelect clauses atoms k minimality budget = .ok (cut,nodes) ∧
        CanonicalCut atoms clauses k cut σ ∧ cut.minimality = minimality := by
  rcases canonicalSelect_levels hopt minimality budget with ⟨e,-,-,he,ht⟩ |
    ⟨chosen,box,cut,σ,hsel,hcut,hr,hsub,hraised,hlevel,hmax,hcard,hmin⟩
  · exact .inl ⟨e,he,ht⟩
  · exact .inr ⟨cut,box.used,σ,hcut,
      canonicalSelect_canonical hopt hsel hr hsub hraised hlevel hmax hcard,hmin⟩

theorem canonicalSelect_returns {k : ℕ} (hopt : IsOptimum atoms clauses [] k) (minimality : Minimality)
    {budget : ℤ} (hb : (atoms.controls.length*2^atoms.controls.length : ℕ) ≤ budget) :
    ∃ r, canonicalSelect clauses atoms k minimality budget = .ok r := by
  rcases canonicalSelect_levels hopt minimality budget with ⟨e,box,hsel,-,-⟩ | ⟨-,box,cut,-,-,hcut,-⟩
  · obtain ⟨r,hr⟩ := @selectControls_returns (hitsAtMax clauses atoms) k atoms.controls []
      (Finset.range clauses.length) ⟨budget,0⟩ (by simpa using hb)
    cases hsel.symm.trans hr
  · exact ⟨_,hcut⟩

/-- At the optimum every selection that does not run out of nodes returns the canonical cut, and
`n*2^n` nodes are enough for `n` controls. -/
theorem canonical_select_canonical {k : ℕ} (hopt : IsOptimum atoms clauses [] k)
    (minimality : Minimality) :
    (∀ budget, (∃ e, canonicalSelect clauses atoms k minimality budget = .error e ∧
        e.type = .budgetError) ∨
      ∃ cut nodes σ, canonicalSelect clauses atoms k minimality budget = .ok (cut,nodes) ∧
        CanonicalCut atoms clauses k cut σ ∧ cut.minimality = minimality) ∧
    ∀ budget : ℤ, (atoms.controls.length*2^atoms.controls.length : ℕ) ≤ budget →
      ∃ r, canonicalSelect clauses atoms k minimality budget = .ok r :=
  ⟨canonicalSelect_cases hopt minimality,fun _ hb => canonicalSelect_returns hopt minimality hb⟩

def twoLevels : AtomTable :=
  ⟨[⟨"ctl:a",1,0,0,level_one,bit_zero,rank_zero⟩,⟨"ctl:a",2,1,1,level_two,bit_one,rank_one⟩,
    ⟨"ctl:b",1,2,2,level_one,bit_two,rank_two⟩],by decide⟩

/-- The solve over the two levels. -/
def twoLevelsSolve : {r : MinCardinality // r.status = .exact ∧ r.value = some 1} :=
  ⟨minCardinality [{1},{1,2}] twoLevels 100 [],by decide +kernel⟩

theorem optimum_twoLevels : IsOptimum twoLevels [{1},{1,2}] [] 1 := by
  obtain ⟨hstatus,hvalue⟩ := twoLevelsSolve.2
  rcases minCardinality_spec [{1},{1,2}] twoLevels 100 [] with hs | ⟨hs,-⟩ | ⟨-,v,hv,hopt⟩
  · cases hstatus.symm.trans hs
  · cases hstatus.symm.trans hs
  · cases hvalue.symm.trans hv
    exact hopt

theorem canonical_select_canonical_twoLevels : IsOptimum twoLevels [{1},{1,2}] [] 1 ∧
    ∃ cut nodes σ, canonicalSelect [{1},{1,2}] twoLevels 1 .exactPsiRelative stepBudget = .ok (cut,nodes) ∧
      CanonicalCut twoLevels [{1},{1,2}] 1 cut σ := by
  refine ⟨optimum_twoLevels,?_⟩
  obtain ⟨hall,henough⟩ := canonical_select_canonical optimum_twoLevels .exactPsiRelative
  obtain ⟨r,hr⟩ := henough stepBudget (by decide)
  rcases hall stepBudget with ⟨e,he,-⟩ | ⟨cut,nodes,σ,hcut,hcanonical,-⟩
  · cases hr.symm.trans he
  · exact ⟨cut,nodes,σ,hcut,hcanonical⟩

end Spectra
