import Spectra.PsiLoop

/-! `spectra_vs.premium`: necessary and occurring controls of a clause database, and the
blindness premium over the two databases of a bracket. -/
namespace Spectra

inductive SuppressedReason where
  | groundingCapped | corridorCap | solverBudget | horizonTruncated | erAmbiguous
  deriving DecidableEq, Repr

structure PremiumResult where
  published : Bool
  suppressedReason : Option SuppressedReason
  necMax : List ControlId
  occMin : List ControlId
  blindnessPremium : List ControlId
  solves : ℕ
  bbNodes : ℕ
  deriving DecidableEq, Repr

structure Solves where
  controls : List ControlId
  nodes : ℕ
  solves : ℕ
  exhausted : Bool
  deriving DecidableEq, Repr

/-- The publication of what a loop found: sorted, and strictly so. -/
def Solves.publish (loc : String) (s : Solves) : Fallible Solves :=
  if s.exhausted then .ok s
  else
    let ordered := s.controls.insertionSort (· ≤ ·)
    match checkStrictlyAscending loc ordered with
    | .error e => .error e
    | .ok _ => .ok {s with controls := ordered}

/-- One exclusion probe for each control. -/
def necessaryLoop (clauses : List Clause) (atoms : AtomTable) (budget : ℤ) (baseline : ℕ) :
    List ControlId → ℕ → ℕ → List ControlId → Solves
  | [], spent, solves, found => ⟨found,spent,solves,false⟩
  | control::rest, spent, solves, found =>
    let probe := minCardinality clauses atoms (budget-spent) [control]
    let spent := spent+probe.nodes
    let solves := solves+1
    match probe.status, probe.value with
    | .budgetExhausted, _ => ⟨[],spent,solves,true⟩
    | .exact, some value => necessaryLoop clauses atoms budget baseline rest spent solves
        (if baseline < value then found++[control] else found)
    | _, _ => necessaryLoop clauses atoms budget baseline rest spent solves (found++[control])

def necessaryControls (psi : Psi) (atoms : AtomTable) (budget : ℤ) : Fallible Solves :=
  let baseline := minCardinality psi.clauses atoms budget []
  match baseline.status, baseline.value with
  | .budgetExhausted, _ => .ok ⟨[],baseline.nodes,1,true⟩
  | .exact, some value =>
    (necessaryLoop psi.clauses atoms budget value atoms.controls baseline.nodes 1 []).publish
      "necessary_controls"
  | _, _ => .error (ErrorType.schemaError.mk
      "necessary_controls: the clause database is unsatisfiable over the whole universe, which means an unblockable corridor reached it")

def AtomTable.literalAt (atoms : AtomTable) (control : ControlId) (level : ℕ) :
    Option ThresholdLiteral :=
  atoms.literals.find? fun a => a.controlId = control ∧ a.level = level

/-- The clauses no level of `control` up to `level` hits. -/
def keptClauses (clauses : List Clause) (atoms : AtomTable) (control : ControlId) (level : ℕ) :
    List Clause :=
  let ranks := ((List.range' 1 level).filterMap (atoms.literalAt control)).map (·.rank)
  clauses.filter fun c => c ∩ ranks.toFinset = ∅

/-- Whether raising `control` to one of the levels pays for itself; `none` when a probe ran
out of budget. -/
def occursAt (clauses : List Clause) (atoms : AtomTable) (budget : ℤ) (baseline : ℕ)
    (control : ControlId) : List ℕ → ℕ → ℕ → Option Bool × ℕ × ℕ
  | [], spent, solves => (some false,spent,solves)
  | level::levels, spent, solves =>
    let probe := minCardinality (keptClauses clauses atoms control level) atoms (budget-spent)
      [control]
    let spent := spent+probe.nodes
    let solves := solves+1
    match probe.status, probe.value with
    | .budgetExhausted, _ => (none,spent,solves)
    | .exact, some value =>
      if 1+value = baseline then (some true,spent,solves)
      else occursAt clauses atoms budget baseline control levels spent solves
    | _, _ => occursAt clauses atoms budget baseline control levels spent solves

def occurringLoop (clauses : List Clause) (atoms : AtomTable) (budget : ℤ) (baseline : ℕ) :
    List ControlId → ℕ → ℕ → List ControlId → Solves
  | [], spent, solves, found => ⟨found,spent,solves,false⟩
  | control::rest, spent, solves, found =>
    match occursAt clauses atoms budget baseline control
        (List.range' 1 (atoms.maxLevel control)) spent solves with
    | (none,spent,solves) => ⟨[],spent,solves,true⟩
    | (some occurs,spent,solves) => occurringLoop clauses atoms budget baseline rest spent solves
        (if occurs then found++[control] else found)

def occurringControls (psi : Psi) (atoms : AtomTable) (budget : ℤ) : Fallible Solves :=
  let baseline := minCardinality psi.clauses atoms budget []
  match baseline.status, baseline.value with
  | .budgetExhausted, _ => .ok ⟨[],baseline.nodes,1,true⟩
  | .exact, some value =>
    (occurringLoop psi.clauses atoms budget value atoms.controls baseline.nodes 1 []).publish
      "occurring_controls"
  | _, _ => .error (ErrorType.schemaError.mk
      "occurring_controls: the clause database is unsatisfiable over the whole universe")

def suppressed (reason : SuppressedReason) (nodes solves : ℕ) : PremiumResult :=
  ⟨false,some reason,[],[],[],solves,nodes⟩

/-- `NEC(psiMax) \ OCC(psiMin)`, or the reason it is not published. -/
def blindnessPremium (psiMin psiMax : Psi) (atoms : AtomTable) (budget : ℤ)
    (groundingCapped budgetExhausted horizonTruncated erAmbiguous : Bool) :
    Fallible PremiumResult :=
  if groundingCapped then .ok (suppressed .groundingCapped 0 0)
  else if !psiMin.complete || !psiMax.complete then .ok (suppressed .corridorCap 0 0)
  else if budgetExhausted then .ok (suppressed .solverBudget 0 0)
  else if horizonTruncated then .ok (suppressed .horizonTruncated 0 0)
  else if erAmbiguous then .ok (suppressed .erAmbiguous 0 0)
  else if psiMax.program ≠ .pMax then .error (ErrorType.schemaError.mk
    "blindness_premium: NEC is taken over the PMax database")
  else if psiMin.program ≠ .pMin then .error (ErrorType.schemaError.mk
    "blindness_premium: OCC is taken over the PMin database")
  else match necessaryControls psiMax atoms budget with
    | .error e => .error e
    | .ok nec =>
      if nec.exhausted then .ok (suppressed .solverBudget nec.nodes nec.solves)
      else match occurringControls psiMin atoms (budget-nec.nodes) with
        | .error e => .error e
        | .ok occ =>
          if occ.exhausted then
            .ok (suppressed .solverBudget (nec.nodes+occ.nodes) (nec.solves+occ.solves))
          else
            let premium := nec.controls.filter (· ∉ occ.controls)
            match checkStrictlyAscending "blindness_premium" premium with
            | .error e => .error e
            | .ok _ => .ok ⟨true,none,nec.controls,occ.controls,premium,nec.solves+occ.solves,
                nec.nodes+occ.nodes⟩

/-! ### The two sets, as sets of minimum assignments -/

variable {p : ReachProgram} {atoms : AtomTable} {clauses : List Clause}

/-- A minimum-cardinality assignment among those with a property. -/
structure Minimum (q : Assignment atoms → Prop) (σ : Assignment atoms) : Prop where
  holds : q σ
  least : ∀ τ, q τ → σ.raised.card ≤ τ.raised.card

/-- Minimum assignments hitting every clause. -/
def MinHitting (atoms : AtomTable) (clauses : List Clause) : Assignment atoms → Prop :=
  Minimum fun σ => σ.HitsAll clauses

/-- Minimum assignments severing the program. -/
def MinSevering (p : ReachProgram) (atoms : AtomTable) : Assignment atoms → Prop :=
  Minimum fun σ : Assignment atoms => p.Severs σ.mask

theorem minHitting_iff {v : ℕ} (hv : IsOptimum atoms clauses [] v) {σ : Assignment atoms} :
    MinHitting atoms clauses σ ↔ σ.HitsAll clauses ∧ σ.raised.card = v := by
  obtain ⟨s,hs,-,rfl⟩ := hv.attained
  constructor
  · intro h
    refine ⟨h.holds,le_antisymm ?_ (hv.least _ h.holds.hitting_raised (by simp))⟩
    have := h.least _ hs.full_hitsAll
    rwa [Assignment.raised_full hs.1] at this
  · rintro ⟨h,hc⟩
    exact ⟨h,fun τ hτ => hc ▸ hv.least _ hτ.hitting_raised (by simp)⟩

/-- A probe that excludes `control` decides whether every minimum assignment raises it. -/
theorem necessary_probe {v : ℕ} (hv : IsOptimum atoms clauses [] v) {control : ControlId} :
    (∀ σ, MinHitting atoms clauses σ → control ∈ σ.raised) ↔
      ∀ w, IsOptimum atoms clauses [control] w → v < w := by
  constructor
  · intro h w hw
    obtain ⟨s,hs,he,rfl⟩ := hw.attained
    have hne : control ∉ s := he control (by simp)
    by_contra hle
    have hcard : s.card = v := le_antisymm (by omega) (hv.least s hs (by simp))
    have := h (Assignment.full atoms s) ((minHitting_iff hv).mpr
      ⟨hs.full_hitsAll,by rw [Assignment.raised_full hs.1,hcard]⟩)
    rw [Assignment.raised_full hs.1] at this
    exact hne this
  · intro h σ hσ
    obtain ⟨hh,hc⟩ := (minHitting_iff hv).mp hσ
    by_contra hn
    -- the cheapest assignment without the control would be as small as `σ`
    have hex : ∃ n s, HittingSet atoms clauses s ∧ control ∉ s ∧ s.card = n :=
      ⟨_,σ.raised,hh.hitting_raised,hn,rfl⟩
    classical
    obtain ⟨s,hs,hcs,hcard⟩ := Nat.find_spec hex
    have hw : IsOptimum atoms clauses [control] (Nat.find hex) :=
      ⟨⟨s,hs,by simpa using hcs,hcard⟩,fun t ht he =>
        Nat.find_min' hex ⟨t,ht,he control (by simp),rfl⟩⟩
    have h₁ := h _ hw
    have h₂ := Nat.find_min' hex ⟨σ.raised,hh.hitting_raised,hn,rfl⟩
    omega

theorem mem_keptClauses {control : ControlId} {level : ℕ} {c : Clause} :
    c ∈ keptClauses clauses atoms control level ↔ c ∈ clauses ∧
      ∀ a ∈ atoms.literals, a.controlId = control → a.level ≤ level → a.rank ∉ c := by
  have hl : ∀ a : ThresholdLiteral, a ∈ (List.range' 1 level).filterMap (atoms.literalAt control) ↔
      a ∈ atoms.literals ∧ a.controlId = control ∧ a.level ≤ level := by
    intro a
    simp only [List.mem_filterMap,List.mem_range'_1,AtomTable.literalAt]
    constructor
    · rintro ⟨l,hl,hf⟩
      have hp := List.find?_some hf
      simp only [decide_eq_true_eq] at hp
      exact ⟨List.mem_of_find?_eq_some hf,hp.1,by omega⟩
    · rintro ⟨ha,hc,hle⟩
      refine ⟨a.level,⟨a.levelRange.1,by omega⟩,?_⟩
      obtain ⟨b,hb⟩ : ∃ b, atoms.literals.find?
          (fun b => decide (b.controlId = control ∧ b.level = a.level)) = some b := by
        rw [← Option.isSome_iff_exists,List.find?_isSome]
        exact ⟨a,ha,by simp [hc]⟩
      have hp := List.find?_some hb
      simp only [decide_eq_true_eq] at hp
      have hbm := List.mem_of_find?_eq_some hb
      rw [hb]
      exact congrArg some (AtomTable.literal_ext hbm ha (hp.1.trans hc.symm) hp.2)
  simp only [keptClauses,List.mem_filter,decide_eq_true_eq,Finset.eq_empty_iff_forall_notMem,
    Finset.mem_inter,List.mem_toFinset,List.mem_map,hl]
  refine and_congr_right fun _ => ?_
  constructor
  · exact fun h a ha hc hle hr => h a.rank ⟨hr,a,⟨ha,hc,hle⟩,rfl⟩
  · rintro h r ⟨hr,a,⟨ha,hc,hle⟩,rfl⟩
    exact h a ha hc hle hr

/-- The assignment `σ` with one control set to a level. -/
def Assignment.raise (σ : Assignment atoms) (control : ControlId) (level : ℕ)
    (h : level ≤ atoms.maxLevel control) : Assignment atoms where
  level := Function.update σ.level control level
  admissible c := by
    by_cases hc : c = control
    · rw [hc,Function.update_self]; exact h
    · rw [Function.update_of_ne hc]; exact σ.admissible c

/-- Raising `control` to a level pays for itself at some level exactly when some minimum
assignment raises it. -/
theorem occurring_probe {v : ℕ} (hv : IsOptimum atoms clauses [] v) {control : ControlId} :
    (∃ σ, MinHitting atoms clauses σ ∧ control ∈ σ.raised) ↔
      ∃ level ∈ List.range' 1 (atoms.maxLevel control), ∃ w,
        IsOptimum atoms (keptClauses clauses atoms control level) [control] w ∧ 1+w = v := by
  have hpay : ∀ level, 1 ≤ level → level ≤ atoms.maxLevel control → ∀ s,
      HittingSet atoms (keptClauses clauses atoms control level) s → control ∉ s →
      ∃ σ : Assignment atoms, σ.HitsAll clauses ∧ σ.raised = insert control s := by
    intro level h₁ h₂ s hs hn
    refine ⟨(Assignment.full atoms s).raise control level h₂,?_,?_⟩
    · intro c hc
      by_cases hk : c ∈ keptClauses clauses atoms control level
      · obtain ⟨a,ha,hsa,hr⟩ := hs.2 c hk
        have hne : a.controlId ≠ control := fun he => hn (he ▸ hsa)
        refine ⟨a,ha,hr,?_⟩
        simp only [Assignment.raise,Function.update_of_ne hne,Assignment.full,hsa,if_true]
        exact AtomTable.level_le_maxLevel ha
      · have hk' := mt mem_keptClauses.mpr hk
        push Not at hk'
        obtain ⟨a,ha,rfl,hle,hr⟩ := hk' hc
        exact ⟨a,ha,hr,by simpa [Assignment.raise] using hle⟩
    · ext c
      have hcc : control ∈ atoms.controls := by
        obtain ⟨a,ha,hc,-⟩ := AtomTable.exists_literal h₁ h₂
        exact AtomTable.mem_controls.mpr ⟨a,ha,hc⟩
      simp only [Assignment.raised,AtomTable.mem_raised,Assignment.raise,Finset.mem_insert]
      by_cases hc : c = control
      · simp [hc,hcc,h₁]
      · have hf := congrArg (c ∈ ·) (Assignment.raised_full hs.1)
        simp only [Assignment.raised,AtomTable.mem_raised,eq_iff_iff] at hf
        rw [Function.update_of_ne hc,hf]
        simp [hc]
  constructor
  · rintro ⟨σ,hσ,hc⟩
    obtain ⟨hh,hcard⟩ := (minHitting_iff hv).mp hσ
    have hlev := (AtomTable.mem_raised.mp hc).2
    have hadm := σ.admissible control
    refine ⟨σ.level control,List.mem_range'_1.mpr (by omega),v-1,⟨⟨σ.raised.erase control,?_,
      by simp,by rw [Finset.card_erase_of_mem hc,hcard]⟩,?_⟩,?_⟩
    · refine ⟨(Finset.erase_subset _ _).trans (Finset.filter_subset _ _),fun c hk => ?_⟩
      obtain ⟨hcl,hno⟩ := mem_keptClauses.mp hk
      obtain ⟨a,ha,hr,hl⟩ := hh c hcl
      have hne : a.controlId ≠ control := fun he => hno a ha he (he ▸ hl) hr
      exact ⟨a,ha,Finset.mem_erase.mpr ⟨hne,AtomTable.mem_raised.mpr
        ⟨AtomTable.mem_controls.mpr ⟨a,ha,rfl⟩,a.levelRange.1.trans hl⟩⟩,hr⟩
    · intro s hs he
      have hn : control ∉ s := he control (by simp)
      obtain ⟨τ,hτ,hrτ⟩ := hpay _ hlev hadm s hs hn
      have := hv.least _ hτ.hitting_raised (by simp)
      rw [hrτ,Finset.card_insert_of_notMem hn] at this
      omega
    · have : 0 < σ.raised.card := Finset.card_pos.mpr ⟨_,hc⟩
      omega
  · rintro ⟨level,hl,w,hw,hv'⟩
    obtain ⟨s,hs,he,rfl⟩ := hw.attained
    have hn : control ∉ s := he control (by simp)
    rw [List.mem_range'_1] at hl
    obtain ⟨σ,hσ,hrσ⟩ := hpay level hl.1 (by omega) s hs hn
    refine ⟨σ,(minHitting_iff hv).mpr ⟨hσ,?_⟩,by rw [hrσ]; simp⟩
    rw [hrσ,Finset.card_insert_of_notMem hn]
    omega

end Spectra
