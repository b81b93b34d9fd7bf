import Mathlib.Data.Finset.Card
import Mathlib.Data.List.Destutter
import Mathlib.Data.List.Range
import Spectra.Reach

/-! `spectra_vs.cut`, the literal universe: the atom table in canonical order, the cuts it
renders and the assignments of levels to controls they stand for. -/
namespace Spectra

/-- A corridor clause: a set of literal ranks. -/
abbrev Clause := Finset ℕ

def levelsIn (literals : List ThresholdLiteral) (control : ControlId) : List ThresholdLiteral :=
  literals.filter (·.controlId = control)

def checkAtomTable (literals : List ThresholdLiteral) : Fallible Unit := checks [
  checkStrictlyAscending "AtomTable.literals" (literals.map fun a => toLex (a.controlId,a.level)),
  ensure (literals.length ≤ 64) (ErrorType.limitError.mk ("AtomTable: "++
    toString literals.length++" literals exceeds the 64-bit mask width")),
  checks (literals.zipIdx.map fun (a,index) => ensure (a.rank = index)
    (ErrorType.schemaError.mk ("AtomTable: literal of "++a.controlId++" carries rank "++
      toString a.rank++" but is at canonical position "++toString index))),
  ensure (literals.map (·.bit)).Nodup
    (ErrorType.schemaError.mk "AtomTable: two literals share a bit position"),
  checks (((literals.map (·.controlId)).dedup.insertionSort (· ≤ ·)).map fun control =>
    ensure ((levelsIn literals control).map (·.level) =
        List.range' 1 (levelsIn literals control).length)
      (ErrorType.schemaError.mk ("AtomTable: "++control++" levels are not 1..m dense")))]

structure AtomTable where
  literals : List ThresholdLiteral
  valid : checkAtomTable literals = .ok ()
  deriving DecidableEq

def AtomTable.build (literals : List ThresholdLiteral) : Fallible AtomTable :=
  match h : checkAtomTable literals with
  | .error e => .error e
  | .ok _ => .ok ⟨literals,h⟩

namespace AtomTable

def controls (atoms : AtomTable) : List ControlId :=
  (atoms.literals.map (·.controlId)).destutter (· ≠ ·)

def levelsOf (atoms : AtomTable) (control : ControlId) : List ThresholdLiteral :=
  levelsIn atoms.literals control

def maxLevel (atoms : AtomTable) (control : ControlId) : ℕ := (atoms.levelsOf control).length

/-- The ranks a mask selects, ascending. -/
def ranksOfMask (atoms : AtomTable) (mask : Mask) : List ℕ :=
  (atoms.literals.filter fun a => mask.getLsbD a.bit).map (·.rank)

def maskOfRanks (atoms : AtomTable) (ranks : List ℕ) : Mask :=
  maskOf (ranks.filterMap (atoms.literals[·]?))

/-- The literals a level per control asserts, and the cut they make. -/
def literalsAt (atoms : AtomTable) (levels : ControlId → ℕ) : List ThresholdLiteral :=
  atoms.literals.filter fun a => a.level ≤ levels a.controlId

def cutOfLevels (atoms : AtomTable) (levels : ControlId → ℕ) (minimality : Minimality) :
    Fallible Cut := Cut.mint (atoms.literalsAt levels) minimality

variable (atoms : AtomTable)

theorem ascending : (atoms.literals.map fun a => toLex (a.controlId,a.level)).Pairwise (· < ·) := by
  have h := atoms.valid
  simp only [checkAtomTable,checks_cons,checkStrictlyAscending_ok] at h
  exact h.1

theorem width : atoms.literals.length ≤ 64 := by
  have h := atoms.valid
  simp only [checkAtomTable,checks_cons,ensure_ok] at h
  exact h.2.1

theorem getElem?_rank {a : ThresholdLiteral} {i : ℕ} :
    atoms.literals[i]? = some a ↔ a ∈ atoms.literals ∧ a.rank = i := by
  have h := atoms.valid
  simp only [checkAtomTable,checks_cons,checks_map,ensure_ok] at h
  have hr : ∀ (i : ℕ) (a : ThresholdLiteral), atoms.literals[i]? = some a → a.rank = i := fun i a ha =>
    h.2.2.1 (a,i) (List.mem_zipIdx_iff_getElem?.mpr ha)
  constructor
  · intro ha
    exact ⟨List.mem_of_getElem? ha,hr i a ha⟩
  · rintro ⟨ha,rfl⟩
    obtain ⟨i,hi⟩ := List.mem_iff_getElem?.mp ha
    rwa [hr i a hi]

theorem bits_inj {a b : ThresholdLiteral} (ha : a ∈ atoms.literals) (hb : b ∈ atoms.literals)
    (h : a.bit = b.bit) : a = b := by
  have hv := atoms.valid
  simp only [checkAtomTable,checks_cons,ensure_ok] at hv
  exact List.inj_on_of_nodup_map hv.2.2.2.1 ha hb h

theorem rank_inj {a b : ThresholdLiteral} (ha : a ∈ atoms.literals) (hb : b ∈ atoms.literals)
    (h : a.rank = b.rank) : a = b := by
  have h₁ := atoms.getElem?_rank.mpr ⟨ha,rfl⟩
  have h₂ := atoms.getElem?_rank.mpr ⟨hb,rfl⟩
  rw [h,h₂] at h₁
  exact (Option.some.inj h₁).symm

theorem rank_lt {a : ThresholdLiteral} (ha : a ∈ atoms.literals) :
    a.rank < atoms.literals.length :=
  (List.getElem?_eq_some_iff.mp (atoms.getElem?_rank.mpr ⟨ha,rfl⟩)).1

theorem ranks_ascending : (atoms.literals.map (·.rank)).Pairwise (· < ·) := by
  have h : atoms.literals.map (·.rank) = List.range atoms.literals.length := by
    refine List.ext_getElem? fun i => ?_
    cases hi : atoms.literals[i]? with
    | none =>
      have := List.getElem?_eq_none_iff.mp hi
      simp [this]
    | some a =>
      have ha := atoms.getElem?_rank.mp hi
      have hl := (List.getElem?_eq_some_iff.mp hi).1
      simp [hi,List.getElem?_range hl,ha.2]
  rw [h]
  exact List.pairwise_lt_range

theorem levels_dense (control : ControlId) :
    (atoms.levelsOf control).map (·.level) = List.range' 1 (atoms.maxLevel control) := by
  have h := atoms.valid
  simp only [checkAtomTable,checks_cons,checks_map,ensure_ok,List.mem_insertionSort,
    List.mem_dedup] at h
  by_cases hc : control ∈ atoms.literals.map (·.controlId)
  · exact h.2.2.2.2.1 control hc
  · have hn : atoms.levelsOf control = [] := by
      refine List.filter_eq_nil_iff.mpr fun a ha => ?_
      simp only [decide_eq_true_eq]
      rintro rfl
      exact hc (List.mem_map_of_mem ha)
    simp [maxLevel,hn]

variable {atoms}

theorem mem_levelsOf {control : ControlId} {a : ThresholdLiteral} :
    a ∈ atoms.levelsOf control ↔ a ∈ atoms.literals ∧ a.controlId = control := by
  simp [levelsOf,levelsIn]

theorem level_le_maxLevel {a : ThresholdLiteral} (ha : a ∈ atoms.literals) :
    a.level ≤ atoms.maxLevel a.controlId := by
  have h : a.level ∈ (atoms.levelsOf a.controlId).map (·.level) :=
    List.mem_map_of_mem (mem_levelsOf.mpr ⟨ha,rfl⟩)
  rw [levels_dense,List.mem_range'_1] at h
  omega

theorem exists_literal {control : ControlId} {level : ℕ} (h₁ : 1 ≤ level)
    (h₂ : level ≤ atoms.maxLevel control) :
    ∃ a ∈ atoms.literals, a.controlId = control ∧ a.level = level := by
  have h : level ∈ (atoms.levelsOf control).map (·.level) := by
    rw [levels_dense,List.mem_range'_1]; omega
  obtain ⟨a,ha,rfl⟩ := List.mem_map.mp h
  exact ⟨a,(mem_levelsOf.mp ha).1,(mem_levelsOf.mp ha).2,rfl⟩

theorem literal_ext {a b : ThresholdLiteral} (ha : a ∈ atoms.literals) (hb : b ∈ atoms.literals)
    (hc : a.controlId = b.controlId) (hl : a.level = b.level) : a = b := by
  have hinj : ∀ l : List ThresholdLiteral, (l.map (·.level)).Nodup → a ∈ l → b ∈ l → a = b :=
    fun l hn hal hbl => List.inj_on_of_nodup_map hn hal hbl hl
  refine hinj (atoms.levelsOf a.controlId) ?_ (mem_levelsOf.mpr ⟨ha,rfl⟩)
    (mem_levelsOf.mpr ⟨hb,hc.symm⟩)
  rw [levels_dense]
  exact List.nodup_range'

theorem mem_take_levelsOf {control : ControlId} {l : ℕ} {a : ThresholdLiteral} :
    a ∈ (atoms.levelsOf control).take l ↔
      a ∈ atoms.literals ∧ a.controlId = control ∧ a.level ≤ l := by
  have hget : ∀ i a, (atoms.levelsOf control)[i]? = some a → a.level = i+1 := by
    intro i a ha
    have h : ((atoms.levelsOf control).map (·.level))[i]? = some a.level := by simp [ha]
    have hi := (List.getElem?_eq_some_iff.mp ha).1
    rw [levels_dense,List.getElem?_range' (by unfold maxLevel; exact hi)] at h
    have := Option.some.inj h
    omega
  constructor
  · intro ha
    obtain ⟨hm,hc⟩ := mem_levelsOf.mp (List.mem_of_mem_take ha)
    obtain ⟨i,hi⟩ := List.mem_iff_getElem?.mp ha
    have hl := (List.getElem?_eq_some_iff.mp hi).1
    rw [List.length_take] at hl
    rw [List.getElem?_take_of_lt (by omega)] at hi
    exact ⟨hm,hc,by rw [hget i a hi]; omega⟩
  · rintro ⟨hm,hc,hl⟩
    obtain ⟨i,hi⟩ := List.mem_iff_getElem?.mp (mem_levelsOf.mpr ⟨hm,hc⟩)
    have := hget i a hi
    refine List.mem_of_getElem? (i := i) ?_
    rw [List.getElem?_take_of_lt (by omega),hi]

theorem controls_eq_dedup : atoms.controls = (atoms.literals.map (·.controlId)).dedup := by
  refine List.Pairwise.destutter_eq_dedup (r := (· ≤ ·)) ?_
  have h := atoms.ascending
  rw [List.pairwise_map] at h ⊢
  exact h.imp fun hab => (Prod.Lex.monotone_fst_ofLex hab.le)

theorem mem_controls {control : ControlId} :
    control ∈ atoms.controls ↔ ∃ a ∈ atoms.literals, a.controlId = control := by
  rw [controls_eq_dedup,List.mem_dedup,List.mem_map]

theorem controls_nodup : atoms.controls.Nodup := by
  rw [controls_eq_dedup]; exact List.nodup_dedup _

theorem maxLevel_pos {control : ControlId} (h : control ∈ atoms.controls) :
    1 ≤ atoms.maxLevel control := by
  obtain ⟨a,ha,rfl⟩ := mem_controls.mp h
  exact a.levelRange.1.trans (level_le_maxLevel ha)

theorem controls_length : atoms.controls.length ≤ 64 := by
  have h := (List.destutter_sublist (· ≠ ·) (atoms.literals.map (·.controlId))).length_le
  rw [List.length_map] at h
  exact h.trans atoms.width

/-! ### Cuts from levels -/

theorem range'_filter_le (m l : ℕ) :
    (List.range' 1 m).filter (· ≤ l) = List.range' 1 (min m l) := by
  induction m with
  | zero => simp
  | succ m ih =>
    rw [List.range'_concat,List.filter_append,ih]
    by_cases h : 1+1*m ≤ l
    · rw [List.filter_cons_of_pos (by simpa using h),List.filter_nil,
        show min m l = m by omega,show min (m+1) l = m+1 by omega,List.range'_concat]
    · rw [List.filter_cons_of_neg (by simpa using h),List.filter_nil,List.append_nil,
        show min (m+1) l = min m l by omega]

theorem mem_literalsAt {levels : ControlId → ℕ} {a : ThresholdLiteral} :
    a ∈ atoms.literalsAt levels ↔ a ∈ atoms.literals ∧ a.level ≤ levels a.controlId := by
  simp [literalsAt]

theorem literalsAt_levels (levels : ControlId → ℕ) (control : ControlId) :
    ((atoms.literalsAt levels).filter (·.controlId = control)).map (·.level) =
      List.range' 1 (min (atoms.maxLevel control) (levels control)) := by
  have h : (atoms.literalsAt levels).filter (·.controlId = control) =
      (atoms.levelsOf control).filter (·.level ≤ levels control) := by
    simp only [literalsAt,levelsOf,levelsIn,List.filter_filter]
    refine List.filter_congr fun a _ => ?_
    by_cases hc : a.controlId = control <;> simp [hc]
  rw [h,← range'_filter_le,← levels_dense,List.filter_map]
  rfl

/-- The controls an assignment raises. -/
def raised (atoms : AtomTable) (levels : ControlId → ℕ) : Finset ControlId :=
  atoms.controls.toFinset.filter (1 ≤ levels ·)

theorem mem_raised {levels : ControlId → ℕ} {control : ControlId} :
    control ∈ atoms.raised levels ↔ control ∈ atoms.controls ∧ 1 ≤ levels control := by
  simp [raised]

theorem literalsAt_controls (levels : ControlId → ℕ) :
    ((atoms.literalsAt levels).map (·.controlId)).toFinset = atoms.raised levels := by
  ext control
  simp only [List.mem_toFinset,List.mem_map,mem_literalsAt,mem_raised]
  constructor
  · rintro ⟨a,⟨ha,hl⟩,rfl⟩
    exact ⟨mem_controls.mpr ⟨a,ha,rfl⟩,a.levelRange.1.trans hl⟩
  · rintro ⟨hc,hl⟩
    obtain ⟨a,ha,rfl,h₁⟩ := exists_literal le_rfl (maxLevel_pos hc)
    exact ⟨a,⟨ha,by omega⟩,rfl⟩

theorem card_raised_le (levels : ControlId → ℕ) : (atoms.raised levels).card ≤ 64 :=
  (Finset.card_filter_le _ _).trans ((List.toFinset_card_le _).trans controls_length)

/-- Every level vector renders as a cut: nothing in the constructor can refuse it. -/
theorem cutOfLevels_ok (levels : ControlId → ℕ) (minimality : Minimality) :
    ∃ cut, atoms.cutOfLevels levels minimality = .ok cut ∧
      cut.atoms = atoms.literalsAt levels ∧ cut.cardinality = (atoms.raised levels).card ∧
      cut.mask = maskOf (atoms.literalsAt levels) ∧ cut.minimality = minimality := by
  have hcard : ((atoms.literalsAt levels).map (·.controlId)).dedup.length =
      (atoms.raised levels).card := by
    rw [← literalsAt_controls,List.card_toFinset]
  have hv : (⟨atoms.literalsAt levels,((atoms.literalsAt levels).map (·.controlId)).dedup.length,
      maskOf (atoms.literalsAt levels),minimality⟩ : CutFields).postInit = .ok () := by
    simp only [CutFields.postInit,checks_cons,checks_nil,checkStrictlyAscending_ok,ensure_ok,
      CutFields.checkUpwardClosed,checks_map,and_true]
    refine ⟨(atoms.ranks_ascending).sublist (List.filter_sublist.map _),?_,?_⟩
    · rw [hcard]
      exact lt_of_le_of_lt (card_raised_le levels) (by norm_num)
    · intro control _
      rw [literalsAt_levels,List.Pairwise.insertionSort_eq,List.length_range']
      exact List.pairwise_le_range' _
  refine ⟨⟨_,hv⟩,?_,rfl,hcard,rfl,rfl⟩
  unfold cutOfLevels Cut.mint
  simp only
  split
  · rename_i e he
    rw [hv] at he
    cases he
  · rfl

end AtomTable

/-- One admissible level per control: the upward-closed cuts. -/
structure Assignment (atoms : AtomTable) where
  level : ControlId → ℕ
  admissible : ∀ control, level control ≤ atoms.maxLevel control

namespace Assignment

variable {atoms : AtomTable}

def raised (σ : Assignment atoms) : Finset ControlId := atoms.raised σ.level

def mask (σ : Assignment atoms) : Mask := maskOf (atoms.literalsAt σ.level)

/-- The assignment raises a literal of the clause. -/
def Hits (σ : Assignment atoms) (clause : Clause) : Prop :=
  ∃ a ∈ atoms.literals, a.rank ∈ clause ∧ a.level ≤ σ.level a.controlId

def HitsAll (σ : Assignment atoms) (clauses : List Clause) : Prop := ∀ c ∈ clauses, σ.Hits c

theorem mask_getLsbD {σ : Assignment atoms} {b : ℕ} : σ.mask.getLsbD b = true ↔
    ∃ a ∈ atoms.literals, a.level ≤ σ.level a.controlId ∧ a.bit = b := by
  simp [mask,maskOf_getLsbD,AtomTable.mem_literalsAt,and_assoc]

/-- Every chosen control at its maximum level. -/
def full (atoms : AtomTable) (s : Finset ControlId) : Assignment atoms where
  level control := if control ∈ s then atoms.maxLevel control else 0
  admissible control := by split <;> omega

theorem raised_full {s : Finset ControlId} (hs : s ⊆ atoms.controls.toFinset) :
    (full atoms s).raised = s := by
  ext control
  simp only [raised,AtomTable.mem_raised,full]
  constructor
  · rintro ⟨-,h⟩
    by_contra hn
    simp [hn] at h
  · intro h
    have hc := List.mem_toFinset.mp (hs h)
    exact ⟨hc,by simpa [h] using AtomTable.maxLevel_pos hc⟩

end Assignment

/-- The controls of `s`, at any level, hit every clause. -/
def HittingSet (atoms : AtomTable) (clauses : List Clause) (s : Finset ControlId) : Prop :=
  s ⊆ atoms.controls.toFinset ∧ ∀ c ∈ clauses, ∃ a ∈ atoms.literals, a.controlId ∈ s ∧ a.rank ∈ c

theorem Assignment.HitsAll.hitting_raised {atoms : AtomTable} {clauses : List Clause}
    {σ : Assignment atoms} (h : σ.HitsAll clauses) : HittingSet atoms clauses σ.raised := by
  refine ⟨Finset.filter_subset _ _,fun c hc => ?_⟩
  obtain ⟨a,ha,hr,hl⟩ := h c hc
  exact ⟨a,ha,AtomTable.mem_raised.mpr ⟨AtomTable.mem_controls.mpr ⟨a,ha,rfl⟩,
    a.levelRange.1.trans hl⟩,hr⟩

theorem HittingSet.full_hitsAll {atoms : AtomTable} {clauses : List Clause} {s : Finset ControlId}
    (h : HittingSet atoms clauses s) : (Assignment.full atoms s).HitsAll clauses := by
  intro c hc
  obtain ⟨a,ha,hs,hr⟩ := h.2 c hc
  exact ⟨a,ha,hr,by simpa [Assignment.full,hs] using AtomTable.level_le_maxLevel ha⟩

end Spectra
