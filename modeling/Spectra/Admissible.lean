import Spectra.Accepted

/-! Cuts over a published atom table: a set of rows that is closed under lowering, the mask it
makes, and the rows that the checker's table of bits keeps. -/
namespace Spectra
namespace Checker

theorem getLsbD_bitMask {bit i : ℕ} :
    (bitMask bit).getLsbD i = true ↔ i < 64 ∧ bit = i := by
  rw [bitMask,BitVec.getLsbD_twoPow,Bool.and_eq_true,decide_eq_true_eq,decide_eq_true_eq]
  exact and_congr_left fun h => by rw [h]

/-- The mask of some rows. -/
def maskOfRows (rows : List AtomRow) : Mask := unionMask (rows.map fun r => bitMask r.bit)

theorem getLsbD_maskOfRows {rows : List AtomRow} {i : ℕ} :
    (maskOfRows rows).getLsbD i = true ↔ ∃ r ∈ rows, (bitMask r.bit).getLsbD i = true := by
  simp [maskOfRows,unionMask_getLsbD]

/-- An admissible cut: rows of the table, and with a level all that are not above it. -/
structure AdmissibleCut (atoms : Atoms) where
  rows : List AtomRow
  listed : ∀ r ∈ rows, r ∈ atoms.byRank
  closed : ∀ r ∈ rows, ∀ r' ∈ atoms.byRank, r'.controlId = r.controlId → r'.level ≤ r.level →
    r' ∈ rows

namespace AdmissibleCut

variable {atoms : Atoms}

/-- The controls a cut raises. -/
def controls (cut : AdmissibleCut atoms) : Finset ControlId :=
  (cut.rows.map (·.controlId)).toFinset

def mask (cut : AdmissibleCut atoms) : Mask := maskOfRows cut.rows

/-- Every control of a set at its top. -/
def raise (atoms : Atoms) (controls : Finset ControlId) : AdmissibleCut atoms where
  rows := atoms.byRank.filter (·.controlId ∈ controls)
  listed := fun r hr => (List.mem_filter.mp hr).1
  closed := by
    intro r hr r' hr' hc _
    have := (List.mem_filter.mp hr).2
    exact List.mem_filter.mpr ⟨hr',by rwa [hc]⟩

theorem controls_raise_subset (T : Finset ControlId) : (raise atoms T).controls ⊆ T := by
  intro c hc
  obtain ⟨r,hr,rfl⟩ := List.mem_map.mp (List.mem_toFinset.mp hc)
  exact of_decide_eq_true (List.mem_filter.mp hr).2

/-- A cut is below the cut that raises as many controls to their top. -/
theorem mask_le_raise (cut : AdmissibleCut atoms) {T : Finset ControlId} (h : cut.controls ⊆ T)
    {i : ℕ} (hi : cut.mask.getLsbD i = true) : (raise atoms T).mask.getLsbD i = true := by
  obtain ⟨r,hr,hi⟩ := getLsbD_maskOfRows.mp hi
  refine getLsbD_maskOfRows.mpr ⟨r,List.mem_filter.mpr ⟨cut.listed r hr,?_⟩,hi⟩
  exact decide_eq_true (h (List.mem_toFinset.mpr (List.mem_map_of_mem hr)))

end AdmissibleCut

namespace Atoms

/-- The controls of the table. -/
def controls (atoms : Atoms) : Finset ControlId := (atoms.byRank.map (·.controlId)).toFinset

/-- The row is the one that the table of bits holds for its control and level. -/
def kept (atoms : Atoms) (r : AtomRow) : Bool :=
  Dict.get? atoms.bits (r.controlId,r.level) = some r.bit

/-- The mask of a set of controls, as far as the table of bits holds their rows. -/
def keptMask (atoms : Atoms) (T : Finset ControlId) : Mask :=
  maskOfRows ((AdmissibleCut.raise atoms T).rows.filter atoms.kept)

theorem keptMask_le {atoms : Atoms} {T : Finset ControlId} {i : ℕ}
    (h : (atoms.keptMask T).getLsbD i = true) :
    (AdmissibleCut.raise atoms T).mask.getLsbD i = true := by
  obtain ⟨r,hr,hi⟩ := getLsbD_maskOfRows.mp h
  exact getLsbD_maskOfRows.mpr ⟨r,(List.mem_filter.mp hr).1,hi⟩

variable {rows : List AtomRow}

theorem mem_rankOrder {r : AtomRow} : r ∈ rankOrder rows ↔ r ∈ rows := List.mem_insertionSort _

theorem mem_levelsOf {c : ControlId} {l : ℤ} : l ∈ (ofRows rows).levelsOf c ↔
    ∃ r ∈ (ofRows rows).byRank, r.controlId = c ∧ r.level = l := by
  have hgather := Dict.getD_foldl_append (f := fun r : AtomRow => r.controlId)
    (v := fun r : AtomRow => r.level) (l := rankOrder rows) (d := []) (k := c)
  rw [Dict.get?_nil,Option.getD_none,List.nil_append] at hgather
  have hlevels : l ∈ (ofRows rows).levelsOf c ↔
      l ∈ ((rankOrder rows).filter (·.controlId = c)).map (·.level) := by
    rw [levelsOf,ofRows,Dict.get?_map,← hgather]
    generalize Dict.get? (List.foldl _ _ _) c = o
    cases o <;> simp
  rw [hlevels]
  simp [ofRows,and_assoc]

theorem mem_controlLevels {c : ControlId} :
    c ∈ (ofRows rows).controlLevels.map (·.1) ↔ c ∈ (ofRows rows).controls := by
  have h := Dict.mem_keys_foldl (f := fun r : AtomRow => r.controlId)
    (v := fun d r => (Dict.get? d r.controlId).getD []++[r.level]) (l := rankOrder rows) (d := [])
    (k := c)
  simpa [ofRows,controls,List.map_map,Function.comp_def] using h

theorem nodup_controlLevels : ((ofRows rows).controlLevels.map (·.1)).Nodup := by
  have h := Dict.nodup_keys_foldl (f := fun r : AtomRow => r.controlId)
    (v := fun d r => (Dict.get? d r.controlId).getD []++[r.level]) (l := rankOrder rows) (d := [])
    List.nodup_nil
  simpa only [ofRows,List.map_map,Function.comp_def] using h

theorem bits_mem {c : ControlId} {l : ℤ} {b : ℕ}
    (h : Dict.get? (ofRows rows).bits (c,l) = some b) : ⟨c,l,b⟩ ∈ (ofRows rows).byRank := by
  rcases Dict.get?_foldl_mem (f := fun r : AtomRow => (r.controlId,r.level))
    (v := fun r : AtomRow => r.bit) h with h | ⟨r,hr,hk,rfl⟩
  · cases h
  · obtain ⟨rfl,rfl⟩ := Prod.mk.inj hk
    exact hr

theorem isSome_bits {r : AtomRow} (hr : r ∈ (ofRows rows).byRank) :
    (Dict.get? (ofRows rows).bits (r.controlId,r.level)).isSome := by
  have hkey := (Dict.mem_keys_foldl (f := fun r : AtomRow => (r.controlId,r.level))
    (v := fun _ r => r.bit) (l := rankOrder rows) (d := [])).mpr (.inr ⟨r,hr,rfl⟩)
  exact Dict.isSome_get?_iff.mpr hkey

/-- With one row for each control and level, the table of bits keeps every row. -/
theorem kept_of_distinct (h : ((ofRows rows).byRank.map fun r => (r.controlId,r.level)).Nodup)
    {r : AtomRow} (hr : r ∈ (ofRows rows).byRank) : (ofRows rows).kept r = true := by
  obtain ⟨b,hb⟩ := Option.isSome_iff_exists.mp (isSome_bits hr)
  have := List.inj_on_of_nodup_map h (bits_mem hb) hr rfl
  rw [kept,hb,← this]; simp

end Atoms

/-! ### The masks of the probe -/

theorem mem_combinations {α : Type} {s : List α} : ∀ {k : ℕ} {l : List α},
    s ∈ combinations k l ↔ s.Sublist l ∧ s.length = k
  | 0, l => by
    simp only [combinations,List.mem_singleton,List.length_eq_zero_iff,iff_and_self]
    rintro rfl; exact List.nil_sublist l
  | k+1, [] => by
    simp only [combinations,List.not_mem_nil,List.sublist_nil,false_iff,not_and]
    rintro rfl; simp
  | k+1, a::l => by
    simp only [combinations,List.mem_append,List.mem_map,mem_combinations (l := l),
      List.sublist_cons_iff]
    constructor
    · rintro (⟨r,⟨hr,hk⟩,rfl⟩ | ⟨hr,hk⟩)
      · exact ⟨.inr ⟨r,rfl,hr⟩,by simp [hk]⟩
      · exact ⟨.inl hr,hk⟩
    · rintro ⟨hr | ⟨r,rfl,hr⟩,hk⟩
      · exact .inr ⟨hr,hk⟩
      · exact .inl ⟨r,⟨hr,by simpa using hk⟩,rfl⟩

/-- Every set of the listed controls is one of the combinations of its size. -/
theorem exists_combination {l : List ControlId} (hl : l.Nodup) {T : Finset ControlId}
    (hT : ∀ c ∈ T, c ∈ l) : ∃ subset ∈ combinations T.card l, subset.toFinset = T := by
  have hfin : (l.filter (· ∈ T)).toFinset = T := by
    ext c
    rw [List.mem_toFinset,List.mem_filter,decide_eq_true_eq,and_iff_right_iff_imp]
    exact hT c
  refine ⟨l.filter (· ∈ T),mem_combinations.mpr ⟨List.filter_sublist,?_⟩,hfin⟩
  rw [← List.toFinset_card_of_nodup (hl.filter _),hfin]

theorem maskOfLevels_ok {atoms : Atoms} {c : ControlId} {levels : List ℤ} {m m' : Mask}
    (h : levels.foldlM (fun mask level => do
      pure (mask ||| bitMask (← atoms.bitOf c level))) m = Except.ok (ε := Raised) m') (i : ℕ) :
    m'.getLsbD i = true ↔ m.getLsbD i = true ∨ ∃ l ∈ levels, ∃ b,
      Dict.get? atoms.bits (c,l) = some b ∧ (bitMask b).getLsbD i = true := by
  induction levels generalizing m with
  | nil => simp [← Runs.foldlM_nil_ok.mp h]
  | cons l levels ih =>
    obtain ⟨u,hu,h⟩ := Runs.foldlM_cons_ok.mp h
    obtain ⟨b,hb,hu⟩ := Runs.bind_ok.mp hu
    have hget : Dict.get? atoms.bits (c,l) = some b := by
      unfold Atoms.bitOf at hb
      split at hb <;> simp_all
    rw [ih h,← Runs.pure_ok.mp hu,List.exists_mem_cons_iff,hget]
    simp [or_assoc]

/-- The mask the probe makes of a subset of the controls. -/
theorem maskOfControls_ok {rows : List AtomRow} {subset : List ControlId} {m : Mask}
    (h : maskOfControls (Atoms.ofRows rows) subset = .ok m) :
    m = (Atoms.ofRows rows).keptMask subset.toFinset := by
  have hfold : ∀ (l : List ControlId) (m m' : Mask),
      l.foldlM (fun mask control => ((Atoms.ofRows rows).levelsOf control).foldlM
        (fun mask level => do
          pure (mask ||| bitMask (← (Atoms.ofRows rows).bitOf control level))) mask) m =
        Except.ok (ε := Raised) m' → ∀ i, m'.getLsbD i = true ↔ m.getLsbD i = true ∨
          ∃ c ∈ l, ∃ lv ∈ (Atoms.ofRows rows).levelsOf c, ∃ b,
            Dict.get? (Atoms.ofRows rows).bits (c,lv) = some b ∧ (bitMask b).getLsbD i = true := by
    intro l
    induction l with
    | nil => intro m m' h i; simp [← Runs.foldlM_nil_ok.mp h]
    | cons c l ih =>
      intro m m' h i
      obtain ⟨u,hu,h⟩ := Runs.foldlM_cons_ok.mp h
      rw [ih u m' h i,maskOfLevels_ok hu i,List.exists_mem_cons_iff,or_assoc]
  refine BitVec.eq_of_getLsbD_eq_iff.mpr fun i _ => Bool.eq_iff_iff.mpr ?_
  rw [hfold subset 0 m h i,Atoms.keptMask,getLsbD_maskOfRows]
  simp only [BitVec.ofNat_eq_ofNat,BitVec.getLsbD_zero,Bool.false_eq_true,false_or]
  constructor
  · rintro ⟨c,hc,l,-,b,hb,hi⟩
    have hmem := Atoms.bits_mem hb
    refine ⟨⟨c,l,b⟩,List.mem_filter.mpr ⟨List.mem_filter.mpr ⟨hmem,?_⟩,?_⟩,hi⟩
    · exact decide_eq_true (List.mem_toFinset.mpr hc)
    · exact decide_eq_true hb
  · rintro ⟨r,hr,hi⟩
    obtain ⟨hr,hkept⟩ := List.mem_filter.mp hr
    obtain ⟨hr,hc⟩ := List.mem_filter.mp hr
    exact ⟨r.controlId,List.mem_toFinset.mp (of_decide_eq_true hc),r.level,
      Atoms.mem_levelsOf.mpr ⟨r,hr,rfl,rfl⟩,r.bit,of_decide_eq_true hkept,hi⟩

/-! ### The published cut -/

theorem o5Atoms_ok {lib : Library} {body : Json} {files : CheckerInputs} {atoms : Atoms}
    (h : o5Atoms lib body files = .ok atoms) : ∃ rows, atoms = Atoms.ofRows rows := by
  simp only [o5Atoms,Runs.bind_ok,Runs.pure_ok] at h
  obtain ⟨_,-,_,-,_,-,_,-,_,-,_,-,_,-,rows,-,_,-,_,-,_,-,_,-,_,-,_,-,rfl⟩ := h
  exact ⟨rows,rfl⟩

theorem readCutEntry_ok {atoms : Atoms} {entry : Json} {p : ℕ × AtomRow}
    (h : readCutEntry atoms entry = .ok p) : atoms.byRank[p.1]? = some p.2 := by
  obtain ⟨rank,-,h⟩ := Runs.bind_ok.mp h
  simp only [Runs.bind_ok] at h
  obtain ⟨_,-,_,-,_,-,o,ho,h⟩ := h
  obtain ⟨_,-,ho⟩ := Runs.bind_ok.mp ho
  cases o with
  | none => cases h
  | some q =>
    simp only [Runs.bind_ok,Runs.pure_ok] at h
    obtain ⟨_,-,rfl⟩ := h
    split at ho
    · have ho := Runs.pure_ok.mp ho
      split at ho
      · obtain ⟨row,hrow,rfl⟩ := Option.map_eq_some_iff.mp ho
        exact hrow
      · cases ho
    · cases Runs.pure_ok.mp ho

/-- What O6 establishes about the cut: rows of the table under their ranks, its mask and its
raised controls. -/
theorem o6Cut_ok {body : Json} {atoms : Atoms} {cut : PublishedCut}
    (h : o6Cut body atoms = .ok cut) : cut = PublishedCut.ofRows cut.rows ∧
      (∀ p ∈ cut.rows, atoms.byRank[p.1]? = some p.2) ∧
      ∀ p ∈ cut.controls, upwardClosed atoms cut.rows p = .ok () := by
  simp only [o6Cut,Runs.bind_ok,Runs.pure_ok,forEach_ok] at h
  obtain ⟨_,-,entries,-,rows,hrows,_,-,_,hclosed,rfl⟩ := h
  refine ⟨rfl,fun p hp => ?_,hclosed⟩
  obtain ⟨entry,-,hentry⟩ := mapM_mem hrows hp
  exact readCutEntry_ok hentry

namespace PublishedCut

variable {rows : List (ℕ × AtomRow)}

theorem mem_controls {c : ControlId} :
    c ∈ (ofRows rows).controls.map (·.1) ↔ ∃ p ∈ rows, p.2.controlId = c := by
  have h := Dict.mem_keys_foldl (f := fun p : ℕ × AtomRow => p.2.controlId)
    (v := fun d p => max ((Dict.get? d p.2.controlId).getD 0) p.2.level) (l := rows) (d := [])
    (k := c)
  simpa only [ofRows,List.map_nil,List.not_mem_nil,false_or] using h

theorem nodup_controls : ((ofRows rows).controls.map (·.1)).Nodup :=
  Dict.nodup_keys_foldl (f := fun p : ℕ × AtomRow => p.2.controlId)
    (v := fun d p => max ((Dict.get? d p.2.controlId).getD 0) p.2.level) List.nodup_nil

theorem length_controls : (ofRows rows).controls.length =
    ((rows.map (·.2.controlId)).toFinset).card := by
  have h : ((ofRows rows).controls.map (·.1)).toFinset = (rows.map (·.2.controlId)).toFinset := by
    ext c
    rw [List.mem_toFinset,mem_controls,List.mem_toFinset,List.mem_map]
  rw [← h,List.toFinset_card_of_nodup nodup_controls,List.length_map]

theorem getLsbD_mask {i : ℕ} : (ofRows rows).mask.getLsbD i = true ↔
    ∃ p ∈ rows, (bitMask p.2.bit).getLsbD i = true := by
  have h : (ofRows rows).mask = maskOfRows (rows.map (·.2)) := by
    simp only [ofRows,maskOfRows,unionMask,List.foldl_map]
  rw [h,getLsbD_maskOfRows]
  simp only [List.mem_map,exists_exists_and_eq_and]

end PublishedCut

end Checker

end Spectra
