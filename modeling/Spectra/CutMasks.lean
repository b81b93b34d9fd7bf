import Spectra.AtomTable

/-! `reach.admissible_cut_masks`: the masks of every assignment of levels, which the walk over the whole
lattice of cuts takes its masks from. -/
namespace Spectra

/-- What the levels of one control may assert: nothing, then one more literal each time. -/
def optionsOf (levels : List ThresholdLiteral) : List Mask :=
  levels.scanl (fun running a => running ||| BitVec.twoPow 64 a.bit) 0

/-- The masks after the options of one more control. -/
def withControl (literals : List ThresholdLiteral) (masks : List Mask) (control : ControlId) : List Mask :=
  masks.flatMap fun m =>
    (optionsOf ((levelsIn literals control).insertionSort (·.level ≤ ·.level))).map (m ||| ·)

def admissibleCutMasks (literals : List ThresholdLiteral) : List Mask :=
  ((((literals.map (·.controlId)).dedup.insertionSort (· ≤ ·)).foldl (withControl literals) [0]).dedup).insertionSort
    (·.toNat ≤ ·.toNat)

/-! ### The options of a control -/

theorem scanl_eq_map {α β : Type*} (f : β → α → β) (b : β) (l : List α) :
    l.scanl f b = (List.range (l.length+1)).map fun i => (l.take i).foldl f b := by
  induction l generalizing b with
  | nil => simp
  | cons a l ih =>
    rw [List.scanl_cons,ih,List.length_cons,List.range_succ_eq_map (n := l.length+1)]
    simp

variable {atoms : AtomTable} {cs : List ControlId} {control : ControlId} {m n o p : Mask}

/-- The masks a control may assert, by the level it is set to. -/
def AtomTable.levelMask (atoms : AtomTable) (control : ControlId) (level : ℕ) : Mask :=
  maskOf ((atoms.levelsOf control).take level)

theorem optionsOf_levels : optionsOf ((levelsIn atoms.literals control).insertionSort (·.level ≤ ·.level)) =
    (List.range (atoms.maxLevel control+1)).map (atoms.levelMask control) := by
  have hsorted : (atoms.levelsOf control).Pairwise (·.level ≤ ·.level) := by
    have h : ((atoms.levelsOf control).map (·.level)).Pairwise (· ≤ ·) := by
      rw [atoms.levels_dense]
      exact List.pairwise_le_range' _
    exact List.pairwise_map.mp h
  rw [show levelsIn atoms.literals control = atoms.levelsOf control from rfl,
    List.Pairwise.insertionSort_eq hsorted,optionsOf,scanl_eq_map]
  refine List.map_congr_left fun i _ => ?_
  rw [AtomTable.levelMask,maskOf,unionMask,List.foldl_map]

theorem levelMask_getLsbD {level b : ℕ} : (atoms.levelMask control level).getLsbD b = true ↔
    ∃ a ∈ atoms.literals, a.controlId = control ∧ a.level ≤ level ∧ a.bit = b := by
  rw [AtomTable.levelMask,maskOf_getLsbD]
  simp only [AtomTable.mem_take_levelsOf,and_assoc]

/-- A higher level asserts a literal that a lower one does not. -/
theorem levelMask_inj {i j : ℕ} (hi : i ≤ atoms.maxLevel control) (hj : j ≤ atoms.maxLevel control)
    (h : atoms.levelMask control i = atoms.levelMask control j) : i = j := by
  wlog hlt : i < j generalizing i j
  · by_contra hne
    exact hne (this hj hi h.symm (by omega)).symm
  obtain ⟨a,ha,hac,hal⟩ := AtomTable.exists_literal (by omega : 1 ≤ j) hj
  have hbit : (atoms.levelMask control j).getLsbD a.bit = true :=
    levelMask_getLsbD.mpr ⟨a,ha,hac,hal.le,rfl⟩
  rw [← h] at hbit
  obtain ⟨c,hc,-,hcl,hcb⟩ := levelMask_getLsbD.mp hbit
  rw [atoms.bits_inj hc ha hcb] at hcl
  omega

/-! ### The product of the options -/

/-- The mask has no bit but those of the literals of these controls. -/
def AtomTable.Within (atoms : AtomTable) (cs : List ControlId) (m : Mask) : Prop :=
  ∀ b, m.getLsbD b = true → ∃ a ∈ atoms.literals, a.controlId ∈ cs ∧ a.bit = b

/-- Masks of apart controls are told apart in their union. -/
theorem or_inj (hc : control ∉ cs) (hm : atoms.Within cs m) (hn : atoms.Within cs n)
    (ho : atoms.Within [control] o) (hp : atoms.Within [control] p) (h : m ||| o = n ||| p) :
    m = n ∧ o = p := by
  have hapart : ∀ {x y : Mask} {b : ℕ}, atoms.Within cs x → atoms.Within [control] y →
      x.getLsbD b = true → y.getLsbD b = true → False := by
    intro x y b hx hy hxb hyb
    obtain ⟨a,ha,hac,hab⟩ := hx b hxb
    obtain ⟨c,hcm,hcc,hcb⟩ := hy b hyb
    rw [atoms.bits_inj ha hcm (hab.trans hcb.symm),List.mem_singleton.mp hcc] at hac
    exact hc hac
  have hbits : ∀ b, (m.getLsbD b || o.getLsbD b) = (n.getLsbD b || p.getLsbD b) := by
    intro b
    rw [← BitVec.getLsbD_or,← BitVec.getLsbD_or,h]
  constructor
  · refine BitVec.eq_of_getLsbD_eq fun b _ => ?_
    have hb := hbits b
    have h₁ := hapart (b := b) hm hp
    have h₂ := hapart (b := b) hn ho
    cases hmb : m.getLsbD b <;> cases hnb : n.getLsbD b <;> simp_all
  · refine BitVec.eq_of_getLsbD_eq fun b _ => ?_
    have hb := hbits b
    have h₁ := hapart (b := b) hm hp
    have h₂ := hapart (b := b) hn ho
    cases hob : o.getLsbD b <;> cases hpb : p.getLsbD b <;> simp_all

/-- The masks over some controls, each at one of its levels. -/
def AtomTable.masksOver (atoms : AtomTable) (cs : List ControlId) : List Mask :=
  cs.foldl (withControl atoms.literals) [0]

theorem masksOver_append : atoms.masksOver (cs++[control]) = (atoms.masksOver cs).flatMap fun m =>
    ((List.range (atoms.maxLevel control+1)).map (atoms.levelMask control)).map (m ||| ·) := by
  rw [AtomTable.masksOver,List.foldl_append,List.foldl_cons,List.foldl_nil,withControl,optionsOf_levels]
  rfl

theorem mem_masksOver_append : m ∈ atoms.masksOver (cs++[control]) ↔
    ∃ n ∈ atoms.masksOver cs, ∃ l ≤ atoms.maxLevel control, m = n ||| atoms.levelMask control l := by
  simp only [masksOver_append,List.mem_flatMap,List.mem_map,List.mem_range,Nat.lt_succ_iff]
  constructor
  · rintro ⟨n,hn,_,⟨l,hl,rfl⟩,rfl⟩
    exact ⟨n,hn,l,hl,rfl⟩
  · rintro ⟨n,hn,l,hl,rfl⟩
    exact ⟨n,hn,_,⟨l,hl,rfl⟩,rfl⟩

theorem masksOver_within (cs : List ControlId) : ∀ m ∈ atoms.masksOver cs, atoms.Within cs m := by
  induction cs using List.reverseRecOn with
  | nil =>
    intro m hm b hb
    rw [AtomTable.masksOver,List.foldl_nil,List.mem_singleton] at hm
    simp [hm] at hb
  | append_singleton cs control ih =>
    intro m hm b hb
    obtain ⟨n,hn,l,-,rfl⟩ := mem_masksOver_append.mp hm
    rw [BitVec.getLsbD_or,Bool.or_eq_true] at hb
    rcases hb with hb | hb
    · obtain ⟨a,ha,hac,hab⟩ := ih n hn b hb
      exact ⟨a,ha,List.mem_append_left _ hac,hab⟩
    · obtain ⟨a,ha,hac,-,hab⟩ := levelMask_getLsbD.mp hb
      exact ⟨a,ha,List.mem_append_right _ (by simp [hac]),hab⟩

theorem levelMask_within {l : ℕ} : atoms.Within [control] (atoms.levelMask control l) := by
  intro b hb
  obtain ⟨a,ha,hac,-,hab⟩ := levelMask_getLsbD.mp hb
  exact ⟨a,ha,by simp [hac],hab⟩

/-- Each choice of levels is listed once. -/
theorem masksOver_nodup (cs : List ControlId) (hn : cs.Nodup) : (atoms.masksOver cs).Nodup ∧
    (atoms.masksOver cs).length = (cs.map fun c => atoms.maxLevel c+1).prod := by
  induction cs using List.reverseRecOn with
  | nil => simp [AtomTable.masksOver]
  | append_singleton cs control ih =>
    rw [List.nodup_append] at hn
    have hc : control ∉ cs := fun h => hn.2.2 control h control (by simp) rfl
    obtain ⟨hnodup,hlength⟩ := ih hn.1
    have hinj : ∀ n ∈ atoms.masksOver cs, ∀ p ∈ atoms.masksOver cs, ∀ k l,
        n ||| atoms.levelMask control k = p ||| atoms.levelMask control l →
          n = p ∧ atoms.levelMask control k = atoms.levelMask control l := fun n hn p hp k l h =>
      or_inj hc (masksOver_within cs n hn) (masksOver_within cs p hp) levelMask_within levelMask_within h
    rw [masksOver_append]
    constructor
    · refine List.nodup_flatMap.mpr ⟨fun n hn => ?_,?_⟩
      · rw [List.map_map]
        refine List.Nodup.map_on (fun k hk l hl h => ?_) List.nodup_range
        rw [List.mem_range,Nat.lt_succ_iff] at hk hl
        exact levelMask_inj hk hl (hinj n hn n hn k l h).2
      · refine hnodup.imp_of_mem fun {n p} hn hp hne => ?_
        intro m hmn hmp
        obtain ⟨_,hk,rfl⟩ := List.mem_map.mp hmn
        obtain ⟨k,-,rfl⟩ := List.mem_map.mp hk
        obtain ⟨_,hl,heq⟩ := List.mem_map.mp hmp
        obtain ⟨l,-,rfl⟩ := List.mem_map.mp hl
        exact hne (hinj n hn p hp k l heq.symm).1
    · rw [List.length_flatMap,List.map_append,List.prod_append,← hlength]
      simp

/-- The masks over some controls are those of the levels of these controls. -/
theorem mem_masksOver (cs : List ControlId) (hn : cs.Nodup) : m ∈ atoms.masksOver cs ↔
    ∃ σ : Assignment atoms, ∀ b, m.getLsbD b = true ↔
      ∃ a ∈ atoms.literals, a.controlId ∈ cs ∧ a.level ≤ σ.level a.controlId ∧ a.bit = b := by
  induction cs using List.reverseRecOn generalizing m with
  | nil =>
    rw [AtomTable.masksOver,List.foldl_nil,List.mem_singleton]
    constructor
    · rintro rfl
      exact ⟨⟨fun _ => 0,fun _ => Nat.zero_le _⟩,by simp⟩
    · rintro ⟨_,h⟩
      refine BitVec.eq_of_getLsbD_eq fun b _ => ?_
      rw [Bool.eq_iff_iff,h b]
      simp
  | append_singleton cs control ih =>
    rw [List.nodup_append] at hn
    have hc : control ∉ cs := fun h => hn.2.2 control h control (by simp) rfl
    rw [mem_masksOver_append]
    constructor
    · rintro ⟨n,hm,l,hl,rfl⟩
      obtain ⟨σ,hσ⟩ := (ih hn.1).mp hm
      refine ⟨⟨fun c => if c = control then l else σ.level c,fun c => ?_⟩,fun b => ?_⟩
      · split
        · rename_i h; exact h ▸ hl
        · exact σ.admissible c
      · rw [BitVec.getLsbD_or,Bool.or_eq_true,hσ,levelMask_getLsbD]
        constructor
        · rintro (⟨a,ha,hac,hal,hab⟩ | ⟨a,ha,hac,hal,hab⟩)
          · have hne : a.controlId ≠ control := fun h => hc (h ▸ hac)
            exact ⟨a,ha,List.mem_append_left _ hac,by simpa [hne] using hal,hab⟩
          · exact ⟨a,ha,List.mem_append_right _ (by simp [hac]),by simpa [hac] using hal,hab⟩
        · rintro ⟨a,ha,hac,hal,hab⟩
          have hal : a.level ≤ if a.controlId = control then l else σ.level a.controlId := hal
          by_cases h : a.controlId = control
          · rw [if_pos h] at hal
            exact Or.inr ⟨a,ha,h,hal,hab⟩
          · rw [if_neg h] at hal
            refine Or.inl ⟨a,ha,(List.mem_append.mp hac).resolve_right fun hs => ?_,hal,hab⟩
            exact h (List.mem_singleton.mp hs)
    · rintro ⟨σ,hσ⟩
      let kept := atoms.literals.filter fun a => a.controlId ∈ cs ∧ a.level ≤ σ.level a.controlId
      have hkept : ∀ b, (maskOf kept).getLsbD b = true ↔
          ∃ a ∈ atoms.literals, a.controlId ∈ cs ∧ a.level ≤ σ.level a.controlId ∧ a.bit = b := by
        intro b
        rw [maskOf_getLsbD]
        simp only [kept,List.mem_filter,decide_eq_true_eq,and_assoc]
      refine ⟨maskOf kept,(ih hn.1).mpr ⟨σ,hkept⟩,σ.level control,σ.admissible control,?_⟩
      refine BitVec.eq_of_getLsbD_eq fun b _ => ?_
      rw [Bool.eq_iff_iff,hσ,BitVec.getLsbD_or,Bool.or_eq_true,hkept,levelMask_getLsbD]
      constructor
      · rintro ⟨a,ha,hac,hal,hab⟩
        rcases List.mem_append.mp hac with hac | hac
        · exact Or.inl ⟨a,ha,hac,hal,hab⟩
        · have hac := List.mem_singleton.mp hac
          exact Or.inr ⟨a,ha,hac,hac ▸ hal,hab⟩
      · rintro (⟨a,ha,hac,hal,hab⟩ | ⟨a,ha,rfl,hal,hab⟩)
        · exact ⟨a,ha,List.mem_append_left _ hac,hal,hab⟩
        · exact ⟨a,ha,List.mem_append_right _ (by simp),hal,hab⟩

/-! ### The masks of the lattice of cuts -/

/-- The masks are ascending and are those of the admissible assignments, one for each choice of a level for
every control. -/
theorem admissible_masks_exact (atoms : AtomTable) :
    (admissibleCutMasks atoms.literals).Pairwise (·.toNat < ·.toNat) ∧
    (∀ m, m ∈ admissibleCutMasks atoms.literals ↔ ∃ σ : Assignment atoms, σ.mask = m) ∧
    (admissibleCutMasks atoms.literals).length = (atoms.controls.map fun c => atoms.maxLevel c+1).prod := by
  let cs := (atoms.literals.map (·.controlId)).dedup.insertionSort (· ≤ ·)
  have hperm : cs.Perm atoms.controls := by
    rw [AtomTable.controls_eq_dedup]
    exact List.perm_insertionSort _ _
  have hnodup : cs.Nodup := hperm.nodup_iff.mpr AtomTable.controls_nodup
  obtain ⟨hmasks,hlength⟩ := @masksOver_nodup atoms cs hnodup
  have heq : admissibleCutMasks atoms.literals =
      (atoms.masksOver cs).insertionSort (·.toNat ≤ ·.toNat) := by
    rw [← hmasks.dedup]
    rfl
  have hsort := List.perm_insertionSort (fun m n : Mask => m.toNat ≤ n.toNat) (atoms.masksOver cs)
  refine ⟨?_,fun m => ?_,?_⟩
  · rw [heq]
    have hle : ((atoms.masksOver cs).insertionSort fun m n => m.toNat ≤ n.toNat).Pairwise
        fun m n => m.toNat ≤ n.toNat := by
      have : Std.Total fun m n : Mask => m.toNat ≤ n.toNat := ⟨fun m n => le_total _ _⟩
      have : IsTrans Mask fun m n => m.toNat ≤ n.toNat := ⟨fun _ _ _ => le_trans⟩
      exact List.pairwise_insertionSort _ _
    have hne : ((atoms.masksOver cs).insertionSort fun m n => m.toNat ≤ n.toNat).Pairwise (· ≠ ·) :=
      hsort.nodup_iff.mpr hmasks
    exact hle.imp₂ (fun _ _ h hne => lt_of_le_of_ne h fun heq => hne (BitVec.eq_of_toNat_eq heq)) hne
  · rw [heq,hsort.mem_iff,mem_masksOver cs hnodup]
    refine exists_congr fun σ => ?_
    have hbits : ∀ b, (∃ a ∈ atoms.literals, a.controlId ∈ cs ∧ a.level ≤ σ.level a.controlId ∧ a.bit = b) ↔
        σ.mask.getLsbD b = true := by
      intro b
      rw [Assignment.mask_getLsbD]
      refine exists_congr fun a => and_congr_right fun ha => and_iff_right ?_
      exact hperm.mem_iff.mpr (AtomTable.mem_controls.mpr ⟨a,ha,rfl⟩)
    simp only [hbits]
    constructor
    · intro h
      exact BitVec.eq_of_getLsbD_eq fun b _ => Bool.eq_iff_iff.mpr (h b).symm
    · rintro rfl b
      exact Iff.rfl
  · rw [heq,hsort.length_eq,hlength]
    exact (hperm.map _).prod_eq

end Spectra
