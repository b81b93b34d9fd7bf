import Mathlib.Data.Nat.Choose.Basic
import Mathlib.Tactic

/-! Vectors of levels below given tops, and how many of them have a given number of entries
above zero: as many as there are subsets, when every top is one. -/
namespace LevelVectors

/-- Every vector whose entries are at most the tops, the first entry slowest. -/
def below (tops : List ℕ) : List (List ℕ) :=
  tops.foldl (fun vectors top =>
    vectors.flatMap fun v => (List.range (top+1)).map fun level => v++[level]) [[]]

/-- The number of entries above zero. -/
def raised (v : List ℕ) : ℕ := v.countP (1 ≤ ·)

theorem below_concat (tops : List ℕ) (top : ℕ) : below (tops++[top]) =
    (below tops).flatMap fun v => (List.range (top+1)).map fun level => v++[level] := by
  simp [below]

theorem mem_below {v tops : List ℕ} : v ∈ below tops ↔ List.Forall₂ (· ≤ ·) v tops := by
  induction tops using List.reverseRecOn generalizing v with
  | nil => simp [below]
  | append_singleton tops top ih =>
    rw [below_concat,List.mem_flatMap]
    constructor
    · rintro ⟨w,hw,hv⟩
      obtain ⟨level,hl,rfl⟩ := List.mem_map.mp hv
      rw [List.mem_range] at hl
      exact List.rel_append (ih.mp hw) (.cons (by omega) .nil)
    · intro hv
      have hlength := hv.length_eq
      rw [List.length_append,List.length_singleton] at hlength
      obtain ⟨w,level,rfl⟩ : ∃ w level, v = w++[level] :=
        List.eq_nil_or_concat' v |>.resolve_left (by rintro rfl; simp at hlength)
      have hw : w.length = tops.length := by simpa using hlength
      have hsplit := List.forall₂_iff_get.mp hv
      have hlevel : level ≤ top := by
        have := hsplit.2 w.length (by simp) (by simp [hw])
        simpa [hw] using this
      refine ⟨w,ih.mpr (List.forall₂_iff_get.mpr ⟨hw,fun i hi hi' => ?_⟩),
        List.mem_map.mpr ⟨level,List.mem_range.mpr (by omega),rfl⟩⟩
      have := hsplit.2 i (by simp; omega) (by simp; omega)
      simpa [List.getElem_append_left hi,List.getElem_append_left hi'] using this

/-- How many vectors have `k` entries above zero. -/
def count (tops : List ℕ) (k : ℕ) : ℕ := (below tops).countP fun v => raised v = k

theorem raised_concat (v : List ℕ) (level : ℕ) :
    raised (v++[level]) = raised v+if 1 ≤ level then 1 else 0 := by
  simp [raised]

theorem countP_levels (v : List ℕ) (top k : ℕ) :
    ((List.range (top+1)).map fun level => v++[level]).countP (fun w => raised w = k) =
      (if raised v = k then 1 else 0)+if raised v+1 = k then top else 0 := by
  have hshift : ∀ n : ℕ, (List.range n).countP
      ((fun w => decide (raised w = k)) ∘ (fun level => v++[level]) ∘ Nat.succ) =
        if raised v+1 = k then n else 0 := by
    intro n
    have hconst : ((fun w => decide (raised w = k)) ∘ (fun level => v++[level]) ∘ Nat.succ) =
        fun _ => decide (raised v+1 = k) := by
      funext level
      simp [raised_concat]
    rw [hconst]
    by_cases h : raised v+1 = k <;> simp [h]
  rw [List.countP_map,List.range_succ_eq_map,List.countP_cons,List.countP_map]
  rw [show (((fun w => decide (raised w = k)) ∘ fun level => v++[level]) ∘ Nat.succ) =
    ((fun w => decide (raised w = k)) ∘ (fun level => v++[level]) ∘ Nat.succ) from rfl,hshift]
  simp [raised_concat,add_comm]

theorem count_concat_zero (tops : List ℕ) (top : ℕ) : count (tops++[top]) 0 = count tops 0 := by
  rw [count,below_concat,List.countP_flatMap,count]
  have hone : (List.countP fun w => decide (raised w = 0)) ∘ (fun v =>
      (List.range (top+1)).map fun level => v++[level]) =
        fun v => if raised v = 0 then 1 else 0 := by
    funext v
    rw [Function.comp_apply,countP_levels]
    simp
  rw [hone]
  induction below tops with
  | nil => rfl
  | cons v l ih => by_cases hv : raised v = 0 <;> simp [hv,ih,add_comm]

theorem count_concat_succ (tops : List ℕ) (top k : ℕ) :
    count (tops++[top]) (k+1) = count tops (k+1)+top*count tops k := by
  rw [count,below_concat,List.countP_flatMap,count,count]
  have hlevels : (List.countP fun w => decide (raised w = k+1)) ∘ (fun v =>
      (List.range (top+1)).map fun level => v++[level]) =
        fun v => (if raised v = k+1 then 1 else 0)+if raised v = k then top else 0 := by
    funext v
    rw [Function.comp_apply,countP_levels]
    simp
  rw [hlevels]
  induction below tops with
  | nil => rfl
  | cons v l ih =>
    rw [List.map_cons,List.sum_cons,ih,List.countP_cons,List.countP_cons]
    by_cases h₁ : raised v = k+1
    · simp only [h₁,if_true,if_false,decide_true,decide_false,Bool.false_eq_true,Nat.succ_ne_self]
      ring
    · by_cases h₂ : raised v = k
      · simp only [h₂,if_true,if_false,decide_true,decide_false,Bool.false_eq_true,
          (Nat.succ_ne_self k).symm]
        ring
      · simp [h₁,h₂]

theorem count_nil (k : ℕ) : count [] k = if k = 0 then 1 else 0 := by
  cases k <;> rfl

theorem count_zero (tops : List ℕ) : count tops 0 = 1 := by
  induction tops using List.reverseRecOn with
  | nil => rfl
  | append_singleton tops top ih => rw [count_concat_zero,ih]

/-- There are at least as many vectors as subsets of the places. -/
theorem choose_le_count {tops : List ℕ} (h : ∀ top ∈ tops, 1 ≤ top) (k : ℕ) :
    tops.length.choose k ≤ count tops k := by
  induction tops using List.reverseRecOn generalizing k with
  | nil => cases k <;> simp [count_nil]
  | append_singleton tops top ih =>
    have htop : 1 ≤ top := h top (by simp)
    have ih := ih fun t ht => h t (by simp [ht])
    rw [List.length_append,List.length_singleton]
    cases k with
    | zero => simp [count_zero]
    | succ k =>
      rw [count_concat_succ,Nat.choose_succ_succ',add_comm]
      exact Nat.add_le_add (ih (k+1)) ((ih k).trans (Nat.le_mul_of_pos_left _ htop))

theorem count_eq_choose {tops : List ℕ} (h : ∀ top ∈ tops, top = 1) (k : ℕ) :
    count tops k = tops.length.choose k := by
  induction tops using List.reverseRecOn generalizing k with
  | nil => cases k <;> simp [count_nil]
  | append_singleton tops top ih =>
    have htop : top = 1 := h top (by simp)
    have ih := ih fun t ht => h t (by simp [ht])
    rw [List.length_append,List.length_singleton]
    cases k with
    | zero => simp [count_zero]
    | succ k => rw [count_concat_succ,ih,ih,htop,Nat.choose_succ_succ']; ring

theorem choose_lt_count {tops : List ℕ} (h : ∀ top ∈ tops, 1 ≤ top) {top : ℕ} (hm : top ∈ tops)
    (ht : top ≠ 1) {k : ℕ} (h₁ : 1 ≤ k) (hk : k ≤ tops.length) :
    tops.length.choose k < count tops k := by
  induction tops using List.reverseRecOn generalizing k with
  | nil => cases hm
  | append_singleton tops last ih =>
    have hlast : 1 ≤ last := h last (by simp)
    have hpos : ∀ t ∈ tops, 1 ≤ t := fun t ht => h t (by simp [ht])
    rw [List.length_append,List.length_singleton] at hk ⊢
    obtain ⟨k,rfl⟩ : ∃ j, k = j+1 := ⟨k-1,by omega⟩
    rw [count_concat_succ,Nat.choose_succ_succ',add_comm]
    have hnext := choose_le_count hpos (k+1)
    have hthis := choose_le_count hpos k
    have hmul : count tops k ≤ last*count tops k := Nat.le_mul_of_pos_left _ hlast
    by_cases hl : last = 1
    · have hm : top ∈ tops := by
        rcases List.mem_append.mp hm with hm | hm
        · exact hm
        · exact absurd ((List.mem_singleton.mp hm).trans hl) ht
      by_cases hle : k+1 ≤ tops.length
      · have := ih hpos hm (by omega) hle
        omega
      · have hne := List.length_pos_of_mem hm
        have := ih hpos hm (show 1 ≤ k by omega) (by omega)
        omega
    · have hchoose : 0 < tops.length.choose k := Nat.choose_pos (by omega)
      have : 2*count tops k ≤ last*count tops k := Nat.mul_le_mul_right _ (by omega)
      omega

/-- The vectors are as many as the subsets exactly when every top is one. -/
theorem count_eq_choose_iff {tops : List ℕ} (h : ∀ top ∈ tops, 1 ≤ top) {k : ℕ} (h₁ : 1 ≤ k)
    (hk : k ≤ tops.length) : count tops k = tops.length.choose k ↔ ∀ top ∈ tops, top = 1 := by
  refine ⟨fun heq top hm => ?_,fun hall => count_eq_choose hall k⟩
  by_contra hne
  have := choose_lt_count h hm hne h₁ hk
  omega

end LevelVectors
