import Spectra.Calibration

/-! `spectra_vs.calibrate.q_exact`: the exact-rank order statistic, and how many gaps the configured
minimum leaves above its rank. -/
namespace Spectra
namespace Liveness

/-- The rank of the order statistic at `p/q` among `n` gaps, from one. -/
def qRank (n p q : ℤ) : ℤ :=
  let j := (n*p+(q-1))/q
  let j := if j < 1 then 1 else j
  if j > n then n else j

/-- `q_exact`. -/
def qExact (sortedGaps : List ℤ) (p q : ℤ) : Fallible ℤ :=
  if sortedGaps = [] then .error ⟨.profileError,"PROFILE_INVALID","q_exact: the gap vector is empty"⟩
  else .ok (sortedGaps.getD ((qRank sortedGaps.length p q)-1).toNat 0)

/-! ### The rank -/

/-- An entry of an ascending list is at most `v` when more entries than stand before it are. -/
theorem getElem_le_iff {l : List ℤ} (hs : l.Pairwise (· ≤ ·)) {i : ℕ} (hi : i < l.length) {v : ℤ} :
    l[i] ≤ v ↔ i < l.countP (· ≤ v) := by
  induction l generalizing i with
  | nil => cases hi
  | cons a l ih =>
    obtain ⟨ha,hl⟩ := List.pairwise_cons.mp hs
    by_cases hav : a ≤ v
    · cases i with
      | zero => simp [hav]
      | succ i => simp [hav,ih hl (Nat.lt_of_succ_lt_succ hi)]
    · -- nothing behind a larger entry is counted
      have hzero : (a::l).countP (· ≤ v) = 0 := by
        refine List.countP_eq_zero.mpr fun b hb => ?_
        rw [decide_eq_true_eq]
        rcases List.mem_cons.mp hb with rfl | hb
        · exact hav
        · have := ha b hb
          omega
      have hle : a ≤ (a::l)[i] := by
        rcases List.mem_cons.mp (List.getElem_mem hi) with he | hb
        · exact he.ge
        · exact ha _ hb
      rw [hzero]
      omega

/-- The rank is the least positive one that reaches the share `p/q` of the gaps. -/
theorem qRank_spec {n p q : ℤ} (hn : 1 ≤ n) (hq : 0 < q) (hpq : p ≤ q) :
    1 ≤ qRank n p q ∧ qRank n p q ≤ n ∧ n*p ≤ qRank n p q*q ∧
      ∀ c, 1 ≤ c → n*p ≤ c*q → qRank n p q ≤ c := by
  have hlow := Int.ediv_mul_le (n*p+(q-1)) hq.ne'
  have hhigh := Int.lt_ediv_add_one_mul_self (n*p+(q-1)) hq
  unfold qRank
  generalize (n*p+(q-1))/q = j at hlow hhigh
  rw [add_mul,one_mul] at hhigh
  have hleast : ∀ c, n*p ≤ c*q → j ≤ c := by
    intro c hc
    have hlt : j*q < (c+1)*q := by
      rw [add_mul,one_mul]
      omega
    have := lt_of_mul_lt_mul_right hlt hq.le
    omega
  have hjn : j ≤ n := hleast n (Int.mul_le_mul_of_nonneg_left hpq (by omega))
  dsimp only
  by_cases hj : j < 1
  · rw [if_pos hj,if_neg (by omega)]
    have hmul : j*q ≤ 0 := Int.mul_nonpos_of_nonpos_of_nonneg (by omega) hq.le
    exact ⟨le_rfl,hn,by omega,fun c hc _ => hc⟩
  · rw [if_neg hj,if_neg (by omega)]
    exact ⟨by omega,hjn,by omega,fun c _ hc => hleast c hc⟩

/-- The least gap that at least the share `p/q` of the gaps do not exceed. -/
theorem qExact_least {gaps : List ℤ} (hs : gaps.Pairwise (· ≤ ·)) (hne : gaps ≠ []) {p q : ℤ} (hq : 0 < q)
    (hpq : p ≤ q) : ∃ v, qExact gaps p q = .ok v ∧ v ∈ gaps ∧
      gaps.length*p ≤ gaps.countP (· ≤ v)*q ∧
      ∀ w ∈ gaps, gaps.length*p ≤ gaps.countP (· ≤ w)*q → v ≤ w := by
  have hn : (1 : ℤ) ≤ gaps.length := by exact_mod_cast List.length_pos_iff.mpr hne
  obtain ⟨hone,hlen,hshare,hleast⟩ := qRank_spec hn hq hpq
  have hi : (qRank gaps.length p q-1).toNat < gaps.length := by omega
  refine ⟨gaps[(qRank gaps.length p q-1).toNat],?_,List.getElem_mem hi,?_,fun w hw hwq => ?_⟩
  · rw [qExact,if_neg hne,List.getD_eq_getElem?_getD,List.getElem?_eq_getElem hi]
    rfl
  · have hcount := (getElem_le_iff hs hi).mp le_rfl
    refine hshare.trans (Int.mul_le_mul_of_nonneg_right ?_ hq.le)
    omega
  · refine (getElem_le_iff hs hi).mpr ?_
    have hpos : 0 < gaps.countP (· ≤ w) := List.countP_pos_iff.mpr ⟨w,hw,by simp⟩
    have := hleast _ (by omega) hwq
    omega

/-! ### The tail -/

theorem le_ceilDiv_mul {numerator denominator : ℤ} (hd : 0 < denominator) :
    numerator ≤ ceilDiv numerator denominator*denominator := by
  have h := Int.lt_ediv_add_one_mul_self (numerator+denominator-1) hd
  rw [ceilDiv]
  rw [add_mul,one_mul] at h
  omega

namespace LivenessConfig

theorem quantile_lt (c : LivenessConfig) : 0 ≤ c.quantileNum ∧ c.quantileNum < c.quantileDen := by
  have h := c.valid
  simp only [checks_cons,checks_map,ensure_ok] at h
  have hnum := h.1 ("quantile_num",c.quantileNum) (by simp)
  obtain ⟨-,-,hle,hne,-⟩ := h
  exact ⟨hnum.1,lt_of_le_of_ne hle (Ne.symm hne)⟩

/-- A regime with enough gaps has the share above its quantile that the tail asks for. -/
theorem share_of_nMin (c : LivenessConfig) {n : ℤ} (hn : c.nMin ≤ n) :
    n*c.quantileNum ≤ (n-c.kTail)*c.quantileDen := by
  have hspan : 0 < c.quantileDen-c.quantileNum := by have := c.quantile_lt; omega
  have htail : ceilDiv (c.kTail*c.quantileDen) (c.quantileDen-c.quantileNum) ≤ n := by
    refine le_trans ?_ hn
    unfold nMin
    dsimp only
    split <;> omega
  have h := (le_ceilDiv_mul hspan).trans (Int.mul_le_mul_of_nonneg_right htail hspan.le)
  rw [mul_sub] at h
  rw [sub_mul]
  omega

end LivenessConfig

/-- The order statistic is exact; the tail above its rank is as long as configured unless the quantile is
zero and there are exactly `k_tail` gaps, where the rank is raised to one. -/
theorem q_exact_tail_iff {gaps : List ℤ} (hs : gaps.Pairwise (· ≤ ·)) (hne : gaps ≠ []) :
    (∀ p q : ℤ, 0 ≤ p → p ≤ q → 0 < q → ∃ v, qExact gaps p q = .ok v ∧ v ∈ gaps ∧
      gaps.length*p ≤ gaps.countP (· ≤ v)*q ∧
      ∀ w ∈ gaps, gaps.length*p ≤ gaps.countP (· ≤ w)*q → v ≤ w) ∧
    ∀ c : LivenessConfig, c.nMin ≤ gaps.length →
      (c.kTail ≤ (gaps.drop (qRank gaps.length c.quantileNum c.quantileDen).toNat).length ↔
        ¬(c.quantileNum = 0 ∧ (gaps.length : ℤ) = c.kTail)) := by
  refine ⟨fun p q _ hpq hq => qExact_least hs hne hq hpq,fun c hc => ?_⟩
  have hn : (1 : ℤ) ≤ gaps.length := by exact_mod_cast List.length_pos_iff.mpr hne
  obtain ⟨hnum,hlt⟩ := c.quantile_lt
  have hq : 0 < c.quantileDen := by omega
  obtain ⟨hone,hlen,-,hleast⟩ := qRank_spec hn hq hlt.le
  have hshare := c.share_of_nMin hc
  have hlength : ((gaps.drop (qRank gaps.length c.quantileNum c.quantileDen).toNat).length : ℤ) =
      gaps.length-qRank gaps.length c.quantileNum c.quantileDen := by
    rw [List.length_drop]
    omega
  rw [hlength]
  constructor
  · rintro h ⟨-,hk⟩
    omega
  · intro hnot
    have hpos : 1 ≤ gaps.length-c.kTail := by
      by_contra hsmall
      have hle : (gaps.length-c.kTail)*c.quantileDen ≤ 0 :=
        Int.mul_nonpos_of_nonpos_of_nonneg (by omega) hq.le
      have hzero : (gaps.length : ℤ)*c.quantileNum ≤ 0 := hshare.trans hle
      have hnum0 : c.quantileNum = 0 := by
        by_contra hne0
        have : 0 < (gaps.length : ℤ)*c.quantileNum := Int.mul_pos (by omega) (by omega)
        omega
      rw [hnum0,mul_zero] at hshare
      have hnonneg : 0 ≤ gaps.length-c.kTail := nonneg_of_mul_nonneg_left hshare hq
      exact hnot ⟨hnum0,by omega⟩
    have := hleast _ hpos hshare
    omega

def zeroQuantile : LivenessConfig := ⟨0,1,1,1,2,0,1,8,by decide⟩

theorem q_exact_tail_iff_zero :
    zeroQuantile.kTail ≤ (([3,5,8] : List ℤ).drop
        (qRank ([3,5,8] : List ℤ).length zeroQuantile.quantileNum zeroQuantile.quantileDen).toNat).length ↔
      ¬(zeroQuantile.quantileNum = 0 ∧ (([3,5,8] : List ℤ).length : ℤ) = zeroQuantile.kTail) :=
  (@q_exact_tail_iff [3,5,8] (by decide) (by decide)).2 zeroQuantile (by decide)

/-- Two gaps are as many as configured, and one of them is above the rank of the quantile zero. -/
theorem q_exact_short_tail : zeroQuantile.nMin ≤ ([3,5] : List ℤ).length ∧
    ¬zeroQuantile.kTail ≤ (([3,5] : List ℤ).drop
      (qRank ([3,5] : List ℤ).length zeroQuantile.quantileNum zeroQuantile.quantileDen).toNat).length := by
  decide

end Liveness
end Spectra
