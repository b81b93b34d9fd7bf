import Mathlib.Tactic

/-! A longest non-decreasing subsequence by patience: each value goes on the pile its bisection
names, and the piles' last values lead back through their predecessors. -/
namespace Patience

variable {α : Type*} [LinearOrder α]

/-- `bisect_right` on ascending values. -/
def bisectRight (ascending : List α) (x : α) : ℕ := ascending.countP (· ≤ x)

theorem bisectRight_le (l : List α) (x : α) : bisectRight l x ≤ l.length := List.countP_le_length

/-- The values before the bisection are at most `x`, those from it on are above. -/
theorem lt_bisectRight_iff {l : List α} (h : l.Pairwise (· ≤ ·)) {x : α} {k : ℕ} {y : α}
    (hk : l[k]? = some y) : k < bisectRight l x ↔ y ≤ x := by
  induction l generalizing k with
  | nil => cases hk
  | cons a l ih =>
    obtain ⟨ha,hl⟩ := List.pairwise_cons.mp h
    unfold bisectRight at ih ⊢
    by_cases hax : a ≤ x
    · rw [List.countP_cons_of_pos (by simpa using hax)]
      cases k with
      | zero =>
        cases hk
        exact iff_of_true (Nat.succ_pos _) hax
      | succ k => rw [Nat.add_lt_add_iff_right,ih hl hk]
    · have hzero : l.countP (· ≤ x) = 0 :=
        List.countP_eq_zero.mpr fun b hb => by
          have := (not_le.mp hax).trans_le (ha b hb)
          simpa using this
      rw [List.countP_cons_of_neg (by simpa using hax),hzero]
      refine iff_of_false (Nat.not_lt_zero k) fun hy => hax (le_trans ?_ hy)
      cases k with
      | zero => cases hk; exact le_rfl
      | succ k => exact ha y (List.mem_of_getElem? hk)

/-- The last index on each pile, and the index each was put after. -/
structure Piles where
  tails : List ℕ
  parent : ℕ → Option ℕ

variable (value : ℕ → α)

def deal (p : Piles) (index : ℕ) : Piles :=
  let position := bisectRight (p.tails.map value) (value index)
  { tails := if position = p.tails.length then p.tails++[index] else p.tails.set position index
    parent := if 0 < position then Function.update p.parent index p.tails[position-1]? else p.parent }

def piles (n : ℕ) : Piles := (List.range n).foldl (deal value) ⟨[],fun _ => none⟩

/-- From a cursor back through the predecessors. -/
def back (parent : ℕ → Option ℕ) : ℕ → Option ℕ → List ℕ
  | 0, _ => []
  | _+1, none => []
  | fuel+1, some cursor => cursor::back parent fuel (parent cursor)

/-- The indices of a longest non-decreasing subsequence of the first `n` values, ascending. -/
def longest (n : ℕ) : List ℕ := (back (piles value n).parent n (piles value n).tails.getLast?).reverse

/-! ### Runs -/

/-- Indices in descending order, their values not ascending, each the predecessor of the one before. -/
inductive Traced (parent : ℕ → Option ℕ) : Option ℕ → List ℕ → Prop
  | nil : Traced parent none []
  | cons {cursor : ℕ} {l : List ℕ} (h : Traced parent (parent cursor) l) :
      Traced parent (some cursor) (cursor::l)

theorem Traced.back_eq {parent : ℕ → Option ℕ} {cursor : Option ℕ} {l : List ℕ} (h : Traced parent cursor l)
    {fuel : ℕ} (hf : l.length ≤ fuel) : back parent fuel cursor = l := by
  induction h generalizing fuel with
  | nil => cases fuel <;> rfl
  | cons _ ih =>
    cases fuel with
    | zero => cases hf
    | succ fuel => rw [back,ih (Nat.le_of_succ_le_succ hf)]

/-- New predecessors of later indices do not change a run. -/
theorem Traced.update {parent : ℕ → Option ℕ} {cursor : Option ℕ} {l : List ℕ} (h : Traced parent cursor l)
    {index : ℕ} (hl : ∀ i ∈ l, i < index) (p : Option ℕ) :
    Traced (Function.update parent index p) cursor l := by
  induction h with
  | nil => exact .nil
  | @cons cursor l _ ih =>
    obtain ⟨hc,hl⟩ := List.forall_mem_cons.mp hl
    refine .cons ?_
    rw [Function.update_of_ne hc.ne]
    exact ih hl

/-- A descending run of the first `n` indices on which the values do not ascend. -/
structure Run (n : ℕ) (l : List ℕ) : Prop where
  descending : l.Pairwise (· > ·)
  ordered : l.Pairwise fun i j => value j ≤ value i
  bounded : ∀ i ∈ l, i < n

variable {value}

theorem Run.mono {n m : ℕ} {l : List ℕ} (h : Run value n l) (hm : n ≤ m) : Run value m l :=
  ⟨h.descending,h.ordered,fun i hi => (h.bounded i hi).trans_le hm⟩

theorem Run.cons {n : ℕ} {l : List ℕ} (h : Run value n l) (hv : ∀ i ∈ l, value i ≤ value n) :
    Run value (n+1) (n::l) where
  descending := List.pairwise_cons.mpr ⟨h.bounded,h.descending⟩
  ordered := List.pairwise_cons.mpr ⟨hv,h.ordered⟩
  bounded i hi := by
    rcases List.mem_cons.mp hi with rfl | hi
    · exact Nat.lt_succ_self _
    · exact (h.bounded i hi).trans (Nat.lt_succ_self _)

/-- The values of a run are at most that of its first index. -/
theorem Run.le_head {n c : ℕ} {l : List ℕ} (h : Run value n (c::l)) : ∀ i ∈ c::l, value i ≤ value c := by
  intro i hi
  rcases List.mem_cons.mp hi with rfl | hi
  · exact le_rfl
  · exact (List.pairwise_cons.mp h.ordered).1 i hi

variable (value) in
/-- What the piles are after the first `n` values: their last values ascend, each pile ends a run of
its length, and no run of that length ends lower. -/
structure Dealt (n : ℕ) (p : Piles) : Prop where
  sorted : (p.tails.map value).Pairwise (· ≤ ·)
  fresh : ∀ i, n ≤ i → p.parent i = none
  runs : ∀ k c, p.tails[k]? = some c → ∃ l, l.length = k ∧ Traced p.parent (some c) (c::l) ∧
    Run value n (c::l)
  least : ∀ c l, Run value n (c::l) → ∃ t, p.tails[l.length]? = some t ∧ value t ≤ value c

theorem Dealt.start : Dealt value 0 ⟨[],fun _ => none⟩ where
  sorted := .nil
  fresh _ _ := rfl
  runs k c h := by cases h
  least c l h := absurd (h.bounded c (by simp)) (Nat.not_lt_zero c)

section

variable {n : ℕ} {p : Piles}

theorem position_le : bisectRight (p.tails.map value) (value n) ≤ p.tails.length :=
  (bisectRight_le _ _).trans (List.length_map _).le

theorem tails_deal {k : ℕ} : (deal value p n).tails[k]? =
    if k = bisectRight (p.tails.map value) (value n) then some n else p.tails[k]? := by
  have hle : bisectRight (p.tails.map value) (value n) ≤ p.tails.length := position_le
  unfold deal
  dsimp only
  split_ifs with hlast hk hk
  · rw [hk,hlast,List.getElem?_append_right le_rfl,Nat.sub_self]
    rfl
  · rcases lt_trichotomy k p.tails.length with h | h | h
    · rw [List.getElem?_append_left h]
    · exact absurd (h.trans hlast.symm) hk
    · rw [List.getElem?_eq_none (by simp; omega),List.getElem?_eq_none h.le]
  · rw [hk,List.getElem?_set_self (by omega)]
  · rw [List.getElem?_set_ne (Ne.symm hk)]

/-- A pile before the position ends at most at the value, one from it on ends above. -/
theorem Dealt.lt_position_iff (h : Dealt value n p) {k t : ℕ} (hk : p.tails[k]? = some t) :
    k < bisectRight (p.tails.map value) (value n) ↔ value t ≤ value n :=
  lt_bisectRight_iff h.sorted (by rw [List.getElem?_map,hk]; rfl)

theorem sorted_iff {l : List ℕ} : (l.map value).Pairwise (· ≤ ·) ↔
    ∀ j k a b : ℕ, j < k → l[j]? = some a → l[k]? = some b → value a ≤ value b := by
  rw [List.pairwise_map,List.pairwise_iff_getElem]
  constructor
  · intro h j k a b hjk ha hb
    obtain ⟨hj,rfl⟩ := List.getElem?_eq_some_iff.mp ha
    obtain ⟨hk,rfl⟩ := List.getElem?_eq_some_iff.mp hb
    exact h j k hj hk hjk
  · intro h j k hj hk hjk
    exact h j k _ _ hjk (List.getElem?_eq_getElem hj) (List.getElem?_eq_getElem hk)

theorem Dealt.deal_sorted (h : Dealt value n p) :
    ((deal value p n).tails.map value).Pairwise (· ≤ ·) := by
  refine sorted_iff.mpr fun j k a b hjk ha hb => ?_
  rw [tails_deal] at ha hb
  split_ifs at ha hb with hj hk hk
  · omega
  · cases ha
    exact (not_le.mp (mt (h.lt_position_iff hb).mpr (by omega))).le
  · cases hb
    exact (h.lt_position_iff ha).mp (by omega)
  · exact sorted_iff.mp h.sorted j k a b hjk ha hb

theorem traced_deal {c : ℕ} {l : List ℕ} (ht : Traced p.parent (some c) (c::l))
    (hl : Run value n (c::l)) : Traced (deal value p n).parent (some c) (c::l) := by
  unfold deal
  dsimp only
  split
  · exact ht.update hl.bounded _
  · exact ht

theorem Dealt.deal_runs (h : Dealt value n p) {k c : ℕ} (hk : (deal value p n).tails[k]? = some c) :
    ∃ l, l.length = k ∧ Traced (deal value p n).parent (some c) (c::l) ∧ Run value (n+1) (c::l) := by
  rw [tails_deal] at hk
  split_ifs at hk with hpos
  · -- the value just put down
    cases hk
    cases k with
    | zero =>
      have hparent : (deal value p n).parent n = none := by
        unfold deal
        dsimp only
        rw [if_neg (by omega)]
        exact h.fresh n le_rfl
      have hrun : Run value n [] := ⟨.nil,.nil,by simp⟩
      refine ⟨[],rfl,.cons ?_,hrun.cons (by simp)⟩
      rw [hparent]
      exact .nil
    | succ k =>
      obtain ⟨c,hc⟩ : ∃ c, p.tails[k]? = some c := by
        have := @position_le _ _ value n p
        exact ⟨_,List.getElem?_eq_getElem (by omega)⟩
      obtain ⟨l,hl,htraced,hrun⟩ := h.runs k c hc
      have hle := (h.lt_position_iff hc).mp (by omega)
      refine ⟨c::l,by simp [hl],.cons ?_,hrun.cons fun i hi => (hrun.le_head i hi).trans hle⟩
      have hparent : (deal value p n).parent n = some c := by
        unfold deal
        dsimp only
        rw [if_pos (by omega),Function.update_self,← hpos,Nat.add_sub_cancel,hc]
      rw [hparent]
      exact traced_deal htraced hrun
  · obtain ⟨l,hl,htraced,hrun⟩ := h.runs k c hk
    exact ⟨l,hl,traced_deal htraced hrun,hrun.mono (Nat.le_succ n)⟩

theorem Dealt.deal_least (h : Dealt value n p) {c : ℕ} {l : List ℕ} (hl : Run value (n+1) (c::l)) :
    ∃ t, (deal value p n).tails[l.length]? = some t ∧ value t ≤ value c := by
  have hbelow : ∀ i ∈ l, i < c := (List.pairwise_cons.mp hl.descending).1
  simp only [tails_deal]
  rcases Nat.lt_succ_iff_lt_or_eq.mp (hl.bounded c (by simp)) with hc | rfl
  · -- the run was there before
    have hold : Run value n (c::l) := ⟨hl.descending,hl.ordered,fun i hi => by
      rcases List.mem_cons.mp hi with rfl | hi
      · exact hc
      · exact (hbelow i hi).trans hc⟩
    obtain ⟨t,ht,hle⟩ := h.least c l hold
    split_ifs with hpos
    · exact ⟨n,rfl,(not_le.mp (mt (h.lt_position_iff ht).mpr (by omega))).le.trans hle⟩
    · exact ⟨t,ht,hle⟩
  · have hreach : ∀ k, k < bisectRight (p.tails.map value) (value c) →
        ∃ t, p.tails[k]? = some t ∧ value t ≤ value c := fun k hk => by
      obtain ⟨t,ht⟩ : ∃ t, p.tails[k]? = some t :=
        ⟨_,List.getElem?_eq_getElem (hk.trans_le position_le)⟩
      exact ⟨t,ht,(h.lt_position_iff ht).mp hk⟩
    have hle : l.length ≤ bisectRight (p.tails.map value) (value c) := by
      cases l with
      | nil => exact Nat.zero_le _
      | cons d l =>
        have hrest : Run value c (d::l) := ⟨(List.pairwise_cons.mp hl.descending).2,
          (List.pairwise_cons.mp hl.ordered).2,hbelow⟩
        obtain ⟨t,ht,htd⟩ := h.least d l hrest
        have hdc := (List.pairwise_cons.mp hl.ordered).1 d (by simp)
        exact (h.lt_position_iff ht).mpr (htd.trans hdc)
    split_ifs with hpos
    · exact ⟨c,rfl,le_rfl⟩
    · exact hreach _ (lt_of_le_of_ne hle hpos)

theorem Dealt.deal (h : Dealt value n p) : Dealt value (n+1) (deal value p n) where
  sorted := h.deal_sorted
  fresh i hi := by
    unfold Patience.deal
    dsimp only
    split
    · rw [Function.update_of_ne (by omega)]
      exact h.fresh i (by omega)
    · exact h.fresh i (by omega)
  runs _ _ hk := h.deal_runs hk
  least _ _ hl := h.deal_least hl

end

theorem dealt_piles (n : ℕ) : Dealt value n (piles value n) := by
  induction n with
  | zero => exact .start
  | succ n ih =>
    rw [piles,List.range_succ,List.foldl_append]
    exact ih.deal

theorem longest_reverse (n : ℕ) : ∃ l, longest value n = l.reverse ∧ Run value n l ∧
    ∀ m, Run value n m → m.length ≤ l.length := by
  have h := @dealt_piles _ _ value n
  unfold longest
  cases ht : (piles value n).tails.getLast? with
  | none =>
    have hnil := List.getLast?_eq_none_iff.mp ht
    refine ⟨[],by cases n <;> rfl,⟨.nil,.nil,by simp⟩,fun m hm => ?_⟩
    cases m with
    | nil => exact le_rfl
    | cons c m =>
      obtain ⟨t,hget,-⟩ := h.least c m hm
      rw [hnil] at hget
      cases hget
  | some c =>
    rw [List.getLast?_eq_getElem?] at ht
    obtain ⟨l,hl,htraced,hrun⟩ := h.runs _ c ht
    have hpos := (List.getElem?_eq_some_iff.mp ht).1
    -- a descending list of indices below `n` is no longer than `n`
    have hlength : (c::l).length ≤ n := by
      have hnd : (c::l).Nodup := hrun.descending.imp fun h => ne_of_gt h
      have := (List.subperm_of_subset hnd fun i hi => List.mem_range.mpr (hrun.bounded i hi)).length_le
      rwa [List.length_range] at this
    refine ⟨c::l,by rw [htraced.back_eq hlength],hrun,fun m hm => ?_⟩
    cases m with
    | nil => exact Nat.zero_le _
    | cons d m =>
      obtain ⟨t,hget,-⟩ := h.least d m hm
      have := (List.getElem?_eq_some_iff.mp hget).1
      simp only [List.length_cons]
      omega

/-- The indices ascend below `n`, the values at them do not descend, and no other such indices are more. -/
theorem longest_spec (n : ℕ) : (longest value n).Pairwise (· < ·) ∧
    (longest value n).Pairwise (fun i j => value i ≤ value j) ∧ (∀ i ∈ longest value n, i < n) ∧
    ∀ m : List ℕ, m.Pairwise (· < ·) → m.Pairwise (fun i j => value i ≤ value j) → (∀ i ∈ m, i < n) →
      m.length ≤ (longest value n).length := by
  obtain ⟨l,hl,hrun,hmost⟩ := @longest_reverse _ _ value n
  rw [hl]
  refine ⟨List.pairwise_reverse.mpr hrun.descending,List.pairwise_reverse.mpr hrun.ordered,?_,?_⟩
  · simpa using hrun.bounded
  · intro m hm hv hb
    have := hmost m.reverse ⟨List.pairwise_reverse.mpr hm,List.pairwise_reverse.mpr hv,by simpa using hb⟩
    simpa using this

end Patience
