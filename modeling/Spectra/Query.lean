import Mathlib.Data.List.Sort
import Mathlib.Tactic

/-! Tables of rows and the answers of ordered queries over them: rows in the order of a key, rows beside
the one before them, and a half-open range of a key. -/
namespace Query

variable {ρ κ : Type}

/-! ### The order of a key -/

section

variable [LinearOrder κ] {key : ρ → κ} {rows rows' : List ρ}

/-- `ORDER BY`. -/
def orderBy (key : ρ → κ) (rows : List ρ) : List ρ := rows.insertionSort (key · ≤ key ·)

theorem orderBy_perm (key : ρ → κ) (rows : List ρ) : (orderBy key rows).Perm rows :=
  List.perm_insertionSort _ _

@[simp] theorem mem_orderBy {r : ρ} : r ∈ orderBy key rows ↔ r ∈ rows := (orderBy_perm key rows).mem_iff

@[simp] theorem length_orderBy : (orderBy key rows).length = rows.length := (orderBy_perm key rows).length_eq

theorem pairwise_orderBy (key : ρ → κ) (rows : List ρ) : (orderBy key rows).Pairwise (key · ≤ key ·) := by
  have : Std.Total (α := ρ) (key · ≤ key ·) := ⟨fun a b => le_total (key a) (key b)⟩
  have : IsTrans ρ (key · ≤ key ·) := ⟨fun _ _ _ => le_trans⟩
  exact List.pairwise_insertionSort _ _

/-- Rows that a key tells apart have one order. -/
theorem eq_orderBy (hp : rows'.Perm rows) (hs : rows'.Pairwise (key · ≤ key ·)) (hn : (rows.map key).Nodup) :
    rows' = orderBy key rows := by
  refine (hp.trans (orderBy_perm key rows).symm).eq_of_pairwise (fun a b ha hb hab hba => ?_) hs
    (pairwise_orderBy key rows)
  exact List.inj_on_of_nodup_map hn (hp.mem_iff.mp ha) (mem_orderBy.mp hb) (le_antisymm hab hba)

/-- The answer does not depend on the order the rows are stored in. -/
theorem orderBy_congr (hp : rows.Perm rows') (hn : (rows'.map key).Nodup) : orderBy key rows = orderBy key rows' :=
  eq_orderBy ((orderBy_perm key rows).trans hp) (pairwise_orderBy key rows) hn

theorem strict_orderBy (hn : (rows.map key).Nodup) : (orderBy key rows).Pairwise (key · < key ·) := by
  have hne : ((orderBy key rows).map key).Nodup := ((orderBy_perm key rows).map key).nodup_iff.mpr hn
  exact ((pairwise_orderBy key rows).and (List.pairwise_map.mp hne)).imp fun h => lt_of_le_of_ne h.1 h.2

/-- Rows below others come before them. -/
theorem orderBy_append (hn : ((rows++rows').map key).Nodup) (h : ∀ a ∈ rows, ∀ b ∈ rows', key a ≤ key b) :
    orderBy key (rows++rows') = orderBy key rows++orderBy key rows' := by
  refine (eq_orderBy ((orderBy_perm key rows).append (orderBy_perm key rows')) ?_ hn).symm
  exact List.pairwise_append.mpr ⟨pairwise_orderBy key rows,pairwise_orderBy key rows',fun a ha b hb =>
    h a (mem_orderBy.mp ha) b (mem_orderBy.mp hb)⟩

end

/-! ### Neighbours -/

/-- `LAG`: every row with the one before it. -/
def lag : Option ρ → List ρ → List (Option ρ × ρ)
  | _, [] => []
  | previous, r::rows => (previous,r)::lag (some r) rows

/-- The rows that have one before them, with it. -/
def neighbours (rows : List ρ) : List (ρ × ρ) := (lag none rows).filterMap fun p => p.1.map (·,p.2)

theorem filterMap_lag (r : ρ) (rows : List ρ) :
    (lag (some r) rows).filterMap (fun p => p.1.map (·,p.2)) = (r::rows).zip rows := by
  induction rows generalizing r with
  | nil => rfl
  | cons s rows ih => exact congrArg ((r,s)::·) (ih s)

theorem neighbours_eq (rows : List ρ) : neighbours rows = rows.zip rows.tail := by
  cases rows with
  | nil => rfl
  | cons r rows => exact filterMap_lag r rows

@[simp] theorem length_neighbours (rows : List ρ) : (neighbours rows).length = rows.length-1 := by
  simp [neighbours_eq]

/-- Every pair ends where the next one begins. -/
theorem linked_neighbours (rows : List ρ) : (neighbours rows).IsChain fun p q => p.2 = q.1 := by
  rw [neighbours_eq]
  induction rows with
  | nil => simp
  | cons r rows ih =>
    cases rows with
    | nil => simp
    | cons s rows =>
      cases rows with
      | nil => simp
      | cons t rows => exact List.isChain_cons_cons.mpr ⟨rfl,ih⟩

theorem mem_neighbours {rows : List ρ} {p : ρ × ρ} (h : p ∈ neighbours rows) : p.1 ∈ rows ∧ p.2 ∈ rows := by
  rw [neighbours_eq] at h
  obtain ⟨a,b⟩ := p
  obtain ⟨ha,hb⟩ := List.of_mem_zip h
  exact ⟨ha,List.mem_of_mem_tail hb⟩

/-- Two neighbours stand in the order of the rows. -/
theorem neighbours_related {R : ρ → ρ → Prop} {rows : List ρ} (h : rows.Pairwise R) :
    ∀ p ∈ neighbours rows, R p.1 p.2 := by
  rw [neighbours_eq]
  induction rows with
  | nil => simp
  | cons r rows ih =>
    cases rows with
    | nil => simp
    | cons s rows =>
      obtain ⟨hr,h⟩ := List.pairwise_cons.mp h
      rw [List.tail_cons,List.zip_cons_cons]
      exact List.forall_mem_cons.mpr ⟨hr s (by simp),ih h⟩

/-- The differences between neighbours add up to that between the ends. -/
theorem sum_neighbours (f : ρ → ℤ) (first : ρ) (rows : List ρ) :
    ((neighbours (first::rows)).map fun p => f p.2-f p.1).sum =
      f ((first::rows).getLast (List.cons_ne_nil _ _))-f first := by
  rw [neighbours_eq,List.tail_cons]
  induction rows generalizing first with
  | nil => simp
  | cons r rows ih =>
    rw [List.zip_cons_cons,List.map_cons,List.sum_cons,ih r,List.getLast_cons_cons]
    dsimp only
    omega

/-! ### Groups and ranges -/

section

variable [DecidableEq κ] (key : ρ → κ)

/-- The rows of a group. -/
def group (k : κ) (rows : List ρ) : List ρ := rows.filter (key · = k)

/-- The groups take up the rows. -/
theorem sum_group (rows : List ρ) : ((rows.map key).dedup.map fun k => (group key k rows).length).sum = rows.length := by
  have hcount : ∀ k, (group key k rows).length = (rows.map key).count k := by
    intro k
    rw [group,← List.countP_eq_length_filter,List.count,List.countP_map]
    exact List.countP_congr fun r _ => by simp
  simp only [hcount,List.sum_map_count_dedup_eq_length,List.length_map]

end

section

variable (f : ρ → ℤ) (t0 t1 : ℤ)

/-- The rows whose value lies in a half-open interval. -/
def between (rows : List ρ) : List ρ := rows.filter fun r => t0 ≤ f r ∧ f r < t1

variable {f t0 t1}

@[simp] theorem mem_between {rows : List ρ} {r : ρ} : r ∈ between f t0 t1 rows ↔ r ∈ rows ∧ t0 ≤ f r ∧ f r < t1 := by
  simp [between]

/-- Adjacent intervals take up the rows of the interval they make. -/
theorem between_perm {t2 : ℤ} (h : t0 ≤ t1) (h' : t1 ≤ t2) (rows : List ρ) :
    (between f t0 t2 rows).Perm (between f t0 t1 rows++between f t1 t2 rows) := by
  induction rows with
  | nil => simp [between]
  | cons r rows ih =>
    simp only [between,List.filter_cons,decide_eq_true_eq] at ih ⊢
    by_cases hlow : t0 ≤ f r ∧ f r < t1
    · rw [if_pos (by omega),if_pos hlow,if_neg (by omega)]
      exact ih.cons r
    · by_cases hhigh : t1 ≤ f r ∧ f r < t2
      · rw [if_pos (by omega),if_neg hlow,if_pos hhigh]
        exact (ih.cons r).trans List.perm_middle.symm
      · rw [if_neg (by omega),if_neg hlow,if_neg hhigh]
        exact ih

end

end Query
