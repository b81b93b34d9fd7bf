import Mathlib.Tactic

/-! Insertion-ordered dictionaries: association lists with at most one entry read for a
key, a write in place for a key that is present and at the end for one that is not. -/
namespace Dict

variable {κ α : Type} [DecidableEq κ]

def get? : List (κ × α) → κ → Option α
  | [], _ => none
  | p::d, k => if p.1 = k then some p.2 else get? d k

def set : List (κ × α) → κ → α → List (κ × α)
  | [], k, a => [(k,a)]
  | p::d, k, a => if p.1 = k then (k,a)::d else p::set d k a

attribute [local simp] get? set

@[simp] theorem get?_nil (k : κ) : get? ([] : List (κ × α)) k = none := rfl

theorem get?_set (d : List (κ × α)) (k k' : κ) (a : α) :
    get? (set d k a) k' = if k = k' then some a else get? d k' := by
  induction d with
  | nil => simp
  | cons p d ih =>
    by_cases hp : p.1 = k
    · by_cases hk : k = k' <;> simp [hp,hk]
    · by_cases hk : k = k'
      · subst hk; simp [hp,ih]
      · simp only [set,if_neg hp,get?,ih,if_neg hk]

@[simp] theorem get?_set_self (d : List (κ × α)) (k : κ) (a : α) : get? (set d k a) k = some a := by
  simp [get?_set]

/-- `setdefault`. -/
def setDefault (d : List (κ × α)) (k : κ) (a : α) : List (κ × α) :=
  if (get? d k).isSome then d else set d k a

theorem get?_mem {d : List (κ × α)} {k : κ} {a : α} (h : get? d k = some a) : (k,a) ∈ d := by
  induction d with
  | nil => cases h
  | cons p d ih =>
    simp only [get?] at h
    split at h
    · rename_i hp; subst hp; cases h; simp
    · exact List.mem_cons_of_mem _ (ih h)

theorem get?_of_mem {d : List (κ × α)} (hn : (d.map (·.1)).Nodup) {k : κ} {a : α}
    (h : (k,a) ∈ d) : get? d k = some a := by
  induction d with
  | nil => cases h
  | cons p d ih =>
    rw [List.map_cons,List.nodup_cons] at hn
    rcases List.mem_cons.mp h with rfl | h
    · simp
    · have hne : p.1 ≠ k := by
        rintro rfl
        exact hn.1 (List.mem_map.mpr ⟨_,h,rfl⟩)
      rw [get?,if_neg hne,ih hn.2 h]

theorem isSome_get? (d : List (κ × α)) (k : κ) : (get? d k).isSome = decide (k ∈ d.map (·.1)) := by
  induction d with
  | nil => rfl
  | cons p d ih => by_cases h : p.1 = k <;> simp_all [eq_comm]

theorem isSome_get?_iff {d : List (κ × α)} {k : κ} : (get? d k).isSome ↔ k ∈ d.map (·.1) := by
  rw [isSome_get?,decide_eq_true_eq]

theorem get?_map {β : Type} (d : List (κ × α)) (g : α → β) (k : κ) :
    get? (d.map fun p => (p.1,g p.2)) k = (get? d k).map g := by
  induction d with
  | nil => rfl
  | cons p d ih => by_cases h : p.1 = k <;> simp [h,ih]

theorem mem_keys_set {d : List (κ × α)} {k k' : κ} {a : α} :
    k' ∈ (set d k a).map (·.1) ↔ k' = k ∨ k' ∈ d.map (·.1) := by
  have h := isSome_get? (set d k a) k'
  rw [get?_set] at h
  by_cases hk : k = k'
  · subst hk; simp_all
  · rw [if_neg hk,isSome_get?,decide_eq_decide] at h
    rw [← h]; simp [Ne.symm hk]

theorem nodup_keys_set {d : List (κ × α)} (h : (d.map (·.1)).Nodup) (k : κ) (a : α) :
    ((set d k a).map (·.1)).Nodup := by
  induction d with
  | nil => simp
  | cons p d ih =>
    rw [List.map_cons,List.nodup_cons] at h
    by_cases hp : p.1 = k
    · rw [set,if_pos hp,List.map_cons,List.nodup_cons]
      exact hp ▸ h
    · rw [set,if_neg hp,List.map_cons,List.nodup_cons,mem_keys_set]
      exact ⟨by tauto,ih h.2⟩

theorem mem_of_mem_set {d : List (κ × α)} {k : κ} {a : α} {p : κ × α} (h : p ∈ set d k a) :
    p ∈ d ∨ p = (k,a) := by
  induction d with
  | nil => exact .inr (List.mem_singleton.mp h)
  | cons q d ih =>
    rw [set] at h
    split at h
    · rcases List.mem_cons.mp h with rfl | h
      · exact .inr rfl
      · exact .inl (List.mem_cons_of_mem _ h)
    · rcases List.mem_cons.mp h with rfl | h
      · exact .inl List.mem_cons_self
      · exact (ih h).imp_left (List.mem_cons_of_mem _)

theorem set_ne_nil {d : List (κ × α)} {k : κ} {a : α} : set d k a ≠ [] := by
  cases d with
  | nil => simp
  | cons p d => rw [set]; split <;> simp

theorem set_fresh {d : List (κ × α)} {k : κ} (h : k ∉ d.map (·.1)) (a : α) : set d k a = d++[(k,a)] := by
  induction d with
  | nil => rfl
  | cons p d ih =>
    rw [List.map_cons,List.mem_cons,not_or] at h
    rw [set,if_neg (Ne.symm h.1),ih h.2]
    rfl

/-- Adding to the number under a key adds to the sum of the numbers. -/
theorem sum_set_add (d : List (κ × ℤ)) (k : κ) (x : ℤ) :
    ((set d k ((get? d k).getD 0+x)).map (·.2)).sum = (d.map (·.2)).sum+x := by
  induction d with
  | nil => simp
  | cons p d ih =>
    by_cases hp : p.1 = k
    · simp only [set,get?,if_pos hp,Option.getD_some,List.map_cons,List.sum_cons]
      omega
    · simp only [set,get?,if_neg hp,List.map_cons,List.sum_cons,ih]
      omega

section Writes

variable {β : Type} {f : β → κ}

/-- One write for each element of a list leaves the keys of the elements. -/
theorem mem_keys_foldl {v : List (κ × α) → β → α} {l : List β} {d : List (κ × α)} {k : κ} :
    k ∈ (l.foldl (fun d b => set d (f b) (v d b)) d).map (·.1) ↔
      k ∈ d.map (·.1) ∨ ∃ b ∈ l, f b = k := by
  induction l generalizing d with
  | nil => simp
  | cons b l ih =>
    rw [List.foldl_cons,ih,mem_keys_set,List.exists_mem_cons_iff]
    tauto

theorem nodup_keys_foldl {v : List (κ × α) → β → α} {l : List β} {d : List (κ × α)}
    (h : (d.map (·.1)).Nodup) :
    ((l.foldl (fun d b => set d (f b) (v d b)) d).map (·.1)).Nodup := by
  induction l generalizing d with
  | nil => exact h
  | cons b l ih => exact ih (nodup_keys_set h _ _)

/-- Writes under keys that are all new are appended. -/
theorem foldl_set_fresh {v : β → α} {l : List β} {d : List (κ × α)}
    (h : (d.map (·.1)++l.map f).Nodup) :
    l.foldl (fun d b => set d (f b) (v b)) d = d++l.map fun b => (f b,v b) := by
  induction l generalizing d with
  | nil => simp
  | cons b l ih =>
    have hfresh : f b ∉ d.map (·.1) := fun hb =>
      (List.nodup_append.mp h).2.2 _ hb _ (by simp) rfl
    rw [List.foldl_cons,set_fresh hfresh,ih (by simpa using h)]
    simp

/-- What is read was there before or was written for some element. -/
theorem get?_foldl_mem {v : β → α} {l : List β} {d : List (κ × α)} {k : κ} {a : α}
    (h : get? (l.foldl (fun d b => set d (f b) (v b)) d) k = some a) :
    get? d k = some a ∨ ∃ b ∈ l, f b = k ∧ v b = a := by
  induction l generalizing d with
  | nil => exact .inl h
  | cons b l ih =>
    rcases ih h with h | ⟨b',hb',h⟩
    · rw [get?_set] at h
      split at h
      · rename_i hk
        exact .inr ⟨b,by simp,hk,Option.some.inj h⟩
      · exact .inl h
    · exact .inr ⟨b',by simp [hb'],h⟩

/-- Appending one value for each element gathers the values of a f, in order. -/
theorem getD_foldl_append {v : β → α} {l : List β} {d : List (κ × List α)} {k : κ} :
    (get? (l.foldl (fun d b => set d (f b) ((get? d (f b)).getD []++[v b])) d) k).getD [] =
      (get? d k).getD []++(l.filter (f · = k)).map v := by
  induction l generalizing d with
  | nil => simp
  | cons b l ih =>
    rw [List.foldl_cons,ih,get?_set]
    by_cases hk : f b = k
    · simp [hk]
    · simp [hk]

/-- Keeping the larger value for each element keeps the largest value of a f. -/
theorem getD_foldl_max {v : β → ℤ} {l : List β} {d : List (κ × ℤ)} {k : κ} :
    (get? (l.foldl (fun d b => set d (f b) (max ((get? d (f b)).getD 0) (v b))) d) k).getD 0 =
      ((l.filter (f · = k)).map v).foldl max ((get? d k).getD 0) := by
  induction l generalizing d with
  | nil => simp
  | cons b l ih =>
    rw [List.foldl_cons,ih,get?_set]
    by_cases hk : f b = k
    · simp [hk]
    · simp [hk]

end Writes

end Dict
