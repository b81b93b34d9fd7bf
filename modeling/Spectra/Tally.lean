import Spectra.Groups

/-! Tables that one pass over a list keeps: a step writes under the key of its element and nowhere
else, the table is read key by key, and it is listed in the order of the keys. -/
namespace Dict

variable {κ α : Type} [DecidableEq κ]

theorem get?_setDefault (d : List (κ × α)) (k k' : κ) (a : α) :
    get? (setDefault d k a) k' = if k = k' then (get? d k').or (some a) else get? d k' := by
  unfold setDefault
  split
  · rename_i h
    obtain ⟨b,hb⟩ := Option.isSome_iff_exists.mp h
    split
    · rename_i hk
      rw [← hk,hb,Option.some_or]
    · rfl
  · rename_i h
    rw [get?_set]
    split
    · rename_i hk
      rw [← hk,Option.not_isSome_iff_eq_none.mp h,Option.none_or]
    · rfl

theorem nodup_keys_setDefault {d : List (κ × α)} (h : (d.map (·.1)).Nodup) (k : κ) (a : α) :
    ((setDefault d k a).map (·.1)).Nodup := by
  unfold setDefault
  split
  · exact h
  · exact nodup_keys_set h k a

end Dict

namespace Tally

variable {κ α β : Type} [LinearOrder κ]

/-- Each step makes of the value under its element's key another one, and leaves the other keys. -/
structure Keeps (key : α → κ) (add : Option β → α → β) (step : List (κ × β) → α → List (κ × β)) : Prop where
  get : ∀ d a k, Dict.get? (step d a) k = if key a = k then some (add (Dict.get? d k) a) else Dict.get? d k
  nodup : ∀ d a, (d.map (·.1)).Nodup → ((step d a).map (·.1)).Nodup

variable {key : α → κ} {add : Option β → α → β} {step : List (κ × β) → α → List (κ × β)} {l l' : List α}

theorem keeps_set : Keeps key add fun d a => Dict.set d (key a) (add (Dict.get? d (key a)) a) where
  get d a k := by
    rw [Dict.get?_set]
    split
    · rename_i h
      rw [h]
    · rfl
  nodup d a h := Dict.nodup_keys_set h _ _

theorem Keeps.get_foldl (h : Keeps key add step) (d : List (κ × β)) (k : κ) :
    Dict.get? (l.foldl step d) k =
      (l.filter (key · = k)).foldl (fun o a => some (add o a)) (Dict.get? d k) := by
  induction l generalizing d with
  | nil => rfl
  | cons a l ih =>
    rw [List.foldl_cons,ih,h.get]
    by_cases hk : key a = k
    · rw [if_pos hk,List.filter_cons_of_pos (by simpa using hk),List.foldl_cons]
    · rw [if_neg hk,List.filter_cons_of_neg (by simpa using hk)]

theorem Keeps.nodup_foldl (h : Keeps key add step) {d : List (κ × β)} (hd : (d.map (·.1)).Nodup) :
    ((l.foldl step d).map (·.1)).Nodup := by
  induction l generalizing d with
  | nil => exact hd
  | cons a l ih => exact ih (h.nodup d a hd)

/-- The table in the order of its keys. -/
def listed (d : List (κ × β)) : List (κ × β) := d.insertionSort (·.1 ≤ ·.1)

theorem mem_listed {d : List (κ × β)} {p : κ × β} : p ∈ listed d ↔ p ∈ d := List.mem_insertionSort _

theorem listed_ascending {d : List (κ × β)} (h : (d.map (·.1)).Nodup) :
    ((listed d).map (·.1)).Pairwise (· < ·) := by
  have hle : (listed d).Pairwise (·.1 ≤ ·.1) := List.pairwise_insertionSort _ _
  have hn : ((listed d).map (·.1)).Nodup := ((List.perm_insertionSort _ _).map _).nodup_iff.mpr h
  exact (List.pairwise_map.mpr hle).imp₂ (fun _ _ h hne => lt_of_le_of_ne h hne) hn

/-- Tables that read the same are listed the same. -/
theorem listed_congr {d d' : List (κ × β)} (hd : (d.map (·.1)).Nodup) (hd' : (d'.map (·.1)).Nodup)
    (h : ∀ k, Dict.get? d k = Dict.get? d' k) : listed d = listed d' := by
  have hmem : ∀ p, p ∈ d ↔ p ∈ d' := by
    intro p
    constructor
    · intro hp
      exact Dict.get?_mem (h p.1 ▸ Dict.get?_of_mem hd hp)
    · intro hp
      exact Dict.get?_mem ((h p.1).symm ▸ Dict.get?_of_mem hd' hp)
  have hperm : (listed d).Perm (listed d') :=
    (List.perm_insertionSort _ _).trans (((List.perm_ext_iff_of_nodup (.of_map _ hd) (.of_map _ hd')).mpr
      hmem).trans (List.perm_insertionSort _ _).symm)
  refine hperm.eq_of_pairwise (fun p q _ _ hpq hqp => absurd hqp hpq.asymm)
    (List.pairwise_map.mp (listed_ascending hd)) (List.pairwise_map.mp (listed_ascending hd'))

/-- Where the elements of a key commute, the order of the pass does not reach the list. -/
theorem Keeps.listed_perm (h : Keeps key add step) (hp : l.Perm l')
    (hc : ∀ a ∈ l, ∀ b ∈ l, key a = key b → ∀ o, add (some (add o a)) b = add (some (add o b)) a) :
    listed (l.foldl step []) = listed (l'.foldl step []) := by
  refine listed_congr (h.nodup_foldl List.nodup_nil) (h.nodup_foldl List.nodup_nil) fun k => ?_
  rw [h.get_foldl,h.get_foldl]
  refine (hp.filter _).foldl_eq' (fun a ha b hb o => ?_) _
  obtain ⟨ha,hka⟩ := List.mem_filter.mp ha
  obtain ⟨hb,hkb⟩ := List.mem_filter.mp hb
  exact congrArg some (hc a ha b hb (by simp_all) o)

/-- Lists of the same members sort alike when the key tells the members apart. -/
theorem insertionSort_perm {f : α → κ} {l m : List α}
    (hkey : ∀ a ∈ l, ∀ b ∈ l, f a = f b → a = b) (h : l.Perm m) :
    (l.insertionSort fun a b => f a ≤ f b) = m.insertionSort fun a b => f a ≤ f b := by
  refine List.Perm.eq_of_pairwise (fun a b ha hb hab hba => ?_)
    (List.pairwise_insertionSort (fun a b => f a ≤ f b) l)
    (List.pairwise_insertionSort (fun a b => f a ≤ f b) m)
    ((List.perm_insertionSort _ l).trans (h.trans (List.perm_insertionSort _ m).symm))
  exact hkey a ((List.mem_insertionSort _).mp ha) b (h.mem_iff.mpr ((List.mem_insertionSort _).mp hb))
    (le_antisymm hab hba)

end Tally
