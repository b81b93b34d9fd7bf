import Spectra.Dict

/-! A list in groups: its elements under a key, the groups in the order of the keys. -/
namespace Groups

variable {κ α : Type} [LinearOrder κ] {key : α → κ} {l l' : List α}

/-- The elements gathered under their keys, in the order they come in. -/
def gather (key : α → κ) (l : List α) : List (κ × List α) :=
  l.foldl (fun d a => Dict.set d (key a) ((Dict.get? d (key a)).getD []++[a])) []

def byKey (key : α → κ) (l : List α) : List (κ × List α) := (gather key l).insertionSort (·.1 ≤ ·.1)

theorem gather_nodup : ((gather key l).map (·.1)).Nodup := Dict.nodup_keys_foldl List.nodup_nil

theorem mem_byKey {p : κ × List α} : p ∈ byKey key l ↔ p ∈ gather key l := List.mem_insertionSort _

/-- A group is all the elements of its key. -/
theorem mem_gather {k : κ} {group : List α} :
    (k,group) ∈ gather key l ↔ (∃ a ∈ l, key a = k) ∧ l.filter (key · = k) = group := by
  have hkeys : k ∈ (gather key l).map (·.1) ↔ ∃ a ∈ l, key a = k := by
    rw [gather,Dict.mem_keys_foldl]
    simp
  have hread : (Dict.get? (gather key l) k).getD [] = l.filter (key · = k) := by
    have h := Dict.getD_foldl_append (f := key) (v := id) (l := l) (d := []) (k := k)
    simpa [gather] using h
  constructor
  · intro h
    have hget := Dict.get?_of_mem gather_nodup h
    exact ⟨hkeys.mp (List.mem_map_of_mem h),by rw [← hread,hget]; rfl⟩
  · rintro ⟨hk,rfl⟩
    obtain ⟨group,hget⟩ := Option.isSome_iff_exists.mp (Dict.isSome_get?_iff.mpr (hkeys.mpr hk))
    rw [← hread,hget]
    exact Dict.get?_mem hget

/-- The keys, each once and in order. -/
def keys (key : α → κ) (l : List α) : List κ := (byKey key l).map (·.1)

theorem keys_ascending : (keys key l).Pairwise (· < ·) := by
  have hsorted : (byKey key l).Pairwise (·.1 ≤ ·.1) := List.pairwise_insertionSort _ _
  have hnodup : (keys key l).Nodup := ((List.perm_insertionSort _ _).map _).nodup_iff.mpr gather_nodup
  exact (List.pairwise_map.mpr hsorted).imp₂ (fun _ _ h hne => lt_of_le_of_ne h hne) hnodup

theorem mem_keys {k : κ} : k ∈ keys key l ↔ ∃ a ∈ l, key a = k := by
  rw [keys,List.mem_map]
  constructor
  · rintro ⟨⟨k,group⟩,hp,rfl⟩
    exact ((mem_gather).mp ((mem_byKey).mp hp)).1
  · intro hk
    exact ⟨(k,_),(mem_byKey).mpr ((mem_gather).mpr ⟨hk,rfl⟩),rfl⟩

theorem byKey_eq : byKey key l = (keys key l).map fun k => (k,l.filter (key · = k)) := by
  rw [keys,List.map_map]
  refine (List.map_id _).symm.trans (List.map_congr_left fun p hp => ?_)
  obtain ⟨k,group⟩ := p
  exact Prod.ext rfl ((mem_gather).mp ((mem_byKey).mp hp)).2.symm

theorem group_ne_nil {p : κ × List α} (h : p ∈ byKey key l) : p.2 ≠ [] := by
  obtain ⟨k,group⟩ := p
  obtain ⟨⟨a,ha,hk⟩,rfl⟩ := (mem_gather).mp ((mem_byKey).mp h)
  exact List.ne_nil_of_mem (List.mem_filter.mpr ⟨ha,by simpa using hk⟩)

theorem group_key {p : κ × List α} (h : p ∈ byKey key l) {a : α} (ha : a ∈ p.2) : key a = p.1 := by
  obtain ⟨k,group⟩ := p
  obtain ⟨-,rfl⟩ := (mem_gather).mp ((mem_byKey).mp h)
  simpa using (List.mem_filter.mp ha).2

theorem filters_perm {ks : List κ} (hn : ks.Nodup) (h : ∀ a ∈ l, key a ∈ ks) :
    (ks.flatMap fun k => l.filter (key · = k)).Perm l := by
  induction ks generalizing l with
  | nil =>
    cases l with
    | nil => exact .nil
    | cons a l => exact absurd (h a (by simp)) List.not_mem_nil
  | cons k ks ih =>
    obtain ⟨hk,hn⟩ := List.nodup_cons.mp hn
    have hrest : ks.flatMap (fun k' => l.filter (key · = k')) =
        ks.flatMap fun k' => (l.filter fun a => !decide (key a = k)).filter (key · = k') := by
      refine List.flatMap_congr fun k' hk' => ?_
      rw [List.filter_filter]
      refine List.filter_congr fun a _ => ?_
      by_cases ha : key a = k'
      · have : key a ≠ k := by rintro rfl; exact hk (ha ▸ hk')
        simp [ha,ha ▸ this]
      · simp [ha]
    rw [List.flatMap_cons,hrest]
    refine ((ih hn fun a ha => ?_).append_left _).trans (List.filter_append_perm _ l)
    obtain ⟨ha,hne⟩ := List.mem_filter.mp ha
    exact (List.mem_cons.mp (h a ha)).resolve_left (by simpa using hne)

/-- Grouping neither loses nor adds an element. -/
theorem byKey_perm : ((byKey key l).flatMap (·.2)).Perm l := by
  rw [byKey_eq,List.flatMap_map]
  exact filters_perm (keys_ascending.imp ne_of_lt) fun a ha => (mem_keys).mpr ⟨a,ha,rfl⟩

/-- At most one element of each group leaves ascending keys. -/
theorem picked_ascending {pick : κ × List α → List α}
    (h : ∀ p ∈ byKey key l, pick p = [] ∨ ∃ a ∈ p.2, pick p = [a]) :
    (((byKey key l).flatMap pick).map key).Pairwise (· < ·) := by
  have hsub : (((byKey key l).flatMap pick).map key).Sublist (keys key l) := by
    have hone : ∀ p ∈ byKey key l, ((pick p).map key).Sublist [p.1] := by
      intro p hp
      rcases h p hp with hn | ⟨a,ha,hn⟩
      · simp [hn]
      · simp [hn,group_key hp ha]
    rw [keys,List.map_flatMap,List.map_eq_flatMap]
    generalize byKey key l = groups at hone
    induction groups with
    | nil => exact .slnil
    | cons p groups ih =>
      rw [List.flatMap_cons,List.flatMap_cons]
      exact (hone p (by simp)).append (ih fun q hq => hone q (by simp [hq]))
  exact keys_ascending.sublist hsub

/-- Where a key tells its element, the order of a list does not matter to its groups. -/
theorem byKey_congr (h : l.Perm l') (hkey : ∀ a ∈ l, ∀ b ∈ l, key a = key b → a = b) :
    byKey key l = byKey key l' := by
  have hkeys : keys key l = keys key l' := by
    have hn : ∀ l : List α, (keys key l).Nodup := fun _ => keys_ascending.imp ne_of_lt
    have hp : (keys key l).Perm (keys key l') := by
      refine (List.perm_ext_iff_of_nodup (hn l) (hn l')).mpr fun k => ?_
      simp only [mem_keys,h.mem_iff]
    exact hp.eq_of_pairwise (fun a b _ _ hab hba => absurd hab hba.asymm) keys_ascending keys_ascending
  rw [byKey_eq,byKey_eq,hkeys]
  refine List.map_congr_left fun k _ => Prod.ext rfl ?_
  have hall : ∀ l : List α, l.Pairwise fun _ _ => True := fun _ => List.pairwise_of_forall fun _ _ => trivial
  refine (h.filter _).eq_of_pairwise (fun a b ha hb _ _ => ?_) (hall _) (hall _)
  obtain ⟨ha,hka⟩ := List.mem_filter.mp ha
  obtain ⟨hb,hkb⟩ := List.mem_filter.mp hb
  exact hkey a ha b (h.mem_iff.mpr hb) (by simp_all)

end Groups
