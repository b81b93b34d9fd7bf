import Spectra.Admissible
import Spectra.Corrections
import Spectra.Timeline

/-! `correction_set`: at or below the cap the least of the smallest covers of the pairs that are left,
above it a greedy cover, reached after no more turns than there are pairs. -/
namespace Spectra
namespace Temporal

/-! ### Combinations -/

theorem combinations_eq {α : Type} : ∀ (k : ℕ) (l : List α), combinations k l = Checker.combinations k l
  | 0, _ => by rw [combinations,Checker.combinations]
  | _+1, [] => by rw [combinations,Checker.combinations]
  | k+1, a::l => by rw [combinations,Checker.combinations,combinations_eq k l,combinations_eq (k+1) l]

theorem mem_combinations {k : ℕ} {l s : List String} : s ∈ combinations k l ↔ s.Sublist l ∧ s.length = k := by
  rw [combinations_eq,Checker.mem_combinations]

/-- The combinations of an ascending list come in the order of the lists. -/
theorem combinations_ascending : ∀ (k : ℕ) {l : List String}, l.Pairwise (· < ·) →
    (combinations k l).Pairwise (· < ·)
  | 0, _, _ => by rw [combinations]; exact List.pairwise_singleton _ _
  | _+1, [], _ => by rw [combinations]; exact .nil
  | k+1, a::l, h => by
    obtain ⟨ha,hl⟩ := List.pairwise_cons.mp h
    rw [combinations]
    refine List.pairwise_append.mpr ⟨?_,combinations_ascending (k+1) hl,?_⟩
    · refine List.pairwise_map.mpr ((combinations_ascending k hl).imp fun hst => ?_)
      exact List.cons_lt_cons_self.mpr hst
    · intro s hs t ht
      obtain ⟨s,-,rfl⟩ := List.mem_map.mp hs
      obtain ⟨hsub,hlength⟩ := mem_combinations.mp ht
      cases t with
      | nil => cases hlength
      | cons b t => exact List.Lex.rel (ha b (hsub.subset (by simp)))

/-! ### Covers -/

/-- Every pair has an event among the chosen. -/
def Covers (pairs : List (String × String)) (chosen : List String) : Prop :=
  ∀ pair ∈ pairs, touches chosen pair = true

section Covers

variable {pairs : List (String × String)} {chosen candidates : List String}

theorem touches_iff {pair : String × String} : touches chosen pair = true ↔ pair.1 ∈ chosen ∨ pair.2 ∈ chosen := by
  rw [touches,decide_eq_true_eq]

theorem touches_mono {other : List String} (h : chosen ⊆ other) {pair : String × String}
    (ht : touches chosen pair = true) : touches other pair = true :=
  touches_iff.mpr ((touches_iff.mp ht).imp (fun hm => h hm) fun hm => h hm)

/-- The candidates are the events of the pairs. -/
def CandidatesOf (pairs : List (String × String)) (candidates : List String) : Prop :=
  ∀ event, event ∈ candidates ↔ ∃ pair ∈ pairs, event = pair.1 ∨ event = pair.2

theorem candidatesOf (pairs : List (String × String)) :
    CandidatesOf pairs ((pairs.flatMap fun pair => [pair.1,pair.2]).dedup.insertionSort (· ≤ ·)) := fun event => by
  simp [List.mem_insertionSort]

/-- Only the candidates of a cover count. -/
theorem Covers.filter (hc : CandidatesOf pairs candidates) (h : Covers pairs chosen) :
    Covers pairs (candidates.filter (· ∈ chosen)) := by
  intro pair hp
  refine touches_iff.mpr ((touches_iff.mp (h pair hp)).imp (fun hm => ?_) fun hm => ?_)
  · exact List.mem_filter.mpr ⟨(hc _).mpr ⟨pair,hp,.inl rfl⟩,by simpa using hm⟩
  · exact List.mem_filter.mpr ⟨(hc _).mpr ⟨pair,hp,.inr rfl⟩,by simpa using hm⟩

/-! ### The smallest cover -/

/-- The cover of the fewest events, and of those the first in the order of the lists. -/
structure LeastCover (pairs : List (String × String)) (chosen : List String) : Prop where
  ascending : chosen.Pairwise (· < ·)
  covers : Covers pairs chosen
  fewest : ∀ other : List String, other.Pairwise (· < ·) → Covers pairs other → chosen.length ≤ other.length
  first : ∀ other : List String, other.Pairwise (· < ·) → Covers pairs other →
    other.length = chosen.length → chosen ≤ other

theorem exactCover_least (hc : CandidatesOf pairs candidates) (hs : candidates.Pairwise (· < ·))
    (hne : pairs ≠ []) : ∃ chosen, exactCover candidates pairs = some chosen ∧ LeastCover pairs chosen := by
  -- the part of a cover among the candidates is one of the combinations
  have hpart : ∀ other : List String, Covers pairs other →
      1 ≤ (candidates.filter (· ∈ other)).length ∧ (candidates.filter (· ∈ other)).length ≤ candidates.length ∧
      candidates.filter (· ∈ other) ∈ combinations (candidates.filter (· ∈ other)).length candidates ∧
      pairs.all (touches (candidates.filter (· ∈ other))) = true := by
    intro other ho
    have hfilter := ho.filter hc
    refine ⟨List.length_pos_iff.mpr fun hnil => ?_,List.filter_sublist.length_le,
      mem_combinations.mpr ⟨List.filter_sublist,rfl⟩,List.all_eq_true.mpr hfilter⟩
    obtain ⟨pair,hp⟩ := List.exists_mem_of_ne_nil pairs hne
    have := hfilter pair hp
    rw [hnil] at this
    simp [touches] at this
  have hfull : Covers pairs candidates := fun pair hp =>
    touches_iff.mpr (.inl ((hc _).mpr ⟨pair,hp,.inl rfl⟩))
  cases hfound : exactCover candidates pairs with
  | none =>
    obtain ⟨hone,hle,hmem,hall⟩ := hpart candidates hfull
    have hnone := List.findSome?_eq_none_iff.mp hfound _ (List.mem_range'_1.mpr ⟨hone,by omega⟩)
    exact absurd hall (List.find?_eq_none.mp hnone _ hmem)
  | some chosen =>
    refine ⟨chosen,rfl,?_⟩
    obtain ⟨before,size,after,hsplit,hsize,hbefore⟩ := List.findSome?_eq_some_iff.mp hfound
    obtain ⟨hcovers,earlier,later,hcombos,hearlier⟩ := List.find?_eq_some_iff_append.mp hsize
    have hmem : chosen ∈ combinations size candidates := by rw [hcombos]; simp
    obtain ⟨hsub,hlength⟩ := mem_combinations.mp hmem
    have hfewest : ∀ other, Covers pairs other → chosen.length ≤ (candidates.filter (· ∈ other)).length := by
      intro other ho
      obtain ⟨hone,hle,hpartmem,hall⟩ := hpart other ho
      by_contra hlt
      have hsizes : (candidates.filter (· ∈ other)).length ∈ before := by
        have hin : (candidates.filter (· ∈ other)).length ∈ List.range' 1 candidates.length :=
          List.mem_range'_1.mpr ⟨hone,by omega⟩
        have hsorted : (List.range' 1 candidates.length).Pairwise (· < ·) := List.pairwise_lt_range'
        rw [hsplit] at hin hsorted
        rcases List.mem_append.mp hin with hin | hin
        · exact hin
        · have hafter := (List.pairwise_cons.mp (List.pairwise_append.mp hsorted).2.1).1
          rcases List.mem_cons.mp hin with heq | hin
          · omega
          · have := hafter _ hin
            omega
      exact absurd hall (List.find?_eq_none.mp (hbefore _ hsizes) _ hpartmem)
    have hn : candidates.Nodup := hs.imp ne_of_lt
    have hsubperm : ∀ other : List String, (candidates.filter (· ∈ other)).Subperm other := fun other =>
      (hn.filter _).subperm fun a ha => by simpa using (List.mem_filter.mp ha).2
    refine ⟨hs.sublist hsub,List.all_eq_true.mp hcovers,fun other ho hcov => ?_,fun other ho hcov hlen => ?_⟩
    · exact (hfewest other hcov).trans (hsubperm other).length_le
    · -- a cover as small has no event apart from the candidates
      have hpartlen := hfewest other hcov
      have heq : candidates.filter (· ∈ other) = other :=
        ((hsubperm other).perm_of_length_le (by omega)).eq_of_pairwise' (hs.filter _) ho
      have hin : other ∈ combinations size candidates :=
        mem_combinations.mpr ⟨heq ▸ List.filter_sublist,hlen.trans hlength⟩
      have hascending := combinations_ascending size hs
      rw [hcombos] at hin hascending
      rcases List.mem_append.mp hin with hin | hin
      · have := hearlier other hin
        rw [List.all_eq_true.mpr hcov] at this
        cases this
      · rcases List.mem_cons.mp hin with rfl | hin
        · exact le_rfl
        · exact ((List.pairwise_cons.mp (List.pairwise_append.mp hascending).2.1).1 other hin).le

/-! ### The greedy cover -/

/-- Whatever is left, some candidate is in a pair of it, and the best one takes a pair away. -/
theorem greedy_best (hc : ∀ pair ∈ pairs, pair.1 ∈ candidates) (hne : pairs ≠ []) : ∃ best,
    ((candidates.filter (0 < coverCount pairs ·)).insertionSort (Ahead pairs)).head? = some best ∧
      (pairs.filter fun pair => !touches [best] pair).length < pairs.length := by
  obtain ⟨pair,hp⟩ := List.exists_mem_of_ne_nil pairs hne
  have hcount : 0 < coverCount pairs pair.1 := List.countP_pos_iff.mpr ⟨pair,hp,by simp [touches]⟩
  have hin : pair.1 ∈ (candidates.filter (0 < coverCount pairs ·)).insertionSort (Ahead pairs) := by
    rw [List.mem_insertionSort,List.mem_filter]
    exact ⟨hc pair hp,decide_eq_true hcount⟩
  refine ⟨_,List.head?_eq_some_head (List.ne_nil_of_mem hin),?_⟩
  have hbest := List.head_mem (List.ne_nil_of_mem hin)
  rw [List.mem_insertionSort,List.mem_filter,decide_eq_true_eq] at hbest
  obtain ⟨taken,htaken,htouch⟩ := List.countP_pos_iff.mp hbest.2
  exact List.length_filter_lt_length_iff_exists.mpr ⟨taken,htaken,by simp [htouch]⟩

/-- The greedy loop covers what is left within one turn for each pair, and further turns add nothing. -/
theorem greedyCover_covers : ∀ {fuel : ℕ} {remaining : List (String × String)},
    (∀ pair ∈ remaining, pair.1 ∈ candidates) → remaining.length ≤ fuel →
      Covers remaining (greedyCover candidates fuel remaining) ∧
        ∀ turns, remaining.length ≤ turns →
          greedyCover candidates turns remaining = greedyCover candidates fuel remaining
  | fuel, [], _, _ => by
    have hnil : ∀ n, greedyCover candidates n [] = [] := fun n => by
      cases n with
      | zero => rfl
      | succ n =>
        have hfilter : candidates.filter (0 < coverCount [] ·) = [] :=
          List.filter_eq_nil_iff.mpr fun event _ => by simp [coverCount]
        rw [greedyCover,hfilter]
        rfl
    exact ⟨by simp [Covers],fun turns _ => by rw [hnil,hnil]⟩
  | fuel+1, pair::rest, hc, hlen => by
    obtain ⟨best,hbest,hless⟩ := greedy_best hc (by simp)
    have hrest : ∀ p ∈ (pair::rest).filter fun pair => !touches [best] pair, p.1 ∈ candidates := fun p hp =>
      hc p (List.mem_filter.mp hp).1
    have hunfold : ∀ n, greedyCover candidates (n+1) (pair::rest) =
        best::greedyCover candidates n ((pair::rest).filter fun pair => !touches [best] pair) := fun n => by
      rw [greedyCover,hbest]
    obtain ⟨hcovers,hturns⟩ := @greedyCover_covers fuel _ hrest (by omega)
    rw [hunfold]
    refine ⟨fun p hp => ?_,fun turns hturn => ?_⟩
    · by_cases htouch : touches [best] p = true
      · exact touches_mono (by simp) htouch
      · exact touches_mono (List.subset_cons_self _ _) (hcovers p (List.mem_filter.mpr ⟨hp,by simpa using htouch⟩))
    · cases turns with
      | zero => simp at hturn
      | succ turns => rw [hunfold,hturns turns (by omega)]

end Covers

/-! ### The correction -/

/-- The violated pairs that no corrected event is in. -/
def uncorrected (violations : List Violation) (already : List String) : List (String × String) :=
  (violations.map (·.events)).filter fun pair => !touches already pair

/-- The events of some pairs, in order. -/
def candidates (pairs : List (String × String)) : List String :=
  (pairs.flatMap fun pair => [pair.1,pair.2]).dedup.insertionSort (· ≤ ·)

theorem candidates_ascending (pairs : List (String × String)) : (candidates pairs).Pairwise (· < ·) :=
  Timeline.ascending_dedup _

/-- Which of the two searches the correction comes from. -/
theorem correctionSet_cases (violations : List Violation) (cap : ℤ) (already : List String) :
    uncorrected violations already = [] ∧ correctionSet violations cap already = ([],false) ∨
    uncorrected violations already ≠ [] ∧ ((candidates (uncorrected violations already)).length : ℤ) ≤ cap ∧
      (∃ chosen, correctionSet violations cap already = (chosen,false) ∧
        LeastCover (uncorrected violations already) chosen) ∨
    uncorrected violations already ≠ [] ∧ cap < (candidates (uncorrected violations already)).length ∧
      correctionSet violations cap already = ((greedyCover (candidates (uncorrected violations already))
        (uncorrected violations already).length (uncorrected violations already)).insertionSort (· ≤ ·),true) := by
  by_cases hnil : uncorrected violations already = []
  · exact .inl ⟨hnil,if_pos hnil⟩
  · have hset : correctionSet violations cap already = _ := if_neg hnil
    by_cases hcap : ((candidates (uncorrected violations already)).length : ℤ) ≤ cap
    · obtain ⟨chosen,hchosen,hleast⟩ := exactCover_least (candidatesOf _) (candidates_ascending _) hnil
      refine .inr (.inl ⟨hnil,hcap,chosen,?_,hleast⟩)
      refine hset.trans ?_
      rw [if_pos]
      · unfold uncorrected at hchosen
        rw [hchosen]
      · exact hcap
    · refine .inr (.inr ⟨hnil,by omega,?_⟩)
      refine hset.trans ?_
      rw [if_neg]
      · rfl
      · exact hcap

/-- Nothing left is covered by nothing. -/
theorem leastCover_nil : LeastCover [] [] :=
  ⟨.nil,by simp [Covers],fun _ _ _ => Nat.zero_le _,fun _ _ _ h => by rw [List.length_eq_zero_iff.mp h]⟩

theorem greedy_uncorrected (violations : List Violation) (already : List String) :
    ∀ pair ∈ uncorrected violations already, pair.1 ∈ candidates (uncorrected violations already) :=
  fun pair hp => (candidatesOf _ _).mpr ⟨pair,hp,.inl rfl⟩

/-- What is not corrected yet is covered. -/
theorem correctionSet_covers (violations : List Violation) (cap : ℤ) (already : List String) :
    Covers (uncorrected violations already) (correctionSet violations cap already).1 := by
  rcases correctionSet_cases violations cap already with ⟨hnil,-⟩ | ⟨-,-,chosen,h,hleast⟩ | ⟨-,-,h⟩
  · rw [hnil]
    simp [Covers]
  · rw [h]
    exact hleast.covers
  · rw [h]
    have hcovers := (greedyCover_covers (greedy_uncorrected violations already) le_rfl).1
    exact fun pair hp => touches_mono (fun event he => (List.mem_insertionSort _).mpr he) (hcovers pair hp)

/-- A cover of the pairs as the cap asks for it: the least of the smallest ones, or the greedy one. -/
def CoverFor (cap : ℤ) (pairs : List (String × String)) (cover : List String) : Prop :=
  if ((candidates pairs).length : ℤ) ≤ cap then LeastCover pairs cover
  else cover = greedyCover (candidates pairs) pairs.length pairs

theorem LeastCover.unique {pairs : List (String × String)} {s t : List String} (hs : LeastCover pairs s)
    (ht : LeastCover pairs t) : s = t := by
  have hle := hs.fewest t ht.ascending ht.covers
  have hge := ht.fewest s hs.ascending hs.covers
  have hlen : t.length = s.length := by omega
  exact le_antisymm (hs.first t ht.ascending ht.covers hlen) (ht.first s hs.ascending hs.covers hlen.symm)

theorem exists_cover (cap : ℤ) (pairs : List (String × String)) : ∃ cover, CoverFor cap pairs cover := by
  unfold CoverFor
  split
  · by_cases hnil : pairs = []
    · exact ⟨[],hnil ▸ leastCover_nil⟩
    · obtain ⟨chosen,-,hleast⟩ := exactCover_least (candidatesOf pairs) (candidates_ascending pairs) hnil
      exact ⟨chosen,hleast⟩
  · exact ⟨_,rfl⟩

theorem mem_cover {violations : List Violation} {cap : ℤ} {already cover : List String}
    (hc : CoverFor cap (uncorrected violations already) cover) {id : String} :
    id ∈ (correctionSet violations cap already).1 ↔ id ∈ cover := by
  unfold CoverFor at hc
  rcases correctionSet_cases violations cap already with
    ⟨hnil,h⟩ | ⟨-,hcap,chosen,h,hleast⟩ | ⟨-,hcap,h⟩
  · rw [hnil] at hc
    have hempty : cover = [] := by
      split at hc
      · exact hc.unique leastCover_nil
      · exact hc
    rw [h,hempty]
  · rw [if_pos hcap] at hc
    rw [h,hleast.unique hc]
  · rw [if_neg (not_le.mpr hcap)] at hc
    rw [h,List.mem_insertionSort,hc]

/-- With what was corrected before, the correction touches every violated pair; at or below the cap it is the
least of the smallest covers of the pairs left, above it the greedy cover, and more turns change nothing. -/
theorem correction_set_cover (violations : List Violation) (cap : ℤ) (already : List String) :
    (∀ v ∈ violations, touches ((correctionSet violations cap already).1++already) v.events = true) ∧
    (((candidates (uncorrected violations already)).length : ℤ) ≤ cap →
      (correctionSet violations cap already).2 = false ∧
        LeastCover (uncorrected violations already) (correctionSet violations cap already).1) ∧
    (cap < (candidates (uncorrected violations already)).length →
      (correctionSet violations cap already).2 = decide (uncorrected violations already ≠ []) ∧
        ∀ turns, (uncorrected violations already).length ≤ turns →
          greedyCover (candidates (uncorrected violations already)) turns (uncorrected violations already) =
            greedyCover (candidates (uncorrected violations already)) (uncorrected violations already).length
              (uncorrected violations already)) := by
  refine ⟨fun v hv => ?_,fun hcap => ?_,fun hcap => ⟨?_,?_⟩⟩
  · by_cases htouch : touches already v.events = true
    · exact touches_mono (List.subset_append_right _ _) htouch
    · have hin : v.events ∈ uncorrected violations already :=
        List.mem_filter.mpr ⟨List.mem_map_of_mem hv,by simpa using htouch⟩
      exact touches_mono (List.subset_append_left _ _) (correctionSet_covers violations cap already _ hin)
  · rcases correctionSet_cases violations cap already with ⟨hnil,h⟩ | ⟨-,-,chosen,h,hleast⟩ | ⟨-,hover,-⟩
    · rw [h,hnil]
      exact ⟨rfl,leastCover_nil⟩
    · rw [h]
      exact ⟨rfl,hleast⟩
    · omega
  · rcases correctionSet_cases violations cap already with ⟨hnil,h⟩ | ⟨-,hunder,-⟩ | ⟨hne,-,h⟩
    · rw [h,hnil]
      rfl
    · omega
    · rw [h,decide_eq_true hne]
  · exact (greedyCover_covers (greedy_uncorrected violations already) le_rfl).2

end Temporal
end Spectra
