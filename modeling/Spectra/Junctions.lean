import Mathlib.Data.Finset.Sort
import Mathlib.Tactic

/-! Normal forms of a connective that is associative, commutative and idempotent and has a
unit and a zero: nested operands are flattened, units dropped, a zero absorbs the rest, and
what is left is sorted without repeats. -/
namespace Junctions

variable {α : Type*}

/-- How the nodes of a connective are built and taken apart, its unit and its zero. -/
structure Connective (α : Type*) where
  node : List α → α
  parts : α → Option (List α)
  unit : α
  zero : α
  parts_node : ∀ l, parts (node l) = some l
  node_parts : ∀ a l, parts a = some l → a = node l
  parts_unit : parts unit = none
  parts_zero : parts zero = none
  zero_ne_unit : zero ≠ unit

namespace Connective

variable [LinearOrder α] (k : Connective α)

/-- What a node contributes to the one above it: its parts, without units. -/
def operands (a : α) : List α := ((k.parts a).getD [a]).filter (· ≠ k.unit)

/-- A node of two or more operands, or what stands for one of fewer. -/
def collapse : List α → α
  | [] => k.unit
  | [a] => a
  | l => k.node l

/-- The node over a list of operands. -/
def build (l : List α) : α :=
  if k.zero ∈ l then k.zero else k.collapse l.toFinset.sort

def join (l : List α) : α := k.build (l.flatMap k.operands)

variable {k}

theorem ne_unit_of_mem_operands {a b : α} (h : b ∈ k.operands a) : b ≠ k.unit := by
  simpa using (List.mem_filter.mp h).2

theorem operands_of_leaf {a : α} (h : k.parts a = none) (hu : a ≠ k.unit) : k.operands a = [a] := by
  simp [operands,h,hu]

@[simp] theorem operands_unit : k.operands k.unit = [] := by
  simp [operands,k.parts_unit]

@[simp] theorem operands_zero : k.operands k.zero = [k.zero] :=
  operands_of_leaf k.parts_zero k.zero_ne_unit

@[simp] theorem operands_node (l : List α) : k.operands (k.node l) = l.filter (· ≠ k.unit) := by
  simp [operands,k.parts_node]

/-- Order and repeats of the operands do not matter. -/
theorem build_congr {l m : List α} (h : ∀ a, a ∈ l ↔ a ∈ m) : k.build l = k.build m := by
  have he : l.toFinset = m.toFinset := by ext a; simpa using h a
  unfold build
  rw [he]
  simp only [h]

theorem build_of_zero {l : List α} (h : k.zero ∈ l) : k.build l = k.zero := by
  simp [build,h]

/-- The operands in their order decide the node. -/
theorem build_sorted {l s : List α} (hz : k.zero ∉ l) (hs : s.Pairwise (· < ·))
    (h : ∀ a, a ∈ s ↔ a ∈ l) :
    k.build l = k.collapse s := by
  have he : l.toFinset.sort = s := by
    have hl : l.toFinset = s.toFinset := by ext a; simpa using (h a).symm
    rw [hl]
    exact (List.toFinset_sort (· ≤ ·) (hs.imp fun h => ne_of_lt h)).mpr (hs.imp le_of_lt)
  unfold build
  rw [if_neg hz,he]

/-- What a node over some operands can be. -/
theorem build_cases (l : List α) : k.zero ∈ l ∧ k.build l = k.zero ∨
    k.zero ∉ l ∧ l = [] ∧ k.build l = k.unit ∨
    k.zero ∉ l ∧ (∃ a, (∀ b, b ∈ l ↔ b = a) ∧ k.build l = a) ∨
    k.zero ∉ l ∧ ∃ s, 2 ≤ s.length ∧ s.Pairwise (· < ·) ∧ (∀ a, a ∈ s ↔ a ∈ l) ∧
      k.build l = k.node s := by
  by_cases hz : k.zero ∈ l
  · exact Or.inl ⟨hz,build_of_zero hz⟩
  have hs : l.toFinset.sort.Pairwise (· < ·) := l.toFinset.sortedLT_sort.pairwise
  have hm : ∀ a, a ∈ l.toFinset.sort ↔ a ∈ l := by simp
  have hb := build_sorted hz hs hm
  refine Or.inr ?_
  generalize l.toFinset.sort = s at hs hm hb
  match s with
  | [] =>
    refine Or.inl ⟨hz,?_,hb⟩
    exact List.eq_nil_iff_forall_not_mem.mpr fun a ha => absurd ((hm a).mpr ha) (by simp)
  | [a] => exact Or.inr (Or.inl ⟨hz,a,fun b => by rw [← hm b]; simp,hb⟩)
  | a::b::s => exact Or.inr (Or.inr ⟨hz,_,by simp,hs,hm,hb⟩)

/-- A node gives back the operands it was built over. -/
theorem operands_build {l : List α} (hz : k.zero ∉ l)
    (hl : ∀ a ∈ l, k.parts a = none ∧ a ≠ k.unit) (a : α) : a ∈ k.operands (k.build l) ↔ a ∈ l := by
  rcases build_cases (k := k) l with ⟨h,_⟩ | ⟨_,rfl,h⟩ | ⟨_,b,hb,h⟩ | ⟨_,s,_,_,hs,h⟩
  · exact absurd h hz
  · simp [h]
  · have hp := hl b ((hb b).mpr rfl)
    rw [h,operands_of_leaf hp.1 hp.2,hb,List.mem_singleton]
  · rw [h,operands_node,List.mem_filter,hs]
    exact ⟨fun h => h.1,fun h => ⟨h,by simpa using (hl a h).2⟩⟩

/-- A node whose operands are not nodes of the connective themselves. -/
def Neat (k : Connective α) (a : α) : Prop := ∀ b ∈ k.operands a, k.parts b = none

theorem join_congr {l m : List α} (h : ∀ a, a ∈ l ↔ a ∈ m) : k.join l = k.join m :=
  build_congr fun a => by simp only [List.mem_flatMap,h]

/-- Joining in groups is joining at once. -/
theorem join_join {ls : List (List α)} (h : ∀ l ∈ ls, ∀ a ∈ l, k.Neat a) :
    k.join (ls.map k.join) = k.join ls.flatten := by
  by_cases hz : ∃ l ∈ ls, k.zero ∈ l.flatMap k.operands
  · obtain ⟨l,hl,hz⟩ := hz
    have hleft : k.zero ∈ (ls.map k.join).flatMap k.operands := by
      refine List.mem_flatMap.mpr ⟨k.join l,List.mem_map_of_mem hl,?_⟩
      simp [join,build_of_zero hz]
    have hright : k.zero ∈ ls.flatten.flatMap k.operands := by
      obtain ⟨a,ha,hz⟩ := List.mem_flatMap.mp hz
      exact List.mem_flatMap.mpr ⟨a,List.mem_flatten.mpr ⟨l,hl,ha⟩,hz⟩
    rw [join,join,build_of_zero hleft,build_of_zero hright]
  · push Not at hz
    refine build_congr fun b => ?_
    have key : ∀ l ∈ ls, (b ∈ k.operands (k.join l) ↔ b ∈ l.flatMap k.operands) := by
      intro l hl
      refine operands_build (hz l hl) (fun a ha => ?_) b
      obtain ⟨c,hc,ha⟩ := List.mem_flatMap.mp ha
      exact ⟨h l hl c hc a ha,ne_unit_of_mem_operands ha⟩
    simp only [List.mem_flatMap,List.mem_map,List.mem_flatten] at key ⊢
    constructor
    · rintro ⟨_,⟨l,hl,rfl⟩,hb⟩
      obtain ⟨a,ha,hb⟩ := (key l hl).mp hb
      exact ⟨a,⟨l,hl,ha⟩,hb⟩
    · rintro ⟨a,⟨l,hl,ha⟩,hb⟩
      exact ⟨_,⟨l,hl,rfl⟩,(key l hl).mpr ⟨a,ha,hb⟩⟩

/-- A join among the operands gives way to its own operands. -/
theorem join_nested {before inner after : List α} (h : ∀ a ∈ inner, k.Neat a) :
    k.join (before++k.join inner::after) = k.join (before++inner++after) := by
  by_cases hz : k.zero ∈ inner.flatMap k.operands
  · have hj : k.join inner = k.zero := build_of_zero hz
    have hright : k.zero ∈ (before++inner++after).flatMap k.operands := by
      simp only [List.flatMap_append,List.mem_append]
      exact Or.inl (Or.inr hz)
    have hleft : k.zero ∈ (before++k.join inner::after).flatMap k.operands := by
      simp [List.flatMap_append,hj]
    exact (build_of_zero hleft).trans (build_of_zero hright).symm
  · refine build_congr fun b => ?_
    have hinner : b ∈ k.operands (k.join inner) ↔ b ∈ inner.flatMap k.operands := by
      refine operands_build hz (fun a ha => ?_) b
      obtain ⟨c,hc,ha⟩ := List.mem_flatMap.mp ha
      exact ⟨h c hc a ha,ne_unit_of_mem_operands ha⟩
    simp only [List.flatMap_append,List.flatMap_cons,List.mem_append,hinner,or_assoc]

@[simp] theorem join_nil : k.join [] = k.unit := by
  simp [join,build,collapse]

theorem join_of_zero {l : List α} (h : k.zero ∈ l) : k.join l = k.zero :=
  build_of_zero (List.mem_flatMap.mpr ⟨k.zero,h,by simp⟩)

theorem join_leaf {a : α} (h : k.parts a = none) : k.join [a] = a := by
  by_cases hu : a = k.unit
  · subst hu; simp [join,build,collapse]
  · by_cases hz : a = k.zero
    · subst hz; simp [join,build]
    · simp [join,operands_of_leaf h hu,build,collapse,Ne.symm hz]

/-- A node over two or more sorted operands is its own normal form. -/
theorem join_node {l : List α} (hlen : 2 ≤ l.length) (hs : l.Pairwise (· < ·))
    (hu : k.unit ∉ l) (hz : k.zero ∉ l) : k.join [k.node l] = k.node l := by
  have hf : l.filter (· ≠ k.unit) = l :=
    List.filter_eq_self.mpr fun a ha => by simpa using ne_of_mem_of_not_mem ha hu
  have hb := build_sorted hz hs fun a => Iff.rfl
  rw [join,List.flatMap_singleton,operands_node,hf,hb]
  match l, hlen with
  | a::b::l, _ => rfl

/-- Sorted leaves join to the node over them. -/
theorem join_leaves {l : List α} (hlen : 2 ≤ l.length) (hs : l.Pairwise (· < ·))
    (hl : ∀ a ∈ l, k.parts a = none) (hu : k.unit ∉ l) (hz : k.zero ∉ l) : k.join l = k.node l := by
  have hf : ∀ m : List α, (∀ a ∈ m, a ∈ l) → m.flatMap k.operands = m := by
    intro m hm
    induction m with
    | nil => rfl
    | cons a m ih =>
      have ha := hm a (by simp)
      rw [List.flatMap_cons,operands_of_leaf (hl a ha) (ne_of_mem_of_not_mem ha hu),
        ih fun b hb => hm b (by simp [hb])]
      rfl
  rw [join,hf l fun a ha => ha,build_sorted hz hs fun a => Iff.rfl]
  match l, hlen with
  | a::b::l, _ => rfl

/-- A property that nodes have exactly when their parts do passes to a join. -/
theorem forall_join {p : α → Prop} (hu : p k.unit) (hz : p k.zero)
    (hn : ∀ l, p (k.node l) ↔ ∀ a ∈ l, p a) {l : List α} (h : ∀ a ∈ l, p a) : p (k.join l) := by
  have hop : ∀ b ∈ l.flatMap k.operands, p b := by
    intro b hb
    obtain ⟨a,ha,hb⟩ := List.mem_flatMap.mp hb
    have hb := (List.mem_filter.mp hb).1
    cases hp : k.parts a with
    | none => rw [hp] at hb; rw [List.mem_singleton.mp hb]; exact h a ha
    | some m =>
      rw [hp] at hb
      exact (hn m).mp (k.node_parts a m hp ▸ h a ha) b hb
  rw [join]
  rcases build_cases (k := k) (l.flatMap k.operands) with ⟨_,h⟩ | ⟨_,_,h⟩ | ⟨_,b,hb,h⟩ | ⟨_,s,_,_,hs,h⟩
  · rwa [h]
  · rwa [h]
  · rw [h]; exact hop b ((hb b).mpr rfl)
  · rw [h,hn]; exact fun a ha => hop a ((hs a).mp ha)

/-- A size that counts a node and its parts does not grow by joining. -/
theorem size_join {size : α → ℕ} (hu : size k.unit = 1) (hz : size k.zero = 1)
    (hn : ∀ l, size (k.node l) = (l.map size).sum+1) (l : List α) :
    size (k.join l) ≤ (l.map size).sum+1 := by
  have hfilter : ∀ (q : α → Bool) (m : List α), ((m.filter q).map size).sum ≤ (m.map size).sum :=
    fun q m => (m.filter_sublist.map size).sum_le_sum fun _ _ => Nat.zero_le _
  have hop : ∀ a, ((k.operands a).map size).sum ≤ size a := by
    intro a
    refine (hfilter _ _).trans ?_
    cases hp : k.parts a with
    | none => simp
    | some m => rw [k.node_parts a m hp,hn]; simp
  have hall : ((l.flatMap k.operands).map size).sum ≤ (l.map size).sum := by
    induction l with
    | nil => simp
    | cons a l ih => have := hop a; simp at ih ⊢; omega
  have hmem : ∀ b ∈ l.flatMap k.operands, size b ≤ ((l.flatMap k.operands).map size).sum :=
    fun b hb => List.single_le_sum (by simp) _ (List.mem_map_of_mem hb)
  rw [join]
  rcases build_cases (k := k) (l.flatMap k.operands) with ⟨_,h⟩ | ⟨_,_,h⟩ | ⟨_,b,hb,h⟩ | ⟨_,s,_,hs,hm,h⟩
  · rw [h,hz]; omega
  · rw [h,hu]; omega
  · have := hmem b ((hb b).mpr rfl)
    rw [h]; omega
  · have hsub : s.Subperm (l.flatMap k.operands) :=
      List.subperm_of_subset (hs.imp fun h => ne_of_lt h) fun a ha => (hm a).mp ha
    obtain ⟨t,ht,hsub⟩ := hsub
    have hle := (hsub.map size).sum_le_sum fun _ _ => Nat.zero_le _
    have heq := (ht.map size).sum_eq
    rw [h,hn]; omega

/-- A valuation that reads a node as the conjunction of its parts reads a join as that too. -/
theorem holds_join {holds : α → Bool} (hnode : ∀ l, holds (k.node l) = l.all holds)
    (hu : holds k.unit = true) (hz : holds k.zero = false) (l : List α) :
    holds (k.join l) = l.all holds := by
  have hop : ∀ a, (k.operands a).all holds = holds a := by
    intro a
    have hf : ∀ m : List α, (m.filter (· ≠ k.unit)).all holds = m.all holds := by
      intro m
      induction m with
      | nil => rfl
      | cons b m ih => by_cases hb : b = k.unit <;> simp [hb,hu,← ih]
    rw [operands,hf]
    cases hp : k.parts a with
    | none => simp
    | some m => rw [Option.getD_some,← hnode,← k.node_parts a m hp]
  have hall : (l.flatMap k.operands).all holds = l.all holds := by
    simp only [List.all_flatMap,hop]
  rw [← hall,join]
  rcases build_cases (k := k) (l.flatMap k.operands) with ⟨hm,h⟩ | ⟨_,he,h⟩ | ⟨_,b,hb,h⟩ | ⟨_,s,_,_,hs,h⟩
  · rw [h,hz]
    exact (List.all_eq_false.mpr ⟨_,hm,by simp [hz]⟩).symm
  · rw [h,he,hu]; rfl
  · rw [h,Bool.eq_iff_iff,List.all_eq_true]
    exact ⟨fun hh c hc => by rw [(hb c).mp hc,hh],fun hh => hh b ((hb b).mpr rfl)⟩
  · rw [h,hnode,Bool.eq_iff_iff,List.all_eq_true,List.all_eq_true]
    exact forall_congr' fun a => by rw [hs]

end Connective

end Junctions
