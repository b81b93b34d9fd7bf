import Mathlib.Data.Fintype.Order
import Mathlib.Data.List.Enum
import Mathlib.Tactic

/-! Pruning a list by a preorder that is decided: an entry goes when another is below it, and of
two entries below each other the later one goes. -/
namespace Pruning

variable {α : Type*} (le : α → α → Bool)

/-- An entry that stands elsewhere makes the one at `index` redundant. -/
def redundant (l : List α) (a : α) (index : ℕ) : Bool :=
  l.zipIdx.any fun (b,other) => other ≠ index && (le b a && (!le a b || other < index))

def prune (l : List α) : List α :=
  (l.zipIdx.filter fun (a,index) => !redundant le l a index).map (·.1)

variable {le} {l : List α}

theorem redundant_iff {a : α} {index : ℕ} : redundant le l a index = true ↔
    ∃ b other, l[other]? = some b ∧ other ≠ index ∧ le b a = true ∧ (le a b = false ∨ other < index) := by
  simp only [redundant,List.any_eq_true,Prod.exists,List.mk_mem_zipIdx_iff_getElem?,Bool.and_eq_true,
    Bool.or_eq_true,Bool.not_eq_true',decide_eq_true_eq,ne_eq]

theorem mem_prune {a : α} : a ∈ prune le l ↔ ∃ index, l[index]? = some a ∧ redundant le l a index = false := by
  simp only [prune,List.mem_map,List.mem_filter,Prod.exists,List.mk_mem_zipIdx_iff_getElem?,
    Bool.not_eq_true',exists_and_right,exists_eq_right]

/-- What is kept was there. -/
theorem mem_of_mem_prune {a : α} (h : a ∈ prune le l) : a ∈ l := by
  obtain ⟨index,ha,-⟩ := mem_prune.mp h
  exact List.mem_of_getElem? ha

/-- Below every entry one is kept. -/
theorem exists_le_of_mem (hrefl : ∀ a ∈ l, le a a = true)
    (htrans : ∀ a b c, le a b = true → le b c = true → le a c = true) {a : α} (h : a ∈ l) :
    ∃ b ∈ prune le l, le b a = true := by
  -- what makes an entry redundant is below it in a strict order of the places
  let below (j i : Fin l.length) : Prop := le l[j] l[i] = true ∧ (le l[i] l[j] = false ∨ j < i)
  have : IsTrans (Fin l.length) below := ⟨fun k j i hkj hji => by
    refine ⟨htrans _ _ _ hkj.1 hji.1,?_⟩
    by_cases hik : le l[i] l[k] = true
    · have hij := htrans _ _ _ hik hkj.1
      have hjk := htrans _ _ _ hji.1 hik
      have h₁ := hji.2.resolve_left fun hn => Bool.false_ne_true (hn.symm.trans hij)
      have h₂ := hkj.2.resolve_left fun hn => Bool.false_ne_true (hn.symm.trans hjk)
      exact Or.inr (h₂.trans h₁)
    · exact Or.inl (by simpa using hik)⟩
  have : Std.Irrefl below := ⟨fun i hi => by
    rcases hi.2 with h | h
    · exact Bool.false_ne_true (h.symm.trans (hrefl _ (List.getElem_mem i.2)))
    · exact absurd h (lt_irrefl i)⟩
  have hwf : WellFounded below := Finite.wellFounded_of_trans_of_irrefl below
  obtain ⟨i,hi,rfl⟩ := List.getElem_of_mem h
  have key : ∀ i : Fin l.length, ∃ b ∈ prune le l, le b l[i] = true := by
    intro i
    induction i using hwf.induction with
    | h i ih =>
      cases hr : redundant le l l[i] i with
      | false => exact ⟨l[i],mem_prune.mpr ⟨i,by simp,hr⟩,hrefl _ (List.getElem_mem i.2)⟩
      | true =>
        obtain ⟨b,j,hb,-,hle,hcase⟩ := redundant_iff.mp hr
        obtain ⟨hj,rfl⟩ := List.getElem?_eq_some_iff.mp hb
        obtain ⟨c,hc,hcb⟩ := ih ⟨j,hj⟩ ⟨hle,hcase⟩
        exact ⟨c,hc,htrans _ _ _ hcb hle⟩
  exact key ⟨i,hi⟩

/-- No two entries that are kept are comparable, unless they are the same. -/
theorem eq_of_le {a b : α} (ha : a ∈ prune le l) (hb : b ∈ prune le l) (h : le a b = true) : a = b := by
  obtain ⟨i,hi,hri⟩ := mem_prune.mp ha
  obtain ⟨j,hj,hrj⟩ := mem_prune.mp hb
  by_contra hne
  have hij : i ≠ j := by
    rintro rfl
    exact hne (Option.some.inj (hi.symm.trans hj))
  have hback : le b a = true ∧ j ≤ i := by
    by_contra hn
    rw [not_and_or] at hn
    have : redundant le l b j = true := by
      refine redundant_iff.mpr ⟨a,i,hi,hij,h,?_⟩
      rcases hn with hn | hn
      · exact Or.inl (by simpa using hn)
      · exact Or.inr (by omega)
    rw [this] at hrj
    cases hrj
  have : redundant le l a i = true := redundant_iff.mpr ⟨b,j,hj,hij.symm,hback.1,Or.inr (by omega)⟩
  rw [this] at hri
  cases hri

end Pruning
