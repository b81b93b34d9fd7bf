import Mathlib.Tactic

/-! Trees on the numbers below a bound, given by the children of each, and when the numbers are
those of the pre-order: the trees of the children lie one after another behind their parent. -/
namespace PreOrder

section

variable (children : ℕ → List ℕ)

/-- Steps to a child lead from the one to the other. -/
def Below : ℕ → ℕ → Prop := Relation.ReflTransGen fun p c => c ∈ children p

/-- One tree on the numbers below `n`: children come after their parent, and every number but the
root is a child once. -/
structure Treelike (n : ℕ) : Prop where
  root : 0 < n
  forward : ∀ p c, c ∈ children p → p < c ∧ c < n
  once : ∀ c, 0 < c → c < n → ((List.range n).flatMap children).count c = 1

/-- The children of each ascend, and what comes right before a child is in the tree of its parent. -/
structure InOrder : Prop where
  ascending : ∀ p, (children p).Pairwise (· < ·)
  follows : ∀ p c, c ∈ children p → Below children p (c-1)

/-- The trees of the listed numbers are the numbers from the first on, one tree after another. -/
inductive Adjoins : ℕ → List ℕ → ℕ → Prop
  | nil {s : ℕ} : Adjoins s [] s
  | cons {s m e : ℕ} {cs : List ℕ} (first : Adjoins (s+1) (children s) m) (rest : Adjoins m cs e) :
      Adjoins s (s::cs) e

/-- The tree of `i` is the numbers from `i` on before `e`. -/
def Spans (i e : ℕ) : Prop := Adjoins children (i+1) (children i) e

end

variable {children : ℕ → List ℕ} {s e i n : ℕ} {cs : List ℕ}

namespace Adjoins

theorem le (h : Adjoins children s cs e) : s ≤ e := by
  induction h with
  | nil => exact le_rfl
  | cons _ _ ih₁ ih₂ => exact (Nat.le_succ _).trans (ih₁.trans ih₂)

theorem listed (h : Adjoins children s cs e) : ∀ c ∈ cs, s ≤ c ∧ c < e := by
  induction h with
  | nil => simp
  | cons first rest _ ih =>
    have h₁ := first.le
    have h₂ := rest.le
    refine List.forall_mem_cons.mpr ⟨⟨le_rfl,by omega⟩,fun c hc => ?_⟩
    have := ih c hc
    omega

theorem ascending (h : Adjoins children s cs e) : cs.Pairwise (· < ·) := by
  induction h with
  | nil => exact .nil
  | cons first rest _ ih =>
    refine List.pairwise_cons.mpr ⟨fun c hc => ?_,ih⟩
    have h₁ := first.le
    have h₂ := rest.listed c hc
    omega

/-- What is so of the tree of every number whose children lie one after another. -/
theorem each {P : ℕ → Prop} (h : Adjoins children s cs e)
    (step : ∀ p m, Adjoins children (p+1) (children p) m → m ≤ e → P p) : ∀ p, s ≤ p → p < e → P p := by
  induction h with
  | nil => omega
  | @cons s m e cs first rest ih₁ ih₂ =>
    have h₂ := rest.le
    intro p hs he
    rcases Nat.lt_or_ge p m with hm | hm
    · rcases Nat.eq_or_lt_of_le hs with rfl | hlt
      · exact step _ m first h₂
      · exact ih₁ (fun q m' hq hm' => step q m' hq (hm'.trans h₂)) p hlt hm
    · exact ih₂ step p hm he

theorem forward (h : Adjoins children s cs e) : ∀ p, s ≤ p → p < e → ∀ c ∈ children p, p < c ∧ c < e := by
  refine h.each fun p m hp hm c hc => ?_
  have := hp.listed c hc
  omega

theorem covered (h : Adjoins children s cs e) : ∀ j, s ≤ j → j < e → ∃ c ∈ cs, Below children c j := by
  induction h with
  | nil => omega
  | @cons s m e cs first rest ih₁ ih₂ =>
    intro j hs he
    rcases Nat.lt_or_ge j m with hm | hm
    · refine ⟨s,by simp,?_⟩
      rcases Nat.eq_or_lt_of_le hs with rfl | hlt
      · exact .refl
      · obtain ⟨c,hc,hb⟩ := ih₁ j hlt hm
        exact .head hc hb
    · obtain ⟨c,hc,hb⟩ := ih₂ j hm he
      exact ⟨c,by simp [hc],hb⟩

/-- What comes right before each of the listed is in the tree they hang from. -/
theorem follows (h : Adjoins children s cs e) {q : ℕ} (hq : Below children q (s-1))
    (hcs : ∀ c ∈ cs, c ∈ children q) : ∀ c ∈ cs, Below children q (c-1) := by
  induction h with
  | nil => simp
  | @cons s m e cs first rest _ ih =>
    obtain ⟨hs,hcs⟩ := List.forall_mem_cons.mp hcs
    refine List.forall_mem_cons.mpr ⟨hq,ih ?_ hcs⟩
    have hle := first.le
    rcases Nat.eq_or_lt_of_le hle with rfl | hlt
    · exact .single hs
    · obtain ⟨c,hc,hb⟩ := first.covered (m-1) (by omega) (by omega)
      exact .head hs (.head hc hb)

/-- The listed and the children of all in their trees are all in their trees. -/
theorem perm (h : Adjoins children s cs e) :
    (cs++(List.range' s (e-s)).flatMap children).Perm (List.range' s (e-s)) := by
  induction h with
  | nil => simp
  | @cons s m e cs first rest ih₁ ih₂ =>
    have h₁ := first.le
    have h₂ := rest.le
    have hsplit : List.range' s (e-s) = s::(List.range' (s+1) (m-(s+1))++List.range' m (e-m)) := by
      have hrest := @List.range'_append (s+1) (m-(s+1)) (e-m) 1
      rw [one_mul,Nat.add_sub_cancel' h₁] at hrest
      rw [hrest,show e-s = (m-(s+1)+(e-m))+1 by omega,List.range'_succ]
    rw [hsplit,List.flatMap_cons,List.flatMap_append,List.cons_append]
    refine .cons s ?_
    have hleft : (cs++(children s++((List.range' (s+1) (m-(s+1))).flatMap children++
        (List.range' m (e-m)).flatMap children))).Perm
        (cs++(List.range' (s+1) (m-(s+1))++(List.range' m (e-m)).flatMap children)) := by
      rw [← List.append_assoc (children s)]
      exact (ih₁.append_right _).append_left _
    have hright : (cs++(List.range' (s+1) (m-(s+1))++(List.range' m (e-m)).flatMap children)).Perm
        (List.range' (s+1) (m-(s+1))++(cs++(List.range' m (e-m)).flatMap children)) := by
      rw [← List.append_assoc,← List.append_assoc]
      exact List.perm_append_comm.append_right _
    exact (hleft.trans hright).trans (ih₂.append_left _)

end Adjoins

/-! ### Both ways -/

theorem Below.le (hf : ∀ p c, c ∈ children p → p < c) {p j : ℕ} (h : Below children p j) : p ≤ j := by
  induction h with
  | refl => exact le_rfl
  | tail _ hc ih => exact ih.trans (hf _ _ hc).le

/-- A tree that spans an interval has nothing outside it. -/
theorem Spans.bounded (h : Spans children i e) {j : ℕ} (hb : Below children i j) : i ≤ j ∧ j < e := by
  have hle := Adjoins.le h
  induction hb with
  | refl => omega
  | @tail j c _ hc ih =>
    rcases Nat.eq_or_lt_of_le ih.1 with rfl | hlt
    · have := Adjoins.listed h c hc
      omega
    · have := Adjoins.forward h j hlt ih.2 c hc
      omega

theorem Spans.covered (h : Spans children i e) {j : ℕ} (hi : i ≤ j) (he : j < e) : Below children i j := by
  rcases Nat.eq_or_lt_of_le hi with rfl | hlt
  · exact .refl
  · obtain ⟨c,hc,hb⟩ := Adjoins.covered h j hlt he
    exact .head hc hb

theorem Spans.treelike (h : Spans children 0 n) (hout : ∀ p, n ≤ p → children p = []) :
    Treelike children n ∧ InOrder children := by
  have hpos : 0 < n := Adjoins.le h
  -- the root, a number inside, a number past the end
  have hcases : ∀ p c, c ∈ children p → p = 0 ∨ 0+1 ≤ p ∧ p < n := by
    intro p c hc
    rcases Nat.lt_or_ge p n with hp | hp
    · omega
    · rw [hout p hp] at hc
      cases hc
  refine ⟨⟨hpos,fun p c hc => ?_,fun c h0 hn => ?_⟩,fun p => ?_,fun p c hc => ?_⟩
  · rcases hcases p c hc with rfl | ⟨h0,hp⟩
    · have := Adjoins.listed h c hc
      omega
    · exact Adjoins.forward h p h0 hp c hc
  · have hrange : List.range n = 0::List.range' 1 (n-1) := by
      rw [List.range_eq_range']
      obtain ⟨k,rfl⟩ : ∃ k, n = k+1 := ⟨n-1,by omega⟩
      rfl
    rw [hrange,List.flatMap_cons,(Adjoins.perm h).count_eq]
    exact List.count_eq_one_of_mem List.nodup_range' (by rw [List.mem_range'_1]; omega)
  · rcases Nat.lt_or_ge p n with hp | hp
    · rcases Nat.eq_zero_or_pos p with rfl | h0
      · exact Adjoins.ascending h
      · exact Adjoins.each (P := fun p => (children p).Pairwise (· < ·)) h (fun q m hq _ => hq.ascending) p h0 hp
    · rw [hout p hp]
      exact .nil
  · rcases hcases p c hc with rfl | ⟨h0,hp⟩
    · exact Adjoins.follows h .refl (fun _ hc => hc) c hc
    · exact Adjoins.each (P := fun p => ∀ c ∈ children p, Below children p (c-1)) h
        (fun q m hq _ => hq.follows .refl fun _ hc => hc) p h0 hp c hc

namespace Treelike

variable (ht : Treelike children n)

include ht

theorem parent_unique {p q c : ℕ} (hp : c ∈ children p) (hq : c ∈ children q) : p = q := by
  have hnodup : ((List.range n).flatMap children).Nodup := by
    rw [List.nodup_iff_count_le_one]
    intro d
    by_cases hd : d ∈ (List.range n).flatMap children
    · obtain ⟨p,-,hd⟩ := List.mem_flatMap.mp hd
      have := ht.forward p d hd
      exact (ht.once d (by omega) this.2).le
    · rw [List.count_eq_zero_of_not_mem hd]
      exact Nat.zero_le _
  by_contra hne
  have hlt₁ := ht.forward p c hp
  have hlt₂ := ht.forward q c hq
  have hapart := (List.nodup_flatMap.mp hnodup).2
  have : Std.Symm (Function.onFun List.Disjoint children) := ⟨fun _ _ h => h.symm⟩
  exact hapart.forall (List.mem_range.mpr (by omega : p < n)) (List.mem_range.mpr (by omega : q < n)) hne
    hp hq

/-- What is above a child is the child, or is above its parent. -/
theorem above_child {a p c : ℕ} (hb : Below children a c) (hc : c ∈ children p) : a = c ∨ Below children a p := by
  rcases Relation.ReflTransGen.cases_tail hb with rfl | ⟨q,hq,hqc⟩
  · exact .inl rfl
  · exact .inr (ht.parent_unique hqc hc ▸ hq)

theorem reaches : ∀ j, j < n → Below children 0 j := by
  intro j
  induction j using Nat.strong_induction_on with
  | _ j ih =>
    intro hj
    rcases Nat.eq_zero_or_pos j with rfl | h0
    · exact .refl
    · have hmem : j ∈ (List.range n).flatMap children := List.one_le_count_iff.mp (ht.once j h0 hj).ge
      obtain ⟨p,hp,hc⟩ := List.mem_flatMap.mp hmem
      exact (ih p (ht.forward p j hc).1 (List.mem_range.mp hp)).tail hc

/-- The children that are left adjoin, from the first number that is below none of those before. -/
theorem adjoins_rest (ho : InOrder children) (hspans : ∀ c ∈ children i, ∃ m, Spans children c m) :
    ∀ (rest before : List ℕ) (s : ℕ), children i = before++rest → i < s → (∀ c ∈ rest, s ≤ c) →
      (∀ j, s ≤ j → Below children i j → ∃ c ∈ rest, Below children c j) →
      ∃ e, Adjoins children s rest e := by
  have hle : ∀ {p j}, Below children p j → p ≤ j := Below.le fun p c hc => (ht.forward p c hc).1
  intro rest
  induction rest with
  | nil => exact fun _ s _ _ _ _ => ⟨s,.nil⟩
  | cons c rest ih =>
    intro before s hsplit hi hfrom hall
    have hchild : ∀ d ∈ c::rest, d ∈ children i := fun d hd => by simp [hsplit,hd]
    have hascend : ∀ d ∈ rest, c < d := by
      have := ho.ascending i
      rw [hsplit] at this
      exact (List.pairwise_cons.mp (List.pairwise_append.mp this).2.1).1
    have hc : c = s := by
      by_contra hne
      have hlt : s < c := lt_of_le_of_ne (hfrom c (by simp)) (Ne.symm hne)
      obtain ⟨d,hd,hb⟩ := hall (c-1) (by omega) (ho.follows i c (hchild c (by simp)))
      have hdc := hle hb
      rcases List.mem_cons.mp hd with rfl | hd
      · omega
      · have := hascend d hd
        omega
    subst hc
    obtain ⟨m,hm⟩ := hspans c (hchild c (by simp))
    have hcm : c < m := Adjoins.le hm
    obtain ⟨e,he⟩ := ih (before++[c]) m (by simpa using hsplit) (hi.trans hcm) (fun d hd => by
      -- a later child inside the tree of this one would be below it
      by_contra hlt
      have hb := hm.covered (hascend d hd).le (by omega)
      rcases ht.above_child hb (hchild d (by simp [hd])) with heq | hup
      · have := hascend d hd
        omega
      · have := hle hup
        omega) (fun j hj hb => by
      obtain ⟨d,hd,hb⟩ := hall j (by omega) hb
      rcases List.mem_cons.mp hd with rfl | hd
      · have := hm.bounded hb
        omega
      · exact ⟨d,hd,hb⟩)
    exact ⟨e,.cons hm he⟩

theorem spans_each (ho : InOrder children) : ∀ k i, n-i ≤ k → i < n → ∃ e, Spans children i e := by
  intro k
  induction k with
  | zero => omega
  | succ k ih =>
    intro i hk hi
    refine ht.adjoins_rest ho (fun c hc => ?_) (children i) [] (i+1) rfl (Nat.lt_succ_self i) (fun c hc => ?_)
      fun j hj hb => ?_
    · have := ht.forward i c hc
      exact ih c (by omega) this.2
    · exact (ht.forward i c hc).1
    · rcases Relation.ReflTransGen.cases_head hb with rfl | ⟨c,hc,hb⟩
      · omega
      · exact ⟨c,hc,hb⟩

theorem spans (ho : InOrder children) : Spans children 0 n := by
  obtain ⟨e,he⟩ := ht.spans_each ho n 0 (by omega) ht.root
  have h0 : 0 < e := Adjoins.le he
  have hlast := ht.reaches (n-1) (by have := ht.root; omega)
  have hge := he.bounded hlast
  have hle : e-1 < n := by
    rcases Relation.ReflTransGen.cases_tail (he.covered (Nat.zero_le _) (by omega : e-1 < e)) with h | ⟨p,-,hc⟩
    · have := ht.root
      omega
    · exact (ht.forward p _ hc).2
  rwa [show n = e by omega]

end Treelike

/-- The numbers of a tree are those of its pre-order when the trees of the children adjoin. -/
theorem spans_iff (hout : ∀ p, n ≤ p → children p = []) :
    Spans children 0 n ↔ Treelike children n ∧ InOrder children :=
  ⟨fun h => h.treelike hout,fun h => h.1.spans h.2⟩

end PreOrder
