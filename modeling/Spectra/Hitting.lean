import Mathlib.Data.Finset.Card
import Mathlib.Tactic

/-! Minimum covers by ordered subset enumeration: a branch and bound over a list
of picks with a node budget, and its exactness whenever the budget suffices. -/
namespace Hitting

/-- A node counter with a ceiling; the error carries the count at which it was hit. -/
structure Box where
  limit : ℤ
  used : ℕ
  deriving DecidableEq

def Box.spend (box : Box) : Except Box Box :=
  let box := {box with used := box.used+1}
  if box.limit < box.used then .error box else .ok box

/-- Integer ceiling division. -/
def ceilDiv (n d : ℕ) : ℕ := (n+d-1)/d

theorem ceilDiv_le {n d k : ℕ} (h : n ≤ k*d) : ceilDiv n d ≤ k := by
  unfold ceilDiv
  rcases Nat.eq_zero_or_pos d with rfl | hd
  · simp
  · have hk : n+d-1 < (k+1)*d := by rw [Nat.succ_mul]; omega
    exact Nat.lt_succ_iff.mp ((Nat.div_lt_iff_lt_mul hd).mpr hk)

variable {ι κ : Type*} [DecidableEq κ]

def Covers (hits : ι → Finset κ) (s : List ι) (unhit : Finset κ) : Prop :=
  ∀ k ∈ unhit, ∃ c ∈ s, k ∈ hits c

def widest (hits : ι → Finset κ) (unhit : Finset κ) (rest : List ι) : ℕ :=
  rest.foldl (fun w c => max w (unhit ∩ hits c).card) 0

def improve (chosen : ℕ) : Option ℕ → ℕ
  | none => chosen
  | some best => if chosen < best then chosen else best

/-- One node: stop on a cover, prune when no completion can beat `best`, else branch. -/
def visit (hits : ι → Finset κ) (rest : List ι) (unhit : Finset κ) (chosen : ℕ)
    (best : Option ℕ) (box : Box) (loop : Box → Except Box (Option ℕ × Box)) :
    Except Box (Option ℕ × Box) :=
  match box.spend with
  | .error box => .error box
  | .ok box =>
    if unhit = ∅ then .ok (some (improve chosen best),box)
    else
      let w := widest hits unhit rest
      if w = 0 then .ok (best,box)
      else if best.any (· ≤ chosen+ceilDiv unhit.card w) then .ok (best,box)
      else loop box

/-- The branches of one node, in list order; a pick that covers nothing new is skipped. -/
def branches (hits : ι → Finset κ) :
    List ι → Finset κ → ℕ → Option ℕ → Box → Except Box (Option ℕ × Box)
  | [], _, _, best, box => .ok (best,box)
  | c::cs, unhit, chosen, best, box =>
    let covered := unhit ∩ hits c
    if covered = ∅ then branches hits cs unhit chosen best box
    else
      match visit hits cs (unhit \ covered) (chosen+1) best box
          (branches hits cs (unhit \ covered) (chosen+1) best) with
      | .error box => .error box
      | .ok (best,box) => branches hits cs unhit chosen best box

def bb (hits : ι → Finset κ) (rest : List ι) (unhit : Finset κ) (chosen : ℕ)
    (best : Option ℕ) (box : Box) : Except Box (Option ℕ × Box) :=
  visit hits rest unhit chosen best box (branches hits rest unhit chosen best)

omit [DecidableEq κ] in
theorem Covers.mono {hits : ι → Finset κ} {s : List ι} {u v : Finset κ} (h : Covers hits s u)
    (hv : v ⊆ u) : Covers hits s v := fun k hk => h k (hv hk)

theorem covers_cons {hits : ι → Finset κ} {c : ι} {s : List ι} {u : Finset κ} :
    Covers hits (c::s) u ↔ Covers hits s (u \ (u ∩ hits c)) := by
  constructor
  · intro h k hk
    simp only [Finset.mem_sdiff,Finset.mem_inter,not_and] at hk
    obtain ⟨d,hd,hkd⟩ := h k hk.1
    rcases List.mem_cons.mp hd with rfl | hd
    · exact absurd hkd (hk.2 hk.1)
    · exact ⟨d,hd,hkd⟩
  · intro h k hk
    by_cases hc : k ∈ hits c
    · exact ⟨c,by simp,hc⟩
    · obtain ⟨d,hd,hkd⟩ := h k (by simp [hk,hc])
      exact ⟨d,by simp [hd],hkd⟩

omit [DecidableEq κ] in
theorem covers_nil {hits : ι → Finset κ} {u : Finset κ} : Covers hits [] u ↔ u = ∅ := by
  simp [Covers,Finset.eq_empty_iff_forall_notMem]

theorem widest_le {hits : ι → Finset κ} {u : Finset κ} {rest : List ι} {c : ι} (h : c ∈ rest) :
    (u ∩ hits c).card ≤ widest hits u rest := by
  have hm : ∀ (l : List ι) (w : ℕ), w ≤ l.foldl (fun w c => max w (u ∩ hits c).card) w ∧
      ∀ c ∈ l, (u ∩ hits c).card ≤ l.foldl (fun w c => max w (u ∩ hits c).card) w := by
    intro l
    induction l with
    | nil => simp
    | cons d l ih =>
      intro w
      have h := ih (max w (u ∩ hits d).card)
      refine ⟨(le_max_left _ _).trans h.1,?_⟩
      intro c hc
      rcases List.mem_cons.mp hc with rfl | hc
      · exact (le_max_right _ _).trans h.1
      · exact h.2 c hc
  exact (hm rest 0).2 c h

/-- A cover drawn from `rest` has at least `⌈|u|/widest⌉` members. -/
theorem Covers.bound {hits : ι → Finset κ} {s rest : List ι} {u : Finset κ}
    (h : Covers hits s u) (hs : s.Sublist rest) :
    u.card ≤ s.length*widest hits u rest := by
  have hm : ∀ (t : List ι) (v : Finset κ), (∀ c ∈ t, (u ∩ hits c).card ≤ widest hits u rest) →
      v ⊆ u → Covers hits t v → v.card ≤ t.length*widest hits u rest := by
    intro t
    induction t with
    | nil => intro v _ _ hv; simp [(covers_nil).mp hv]
    | cons c t ih =>
      intro v hw hvu hv
      have ht := ih (v \ (v ∩ hits c)) (fun d hd => hw d (by simp [hd]))
        (Finset.sdiff_subset.trans hvu) (covers_cons.mp hv)
      have hc : (v ∩ hits c).card ≤ widest hits u rest :=
        (Finset.card_le_card (Finset.inter_subset_inter_right hvu)).trans (hw c (by simp))
      have hsplit := Finset.card_sdiff_add_card_eq_card (s:=v ∩ hits c) (t:=v)
        Finset.inter_subset_left
      rw [List.length_cons,Nat.succ_mul]
      omega
  exact hm s u (fun c hc => widest_le (hs.subset hc)) (Finset.Subset.refl u) h

/-- The result `r` of a search over `rest` from `best`: it is `best` or a cover's size, no
larger than `best`, and no larger than any cover drawn from `rest`. -/
structure Exact (hits : ι → Finset κ) (rest : List ι) (unhit : Finset κ) (chosen : ℕ)
    (best r : Option ℕ) : Prop where
  sound : ∀ v, r = some v → best = some v ∨
    ∃ s : List ι, s.Sublist rest ∧ Covers hits s unhit ∧ v = chosen+s.length
  le : ∀ b, best = some b → ∃ v, r = some v ∧ v ≤ b
  least : ∀ s : List ι, s.Sublist rest → Covers hits s unhit → ∃ v, r = some v ∧ v ≤ chosen+s.length

omit [DecidableEq κ] in
theorem exact_cover (hits : ι → Finset κ) (rest : List ι) (chosen : ℕ) (best : Option ℕ) :
    Exact hits rest ∅ chosen best (some (improve chosen best)) where
  sound := by
    intro v hv
    obtain rfl := Option.some.inj hv
    cases best with
    | none => exact .inr ⟨[],by simp,by simp [Covers],rfl⟩
    | some b =>
      by_cases h : chosen < b
      · exact .inr ⟨[],by simp,by simp [Covers],by simp [improve,h]⟩
      · exact .inl (by simp [improve,h])
  le := by
    rintro b rfl
    exact ⟨_,rfl,by simp only [improve]; split <;> omega⟩
  least := by
    intro s _ _
    refine ⟨_,rfl,?_⟩
    cases best with
    | none => simp [improve]
    | some b => simp only [improve]; split <;> omega

omit [DecidableEq κ] in
/-- Keeping `best` is exact as soon as every cover is at least that large. -/
theorem exact_keep {hits : ι → Finset κ} {rest : List ι} {unhit : Finset κ} {chosen : ℕ}
    {best : Option ℕ} (h : ∀ s : List ι, s.Sublist rest → Covers hits s unhit →
      ∃ b, best = some b ∧ b ≤ chosen+s.length) : Exact hits rest unhit chosen best best where
  sound := fun _ hv => .inl hv
  le := fun b hb => ⟨b,hb,le_rfl⟩
  least := h

theorem visit_exact {hits : ι → Finset κ} {rest : List ι} {unhit : Finset κ} {chosen : ℕ}
    {best r : Option ℕ} {box box' : Box} {loop : Box → Except Box (Option ℕ × Box)}
    (hl : ∀ b b' r, unhit ≠ ∅ → loop b = .ok (r,b') → Exact hits rest unhit chosen best r)
    (h : visit hits rest unhit chosen best box loop = .ok (r,box')) :
    Exact hits rest unhit chosen best r := by
  unfold visit at h
  split at h
  · cases h
  · dsimp only at h
    split at h
    · rename_i hu
      obtain ⟨rfl,rfl⟩ := Prod.mk.inj (Except.ok.inj h)
      subst hu
      exact exact_cover hits rest chosen best
    · rename_i hu
      split at h
      · rename_i hw
        obtain ⟨rfl,rfl⟩ := Prod.mk.inj (Except.ok.inj h)
        refine exact_keep fun s hs hc => ?_
        have hb := hc.bound hs
        rw [hw,Nat.mul_zero,Nat.le_zero,Finset.card_eq_zero] at hb
        exact absurd hb hu
      · split at h
        · rename_i hb
          obtain ⟨rfl,rfl⟩ := Prod.mk.inj (Except.ok.inj h)
          refine exact_keep fun s hs hc => ?_
          obtain ⟨b,rfl⟩ : ∃ b, best = some b := by
            cases best with
            | none => simp at hb
            | some b => exact ⟨b,rfl⟩
          have hd := ceilDiv_le (hc.bound hs)
          simp only [Option.any_some,decide_eq_true_eq] at hb
          exact ⟨b,rfl,by omega⟩
        · exact hl _ _ _ hu h

theorem branches_exact {hits : ι → Finset κ} (rest : List ι) {unhit : Finset κ} {chosen : ℕ}
    {best r : Option ℕ} {box box' : Box} (hu : unhit ≠ ∅)
    (h : branches hits rest unhit chosen best box = .ok (r,box')) :
    Exact hits rest unhit chosen best r := by
  induction rest generalizing unhit chosen best r box box' with
  | nil =>
    obtain ⟨rfl,rfl⟩ := Prod.mk.inj (Except.ok.inj h)
    refine exact_keep fun s hs hc => ?_
    rw [List.sublist_nil.mp hs,covers_nil] at hc
    exact absurd hc hu
  | cons c cs ih =>
    simp only [branches] at h
    split at h
    · rename_i hcov
      have hr := ih hu h
      refine ⟨?_,hr.le,?_⟩
      · intro v hv
        rcases hr.sound v hv with hb | ⟨s,hs,hc,rfl⟩
        · exact .inl hb
        · exact .inr ⟨s,hs.cons c,hc,rfl⟩
      · intro s hs hc
        rcases List.sublist_cons_iff.mp hs with hs | ⟨t,rfl,ht⟩
        · exact hr.least s hs hc
        · -- `c` covers nothing, so the rest of the cover is a cover already
          rw [covers_cons,hcov,Finset.sdiff_empty] at hc
          obtain ⟨v,hv,hle⟩ := hr.least t ht hc
          exact ⟨v,hv,by simp only [List.length_cons]; omega⟩
    · split at h
      · cases h
      · rename_i best₁ box₁ hv₁
        have h₁ := visit_exact (fun b b' r hne hr => ih hne hr) hv₁
        have h₂ := ih hu h
        refine ⟨?_,?_,?_⟩
        · intro v hv
          rcases h₂.sound v hv with hb | ⟨s,hs,hc,rfl⟩
          · rcases h₁.sound v hb with hb | ⟨s,hs,hc,rfl⟩
            · exact .inl hb
            · exact .inr ⟨c::s,hs.cons_cons c,covers_cons.mpr hc,by simp; omega⟩
          · exact .inr ⟨s,hs.cons c,hc,rfl⟩
        · intro b hb
          obtain ⟨v₁,hv₁,hle₁⟩ := h₁.le b hb
          obtain ⟨v₂,hv₂,hle₂⟩ := h₂.le v₁ hv₁
          exact ⟨v₂,hv₂,hle₂.trans hle₁⟩
        · intro s hs hc
          rcases List.sublist_cons_iff.mp hs with hs | ⟨t,rfl,ht⟩
          · exact h₂.least s hs hc
          · obtain ⟨v₁,hv₁,hle₁⟩ := h₁.least t ht (covers_cons.mp hc)
            obtain ⟨v₂,hv₂,hle₂⟩ := h₂.le v₁ hv₁
            exact ⟨v₂,hv₂,by simp only [List.length_cons]; omega⟩

theorem bb_exact {hits : ι → Finset κ} {rest : List ι} {unhit : Finset κ} {chosen : ℕ}
    {best r : Option ℕ} {box box' : Box} (h : bb hits rest unhit chosen best box = .ok (r,box')) :
    Exact hits rest unhit chosen best r :=
  visit_exact (fun _ _ _ hu hr => branches_exact rest hu hr) h

end Hitting
