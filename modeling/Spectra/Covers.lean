import Spectra.Hitting

/-! Minimum covers by ordered subset enumeration: the search depends on which elements a pick hits
together and not on their names, and ends within `2^n` nodes over `n` picks. -/
namespace Hitting

variable {ι κ μ : Type*} [DecidableEq κ] [DecidableEq μ]

/-! ### Renaming -/

/-- Each element has its own name, and a pick hits the name as it hits the element. -/
structure Renames (name : κ → μ) (hits : ι → Finset κ) (hits' : ι → Finset μ) (unhit : Finset κ) :
    Prop where
  inj : Set.InjOn name unhit
  hits_iff : ∀ c, ∀ k ∈ unhit, name k ∈ hits' c ↔ k ∈ hits c

variable {name : κ → μ} {hits : ι → Finset κ} {hits' : ι → Finset μ} {unhit : Finset κ}

namespace Renames

omit [DecidableEq κ] [DecidableEq μ] in
theorem subset (h : Renames name hits hits' unhit) {u : Finset κ} (hu : u ⊆ unhit) :
    Renames name hits hits' u :=
  ⟨h.inj.mono (Finset.coe_subset.mpr hu),fun c k hk => h.hits_iff c k (hu hk)⟩

theorem inter (h : Renames name hits hits' unhit) (c : ι) :
    unhit.image name ∩ hits' c = (unhit ∩ hits c).image name := by
  ext m
  simp only [Finset.mem_inter,Finset.mem_image]
  constructor
  · rintro ⟨⟨k,hk,rfl⟩,hm⟩
    exact ⟨k,⟨hk,(h.hits_iff c k hk).mp hm⟩,rfl⟩
  · rintro ⟨k,⟨hk,hc⟩,rfl⟩
    exact ⟨⟨k,hk,rfl⟩,(h.hits_iff c k hk).mpr hc⟩

theorem sdiff (h : Renames name hits hits' unhit) (c : ι) :
    unhit.image name \ (unhit ∩ hits c).image name = (unhit \ (unhit ∩ hits c)).image name := by
  ext m
  simp only [Finset.mem_sdiff,Finset.mem_image]
  constructor
  · rintro ⟨⟨k,hk,rfl⟩,hm⟩
    exact ⟨k,⟨hk,fun hc => hm ⟨k,hc,rfl⟩⟩,rfl⟩
  · rintro ⟨k,⟨hk,hc⟩,rfl⟩
    refine ⟨⟨k,hk,rfl⟩,?_⟩
    rintro ⟨k',hk',he⟩
    rw [h.inj (Finset.mem_inter.mp hk').1 hk he] at hk'
    exact hc hk'

omit [DecidableEq κ] in
theorem card (h : Renames name hits hits' unhit) : (unhit.image name).card = unhit.card :=
  Finset.card_image_of_injOn h.inj

theorem widest (h : Renames name hits hits' unhit) (rest : List ι) :
    Hitting.widest hits' (unhit.image name) rest = Hitting.widest hits unhit rest := by
  unfold Hitting.widest
  refine congrArg (fun f => rest.foldl f 0) (funext fun w => funext fun c => ?_)
  rw [h.inter,(h.subset Finset.inter_subset_left).card]

theorem visit (h : Renames name hits hits' unhit) (rest : List ι) (chosen : ℕ) (best : Option ℕ)
    (box : Box) {loop loop' : Box → Except Box (Option ℕ × Box)} (hl : loop' = loop) :
    Hitting.visit hits' rest (unhit.image name) chosen best box loop' =
      Hitting.visit hits rest unhit chosen best box loop := by
  unfold Hitting.visit
  simp only [Finset.image_eq_empty,h.widest,h.card,hl]

theorem branches (h : Renames name hits hits' unhit) (rest : List ι) (chosen : ℕ) (best : Option ℕ)
    (box : Box) : Hitting.branches hits' rest (unhit.image name) chosen best box =
      Hitting.branches hits rest unhit chosen best box := by
  induction rest generalizing unhit chosen best box with
  | nil => rfl
  | cons c rest ih =>
    have hmore := h.subset (@Finset.sdiff_subset _ _ unhit (unhit ∩ hits c))
    simp only [Hitting.branches,h.inter,h.sdiff,Finset.image_eq_empty,ih h]
    rw [hmore.visit rest (chosen+1) best box (funext fun box => ih hmore (chosen+1) best box)]

end Renames

/-- The search does not look at names. -/
theorem bb_renames (h : Renames name hits hits' unhit) (rest : List ι) (chosen : ℕ) (best : Option ℕ)
    (box : Box) : bb hits' rest (unhit.image name) chosen best box = bb hits rest unhit chosen best box :=
  h.visit rest chosen best box (funext fun box => h.branches rest chosen best box)

/-! ### Nodes -/

/-- The search returns, and spends at most `nodes` nodes of the box. -/
def Spends (nodes : ℕ) (box : Box) (r : Except Box (Option ℕ × Box)) : Prop :=
  ∃ found box', r = .ok (found,box') ∧ box'.limit = box.limit ∧ box'.used ≤ box.used+nodes

theorem Spends.mono {n m : ℕ} {box : Box} {r : Except Box (Option ℕ × Box)} (h : Spends n box r)
    (hle : n ≤ m) : Spends m box r := by
  obtain ⟨found,box',hr,hl,hu⟩ := h
  exact ⟨found,box',hr,hl,by omega⟩

theorem visit_spends {rest : List ι} {chosen nodes : ℕ} {best : Option ℕ} {box : Box}
    {loop : Box → Except Box (Option ℕ × Box)} (hb : (box.used : ℤ)+(nodes+1) ≤ box.limit)
    (hl : ∀ b : Box, (b.used : ℤ)+nodes ≤ b.limit → Spends nodes b (loop b)) :
    Spends (nodes+1) box (visit hits rest unhit chosen best box loop) := by
  have hspend : box.spend = .ok {box with used := box.used+1} := by
    rw [Box.spend,if_neg (by push_cast; omega)]
  unfold visit
  rw [hspend]
  dsimp only
  have hstop : ∀ found, Spends (nodes+1) box (.ok (found,{box with used := box.used+1})) :=
    fun found => ⟨found,_,rfl,rfl,by simp only; omega⟩
  split
  · exact hstop _
  · split
    · exact hstop _
    · split
      · exact hstop _
      · obtain ⟨found,box',hr,hlimit,hused⟩ := hl {box with used := box.used+1} (by push_cast; omega)
        exact ⟨found,box',hr,hlimit,by simp only at hused; omega⟩

theorem branches_spends (rest : List ι) {chosen : ℕ} {best : Option ℕ} {box : Box}
    (hb : (box.used : ℤ)+(2^rest.length-1 : ℕ) ≤ box.limit) :
    Spends (2^rest.length-1) box (branches hits rest unhit chosen best box) := by
  induction rest generalizing unhit chosen best box with
  | nil => exact ⟨best,box,rfl,rfl,by omega⟩
  | cons c rest ih =>
    -- the picks after `c` are searched once below it and once beside it
    have hpow : 2^(c::rest).length-1 = (2^rest.length-1+1)+(2^rest.length-1) := by
      have := @Nat.one_le_two_pow rest.length
      rw [List.length_cons,pow_succ]
      omega
    rw [hpow] at hb ⊢
    rw [branches]
    split
    · exact (ih (by push_cast at hb ⊢; omega)).mono (by omega)
    · have hvisit : Spends (2^rest.length-1+1) box (visit hits rest (unhit \ (unhit ∩ hits c))
          (chosen+1) best box (branches hits rest (unhit \ (unhit ∩ hits c)) (chosen+1) best)) :=
        visit_spends (by push_cast at hb ⊢; omega) fun b hb => ih hb
      obtain ⟨found,below,hr,hlimit,hused⟩ := hvisit
      rw [hr]
      have hbeside : Spends (2^rest.length-1) below (branches hits rest unhit chosen found below) :=
        ih (by rw [hlimit]; push_cast at hb hused ⊢; omega)
      obtain ⟨found',box',hr',hlimit',hused'⟩ := hbeside
      exact ⟨found',box',hr',hlimit'.trans hlimit,by omega⟩

/-- A box with room for `2^n` nodes is enough for `n` picks. -/
theorem bb_spends (rest : List ι) {chosen : ℕ} {best : Option ℕ} {box : Box}
    (hb : (box.used : ℤ)+(2^rest.length : ℕ) ≤ box.limit) :
    Spends (2^rest.length) box (bb hits rest unhit chosen best box) := by
  have hpow : 2^rest.length-1+1 = 2^rest.length := Nat.sub_add_cancel Nat.one_le_two_pow
  rw [← hpow] at hb ⊢
  exact visit_spends (by push_cast at hb ⊢; omega) fun b hb => branches_spends rest hb

end Hitting
