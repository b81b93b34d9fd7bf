import Mathlib.Tactic
import Mathlib.Data.Int.ConditionallyCompleteOrder

/-! Difference constraints over arbitrary nodes: relaxation from zero, round by round, settles them
exactly when some assignment satisfies them. -/
namespace Difference

/-- `t v - t u ≤ weight`. -/
structure Bound (ν : Type*) where
  u : ν
  v : ν
  weight : ℤ
  deriving DecidableEq, Repr

variable {ν : Type*}

def Holds (t : ν → ℤ) (b : Bound ν) : Prop := t b.v-t b.u ≤ b.weight

def Satisfies (t : ν → ℤ) (bounds : List (Bound ν)) : Prop := ∀ b ∈ bounds, Holds t b

instance (t : ν → ℤ) (b : Bound ν) : Decidable (Holds t b) := inferInstanceAs (Decidable (_ ≤ _))

instance (t : ν → ℤ) (bounds : List (Bound ν)) : Decidable (Satisfies t bounds) :=
  inferInstanceAs (Decidable (∀ _ ∈ bounds, _))

section

variable [DecidableEq ν]

/-- One relaxation in place, and whether anything has changed so far. -/
def relax (r : (ν → ℤ) × Bool) (b : Bound ν) : (ν → ℤ) × Bool :=
  if r.1 b.u+b.weight < r.1 b.v then (Function.update r.1 b.v (r.1 b.u+b.weight),true) else r

def round (bounds : List (Bound ν)) (d : ν → ℤ) : (ν → ℤ) × Bool := bounds.foldl relax (d,false)

/-- Rounds until one changes nothing; after the last one no bound may be left to relax. -/
def settles (bounds : List (Bound ν)) : ℕ → (ν → ℤ) → Bool
  | 0, d => !bounds.any fun b => d b.u+b.weight < d b.v
  | n+1, d =>
    let r := round bounds d
    if r.2 then settles bounds n r.1 else true

theorem settles_zero {bounds : List (Bound ν)} {d : ν → ℤ} :
    settles bounds 0 d = !bounds.any fun b => d b.u+b.weight < d b.v := rfl

theorem settles_succ {bounds : List (Bound ν)} {n : ℕ} {d : ν → ℤ} : settles bounds (n+1) d =
    if (round bounds d).2 then settles bounds n (round bounds d).1 else true := rfl

end

variable {bounds : List (Bound ν)} {t d : ν → ℤ}

theorem not_holds {b : Bound ν} : ¬Holds d b ↔ d b.u+b.weight < d b.v := by
  unfold Holds
  omega

theorem satisfies_iff : Satisfies d bounds ↔ (bounds.any fun b => d b.u+b.weight < d b.v) = false := by
  simp only [List.any_eq_false,decide_eq_true_eq,← not_holds,not_not]
  rfl

/-! ### The greatest assignment below zero -/

theorem Satisfies.shift (h : Satisfies t bounds) (k : ℤ) : Satisfies (fun a => t a+k) bounds := by
  intro b hb
  have hb := h b hb
  unfold Holds at hb ⊢
  dsimp only
  omega

/-- The bounds are between the given nodes. -/
def Among (nodes : Finset ν) (bounds : List (Bound ν)) : Prop := ∀ b ∈ bounds, b.u ∈ nodes ∧ b.v ∈ nodes

variable {nodes : Finset ν}

/-- The values at one node of the assignments that are nowhere above zero. -/
def below (nodes : Finset ν) (bounds : List (Bound ν)) (a : ν) : Set ℤ :=
  {x | ∃ t, Satisfies t bounds ∧ (∀ b ∈ nodes, t b ≤ 0) ∧ t a = x}

/-- The greatest assignment that is nowhere above zero. -/
noncomputable def greatest (nodes : Finset ν) (bounds : List (Bound ν)) (a : ν) : ℤ :=
  sSup (below nodes bounds a)

theorem bddAbove_below {a : ν} (ha : a ∈ nodes) : BddAbove (below nodes bounds a) :=
  ⟨0,fun _ ⟨_,_,h,he⟩ => he ▸ h a ha⟩

theorem le_greatest (ht : Satisfies t bounds) (h0 : ∀ a ∈ nodes, t a ≤ 0) {a : ν} (ha : a ∈ nodes) :
    t a ≤ greatest nodes bounds a := le_csSup (bddAbove_below ha) ⟨t,ht,h0,rfl⟩

theorem below_nonempty (h : Satisfies t bounds) (a : ν) : (below nodes bounds a).Nonempty := by
  refine ⟨_,fun b => t b-∑ c ∈ nodes, |t c|,h.shift _,fun b hb => ?_,rfl⟩
  have hle : |t b| ≤ ∑ c ∈ nodes, |t c| := Finset.single_le_sum (fun c _ => abs_nonneg (t c)) hb
  exact sub_nonpos.mpr ((le_abs_self (t b)).trans hle)

/-- The greatest assignment is attained at each node. -/
theorem greatest_attained (h : Satisfies t bounds) {a : ν} (ha : a ∈ nodes) : ∃ s, Satisfies s bounds ∧
    (∀ b ∈ nodes, s b ≤ 0) ∧ s a = greatest nodes bounds a :=
  Int.csSup_mem (below_nonempty h a) (bddAbove_below ha)

theorem greatest_nonpos (h : Satisfies t bounds) {a : ν} (ha : a ∈ nodes) :
    greatest nodes bounds a ≤ 0 := by
  obtain ⟨s,-,h0,hs⟩ := greatest_attained h ha
  exact hs ▸ h0 a ha

theorem greatest_satisfies (h : Satisfies t bounds) (hn : Among nodes bounds) :
    Satisfies (greatest nodes bounds) bounds := by
  intro b hb
  obtain ⟨s,hs,h0,hv⟩ := greatest_attained h (hn b hb).2
  have hle := le_greatest hs h0 (hn b hb).1
  have := hs b hb
  unfold Holds at this ⊢
  omega

/-- Where the greatest assignment is reached only in part, a tight bound leads out of that part. -/
theorem exists_tight [DecidableEq ν] (h : Satisfies t bounds) (hn : Among nodes bounds) {s : Finset ν}
    (hs : s ⊂ nodes) (hneg : ∀ a ∈ nodes, a ∉ s → greatest nodes bounds a < 0) :
    ∃ b ∈ bounds, b.u ∈ s ∧ b.v ∉ s ∧
      greatest nodes bounds b.v = greatest nodes bounds b.u+b.weight := by
  by_contra hnone
  push Not at hnone
  -- otherwise the values outside the part could all be raised by one
  have hraised : Satisfies (fun a => if a ∈ s then greatest nodes bounds a else greatest nodes bounds a+1)
      bounds := by
    intro b hb
    have hg := greatest_satisfies h hn b hb
    have hne := hnone b hb
    unfold Holds at hg ⊢
    dsimp only
    split_ifs with hv hu hu
    · exact hg
    · omega
    · have := hne hu hv
      omega
    · omega
  obtain ⟨a,ha,has⟩ := Finset.exists_of_ssubset hs
  have hle := le_greatest hraised (fun c hc => ?_) ha
  · rw [if_neg has] at hle
    omega
  · split_ifs with hcs
    · exact greatest_nonpos h hc
    · have := hneg c hc hcs
      omega

/-! ### Relaxation -/

section

variable [DecidableEq ν]

theorem relax_le (r : (ν → ℤ) × Bool) (b : Bound ν) (a : ν) : (relax r b).1 a ≤ r.1 a := by
  unfold relax
  split_ifs with h
  · by_cases ha : a = b.v
    · subst ha
      simpa using h.le
    · simp [ha]
  · exact le_rfl

/-- After its relaxation a bound holds, unless it leads from a node to itself. -/
theorem relax_target (r : (ν → ℤ) × Bool) (b : Bound ν) :
    (relax r b).1 b.v ≤ r.1 b.u+b.weight := by
  unfold relax
  split_ifs with h
  · simp
  · omega

theorem relax_ge {r : (ν → ℤ) × Bool} {b : Bound ν} (hb : Holds t b) (hu : t b.u ≤ r.1 b.u) {a : ν}
    (h : t a ≤ r.1 a) : t a ≤ (relax r b).1 a := by
  unfold relax
  split_ifs
  · by_cases ha : a = b.v
    · subst ha
      unfold Holds at hb
      simp only [Function.update_self]
      omega
    · simpa [ha] using h
  · exact h

/-- A relaxation that changes nothing found its bound to hold. -/
theorem relax_unchanged {r : (ν → ℤ) × Bool} {b : Bound ν} (h : (relax r b).2 = false) :
    relax r b = r ∧ r.2 = false ∧ Holds r.1 b := by
  unfold relax at h ⊢
  split_ifs at h ⊢ with hlt
  exact ⟨rfl,h,by unfold Holds; omega⟩

theorem foldl_relax_le (bounds : List (Bound ν)) (r : (ν → ℤ) × Bool) (a : ν) :
    (bounds.foldl relax r).1 a ≤ r.1 a := by
  induction bounds generalizing r with
  | nil => exact le_rfl
  | cons b bounds ih => exact (ih (relax r b)).trans (relax_le r b a)

theorem foldl_relax_ge {r : (ν → ℤ) × Bool} (ht : Satisfies t bounds) (hn : Among nodes bounds)
    (h : ∀ a ∈ nodes, t a ≤ r.1 a) : ∀ a ∈ nodes, t a ≤ (bounds.foldl relax r).1 a := by
  induction bounds generalizing r with
  | nil => exact h
  | cons b bounds ih =>
    obtain ⟨⟨hu,-⟩,hn⟩ := List.forall_mem_cons.mp hn
    obtain ⟨hb,ht⟩ := List.forall_mem_cons.mp ht
    exact ih ht hn fun a ha => relax_ge hb (h _ hu) (h a ha)

/-- A round that changes nothing found every bound to hold. -/
theorem foldl_relax_unchanged {r : (ν → ℤ) × Bool} (h : (bounds.foldl relax r).2 = false) :
    bounds.foldl relax r = r ∧ r.2 = false ∧ Satisfies r.1 bounds := by
  induction bounds generalizing r with
  | nil => exact ⟨rfl,h,by simp [Satisfies]⟩
  | cons b bounds ih =>
    obtain ⟨hsame,hflag,hrest⟩ := ih h
    obtain ⟨heq,hr,hb⟩ := relax_unchanged hflag
    rw [heq] at hsame hrest
    refine ⟨by rw [List.foldl_cons,heq,hsame],hr,?_⟩
    exact List.forall_mem_cons.mpr ⟨hb,hrest⟩

/-- A round brings the target of each bound within its weight of the source as it was. -/
theorem foldl_relax_target {r : (ν → ℤ) × Bool} {b : Bound ν} (hb : b ∈ bounds) :
    (bounds.foldl relax r).1 b.v ≤ r.1 b.u+b.weight := by
  induction bounds generalizing r with
  | nil => cases hb
  | cons c bounds ih =>
    rcases List.mem_cons.mp hb with rfl | hb
    · exact (foldl_relax_le bounds _ _).trans (relax_target r b)
    · exact (ih hb).trans (by have := relax_le r c b.u; omega)

/-! ### Rounds -/

/-- The nodes at which the distance is the greatest assignment already. -/
noncomputable def settled (nodes : Finset ν) (bounds : List (Bound ν)) (d : ν → ℤ) : Finset ν :=
  nodes.filter fun a => d a = greatest nodes bounds a

/-- The distances never leave the space between the greatest assignment and zero. -/
structure Between (nodes : Finset ν) (bounds : List (Bound ν)) (d : ν → ℤ) : Prop where
  above : ∀ a ∈ nodes, greatest nodes bounds a ≤ d a
  nonpos : ∀ a ∈ nodes, d a ≤ 0

theorem Between.round (h : Satisfies t bounds) (hn : Among nodes bounds) (hd : Between nodes bounds d) :
    Between nodes bounds (Difference.round bounds d).1 where
  above := foldl_relax_ge (greatest_satisfies h hn) hn hd.above
  nonpos a ha := (foldl_relax_le bounds _ a).trans (hd.nonpos a ha)

theorem settled_round (h : Satisfies t bounds) (hn : Among nodes bounds) (hd : Between nodes bounds d) :
    settled nodes bounds d ⊆ settled nodes bounds (round bounds d).1 := by
  intro a ha
  obtain ⟨ha,hs⟩ := Finset.mem_filter.mp ha
  refine Finset.mem_filter.mpr ⟨ha,le_antisymm ?_ ((hd.round h hn).above a ha)⟩
  exact (foldl_relax_le bounds _ a).trans hs.le

/-- A round settles one more node, as long as there is one to settle. -/
theorem settled_round_ssubset (h : Satisfies t bounds) (hn : Among nodes bounds)
    (hd : Between nodes bounds d) (hs : settled nodes bounds d ≠ nodes) :
    settled nodes bounds d ⊂ settled nodes bounds (round bounds d).1 := by
  have hsub : settled nodes bounds d ⊂ nodes :=
    Finset.ssubset_iff_subset_ne.mpr ⟨Finset.filter_subset _ _,hs⟩
  have hneg : ∀ a ∈ nodes, a ∉ settled nodes bounds d → greatest nodes bounds a < 0 := by
    intro a ha has
    have hne : d a ≠ greatest nodes bounds a := fun he => has (Finset.mem_filter.mpr ⟨ha,he⟩)
    have := hd.above a ha
    have := hd.nonpos a ha
    omega
  obtain ⟨b,hb,hu,hv,htight⟩ := exists_tight h hn hsub hneg
  refine (Finset.ssubset_iff_of_subset (settled_round h hn hd)).mpr ⟨b.v,?_,hv⟩
  have hvn := (hn b hb).2
  refine Finset.mem_filter.mpr ⟨hvn,le_antisymm ?_ ((hd.round h hn).above _ hvn)⟩
  have hlow : (round bounds d).1 b.v ≤ d b.u+b.weight := foldl_relax_target hb
  rw [(Finset.mem_filter.mp hu).2] at hlow
  exact hlow.trans htight.ge

/-- As many rounds as there are nodes to settle are enough. -/
theorem settles_of_satisfies (h : Satisfies t bounds) (hn : Among nodes bounds) {n : ℕ}
    (hd : Between nodes bounds d) (hcard : nodes.card ≤ n+(settled nodes bounds d).card) :
    settles bounds n d = true := by
  induction n generalizing d with
  | zero =>
    have hall : settled nodes bounds d = nodes :=
      Finset.eq_of_subset_of_card_le (Finset.filter_subset _ _) (by omega)
    have hd' : Satisfies d bounds := by
      intro b hb
      have heq : ∀ a ∈ nodes, d a = greatest nodes bounds a := fun a ha => by
        rw [← hall] at ha
        exact (Finset.mem_filter.mp ha).2
      have := greatest_satisfies h hn b hb
      unfold Holds at this ⊢
      rwa [heq _ (hn b hb).1,heq _ (hn b hb).2]
    rw [settles_zero,satisfies_iff.mp hd',Bool.not_false]
  | succ n ih =>
    rw [settles_succ]
    split
    · refine ih (hd.round h hn) ?_
      by_cases hs : settled nodes bounds d = nodes
      · have := Finset.card_le_card (settled_round h hn hd)
        rw [hs] at this
        omega
      · have := Finset.card_lt_card (settled_round_ssubset h hn hd hs)
        omega
    · rfl

/-- What the rounds settle is an assignment. -/
theorem satisfies_of_settles {n : ℕ} (h : settles bounds n d = true) : ∃ t, Satisfies t bounds := by
  induction n generalizing d with
  | zero =>
    rw [settles_zero,Bool.not_eq_true'] at h
    exact ⟨d,satisfies_iff.mpr h⟩
  | succ n ih =>
    rw [settles_succ] at h
    split at h
    · exact ih h
    · rename_i hsame
      obtain ⟨-,-,hd⟩ := foldl_relax_unchanged (r := (d,false)) (by simpa [round] using hsame)
      exact ⟨d,hd⟩

/-- Relaxation from zero, for as many rounds as there are nodes, decides the constraints. -/
theorem settles_iff (hn : Among nodes bounds) {n : ℕ} (hcard : nodes.card ≤ n) :
    settles bounds n (fun _ => 0) = true ↔ ∃ t, Satisfies t bounds := by
  refine ⟨satisfies_of_settles,fun ⟨t,ht⟩ => settles_of_satisfies ht hn ⟨fun a ha => ?_,fun _ _ => le_rfl⟩ ?_⟩
  · exact greatest_nonpos ht ha
  · omega

end

/-! ### Fixing the values of some nodes -/

/-- A walk along the bounds, with the sum of their weights. -/
inductive Walk (bounds : List (Bound ν)) (a : ν) : ν → ℤ → Prop
  | nil : Walk bounds a a 0
  | extend {b : Bound ν} {w : ℤ} : Walk bounds a b.u w → b ∈ bounds → Walk bounds a b.v (w+b.weight)

theorem Satisfies.walk (h : Satisfies t bounds) {a c : ν} {w : ℤ} (hw : Walk bounds a c w) : t c-t a ≤ w := by
  induction hw with
  | nil => omega
  | @extend b w _ hb ih =>
    have := h b hb
    unfold Holds at this
    omega

/-- What the fixed values leave of a node, below a shifted assignment. -/
def allowed (bounds : List (Bound ν)) (s p : ν → ℤ) (pinned : Finset ν) (shift : ℤ) (a : ν) : Set ℤ :=
  {x | x = s a+shift ∨ ∃ c ∈ pinned, ∃ w, Walk bounds c a w ∧ x = p c+w}

theorem exists_shift (s p : ν → ℤ) (pinned : Finset ν) :
    ∃ low high : ℤ, low ≤ high ∧ ∀ a ∈ pinned, s a+low ≤ p a ∧ p a ≤ s a+high := by
  refine ⟨-∑ a ∈ pinned, |p a-s a|,∑ a ∈ pinned, |p a-s a|,?_,fun a ha => ?_⟩
  · have : 0 ≤ ∑ a ∈ pinned, |p a-s a| := Finset.sum_nonneg fun a _ => abs_nonneg _
    omega
  · have hle : |p a-s a| ≤ ∑ a ∈ pinned, |p a-s a| :=
      Finset.single_le_sum (f := fun a => |p a-s a|) (fun c _ => abs_nonneg _) ha
    have := abs_le.mp hle
    omega

/-- Values for some of the nodes extend to an assignment when no walk between two of them breaks them. -/
theorem exists_extension {s : ν → ℤ} (h : Satisfies s bounds) {p : ν → ℤ} {pinned : Finset ν}
    (hw : ∀ a ∈ pinned, ∀ c ∈ pinned, ∀ w, Walk bounds a c w → p c-p a ≤ w) :
    ∃ t, Satisfies t bounds ∧ ∀ a ∈ pinned, t a = p a := by
  obtain ⟨low,high,hle,hshift⟩ := exists_shift s p pinned
  have hbelow : ∀ a, BddBelow (allowed bounds s p pinned high a) := by
    refine fun a => ⟨s a+low,?_⟩
    rintro x (rfl | ⟨c,hc,w,hwalk,rfl⟩)
    · omega
    · have := h.walk hwalk
      have := (hshift c hc).1
      omega
  have hattained : ∀ a, sInf (allowed bounds s p pinned high a) ∈ allowed bounds s p pinned high a :=
    fun a => Int.csInf_mem ⟨_,.inl rfl⟩ (hbelow a)
  refine ⟨fun a => sInf (allowed bounds s p pinned high a),fun b hb => ?_,fun a ha => ?_⟩
  · -- whatever is allowed at the start of a bound is allowed, with its weight, at the end
    unfold Holds
    dsimp only
    rcases hattained b.u with hu | ⟨c,hc,w,hwalk,hu⟩
    · have hv := csInf_le (hbelow b.v) (.inl rfl)
      have := h b hb
      unfold Holds at this
      omega
    · have hv := csInf_le (hbelow b.v) (.inr ⟨c,hc,_,hwalk.extend hb,rfl⟩)
      omega
  · refine le_antisymm (csInf_le (hbelow a) (.inr ⟨a,ha,0,.nil,by omega⟩)) ?_
    dsimp only
    rcases hattained a with hx | ⟨c,hc,w,hwalk,hx⟩
    · have := (hshift a ha).2
      omega
    · have := hw c hc a ha w hwalk
      omega

end Difference
