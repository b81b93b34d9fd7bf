import Spectra.Encodes
import Spectra.GuardMeaning

/-! Runs of the canonicaliser of the data guards: what they return is the normal form for the
order of the canonical bytes, and when they return. -/
namespace Spectra

namespace Node

open Junctions

/-! ### Bytes stand for nodes -/

/-- A node is its kind, its text, its value and its children. -/
theorem ext_parts {m n : Node} (hk : m.kind = n.kind) (ht : m.text = n.text) (hv : m.value = n.value)
    (hc : m.children = n.children) : m = n := by
  cases m <;> cases n <;> simp_all [kind,text,value,children]

theorem canonicalBytes_at (n : Node) : Framing.SelfDelimitingAt canonicalBytes n := by
  induction n using ofChildren with
  | step n ih =>
    intro m p q x y hp hq hxy
    rw [canonicalBytes_eq] at hp hq
    obtain ⟨hk,p,q,hp,hq,hxy⟩ := asciiText_selfDelimiting.peel hp hq hxy
    obtain ⟨ht,p,q,hp,hq,hxy⟩ := utf8Text_selfDelimiting.peel hp hq hxy
    obtain ⟨hv,p,q,hp,hq,hxy⟩ := i64_selfDelimiting.peel hp hq hxy
    have hseq : Framing.SelfDelimitingAt (orderedSeq canonicalBytes) n.children :=
      Framing.counted_at lengthCode_selfDelimiting ih
    obtain ⟨hc,p,q,hp,hq,hxy⟩ := hseq.peel hp hq hxy
    obtain rfl := Except.ok.inj hp
    obtain rfl := Except.ok.inj hq
    exact ⟨ext_parts hk ht hv hc,hxy⟩

theorem canonicalBytes_inj {m n : Node} {b : Bytes} (hm : m.canonicalBytes = .ok b)
    (hn : n.canonicalBytes = .ok b) : m = n :=
  (canonicalBytes_at m n b b [] [] hm hn rfl).1

/-! ### The order of the children -/

/-- An order of the nodes that sorts those with canonical bytes as the code does. -/
def ByBytes [LinearOrder Node] : Prop :=
  ∀ m n p q, m.canonicalBytes = .ok p → n.canonicalBytes = .ok q → (m ≤ n ↔ childLe (m,p) (n,q))

/-- The octet strings in the order they are compared in. -/
abbrev bytesOrder : LinearOrder Bytes where
  le := (· ≤ ·)
  lt := (· < ·)
  le_refl := Std.le_refl
  le_trans _ _ _ := Std.le_trans
  le_antisymm _ _ := Std.le_antisymm
  le_total _ _ := Std.le_total
  lt_iff_le_not_ge _ _ := Std.lt_iff_le_and_not_ge
  toDecidableLE := inferInstance
  toDecidableLT := inferInstance
  toDecidableEq := inferInstance
  compare a b := compareOfLessAndEq a b
  compare_eq_compareOfLessAndEq _ _ := rfl

/-- Such an order exists: nodes without canonical bytes come after those of their kind. -/
theorem exists_byBytes : ∃ order : LinearOrder Node, @ByBytes order := by
  classical
  let rest : LinearOrder Node := IsWellOrder.linearOrder WellOrderingRel
  let bytes : LinearOrder Bytes := bytesOrder
  let place (n : Node) : Bytes ⊕ₗ Node := n.canonicalBytes.toOption.elim (Sum.inrₗ n) Sum.inlₗ
  have hplace : ∀ {n b}, n.canonicalBytes = .ok b → place n = Sum.inlₗ b := by
    intro n b h
    simp [place,h,Except.toOption]
  have hinj : Function.Injective place := by
    intro m n h
    cases hm : m.canonicalBytes with
    | error e =>
      cases hn : n.canonicalBytes with
      | error f => simpa [place,hm,hn,Except.toOption] using h
      | ok c => simp [place,hm,hn,Except.toOption] at h
    | ok b =>
      cases hn : n.canonicalBytes with
      | error f => simp [place,hm,hn,Except.toOption] at h
      | ok c =>
        obtain rfl : b = c := by simpa [place,hm,hn,Except.toOption] using h
        exact canonicalBytes_inj hm hn
  have hkey : Function.Injective fun n : Node => toLex (n.kindTag,place n) :=
    fun m n h => hinj (congrArg Prod.snd (toLex.injective h))
  refine ⟨LinearOrder.lift' _ hkey,?_⟩
  intro m n p q hp hq
  change toLex (m.kindTag,place m) ≤ toLex (n.kindTag,place n) ↔ _
  rw [Prod.Lex.toLex_le_toLex,hplace hp,hplace hq,childLe]
  simp

/-! ### A connective node -/

theorem truth_eq_some {n : Node} {v : ℤ} : n.truth = some v ↔ n = .constBool v := by
  cases n <;> simp [truth]

instance : Std.Total childLe where
  total a b := by
    unfold childLe
    rcases Nat.lt_trichotomy a.1.kindTag b.1.kindTag with h | h | h
    · exact Or.inl (Or.inl h)
    · rcases Std.le_total (a := a.2) (b := b.2) with hb | hb
      · exact Or.inl (Or.inr ⟨h,hb⟩)
      · exact Or.inr (Or.inr ⟨h.symm,hb⟩)
    · exact Or.inr (Or.inl h)

instance : IsTrans (Node × Bytes) childLe where
  trans a b c hab hbc := by
    unfold childLe at *
    rcases hab with hab | ⟨hab,hb⟩
    · rcases hbc with hbc | ⟨hbc,_⟩ <;> exact Or.inl (by omega)
    · rcases hbc with hbc | ⟨hbc,hc⟩
      · exact Or.inl (by omega)
      · exact Or.inr ⟨by omega,Std.le_trans hb hc⟩

theorem mem_of_mem_dedupe {p : Node × Bytes} {seen : List Bytes} {es : List (Node × Bytes)}
    (h : p ∈ dedupe seen es) : p ∈ es ∧ p.2 ∉ seen := by
  induction es generalizing seen with
  | nil => cases h
  | cons e es ih =>
    rw [dedupe] at h
    split at h
    · exact ⟨List.mem_cons_of_mem _ (ih h).1,(ih h).2⟩
    · rename_i he
      rcases List.mem_cons.mp h with rfl | h
      · exact ⟨by simp,he⟩
      · exact ⟨List.mem_cons_of_mem _ (ih h).1,fun hs => (ih h).2 (List.mem_cons_of_mem _ hs)⟩

theorem exists_mem_dedupe {p : Node × Bytes} {seen : List Bytes} {es : List (Node × Bytes)}
    (h : p ∈ es) (hs : p.2 ∉ seen) : ∃ q ∈ dedupe seen es, q.2 = p.2 := by
  induction es generalizing seen with
  | nil => cases h
  | cons e es ih =>
    rw [dedupe]
    split
    · rename_i he
      rcases List.mem_cons.mp h with rfl | h
      · exact absurd he hs
      · exact ih h hs
    · by_cases heq : p.2 = e.2
      · exact ⟨e,by simp,heq.symm⟩
      · rcases List.mem_cons.mp h with rfl | h
        · exact absurd rfl heq
        · obtain ⟨q,hq,hqp⟩ := @ih (e.2::seen) h (by simp [heq,hs])
          exact ⟨q,List.mem_cons_of_mem _ hq,hqp⟩

theorem dedupe_nodup (seen : List Bytes) (es : List (Node × Bytes)) :
    ((dedupe seen es).map (·.2)).Nodup := by
  induction es generalizing seen with
  | nil => simp [dedupe]
  | cons e es ih =>
    rw [dedupe]
    split
    · exact ih seen
    · rw [List.map_cons,List.nodup_cons]
      refine ⟨fun hm => ?_,ih _⟩
      obtain ⟨q,hq,hqe⟩ := List.mem_map.mp hm
      exact (mem_of_mem_dedupe hq).2 (by simp [hqe])

theorem keyedBytes_ok {c : Node} {p : Node × Bytes} :
    keyedBytes c = .ok p ↔ p.1 = c ∧ c.canonicalBytes = .ok p.2 := by
  simp only [keyedBytes,Runs.bind_ok,Runs.pure_ok]
  constructor
  · rintro ⟨b,hb,rfl⟩; exact ⟨rfl,hb⟩
  · rintro ⟨rfl,h⟩; exact ⟨p.2,h,rfl⟩

theorem kept_eq [LinearOrder Node] (conj : Bool) (cs : List Node) :
    ((cs.flatMap fun c => (operandsOf conj c).getD [c]).filter
      fun c => c.truth ≠ some (identityOf conj)) = cs.flatMap (connective conj).operands := by
  rw [List.filter_flatMap]
  congr 1
  funext c
  refine List.filter_congr fun d _ => ?_
  rw [connective_unit]
  simp only [ne_eq,truth_eq_some]

/-- The children come out strictly sorted, without repeats. -/
theorem sorted_children [LinearOrder Node] (hord : ByBytes) {ops : List Node}
    {keyed : List (Node × Bytes)} (hk : ops.mapM keyedBytes = .ok keyed) :
    (((dedupe [] keyed).insertionSort childLe).map (·.1)).Pairwise (· < ·) ∧
      ∀ a, a ∈ ((dedupe [] keyed).insertionSort childLe).map (·.1) ↔ a ∈ ops := by
  obtain ⟨hforth,hback⟩ := forall₂_mem (mapM_ok.mp hk)
  have hkeyed : ∀ p ∈ keyed, p.1 ∈ ops ∧ p.1.canonicalBytes = .ok p.2 := by
    intro p hp
    obtain ⟨a,ha,hap⟩ := hback p hp
    obtain ⟨rfl,hb⟩ := keyedBytes_ok.mp hap
    exact ⟨ha,hb⟩
  have hops : ∀ a ∈ ops, ∃ p ∈ keyed, p.1 = a := by
    intro a ha
    obtain ⟨p,hp,hap⟩ := hforth a ha
    exact ⟨p,hp,(keyedBytes_ok.mp hap).1⟩
  have hperm := List.perm_insertionSort childLe (dedupe [] keyed)
  have hbytes : ∀ p ∈ (dedupe [] keyed).insertionSort childLe, p ∈ keyed :=
    fun p hp => (mem_of_mem_dedupe (hperm.mem_iff.mp hp)).1
  constructor
  · rw [List.pairwise_map]
    have hsorted := List.pairwise_insertionSort childLe (dedupe [] keyed)
    have hnodup : ((dedupe [] keyed).insertionSort childLe).Pairwise fun p q => p.2 ≠ q.2 :=
      List.pairwise_map.mp ((hperm.map Prod.snd).nodup_iff.mpr (dedupe_nodup [] keyed))
    refine (hsorted.and hnodup).imp_of_mem fun {p q} hp hq hpq => ?_
    have hpb := (hkeyed p (hbytes p hp)).2
    have hqb := (hkeyed q (hbytes q hq)).2
    refine lt_of_le_of_ne ((hord _ _ _ _ hpb hqb).mpr hpq.1) fun he => hpq.2 ?_
    exact Except.ok.inj (hpb.symm.trans (he ▸ hqb))
  · intro a
    constructor
    · intro ha
      obtain ⟨p,hp,rfl⟩ := List.mem_map.mp ha
      exact (hkeyed p (hbytes p hp)).1
    · intro ha
      obtain ⟨p,hp,rfl⟩ := hops a ha
      obtain ⟨q,hq,hqp⟩ := @exists_mem_dedupe _ [] _ hp (by simp)
      have hqk := (mem_of_mem_dedupe hq).1
      have heq : q.1 = p.1 := canonicalBytes_inj (hqp ▸ (hkeyed q hqk).2) (hkeyed p hp).2
      exact heq ▸ List.mem_map_of_mem (hperm.mem_iff.mpr hq)

/-- What the canonicaliser makes of the operands of a connective is their join. -/
theorem combine_join [LinearOrder Node] (hord : ByBytes) {conj : Bool} {cs : List Node} {r : Node}
    (hcs : ∀ c ∈ cs, Reduced c) (h : combine conj cs = .ok r) : r = (connective conj).join cs := by
  rw [combine,kept_eq] at h
  have hop : ∀ a ∈ cs.flatMap (connective conj).operands, Reduced a ∧ a ≠ (connective conj).unit := by
    intro a ha
    obtain ⟨c,hc,ha⟩ := List.mem_flatMap.mp ha
    exact ⟨((hcs c hc).operand ha).1,Connective.ne_unit_of_mem_operands ha⟩
  rw [Connective.join]
  generalize cs.flatMap (connective conj).operands = ops at h hop ⊢
  have hzero : (ops.any fun c => c.truth.any (· ≠ identityOf conj)) = true ↔ (connective conj).zero ∈ ops := by
    rw [List.any_eq_true]
    constructor
    · rintro ⟨c,hc,ht⟩
      cases hv : c.truth with
      | none => rw [hv] at ht; cases ht
      | some v =>
        rcases unit_or_zero hv (hop c hc).1.here conj with rfl | rfl
        · exact absurd rfl (hop _ hc).2
        · exact hc
    · intro hz
      exact ⟨_,hz,by cases conj <;> rfl⟩
  split at h
  · rename_i ha
    rw [Connective.build_of_zero (hzero.mp ha),← Except.ok.inj h]
    rfl
  · rename_i ha
    obtain ⟨keyed,hk,h⟩ := Runs.bind_ok.mp h
    obtain ⟨hs,hm⟩ := sorted_children hord hk
    rw [Connective.build_sorted (fun hz => ha (hzero.mpr hz)) hs hm]
    dsimp only at h
    generalize ((dedupe [] keyed).insertionSort childLe).map (·.1) = s at h
    rcases s with _ | ⟨c,_ | ⟨_,_⟩⟩
    · exact (Except.ok.inj h).symm
    · exact (Except.ok.inj h).symm
    · exact (Except.ok.inj h).symm

/-! ### Returned guards are normal forms -/

theorem normal_deMorgan [LinearOrder Node] (conj : Bool) (cs : List Node) :
    normal false (junction (!conj) (cs.map .not)) = normal true (junction conj cs) := by
  have hmap : (cs.map Node.not).map (normal false) = cs.map (normal true) := by
    rw [List.map_map]; rfl
  rw [normal_junction,normal_junction,hmap,Bool.xor_false,Bool.xor_true]

theorem pushNot_junction (self : Node → Fallible Node) (conj : Bool) (cs : List Node) :
    pushNot self (junction conj cs) = self (junction (!conj) (cs.map .not)) := by
  cases conj <;> rfl

/-- A canonical node is a connective's or one that a negation is settled on at once. -/
theorem pushNot_cases (c : Node) : (∃ conj cs, c = junction conj cs) ∨
    ∃ r, (∀ self, pushNot self c = .ok r) ∧ ((c = .not r) ∨ (∃ v, c = .constBool v ∧
      r = .constBool (if v = 0 then 1 else 0)) ∨ c.logical = false ∧ r = .not c) := by
  cases c with
  | and cs => exact Or.inl ⟨true,cs,rfl⟩
  | or cs => exact Or.inl ⟨false,cs,rfl⟩
  | not d => exact Or.inr ⟨d,fun _ => rfl,Or.inl rfl⟩
  | constBool v => exact Or.inr ⟨_,fun _ => rfl,Or.inr (Or.inl ⟨v,rfl,rfl⟩)⟩
  | _ => exact Or.inr ⟨_,fun _ => rfl,Or.inr (Or.inr ⟨rfl,rfl⟩)⟩

theorem All.deMorgan {p : Node → Prop} (hj : ∀ conj cs, p (junction conj cs)) (hn : ∀ c, p (.not c))
    {conj : Bool} {cs : List Node} (h : All p (junction conj cs)) :
    All p (junction (!conj) (cs.map .not)) := by
  refine .intro (hj _ _) fun d hd => ?_
  obtain ⟨e,he,rfl⟩ := List.mem_map.mp ((children_junction _ _) ▸ hd)
  refine .intro (hn e) fun f hf => ?_
  rw [List.mem_singleton.mp (show f ∈ [e] from hf)]
  exact h.child (by simpa using he)

/-- A function that returns normal forms. -/
def Normalises [LinearOrder Node] (self : Node → Fallible Node) : Prop :=
  ∀ n r, All TruthValue n → self n = .ok r → r = normal false n

section

variable [LinearOrder Node] {self : Node → Fallible Node}

theorem Normalises.pushNot (hself : Normalises self) {c r : Node} (hc : Reduced c)
    (h : Node.pushNot self c = .ok r) : r = normal true c := by
  rcases pushNot_cases c with ⟨conj,cs,rfl⟩ | ⟨s,hs,hcase⟩
  · rw [pushNot_junction] at h
    rw [hself _ _ (hc.truthValue.deMorgan truthValue_junction fun _ => trivial) h,normal_deMorgan]
  · obtain rfl := Except.ok.inj ((hs self).symm.trans h)
    rcases hcase with rfl | ⟨v,rfl,rfl⟩ | ⟨hl,rfl⟩
    · exact (Reduced.normal_eq (hc.child (by simp [children]))).symm
    · rfl
    · rw [normal_atom hl,hc.normal_eq]; rfl

theorem Normalises.mapM (hself : Normalises self) {cs ds : List Node}
    (ht : ∀ c ∈ cs, All TruthValue c) (h : cs.mapM self = .ok ds) : ds = cs.map (normal false) := by
  rw [mapM_ok] at h
  induction h with
  | nil => rfl
  | cons hcd _ ih =>
    rw [List.map_cons,hself _ _ (ht _ (by simp)) hcd,ih fun c hc => ht c (by simp [hc])]

/-- One level of the canonicaliser over a function that returns normal forms. -/
theorem Normalises.body (hord : ByBytes) (hself : Normalises self) :
    Normalises (canonicaliseBody self) := by
  intro n r ht h
  have hjoin : ∀ conj cs, n = junction conj cs →
      (cs.mapM self >>= combine conj) = .ok r → r = normal false n := by
    rintro conj cs rfl h
    obtain ⟨ds,hds,h⟩ := Runs.bind_ok.mp h
    have hcs := truthValue_operands.mp ht
    rw [hself.mapM hcs hds] at h
    rw [normal_junction,Bool.xor_false]
    refine combine_join hord (fun d hd => ?_) h
    obtain ⟨c,hc,rfl⟩ := List.mem_map.mp hd
    exact reduced_normal (hcs c hc) false
  cases n with
  | constBool v | constInt v | constDur v | constSym s | field s => exact (Except.ok.inj h).symm
  | not c =>
    obtain ⟨d,hd,h⟩ := Runs.bind_ok.mp h
    have hc := ht.child (c := c) (by simp [children])
    obtain rfl := hself c d hc hd
    rw [hself.pushNot (reduced_normal hc false) h,normal_normal hc]
    rfl
  | and cs => exact hjoin true cs rfl h
  | or cs => exact hjoin false cs rfl h
  | eq l r' | lt l r' | add l r' | sub l r' | min l r' | max l r' =>
    obtain ⟨d,hd,h⟩ := Runs.bind_ok.mp h
    obtain ⟨e,he,h⟩ := Runs.bind_ok.mp h
    obtain rfl := hself _ _ (ht.child (by simp [children])) hd
    obtain rfl := hself _ _ (ht.child (by simp [children])) he
    exact (Runs.pure_ok.mp h).symm
  | abs c =>
    obtain ⟨d,hd,h⟩ := Runs.bind_ok.mp h
    obtain rfl := hself _ _ (ht.child (by simp [children])) hd
    exact (Runs.pure_ok.mp h).symm

/-- The canonicaliser returns the normal form, at whatever depth. -/
theorem normalises_within (hord : ByBytes) (fuel : ℕ) : Normalises (canonicaliseWithin fuel) := by
  induction fuel with
  | zero => intro n r _ h; cases h
  | succ fuel ih => exact ih.body hord

end

/-! ### Sizes -/

attribute [local simp] weigh

theorem weighAll_eq (k : ℕ) (cs : List Node) : weighAll k cs = (cs.map (weigh k)).sum := by
  induction cs with
  | nil => rfl
  | cons c cs ih => rw [weighAll,ih,List.map_cons,List.sum_cons]

theorem weigh_junction (k : ℕ) (conj : Bool) (cs : List Node) :
    weigh k (junction conj cs) = (cs.map (weigh k)).sum+1 := by
  cases conj <;> simp [junction,weighAll_eq]

theorem weigh_pos {k : ℕ} (hk : 1 ≤ k) (n : Node) : 1 ≤ weigh k n := by
  induction n using ofChildren with
  | step n ih =>
    cases n with
    | not c => exact Nat.mul_pos hk (ih c (by simp [children]))
    | _ => simp

theorem weigh_child (k : ℕ) {n c : Node} (hc : c ∈ n.children) : n = .not c ∨ weigh k c < weigh k n := by
  have hsum : ∀ cs : List Node, c ∈ cs → weigh k c ≤ weighAll k cs := by
    intro cs hc
    rw [weighAll_eq]
    exact List.single_le_sum (by simp) _ (List.mem_map_of_mem hc)
  cases n with
  | and cs => exact Or.inr (Nat.lt_succ_of_le (hsum cs hc))
  | or cs => exact Or.inr (Nat.lt_succ_of_le (hsum cs hc))
  | not d => exact Or.inl (by rw [List.mem_singleton.mp (show c ∈ [d] from hc)])
  | abs d =>
    rw [List.mem_singleton.mp (show c ∈ [d] from hc)]
    exact Or.inr (Nat.lt_succ_self _)
  | eq l r | lt l r | add l r | sub l r | min l r | max l r =>
    have hc : c ∈ [l,r] := hc
    refine Or.inr ?_
    rcases List.mem_pair.mp hc with rfl | rfl <;> (rw [weigh]; omega)
  | _ => cases hc

theorem size_child {n c : Node} (hc : c ∈ n.children) : c.size ≤ n.size := by
  rcases weigh_child 1 hc with rfl | h
  · rw [size,size,weigh,one_mul]
  · exact h.le

theorem weight_child {n c : Node} (hc : c ∈ n.children) : c.weight < n.weight := by
  rcases weigh_child 2 hc with rfl | h
  · have := weigh_pos (k := 2) (by omega) c
    rw [weight,weight,weigh]
    omega
  · exact h

theorem weigh_numberNode {k : ℕ} {dur : Bool} {v : ℤ} : weigh k (numberNode dur v) = 1 := by
  cases dur <;> simp [numberNode]

theorem weigh_foldArith {k w : ℕ} {build : Node → Node → Node} {op : ℤ → ℤ → ℤ} {l r : Node}
    (h : weigh k (build l r) ≤ w) (hw : 1 ≤ w) : weigh k (foldArith build op l r) ≤ w := by
  unfold foldArith
  split
  · rw [weigh_numberNode]; exact hw
  · exact h

theorem weigh_foldAbs {k : ℕ} (c : Node) : weigh k (foldAbs c) ≤ weigh k c+1 := by
  unfold foldAbs
  split
  · rw [weigh_numberNode]; omega
  · exact le_rfl

/-- A normal form weighs no more than the guard. -/
theorem weigh_normal [LinearOrder Node] {k : ℕ} (hk : 1 ≤ k) (n : Node) (neg : Bool) :
    weigh k (normal neg n) ≤ weigh k (signed neg n) := by
  induction n using ofChildren generalizing neg with
  | step n ih =>
    have hsigned : ∀ a b : Node, weigh k a ≤ weigh k b → weigh k (signed neg a) ≤ weigh k (signed neg b) := by
      intro a b h
      cases neg with
      | false => exact h
      | true => exact Nat.mul_le_mul_left k h
    have hjoin : ∀ conj cs, n = junction conj cs → weigh k (normal neg n) ≤ weigh k (signed neg n) := by
      rintro conj cs rfl
      rw [normal_junction]
      refine (Connective.size_join rfl rfl (fun l => weigh_junction k _ l) _).trans ?_
      have hsum : ((cs.map (normal neg)).map (weigh k)).sum ≤ ((cs.map (signed neg)).map (weigh k)).sum := by
        rw [List.map_map,List.map_map]
        exact List.sum_le_sum fun c hc => ih c (by simpa using hc) neg
      cases neg with
      | false =>
        rw [show cs.map (signed false) = cs from List.map_id cs] at hsum
        rw [signed,if_neg Bool.false_ne_true,weigh_junction]
        omega
      | true =>
        have hmul : ((cs.map (signed true)).map (weigh k)).sum = k*(cs.map (weigh k)).sum := by
          rw [List.map_map,← List.sum_map_mul_left]; rfl
        rw [signed,if_pos rfl,weigh,weigh_junction,Nat.mul_succ]
        omega
    cases n with
    | constBool v =>
      cases neg with
      | false => exact le_rfl
      | true => simpa [normal,signed] using hk
    | constInt v | constDur v | constSym s | field s => exact le_rfl
    | not c =>
      have hc := ih c (by simp [children]) (!neg)
      rw [normal_not]
      refine hc.trans ?_
      cases neg with
      | false => exact le_rfl
      | true => exact (Nat.le_mul_of_pos_left _ hk).trans (Nat.le_mul_of_pos_left _ hk)
    | and cs => exact hjoin true cs rfl
    | or cs => exact hjoin false cs rfl
    | eq l r | lt l r =>
      have hl : weigh k (normal false l) ≤ weigh k l := ih l (by simp [children]) false
      have hr : weigh k (normal false r) ≤ weigh k r := ih r (by simp [children]) false
      exact hsigned _ _ (by rw [weigh,weigh]; omega)
    | add l r | sub l r | min l r | max l r =>
      have hl : weigh k (normal false l) ≤ weigh k l := ih l (by simp [children]) false
      have hr : weigh k (normal false r) ≤ weigh k r := ih r (by simp [children]) false
      exact hsigned _ _ (weigh_foldArith (by rw [weigh,weigh]; omega) (by rw [weigh]; omega))
    | abs c =>
      have hc : weigh k (normal false c) ≤ weigh k c := ih c (by simp [children]) false
      exact hsigned _ _ ((weigh_foldAbs _).trans (by rw [weigh]; omega))

theorem weight_normal [LinearOrder Node] (n : Node) : (normal false n).weight ≤ n.weight :=
  weigh_normal (by omega) n false

theorem size_normal [LinearOrder Node] (n : Node) (neg : Bool) : (normal neg n).size ≤ n.size := by
  refine (weigh_normal le_rfl n neg).trans ?_
  cases neg with
  | false => exact le_rfl
  | true => exact (Nat.one_mul _).le

/-- Pushing a negation below a connective leaves less to push. -/
theorem weight_deMorgan {conj : Bool} {cs : List Node} {n : Node} (h : (junction conj cs).weight ≤ n.weight) :
    (junction (!conj) (cs.map .not)).weight < (Node.not n).weight := by
  have hmul : ((cs.map Node.not).map (weigh 2)).sum = 2*(cs.map (weigh 2)).sum := by
    rw [List.map_map,← List.sum_map_mul_left]; rfl
  rw [weight,weight,weigh_junction] at *
  rw [weigh]
  omega

/-! ### Depth -/

theorem mapM_congr {f g : Node → Fallible Node} {cs : List Node} (h : ∀ c ∈ cs, f c = g c) :
    cs.mapM f = cs.mapM g := by
  induction cs with
  | nil => rfl
  | cons c cs ih =>
    rw [List.mapM_cons,List.mapM_cons,h c (by simp),ih fun d hd => h d (by simp [hd])]

/-- One level of the canonicaliser calls itself on lighter guards only. -/
theorem body_congr [LinearOrder Node] {self self' : Node → Fallible Node} (hself : Normalises self)
    {n : Node} (ht : All TruthValue n)
    (h : ∀ m, m.weight < n.weight → All TruthValue m → self m = self' m) :
    canonicaliseBody self n = canonicaliseBody self' n := by
  have hchild : ∀ c ∈ n.children, self c = self' c := fun c hc => h c (weight_child hc) (ht.child hc)
  cases n with
  | constBool v | constInt v | constDur v | constSym s | field s => rfl
  | not c =>
    have hc := ht.child (c := c) (by simp [children])
    rw [canonicaliseBody,canonicaliseBody,← hchild c (by simp [children])]
    refine Runs.bind_congr fun d hd => ?_
    obtain rfl := hself c d hc hd
    have hr := (reduced_normal hc false).truthValue
    have hw := weight_normal c
    generalize normal false c = d at hr hw ⊢
    rcases pushNot_cases d with ⟨conj,cs,rfl⟩ | ⟨r,hpush,_⟩
    · rw [pushNot_junction,pushNot_junction]
      exact h _ (weight_deMorgan hw) (hr.deMorgan truthValue_junction fun _ => trivial)
    · rw [hpush,hpush]
  | and cs =>
    have hcs : cs.mapM self = cs.mapM self' := mapM_congr hchild
    rw [canonicaliseBody,canonicaliseBody,hcs]
  | or cs =>
    have hcs : cs.mapM self = cs.mapM self' := mapM_congr hchild
    rw [canonicaliseBody,canonicaliseBody,hcs]
  | eq l r | lt l r | add l r | sub l r | min l r | max l r =>
    rw [canonicaliseBody,canonicaliseBody,hchild l (by simp [children]),hchild r (by simp [children])]
  | abs c => rw [canonicaliseBody,canonicaliseBody,hchild c (by simp [children])]

/-- Beyond its weight, the depth a guard is given makes no difference. -/
theorem within_stable {n : Node} (ht : All TruthValue n) {fuel fuel' : ℕ} (h : n.weight ≤ fuel)
    (h' : n.weight ≤ fuel') : canonicaliseWithin fuel n = canonicaliseWithin fuel' n := by
  obtain ⟨order,hord⟩ := exists_byBytes
  induction hw : n.weight using Nat.strong_induction_on generalizing n fuel fuel' with
  | h w ih =>
    subst hw
    have hpos : 1 ≤ n.weight := weigh_pos (by omega) n
    obtain ⟨fuel,rfl⟩ : ∃ f, fuel = f+1 := ⟨fuel-1,by omega⟩
    obtain ⟨fuel',rfl⟩ : ∃ f, fuel' = f+1 := ⟨fuel'-1,by omega⟩
    refine body_congr (normalises_within hord fuel) ht fun m hm htm => ?_
    exact ih m.weight hm htm (by omega) (by omega) rfl

/-- `_canonicalise_data` is its own body over itself. -/
theorem canonicaliseData_eq {n : Node} (ht : All TruthValue n) :
    canonicaliseData n = canonicaliseBody canonicaliseData n := by
  obtain ⟨order,hord⟩ := exists_byBytes
  have hpos : 1 ≤ n.weight := weigh_pos (by omega) n
  obtain ⟨w,hw⟩ : ∃ w, n.weight = w+1 := ⟨n.weight-1,by omega⟩
  rw [canonicaliseData,hw]
  refine body_congr (normalises_within hord w) ht fun m hm htm => ?_
  exact within_stable htm (by omega) le_rfl

theorem normalises_data [LinearOrder Node] (hord : ByBytes) : Normalises canonicaliseData :=
  fun n r ht h => normalises_within hord n.weight n r ht h

end Node

end Spectra
