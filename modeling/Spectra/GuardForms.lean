import Spectra.Guards
import Spectra.Junctions

/-! The normal form of a data guard, by recursion on the guard and for any order of the nodes:
negations are carried down to the atoms and the connectives are joins. -/
namespace Spectra

namespace Node

open Junctions

/-- `And` for `conj`, otherwise `Or`. -/
def connective (conj : Bool) : Connective Node where
  node := junction conj
  parts := operandsOf conj
  unit := .constBool (identityOf conj)
  zero := .constBool (if conj then 0 else 1)
  parts_node l := by cases conj <;> rfl
  node_parts n l h := by
    cases n <;> cases conj <;> simp_all [operandsOf,junction]
  parts_unit := rfl
  parts_zero := rfl
  zero_ne_unit := by cases conj <;> simp [identityOf]

@[simp] theorem connective_node (conj : Bool) : (connective conj).node = junction conj := rfl

@[simp] theorem connective_parts (conj : Bool) : (connective conj).parts = operandsOf conj := rfl

theorem connective_unit (conj : Bool) : (connective conj).unit = .constBool (identityOf conj) := rfl

theorem connective_zero (conj : Bool) :
    (connective conj).zero = .constBool (if conj then 0 else 1) := rfl

@[simp] theorem children_junction (conj : Bool) (cs : List Node) : (junction conj cs).children = cs := by
  cases conj <;> rfl

@[simp] theorem truth_junction (conj : Bool) (cs : List Node) : (junction conj cs).truth = none := by
  cases conj <;> rfl

@[simp] theorem operandsOf_junction (conj : Bool) (cs : List Node) :
    operandsOf conj (junction conj cs) = some cs := (connective conj).parts_node cs

/-- A constant truth value is the parser's 0 or 1. -/
def TruthValue : Node → Prop
  | .constBool v => v = 0 ∨ v = 1
  | _ => True

@[simp] theorem truthValue_junction (conj : Bool) (cs : List Node) : (junction conj cs).TruthValue := by
  cases conj <;> trivial

theorem truthValue_operands {conj : Bool} {cs : List Node} :
    All TruthValue (junction conj cs) ↔ ∀ c ∈ cs, All TruthValue c := by
  rw [All.iff_children,children_junction]
  exact and_iff_right (truthValue_junction conj cs)

/-- The nodes a negation does not stay in front of. -/
def logical : Node → Bool
  | .constBool _ => true
  | .not _ => true
  | .and _ => true
  | .or _ => true
  | _ => false

def signed (neg : Bool) (atom : Node) : Node := if neg then .not atom else atom

theorem logical_foldArith {build : Node → Node → Node} {op : ℤ → ℤ → ℤ} {l r : Node}
    (h : (build l r).logical = false) : (foldArith build op l r).logical = false := by
  unfold foldArith numberNode
  split
  · split <;> rfl
  · exact h

theorem logical_foldAbs (c : Node) : (foldAbs c).logical = false := by
  unfold foldAbs numberNode
  split
  · split <;> rfl
  · rfl

theorem foldArith_of {build : Node → Node → Node} {op : ℤ → ℤ → ℤ} {l r : Node}
    (h : l.number = none ∨ r.number = none) : foldArith build op l r = build l r := by
  unfold foldArith
  rcases h with h | h
  · rw [h]
  · rw [h]; cases l.number <;> rfl

theorem ne_constBool {n : Node} (h : n.truth = none) (v : ℤ) : n ≠ .constBool v := by
  rintro rfl; cases h

/-! ### Regrouping -/

/-- Guards that differ by reordering, re-nesting or repeating the operands of `and` and `or`. -/
inductive Regrouped : Node → Node → Prop where
  | refl (n : Node) : Regrouped n n
  | symm {m n : Node} (h : Regrouped m n) : Regrouped n m
  | trans {m n o : Node} (hm : Regrouped m n) (hn : Regrouped n o) : Regrouped m o
  | reorder (conj : Bool) {cs ds : List Node} (h : cs.Perm ds) :
      Regrouped (junction conj cs) (junction conj ds)
  | renest (conj : Bool) (before inner after : List Node) :
      Regrouped (junction conj (before++junction conj inner::after))
        (junction conj (before++inner++after))
  | again (conj : Bool) (c : Node) (cs : List Node) :
      Regrouped (junction conj (c::c::cs)) (junction conj (c::cs))
  | alone (conj : Bool) (c : Node) : Regrouped (junction conj [c]) c
  | operand (conj : Bool) (before after : List Node) {c d : Node} (h : Regrouped c d) :
      Regrouped (junction conj (before++c::after)) (junction conj (before++d::after))
  | not {c d : Node} (h : Regrouped c d) : Regrouped (.not c) (.not d)
  | abs {c d : Node} (h : Regrouped c d) : Regrouped (.abs c) (.abs d)
  | eq {l l' r r' : Node} (hl : Regrouped l l') (hr : Regrouped r r') : Regrouped (.eq l r) (.eq l' r')
  | lt {l l' r r' : Node} (hl : Regrouped l l') (hr : Regrouped r r') : Regrouped (.lt l r) (.lt l' r')
  | add {l l' r r' : Node} (hl : Regrouped l l') (hr : Regrouped r r') :
      Regrouped (.add l r) (.add l' r')
  | sub {l l' r r' : Node} (hl : Regrouped l l') (hr : Regrouped r r') :
      Regrouped (.sub l r) (.sub l' r')
  | min {l l' r r' : Node} (hl : Regrouped l l') (hr : Regrouped r r') :
      Regrouped (.min l r) (.min l' r')
  | max {l l' r r' : Node} (hl : Regrouped l l') (hr : Regrouped r r') :
      Regrouped (.max l r) (.max l' r')

theorem Regrouped.truthValue {m n : Node} (h : Regrouped m n) :
    All TruthValue m ↔ All TruthValue n := by
  have hunary : ∀ {m n c d : Node}, m.TruthValue → n.TruthValue → m.children = [c] →
      n.children = [d] → (All TruthValue c ↔ All TruthValue d) →
      (All TruthValue m ↔ All TruthValue n) := by
    intro m n c d hm hn hc hd h
    rw [All.iff_children,All.iff_children (n := n),hc,hd]
    simp [hm,hn,h]
  have hbinary : ∀ {m n l l' r r' : Node}, m.TruthValue → n.TruthValue → m.children = [l,r] →
      n.children = [l',r'] → (All TruthValue l ↔ All TruthValue l') →
      (All TruthValue r ↔ All TruthValue r') → (All TruthValue m ↔ All TruthValue n) := by
    intro m n l l' r r' hm hn hc hd hl hr
    rw [All.iff_children,All.iff_children (n := n),hc,hd]
    simp [hm,hn,hl,hr]
  induction h with
  | refl n => rfl
  | symm _ ih => exact ih.symm
  | trans _ _ ihm ihn => exact ihm.trans ihn
  | reorder conj h => simp only [truthValue_operands,h.mem_iff]
  | renest conj before inner after =>
    simp only [truthValue_operands,List.mem_append,List.mem_cons,or_imp,forall_and,forall_eq]
    tauto
  | again conj c cs => simp [truthValue_operands]
  | alone conj c => simp [truthValue_operands]
  | operand conj before after _ ih =>
    simp only [truthValue_operands,List.mem_append,List.mem_cons,or_imp,forall_and,forall_eq,ih]
  | not _ ih => exact hunary trivial trivial rfl rfl ih
  | abs _ ih => exact hunary trivial trivial rfl rfl ih
  | eq _ _ ihl ihr => exact hbinary trivial trivial rfl rfl ihl ihr
  | lt _ _ ihl ihr => exact hbinary trivial trivial rfl rfl ihl ihr
  | add _ _ ihl ihr => exact hbinary trivial trivial rfl rfl ihl ihr
  | sub _ _ ihl ihr => exact hbinary trivial trivial rfl rfl ihl ihr
  | min _ _ ihl ihr => exact hbinary trivial trivial rfl rfl ihl ihr
  | max _ _ ihl ihr => exact hbinary trivial trivial rfl rfl ihl ihr

/-! ### The normal form -/

section

variable [LinearOrder Node]

mutual

/-- The normal form of a guard, of its negation for `neg`. -/
def normal (neg : Bool) : Node → Node
  | .constBool v => .constBool (if neg then (if v = 0 then 1 else 0) else v)
  | .not c => normal (!neg) c
  | .and cs => (connective (!neg)).join (normals neg cs)
  | .or cs => (connective neg).join (normals neg cs)
  | .constInt v => signed neg (.constInt v)
  | .constDur v => signed neg (.constDur v)
  | .constSym t => signed neg (.constSym t)
  | .field t => signed neg (.field t)
  | .eq l r => signed neg (.eq (normal false l) (normal false r))
  | .lt l r => signed neg (.lt (normal false l) (normal false r))
  | .add l r => signed neg (foldArith .add (fun n m => saturate (n+m)) (normal false l) (normal false r))
  | .sub l r => signed neg (foldArith .sub (fun n m => saturate (n-m)) (normal false l) (normal false r))
  | .min l r =>
    signed neg (foldArith .min (fun n m => if m < n then m else n) (normal false l) (normal false r))
  | .max l r =>
    signed neg (foldArith .max (fun n m => if n < m then m else n) (normal false l) (normal false r))
  | .abs c => signed neg (foldAbs (normal false c))

def normals (neg : Bool) : List Node → List Node
  | [] => []
  | c::cs => normal neg c::normals neg cs

end

theorem normals_eq (neg : Bool) (cs : List Node) : normals neg cs = cs.map (normal neg) := by
  induction cs with
  | nil => rfl
  | cons c cs ih => rw [normals,ih,List.map_cons]

@[simp] theorem normal_not (neg : Bool) (c : Node) : normal neg (.not c) = normal (!neg) c := rfl

theorem normal_junction (neg conj : Bool) (cs : List Node) :
    normal neg (junction conj cs) = (connective (conj ^^ neg)).join (cs.map (normal neg)) := by
  cases conj <;> cases neg <;> simp [junction,normal,normals_eq]

theorem normal_unit (neg conj : Bool) :
    normal neg (connective conj).unit = (connective (conj ^^ neg)).unit := by
  cases neg <;> cases conj <;> rfl

theorem normal_zero (neg conj : Bool) :
    normal neg (connective conj).zero = (connective (conj ^^ neg)).zero := by
  cases neg <;> cases conj <;> rfl

/-! ### Atoms -/

/-- A negation stays in front of an atom. -/
theorem normal_atom {n : Node} (h : n.logical = false) (neg : Bool) :
    normal neg n = signed neg (normal false n) := by
  cases n <;> first | rfl | simp [logical] at h

theorem logical_normal {n : Node} (h : n.logical = false) : (normal false n).logical = false := by
  cases n with
  | add l r => exact logical_foldArith rfl
  | sub l r => exact logical_foldArith rfl
  | min l r => exact logical_foldArith rfl
  | max l r => exact logical_foldArith rfl
  | abs c => exact logical_foldAbs _
  | constBool v => cases h
  | not c => cases h
  | and cs => cases h
  | or cs => cases h
  | _ => rfl

/-! ### Reduced guards -/

/-- What a node of a normal form keeps to: nothing above it is left to do. -/
def Settled : Node → Prop
  | .constBool v => v = 0 ∨ v = 1
  | .not c => c.logical = false
  | .and cs => 2 ≤ cs.length ∧ cs.Pairwise (· < ·) ∧
      ∀ c ∈ cs, operandsOf true c = none ∧ c.truth = none
  | .or cs => 2 ≤ cs.length ∧ cs.Pairwise (· < ·) ∧
      ∀ c ∈ cs, operandsOf false c = none ∧ c.truth = none
  | .add l r => l.number = none ∨ r.number = none
  | .sub l r => l.number = none ∨ r.number = none
  | .min l r => l.number = none ∨ r.number = none
  | .max l r => l.number = none ∨ r.number = none
  | .abs c => c.number = none
  | _ => True

theorem settled_junction {conj : Bool} {cs : List Node} : (junction conj cs).Settled ↔
    2 ≤ cs.length ∧ cs.Pairwise (· < ·) ∧ ∀ c ∈ cs, operandsOf conj c = none ∧ c.truth = none := by
  cases conj <;> rfl

/-- A node of a normal form. -/
abbrev Reduced (n : Node) : Prop := All Settled n

theorem reduced_constBool {v : ℤ} (h : v = 0 ∨ v = 1) : Reduced (.constBool v) :=
  .intro h fun _ hc => by cases hc

theorem reduced_unit (conj : Bool) : Reduced (connective conj).unit :=
  reduced_constBool (by cases conj <;> simp [identityOf])

theorem reduced_zero (conj : Bool) : Reduced (connective conj).zero :=
  reduced_constBool (by cases conj <;> simp)

/-- A truth value is the unit or the zero of either connective. -/
theorem unit_or_zero {n : Node} {v : ℤ} (ht : n.truth = some v) (h : n.Settled) (conj : Bool) :
    n = (connective conj).unit ∨ n = (connective conj).zero := by
  cases n with
  | constBool w => rcases h with rfl | rfl <;> cases conj <;> simp [connective,identityOf]
  | _ => cases ht

theorem Reduced.operand {conj : Bool} {n a : Node} (hn : n.Reduced)
    (ha : a ∈ (connective conj).operands n) : a.Reduced ∧ operandsOf conj a = none := by
  have hm := (List.mem_filter.mp ha).1
  cases hp : operandsOf conj n with
  | none =>
    rw [connective_parts,hp,Option.getD_none,List.mem_singleton] at hm
    subst hm
    exact ⟨hn,hp⟩
  | some cs =>
    rw [connective_parts,hp,Option.getD_some] at hm
    obtain rfl : n = junction conj cs := (connective conj).node_parts n cs hp
    exact ⟨hn.child (by simpa using hm),((settled_junction.mp hn.here).2.2 a hm).1⟩

theorem Reduced.neat {n : Node} (h : n.Reduced) (conj : Bool) : (connective conj).Neat n :=
  fun _ ha => (h.operand ha).2

theorem reduced_join {conj : Bool} {l : List Node} (h : ∀ c ∈ l, Reduced c) :
    Reduced ((connective conj).join l) := by
  have hop : ∀ a ∈ l.flatMap (connective conj).operands, Reduced a ∧ operandsOf conj a = none ∧
      a ≠ (connective conj).unit := by
    intro a ha
    obtain ⟨c,hc,ha⟩ := List.mem_flatMap.mp ha
    exact ⟨((h c hc).operand ha).1,((h c hc).operand ha).2,Connective.ne_unit_of_mem_operands ha⟩
  rw [Connective.join]
  rcases Connective.build_cases (k := connective conj) (l.flatMap (connective conj).operands) with
    ⟨_,he⟩ | ⟨_,_,he⟩ | ⟨_,b,hb,he⟩ | ⟨hz,s,hlen,hs,hm,he⟩
  · rw [he]; exact reduced_zero conj
  · rw [he]; exact reduced_unit conj
  · rw [he]; exact (hop b ((hb b).mpr rfl)).1
  · rw [he]
    refine .intro (settled_junction.mpr ⟨hlen,hs,fun c hc => ?_⟩) fun c hc => ?_
    · obtain ⟨hr,hp,hu⟩ := hop c ((hm c).mp hc)
      refine ⟨hp,?_⟩
      cases ht : c.truth with
      | none => rfl
      | some v =>
        -- the unit is dropped and the zero absorbs
        rcases unit_or_zero ht hr.here conj with rfl | rfl
        · exact absurd rfl hu
        · exact absurd ((hm _).mp hc) hz
    · exact (hop c ((hm c).mp (by simpa using hc))).1

theorem reduced_signed {a : Node} (ha : a.Reduced) (hl : a.logical = false) (neg : Bool) :
    Reduced (signed neg a) := by
  cases neg with
  | false => exact ha
  | true =>
    refine .intro hl fun c hc => ?_
    rw [List.mem_singleton.mp (show c ∈ [a] from hc)]
    exact ha

theorem reduced_numberNode (dur : Bool) (v : ℤ) : Reduced (numberNode dur v) := by
  unfold numberNode
  split <;> exact .intro trivial fun _ hc => by cases hc

theorem reduced_leaf {n : Node} (hs : n.Settled) (hc : n.children = []) : n.Reduced :=
  .intro hs fun c hcm => by rw [hc] at hcm; cases hcm

theorem reduced_pair {n l r : Node} (hs : n.Settled) (hc : n.children = [l,r]) (hl : l.Reduced)
    (hr : r.Reduced) : n.Reduced := by
  refine .intro hs fun c hcm => ?_
  rw [hc] at hcm
  rcases List.mem_pair.mp hcm with rfl | rfl
  · exact hl
  · exact hr

theorem reduced_foldArith {build : Node → Node → Node} {op : ℤ → ℤ → ℤ} {l r : Node}
    (hs : l.number = none ∨ r.number = none → (build l r).Settled)
    (hc : (build l r).children = [l,r]) (hl : l.Reduced) (hr : r.Reduced) :
    Reduced (foldArith build op l r) := by
  unfold foldArith
  cases hln : l.number with
  | none => exact reduced_pair (hs (Or.inl hln)) hc hl hr
  | some d =>
    cases hrn : r.number with
    | none => exact reduced_pair (hs (Or.inr hrn)) hc hl hr
    | some e => exact reduced_numberNode _ _

theorem reduced_foldAbs {c : Node} (h : c.Reduced) : Reduced (foldAbs c) := by
  unfold foldAbs
  cases hn : c.number with
  | none =>
    refine .intro hn fun d hd => ?_
    rw [List.mem_singleton.mp (show d ∈ [c] from hd)]
    exact h
  | some p => exact reduced_numberNode _ _

/-- Nothing is left to do on a normal form. -/
theorem reduced_normal {n : Node} (h : All TruthValue n) (neg : Bool) : Reduced (normal neg n) := by
  induction n using ofChildren generalizing neg with
  | step n ih =>
    have ih : ∀ c ∈ n.children, ∀ neg, Reduced (normal neg c) := fun c hc neg => ih c hc (h.child hc) neg
    cases n with
    | constBool v =>
      refine reduced_constBool ?_
      have hv : v = 0 ∨ v = 1 := h.here
      cases neg with
      | false => exact hv
      | true => rcases hv with rfl | rfl <;> simp
    | not c => exact ih c (by simp [children]) _
    | and cs =>
      rw [normal,normals_eq]
      exact reduced_join fun d hd => by
        obtain ⟨c,hc,rfl⟩ := List.mem_map.mp hd
        exact ih c hc neg
    | or cs =>
      rw [normal,normals_eq]
      exact reduced_join fun d hd => by
        obtain ⟨c,hc,rfl⟩ := List.mem_map.mp hd
        exact ih c hc neg
    | constInt v => exact reduced_signed (reduced_leaf (n := .constInt v) trivial rfl) rfl neg
    | constDur v => exact reduced_signed (reduced_leaf (n := .constDur v) trivial rfl) rfl neg
    | constSym t => exact reduced_signed (reduced_leaf (n := .constSym t) trivial rfl) rfl neg
    | field t => exact reduced_signed (reduced_leaf (n := .field t) trivial rfl) rfl neg
    | eq l r =>
      have hl := ih l (by simp [children]) false
      have hr := ih r (by simp [children]) false
      exact reduced_signed (reduced_pair (n := .eq (normal false l) (normal false r)) trivial rfl hl hr)
        rfl neg
    | lt l r =>
      have hl := ih l (by simp [children]) false
      have hr := ih r (by simp [children]) false
      exact reduced_signed (reduced_pair (n := .lt (normal false l) (normal false r)) trivial rfl hl hr)
        rfl neg
    | add l r | sub l r | min l r | max l r =>
      have hl := ih l (by simp [children]) false
      have hr := ih r (by simp [children]) false
      exact reduced_signed (reduced_foldArith id rfl hl hr) (logical_foldArith rfl) neg
    | abs c =>
      exact reduced_signed (reduced_foldAbs (ih c (by simp [children]) false)) (logical_foldAbs _) neg

/-! ### Normal forms of normal forms -/

theorem Reduced.not_constBool {conj : Bool} {cs : List Node} (h : (junction conj cs).Settled) (v : ℤ) :
    .constBool v ∉ cs := by
  intro hm
  exact ne_constBool ((settled_junction.mp h).2.2 _ hm).2 v rfl

theorem Reduced.join_self {n : Node} (h : n.Reduced) (conj : Bool) : (connective conj).join [n] = n := by
  cases hp : operandsOf conj n with
  | none => exact Connective.join_leaf hp
  | some cs =>
    obtain rfl : n = junction conj cs := (connective conj).node_parts n cs hp
    obtain ⟨hlen,hs,_⟩ := settled_junction.mp h.here
    exact Connective.join_node hlen hs (Reduced.not_constBool h.here _) (Reduced.not_constBool h.here _)

theorem Reduced.truthValue {n : Node} (h : n.Reduced) : All TruthValue n := by
  induction n using ofChildren with
  | step n ih =>
    refine .intro ?_ fun c hc => ih c hc (h.child hc)
    cases n with
    | constBool v => exact h.here
    | _ => trivial

/-- A reduced guard is its own normal form. -/
theorem Reduced.normal_eq {n : Node} (h : n.Reduced) : normal false n = n := by
  induction n using ofChildren with
  | step n ih =>
    have ih : ∀ c ∈ n.children, normal false c = c := fun c hc => ih c hc (h.child hc)
    have hjoin : ∀ conj cs, n = junction conj cs → normal false n = n := by
      rintro conj cs rfl
      obtain ⟨hlen,hs,hleaf⟩ := settled_junction.mp h.here
      have hmap : cs.map (normal false) = cs :=
        (List.map_congr_left fun c hc => ih c (by simpa using hc)).trans (List.map_id _)
      rw [normal_junction,hmap,Bool.xor_false]
      exact Connective.join_leaves hlen hs (fun a ha => (hleaf a ha).1)
        (Reduced.not_constBool h.here _) (Reduced.not_constBool h.here _)
    cases n with
    | constBool v => rfl
    | not c =>
      have hl : c.logical = false := h.here
      have hc := ih c (by simp [children])
      rw [normal_not,Bool.not_false,normal_atom hl,hc]
      rfl
    | and cs => exact hjoin true cs rfl
    | or cs => exact hjoin false cs rfl
    | constInt v => rfl
    | constDur v => rfl
    | constSym t => rfl
    | field t => rfl
    | eq l r | lt l r =>
      have hl := ih l (by simp [children])
      have hr := ih r (by simp [children])
      simp only [normal,signed,hl,hr,Bool.false_eq_true,↓reduceIte]
    | add l r | sub l r | min l r | max l r =>
      have hl := ih l (by simp [children])
      have hr := ih r (by simp [children])
      simp only [normal,signed,hl,hr,Bool.false_eq_true,↓reduceIte]
      exact foldArith_of h.here
    | abs c =>
      have hc := ih c (by simp [children])
      have hn : c.number = none := h.here
      simp only [normal,signed,hc,Bool.false_eq_true,↓reduceIte,foldAbs,hn]

/-- The normal form of a join, negated or not, is the join of the normal forms. -/
theorem normal_join {conj : Bool} {l : List Node} (hl : ∀ c ∈ l, Reduced c) (neg : Bool) :
    normal neg ((connective conj).join l) = (connective (conj ^^ neg)).join (l.map (normal neg)) := by
  have hred : ∀ c, Reduced c → Reduced (normal neg c) := fun c hc => reduced_normal hc.truthValue neg
  -- an operand's normal form is the join of those of its own operands
  have hparts : ∀ c, Reduced c → normal neg c =
      (connective (conj ^^ neg)).join (((connective conj).operands c).map (normal neg)) := by
    intro c hc
    cases hp : operandsOf conj c with
    | none =>
      by_cases hu : c = (connective conj).unit
      · rw [hu,Connective.operands_unit,normal_unit,List.map_nil,Connective.join_nil]
      · rw [Connective.operands_of_leaf hp hu]
        exact ((hred c hc).join_self _).symm
    | some cs =>
      obtain rfl : c = junction conj cs := (connective conj).node_parts c cs hp
      have hf : cs.filter (· ≠ (connective conj).unit) = cs :=
        List.filter_eq_self.mpr fun a ha =>
          decide_eq_true (ne_of_mem_of_not_mem ha (Reduced.not_constBool hc.here _))
      rw [normal_junction,← connective_node,Connective.operands_node,hf]
  have hop : ∀ a ∈ l.flatMap (connective conj).operands, Reduced a := by
    intro a ha
    obtain ⟨c,hc,ha⟩ := List.mem_flatMap.mp ha
    exact ((hl c hc).operand ha).1
  have hright : (connective (conj ^^ neg)).join (l.map (normal neg)) =
      (connective (conj ^^ neg)).join ((l.flatMap (connective conj).operands).map (normal neg)) := by
    have hgroup : l.map (normal neg) =
        (l.map fun c => ((connective conj).operands c).map (normal neg)).map
          (connective (conj ^^ neg)).join := by
      rw [List.map_map]
      exact List.map_congr_left fun c hc => hparts c (hl c hc)
    rw [hgroup,Connective.join_join]
    · rw [List.map_flatMap,List.flatMap_def]
    · intro m hm b hb
      obtain ⟨c,hc,rfl⟩ := List.mem_map.mp hm
      obtain ⟨a,ha,rfl⟩ := List.mem_map.mp hb
      exact (hred a ((hl c hc).operand ha).1).neat _
  rw [hright,Connective.join]
  generalize l.flatMap (connective conj).operands = ops at hop ⊢
  rcases Connective.build_cases (k := connective conj) ops with
    ⟨hz,he⟩ | ⟨_,rfl,he⟩ | ⟨_,b,hb,he⟩ | ⟨_,s,_,_,hm,he⟩
  · rw [he,normal_zero,Connective.join_of_zero]
    exact normal_zero neg conj ▸ List.mem_map_of_mem hz
  · rw [he,normal_unit,List.map_nil,Connective.join_nil]
  · have hmem : ∀ a, a ∈ ops.map (normal neg) ↔ a ∈ [normal neg b] := by
      simp [hb,eq_comm]
    rw [he,Connective.join_congr hmem,(hred b (hop b ((hb b).mpr rfl))).join_self]
  · have hmem : ∀ a, a ∈ s.map (normal neg) ↔ a ∈ ops.map (normal neg) := by simp [hm]
    rw [he,connective_node,normal_junction,Connective.join_congr hmem]

/-- Normalising twice is normalising once, and two negations cancel. -/
theorem normal_normal {n : Node} (h : All TruthValue n) (p q : Bool) :
    normal p (normal q n) = normal (p ^^ q) n := by
  induction n using ofChildren generalizing p q with
  | step n ih =>
    have ih : ∀ c ∈ n.children, ∀ p q, normal p (normal q c) = normal (p ^^ q) c :=
      fun c hc p q => ih c hc (h.child hc) p q
    have hjoin : ∀ conj cs, n = junction conj cs → normal p (normal q n) = normal (p ^^ q) n := by
      rintro conj cs rfl
      have hred : ∀ c ∈ cs.map (normal q), Reduced c := by
        intro c hc
        obtain ⟨d,hd,rfl⟩ := List.mem_map.mp hc
        exact reduced_normal (h.child (by simpa using hd)) q
      have hmap : (cs.map (normal q)).map (normal p) = cs.map (normal (p ^^ q)) := by
        rw [List.map_map]
        exact List.map_congr_left fun c hc => ih c (by simpa using hc) p q
      rw [normal_junction,normal_join hred,hmap,normal_junction,Bool.xor_assoc,Bool.xor_comm q p]
    have hatom : n.logical = false → normal p (normal q n) = normal (p ^^ q) n := by
      intro hl
      have hl' := logical_normal hl
      have hself := (reduced_normal h false).normal_eq
      rw [normal_atom hl q,normal_atom hl (p ^^ q)]
      cases q with
      | false => rw [signed,if_neg Bool.false_ne_true,normal_atom hl' p,hself,Bool.xor_false]
      | true => rw [signed,if_pos rfl,normal_not,normal_atom hl' (!p),hself,Bool.xor_true]
    cases n with
    | constBool v =>
      have hv : v = 0 ∨ v = 1 := h.here
      rcases hv with rfl | rfl <;> cases p <;> cases q <;> rfl
    | not c =>
      rw [normal_not,normal_not,ih c (by simp [children]),Bool.xor_not]
    | and cs => exact hjoin true cs rfl
    | or cs => exact hjoin false cs rfl
    | _ => exact hatom rfl

/-- Guards that differ only by their grouping have one normal form. -/
theorem Regrouped.normal_eq {m n : Node} (h : Regrouped m n) (hm : All TruthValue m) (neg : Bool) :
    normal neg m = normal neg n := by
  induction h generalizing neg with
  | refl n => rfl
  | symm h ih => exact (ih (h.truthValue.mpr hm) neg).symm
  | trans hmn _ ihm ihn => exact (ihm hm neg).trans (ihn (hmn.truthValue.mp hm) neg)
  | reorder conj h =>
    rw [normal_junction,normal_junction]
    exact Connective.join_congr fun a => (h.map _).mem_iff
  | renest conj before inner after =>
    have hinner := truthValue_operands.mp (truthValue_operands.mp hm (junction conj inner) (by simp))
    rw [normal_junction,normal_junction,List.map_append,List.map_cons,normal_junction,
      Connective.join_nested,List.map_append,List.map_append]
    intro a ha
    obtain ⟨c,hc,rfl⟩ := List.mem_map.mp ha
    exact (reduced_normal (hinner c hc) neg).neat _
  | again conj c cs =>
    rw [normal_junction,normal_junction]
    exact Connective.join_congr fun a => by simp
  | alone conj c =>
    have hc : All TruthValue c := truthValue_operands.mp hm c (by simp)
    rw [normal_junction,List.map_singleton]
    exact (reduced_normal hc neg).join_self _
  | operand conj before after _ ih =>
    have hc := ih (truthValue_operands.mp hm _ (by simp)) neg
    rw [normal_junction,normal_junction,List.map_append,List.map_append,List.map_cons,List.map_cons,hc]
  | not _ ih => exact ih (hm.child (by simp [children])) _
  | abs _ ih =>
    rw [normal,normal,ih (hm.child (by simp [children]))]
  | eq _ _ ihl ihr | lt _ _ ihl ihr | add _ _ ihl ihr | sub _ _ ihl ihr | min _ _ ihl ihr
  | max _ _ ihl ihr =>
    rw [normal,normal,ihl (hm.child (by simp [children])),ihr (hm.child (by simp [children]))]

end

end Node

end Spectra
