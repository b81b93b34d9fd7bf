import Spectra.GuardForms

/-! The normal form of a data guard keeps its type and its meaning. -/
namespace Spectra

namespace Node

open Junctions

/-! ### Types -/

theorem checkBools_ok {loc connective : String} {cs : List Node} :
    checkBools loc connective cs = .ok () ↔ ∀ c ∈ cs, c.typeOf loc = .ok .bool := by
  induction cs with
  | nil => simp [checkBools]
  | cons c cs ih =>
    simp only [checkBools,List.mem_cons,forall_eq_or_imp,← ih]
    cases c.typeOf loc with
    | error e => simp [bind,Except.bind]
    | ok t => cases t <;> simp [bind,Except.bind]

theorem typeOf_junction {loc : String} {conj : Bool} {cs : List Node} {t : GuardType} :
    (junction conj cs).typeOf loc = .ok t ↔ t = .bool ∧ ∀ c ∈ cs, c.typeOf loc = .ok .bool := by
  have key : ∀ connective, (do checkBools loc connective cs; pure .bool : Fallible GuardType) = .ok t ↔
      t = .bool ∧ ∀ c ∈ cs, c.typeOf loc = .ok .bool := by
    intro connective
    rw [← @checkBools_ok loc connective]
    cases checkBools loc connective cs with
    | error e => simp [bind,Except.bind]
    | ok u => simp [bind,Except.bind,pure,Except.pure,eq_comm]
  cases conj with
  | false => exact key "or"
  | true => exact key "and"

theorem typeOf_not {loc : String} {c : Node} {t : GuardType} :
    (Node.not c).typeOf loc = .ok t ↔ t = .bool ∧ c.typeOf loc = .ok .bool := by
  change (do
    let inner ← c.typeOf loc
    if inner = .bool then pure .bool else .error (typeError loc "`not` applied to a non-Bool")
      : Fallible GuardType) = .ok t ↔ _
  cases c.typeOf loc with
  | error e => simp [bind,Except.bind]
  | ok u => cases u <;> simp [bind,Except.bind,pure,Except.pure,eq_comm]

theorem typeOf_abs {loc : String} {c : Node} {t : GuardType} :
    (Node.abs c).typeOf loc = .ok t ↔ c.typeOf loc = .ok t ∧ t.numeric = true := by
  change (do
    let inner ← c.typeOf loc
    if inner.numeric then pure inner else .error (typeError loc ("abs of "++inner.text))
      : Fallible GuardType) = .ok t ↔ _
  cases c.typeOf loc with
  | error e => simp [bind,Except.bind]
  | ok u =>
    cases hu : u.numeric with
    | false => simp [bind,Except.bind,hu]; rintro rfl; exact hu
    | true => simp [bind,Except.bind,pure,Except.pure,hu]; rintro rfl; exact hu

/-- The type of a comparison or an operation goes by the types of its two sides. -/
theorem typed_pair {loc : String} {l r : Node} {t : GuardType} {f : GuardType → GuardType → Fallible GuardType} :
    (do let left ← l.typeOf loc; let right ← r.typeOf loc; f left right : Fallible GuardType) = .ok t ↔
      ∃ tl tr, l.typeOf loc = .ok tl ∧ r.typeOf loc = .ok tr ∧ f tl tr = .ok t := by
  cases l.typeOf loc with
  | error e => simp [bind,Except.bind]
  | ok u =>
    cases r.typeOf loc with
    | error e => simp [bind,Except.bind]
    | ok v => simp [bind,Except.bind]

theorem typeOf_number {loc : String} {n : Node} {p : Bool × ℤ} (h : n.number = some p) :
    n.typeOf loc = .ok (if p.1 then .dur else .int) := by
  cases n <;> simp_all [number] <;> subst h <;> rfl

theorem typeOf_numberNode {loc : String} {dur : Bool} {v : ℤ} :
    (numberNode dur v).typeOf loc = .ok (if dur then .dur else .int) := by
  cases dur <;> rfl

theorem typeOf_foldArith {loc : String} {build : Node → Node → Node} {op : ℤ → ℤ → ℤ}
    {f : GuardType → GuardType → Fallible GuardType} {l r : Node} {tl tr t : GuardType}
    (hbuild : (build l r).typeOf loc = do
      let left ← l.typeOf loc; let right ← r.typeOf loc; f left right)
    (hf : ∀ d e : Bool, f (if d then .dur else .int) (if e then .dur else .int) = .ok t →
      t = if d || e then .dur else .int)
    (hl : l.typeOf loc = .ok tl) (hr : r.typeOf loc = .ok tr) (ht : f tl tr = .ok t) :
    (foldArith build op l r).typeOf loc = .ok t := by
  have hb : (build l r).typeOf loc = .ok t := by
    rw [hbuild]; exact (typed_pair).mpr ⟨tl,tr,hl,hr,ht⟩
  unfold foldArith
  cases hln : l.number with
  | none => exact hb
  | some p =>
    cases hrn : r.number with
    | none => exact hb
    | some q =>
      have hp := Except.ok.inj (hl.symm.trans (typeOf_number hln))
      have hq := Except.ok.inj (hr.symm.trans (typeOf_number hrn))
      subst hp hq
      rw [typeOf_numberNode,hf p.1 q.1 ht]

theorem typeOf_foldAbs {loc : String} {c : Node} {t : GuardType}
    (h : (Node.abs c).typeOf loc = .ok t) : (foldAbs c).typeOf loc = .ok t := by
  unfold foldAbs
  cases hn : c.number with
  | none => exact h
  | some p =>
    rw [typeOf_numberNode,← typeOf_number hn]
    exact ((typeOf_abs).mp h).1

theorem typeOf_signed {loc : String} {a : Node} {t : GuardType} (h : a.typeOf loc = .ok t) {neg : Bool}
    (hneg : neg = true → t = .bool) : (signed neg a).typeOf loc = .ok t := by
  cases neg with
  | false => exact h
  | true => exact (typeOf_not).mpr ⟨hneg rfl,hneg rfl ▸ h⟩

theorem typeOf_join {loc : String} {conj : Bool} [LinearOrder Node] {l : List Node}
    (h : ∀ c ∈ l, c.typeOf loc = .ok .bool) : ((connective conj).join l).typeOf loc = .ok .bool := by
  refine Connective.forall_join (p := fun n : Node => n.typeOf loc = Except.ok GuardType.bool) rfl rfl (fun cs => ?_) h
  rw [connective_node,typeOf_junction]
  exact and_iff_right rfl

/-- The normal form has the type of the guard. -/
theorem typeOf_normal [LinearOrder Node] {loc : String} {n : Node} {t : GuardType}
    (h : n.typeOf loc = .ok t) (neg : Bool) (hneg : neg = true → t = .bool) :
    (normal neg n).typeOf loc = .ok t := by
  induction n using ofChildren generalizing t neg with
  | step n ih =>
    have hjoin : ∀ conj cs, n = junction conj cs → (normal neg n).typeOf loc = .ok t := by
      rintro conj cs rfl
      obtain ⟨rfl,hcs⟩ := (typeOf_junction).mp h
      rw [normal_junction]
      refine typeOf_join fun d hd => ?_
      obtain ⟨c,hc,rfl⟩ := List.mem_map.mp hd
      exact ih c (by simpa using hc) (hcs c hc) neg fun _ => rfl
    cases n with
    | constBool v => exact h
    | not c =>
      obtain ⟨rfl,hc⟩ := (typeOf_not).mp h
      exact ih c (by simp [children]) hc _ fun _ => rfl
    | and cs => exact hjoin true cs rfl
    | or cs => exact hjoin false cs rfl
    | constInt v | constDur v | constSym s | field s => exact typeOf_signed h hneg
    | eq l r | lt l r =>
      obtain ⟨tl,tr,hl,hr,ht⟩ := (typed_pair).mp h
      have hl' := ih l (by simp [children]) hl false (by simp)
      have hr' := ih r (by simp [children]) hr false (by simp)
      refine typeOf_signed ?_ hneg
      exact (typed_pair).mpr ⟨tl,tr,hl',hr',ht⟩
    | add l r | sub l r | min l r | max l r =>
      obtain ⟨tl,tr,hl,hr,ht⟩ := (typed_pair).mp h
      have hl' := ih l (by simp [children]) hl false (by simp)
      have hr' := ih r (by simp [children]) hr false (by simp)
      refine typeOf_signed (typeOf_foldArith rfl (fun d e hd => ?_) hl' hr' ht) hneg
      cases d <;> cases e <;> first | exact (Except.ok.inj hd).symm | cases hd
    | abs c =>
      obtain ⟨hc,hnum⟩ := (typeOf_abs).mp h
      have hc' := ih c (by simp [children]) hc false (by simp)
      exact typeOf_signed (typeOf_foldAbs ((typeOf_abs).mpr ⟨hc',hnum⟩)) hneg

/-! ### Values -/

variable {env : Env}

attribute [local simp] eval

theorem evalAll_eq (cs : List Node) : evalAll env cs = cs.all fun c => (c.eval env).truthy := by
  induction cs with
  | nil => rfl
  | cons c cs ih => rw [evalAll,ih,List.all_cons]

theorem evalAny_eq (cs : List Node) : evalAny env cs = cs.any fun c => (c.eval env).truthy := by
  induction cs with
  | nil => rfl
  | cons c cs ih => rw [evalAny,ih,List.any_cons]

/-- The nodes that stand for a number, a symbol or an entity. -/
def valued : Node → Bool
  | .constBool _ => false
  | .not _ => false
  | .and _ => false
  | .or _ => false
  | .eq _ _ => false
  | .lt _ _ => false
  | _ => true

theorem valued_not_bool {loc : String} {n : Node} {t : GuardType} (hv : n.valued = true)
    (h : n.typeOf loc = .ok t) : t ≠ .bool := by
  rintro rfl
  cases n with
  | constInt v | constDur v | constSym t => cases h
  | field t =>
    have ht := Except.ok.inj h
    rw [fieldType] at ht
    split at ht <;> cases ht
  | add l r | sub l r | min l r | max l r =>
    obtain ⟨tl,tr,_,_,h⟩ := (typed_pair).mp h
    cases tl <;> cases tr <;> cases h
  | abs c =>
    exact absurd ((typeOf_abs).mp h).2 (by decide)
  | _ => cases hv

/-- A guard typed `Bool` evaluates to a Boolean. -/
theorem eval_bool {loc : String} {n : Node} (h : n.typeOf loc = .ok .bool) :
    n.eval env = .bool (n.eval env).truthy := by
  cases hv : n.valued with
  | true => exact absurd rfl (valued_not_bool hv h)
  | false => cases n <;> first | rfl | cases hv

theorem eval_signed {a : Node} {b : Bool} (h : a.eval env = .bool b) (neg : Bool) :
    (signed neg a).eval env = .bool (neg ^^ b) := by
  cases neg with
  | false => simpa [signed] using h
  | true => simp [signed,h,Value.truthy]

theorem eval_numberNode {dur : Bool} {v : ℤ} : (numberNode dur v).eval env = .int v := by
  cases dur <;> rfl

theorem eval_number {n : Node} {p : Bool × ℤ} (h : n.number = some p) : n.eval env = .int p.2 := by
  cases n <;> simp_all [number] <;> subst h <;> rfl

theorem eval_foldArith {build : Node → Node → Node} {op : ℤ → ℤ → ℤ} {l r : Node}
    (h : (build l r).eval env = (l.eval env).arith op (r.eval env)) :
    (foldArith build op l r).eval env = (l.eval env).arith op (r.eval env) := by
  unfold foldArith
  cases hl : l.number with
  | none => exact h
  | some p =>
    cases hr : r.number with
    | none => exact h
    | some q => simp [eval_numberNode,eval_number hl,eval_number hr,Value.arith,Value.asInt]

theorem eval_foldAbs (c : Node) : (foldAbs c).eval env = (Node.abs c).eval env := by
  unfold foldAbs
  cases hc : c.number with
  | none => rfl
  | some p => simp [eval_numberNode,eval_number hc,Value.asInt]

theorem truthy_junction (conj : Bool) (cs : List Node) : ((junction conj cs).eval env).truthy =
    if conj then cs.all (fun c => (c.eval env).truthy) else cs.any fun c => (c.eval env).truthy := by
  cases conj with
  | true => simp [junction,evalAll_eq,Value.truthy]
  | false => simp [junction,evalAny_eq,Value.truthy]

/-- A join is true as the node over its operands is. -/
theorem truthy_join [LinearOrder Node] (conj : Bool) (l : List Node) :
    (((connective conj).join l).eval env).truthy = ((junction conj l).eval env).truthy := by
  rw [truthy_junction]
  cases conj with
  | true =>
    refine @Connective.holds_join _ _ (connective true) (fun c => (c.eval env).truthy) (fun m => ?_) rfl rfl l
    rw [connective_node,truthy_junction,if_pos rfl]
  | false =>
    -- false of a disjunction is false of every operand
    have h : (!(((connective false).join l).eval env).truthy) = l.all fun c => !(c.eval env).truthy := by
      refine @Connective.holds_join _ _ (connective false) (fun c => !(c.eval env).truthy) (fun m => ?_)
        rfl rfl l
      rw [connective_node,truthy_junction,if_neg Bool.false_ne_true,List.not_any_eq_all_not]
    rw [if_neg Bool.false_ne_true,← Bool.not_inj_iff,h,List.not_any_eq_all_not]

/-- The normal form evaluates to what the guard evaluates to, and under a negation to its
opposite. -/
theorem eval_normal [LinearOrder Node] {loc : String} {n : Node} {t : GuardType}
    (h : n.typeOf loc = .ok t) (ht : All TruthValue n) : (normal false n).eval env = n.eval env ∧
      (t = .bool → ∀ neg, (normal neg n).eval env = .bool (neg ^^ (n.eval env).truthy)) := by
  induction n using ofChildren generalizing t with
  | step n ih =>
    -- for a Boolean the second part is enough
    suffices hs : (t ≠ .bool → (normal false n).eval env = n.eval env) ∧
        (t = .bool → ∀ neg, ((normal neg n).eval env).truthy = (neg ^^ (n.eval env).truthy)) by
      have hb : t = .bool → ∀ neg, (normal neg n).eval env = .bool (neg ^^ (n.eval env).truthy) := by
        rintro rfl neg
        rw [eval_bool (typeOf_normal h neg fun _ => rfl),hs.2 rfl neg]
      refine ⟨?_,hb⟩
      by_cases hbool : t = .bool
      · rw [hb hbool,Bool.false_xor]
        subst hbool
        exact (eval_bool h).symm
      · exact hs.1 hbool
    have ih : ∀ c ∈ n.children, ∀ {t}, c.typeOf loc = .ok t → (normal false c).eval env = c.eval env ∧
        (t = .bool → ∀ neg, (normal neg c).eval env = .bool (neg ^^ (c.eval env).truthy)) :=
      fun c hc t hct => ih c hc hct (ht.child hc)
    have hjoin : ∀ conj cs, n = junction conj cs → t = .bool ∧
        ∀ neg, ((normal neg n).eval env).truthy = (neg ^^ (n.eval env).truthy) := by
      rintro conj cs rfl
      obtain ⟨rfl,hcs⟩ := (typeOf_junction).mp h
      refine ⟨rfl,fun neg => ?_⟩
      have hc : ∀ c ∈ cs, ((normal neg c).eval env).truthy = (neg ^^ (c.eval env).truthy) := fun c hc => by
        rw [(ih c (by simpa using hc) (hcs c hc)).2 rfl neg]; rfl
      have hall : ∀ f g : Node → Bool, (∀ c ∈ cs, f (normal neg c) = g c) →
          (cs.map (normal neg)).all f = cs.all g ∧ (cs.map (normal neg)).any f = cs.any g := by
        intro f g hfg
        have hmap : cs.map (fun c => f (normal neg c)) = cs.map g := List.map_congr_left hfg
        have hall := congrArg (List.all · id) hmap
        have hany := congrArg (List.any · id) hmap
        simp only [List.all_map,List.any_map] at hall hany ⊢
        exact ⟨hall,hany⟩
      rw [normal_junction,truthy_join,truthy_junction,truthy_junction,(hall _ _ hc).1,(hall _ _ hc).2]
      cases conj <;> cases neg <;> simp [List.not_all_eq_any_not,List.not_any_eq_all_not]
    cases n with
    | constBool v =>
      refine ⟨fun _ => rfl,fun _ neg => ?_⟩
      have hv : v = 0 ∨ v = 1 := ht.here
      rcases hv with rfl | rfl <;> cases neg <;> rfl
    | not c =>
      obtain ⟨rfl,hc⟩ := (typeOf_not).mp h
      refine ⟨fun hb => absurd rfl hb,fun _ neg => ?_⟩
      rw [normal_not,(ih c (by simp [children]) hc).2 rfl (!neg)]
      simp [Value.truthy]
    | and cs => exact ⟨fun hb => absurd (hjoin true cs rfl).1 hb,fun _ => (hjoin true cs rfl).2⟩
    | or cs => exact ⟨fun hb => absurd (hjoin false cs rfl).1 hb,fun _ => (hjoin false cs rfl).2⟩
    | constInt v | constDur v | constSym s | field s =>
      exact ⟨fun _ => rfl,fun hb => absurd hb (valued_not_bool rfl h)⟩
    | eq l r | lt l r =>
      obtain ⟨tl,tr,hl,hr,_⟩ := (typed_pair).mp h
      have hl := (ih l (by simp [children]) hl).1
      have hr := (ih r (by simp [children]) hr).1
      refine ⟨fun _ => by simp [normal,signed,hl,hr],fun _ neg => ?_⟩
      rw [normal,eval_signed rfl neg,hl,hr]
      rfl
    | add l r | sub l r | min l r | max l r =>
      obtain ⟨tl,tr,hl,hr,_⟩ := (typed_pair).mp h
      have hl := (ih l (by simp [children]) hl).1
      have hr := (ih r (by simp [children]) hr).1
      refine ⟨fun _ => ?_,fun hb => absurd hb (valued_not_bool rfl h)⟩
      rw [normal,signed,if_neg Bool.false_ne_true,eval_foldArith rfl,hl,hr,eval]
    | abs c =>
      refine ⟨fun _ => ?_,fun hb => absurd hb (valued_not_bool rfl h)⟩
      have hc := ((typeOf_abs).mp h).1
      rw [normal,signed,if_neg Bool.false_ne_true,eval_foldAbs,eval,eval,(ih c (by simp [children]) hc).1]

end Node

end Spectra
