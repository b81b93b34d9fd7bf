import Mathlib.Data.List.Forall2

/-! Chains of seals over arbitrary records: each seal is the hash of what it seals over the seal before it,
and the first one is over a hash that says where the chain begins. The last seal tells the whole chain,
or two texts have one hash. -/
namespace HashChain

variable {α P H : Type*} {hash : P → H} {Starts : α → P → Prop} {Seals : H → α → P → Prop}

/-- The records of a chain, in their order, and the seal of the last one. -/
inductive Chained (hash : P → H) (Starts : α → P → Prop) (Seals : H → α → P → Prop) : List α → Option H → Prop
  | nil : Chained hash Starts Seals [] none
  | first {a : α} {p q : P} (hp : Starts a p) (hq : Seals (hash p) a q) :
      Chained hash Starts Seals [a] (some (hash q))
  | next {l : List α} {a : α} {h : H} {q : P} (hl : Chained hash Starts Seals l (some h)) (hq : Seals h a q) :
      Chained hash Starts Seals (l++[a]) (some (hash q))

/-- Two texts of one hash. -/
def Collides (hash : P → H) : Prop := ∃ p q, p ≠ q ∧ hash p = hash q

theorem Collides.of_ne {p q : P} (hne : p ≠ q) (h : hash p = hash q) : Collides hash := ⟨p,q,hne,h⟩

theorem eq_or_collides {p q : P} (h : hash p = hash q) : p = q ∨ Collides hash :=
  (Classical.em (p = q)).imp id fun hne => .of_ne hne h

/-- No chain of more than one record ends where a chain begins. -/
theorem Chained.not_start {l : List α} {h : H} (hl : Chained hash Starts Seals l (some h))
    (hstart : ∀ {a p h b}, Starts a p → ¬Seals h b p) {a : α} {p : P} (hp : Starts a p) (heq : hash p = h) :
    Collides hash := by
  cases hl with
  | first _ hq => exact (eq_or_collides heq).resolve_left fun he => hstart hp (he ▸ hq)
  | next _ hq => exact (eq_or_collides heq).resolve_left fun he => hstart hp (he ▸ hq)

/-- What a seal tells of its record, the last seal of a chain tells of every record. -/
theorem Chained.commits {R : α → α → Prop}
    (hseal : ∀ {h h' a a' q}, Seals h a q → Seals h' a' q → h = h' ∧ R a a')
    (hstart : ∀ {a p h b}, Starts a p → ¬Seals h b p) {l l' : List α} {o : Option H}
    (hl : Chained hash Starts Seals l o) (hl' : Chained hash Starts Seals l' o) :
    List.Forall₂ R l l' ∨ Collides hash := by
  induction hl generalizing l' with
  | nil =>
    generalize ho : (none : Option H) = o at hl'
    cases hl' with
    | nil => exact .inl .nil
    | first => cases ho
    | next => cases ho
  | @first a p q hp hq =>
    generalize ho : some (hash q) = o at hl'
    cases hl' with
    | nil => cases ho
    | first _ hq' =>
      rcases eq_or_collides (Option.some.inj ho) with rfl | hc
      · exact .inl (.cons (hseal hq hq').2 .nil)
      · exact .inr hc
    | next hl' hq' =>
      rcases eq_or_collides (Option.some.inj ho) with rfl | hc
      · exact .inr (hl'.not_start hstart hp (hseal hq hq').1)
      · exact .inr hc
  | @next l a h q hl hq ih =>
    generalize ho : some (hash q) = o at hl'
    cases hl' with
    | nil => cases ho
    | first hp hq' =>
      rcases eq_or_collides (Option.some.inj ho) with rfl | hc
      · exact .inr (hl.not_start hstart hp (hseal hq hq').1.symm)
      · exact .inr hc
    | next hl' hq' =>
      rcases eq_or_collides (Option.some.inj ho) with rfl | hc
      · obtain ⟨rfl,hr⟩ := hseal hq hq'
        exact (ih hl').imp (fun hall => List.rel_append hall (.cons hr .nil)) id
      · exact .inr hc

end HashChain
