import Mathlib.Tactic

/-! Loops of a fallible step over a list: what each step keeps, the whole run keeps, and
every element of the list is visited by one step of the run. -/
namespace Runs

variable {ε σ α β : Type}

@[simp] theorem bind_ok {x : Except ε α} {f : α → Except ε β} {b : β} :
    (x >>= f) = .ok b ↔ ∃ a, x = .ok a ∧ f a = .ok b := by
  cases x <;> simp [bind,Except.bind]

@[simp] theorem pure_ok {a b : α} : (pure a : Except ε α) = .ok b ↔ a = b := by
  simp [pure,Except.pure]

theorem bind_congr {x : Except ε α} {f g : α → Except ε β} (h : ∀ a, x = .ok a → f a = g a) :
    (x >>= f) = (x >>= g) := by
  cases x with
  | error e => rfl
  | ok a => exact h a rfl

theorem toOption_some {x : Except ε α} {a : α} (h : x.toOption = some a) : x = .ok a := by
  cases x with
  | error e => cases h
  | ok b => exact congrArg _ (Option.some.inj h)

theorem foldlM_nil_ok {f : σ → α → Except ε σ} {s t : σ} :
    [].foldlM f s = .ok t ↔ s = t := by
  simp

theorem foldlM_cons_ok {f : σ → α → Except ε σ} {s t : σ} {a : α} {l : List α} :
    (a::l).foldlM f s = .ok t ↔ ∃ u, f s a = .ok u ∧ l.foldlM f u = .ok t := by
  rw [List.foldlM_cons,bind_ok]

theorem foldlM_append_ok {f : σ → α → Except ε σ} {s t : σ} {l m : List α} :
    (l++m).foldlM f s = .ok t ↔ ∃ u, l.foldlM f s = .ok u ∧ m.foldlM f u = .ok t := by
  rw [List.foldlM_append,bind_ok]

variable {f g : σ → α → Except ε σ} {l : List α}

theorem foldlM_inv {P : σ → Prop} (step : ∀ s a t, a ∈ l → P s → f s a = .ok t → P t)
    {s t : σ} (hs : P s) (h : l.foldlM f s = .ok t) : P t := by
  induction l generalizing s with
  | nil => exact foldlM_nil_ok.mp h ▸ hs
  | cons a l ih =>
    obtain ⟨u,hu,ht⟩ := foldlM_cons_ok.mp h
    exact ih (fun s b t hb => step s b t (List.mem_cons_of_mem a hb))
      (step s a u (by simp) hs hu) ht

/-- A preorder on states that each step climbs, the run climbs. -/
theorem foldlM_rel {R : σ → σ → Prop} (refl : ∀ s, R s s)
    (trans : ∀ {s t u}, R s t → R t u → R s u)
    (step : ∀ s a t, a ∈ l → f s a = .ok t → R s t) {s t : σ} (h : l.foldlM f s = .ok t) :
    R s t :=
  foldlM_inv (P := R s) (fun _ _ _ ha hs hu => trans hs (step _ _ _ ha hu)) (refl s) h

theorem foldlM_visits {R : σ → σ → Prop} (refl : ∀ s, R s s)
    (trans : ∀ {s t u}, R s t → R t u → R s u)
    (step : ∀ s a t, a ∈ l → f s a = .ok t → R s t) {s t : σ} (h : l.foldlM f s = .ok t)
    {a : α} (ha : a ∈ l) : ∃ u v, R s u ∧ f u a = .ok v ∧ R v t := by
  obtain ⟨l₁,l₂,rfl⟩ := List.append_of_mem ha
  obtain ⟨u,hu,hrest⟩ := foldlM_append_ok.mp h
  obtain ⟨v,hv,ht⟩ := foldlM_cons_ok.mp hrest
  refine ⟨u,v,?_,hv,?_⟩
  · exact foldlM_rel refl trans (fun s b t hb => step s b t (by simp [hb])) hu
  · exact foldlM_rel refl trans (fun s b t hb => step s b t (by simp [hb])) ht

/-- Two loops that agree on the steps whose result is good agree on a run that ends good. -/
theorem foldlM_lockstep {good : σ → Prop}
    (back : ∀ s a t, a ∈ l → f s a = .ok t → good t → good s)
    (step : ∀ s a t, a ∈ l → f s a = .ok t → good t → g s a = .ok t)
    {s t : σ} (h : l.foldlM f s = .ok t) (ht : good t) :
    good s ∧ l.foldlM g s = .ok t := by
  induction l generalizing s with
  | nil => exact ⟨foldlM_nil_ok.mp h ▸ ht,foldlM_nil_ok.mpr (foldlM_nil_ok.mp h)⟩
  | cons a l ih =>
    obtain ⟨u,hu,hrest⟩ := foldlM_cons_ok.mp h
    obtain ⟨hg,hl⟩ := ih (fun s b t hb => back s b t (by simp [hb]))
      (fun s b t hb => step s b t (by simp [hb])) hrest
    exact ⟨back s a u (by simp) hu hg,foldlM_cons_ok.mpr ⟨u,step s a u (by simp) hu hg,hl⟩⟩

end Runs
