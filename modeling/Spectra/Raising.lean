import Spectra.Runs

/-! What a fallible computation may raise, and where in a list the first failure is. -/
namespace Runs

variable {ε σ α β : Type}

theorem bind_error {x : Except ε α} {f : α → Except ε β} {e : ε} :
    (x >>= f) = .error e ↔ x = .error e ∨ ∃ a, x = .ok a ∧ f a = .error e := by
  cases x <;> simp [bind,Except.bind]

theorem ok_bind {a : α} {f : α → Except ε β} : (Except.ok a >>= f) = f a := rfl

/-- A run over a list fails where the first of its elements does. -/
theorem mapM_error {f : α → Except ε β} {l : List α} {e : ε} : l.mapM f = .error e ↔
    ∃ before a after, l = before++a::after ∧ (∀ b ∈ before, ∃ c, f b = .ok c) ∧ f a = .error e := by
  induction l with
  | nil => simp [pure,Except.pure]
  | cons a l ih =>
    rw [List.mapM_cons,bind_error]
    constructor
    · rintro (h | ⟨c,hc,h⟩)
      · exact ⟨[],a,l,rfl,by simp,h⟩
      · rcases (bind_error).mp h with h | ⟨r,-,h⟩
        · obtain ⟨before,b,after,rfl,hb,he⟩ := ih.mp h
          exact ⟨a::before,b,after,rfl,List.forall_mem_cons.mpr ⟨⟨c,hc⟩,hb⟩,he⟩
        · cases h
    · rintro ⟨before,b,after,hl,hb,he⟩
      cases before with
      | nil =>
        obtain ⟨rfl,rfl⟩ := List.cons.inj hl
        exact .inl he
      | cons a' before =>
        obtain ⟨rfl,rfl⟩ := List.cons.inj hl
        obtain ⟨⟨c,hc⟩,hb⟩ := List.forall_mem_cons.mp hb
        exact .inr ⟨c,hc,(bind_error).mpr (.inl (ih.mpr ⟨before,b,after,rfl,hb,he⟩))⟩

/-- Whatever is raised satisfies the predicate. -/
def OnlyRaises (P : ε → Prop) (x : Except ε α) : Prop := ∀ e, x = .error e → P e

namespace OnlyRaises

variable {P : ε → Prop}

theorem ok (a : α) : OnlyRaises P (.ok a : Except ε α) := fun _ he => by cases he

theorem of_ok {x : Except ε α} {a : α} (h : x = .ok a) : OnlyRaises P x := h ▸ ok a

theorem of_exists {x : Except ε α} (h : ∃ a, x = .ok a) : OnlyRaises P x := of_ok h.choose_spec

theorem bind {x : Except ε α} {f : α → Except ε β} (hx : OnlyRaises P x)
    (hf : ∀ a, x = .ok a → OnlyRaises P (f a)) : OnlyRaises P (x >>= f) := by
  intro e he
  rcases (bind_error).mp he with he | ⟨a,ha,he⟩
  · exact hx e he
  · exact hf a ha e he

theorem mapM {f : α → Except ε β} {l : List α} (h : ∀ a ∈ l, OnlyRaises P (f a)) :
    OnlyRaises P (l.mapM f) := by
  intro e he
  obtain ⟨before,a,after,rfl,-,he⟩ := (mapM_error).mp he
  exact h a (by simp) e he

/-- A loop that keeps an invariant raises what its steps raise from states that have it. -/
theorem foldlM {f : σ → α → Except ε σ} {l : List α} {I : σ → Prop}
    (step : ∀ s a, a ∈ l → I s → OnlyRaises P (f s a) ∧ ∀ t, f s a = .ok t → I t) {s : σ} (hs : I s) :
    OnlyRaises P (l.foldlM f s) := by
  induction l generalizing s with
  | nil => exact ok s
  | cons a l ih =>
    obtain ⟨hraises,hkeeps⟩ := step s a (by simp) hs
    rw [List.foldlM_cons]
    exact bind hraises fun t ht => ih (fun s b hb => step s b (by simp [hb])) (hkeeps t ht)

end OnlyRaises

/-! ### What a run comes to -/

/-- Every element has the property, as far as the elements before it let a run come. -/
def UpTo (passes good : α → Prop) : List α → Prop
  | [] => True
  | a::l => good a ∧ (passes a → UpTo passes good l)

section

variable {P : ε → Prop} {passes passes' good good' : α → Prop} {l : List α}

theorem upTo_iff : UpTo passes good l ↔
    ∀ before a after, l = before++a::after → (∀ b ∈ before, passes b) → good a := by
  induction l with
  | nil => simp [UpTo]
  | cons a l ih =>
    rw [UpTo,ih]
    constructor
    · rintro ⟨ha,hl⟩ before b after he hb
      cases before with
      | nil => obtain ⟨rfl,rfl⟩ := List.cons.inj he; exact ha
      | cons c before =>
        obtain ⟨rfl,rfl⟩ := List.cons.inj he
        obtain ⟨hc,hb⟩ := List.forall_mem_cons.mp hb
        exact hl hc before b after rfl hb
    · intro h
      refine ⟨h [] a l rfl (by simp),fun ha before b after he hb => ?_⟩
      exact h (a::before) b after (by rw [he,List.cons_append]) (List.forall_mem_cons.mpr ⟨ha,hb⟩)

namespace OnlyRaises

theorem error_iff {e : ε} : OnlyRaises P (.error e : Except ε α) ↔ P e :=
  ⟨fun h => h e rfl,fun h _ he => Except.error.inj he ▸ h⟩

end OnlyRaises

end

/-- A run raises something of a kind where an element does, and none before it raises anything else. -/
theorem mapM_raises {P : ε → Prop} {f : α → Except ε β} {l : List α} :
    (∃ e, P e ∧ l.mapM f = .error e) ↔ ∃ before a after e, l = before++a::after ∧ P e ∧ f a = .error e ∧
      ∀ b ∈ before, OnlyRaises P (f b) := by
  constructor
  · rintro ⟨e,he,h⟩
    obtain ⟨before,a,after,hl,hb,ha⟩ := (mapM_error).mp h
    exact ⟨before,a,after,e,hl,he,ha,fun b hbm => .of_exists (hb b hbm)⟩
  · rintro ⟨before,a,after,e,rfl,he,ha,hb⟩
    rw [List.mapM_append,List.mapM_cons,ha]
    cases hrun : before.mapM f with
    | error e' => exact ⟨e',OnlyRaises.mapM hb e' hrun,rfl⟩
    | ok r => exact ⟨e,he,rfl⟩

end Runs
