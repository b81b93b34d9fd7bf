import Mathlib.Tactic

/-! Self-delimiting encoders: encoders that may fail, whose output can be read back
from the front of any longer string, and the combinators that keep that property. -/
namespace Framing

variable {α β γ ε : Type*}

def SelfDelimiting (enc : α → Except ε (List β)) : Prop :=
  ∀ a b p q x y, enc a = .ok p → enc b = .ok q → p++x = q++y → a = b ∧ x = y

/-- What one value's encoding is told apart by. -/
def SelfDelimitingAt (enc : α → Except ε (List β)) (a : α) : Prop :=
  ∀ b p q x y, enc a = .ok p → enc b = .ok q → p++x = q++y → a = b ∧ x = y

theorem SelfDelimiting.eq {enc : α → Except ε (List β)} (h : SelfDelimiting enc) {a b : α}
    {p : List β} (ha : enc a = .ok p) (hb : enc b = .ok p) : a = b :=
  (h a b p p [] [] ha hb rfl).1

/-- Encoders of one fixed width only have to be injective. -/
theorem selfDelimiting_fixed {enc : α → Except ε (List β)} (n : ℕ)
    (hlen : ∀ a p, enc a = .ok p → p.length = n)
    (hinj : ∀ a b p, enc a = .ok p → enc b = .ok p → a = b) : SelfDelimiting enc := by
  intro a b p q x y ha hb h
  have hpq := List.append_inj h ((hlen a p ha).trans (hlen b q hb).symm)
  exact ⟨hinj a b q (by rw [ha,hpq.1]) hb,hpq.2⟩

/-- The parts of a record, encoded in order and joined. -/
def concat : List (Except ε (List β)) → Except ε (List β)
  | [] => .ok []
  | e::es =>
    match e with
    | .error err => .error err
    | .ok p =>
      match concat es with
      | .error err => .error err
      | .ok q => .ok (p++q)

theorem concat_cons {e : Except ε (List β)} {es : List (Except ε (List β))} {r : List β} :
    concat (e::es) = .ok r ↔ ∃ p q, e = .ok p ∧ concat es = .ok q ∧ r = p++q := by
  constructor
  · intro h
    simp only [concat] at h
    split at h
    · cases h
    · split at h
      · cases h
      · exact ⟨_,_,rfl,by assumption,(Except.ok.inj h).symm⟩
  · rintro ⟨p,q,rfl,hq,rfl⟩
    simp [concat,hq]

/-- Two equal records agree on their first part, and on what follows it. -/
theorem SelfDelimitingAt.peel {enc : α → Except ε (List β)} {a b : α} (h : SelfDelimitingAt enc a)
    {es fs : List (Except ε (List β))} {r s x y : List β} (hr : concat (enc a::es) = .ok r)
    (hs : concat (enc b::fs) = .ok s) (hxy : r++x = s++y) :
    a = b ∧ ∃ r' s', concat es = .ok r' ∧ concat fs = .ok s' ∧ r'++x = s'++y := by
  obtain ⟨p,r',hp,hr',rfl⟩ := concat_cons.mp hr
  obtain ⟨q,s',hq,hs',rfl⟩ := concat_cons.mp hs
  rw [List.append_assoc,List.append_assoc] at hxy
  obtain ⟨hab,hrest⟩ := h b p q _ _ hp hq hxy
  exact ⟨hab,r',s',hr',hs',hrest⟩

theorem SelfDelimiting.peel {enc : α → Except ε (List β)} (h : SelfDelimiting enc) {a b : α}
    {es fs : List (Except ε (List β))} {r s x y : List β} (hr : concat (enc a::es) = .ok r)
    (hs : concat (enc b::fs) = .ok s) (hxy : r++x = s++y) :
    a = b ∧ ∃ r' s', concat es = .ok r' ∧ concat fs = .ok s' ∧ r'++x = s'++y :=
  SelfDelimitingAt.peel (h a) hr hs hxy

/-- Equally many self-delimiting parts. -/
theorem concat_map_at {enc : α → Except ε (List β)} :
    ∀ {as bs : List α} {p q x y : List β}, (∀ a ∈ as, SelfDelimitingAt enc a) →
      as.length = bs.length → concat (as.map enc) = .ok p → concat (bs.map enc) = .ok q →
      p++x = q++y → as = bs ∧ x = y := by
  intro as
  induction as with
  | nil =>
    intro bs p q x y h hl hp hq hxy
    obtain rfl := List.length_eq_zero_iff.mp hl.symm
    obtain rfl := Except.ok.inj hp
    obtain rfl := Except.ok.inj hq
    exact ⟨rfl,hxy⟩
  | cons a as ih =>
    intro bs p q x y h hl hp hq hxy
    cases bs with
    | nil => cases hl
    | cons b bs =>
      obtain ⟨rfl,p',q',hp',hq',hxy'⟩ := (h a (by simp)).peel hp hq hxy
      obtain ⟨rfl,hx⟩ := ih (fun c hc => h c (by simp [hc])) (Nat.succ.inj hl) hp' hq' hxy'
      exact ⟨rfl,hx⟩

/-- A count, then that many parts. -/
def counted (count : ℕ → Except ε (List β)) (enc : α → Except ε (List β)) (as : List α) :
    Except ε (List β) := concat (count as.length::as.map enc)

theorem counted_at {count : ℕ → Except ε (List β)} {enc : α → Except ε (List β)} {as : List α}
    (hc : SelfDelimiting count) (h : ∀ a ∈ as, SelfDelimitingAt enc a) :
    SelfDelimitingAt (counted count enc) as := by
  intro bs p q x y hp hq hxy
  obtain ⟨hl,p',q',hp',hq',hxy'⟩ := hc.peel hp hq hxy
  exact concat_map_at h hl hp' hq' hxy'

theorem SelfDelimiting.counted {count : ℕ → Except ε (List β)} {enc : α → Except ε (List β)}
    (hc : SelfDelimiting count) (h : SelfDelimiting enc) : SelfDelimiting (counted count enc) :=
  fun _ => counted_at hc fun a _ => h a

theorem SelfDelimiting.comp {enc : α → Except ε (List β)} (h : SelfDelimiting enc) {f : γ → α}
    (hf : Function.Injective f) : SelfDelimiting (fun c => enc (f c)) := by
  intro a b p q x y ha hb hxy
  obtain ⟨hab,hx⟩ := h _ _ p q x y ha hb hxy
  exact ⟨hf hab,hx⟩

/-- Raw octets behind their own count. -/
theorem selfDelimiting_framed {count : ℕ → Except ε (List β)} (hc : SelfDelimiting count) :
    SelfDelimiting (fun as : List β => concat [count as.length,.ok as]) := by
  intro as bs p q x y hp hq hxy
  obtain ⟨hl,p',q',hp',hq',hxy'⟩ := hc.peel hp hq hxy
  obtain ⟨p₁,_,h₁,hn₁,rfl⟩ := concat_cons.mp hp'
  obtain ⟨q₁,_,h₂,hn₂,rfl⟩ := concat_cons.mp hq'
  obtain rfl := Except.ok.inj h₁
  obtain rfl := Except.ok.inj h₂
  obtain rfl := Except.ok.inj hn₁
  obtain rfl := Except.ok.inj hn₂
  rw [List.append_nil,List.append_nil] at hxy'
  exact List.append_inj hxy' hl

end Framing
