import Spectra.Ground
import Spectra.Runs

/-! What the engine's operations can do to its state. Every stage only adds instances; a
run is a chain of additions, and what one addition keeps a run keeps. A saturation that
no ceiling stopped has visited every body combination over its final base. -/
namespace Spectra

variable {D : Digest} {C : Ceilings} {s : Setup}

namespace Engine

/-! ### One addition -/

theorem addFact_cases (C : Ceilings) (e : Engine D) (f : Fact D) :
    (f ∈ e.base.facts ∧ (e.addFact C f).1 = e) ∨
    (∃ d, (e.addFact C f).1 = {e with capped := true, capDetail := d}) ∨
    (∃ h : f ∉ e.base.facts, (e.addFact C f).1 =
      {e with base := e.base.insert f h, delta := e.delta++[f]}) := by
  unfold addFact
  split
  · rename_i h; exact .inl ⟨h,rfl⟩
  · rename_i h
    split
    · exact .inr (.inl ⟨_,rfl⟩)
    · exact .inr (.inr ⟨h,rfl⟩)

theorem recordSpan_eq (e : Engine D) (i : GroundInstance D) (head : Fact D)
    (span : Option (ℤ × ℤ)) : ∃ sp, e.recordSpan i head span = {e with licensedSpan := sp} := by
  rcases span with _ | ⟨lo,hi⟩
  · exact ⟨_,rfl⟩
  · by_cases h : i.observed = .licensed
    · exact ⟨_,by rw [recordSpan,if_pos h]⟩
    · exact ⟨_,by rw [recordSpan,if_neg h]⟩

theorem recordStatus_eq (e : Engine D) (i : GroundInstance D) (head : Fact D) :
    ∃ l g, e.recordStatus i head = {e with licensedFacts := l, ghostFacts := g} := by
  unfold recordStatus
  split
  · exact ⟨_,_,rfl⟩
  · exact ⟨_,_,rfl⟩

/-- The outcomes of adding an instance; what is recorded about licences is left open. -/
inductive Added (e : Engine D) (i : GroundInstance D) (head : Fact D) : Engine D → Prop
  | known (sp) (h : e.hasInstance i.instanceId = true) :
      Added e i head {e with licensedSpan := sp}
  | refused (sp d) : Added e i head {e with licensedSpan := sp, capped := true, capDetail := d}
  | entered (sp l g) (hf : head ∈ e.base.facts) :
      Added e i head {e with
        licensedSpan := sp, instances := e.instances++[i], licensedFacts := l, ghostFacts := g}
  | headless (sp l g d) :
      Added e i head {e with
        licensedSpan := sp, instances := e.instances++[i], licensedFacts := l, ghostFacts := g,
        capped := true, capDetail := d}
  | derived (sp l g) (hf : head ∉ e.base.facts) :
      Added e i head {e with
        licensedSpan := sp, instances := e.instances++[i], licensedFacts := l, ghostFacts := g,
        base := e.base.insert head hf, delta := e.delta++[head]}

theorem addInstance_added (C : Ceilings) (e : Engine D) (i : GroundInstance D) (head : Fact D)
    (span : Option (ℤ × ℤ)) : Added e i head (e.addInstance C i head span).1 := by
  obtain ⟨sp,hsp⟩ := e.recordSpan_eq i head span
  unfold addInstance
  rw [hsp]
  by_cases hk : e.hasInstance i.instanceId = true
  · simp only [hasInstance] at hk ⊢
    rw [if_pos hk]
    exact .known sp hk
  · simp only [hasInstance] at hk ⊢
    rw [if_neg hk]
    split
    · exact .refused sp _
    · obtain ⟨l,g,hs⟩ := recordStatus_eq
        (({e with licensedSpan := sp, instances := e.instances++[i]} : Engine D).addFact C head).1
        i head
      rw [hs]
      rcases addFact_cases C ({e with licensedSpan := sp, instances := e.instances++[i]} : Engine D)
        head with ⟨hf,he⟩ | ⟨d,he⟩ | ⟨hf,he⟩
      · rw [he]; exact .entered sp l g hf
      · rw [he]; exact .headless sp l g d
      · rw [he]; exact Added.derived (e := e) sp l g hf

/-- What no operation takes back. -/
structure Le (e u : Engine D) : Prop where
  facts : e.base.facts ⊆ u.base.facts
  instances : e.instances ⊆ u.instances
  axioms : u.axioms = e.axioms
  axiomEvents : u.axiomEvents = e.axiomEvents
  timeFree : u.timeFreeSnapshot = e.timeFreeSnapshot
  span : u.spanSnapshot = e.spanSnapshot
  capped : u.capped = false → e.capped = false

theorem Le.refl (e : Engine D) : Le e e :=
  ⟨fun _ h => h,fun _ h => h,rfl,rfl,rfl,rfl,id⟩

theorem Le.trans {e u v : Engine D} (h : Le e u) (h' : Le u v) : Le e v where
  facts := fun _ hf => h'.facts (h.facts hf)
  instances := fun _ hi => h'.instances (h.instances hi)
  axioms := h'.axioms.trans h.axioms
  axiomEvents := h'.axiomEvents.trans h.axiomEvents
  timeFree := h'.timeFree.trans h.timeFree
  span := h'.span.trans h.span
  capped := fun hc => h.capped (h'.capped hc)

theorem Le.eventsOf {e u : Engine D} (h : Le e u) (k : FactHash) : u.eventsOf k = e.eventsOf k := by
  rw [Engine.eventsOf,Engine.eventsOf,h.axiomEvents]

theorem mem_insert {b : FactBase D} {f g : Fact D} (h : f ∉ b.facts) :
    g ∈ (b.insert f h).facts ↔ g ∈ b.facts ∨ g = f := by
  simp [FactBase.insert]

theorem Added.le {e u : Engine D} {i : GroundInstance D} {head : Fact D} (h : Added e i head u) :
    Le e u := by
  have hi : e.instances ⊆ e.instances++[i] := fun _ => List.mem_append_left [i]
  cases h with
  | known => exact ⟨fun _ h => h,fun _ h => h,rfl,rfl,rfl,rfl,id⟩
  | refused => exact ⟨fun _ h => h,fun _ h => h,rfl,rfl,rfl,rfl,fun h => by cases h⟩
  | entered => exact ⟨fun _ h => h,hi,rfl,rfl,rfl,rfl,id⟩
  | headless => exact ⟨fun _ h => h,hi,rfl,rfl,rfl,rfl,fun h => by cases h⟩
  | derived _ _ _ hf => exact ⟨fun _ h => (mem_insert hf).mpr (.inl h),hi,rfl,rfl,rfl,rfl,id⟩

theorem Added.instances {e u : Engine D} {i j : GroundInstance D} {head : Fact D}
    (h : Added e i head u) (hj : j ∈ u.instances) : j ∈ e.instances ∨ j = i := by
  cases h with
  | known => exact .inl hj
  | refused => exact .inl hj
  | entered => simpa using hj
  | headless => simpa using hj
  | derived => simpa using hj

theorem Added.facts {e u : Engine D} {i : GroundInstance D} {head f : Fact D}
    (h : Added e i head u) (hf : f ∈ u.base.facts) :
    f ∈ e.base.facts ∨ f = head ∧ i ∈ u.instances := by
  cases h with
  | known => exact .inl hf
  | refused => exact .inl hf
  | entered => exact .inl hf
  | headless => exact .inl hf
  | derived _ _ _ hn => exact ((mem_insert hn).mp hf).imp id fun h => ⟨h,by simp⟩

theorem Added.delta {e u : Engine D} {i : GroundInstance D} {head f : Fact D}
    (h : Added e i head u) (hf : f ∈ u.base.facts) : f ∈ e.base.facts ∨ f ∈ u.delta := by
  cases h with
  | known => exact .inl hf
  | refused => exact .inl hf
  | entered => exact .inl hf
  | headless => exact .inl hf
  | derived _ _ _ hn => exact ((mem_insert hn).mp hf).imp id fun h => by simp [h]

theorem Added.delta_mono {e u : Engine D} {i : GroundInstance D} {head f : Fact D}
    (h : Added e i head u) (hf : f ∈ e.delta) : f ∈ u.delta := by
  cases h <;> simp [hf]

/-! ### Runs of additions -/

/-- A chain of additions, each allowed by `Q` in the state it is made in. Counters may
change in between; the delta is taken out only where `taking` allows it. -/
inductive Grows (C : Ceilings) (taking : Prop)
    (Q : Engine D → GroundInstance D → Fact D → Option (ℤ × ℤ) → Prop) (e : Engine D) :
    Engine D → Prop
  | refl : Grows C taking Q e e
  | add {u i head span} (h : Grows C taking Q e u) (hq : Q u i head span) :
      Grows C taking Q e (u.addInstance C i head span).1
  | note {u} (h : Grows C taking Q e u) (n k b d) :
      Grows C taking Q e {u with
        iterations := n, fixpointSteps := k, capped := u.capped || b, capDetail := d}
  | take {u} (h : Grows C taking Q e u) (ht : taking) : Grows C taking Q e {u with delta := []}

namespace Grows

variable {taking : Prop} {Q : Engine D → GroundInstance D → Fact D → Option (ℤ × ℤ) → Prop}
  {e u v : Engine D}

theorem trans (h : Grows C taking Q e u) (h' : Grows C taking Q u v) : Grows C taking Q e v := by
  induction h' with
  | refl => exact h
  | add _ hq ih => exact .add ih hq
  | note _ n k b d ih => exact .note ih n k b d
  | take _ ht ih => exact .take ih ht

theorem taken (h : Grows C False Q e u) : Grows C True Q e u := by
  induction h with
  | refl => exact .refl
  | add _ hq ih => exact .add ih hq
  | note _ n k b d ih => exact .note ih n k b d
  | take _ ht => exact ht.elim

theorem le (h : Grows C taking Q e u) : Le e u := by
  induction h with
  | refl => exact .refl e
  | add _ _ ih => exact ih.trans (addInstance_added C _ _ _ _).le
  | note _ _ _ _ _ ih =>
    refine ih.trans ⟨fun _ h => h,fun _ h => h,rfl,rfl,rfl,rfl,fun h => ?_⟩
    exact (Bool.or_eq_false_iff.mp h).1
  | take _ _ ih => exact ih.trans ⟨fun _ h => h,fun _ h => h,rfl,rfl,rfl,rfl,id⟩

/-- A property of the content that every allowed addition keeps. -/
theorem induct {P : Engine D → Prop} (h : Grows C taking Q e u) (he : P e)
    (hadd : ∀ v i head span, Grows C taking Q e v → P v → Q v i head span →
      P (v.addInstance C i head span).1)
    (hnote : ∀ v n k b d, P v →
      P {v with iterations := n, fixpointSteps := k, capped := v.capped || b, capDetail := d})
    (htake : ∀ v, taking → P v → P {v with delta := []}) : P u := by
  induction h with
  | refl => exact he
  | add hg hq ih => exact hadd _ _ _ _ hg ih hq
  | note _ n k b d ih => exact hnote _ n k b d ih
  | take _ ht ih => exact htake _ ht ih

/-- Every new instance was added by an allowed addition. -/
theorem instance_of (h : Grows C taking Q e u) {i : GroundInstance D} (hi : i ∈ u.instances) :
    i ∈ e.instances ∨ ∃ v head span, Grows C taking Q e v ∧ Q v i head span ∧ Le v u := by
  induction h with
  | refl => exact .inl hi
  | @add u j head span hg hq ih =>
    have ha := addInstance_added C u j head span
    rcases ha.instances hi with hi | rfl
    · exact (ih hi).imp id fun ⟨v,hd,sp,hv,hq',hle⟩ => ⟨v,hd,sp,hv,hq',hle.trans ha.le⟩
    · exact .inr ⟨u,head,span,hg,hq,ha.le⟩
  | note hg n k b d ih =>
    exact (ih hi).imp id fun ⟨v,hd,sp,hv,hq',hle⟩ =>
      ⟨v,hd,sp,hv,hq',hle.trans (show Grows C taking Q _ _ from .note .refl n k b d).le⟩
  | take hg ht ih =>
    exact (ih hi).imp id fun ⟨v,hd,sp,hv,hq',hle⟩ =>
      ⟨v,hd,sp,hv,hq',hle.trans (show Grows C taking Q _ _ from .take .refl ht).le⟩

/-- Every new fact is the head of an instance an allowed addition made. -/
theorem fact_of (h : Grows C taking Q e u) {f : Fact D} (hf : f ∈ u.base.facts) :
    f ∈ e.base.facts ∨ ∃ v i span, Grows C taking Q e v ∧ Q v i f span ∧ i ∈ u.instances := by
  induction h with
  | refl => exact .inl hf
  | @add u j head span hg hq ih =>
    have ha := addInstance_added C u j head span
    rcases ha.facts hf with hf | ⟨rfl,hj⟩
    · exact (ih hf).imp id fun ⟨v,i,sp,hv,hq',hi⟩ => ⟨v,i,sp,hv,hq',ha.le.instances hi⟩
    · exact .inr ⟨u,j,span,hg,hq,hj⟩
  | note _ _ _ _ _ ih => exact ih hf
  | take _ _ ih => exact ih hf

theorem delta_of (h : Grows C False Q e u) {f : Fact D} (hf : f ∈ u.base.facts) :
    f ∈ e.base.facts ∨ f ∈ u.delta := by
  induction h with
  | refl => exact .inl hf
  | @add u j head span _ _ ih =>
    have ha := addInstance_added C u j head span
    rcases ha.delta hf with hf | hf
    · exact (ih hf).imp id ha.delta_mono
    · exact .inr hf
  | note _ _ _ _ _ ih => exact ih hf
  | take _ ht => exact ht.elim

end Grows

/-- Every instance has its head in the base, unless a ceiling kept a fact out. -/
def Headed (e : Engine D) : Prop :=
  e.capped = false → ∀ i ∈ e.instances, ∃ f ∈ e.base.facts, f.factKey = i.head

theorem Added.headed {e u : Engine D} {i : GroundInstance D} {head : Fact D}
    (h : Added e i head u) (hi : i.head = head.factKey) (he : Headed e) : Headed u := by
  intro hc j hj
  have hold : j ∈ e.instances → ∃ f ∈ u.base.facts, f.factKey = j.head := fun hj =>
    (he (h.le.capped hc) j hj).imp fun f hf => ⟨h.le.facts hf.1,hf.2⟩
  cases h with
  | known => exact hold hj
  | refused => cases hc
  | entered _ _ _ hf =>
    rcases List.mem_append.mp hj with hj | hj
    · exact hold hj
    · rw [List.mem_singleton.mp hj]; exact ⟨head,hf,hi.symm⟩
  | headless => cases hc
  | derived _ _ _ hf =>
    rcases List.mem_append.mp hj with hj | hj
    · exact hold hj
    · rw [List.mem_singleton.mp hj]; exact ⟨head,(mem_insert hf).mpr (.inr rfl),hi.symm⟩

/-- An addition no ceiling stopped leaves the instance and its head behind. -/
theorem Added.lands {e u : Engine D} {i : GroundInstance D} {head : Fact D}
    (h : Added e i head u) (hi : i.head = head.factKey) (he : Headed e) (hc : u.capped = false) :
    head ∈ u.base.facts ∧ ∃ j ∈ u.instances, j.instanceId = i.instanceId := by
  cases h with
  | known _ hk =>
    simp only [hasInstance,List.any_eq_true,decide_eq_true_eq] at hk
    obtain ⟨j,hj,hid⟩ := hk
    obtain ⟨f,hf,hfj⟩ := he hc j hj
    have hkey : f.factKey = head.factKey := by
      rw [hfj,(GroundInstance.id_inj hid).2.1,hi]
    exact ⟨Fact.key_inj hkey ▸ hf,j,hj,hid⟩
  | refused => cases hc
  | entered _ _ _ hf => exact ⟨hf,i,by simp,rfl⟩
  | headless => cases hc
  | derived _ _ _ hf => exact ⟨(mem_insert hf).mpr (.inr rfl),i,by simp,rfl⟩

theorem Grows.headed {taking : Prop}
    {Q : Engine D → GroundInstance D → Fact D → Option (ℤ × ℤ) → Prop} {e u : Engine D}
    (h : Grows C taking Q e u) (hQ : ∀ v i head span, Q v i head span → i.head = head.factKey)
    (he : Headed e) : Headed u :=
  h.induct he (fun v i head span _ hv hq => (addInstance_added C v i head span).headed (hQ _ _ _ _ hq) hv)
    (fun _ _ _ _ _ hv hc => hv (Bool.or_eq_false_iff.mp hc).1) fun _ _ hv => hv

/-! ### Emission -/

/-- Bind the patterns of a body against one fact each, left to right. -/
def joined : Bind → List Pattern → List (Fact D) → Option Bind
  | bind, [], [] => some bind
  | bind, p::ps, f::fs => (unify p f bind false).bind fun bind => joined bind ps fs
  | _, _, _ => none

theorem joined_length {b b' : Bind} {ps : List Pattern} {fs : List (Fact D)}
    (h : joined b ps fs = some b') : fs.length = ps.length := by
  induction ps generalizing b fs with
  | nil => cases fs with
    | nil => rfl
    | cons f fs => cases h
  | cons p ps ih => cases fs with
    | nil => cases h
    | cons f fs =>
      obtain ⟨b₁,-,h⟩ := Option.bind_eq_some_iff.mp h
      simp [ih h]

theorem joined_snoc {b b₁ b₂ : Bind} {ps : List Pattern} {fs : List (Fact D)} {p : Pattern}
    {f : Fact D} (h : joined b ps fs = some b₁) (hu : unify p f b₁ false = some b₂) :
    joined b (ps++[p]) (fs++[f]) = some b₂ := by
  induction ps generalizing b fs with
  | nil => cases fs with
    | nil => cases h; simp [joined,hu]
    | cons f fs => cases h
  | cons q ps ih => cases fs with
    | nil => cases h
    | cons g fs =>
      obtain ⟨b',hb,h⟩ := Option.bind_eq_some_iff.mp h
      exact Option.bind_eq_some_iff.mpr ⟨b',hb,ih h⟩

/-- The rule fires on the chosen facts in state `e`, and this is what it adds. -/
structure Emits (s : Setup) (e : Engine D) (compiled : CompiledRule) (chosen : List (Fact D))
    (bind : Bind) (i : GroundInstance D) (head : Fact D) : Prop where
  guarded : e.guarded compiled chosen = true
  fires : ∃ extra, e.checkTemporal s compiled chosen bind = .ok (some extra) ∧
    e.evidenceFor compiled chosen extra ≠ [] ∧
    GroundInstance.mint D compiled.ruleId compiled.rule.ruleVersion head.factKey
      (chosen.map (·.factKey)) compiled.blockers .observed head.tick
      (e.evidenceFor compiled chosen extra) [] false = .ok i
  head : headFact D compiled bind = .ok (some head)

variable {e e' u v : Engine D} {compiled : CompiledRule} {chosen fs : List (Fact D)}
  {bind bind' : Bind} {i : GroundInstance D} {head : Fact D}

theorem Emits.fields (h : Emits s e compiled chosen bind i head) :
    i.ruleId = compiled.ruleId ∧ i.head = head.factKey ∧ i.body = chosen.map (·.factKey) ∧
      i.observed = .observed ∧ i.blockers = compiled.blockers := by
  obtain ⟨extra,-,-,hm⟩ := h.fires
  have hf := GroundInstance.mint_ok hm
  exact ⟨congrArg (·.ruleId) hf,congrArg (·.head) hf,congrArg (·.body) hf,
    congrArg (·.observed) hf,congrArg (·.blockers) hf⟩

/-- An emission leaves the state alone or adds what the rule fires. -/
theorem emit_cases (h : emit C s compiled chosen bind e = .ok e') :
    e' = e ∨ ∃ i head, Emits s e compiled chosen bind i head ∧
      e' = (e.addInstance C i head none).1 := by
  unfold emit at h
  split at h
  · exact .inl (Except.ok.inj h).symm
  · rename_i hg
    obtain ⟨t,ht,h⟩ := Runs.bind_ok.mp h
    cases t with
    | none => exact .inl (Runs.pure_ok.mp h).symm
    | some extra =>
      simp only at h
      split at h
      · exact .inl (Runs.pure_ok.mp h).symm
      · rename_i hev
        obtain ⟨hd,hh,h⟩ := Runs.bind_ok.mp h
        cases hd with
        | none => exact .inl (Runs.pure_ok.mp h).symm
        | some head =>
          obtain ⟨i,hi,h⟩ := Runs.bind_ok.mp h
          refine .inr ⟨i,head,⟨by simpa using hg,⟨extra,ht,hev,hi⟩,hh⟩,?_⟩
          exact (Runs.pure_ok.mp h).symm

/-- A rule that can fire does, unless minting its instance raised. -/
theorem emit_fires {extra : List (Fact D)} (h : emit C s compiled chosen bind e = .ok e')
    (hg : e.guarded compiled chosen = true)
    (ht : e.checkTemporal s compiled chosen bind = .ok (some extra))
    (hev : e.evidenceFor compiled chosen extra ≠ [])
    (hh : headFact D compiled bind = .ok (some head)) :
    ∃ i, Emits s e compiled chosen bind i head ∧ e' = (e.addInstance C i head none).1 := by
  unfold emit at h
  rw [if_neg (by simp [hg])] at h
  obtain ⟨t,ht',h⟩ := Runs.bind_ok.mp h
  cases ht.symm.trans ht'
  simp only [if_neg hev] at h
  obtain ⟨hd,hh',h⟩ := Runs.bind_ok.mp h
  cases hh.symm.trans hh'
  obtain ⟨i,hi,h⟩ := Runs.bind_ok.mp h
  exact ⟨i,⟨hg,⟨extra,ht,hev,hi⟩,hh⟩,(Runs.pure_ok.mp h).symm⟩

/-- What a saturation may add: what a detect rule fires on facts of the base. -/
def Observes (s : Setup) (e : Engine D) (i : GroundInstance D) (head : Fact D)
    (span : Option (ℤ × ℤ)) : Prop :=
  span = none ∧ ∃ compiled ∈ s.table.detectRules, ∃ chosen bind,
    (∀ f ∈ chosen, f ∈ e.base.facts) ∧ joined [] compiled.body chosen = some bind ∧
      Emits s e compiled chosen bind i head

abbrev Saturates (C : Ceilings) (s : Setup) (taking : Prop) : Engine D → Engine D → Prop :=
  Grows C taking (Observes s)

theorem emit_grows (hr : compiled ∈ s.table.detectRules)
    (hf : ∀ f ∈ chosen, f ∈ e.base.facts) (hj : joined [] compiled.body chosen = some bind)
    (h : emit C s compiled chosen bind e = .ok e') : Saturates C s False e e' := by
  rcases emit_cases h with rfl | ⟨i,head,he,rfl⟩
  · exact .refl
  · exact .add .refl ⟨rfl,compiled,hr,chosen,bind,hf,hj,he⟩

theorem step_grows (e : Engine D) (n : ℕ) : Saturates C s False e {e with fixpointSteps := n} := by
  have h : Grows C False (Observes s) e _ := .note .refl e.iterations n false e.capDetail
  simpa using h

/-- One fact tried in the slot that is entered. -/
def enter (C : Ceilings) (s : Setup) (compiled : CompiledRule) (pivot : ℕ) (keys : List FactHash)
    (p : Pattern) (ps : List Pattern) (slot : ℕ) (bind : Bind) (chosen : List (Fact D))
    (e : Engine D) (f : Fact D) : Fallible (Engine D) :=
  if slot = pivot ∧ f.factKey ∉ keys then .ok e
  else
    match unify p f bind false with
    | none => .ok e
    | some extended => enumerate C s compiled pivot keys ps (slot+1) extended (chosen++[f]) e

variable {pivot slot : ℕ} {keys : List FactHash} {p : Pattern} {ps done : List Pattern}

theorem enumerate_nil :
    enumerate C s compiled pivot keys [] slot bind chosen e =
      emit C s compiled chosen bind {e with fixpointSteps := e.fixpointSteps+1} := rfl

theorem enumerate_cons :
    enumerate C s compiled pivot keys (p::ps) slot bind chosen e =
      (e.factsFor p.predicate p.arity).foldlM
        (enter C s compiled pivot keys p ps slot bind chosen) e := rfl

theorem enter_grows (hps : ∀ {slot bind chosen done} {e e' : Engine D}, compiled.body = done++ps →
      (∀ f ∈ chosen, f ∈ e.base.facts) → joined [] done chosen = some bind →
      enumerate C s compiled pivot keys ps slot bind chosen e = .ok e' → Saturates C s False e e')
    (hb : compiled.body = done++p::ps) (hf : ∀ f ∈ chosen, f ∈ e.base.facts)
    (hj : joined [] done chosen = some bind) {g : Fact D} (hg : g ∈ e.base.facts)
    (h : enter C s compiled pivot keys p ps slot bind chosen e g = .ok e') :
    Saturates C s False e e' := by
  unfold enter at h
  split at h
  · exact Except.ok.inj h ▸ .refl
  · split at h
    · exact Except.ok.inj h ▸ .refl
    · rename_i b hu
      refine hps (show compiled.body = (done++[p])++ps by simp [hb]) ?_ (joined_snoc hj hu) h
      simpa [or_imp,forall_and] using ⟨hf,hg⟩

/-- The loop over a bucket climbs from any state over the one it was read in. -/
theorem bucket_grows (hps : ∀ {slot bind chosen done} {e e' : Engine D}, compiled.body = done++ps →
      (∀ f ∈ chosen, f ∈ e.base.facts) → joined [] done chosen = some bind →
      enumerate C s compiled pivot keys ps slot bind chosen e = .ok e' → Saturates C s False e e')
    (hb : compiled.body = done++p::ps) (hf : ∀ f ∈ chosen, f ∈ e.base.facts)
    (hj : joined [] done chosen = some bind) (a : Engine D) (g : Fact D) (b : Engine D)
    (hg : g ∈ e.factsFor p.predicate p.arity)
    (h : enter C s compiled pivot keys p ps slot bind chosen a g = .ok b)
    (ha : e.base.facts ⊆ a.base.facts) : Saturates C s False a b :=
  enter_grows hps hb (fun f hc => ha (hf f hc)) hj (ha (FactBase.mem_factsFor.mp hg).1) h

/-- Joining the slots that are left only adds what the rule observes. -/
theorem enumerate_grows (hr : compiled ∈ s.table.detectRules) (hb : compiled.body = done++ps)
    (hf : ∀ f ∈ chosen, f ∈ e.base.facts) (hj : joined [] done chosen = some bind)
    (h : enumerate C s compiled pivot keys ps slot bind chosen e = .ok e') :
    Saturates C s False e e' := by
  induction ps generalizing done slot bind chosen e e' with
  | nil =>
    simp only [List.append_nil] at hb
    rw [enumerate_nil] at h
    exact (step_grows e (e.fixpointSteps+1)).trans (emit_grows hr hf (hb ▸ hj) h)
  | cons p ps ih =>
    rw [enumerate_cons] at h
    refine Runs.foldlM_rel (R := fun a b => e.base.facts ⊆ a.base.facts → Saturates C s False a b)
      (fun _ _ => .refl) (fun hab hbc ha => ?_) (bucket_grows ih hb hf hj) h (fun _ h => h)
    exact (hab ha).trans (hbc fun _ hx => (hab ha).le.facts (ha hx))

/-- The combination was emitted in some state of the run. -/
def Visited (C : Ceilings) (s : Setup) (e e' : Engine D) (compiled : CompiledRule)
    (chosen : List (Fact D)) (bind : Bind) : Prop :=
  ∃ u v, Saturates C s True e u ∧ emit C s compiled chosen bind u = .ok v ∧ Saturates C s True v e'

theorem Visited.extend (h : Visited C s u v compiled chosen bind) (he : Saturates C s True e u)
    (he' : Saturates C s True v e') : Visited C s e e' compiled chosen bind := by
  obtain ⟨a,b,ha,hab,hb⟩ := h
  exact ⟨a,b,he.trans ha,hab,hb.trans he'⟩

theorem mem_factsFor_of_unify {p : Pattern} {f : Fact D} (hu : unify p f bind false = some bind')
    (hf : f ∈ e.base.facts) : f ∈ e.factsFor p.predicate p.arity := by
  unfold unify at hu
  split at hu
  · cases hu
  · rename_i h
    push Not at h
    exact FactBase.mem_factsFor.mpr ⟨hf,h.1,h.2⟩

theorem enumerate_visits (hr : compiled ∈ s.table.detectRules) (hb : compiled.body = done++ps)
    (hf : ∀ f ∈ chosen, f ∈ e.base.facts) (hj : joined [] done chosen = some bind)
    (h : enumerate C s compiled pivot keys ps slot bind chosen e = .ok e')
    (hfs : ∀ f ∈ fs, f ∈ e.base.facts) (hjs : joined bind ps fs = some bind')
    (hp : ∀ n f, fs[n]? = some f → slot+n = pivot → f.factKey ∈ keys) :
    Visited C s e e' compiled (chosen++fs) bind' := by
  induction ps generalizing done slot bind chosen e e' fs with
  | nil =>
    cases fs with
    | cons f fs => cases hjs
    | nil =>
      cases hjs
      rw [enumerate_nil] at h
      exact ⟨_,_,(step_grows e (e.fixpointSteps+1)).taken,by simpa using h,.refl⟩
  | cons p ps ih =>
    cases fs with
    | nil => cases hjs
    | cons f fs =>
      obtain ⟨b,hu,hjs⟩ := Option.bind_eq_some_iff.mp hjs
      have hm := mem_factsFor_of_unify hu (hfs f (by simp))
      rw [enumerate_cons] at h
      -- the bucket was read on entry, so the loop reaches `f` whatever was added before
      obtain ⟨a,a',hea,ha,hae⟩ := Runs.foldlM_visits
        (R := fun a b => e.base.facts ⊆ a.base.facts → Saturates C s False a b)
        (fun _ _ => .refl)
        (fun hab hbc ha => (hab ha).trans (hbc fun _ hx => (hab ha).le.facts (ha hx)))
        (bucket_grows (fun hb hf hj h => enumerate_grows hr hb hf hj h) hb hf hj) h hm
      have hea := hea fun _ h => h
      have haa' := bucket_grows (fun hb hf hj h => enumerate_grows hr hb hf hj h) hb hf hj a f a' hm ha
        hea.le.facts
      have hae := hae fun _ hx => haa'.le.facts (hea.le.facts hx)
      have hkey : ¬(slot = pivot ∧ f.factKey ∉ keys) := fun hc => hc.2 (hp 0 f rfl (by simpa using hc.1))
      rw [enter,if_neg hkey,hu] at ha
      have hv := ih (show compiled.body = (done++[p])++ps by simp [hb])
        (by simpa [or_imp,forall_and] using ⟨fun g hg => hea.le.facts (hf g hg),
          hea.le.facts (hfs f (by simp))⟩)
        (joined_snoc hj hu) ha (fun g hg => hea.le.facts (hfs g (by simp [hg]))) hjs
        (fun n g hg hn => hp (n+1) g (by simpa using hg) (by omega))
      rw [List.append_assoc,List.singleton_append] at hv
      exact hv.extend hea.taken hae.taken

theorem apply_grows (hr : compiled ∈ s.table.detectRules)
    (h : apply C s keys e compiled = .ok e') : Saturates C s False e e' :=
  Runs.foldlM_rel (R := Saturates C s False) (fun _ => .refl) .trans
    (fun _ _ _ _ h => enumerate_grows hr (show compiled.body = []++compiled.body from rfl) (by simp) rfl h) h

theorem apply_visits (hr : compiled ∈ s.table.detectRules)
    (h : apply C s keys e compiled = .ok e') (hfs : ∀ f ∈ fs, f ∈ e.base.facts)
    (hj : joined [] compiled.body fs = some bind) (hk : ∃ f ∈ fs, f.factKey ∈ keys) :
    Visited C s e e' compiled fs bind := by
  obtain ⟨f,hf,hkey⟩ := hk
  obtain ⟨pivot,hlt,rfl⟩ := List.mem_iff_getElem.mp hf
  have hlen := joined_length hj
  obtain ⟨u,v,hu,huv,hv⟩ := Runs.foldlM_visits (R := Saturates C s False) (fun _ => .refl) .trans
    (fun _ _ _ _ h => enumerate_grows hr (show compiled.body = []++compiled.body from rfl) (by simp) rfl h) h
    (List.mem_range.mpr (hlen ▸ hlt))
  refine (enumerate_visits hr (show compiled.body = []++compiled.body from rfl) (by simp) rfl huv
    (fun g hg => hu.le.facts (hfs g hg)) hj ?_).extend hu.taken hv.taken
  intro n g hg hn
  rw [Nat.zero_add] at hn
  subst hn
  rw [List.getElem?_eq_getElem hlt] at hg
  exact Option.some.inj hg ▸ hkey

/-! ### Saturation -/

/-- The rounds over a table that lists its detect rules as `rules`. -/
def roundsIn (C : Ceilings) (s : Setup) (rules : List CompiledRule) :
    ℕ → List (Fact D) → Engine D → Fallible (Engine D)
  | _, [], e => .ok e
  | 0, _::_, e => .ok (recordCap {e with iterations := e.iterations+1}
      ("MAX_ITERATIONS="++toString C.maxIterations++" reached"))
  | left+1, delta, e => do
    let e ← rules.foldlM (apply C s (delta.map (·.factKey))) {e with iterations := e.iterations+1}
    roundsIn C s rules left e.takeDelta.1 e.takeDelta.2

/-- A saturation over a table that lists its detect rules as `rules`. -/
def saturateIn (C : Ceilings) (s : Setup) (rules : List CompiledRule) (e : Engine D) :
    Fallible (Engine D) :=
  roundsIn C s rules (C.maxIterations-e.iterations) e.takeDelta.1 e.openRound.takeDelta.2

theorem rounds_eq {left : ℕ} {delta : List (Fact D)} :
    rounds C s left delta e = roundsIn C s s.table.detectRules left delta e := by
  induction left generalizing delta e with
  | zero => cases delta <;> rfl
  | succ left ih =>
    cases delta with
    | nil => rfl
    | cons f fs => simp only [rounds,roundsIn,ih]

theorem saturate_eq : saturate C s e = saturateIn C s s.table.detectRules e := rounds_eq

variable {rules : List CompiledRule}

theorem round_grows (hrules : rules ⊆ s.table.detectRules)
    (h : rules.foldlM (apply C s keys) e = .ok e') : Saturates C s False e e' :=
  Runs.foldlM_rel (R := Saturates C s False) (fun _ => .refl) .trans
    (fun _ _ _ hr h => apply_grows (hrules hr) h) h

theorem round_visits (hrules : rules ⊆ s.table.detectRules)
    (h : rules.foldlM (apply C s keys) e = .ok e')
    (hr : compiled ∈ rules) (hfs : ∀ f ∈ fs, f ∈ e.base.facts)
    (hj : joined [] compiled.body fs = some bind) (hk : ∃ f ∈ fs, f.factKey ∈ keys) :
    Visited C s e e' compiled fs bind := by
  obtain ⟨u,v,hu,huv,hv⟩ := Runs.foldlM_visits (R := Saturates C s False) (fun _ => .refl) .trans
    (fun _ _ _ hr h => apply_grows (hrules hr) h) h hr
  exact (apply_visits (hrules hr) huv (fun f hf => hu.le.facts (hfs f hf)) hj hk).extend
    hu.taken hv.taken

theorem begin_grows (e : Engine D) (n : ℕ) : Saturates C s True e {e with iterations := n} := by
  have h : Grows C True (Observes s) e _ := .note .refl n e.fixpointSteps false e.capDetail
  simpa using h

theorem roundsIn_zero {f : Fact D} {delta : List (Fact D)} :
    roundsIn C s rules 0 (f::delta) e = .ok (recordCap {e with iterations := e.iterations+1}
      ("MAX_ITERATIONS="++toString C.maxIterations++" reached")) := rfl

theorem roundsIn_succ {left : ℕ} {f : Fact D} {delta : List (Fact D)} :
    roundsIn C s rules (left+1) (f::delta) e = .ok e' ↔ ∃ u,
      rules.foldlM (apply C s ((f::delta).map (·.factKey)))
        {e with iterations := e.iterations+1} = .ok u ∧
      roundsIn C s rules left u.takeDelta.1 u.takeDelta.2 = .ok e' := by
  show (_ >>= _) = _ ↔ _
  exact Runs.bind_ok

theorem roundsIn_grows (hrules : rules ⊆ s.table.detectRules) {left : ℕ} {delta : List (Fact D)}
    (h : roundsIn C s rules left delta e = .ok e') : Saturates C s True e e' := by
  induction left generalizing delta e with
  | zero =>
    cases delta with
    | nil => exact Except.ok.inj h ▸ .refl
    | cons f fs =>
      rw [roundsIn_zero] at h
      have hn : Grows C True (Observes s) e _ := .note .refl (e.iterations+1) e.fixpointSteps true
        (if e.capDetail = "" then "MAX_ITERATIONS="++toString C.maxIterations++" reached"
          else e.capDetail)
      rw [Bool.or_true] at hn
      exact Except.ok.inj h ▸ hn
  | succ left ih =>
    cases delta with
    | nil => exact Except.ok.inj h ▸ .refl
    | cons f fs =>
      obtain ⟨u,hu,h⟩ := roundsIn_succ.mp h
      exact (begin_grows e _).trans ((round_grows hrules hu).taken.trans
        ((Grows.take .refl trivial).trans (ih h)))

/-- When no ceiling stops the rounds, every combination over the final base with a fact of
the delta was visited; `P` holds of the combinations without one. -/
theorem roundsIn_visit (hrules : rules ⊆ s.table.detectRules) {left : ℕ} {delta : List (Fact D)}
    {P : CompiledRule → List (Fact D) → Bind → Prop}
    (h : roundsIn C s rules left delta e = .ok e') (hd : e.delta = []) (hc : e'.capped = false)
    (hpast : ∀ {compiled fs bind}, compiled ∈ rules → (∀ f ∈ fs, f ∈ e.base.facts) →
      joined [] compiled.body fs = some bind → (∀ f ∈ fs, f ∉ delta) → P compiled fs bind)
    (hr : compiled ∈ rules) (hfs : ∀ f ∈ fs, f ∈ e'.base.facts)
    (hj : joined [] compiled.body fs = some bind) :
    P compiled fs bind ∨ Visited C s e e' compiled fs bind := by
  induction left generalizing delta e P with
  | zero =>
    cases delta with
    | nil => cases h; exact .inl (hpast hr hfs hj (by simp))
    | cons f' fs' =>
      rw [roundsIn_zero] at h
      cases h
      cases hc
  | succ left ih =>
    cases delta with
    | nil => cases h; exact .inl (hpast hr hfs hj (by simp))
    | cons f' fs' =>
      obtain ⟨u,hu,h⟩ := roundsIn_succ.mp h
      have hround := round_grows hrules hu
      have hrest := roundsIn_grows hrules h
      have key := ih (e := u.takeDelta.2) (P := fun compiled fs bind =>
        P compiled fs bind ∨ Visited C s e u compiled fs bind) h rfl ?_
      · rcases key with (hp | hv) | hv
        · exact .inl hp
        · exact .inr (hv.extend .refl ((Grows.take .refl trivial).trans hrest))
        · exact .inr (hv.extend ((begin_grows e _).trans (hround.taken.trans
            (Grows.take .refl trivial))) .refl)
      intro compiled fs bind hr hfs hj hn
      -- a fact that is not in the new delta was there when the round began
      have hold : ∀ f ∈ fs, f ∈ e.base.facts := by
        intro f hf
        rcases hround.delta_of (hfs f hf) with hold | hnew
        · exact hold
        · exact absurd ((List.mem_insertionSort _).mpr hnew) (hn f hf)
      by_cases hk : ∀ f ∈ fs, f ∉ f'::fs'
      · exact .inl (hpast hr hold hj hk)
      · push Not at hk
        obtain ⟨f,hf,hmem⟩ := hk
        refine .inr ((round_visits hrules hu hr hold hj ⟨f,hf,List.mem_map_of_mem hmem⟩).extend
          (begin_grows e _) .refl)

theorem saturateIn_grows (hrules : rules ⊆ s.table.detectRules)
    (h : saturateIn C s rules e = .ok e') : Saturates C s True e.openRound e' :=
  (Grows.take .refl trivial).trans (roundsIn_grows hrules h)

/-- The combinations a saturation does not visit are those it was given no new fact for. -/
theorem saturateIn_visits (hrules : rules ⊆ s.table.detectRules)
    (h : saturateIn C s rules e = .ok e') (hc : e'.capped = false)
    (hr : compiled ∈ rules) (hfs : ∀ f ∈ fs, f ∈ e'.base.facts)
    (hj : joined [] compiled.body fs = some bind) :
    (∀ f ∈ fs, f ∈ e.base.facts ∧ f ∉ e.delta) ∨ Visited C s e.openRound e' compiled fs bind := by
  have key := roundsIn_visit (P := fun _ fs _ => ∀ f ∈ fs, f ∈ e.base.facts ∧ f ∉ e.delta)
    hrules h rfl hc
    (fun _ hfs _ hn f hf => ⟨hfs f hf,fun hd => hn f hf ((List.mem_insertionSort _).mpr hd)⟩)
    hr hfs hj
  exact key.imp id fun hv => hv.extend (Grows.take .refl trivial) .refl

theorem saturate_grows (h : saturate C s e = .ok e') : Saturates C s True e.openRound e' :=
  saturateIn_grows (fun _ hr => hr) (saturate_eq ▸ h)

/-! ### Seeding -/

/-- A state that holds the facts of the records `R` and nothing else; `R` pairs a fact with
a record it was entered for. -/
structure Seeded (R : Fact D → CanonicalEvent → Prop) (e : Engine D) : Prop where
  instances : e.instances = []
  licensed : e.licensedFacts = []
  span : e.licensedSpan = []
  timeFree : e.timeFreeSnapshot = []
  delta : e.base.facts ⊆ e.delta
  origin : ∀ f ∈ e.base.facts, ∃ ev, R f ev
  axioms : ∀ k, k ∈ e.axioms ↔ ∃ f ev, R f ev ∧ f.factKey = k
  records : ∀ k, e.eventsOf k ≠ [] ↔ k ∈ e.axioms
  base : e.capped = false → ∀ f ev, R f ev → f ∈ e.base.facts

theorem empty_seeded : Seeded (fun (_ : Fact D) _ => False) empty :=
  ⟨rfl,rfl,rfl,rfl,fun _ h => h,by simp [empty,FactBase.empty],by simp [empty],
    by simp [empty,Engine.eventsOf],by simp⟩

theorem Seeded.congr {R R' : Fact D → CanonicalEvent → Prop} (h : Seeded R e)
    (hR : ∀ f ev, R f ev ↔ R' f ev) : Seeded R' e := by
  have : R = R' := by funext f ev; exact propext (hR f ev)
  exact this ▸ h

theorem eventsOf_set (e : Engine D) (k k' : FactHash) (ev : CanonicalEvent) :
    (Dict.get? (Dict.set e.axiomEvents k ((Dict.get? e.axiomEvents k).getD []++[ev])) k').getD [] =
      if k = k' then e.eventsOf k++[ev] else e.eventsOf k' := by
  rw [Dict.get?_set]
  split <;> rfl

theorem addFact_spec (C : Ceilings) (e : Engine D) (f : Fact D) : ∃ b d c t,
    (e.addFact C f).1 = {e with base := b, delta := d, capped := c, capDetail := t} ∧
    (∀ g ∈ b.facts, g ∈ e.base.facts ∨ g = f ∧ f ∈ d) ∧ e.delta ⊆ d ∧
    (c = false → e.capped = false ∧ e.base.facts ⊆ b.facts ∧ f ∈ b.facts) := by
  rcases addFact_cases C e f with ⟨hf,he⟩ | ⟨t,he⟩ | ⟨hf,he⟩
  · exact ⟨e.base,e.delta,e.capped,e.capDetail,he,fun _ => .inl,fun _ h => h,
      fun hc => ⟨hc,fun _ h => h,hf⟩⟩
  · exact ⟨e.base,e.delta,true,t,he,fun _ => .inl,fun _ h => h,fun hc => by cases hc⟩
  · refine ⟨_,_,e.capped,e.capDetail,he,fun g hg => ?_,fun _ => List.mem_append_left _,
      fun hc => ⟨hc,fun g hg => (mem_insert hf).mpr (.inl hg),(mem_insert hf).mpr (.inr rfl)⟩⟩
    exact ((mem_insert hf).mp hg).imp id fun h => ⟨h,by simp⟩

theorem seedFact_seeded {R : Fact D → CanonicalEvent → Prop} (h : Seeded R e) (f : Fact D)
    (ev : CanonicalEvent) :
    Seeded (fun g ev' => R g ev' ∨ g = f ∧ ev' = ev) (e.seedFact C f ev) := by
  have hax : ∀ k, k ∈ adjoin f.factKey e.axioms ↔
      ∃ g ev', (R g ev' ∨ g = f ∧ ev' = ev) ∧ g.factKey = k := by
    intro k
    rw [mem_adjoin,h.axioms]
    constructor
    · rintro (rfl | ⟨g,ev',hg,rfl⟩)
      · exact ⟨f,ev,.inr ⟨rfl,rfl⟩,rfl⟩
      · exact ⟨g,ev',.inl hg,rfl⟩
    · rintro ⟨g,ev',hg | ⟨rfl,rfl⟩,rfl⟩
      · exact .inr ⟨g,ev',hg,rfl⟩
      · exact .inl rfl
  have hrec : ∀ k, (if f.factKey = k then e.eventsOf f.factKey++[ev] else e.eventsOf k) ≠ [] ↔
      k ∈ adjoin f.factKey e.axioms := by
    intro k
    rw [mem_adjoin]
    split
    · rename_i hk; simp [hk]
    · rename_i hk; simp [Ne.symm hk,h.records]
  obtain ⟨b,d,c,t,he,hfacts,hd,hc⟩ := addFact_spec C e f
  have hevents : ∀ k, (e.seedFact C f ev).eventsOf k =
      if f.factKey = k then e.eventsOf f.factKey++[ev] else e.eventsOf k := by
    intro k
    rw [← eventsOf_set,seedFact,he]
    rfl
  refine ⟨?_,?_,?_,?_,?_,?_,?_,fun k => ?_,?_⟩
  · simpa [seedFact,he] using h.instances
  · simpa [seedFact,he] using h.licensed
  · simpa [seedFact,he] using h.span
  · simpa [seedFact,he] using h.timeFree
  · simp only [seedFact,he]
    exact fun g hg => (hfacts g hg).elim (fun hg => hd (h.delta hg)) fun hg => hg.1 ▸ hg.2
  · simp only [seedFact,he]
    intro g hg
    rcases hfacts g hg with hg | ⟨rfl,-⟩
    · exact (h.origin g hg).imp fun _ => .inl
    · exact ⟨ev,.inr ⟨rfl,rfl⟩⟩
  · simpa only [seedFact,he] using hax
  · rw [hevents]
    simpa only [seedFact,he] using hrec k
  · simp only [seedFact,he]
    rintro hcap g ev' (hg | ⟨rfl,-⟩)
    · exact (hc hcap).2.1 (h.base (hc hcap).1 g ev' hg)
    · exact (hc hcap).2.2

/-- The fact a bundle record seeds. -/
def Recorded (s : Setup) (f : Fact D) (ev : CanonicalEvent) : Prop :=
  ev ∈ s.events ∧ axiomFactFor D ev (s.roles ev.eventId) = .ok f

theorem seedLoop_seeded {R : Fact D → CanonicalEvent → Prop} {evs : List CanonicalEvent}
    (he : Seeded R e) (h : evs.foldlM (fun e event => do
      let fact ← axiomFactFor D event (s.roles event.eventId)
      pure (e.seedFact C fact event)) e = .ok e') :
    Seeded (fun f ev => R f ev ∨ ev ∈ evs ∧ axiomFactFor D ev (s.roles ev.eventId) = .ok f) e' := by
  induction evs generalizing e R with
  | nil => cases h; exact he.congr (by simp)
  | cons ev evs ih =>
    obtain ⟨u,hu,h⟩ := Runs.foldlM_cons_ok.mp h
    obtain ⟨f,hf,hu⟩ := Runs.bind_ok.mp hu
    cases hu
    refine (ih (seedFact_seeded he f ev) h).congr fun g ev' => ?_
    constructor
    · rintro ((hg | ⟨rfl,rfl⟩) | ⟨hm,hg⟩)
      · exact .inl hg
      · exact .inr ⟨by simp,hf⟩
      · exact .inr ⟨by simp [hm],hg⟩
    · rintro (hg | ⟨hm,hg⟩)
      · exact .inl (.inl hg)
      · rcases List.mem_cons.mp hm with rfl | hm
        · exact .inl (.inr ⟨Except.ok.inj (hg.symm.trans hf),rfl⟩)
        · exact .inr ⟨hm,hg⟩

theorem sortAxiomEvents_eventsOf (e : Engine D) (k : FactHash) :
    e.sortAxiomEvents.eventsOf k = (e.eventsOf k).insertionSort (·.sortKey ≤ ·.sortKey) := by
  unfold Engine.eventsOf sortAxiomEvents
  simp only [Dict.get?_map]
  cases Dict.get? e.axiomEvents k <;> rfl

theorem seed_seeded (h : empty.seed C s = .ok e) : Seeded (Recorded (D := D) s) e := by
  obtain ⟨u,hu,h⟩ := Runs.bind_ok.mp h
  cases h
  have hs := (seedLoop_seeded empty_seeded hu).congr fun f ev => show _ ↔ Recorded s f ev by
    rw [Recorded,Setup.sortedEvents,List.mem_insertionSort]
    exact ⟨fun h => h.elim False.elim id,.inr⟩
  refine ⟨hs.instances,hs.licensed,hs.span,hs.timeFree,hs.delta,hs.origin,hs.axioms,fun k => ?_,hs.base⟩
  show _ ↔ k ∈ u.axioms
  rw [← hs.records,sortAxiomEvents_eventsOf]
  refine not_congr ?_
  rw [← List.length_eq_zero_iff,← List.length_eq_zero_iff,List.length_insertionSort]

end Engine

end Spectra
