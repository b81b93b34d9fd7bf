import Spectra.VertexCover

/-! With rule operators the corrections need not restore consistency: they look at the pairs a constraint
breaks directly, and a chain of constraints through freed timestamps can be broken too. -/
namespace Spectra
namespace Temporal

variable {events : List Event} {instances : List SeqInstance} {ruleSeq : List (String × SeqOperator)}
  {removed : Finset String}

/-! ### Chains of structural constraints -/

/-- The constraints no correction can remove. -/
def structural (events : List Event) (instances : List SeqInstance) (ruleSeq : List (String × SeqOperator)) :
    List (Difference.Bound String) :=
  ((buildConstraints events instances ruleSeq).filter (·.kind ≠ .pin)).map (·.toBound)

theorem mem_structural {b : Difference.Bound String} : b ∈ structural events instances ruleSeq ↔
    ∃ c ∈ buildConstraints events instances ruleSeq, c.kind ≠ .pin ∧ c.toBound = b := by
  simp only [structural,List.mem_map,List.mem_filter,decide_eq_true_eq,and_assoc]

/-- The evidence of the instances names `EventId`s. -/
def EvidenceIds (instances : List SeqInstance) : Prop :=
  ∀ i ∈ instances, ∀ ref ∈ i.evidence, Checker.hasPrefix "ev:" ref.2 = true

instance (instances : List SeqInstance) : Decidable (EvidenceIds instances) :=
  inferInstanceAs (Decidable (∀ i ∈ instances, ∀ ref ∈ i.evidence, _))

theorem ruleBounds_nodes (hev : EvidenceIds instances) {i : SeqInstance} (hi : i ∈ instances) {c : Constraint}
    (h : c ∈ ruleBounds ruleSeq i) : c.u ≠ zeroNode ∧ c.v ≠ zeroNode := by
  have hnode : ∀ slot node, Dict.get? (i.evidence.foldl (fun d ref => Dict.set d ref.1 ref.2) []) slot = some node →
      node ≠ zeroNode := by
    rintro slot node hget rfl
    rcases Dict.get?_foldl_mem hget with hget | ⟨ref,href,-,hid⟩
    · cases hget
    · have := hev i hi ref href
      rw [hid] at this
      exact absurd this (by decide)
  unfold ruleBounds at h
  split at h
  · cases h
  · split at h
    · cases h
    · dsimp only at h
      split at h
      · rename_i left right hleft hright
        have hl := hnode _ _ hleft
        have hr := hnode _ _ hright
        rcases List.mem_cons.mp h with rfl | h
        · exact ⟨hl,hr⟩
        · rw [List.mem_singleton.mp h]
          exact ⟨hr,hl⟩
      · cases h

theorem structural_nodes (hev : EvidenceIds instances) {b : Difference.Bound String}
    (h : b ∈ structural events instances ruleSeq) : b.u ≠ zeroNode ∧ b.v ≠ zeroNode := by
  obtain ⟨c,hc,hk,rfl⟩ := mem_structural.mp h
  rcases mem_buildConstraints.mp hc with ⟨e,-,hp⟩ | ⟨p,-,hp⟩ | ⟨i,hi,hp⟩
  · rcases mem_pins.mp hp with rfl | rfl <;> exact absurd rfl hk
  · obtain ⟨-,previous,-,following,-,hu,hv⟩ := neighbours_structural hp
    exact ⟨hu ▸ following.ne_zeroNode,hv ▸ previous.ne_zeroNode⟩
  · exact ruleBounds_nodes hev hi hp

/-- No chain of structural constraints between two timestamps that are believed is broken by them. -/
def Unbroken (events : List Event) (instances : List SeqInstance) (ruleSeq : List (String × SeqOperator))
    (disbelieved : Event → Prop) : Prop :=
  ∀ d ∈ events, ∀ e ∈ events, ¬disbelieved d → ¬disbelieved e → ∀ w,
    Difference.Walk (structural events instances ruleSeq) d.eventId e.eventId w → e.tEvtNs-d.tEvtNs ≤ w

/-- What is left is feasible exactly when no chain between two believed timestamps is broken. -/
theorem feasible_iff_unbroken (hn : Distinct events) (hev : EvidenceIds instances)
    (hsat : ∃ t, Difference.Satisfies t (structural events instances ruleSeq)) (times : List (String × ℤ)) :
    feasible (buildConstraints events instances ruleSeq) times removed = true ↔
      Unbroken events instances ruleSeq (·.eventId ∈ removed) := by
  rw [feasible_iff]
  constructor
  · rintro ⟨t,ht⟩ d hd e he hdr her w hw
    have hstructural : Difference.Satisfies t (structural events instances ruleSeq) := by
      intro b hb
      obtain ⟨c,hc,hk,rfl⟩ := mem_structural.mp hb
      exact ht c hc fun hp => hk hp.1
    have := hstructural.walk hw
    rw [ht.pinned hd hdr,ht.pinned he her] at this
    omega
  · intro h
    obtain ⟨s,hs⟩ := hsat
    have hpinned : ∀ id, id ∈ ((events.filter (·.eventId ∉ removed)).map (·.eventId)).toFinset ↔
        ∃ e ∈ events, e.eventId ∉ removed ∧ e.eventId = id := fun id => by
      simp only [List.mem_toFinset,List.mem_map,List.mem_filter,decide_eq_true_eq,and_assoc]
    obtain ⟨t,ht,hp⟩ := @Difference.exists_extension _ _ s hs (recorded events)
      ((events.filter (·.eventId ∉ removed)).map (·.eventId)).toFinset fun a ha c hc w hw => by
        obtain ⟨d,hd,hdr,rfl⟩ := (hpinned a).mp ha
        obtain ⟨e,he,her,rfl⟩ := (hpinned c).mp hc
        rw [recorded_event hn hd,recorded_event hn he]
        exact h d hd e he hdr her w hw
    -- the zero node is in no structural constraint, so it can be put at zero
    refine ⟨Function.update t zeroNode 0,fun c hc hkept => ?_⟩
    by_cases hk : c.kind = .pin
    · rcases mem_buildConstraints.mp hc with ⟨e,he,hpin⟩ | ⟨p,-,hpin⟩ | ⟨i,-,hpin⟩
      · have her : e.eventId ∉ removed := fun hr => hkept (by
          rcases mem_pins.mp hpin with rfl | rfl <;> exact ⟨rfl,_,hr,rfl⟩)
        have hval : t e.eventId = e.tEvtNs :=
          (hp _ ((hpinned _).mpr ⟨e,he,her,rfl⟩)).trans (recorded_event hn he)
        have hne := e.ne_zeroNode
        rcases mem_pins.mp hpin with rfl | rfl <;> simp [hne,hval]
      · rw [(neighbours_structural hpin).1] at hk
        cases hk
      · rw [ruleBounds_structural hpin] at hk
        cases hk
    · have hb : c.toBound ∈ structural events instances ruleSeq := mem_structural.mpr ⟨c,hc,hk,rfl⟩
      obtain ⟨hu,hv⟩ := structural_nodes hev hb
      rw [Function.update_of_ne hu,Function.update_of_ne hv]
      exact ht _ hb

/-! ### What the pass corrects -/

/-- What the recorded timestamps contradict in the rule operators. -/
def ruleViolations (events : List Event) (instances : List SeqInstance)
    (ruleSeq : List (String × SeqOperator)) : List Violation :=
  (findViolations (buildConstraints events instances ruleSeq) (timesOf events)).filter
    (·.constraint.kind ≠ .seqMonotonic)

/-- The pairs a rule operator breaks directly and that no correction of a source is in. -/
def rulePairs (events : List Event) (instances : List SeqInstance) (ruleSeq : List (String × SeqOperator)) :
    List (String × String) :=
  uncorrected (ruleViolations events instances ruleSeq) (monotonicCorrections events)

/-- The pass disbelieves what its sources need and a cover of the pairs that are left. -/
theorem mem_correctionSet {cap : ℤ} {cover : List String}
    (hc : CoverFor cap (rulePairs events instances ruleSeq) cover) {id : String} :
    id ∈ (runPass events instances ruleSeq cap).correctionSet ↔
      id ∈ monotonicCorrections events ∨ id ∈ cover := by
  have hset : (runPass events instances ruleSeq cap).correctionSet =
      (monotonicCorrections events++(correctionSet (ruleViolations events instances ruleSeq) cap
        (monotonicCorrections events)).1).dedup.insertionSort (· ≤ ·) := rfl
  rw [hset,List.mem_insertionSort,List.mem_dedup,List.mem_append,mem_cover hc]

/-- Disbelieving what the pass returns leaves a feasible system, and no budget is reported exhausted. -/
structure Restored (events : List Event) (instances : List SeqInstance) (ruleSeq : List (String × SeqOperator))
    (cap : ℤ) : Prop where
  feasible : feasible (runPass events instances ruleSeq cap).constraints (timesOf events)
    (runPass events instances ruleSeq cap).correctionSet.toFinset = true
  inBudget : (runPass events instances ruleSeq cap).budgetExhausted = false

theorem restored_iff_feasible {cap : ℤ} : Restored events instances ruleSeq cap ↔
    feasible (buildConstraints events instances ruleSeq) (timesOf events)
      (runPass events instances ruleSeq cap).correctionSet.toFinset = true := by
  refine ⟨fun h => h.feasible,fun h => ⟨h,?_⟩⟩
  have hexhausted : (runPass events instances ruleSeq cap).budgetExhausted =
      ((runPass events instances ruleSeq cap).correctionSet ≠ [] &&
        !feasible (buildConstraints events instances ruleSeq) (timesOf events)
          (runPass events instances ruleSeq cap).correctionSet.toFinset) := rfl
  rw [hexhausted,h,Bool.not_true,Bool.and_false]

/-! ### Chains that only break along the way -/

/-- Two records out of the order of their source, or in a pair that a rule operator breaks. -/
def BrokenDirectly (events : List Event) (instances : List SeqInstance) (ruleSeq : List (String × SeqOperator))
    (d e : Event) : Prop :=
  d.sourceId = e.sourceId ∧ e.seqKey ≤ d.seqKey ∧ d.tEvtNs < e.tEvtNs ∨
    ∃ v ∈ ruleViolations events instances ruleSeq,
      v.events = (d.eventId,e.eventId) ∨ v.events = (e.eventId,d.eventId)

/-- Two timestamps that a chain of constraints contradicts are contradicted by one constraint. -/
def NoHiddenChain (events : List Event) (instances : List SeqInstance)
    (ruleSeq : List (String × SeqOperator)) : Prop :=
  ∀ d ∈ events, ∀ e ∈ events, ∀ w,
    Difference.Walk (structural events instances ruleSeq) d.eventId e.eventId w → w < e.tEvtNs-d.tEvtNs →
      BrokenDirectly events instances ruleSeq d e

theorem NoHiddenChain.unbroken (h : NoHiddenChain events instances ruleSeq) (hn : Distinct events) {cap : ℤ} :
    Unbroken events instances ruleSeq (·.eventId ∈ (runPass events instances ruleSeq cap).correctionSet.toFinset) := by
  have hmem : ∀ id, id ∈ (runPass events instances ruleSeq cap).correctionSet.toFinset ↔
      id ∈ monotonicCorrections events ∨ id ∈ (correctionSet (ruleViolations events instances ruleSeq) cap
        (monotonicCorrections events)).1 := fun id => by
    obtain ⟨cover,hcover⟩ := exists_cover cap (rulePairs events instances ruleSeq)
    rw [List.mem_toFinset,mem_correctionSet hcover,mem_cover hcover]
  intro d hd e he hdr her w hw
  simp only [hmem,not_or] at hdr her
  by_contra hbroken
  rcases h d hd e he w hw (by omega) with ⟨hsource,hkey,hlt⟩ | ⟨v,hv,hpair⟩
  · have := monotonicCorrections_inOrder hn e he d hd hsource.symm hkey
      (by simpa using her.1) (by simpa using hdr.1)
    omega
  · have htouch := (correction_set_cover (ruleViolations events instances ruleSeq) cap
      (monotonicCorrections events)).1 v hv
    rw [touches_iff] at htouch
    simp only [List.mem_append] at htouch
    rcases hpair with hpair | hpair <;> rw [hpair] at htouch <;> tauto

/-- The corrections restore consistency exactly when no chain of constraints is broken by two timestamps that
neither the order of a source nor the cover of the pairs of the rules takes away. -/
theorem correction_restores_iff (hn : Distinct events) (hev : EvidenceIds instances)
    (hsat : ∃ t, Difference.Satisfies t (structural events instances ruleSeq)) {cap : ℤ} {cover : List String}
    (hcover : CoverFor cap (rulePairs events instances ruleSeq) cover) :
    (Restored events instances ruleSeq cap ↔ Unbroken events instances ruleSeq fun e =>
      e.eventId ∈ monotonicCorrections events ∨ e.eventId ∈ cover) ∧
    (NoHiddenChain events instances ruleSeq → Restored events instances ruleSeq cap) := by
  have hfeasible : Restored events instances ruleSeq cap ↔ Unbroken events instances ruleSeq
      (·.eventId ∈ (runPass events instances ruleSeq cap).correctionSet.toFinset) :=
    restored_iff_feasible.trans (feasible_iff_unbroken hn hev hsat (timesOf events))
  refine ⟨?_,fun h => hfeasible.mpr (h.unbroken hn)⟩
  rw [hfeasible]
  simp only [Unbroken,List.mem_toFinset,mem_correctionSet hcover]

/-- Three records of three sources, each far later than the one before it. -/
def farApart : List Event := [⟨"ev:a","iam",0,0,opens_a⟩,⟨"ev:b","edr",0,100,opens_b⟩,
  ⟨"ev:c","vpn",0,200,opens_c⟩]

/-- Each is to follow the one before it within fifty nanoseconds. -/
def closeSteps : List (String × SeqOperator) := [("rl:r0001",⟨"seq","x","y",50⟩)]

def farInstances : List SeqInstance := [⟨"rl:r0001",[("x","ev:a"),("y","ev:b")]⟩,
  ⟨"rl:r0001",[("x","ev:b"),("y","ev:c")]⟩]

def closeTogether (node : String) : ℤ := if node = "ev:a" then 0 else if node = "ev:b" then 1 else 2

theorem closeTogether_satisfies :
    Difference.Satisfies closeTogether (structural farApart farInstances closeSteps) := by decide

theorem correction_restores_iff_farApart : ∃ cover,
    CoverFor 0 (rulePairs farApart farInstances closeSteps) cover ∧
    (Restored farApart farInstances closeSteps 0 ↔ Unbroken farApart farInstances closeSteps fun e =>
      e.eventId ∈ monotonicCorrections farApart ∨ e.eventId ∈ cover) ∧
    (NoHiddenChain farApart farInstances closeSteps → Restored farApart farInstances closeSteps 0) := by
  obtain ⟨cover,hcover⟩ := exists_cover 0 (rulePairs farApart farInstances closeSteps)
  exact ⟨cover,hcover,correction_restores_iff (by decide) (by decide) ⟨closeTogether,closeTogether_satisfies⟩ hcover⟩

/-- Freeing the record in the middle leaves the outer two too far apart. -/
theorem correction_not_restored : ¬∀ (events : List Event) (instances : List SeqInstance)
    (ruleSeq : List (String × SeqOperator)) (cap : ℤ), Distinct events →
      (∃ t, Difference.Satisfies t (structural events instances ruleSeq)) →
        Restored events instances ruleSeq cap := by
  intro h
  have hrestored := h farApart farInstances closeSteps 8 (by decide) ⟨closeTogether,closeTogether_satisfies⟩
  exact absurd hrestored.inBudget (by decide)

end Temporal
end Spectra
