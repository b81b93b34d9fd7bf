import Spectra.Temporal

/-! The temporal pass decides what it is asked: relaxation decides the constraints that are kept, and
one scan of the recorded timestamps decides all of them. -/
namespace Spectra
namespace Temporal

variable {events : List Event} {instances : List SeqInstance} {ruleSeq : List (String × SeqOperator)}
  {constraints : List Constraint} {times : List (String × ℤ)} {removed : Finset String}

/-! ### Relaxation -/

/-- An assignment of instants to the nodes that every kept constraint allows. -/
def Satisfies (t : String → ℤ) (constraints : List Constraint) (removed : Finset String) : Prop :=
  ∀ c ∈ constraints, ¬(c.kind = .pin ∧ ∃ eventId ∈ removed, c.eventId = some eventId) →
    t c.v-t c.u ≤ c.weight

theorem satisfies_kept {t : String → ℤ} : Difference.Satisfies t ((kept constraints removed).map (·.toBound)) ↔
    Satisfies t constraints removed := by
  simp only [Difference.Satisfies,List.forall_mem_map,kept,List.mem_filter,decide_eq_true_eq,and_imp]
  rfl

/-- The rounds of `feasible` decide whether some assignment satisfies every kept constraint. -/
theorem feasible_iff (constraints : List Constraint) (times : List (String × ℤ)) (removed : Finset String) :
    feasible constraints times removed = true ↔ ∃ t, Satisfies t constraints removed := by
  have hmin : ∀ n : ℕ, min n (budgetFactor*max n 1) = n := fun n => by
    unfold budgetFactor
    omega
  unfold feasible
  dsimp only
  rw [hmin]
  simp only [← satisfies_kept]
  have hamong : Difference.Among ((kept constraints removed).map (·.u)++
      (kept constraints removed).map (·.v)++[zeroNode]).toFinset
      ((kept constraints removed).map (·.toBound)) := by
    intro b hb
    obtain ⟨c,hc,rfl⟩ := List.mem_map.mp hb
    simp only [List.mem_toFinset,List.mem_append,List.mem_map]
    exact ⟨.inl (.inl ⟨c,hc,rfl⟩),.inl (.inr ⟨c,hc,rfl⟩)⟩
  exact Difference.settles_iff hamong (List.card_toFinset _).le

/-! ### The constraints that are built -/

theorem mem_buildConstraints {c : Constraint} : c ∈ buildConstraints events instances ruleSeq ↔
    (∃ e ∈ events, c ∈ pins e) ∨ (∃ p ∈ Groups.gather (·.sourceId) events, c ∈ neighbours p.1 p.2) ∨
      ∃ i ∈ instances, c ∈ ruleBounds ruleSeq i := by
  simp [buildConstraints]

theorem mem_pins {c : Constraint} {e : Event} : c ∈ pins e ↔
    c = ⟨⟨zeroNode,e.eventId,e.tEvtNs⟩,.pin,"recorded timestamp, upper",some e.eventId⟩ ∨
    c = ⟨⟨e.eventId,zeroNode,-e.tEvtNs⟩,.pin,"recorded timestamp, lower",some e.eventId⟩ := by
  simp [pins]

/-- No event is the zero node. -/
theorem Event.ne_zeroNode (e : Event) : e.eventId ≠ zeroNode := by
  intro h
  have ho := e.opens
  rw [h] at ho
  exact absurd ho (by decide)

theorem neighbours_structural {sourceId : String} {records : List Event} {c : Constraint}
    (h : c ∈ neighbours sourceId records) : c.kind = .seqMonotonic ∧
      ∃ previous ∈ records, ∃ following ∈ records, c.u = following.eventId ∧ c.v = previous.eventId := by
  obtain ⟨⟨previous,following⟩,hp,rfl⟩ := List.mem_map.mp h
  obtain ⟨hprevious,hfollowing⟩ := List.of_mem_zip hp
  have hmem : ∀ e, e ∈ seqOrdered records → e ∈ records := fun e he => (List.mem_insertionSort _).mp he
  exact ⟨rfl,previous,hmem _ hprevious,following,hmem _ (List.mem_of_mem_tail hfollowing),rfl,rfl⟩

theorem ruleBounds_structural {i : SeqInstance} {c : Constraint} (h : c ∈ ruleBounds ruleSeq i) :
    c.kind = .ruleSeq := by
  unfold ruleBounds at h
  split at h
  · cases h
  · split at h
    · cases h
    · dsimp only at h
      split at h
      · rcases List.mem_cons.mp h with rfl | h
        · rfl
        · rw [List.mem_singleton.mp h]
      · cases h

/-- The events the operators relate are among the given ones. -/
def BoundAmong (events : List Event) (instances : List SeqInstance)
    (ruleSeq : List (String × SeqOperator)) : Prop :=
  ∀ i ∈ instances, ∀ c ∈ ruleBounds ruleSeq i,
    c.u ∈ events.map (·.eventId) ∧ c.v ∈ events.map (·.eventId)

instance (events : List Event) (instances : List SeqInstance) (ruleSeq : List (String × SeqOperator)) :
    Decidable (BoundAmong events instances ruleSeq) :=
  inferInstanceAs (Decidable (∀ i ∈ instances, ∀ c ∈ ruleBounds ruleSeq i, _))

/-- A constraint that is built is a pin of an event or relates two events. -/
theorem built_cases (hb : BoundAmong events instances ruleSeq) {c : Constraint}
    (h : c ∈ buildConstraints events instances ruleSeq) :
    (c.kind = .pin ∧ ∃ e ∈ events, c ∈ pins e) ∨ (c.kind ≠ .pin ∧
      ∃ d ∈ events, ∃ e ∈ events, c.u = d.eventId ∧ c.v = e.eventId) := by
  rcases mem_buildConstraints.mp h with ⟨e,he,hc⟩ | ⟨⟨source,group⟩,hp,hc⟩ | ⟨i,hi,hc⟩
  · refine .inl ⟨?_,e,he,hc⟩
    rcases mem_pins.mp hc with rfl | rfl <;> rfl
  · obtain ⟨hkind,previous,hprevious,following,hfollowing,hu,hv⟩ := neighbours_structural hc
    obtain ⟨-,rfl⟩ := Groups.mem_gather.mp hp
    refine .inr ⟨by rw [hkind]; decide,following,(List.mem_filter.mp hfollowing).1,previous,
      (List.mem_filter.mp hprevious).1,hu,hv⟩
  · obtain ⟨hu,hv⟩ := hb i hi c hc
    obtain ⟨d,hd,hdu⟩ := List.mem_map.mp hu
    obtain ⟨e,he,hev⟩ := List.mem_map.mp hv
    exact .inr ⟨by rw [ruleBounds_structural hc]; decide,d,hd,e,he,hdu.symm,hev.symm⟩

/-! ### One scan -/

theorem get?_timesOf (hn : (events.map (·.eventId)).Nodup) {e : Event} (he : e ∈ events) :
    Dict.get? (timesOf events) e.eventId = some e.tEvtNs := by
  have hfresh : timesOf events = events.map fun e => (e.eventId,e.tEvtNs) := by
    unfold timesOf
    rw [Dict.foldl_set_fresh (f := fun e : Event => e.eventId) (v := fun e : Event => e.tEvtNs)
      (by simpa using hn)]
    rfl
  rw [hfresh]
  refine Dict.get?_of_mem ?_ (List.mem_map_of_mem he)
  rwa [List.map_map]

theorem notePin_keeps {st : PinIndex} (c : Constraint) {eventId : String} :
    ((Dict.get? st.1 eventId).isSome → (Dict.get? (notePin st c).1 eventId).isSome) ∧
      ((Dict.get? st.2 eventId).isSome → (Dict.get? (notePin st c).2 eventId).isSome) := by
  have hset : ∀ (d : List (String × Constraint)) (k : String) (c : Constraint),
      (Dict.get? d eventId).isSome → (Dict.get? (Dict.set d k c) eventId).isSome := fun d k c h => by
    rw [Dict.get?_set]
    split
    · rfl
    · exact h
  unfold notePin
  split
  · split
    · exact ⟨hset _ _ _,id⟩
    · exact ⟨id,hset _ _ _⟩
  · exact ⟨id,id⟩

theorem notePin_notes {st : PinIndex} {c : Constraint} (hk : c.kind = .pin) {eventId : String}
    (he : c.eventId = some eventId) :
    (c.v = zeroNode → (Dict.get? (notePin st c).1 eventId).isSome) ∧
      (c.v ≠ zeroNode → (Dict.get? (notePin st c).2 eventId).isSome) := by
  unfold notePin
  rw [hk,he]
  dsimp only
  by_cases hv : c.v = zeroNode
  · rw [if_pos hv]
    exact ⟨fun _ => by simp,fun h => absurd hv h⟩
  · rw [if_neg hv]
    exact ⟨fun h => absurd h hv,fun _ => by simp⟩

theorem foldl_notePin_keeps {st : PinIndex} (constraints : List Constraint) {eventId : String} :
    ((Dict.get? st.1 eventId).isSome → (Dict.get? (constraints.foldl notePin st).1 eventId).isSome) ∧
      ((Dict.get? st.2 eventId).isSome → (Dict.get? (constraints.foldl notePin st).2 eventId).isSome) := by
  induction constraints generalizing st with
  | nil => exact ⟨id,id⟩
  | cons c constraints ih =>
    obtain ⟨hlow,hhigh⟩ := @notePin_keeps st c eventId
    exact ⟨fun h => ih.1 (hlow h),fun h => ih.2 (hhigh h)⟩

/-- Every pin is found again under its event. -/
theorem pinsByEvent_isSome {c : Constraint} (hc : c ∈ constraints) (hk : c.kind = .pin) {eventId : String}
    (he : c.eventId = some eventId) :
    (c.v = zeroNode → (Dict.get? (pinsByEvent constraints).1 eventId).isSome) ∧
      (c.v ≠ zeroNode → (Dict.get? (pinsByEvent constraints).2 eventId).isSome) := by
  obtain ⟨before,after,rfl⟩ := List.append_of_mem hc
  obtain ⟨hlow,hhigh⟩ := @notePin_notes (before.foldl notePin ([],[])) c hk eventId he
  rw [pinsByEvent,List.foldl_append,List.foldl_cons]
  exact ⟨fun h => (foldl_notePin_keeps after).1 (hlow h),fun h => (foldl_notePin_keeps after).2 (hhigh h)⟩

/-- The pins of an event are in the constraints, and are found again. -/
theorem pinned {e : Event} (he : e ∈ events) :
    (∃ low, Dict.get? (pinsByEvent (buildConstraints events instances ruleSeq)).1 e.eventId = some low) ∧
      ∃ high, Dict.get? (pinsByEvent (buildConstraints events instances ruleSeq)).2 e.eventId = some high := by
  have hupper := (@mem_buildConstraints events instances ruleSeq _).mpr
    (.inl ⟨e,he,mem_pins.mpr (.inl rfl)⟩)
  have hlower := (@mem_buildConstraints events instances ruleSeq _).mpr
    (.inl ⟨e,he,mem_pins.mpr (.inr rfl)⟩)
  exact ⟨Option.isSome_iff_exists.mp ((pinsByEvent_isSome hlower rfl rfl).1 rfl),
    Option.isSome_iff_exists.mp ((pinsByEvent_isSome hupper rfl rfl).2 e.ne_zeroNode)⟩

/-- The recorded timestamps as an assignment. -/
def recorded (events : List Event) (node : String) : ℤ := (Dict.get? (timesOf events) node).getD 0

/-- The scan reports nothing exactly when the recorded timestamps keep every structural constraint. -/
theorem findViolations_eq_nil (hn : (events.map (·.eventId)).Nodup)
    (hb : BoundAmong events instances ruleSeq) :
    findViolations (buildConstraints events instances ruleSeq) (timesOf events) = [] ↔
      ∀ c ∈ buildConstraints events instances ruleSeq, c.kind ≠ .pin →
        recorded events c.v-recorded events c.u ≤ c.weight := by
  unfold findViolations
  dsimp only
  rw [List.filterMap_eq_nil_iff]
  refine forall₂_congr fun c hc => ?_
  rcases built_cases hb hc with ⟨hk,-⟩ | ⟨hk,d,hd,e,he,hu,hv⟩
  · simp [violationOf,hk]
  · obtain ⟨⟨low,hlow⟩,-⟩ := @pinned events instances ruleSeq e he
    obtain ⟨-,high,hhigh⟩ := @pinned events instances ruleSeq d hd
    rw [imp_iff_right hk]
    simp only [violationOf,if_neg hk,recorded,hu,hv,get?_timesOf hn hd,get?_timesOf hn he,hlow,hhigh,
      Option.getD_some]
    split_ifs with hle
    · exact iff_of_true rfl (by omega)
    · exact iff_of_false (by simp) (by omega)

theorem recorded_event (hn : (events.map (·.eventId)).Nodup) {e : Event} (he : e ∈ events) :
    recorded events e.eventId = e.tEvtNs := by
  rw [recorded,get?_timesOf hn he,Option.getD_some]

theorem recorded_zeroNode : recorded events zeroNode = 0 := by
  unfold recorded
  cases h : Dict.get? (timesOf events) zeroNode with
  | none => rfl
  | some t =>
    rcases Dict.get?_foldl_mem h with h | ⟨e,-,he,-⟩
    · cases h
    · exact absurd he e.ne_zeroNode

/-- The pins of an event hold it at its timestamp. -/
theorem Satisfies.pinned {t : String → ℤ}
    (h : Satisfies t (buildConstraints events instances ruleSeq) removed) {e : Event} (he : e ∈ events)
    (hr : e.eventId ∉ removed) : t e.eventId = e.tEvtNs+t zeroNode := by
  have hkept : ¬(Kind.pin = .pin ∧ ∃ eventId ∈ removed, some e.eventId = some eventId) := by
    rintro ⟨-,eventId,hmem,heq⟩
    exact hr (Option.some.inj heq ▸ hmem)
  have hupper := h _ (mem_buildConstraints.mpr (.inl ⟨e,he,mem_pins.mpr (.inl rfl)⟩)) hkept
  have hlower := h _ (mem_buildConstraints.mpr (.inl ⟨e,he,mem_pins.mpr (.inr rfl)⟩)) hkept
  dsimp only at hupper hlower
  omega

/-- One scan of the recorded timestamps finds nothing exactly when some assignment satisfies all the
constraints. -/
theorem findViolations_iff_feasible (hn : (events.map (·.eventId)).Nodup)
    (hb : BoundAmong events instances ruleSeq) :
    findViolations (buildConstraints events instances ruleSeq) (timesOf events) = [] ↔
      feasible (buildConstraints events instances ruleSeq) (timesOf events) ∅ = true := by
  rw [findViolations_eq_nil hn hb,feasible_iff]
  constructor
  · intro h
    refine ⟨recorded events,fun c hc _ => ?_⟩
    rcases built_cases hb hc with ⟨-,e,he,hp⟩ | ⟨hk,-⟩
    · rcases mem_pins.mp hp with rfl | rfl <;> dsimp only <;>
        rw [recorded_event hn he,recorded_zeroNode] <;> omega
    · exact h c hc hk
  · rintro ⟨t,ht⟩ c hc hk
    rcases built_cases hb hc with ⟨hpin,-⟩ | ⟨-,d,hd,e,he,hu,hv⟩
    · exact absurd hpin hk
    · have hc := ht c hc fun hp => hk hp.1
      rw [hu,hv,ht.pinned hd (by simp),ht.pinned he (by simp)] at hc
      rw [hu,hv,recorded_event hn hd,recorded_event hn he]
      omega

/-- A logon recorded after the session it opens, and the operator that relates the two. -/
def lateLogon : List Event := [⟨"ev:a","iam",0,20,opens_a⟩,⟨"ev:b","edr",0,10,opens_b⟩]

def logonThenSession : List (String × SeqOperator) := [("rl:r0001",⟨"seq","x","y",60⟩)]

def lateInstance : SeqInstance := ⟨"rl:r0001",[("x","ev:a"),("y","ev:b")]⟩

theorem findViolations_iff_feasible_late :
    findViolations (buildConstraints lateLogon [lateInstance] logonThenSession) (timesOf lateLogon) = [] ↔
      feasible (buildConstraints lateLogon [lateInstance] logonThenSession) (timesOf lateLogon) ∅ = true :=
  findViolations_iff_feasible (by decide) (by decide)

end Temporal
end Spectra
