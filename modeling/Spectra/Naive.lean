import Spectra.Agreement

/-! The naive fixpoint: the combinations of a rule over a set of facts, judged against that
set, and when the semi-naive rounds of the engine end with exactly those. -/
namespace Spectra

variable {D : Digest} {C : Ceilings} {s : Setup}

/-! ### Clauses judged against a set of facts -/

/-- What a slot name picks. -/
def slotItem {α : Type} (items : List α) (slot : String) : Option α :=
  (slotNames.idxOf? slot).bind fun index => items[index]?

/-- A fact that the distinct or absence clause of a rule counts. -/
def CompiledRule.Meets (compiled : CompiledRule) (chosen : List (Fact D)) (bind : Bind)
    (f : Fact D) : Prop :=
  match compiled.temporal with
  | some (.distinct within ofSlot fieldName _) =>
    ∃ pattern ∈ slotItem compiled.body ofSlot, ∃ anchor ∈ slotItem chosen ofSlot,
      (anchor.tick-within ≤ f.tick ∧ f.tick ≤ anchor.tick) ∧
        agreesExcept pattern f bind (pattern.entityVars.idxOf fieldName) = true
  | some (.absence within before pattern) =>
    ∃ anchor ∈ slotItem chosen before,
      (anchor.tick-within ≤ f.tick ∧ f.tick < anchor.tick) ∧ (unify pattern f bind true).isSome = true
  | _ => False

/-- The temporal clause of a rule, judged against a set of facts. -/
def ClauseHolds (s : Setup) (base : Set (Fact D)) (compiled : CompiledRule)
    (chosen : List (Fact D)) (bind : Bind) : Prop :=
  match compiled.temporal with
  | none => True
  | some (.seq within left right) =>
    ∃ l ∈ slotItem chosen left, ∃ r ∈ slotItem chosen right, l.tick < r.tick ∧ r.tick ≤ l.tick+within
  | some (.distinct _ ofSlot fieldName n) =>
    ∃ pattern ∈ slotItem compiled.body ofSlot, ∃ values : Finset EntityId, n ≤ values.card ∧
      ∀ v ∈ values, ∃ f ∈ base, compiled.Meets chosen bind f ∧
        f.args.getD (pattern.entityVars.idxOf fieldName) "" = v
  | some (.absence within before _) =>
    (∀ f ∈ base, ¬compiled.Meets chosen bind f) ∧ ∃ anchor ∈ slotItem chosen before, ∃ window,
      Interval.of ((anchor.tick-within)*tickNs) (anchor.tick*tickNs) = .ok window ∧
        s.absence compiled.rule.producingSources window = .observed
  | some (.obligation _ _) => False

/-- A rule with a fact for each slot, judged against the set the facts are from. -/
structure Combination (s : Setup) (base : Set (Fact D)) (compiled : CompiledRule)
    (chosen : List (Fact D)) (bind : Bind) : Prop where
  rule : compiled ∈ s.table.detectRules
  drawn : ∀ f ∈ chosen, f ∈ base
  joins : Engine.joined [] compiled.body chosen = some bind
  guard : evalWhen compiled.when (guardEnv compiled chosen) = true
  clause : ClauseHolds s base compiled chosen bind

/-- Bases that agree on what a clause counts judge it alike. -/
theorem ClauseHolds.congr {base base' : Set (Fact D)} {compiled : CompiledRule}
    {chosen : List (Fact D)} {bind : Bind}
    (h : ∀ f, compiled.Meets chosen bind f → (f ∈ base ↔ f ∈ base')) :
    ClauseHolds s base compiled chosen bind ↔ ClauseHolds s base' compiled chosen bind := by
  have hmem : ∀ P : Fact D → Prop, (∃ f ∈ base, compiled.Meets chosen bind f ∧ P f) ↔
      ∃ f ∈ base', compiled.Meets chosen bind f ∧ P f := by
    refine fun P => exists_congr fun f => ⟨?_,?_⟩
    · rintro ⟨hf,hm,hp⟩; exact ⟨(h f hm).mp hf,hm,hp⟩
    · rintro ⟨hf,hm,hp⟩; exact ⟨(h f hm).mpr hf,hm,hp⟩
  have hnone : (∀ f ∈ base, ¬compiled.Meets chosen bind f) ↔
      ∀ f ∈ base', ¬compiled.Meets chosen bind f := by
    refine forall_congr' fun f => ⟨?_,?_⟩
    · exact fun hn hf hm => hn ((h f hm).mpr hf) hm
    · exact fun hn hf hm => hn ((h f hm).mp hf) hm
  unfold ClauseHolds
  split
  · rfl
  · rfl
  · simp only [hmem]
  · rw [hnone]
  · rfl

namespace Engine

variable {e e' u v : Engine D} {compiled : CompiledRule} {chosen fs : List (Fact D)}
  {bind : Bind} {i j : GroundInstance D} {head : Fact D}

/-! ### What the engine checks -/

theorem slotItem_ok {α : Type} {items : List α} {slot : String} {k : ℕ} {a : α}
    (hk : slotOf slot = .ok k) (ha : nth items k = .ok a) : slotItem items slot = some a := by
  unfold slotOf at hk
  unfold nth at ha
  split at hk
  · rename_i index hi
    cases hk
    split at ha
    · rename_i b hb
      cases ha
      rw [slotItem,hi]
      exact hb
    · cases ha
  · cases hk

/-- No fact stands for a window. -/
def Timed (e : Engine D) : Prop := e.timeFreeSnapshot = []

theorem Timed.timeFree (h : e.Timed) (f : Fact D) : e.timeFree f = false := by
  rw [Engine.timeFree,h]; rfl

theorem Timed.tickRange (h : e.Timed) (f : Fact D) : e.tickRange f = some (f.tick,f.tick) := by
  rw [Engine.tickRange,h.timeFree]; rfl

theorem Timed.guarded (h : e.Timed) :
    e.guarded compiled chosen = evalWhen compiled.when (guardEnv compiled chosen) := by
  rw [Engine.guarded,List.any_eq_false.mpr fun f _ => by simp [h.timeFree f],Bool.false_or]

theorem seqFeasible_iff {l r within : ℤ} :
    seqFeasible (l,l) (r,r) within = true ↔ l < r ∧ r ≤ l+within := by
  simp only [seqFeasible,decide_eq_true_eq]
  omega

theorem mem_distinctCandidates {pattern : Pattern} {anchor f : Fact D} {within : ℤ} {index : ℕ} :
    f ∈ e.distinctCandidates pattern anchor bind within index ↔ f ∈ e.base.facts ∧
      (anchor.tick-within ≤ f.tick ∧ f.tick ≤ anchor.tick) ∧
        agreesExcept pattern f bind index = true := by
  simp only [distinctCandidates,List.mem_filter,Engine.factsFor,FactBase.mem_factsFor,
    Bool.and_eq_true,decide_eq_true_eq]
  constructor
  · rintro ⟨hf,h⟩; exact ⟨hf.1,h⟩
  · rintro ⟨hf,ht,ha⟩
    have ha' := ha
    simp only [agreesExcept,Bool.and_eq_true,decide_eq_true_eq] at ha'
    exact ⟨⟨hf,ha'.1.1,ha'.1.2⟩,ht,ha⟩

theorem present_iff {pattern : Pattern} {anchor : Fact D} {within : ℤ} :
    e.present pattern anchor bind within = true ↔ ∃ f ∈ e.base.facts,
      (anchor.tick-within ≤ f.tick ∧ f.tick < anchor.tick) ∧
        (unify pattern f bind true).isSome = true := by
  simp only [present,List.any_eq_true,Engine.factsFor,FactBase.mem_factsFor,Bool.and_eq_true,
    decide_eq_true_eq]
  refine exists_congr fun f => ⟨fun h => ⟨h.1.1,h.2⟩,fun h => ⟨⟨h.1,?_⟩,h.2⟩⟩
  have hu := h.2.2
  unfold unify at hu
  split at hu
  · cases hu
  · rename_i h
    push Not at h
    exact h

theorem length_dedup_le_iff {l : List EntityId} {n : ℤ} :
    n ≤ l.dedup.length ↔ ∃ kept : Finset EntityId, n ≤ kept.card ∧ ∀ v ∈ kept, v ∈ l := by
  constructor
  · intro h
    refine ⟨l.toFinset,?_,fun v hv => List.mem_toFinset.mp hv⟩
    rwa [List.card_toFinset]
  · rintro ⟨kept,hn,hk⟩
    have hle : kept.card ≤ l.toFinset.card :=
      Finset.card_le_card fun v hv => List.mem_toFinset.mpr (hk v hv)
    rw [List.card_toFinset] at hle
    omega

/-- A clause that was checked passed exactly when it holds of the base. -/
theorem checkTemporal_iff {r : Option (List (Fact D))} (ht : e.Timed)
    (h : e.checkTemporal s compiled chosen bind = .ok r) :
    r.isSome = true ↔ ClauseHolds s {f | f ∈ e.base.facts} compiled chosen bind := by
  unfold checkTemporal at h
  split at h
  · rename_i hc
    cases h
    simp [ClauseHolds,hc]
  · rename_i within left right hc
    obtain ⟨k,hk,h⟩ := Runs.bind_ok.mp h
    obtain ⟨l,hl,h⟩ := Runs.bind_ok.mp h
    obtain ⟨k',hk',h⟩ := Runs.bind_ok.mp h
    obtain ⟨r',hr,h⟩ := Runs.bind_ok.mp h
    rw [ht.tickRange,ht.tickRange] at h
    obtain rfl := Runs.pure_ok.mp h
    simp only [ClauseHolds,hc,slotItem_ok hk hl,slotItem_ok hk' hr,Option.mem_some_iff,
      exists_eq_left',← seqFeasible_iff]
    split <;> simp [*]
  · rename_i within ofSlot fieldName n hc
    obtain ⟨k,hk,h⟩ := Runs.bind_ok.mp h
    obtain ⟨pattern,hp,h⟩ := Runs.bind_ok.mp h
    obtain ⟨anchor,ha,h⟩ := Runs.bind_ok.mp h
    split at h
    · cases h
    · obtain rfl := Runs.pure_ok.mp h
      have hmeets : ∀ f : Fact D, compiled.Meets chosen bind f ↔
          (anchor.tick-within ≤ f.tick ∧ f.tick ≤ anchor.tick) ∧
            agreesExcept pattern f bind (pattern.entityVars.idxOf fieldName) = true := by
        intro f
        simp [CompiledRule.Meets,hc,slotItem_ok hk hp,slotItem_ok hk ha]
      simp only [ClauseHolds,hc,slotItem_ok hk hp,Option.mem_some_iff,exists_eq_left',hmeets]
      have hlen := length_dedup_le_iff (n := n) (l := (e.distinctCandidates pattern anchor bind
        within (pattern.entityVars.idxOf fieldName)).map fun f =>
          f.args.getD (pattern.entityVars.idxOf fieldName) "")
      simp only [List.mem_map,mem_distinctCandidates,and_assoc] at hlen
      simp only [Set.mem_ofPred_eq,and_assoc,← hlen]
      split
      · simp only [Option.isSome_none,Bool.false_eq_true,false_iff]; omega
      · simp only [Option.isSome_some,true_iff]; omega
  · rename_i within before pattern hc
    obtain ⟨k,hk,h⟩ := Runs.bind_ok.mp h
    obtain ⟨anchor,ha,h⟩ := Runs.bind_ok.mp h
    have hmeets : (∀ f ∈ e.base.facts, ¬compiled.Meets chosen bind f) ↔
        ¬e.present pattern anchor bind within = true := by
      rw [present_iff]
      simp [CompiledRule.Meets,hc,slotItem_ok hk ha]
    simp only [ClauseHolds,hc,slotItem_ok hk ha,Option.mem_some_iff,exists_eq_left',
      Set.mem_ofPred_eq]
    rw [hmeets]
    split at h
    · rename_i hpres
      obtain rfl := Runs.pure_ok.mp h
      simp [hpres]
    · rename_i hpres
      obtain ⟨window,hw,h⟩ := Runs.bind_ok.mp h
      obtain rfl := Runs.pure_ok.mp h
      simp only [hpres,hw,Except.ok.injEq,exists_eq_left']
      split <;> simp [*]
  · rename_i hc
    cases h
    simp [ClauseHolds,hc]

/-! ### What a run leaves alone -/

theorem filter_orderedInsert {α : Type} {r : α → α → Prop} [DecidableRel r] {cond : α → Bool} {a : α}
    (h : cond a = false) (l : List α) : (l.orderedInsert r a).filter cond = l.filter cond := by
  induction l with
  | nil => simp [h]
  | cons b l ih =>
    rw [List.orderedInsert]
    split
    · rw [List.filter_cons_of_neg (by simp [h])]
    · rw [List.filter_cons,List.filter_cons,ih]

theorem filter_factsFor_insert {b : FactBase D} {f : Fact D} (h : f ∉ b.facts) {p : String} {n : ℕ}
    {cond : Fact D → Bool} (hc : f.predicate = p → f.args.length = n → cond f = false) :
    ((b.insert f h).factsFor p n).filter cond = (b.factsFor p n).filter cond := by
  rw [FactBase.factsFor,FactBase.insert]
  simp only [Dict.get?_set]
  split
  · rename_i hk
    obtain ⟨rfl,rfl⟩ := Prod.mk.injEq .. ▸ hk
    exact filter_orderedInsert (hc rfl rfl) _
  · rfl

/-- Facts that a run adds and that do not meet a condition leave what meets it alone. -/
theorem Grows.filter_factsFor {taking : Prop}
    {Q : Engine D → GroundInstance D → Fact D → Option (ℤ × ℤ) → Prop} (h : Grows C taking Q e u)
    {p : String} {n : ℕ} {cond : Fact D → Bool}
    (hno : ∀ f ∈ u.base.facts, f ∉ e.base.facts → f.predicate = p → f.args.length = n →
      cond f = false) : (u.factsFor p n).filter cond = (e.factsFor p n).filter cond := by
  induction h with
  | refl => rfl
  | @add u i head span hg hq ih =>
    have ha := addInstance_added C u i head span
    rw [← ih fun f hf => hno f (ha.le.facts hf)]
    generalize (addInstance C u i head span).1 = v at ha hno ⊢
    cases ha with
    | known => rfl
    | refused => rfl
    | entered => rfl
    | headless => rfl
    | derived _ _ _ hf =>
      exact filter_factsFor_insert hf (hno head ((mem_insert hf).mpr (.inr rfl))
        fun hm => hf (hg.le.facts hm))
  | note _ _ _ _ _ ih => exact ih hno
  | take _ _ ih => exact ih hno

theorem present_eq {pattern : Pattern} {anchor : Fact D} {within : ℤ} :
    e.present pattern anchor bind within = ((e.factsFor pattern.predicate pattern.arity).filter
      fun f => anchor.tick-within ≤ f.tick && f.tick < anchor.tick &&
        (unify pattern f bind true).isSome).any fun _ => true := by
  simp [present,List.any_filter]

variable {taking : Prop} {Q : Engine D → GroundInstance D → Fact D → Option (ℤ × ℤ) → Prop}

theorem Timed.grows (he : e.Timed) (h : Grows C taking Q e u) : u.Timed := h.le.timeFree.trans he

/-- A run that adds nothing the clause of a rule counts does not change its verdict. -/
theorem Grows.checkTemporal (h : Grows C taking Q e u) (he : e.Timed)
    (hno : ∀ f ∈ u.base.facts, f ∉ e.base.facts → ¬compiled.Meets chosen bind f) :
    u.checkTemporal s compiled chosen bind = e.checkTemporal s compiled chosen bind := by
  have hu := he.grows h
  unfold Engine.checkTemporal
  split
  · rfl
  · simp only [checkSeq,hu.tickRange,he.tickRange]
  · rename_i within ofSlot fieldName n hc
    refine Runs.bind_congr fun k hk => Runs.bind_congr fun pattern hp =>
      Runs.bind_congr fun anchor ha => ?_
    have hcand : u.distinctCandidates pattern anchor bind within
        (pattern.entityVars.idxOf fieldName) =
          e.distinctCandidates pattern anchor bind within (pattern.entityVars.idxOf fieldName) := by
      refine h.filter_factsFor fun f hf hn _ _ => ?_
      by_contra hm
      refine hno f hf hn ?_
      simp only [CompiledRule.Meets,hc,slotItem_ok hk hp,slotItem_ok hk ha,Option.mem_some_iff,
        exists_eq_left']
      simpa [and_assoc] using hm
    simp only [hcand]
  · rename_i within before pattern hc
    refine Runs.bind_congr fun k hk => Runs.bind_congr fun anchor ha => ?_
    have hpres : u.present pattern anchor bind within = e.present pattern anchor bind within := by
      rw [present_eq,present_eq,h.filter_factsFor fun f hf hn _ _ => ?_]
      by_contra hm
      refine hno f hf hn ?_
      simp only [CompiledRule.Meets,hc,slotItem_ok hk ha,Option.mem_some_iff,exists_eq_left']
      simpa only [Bool.not_eq_false,Bool.and_eq_true,decide_eq_true_eq] using hm
    rw [hpres]
  · rfl

theorem Le.evidenceFor (h : Le e u) {extra : List (Fact D)} :
    u.evidenceFor compiled chosen extra = e.evidenceFor compiled chosen extra := by
  simp only [Engine.evidenceFor,slotRecords,h.eventsOf]

theorem Grows.emits (h : Grows C taking Q e u) (he : e.Timed)
    (hno : ∀ f ∈ u.base.facts, f ∉ e.base.facts → ¬compiled.Meets chosen bind f) :
    Emits s u compiled chosen bind i head ↔ Emits s e compiled chosen bind i head := by
  have hg : u.guarded compiled chosen = e.guarded compiled chosen := by
    rw [he.guarded,(he.grows h).guarded]
  constructor
  · rintro ⟨hgu,hf,hh⟩
    simp only [h.checkTemporal he hno,h.le.evidenceFor] at hf
    exact ⟨hg ▸ hgu,hf,hh⟩
  · rintro ⟨hge,hf,hh⟩
    simp only [← h.checkTemporal he hno,← h.le.evidenceFor] at hf
    exact ⟨hg ▸ hge,hf,hh⟩

theorem Emits.unique {i' : GroundInstance D} {head' : Fact D}
    (h : Emits s e compiled chosen bind i head) (h' : Emits s e compiled chosen bind i' head') :
    i = i' ∧ head = head' := by
  have hh : head = head' := Option.some.inj (Except.ok.inj (h.head.symm.trans h'.head))
  subst hh
  obtain ⟨extra,ht,-,hi⟩ := h.fires
  obtain ⟨extra',ht',-,hi'⟩ := h'.fires
  cases ht.symm.trans ht'
  exact ⟨Except.ok.inj (hi.symm.trans hi'),rfl⟩

end Engine

/-! ### What the records derive -/

/-- The rules with their temporal clauses left out. -/
def looseRules (D : Digest) (s : Setup) : Set (Horn.Rule (Fact D)) :=
  {r | ∃ compiled ∈ s.table.detectRules, ∃ bind,
    Engine.joined [] compiled.body r.body = some bind ∧
      evalWhen compiled.when (guardEnv compiled r.body) = true ∧
        headFact D compiled bind = .ok (some r.head)}

/-- A fact that the records derive when temporal clauses are left out. -/
def Loose (s : Setup) : Fact D → Prop :=
  Horn.Derivable {f | ∃ ev, Engine.Recorded s f ev} (looseRules D s)

/-- No clause, tried on facts the records derive, counts a fact that is not recorded. -/
def ClausesRest (D : Digest) (s : Setup) : Prop :=
  ∀ compiled ∈ s.table.detectRules, ∀ (chosen : List (Fact D)) bind, (∀ f ∈ chosen, Loose s f) →
    Engine.joined [] compiled.body chosen = some bind →
      evalWhen compiled.when (guardEnv compiled chosen) = true →
        ∀ f, Loose s f → compiled.Meets chosen bind f → ∃ ev, Engine.Recorded s f ev

/-- A base between the records and what they derive. -/
structure Within (s : Setup) (base : Set (Fact D)) : Prop where
  records : ∀ f ev, Engine.Recorded s f ev → f ∈ base
  loose : ∀ f ∈ base, Loose s f

/-- Such bases judge every clause alike. -/
theorem ClausesRest.judge (h : ClausesRest D s) {base base' : Set (Fact D)} (hb : Within s base)
    (hb' : Within s base') {compiled : CompiledRule} {chosen : List (Fact D)} {bind : Bind}
    (hr : compiled ∈ s.table.detectRules) (hc : ∀ f ∈ chosen, Loose s f)
    (hj : Engine.joined [] compiled.body chosen = some bind)
    (hg : evalWhen compiled.when (guardEnv compiled chosen) = true) :
    ClauseHolds s base compiled chosen bind ↔ ClauseHolds s base' compiled chosen bind := by
  refine ClauseHolds.congr fun f hm => ⟨fun hf => ?_,fun hf => ?_⟩
  · obtain ⟨ev,hev⟩ := h compiled hr chosen bind hc hj hg f (hb.loose f hf) hm
    exact hb'.records f ev hev
  · obtain ⟨ev,hev⟩ := h compiled hr chosen bind hc hj hg f (hb'.loose f hf) hm
    exact hb.records f ev hev

/-- Some slot is filled by a fact that a record stands behind. -/
def Evidenced (s : Setup) (chosen : List (Fact D)) : Prop :=
  ∃ f ∈ chosen, ∃ ev, Engine.Recorded s f ev

namespace Engine

variable {e e' u v : Engine D} {compiled : CompiledRule} {chosen fs : List (Fact D)}
  {bind bind' : Bind} {i j : GroundInstance D} {head : Fact D} {rules : List CompiledRule}

theorem joined_predicates {ps : List Pattern} (h : joined bind ps fs = some bind') :
    List.Forall₂ (fun p f => f.predicate = p.predicate) ps fs := by
  induction ps generalizing bind fs with
  | nil => cases fs with
    | nil => exact .nil
    | cons f fs => cases h
  | cons p ps ih => cases fs with
    | nil => cases h
    | cons f fs =>
      obtain ⟨b,hu,h⟩ := Option.bind_eq_some_iff.mp h
      refine .cons ?_ (ih h)
      unfold unify at hu
      split at hu
      · cases hu
      · rename_i hn
        push Not at hn
        exact hn.1

/-- A derived fact carries the head predicate of a rule. -/
theorem loose_cases {f : Fact D} (h : Loose s f) : (∃ ev, Recorded s f ev) ∨
    ∃ compiled ∈ s.table.detectRules, f.predicate = compiled.head.predicate := by
  cases h with
  | seed h => exact .inl h
  | fire hr hb =>
    obtain ⟨compiled,hc,bind,-,-,hh⟩ := hr
    exact .inr ⟨compiled,hc,headFact_predicate hh⟩

/-- The slot that only the bundle can fill is filled by a record. -/
theorem evidenced (hr : compiled ∈ s.table.detectRules) (hc : ∀ f ∈ chosen, Loose s f)
    (hj : joined [] compiled.body chosen = some bind) : Evidenced s chosen := by
  obtain ⟨p,hp,hun⟩ := RuleTable.axiom_slot hr
  obtain ⟨k,hk,rfl⟩ := List.mem_iff_getElem.mp hp
  have hlen := joined_length hj
  have hpred := (joined_predicates hj).get hk (hlen ▸ hk)
  refine ⟨chosen[k],List.getElem_mem _,(loose_cases (hc _ (List.getElem_mem _))).resolve_right ?_⟩
  rintro ⟨d,hd,hh⟩
  exact hun d (RuleTable.mem_detectRules.mp hd).1 (hh.symm.trans hpred)

/-! ### A saturation of a seeded base -/

theorem addRef_ne_nil {refs : List EvidenceRef} {slot : String} {event : CanonicalEvent} :
    addRef refs slot event ≠ [] := by
  unfold addRef
  split
  · rename_i h
    rintro rfl
    simp at h
  · simp

theorem evidenceFor_ne_nil {extra : List (Fact D)} (h : e.slotRecords compiled chosen extra ≠ []) :
    e.evidenceFor compiled chosen extra ≠ [] := by
  obtain ⟨l,p,hl⟩ := (List.eq_nil_or_concat _).resolve_left h
  rw [evidenceFor,hl,List.concat_eq_append,List.foldl_concat,ne_eq,← List.length_eq_zero_iff,
    List.length_insertionSort,List.length_eq_zero_iff]
  exact addRef_ne_nil

theorem Seeded.openRound_timed (h : Seeded (Recorded s) e) : e.openRound.Timed := h.licensed

/-- A seeded state keeps the records of a fact through its runs. -/
theorem Seeded.evidenceFor (h : Seeded (Recorded s) e) (hle : Le e.openRound u)
    (he : Evidenced s chosen) {extra : List (Fact D)} :
    u.evidenceFor compiled chosen extra ≠ [] := by
  obtain ⟨f,hf,ev,hev⟩ := he
  have hrec : e.eventsOf f.factKey ≠ [] := (h.records _).mpr ((h.axioms _).mpr ⟨f,ev,hev,rfl⟩)
  obtain ⟨event,hevent⟩ := List.exists_mem_of_ne_nil _ hrec
  obtain ⟨k,hk,rfl⟩ := List.mem_iff_getElem.mp hf
  refine evidenceFor_ne_nil (List.ne_nil_of_mem (a := (slotName k,event)) ?_)
  refine List.mem_append_left _ (List.mem_flatMap.mpr ⟨(chosen[k],k),?_,?_⟩)
  · rw [List.mem_zipIdx_iff_getElem?]
    exact List.getElem?_eq_getElem hk
  · refine List.mem_map.mpr ⟨event,?_,rfl⟩
    rw [hle.eventsOf]
    exact hevent

variable (hseed : Seeded (Recorded s) e)

include hseed in
/-- Everything a run adds to a seeded base the records derive. -/
theorem Grows.loose (h : Saturates C s True e.openRound u) : ∀ f ∈ u.base.facts, Loose s f := by
  refine h.induct (P := fun v => ∀ f ∈ v.base.facts, Loose s f)
    (fun f hf => .seed (hseed.origin f hf)) (fun v i head span hv ih hq f hf => ?_)
    (fun _ _ _ _ _ ih => ih) fun _ _ ih => ih
  rcases (addInstance_added C v i head span).facts hf with hf | ⟨rfl,-⟩
  · exact ih f hf
  · obtain ⟨-,compiled,hr,chosen,bind,hc,hj,hem⟩ := hq
    have ht : v.Timed := Timed.grows hseed.openRound_timed hv
    exact .fire (r := ⟨f,chosen⟩) ⟨compiled,hr,bind,hj,ht.guarded ▸ hem.guarded,hem.head⟩
      fun b hb => ih b (hc b hb)

variable (hrest : ClausesRest D s)

include hseed hrest in
theorem Grows.unmet (h : Saturates C s True e.openRound u) (hcap : u.capped = false)
    (hr : compiled ∈ s.table.detectRules) (hc : ∀ f ∈ chosen, Loose s f)
    (hj : joined [] compiled.body chosen = some bind)
    (hg : evalWhen compiled.when (guardEnv compiled chosen) = true) :
    ∀ f ∈ u.base.facts, f ∉ e.openRound.base.facts → ¬compiled.Meets chosen bind f := by
  intro f hf hn hm
  obtain ⟨ev,hev⟩ := hrest compiled hr chosen bind hc hj hg f (h.loose hseed f hf) hm
  exact hn (hseed.base (h.le.capped hcap) f ev hev)

include hseed hrest in
/-- What a rule fires does not depend on the state of the run it is tried in. -/
theorem Grows.emits_rest (h : Saturates C s True e.openRound u) (hcap : u.capped = false)
    (hr : compiled ∈ s.table.detectRules) (hc : ∀ f ∈ chosen, Loose s f)
    (hj : joined [] compiled.body chosen = some bind) :
    Emits s u compiled chosen bind i head ↔ Emits s e.openRound compiled chosen bind i head := by
  have he := hseed.openRound_timed
  by_cases hg : evalWhen compiled.when (guardEnv compiled chosen) = true
  · exact h.emits he (h.unmet hseed hrest hcap hr hc hj hg)
  · refine iff_of_false (fun hem => hg ?_) fun hem => hg ?_
    · exact (he.grows h).guarded ▸ hem.guarded
    · exact he.guarded ▸ hem.guarded

end Engine

/-- The instance a rule makes of some facts. -/
structure GroundInstance.Of (i : GroundInstance D) (compiled : CompiledRule)
    (chosen : List (Fact D)) : Prop where
  rule : i.ruleId = compiled.ruleId
  body : i.body = chosen.map (·.factKey)

theorem GroundInstance.Of.unique {i : GroundInstance D} {compiled compiled' : CompiledRule}
    {chosen chosen' : List (Fact D)} (h : i.Of compiled chosen) (h' : i.Of compiled' chosen')
    (hr : compiled ∈ s.table.detectRules) (hr' : compiled' ∈ s.table.detectRules) :
    compiled = compiled' ∧ chosen = chosen' := by
  refine ⟨RuleTable.ruleId_inj (RuleTable.mem_detectRules.mp hr).1
    (RuleTable.mem_detectRules.mp hr').1 (h.rule.symm.trans h'.rule),?_⟩
  exact List.map_injective_iff.mpr (fun _ _ => Fact.key_inj) (h.body.symm.trans h'.body)

namespace Engine

variable {e e' u v : Engine D} {compiled : CompiledRule} {chosen fs : List (Fact D)}
  {bind bind' : Bind} {i j : GroundInstance D} {head : Fact D} {rules : List CompiledRule}

theorem Emits.of (h : Emits s e compiled chosen bind i head) : i.Of compiled chosen :=
  ⟨h.fields.1,h.fields.2.2.1⟩

/-- What an emission reads when the guard passes. -/
theorem emit_checks (h : emit C s compiled chosen bind u = .ok v)
    (hg : u.guarded compiled chosen = true) : ∃ t, u.checkTemporal s compiled chosen bind = .ok t ∧
      ∀ extra, t = some extra → u.evidenceFor compiled chosen extra ≠ [] →
        ∃ hd, headFact D compiled bind = .ok hd := by
  unfold emit at h
  rw [if_neg (by simp [hg])] at h
  obtain ⟨t,ht,h⟩ := Runs.bind_ok.mp h
  refine ⟨t,ht,?_⟩
  rintro extra rfl hev
  simp only [if_neg hev] at h
  obtain ⟨hd,hh,-⟩ := Runs.bind_ok.mp h
  exact ⟨hd,hh⟩

section Ended

variable (hseed : Seeded (Recorded s) e) (hrest : ClausesRest D s)
  (hperm : rules.Perm s.table.detectRules) (h : saturateIn C s rules e = .ok e')
  (hcap : e'.capped = false)

include hperm h in
theorem ended_grows : Saturates C s True e.openRound e' :=
  saturateIn_grows (fun _ hr => hperm.mem_iff.mp hr) h

include hseed hperm h in
theorem ended_loose : ∀ f ∈ e'.base.facts, Loose s f := (ended_grows hperm h).loose hseed

include hseed hrest hperm h hcap in
/-- Every instance is what some rule fires on facts of the final base. -/
theorem ended_instances (hi : i ∈ e'.instances) : ∃ compiled ∈ s.table.detectRules,
    ∃ chosen bind head, (∀ f ∈ chosen, f ∈ e'.base.facts) ∧
      joined [] compiled.body chosen = some bind ∧
        Emits s e.openRound compiled chosen bind i head := by
  rcases (ended_grows hperm h).instance_of hi with hi | ⟨v,head,span,hv,hq,hle⟩
  · have hnone : e.openRound.instances = [] := hseed.instances
    rw [hnone] at hi
    cases hi
  · obtain ⟨-,compiled,hr,chosen,bind,hc,hj,hem⟩ := hq
    refine ⟨compiled,hr,chosen,bind,head,fun f hf => hle.facts (hc f hf),hj,?_⟩
    exact (hv.emits_rest hseed hrest (hle.capped hcap) hr
      (fun f hf => hv.loose hseed f (hc f hf)) hj).mp hem

include hseed hperm h hcap in
/-- Every combination over the final base was tried. -/
theorem ended_visits (hr : compiled ∈ s.table.detectRules) (hc : ∀ f ∈ chosen, f ∈ e'.base.facts)
    (hj : joined [] compiled.body chosen = some bind) :
    Visited C s e.openRound e' compiled chosen bind := by
  refine (saturateIn_visits (fun _ hr => hperm.mem_iff.mp hr) h hcap (hperm.mem_iff.mpr hr) hc
    hj).resolve_left fun hold => ?_
  cases chosen with
  | nil => exact compiled.body_ne_nil (List.length_eq_zero_iff.mp (joined_length hj).symm)
  | cons f fs => exact (hold f (by simp)).2 (hseed.delta (hold f (by simp)).1)

include hseed hrest hperm h hcap in
/-- What a rule fires on facts of the final base is there, with its head. -/
theorem ended_fires (hr : compiled ∈ s.table.detectRules) (hc : ∀ f ∈ chosen, f ∈ e'.base.facts)
    (hj : joined [] compiled.body chosen = some bind)
    (hem : Emits s e.openRound compiled chosen bind i head) :
    head ∈ e'.base.facts ∧ i ∈ e'.instances := by
  obtain ⟨u,v,hu,huv,hv⟩ := ended_visits hseed hperm h hcap hr hc hj
  have hloose := fun f hf => ended_loose hseed hperm h f (hc f hf)
  have hgrow := emit_cases huv
  have hvcap := hv.le.capped hcap
  have hucap : u.capped = false := by
    rcases hgrow with rfl | ⟨i',head',-,rfl⟩
    · exact hvcap
    · exact (addInstance_added C u i' head' none).le.capped hvcap
  have hem' := (hu.emits_rest hseed hrest hucap hr hloose hj).mpr hem
  obtain ⟨extra,ht,hev,-⟩ := hem'.fires
  obtain ⟨i',he',rfl⟩ := emit_fires huv hem'.guarded ht hev hem'.head
  cases (hem'.unique he').1
  have hheaded : u.Headed := hu.headed (fun _ _ _ _ hq => hq.heads) hseed.headed
  obtain ⟨hhead,j,hj',hid⟩ := (addInstance_added C u i head none).lands hem.fields.2.1 hheaded hvcap
  refine ⟨hv.le.facts hhead,?_⟩
  -- the instance under that id was fired by the same rule on the same facts
  obtain ⟨compiled',hr',chosen',bind',head',-,hj₂,hem₂⟩ :=
    ended_instances hseed hrest hperm h hcap (hv.le.instances hj')
  have hof : i.Of compiled' chosen' := by
    have := GroundInstance.id_inj hid
    exact ⟨this.1.symm.trans hem₂.of.rule,this.2.2.1.symm.trans hem₂.of.body⟩
  obtain ⟨rfl,rfl⟩ := hem.of.unique hof hr hr'
  cases hj.symm.trans hj₂
  rw [(hem.unique hem₂).1]
  exact hv.le.instances hj'

include hseed hrest hperm h hcap in
/-- A combination of the final base fires unless its head has no value. -/
theorem ended_emits (hc : Combination s {f | f ∈ e'.base.facts} compiled chosen bind)
    (hh : headFact D compiled bind ≠ .ok none) :
    ∃ i head, Emits s e.openRound compiled chosen bind i head := by
  obtain ⟨u,v,hu,huv,hv⟩ := ended_visits hseed hperm h hcap hc.rule hc.drawn hc.joins
  have hloose := fun f hf => ended_loose hseed hperm h f (hc.drawn f hf)
  have he := hseed.openRound_timed
  have hend := ended_grows hperm h
  have hvcap := hv.le.capped hcap
  have hucap : u.capped = false := by
    rcases emit_cases huv with rfl | ⟨i',head',-,rfl⟩
    · exact hvcap
    · exact (addInstance_added C u i' head' none).le.capped hvcap
  have hg : u.guarded compiled chosen = true := (he.grows hu).guarded ▸ hc.guard
  obtain ⟨t,ht,hhead⟩ := emit_checks huv hg
  have hu' := hu.checkTemporal (s := s) he
    (hu.unmet hseed hrest hucap hc.rule hloose hc.joins hc.guard)
  have hend' := hend.checkTemporal (s := s) he
    (hend.unmet hseed hrest hcap hc.rule hloose hc.joins hc.guard)
  have hsome := (checkTemporal_iff (he.grows hend) (hend'.trans (hu'.symm.trans ht))).mpr hc.clause
  obtain ⟨extra,rfl⟩ := Option.isSome_iff_exists.mp hsome
  have hev : u.evidenceFor compiled chosen extra ≠ [] :=
    hseed.evidenceFor hu.le (evidenced hc.rule hloose hc.joins)
  obtain ⟨hd,hhd⟩ := hhead extra rfl hev
  cases hd with
  | none => exact absurd hhd hh
  | some head =>
    obtain ⟨i,hem,-⟩ := emit_fires huv hg ht hev hhd
    exact ⟨i,head,(hu.emits_rest hseed hrest hucap hc.rule hloose hc.joins).mp hem⟩

include hseed hrest hperm h hcap in
/-- What fires is a combination as the final base judges it. -/
theorem ended_combination (hr : compiled ∈ s.table.detectRules)
    (hc : ∀ f ∈ chosen, f ∈ e'.base.facts) (hj : joined [] compiled.body chosen = some bind)
    (hem : Emits s e.openRound compiled chosen bind i head) :
    Combination s {f | f ∈ e'.base.facts} compiled chosen bind := by
  have he := hseed.openRound_timed
  have hend := ended_grows hperm h
  have hloose := fun f hf => ended_loose hseed hperm h f (hc f hf)
  have hem' := (hend.emits_rest hseed hrest hcap hr hloose hj).mpr hem
  obtain ⟨extra,ht,-⟩ := hem'.fires
  exact ⟨hr,hc,hj,(he.grows hend).guarded ▸ hem'.guarded,
    (checkTemporal_iff (he.grows hend) ht).mp rfl⟩

/-- The rules of the facts that fire in a state. -/
def emitRules (s : Setup) (e : Engine D) : Set (Horn.Rule (Fact D)) :=
  {r | ∃ compiled ∈ s.table.detectRules, ∃ bind i,
    joined [] compiled.body r.body = some bind ∧ Emits s e compiled r.body bind i r.head}

include hseed hrest hperm h hcap in
/-- The final base is the least one that holds the records and what fires on it. -/
theorem ended_facts {f : Fact D} : f ∈ e'.base.facts ↔
    Horn.Derivable {f | ∃ ev, Recorded s f ev} (emitRules s e.openRound) f := by
  constructor
  · refine (ended_grows hperm h).induct (P := fun v => v.capped = false → ∀ f ∈ v.base.facts,
      Horn.Derivable {f | ∃ ev, Recorded s f ev} (emitRules s e.openRound) f)
      (fun _ f hf => .seed (hseed.origin f hf)) (fun v i head span hv ih hq hvcap f hf => ?_)
      (fun v n k b d ih hvcap => ih (Bool.or_eq_false_iff.mp hvcap).1) (fun v _ ih => ih) hcap f
    have ha := addInstance_added C v i head span
    have hcap := ha.le.capped hvcap
    rcases ha.facts hf with hf | ⟨rfl,-⟩
    · exact ih hcap f hf
    · obtain ⟨-,compiled,hr,chosen,bind,hc,hj,hem⟩ := hq
      refine .fire (r := ⟨f,chosen⟩) ⟨compiled,hr,bind,i,hj,?_⟩ fun b hb => ih hcap b (hc b hb)
      exact (hv.emits_rest hseed hrest hcap hr (fun f hf => hv.loose hseed f (hc f hf)) hj).mp hem
  · refine Horn.Derivable.mem_of_closed (s := {f | f ∈ e'.base.facts}) ⟨fun f hf => ?_,?_⟩
    · obtain ⟨ev,hev⟩ := hf
      have hend := (ended_grows hperm h).le
      exact hend.facts (hseed.base (hend.capped hcap) f ev hev)
    · rintro r ⟨compiled,hr,bind,i,hj,hem⟩ hb
      exact (ended_fires hseed hrest hperm h hcap hr hb hj hem).1

include hseed hperm h hcap in
theorem ended_within : Within s {f | f ∈ e'.base.facts} where
  records := fun f ev hev => by
    have hend := (ended_grows hperm h).le
    exact hend.facts (hseed.base (hend.capped hcap) f ev hev)
  loose := ended_loose hseed hperm h

end Ended

end Engine

end Spectra
