import Spectra.Naive

/-! Saturation as a relation of its input: when the order of the rules does not matter and the
result is closed, and when it is the naive fixpoint. -/
namespace Spectra

variable {D : Digest} {C : Ceilings} {s : Setup}

/-! ### Heads that the body gives a value -/

/-- The arguments of the head are arguments in the body, and its tick is a tick in the body. -/
structure CompiledRule.HeadBound (c : CompiledRule) : Prop where
  args : ∀ name ∈ c.head.entityVars, ∃ p ∈ c.body, name ∈ p.entityVars
  tick : ∃ p ∈ c.body, c.head.tickVar = p.tickVar

theorem bindVar_get {bind bind' : Bind} {name : String} {value : Bound}
    (h : bindVar bind name value = some bind') : Dict.get? bind' name = some value ∧
      ∀ k v, Dict.get? bind k = some v → Dict.get? bind' k = some v := by
  unfold bindVar at h
  split at h
  · rename_i previous hp
    split at h
    · rename_i hv
      subst hv
      cases h
      refine ⟨Dict.get?_set_self _ _ _,fun k v hk => ?_⟩
      rw [Dict.get?_set]
      split
      · rename_i hn; rw [← hp,hn,hk]
      · exact hk
    · cases h
  · rename_i hp
    cases h
    refine ⟨Dict.get?_set_self _ _ _,fun k v hk => ?_⟩
    rw [Dict.get?_set,if_neg]
    · exact hk
    · rintro rfl; rw [hp] at hk; cases hk

theorem bindAll_get {bind bind' : Bind} {ps : List (String × Bound)}
    (h : bindAll bind ps = some bind') : (∀ p ∈ ps, Dict.get? bind' p.1 = some p.2) ∧
      ∀ k v, Dict.get? bind k = some v → Dict.get? bind' k = some v := by
  induction ps generalizing bind with
  | nil => cases h; exact ⟨by simp,fun _ _ h => h⟩
  | cons p ps ih =>
    rw [bindAll] at h
    split at h
    · rename_i b hb
      obtain ⟨hps,hkeep⟩ := ih h
      obtain ⟨hp,hold⟩ := bindVar_get hb
      refine ⟨fun q hq => ?_,fun k v hk => hkeep k v (hold k v hk)⟩
      rcases List.mem_cons.mp hq with rfl | hq
      · exact hkeep _ _ hp
      · exact hps q hq
    · cases h

/-- A joined body binds every argument to an entity and every tick variable to a tick. -/
theorem joined_get {bind bind' : Bind} {ps : List Pattern} {fs : List (Fact D)}
    (h : Engine.joined bind ps fs = some bind') :
    (∀ p ∈ ps, (∀ name ∈ p.entityVars, ∃ id, Dict.get? bind' name = some (.entity id)) ∧
      ∃ tick, Dict.get? bind' p.tickVar = some (.tick tick)) ∧
    ∀ k v, Dict.get? bind k = some v → Dict.get? bind' k = some v := by
  induction ps generalizing bind fs with
  | nil => cases fs with
    | nil => cases h; exact ⟨by simp,fun _ _ h => h⟩
    | cons f fs => cases h
  | cons p ps ih => cases fs with
    | nil => cases h
    | cons f fs =>
      obtain ⟨b,hu,h⟩ := Option.bind_eq_some_iff.mp h
      obtain ⟨hps,hkeep⟩ := ih h
      unfold unify at hu
      split at hu
      · cases hu
      · rename_i hn
        push Not at hn
        obtain ⟨hpairs,hold⟩ := bindAll_get hu
        refine ⟨fun q hq => ?_,fun k v hk => hkeep k v (hold k v hk)⟩
        rcases List.mem_cons.mp hq with rfl | hq
        · refine ⟨fun name hname => ?_,f.tick,hkeep _ _ (hpairs (q.tickVar,.tick f.tick) ?_)⟩
          · obtain ⟨k,hk,rfl⟩ := List.mem_iff_getElem.mp hname
            have hlen : k < f.args.length := by rw [hn.2,← q.entityVars_length]; exact hk
            refine ⟨f.args[k],hkeep _ _ (hpairs (q.entityVars[k],.entity f.args[k]) ?_)⟩
            refine List.mem_append_left _ ?_
            rw [List.mem_iff_getElem]
            exact ⟨k,by simpa using ⟨hk,hlen⟩,by simp⟩
          · exact List.mem_append_right _ (by simp)
        · exact hps q hq

theorem headArgs_isSome {bind : Bind} {names : List String}
    (h : ∀ name ∈ names, ∃ id, Dict.get? bind name = some (.entity id)) :
    (headArgs bind names).isSome = true := by
  unfold headArgs
  induction names with
  | nil => rfl
  | cons name names ih =>
    obtain ⟨id,hid⟩ := h name (by simp)
    obtain ⟨ids,hids⟩ := Option.isSome_iff_exists.mp (ih fun n hn => h n (by simp [hn]))
    rw [List.mapM_cons,hid,hids]
    rfl

/-- A joined body gives a bound head a value. -/
theorem CompiledRule.HeadBound.headFact {compiled : CompiledRule} (h : compiled.HeadBound)
    {chosen : List (Fact D)} {bind : Bind} (hj : Engine.joined [] compiled.body chosen = some bind) :
    headFact D compiled bind ≠ .ok none := by
  have hget := (joined_get hj).1
  obtain ⟨args,hargs⟩ := Option.isSome_iff_exists.mp (headArgs_isSome fun name hname => by
    obtain ⟨p,hp,hin⟩ := h.args name hname
    exact (hget p hp).1 name hin)
  obtain ⟨p,hp,ht⟩ := h.tick
  obtain ⟨tick,htick⟩ := (hget p hp).2
  unfold Spectra.headFact
  rw [hargs,ht,htick]
  intro hnone
  obtain ⟨f,-,hf⟩ := Runs.bind_ok.mp hnone
  cases hf

/-! ### Clauses over unheaded predicates -/

/-- The pattern of the facts that a distinct or absence clause counts. -/
def CompiledRule.counted (c : CompiledRule) : Option Pattern :=
  match c.temporal with
  | some (.distinct _ ofSlot _ _) => slotItem c.body ofSlot
  | some (.absence _ _ pattern) => some pattern
  | _ => none

/-- The distinct and absence patterns name predicates that no rule heads. -/
def RuleTable.CountsUnheaded (table : RuleTable) : Prop :=
  ∀ c ∈ table.detectRules, ∀ p ∈ c.counted, ∀ d ∈ table.rules, d.head.predicate ≠ p.predicate

theorem CompiledRule.Meets.predicate {compiled : CompiledRule} {chosen : List (Fact D)}
    {bind : Bind} {f : Fact D} (h : compiled.Meets chosen bind f) :
    ∃ p ∈ compiled.counted, f.predicate = p.predicate := by
  unfold CompiledRule.Meets at h
  split at h
  · rename_i hc
    obtain ⟨pattern,hp,-,-,-,ha⟩ := h
    simp only [agreesExcept,Bool.and_eq_true,decide_eq_true_eq] at ha
    exact ⟨pattern,by rw [CompiledRule.counted,hc]; exact hp,ha.1.1⟩
  · rename_i pattern hc
    obtain ⟨-,-,-,hu⟩ := h
    unfold unify at hu
    split at hu
    · cases hu
    · rename_i hn
      push Not at hn
      exact ⟨pattern,by rw [CompiledRule.counted,hc]; rfl,hn.1⟩
  · cases h

theorem RuleTable.CountsUnheaded.rests (h : s.table.CountsUnheaded) : ClausesRest D s := by
  intro compiled hr chosen bind _ _ _ f hf hm
  refine (Engine.loose_cases hf).resolve_right ?_
  rintro ⟨d,hd,hh⟩
  obtain ⟨p,hp,hfp⟩ := hm.predicate
  exact h compiled hr p hp d (RuleTable.mem_detectRules.mp hd).1 (hh.symm.trans hfp)

/-! ### Order and closure -/

/-- A saturation ends with the same facts and instances in whatever order the rules are listed;
every combination over the final base, judged against it, is an instance, and every instance is
such a combination. -/
structure Settles (C : Ceilings) (s : Setup) (e : Engine D) : Prop where
  order : ∀ {rules rules' e₁ e₂}, rules.Perm s.table.detectRules → rules'.Perm s.table.detectRules →
    e.saturateIn C s rules = .ok e₁ → e.saturateIn C s rules' = .ok e₂ →
      e₁.capped = false → e₂.capped = false →
        (∀ f, f ∈ e₁.base.facts ↔ f ∈ e₂.base.facts) ∧ ∀ i, i ∈ e₁.instances ↔ i ∈ e₂.instances
  closed : ∀ {rules e₁}, rules.Perm s.table.detectRules → e.saturateIn C s rules = .ok e₁ →
    e₁.capped = false → ∀ {compiled chosen bind},
      Combination s {f | f ∈ e₁.base.facts} compiled chosen bind →
        ∃ i ∈ e₁.instances, i.Of compiled chosen
  sound : ∀ {rules e₁}, rules.Perm s.table.detectRules → e.saturateIn C s rules = .ok e₁ →
    e₁.capped = false → ∀ i ∈ e₁.instances, ∃ compiled chosen bind,
      Combination s {f | f ∈ e₁.base.facts} compiled chosen bind ∧ i.Of compiled chosen

/-- When no clause counts a derived fact and every head is bound, a seeded base settles. -/
theorem saturate_settles (hrest : ClausesRest D s)
    (hheads : ∀ compiled ∈ s.table.detectRules, compiled.HeadBound) {e : Engine D}
    (h : Engine.empty.seed C s = .ok e) : Settles C s e where
  order := by
    intro rules rules' e₁ e₂ hperm hperm' h₁ h₂ hc₁ hc₂
    have hseed := Engine.seed_seeded h
    have hfacts : ∀ f, f ∈ e₁.base.facts ↔ f ∈ e₂.base.facts := fun f =>
      (Engine.ended_facts hseed hrest hperm h₁ hc₁).trans
        (Engine.ended_facts hseed hrest hperm' h₂ hc₂).symm
    refine ⟨hfacts,fun i => ⟨fun hi => ?_,fun hi => ?_⟩⟩
    · obtain ⟨compiled,hr,chosen,bind,head,hc,hj,hem⟩ :=
        Engine.ended_instances hseed hrest hperm h₁ hc₁ hi
      exact (Engine.ended_fires hseed hrest hperm' h₂ hc₂ hr
        (fun f hf => (hfacts f).mp (hc f hf)) hj hem).2
    · obtain ⟨compiled,hr,chosen,bind,head,hc,hj,hem⟩ :=
        Engine.ended_instances hseed hrest hperm' h₂ hc₂ hi
      exact (Engine.ended_fires hseed hrest hperm h₁ hc₁ hr
        (fun f hf => (hfacts f).mpr (hc f hf)) hj hem).2
  closed := by
    intro rules e₁ hperm h₁ hc₁ compiled chosen bind hc
    have hseed := Engine.seed_seeded h
    obtain ⟨i,head,hem⟩ := Engine.ended_emits hseed hrest hperm h₁ hc₁ hc
      ((hheads compiled hc.rule).headFact hc.joins)
    exact ⟨i,(Engine.ended_fires hseed hrest hperm h₁ hc₁ hc.rule hc.drawn hc.joins hem).2,hem.of⟩
  sound := by
    intro rules e₁ hperm h₁ hc₁ i hi
    have hseed := Engine.seed_seeded h
    obtain ⟨compiled,hr,chosen,bind,head,hc,hj,hem⟩ :=
      Engine.ended_instances hseed hrest hperm h₁ hc₁ hi
    exact ⟨compiled,chosen,bind,
      Engine.ended_combination hseed hrest hperm h₁ hc₁ hr hc hj hem,hem.of⟩

def startPattern : Pattern where
  predicate := "start"
  vars := ["user","t"]
  valid := by decide

def quietPattern : Pattern where
  predicate := "quiet"
  vars := ["user","t"]
  valid := by decide

/-- A login that no session of the ten ticks before it explains. -/
def quietRule : CompiledRule where
  rule := ⟨"rl:r0001","1.0.0",.detect,["src:iam"],false,""⟩
  head := quietPattern
  body := [loginPattern]
  when := none
  blockers := []
  temporal := some (.absence 10 "a" sessionPattern)
  silentBindKinds := []
  valid := by decide
  kindsSorted := no_kinds

def startRule : CompiledRule where
  rule := ⟨"rl:r0002","1.0.0",.detect,["src:iam"],false,""⟩
  head := sessionPattern
  body := [startPattern]
  when := none
  blockers := []
  temporal := none
  silentBindKinds := []
  valid := by decide
  kindsSorted := no_kinds

def startRecord : CanonicalEvent where
  eventId := "ev:2"
  sourceId := "src:iam"
  seq := 0
  eventType := "start"
  tEvtNs := 15000000000
  valid := by decide

def watchDigest : Digest := .tabled [
  factPayload "login" ["en:a"] 20,factPayload "start" ["en:a"] 15,
  factPayload "session" ["en:a"] 15,factPayload "quiet" ["en:a"] 20]

def watchSetup (rules : List CompiledRule) (h : compileChecks rules = .ok ()) : Setup :=
  ⟨⟨rules,h⟩,[loginRecord,startRecord],[⟨"ev:1","user","en:a"⟩,⟨"ev:2","user","en:a"⟩],none⟩

/-- The quiet rule alone: nothing heads what its clause counts. -/
def quietSetup : Setup := watchSetup [quietRule] (by decide)

/-- With the rule that heads the sessions its clause counts. -/
def mixedSetup : Setup := watchSetup [quietRule,startRule] (by decide)

theorem quietSetup_countsUnheaded : quietSetup.table.CountsUnheaded := by
  intro c hc p hp d hd
  have hd : d = quietRule := List.mem_singleton.mp hd
  have hc : c = quietRule := List.mem_singleton.mp (RuleTable.mem_detectRules.mp hc).1
  subst hc hd
  cases hp
  decide

theorem quietSetup_headBound : ∀ compiled ∈ quietSetup.table.detectRules, compiled.HeadBound := by
  intro c hc
  obtain rfl : c = quietRule := List.mem_singleton.mp (RuleTable.mem_detectRules.mp hc).1
  exact ⟨fun name hn => ⟨loginPattern,List.mem_singleton.mpr rfl,hn⟩,loginPattern,
    List.mem_singleton.mpr rfl,rfl⟩

theorem saturate_settles_quiet : ∃ e : Engine watchDigest,
    Engine.empty.seed .source quietSetup = .ok e ∧ Settles .source quietSetup e := by
  have hrun : (Engine.empty.seed .source quietSetup : Fallible (Engine watchDigest)).isOk = true := by
    decide
  exact ⟨_,valueOf_ok _ hrun,saturate_settles quietSetup_countsUnheaded.rests quietSetup_headBound
    (valueOf_ok _ hrun)⟩

/-- The quiet rule fires before the session it looks for is derived, and not after. -/
theorem saturate_unsettled : ¬∀ (D : Digest) (C : Ceilings) (s : Setup) (e : Engine D),
    Engine.empty.seed C s = .ok e → Settles C s e := by
  intro hall
  have hrun : (do
      let e : Engine watchDigest ← Engine.empty.seed .source mixedSetup
      let e₁ ← e.saturateIn .source mixedSetup [quietRule,startRule]
      let e₂ ← e.saturateIn .source mixedSetup [startRule,quietRule]
      ensure (e₁.capped = false ∧ e₂.capped = false ∧ e₁.instances.any (·.ruleId = "rl:r0001") ∧
        ¬e₂.instances.any (·.ruleId = "rl:r0001")) (ErrorType.verdictError.mk "")
      : Fallible _).isOk = true := by decide
  obtain ⟨e,he,hrun⟩ := Runs.bind_ok.mp (valueOf_ok _ hrun)
  obtain ⟨e₁,h₁,hrun⟩ := Runs.bind_ok.mp hrun
  obtain ⟨e₂,h₂,hrun⟩ := Runs.bind_ok.mp hrun
  obtain ⟨hc₁,hc₂,hin,hout⟩ := ensure_ok.mp hrun
  have hperm : [quietRule,startRule].Perm mixedSetup.table.detectRules := List.Perm.refl _
  obtain ⟨-,hsame⟩ := (hall _ _ _ e he).order hperm ((List.Perm.swap ..).trans hperm) h₁ h₂ hc₁ hc₂
  obtain ⟨i,hi,hr⟩ := List.any_eq_true.mp hin
  exact hout (List.any_eq_true.mpr ⟨i,(hsame i).mp hi,hr⟩)

/-! ### The naive fixpoint -/

/-- One naive round: the records, and the head of every combination that carries evidence. -/
def naiveStep (s : Setup) (base : Set (Fact D)) : Set (Fact D) :=
  {f | (∃ ev, Engine.Recorded s f ev) ∨ ∃ compiled chosen bind,
    Combination s base compiled chosen bind ∧ Evidenced s chosen ∧
      headFact D compiled bind = .ok (some f)}

def naiveRound (s : Setup) : ℕ → Set (Fact D)
  | 0 => ∅
  | n+1 => naiveStep s (naiveRound s n)

/-- The program holds what the naive rounds reach and no other fact; of the combinations that
carry evidence and give their head a value each has exactly one instance, and no other
instance exists. -/
structure NaiveFixpoint (s : Setup) (program : Program D) : Prop where
  limit : ∀ f, f ∈ program.facts ↔ ∃ n, f ∈ naiveRound s n
  fixed : naiveStep s {f | f ∈ program.facts} = {f | f ∈ program.facts}
  fires : ∀ {compiled chosen bind head},
    Combination s {f | f ∈ program.facts} compiled chosen bind → Evidenced s chosen →
      headFact D compiled bind = .ok (some head) →
        ∃! i, i ∈ program.instances ∧ i.Of compiled chosen
  only : ∀ i ∈ program.instances, ∃ compiled chosen bind head,
    Combination s {f | f ∈ program.facts} compiled chosen bind ∧ Evidenced s chosen ∧
      headFact D compiled bind = .ok (some head) ∧ i.Of compiled chosen ∧ i.head = head.factKey

theorem Combination.loose {base : Set (Fact D)} {compiled : CompiledRule} {chosen : List (Fact D)}
    {bind : Bind} (h : Combination s base compiled chosen bind) (hb : ∀ f ∈ base, Loose s f)
    {head : Fact D} (hh : headFact D compiled bind = .ok (some head)) : Loose s head :=
  .fire (r := ⟨head,chosen⟩) ⟨compiled,h.rule,bind,h.joins,h.guard,hh⟩ fun f hf => hb f (h.drawn f hf)

/-- A combination stays one over a larger base that lies within what the records derive. -/
theorem Combination.mono {base base' : Set (Fact D)} (hrest : ClausesRest D s) (hb : Within s base)
    (hb' : Within s base') (hsub : base ⊆ base') {compiled : CompiledRule} {chosen : List (Fact D)}
    {bind : Bind} (h : Combination s base compiled chosen bind) :
    Combination s base' compiled chosen bind :=
  ⟨h.rule,fun f hf => hsub (h.drawn f hf),h.joins,h.guard,
    (hrest.judge hb hb' h.rule (fun f hf => hb.loose f (h.drawn f hf)) h.joins h.guard).mp h.clause⟩

theorem Combination.not_empty {compiled : CompiledRule} {chosen : List (Fact D)} {bind : Bind} :
    ¬Combination s ∅ compiled chosen bind := by
  intro h
  cases chosen with
  | nil => exact compiled.body_ne_nil (List.length_eq_zero_iff.mp (Engine.joined_length h.joins).symm)
  | cons f fs => exact h.drawn f (by simp)

theorem naiveRound_loose (n : ℕ) : ∀ f ∈ naiveRound (D := D) s n, Loose s f := by
  induction n with
  | zero => exact fun f hf => hf.elim
  | succ n ih =>
    rintro f (⟨ev,hev⟩ | ⟨compiled,chosen,bind,hc,-,hh⟩)
    · exact .seed ⟨ev,hev⟩
    · exact hc.loose ih hh

theorem naiveRound_within (n : ℕ) : Within s (naiveRound (D := D) s (n+1)) :=
  ⟨fun _ ev hev => .inl ⟨ev,hev⟩,naiveRound_loose (n+1)⟩

theorem naiveStep_mono {base base' : Set (Fact D)} (hrest : ClausesRest D s) (hb : Within s base)
    (hb' : Within s base') (hsub : base ⊆ base') : naiveStep s base ⊆ naiveStep s base' := by
  rintro f (hf | ⟨compiled,chosen,bind,hc,hev,hh⟩)
  · exact .inl hf
  · exact .inr ⟨compiled,chosen,bind,hc.mono hrest hb hb' hsub,hev,hh⟩

theorem naiveRound_succ (hrest : ClausesRest D s) (n : ℕ) :
    naiveRound (D := D) s n ⊆ naiveRound s (n+1) := by
  induction n with
  | zero => exact fun f hf => hf.elim
  | succ n ih =>
    cases n with
    | zero =>
      rintro f (hf | ⟨compiled,chosen,bind,hc,-⟩)
      · exact .inl hf
      · exact absurd hc Combination.not_empty
    | succ n => exact naiveStep_mono hrest (naiveRound_within n) (naiveRound_within (n+1)) ih

/-- The naive rounds stay below any base that one of them does not enlarge. -/
theorem naiveRound_subset (hrest : ClausesRest D s) {base : Set (Fact D)} (hb : Within s base)
    (hstep : naiveStep s base ⊆ base) (n : ℕ) : naiveRound s n ⊆ base := by
  induction n with
  | zero => exact fun f hf => hf.elim
  | succ n ih =>
    cases n with
    | zero =>
      rintro f (⟨ev,hev⟩ | ⟨compiled,chosen,bind,hc,-⟩)
      · exact hb.records f ev hev
      · exact absurd hc Combination.not_empty
    | succ n => exact (naiveStep_mono hrest (naiveRound_within n) hb ih).trans hstep

/-- Finitely many facts of the limit are together in one round. -/
theorem naiveRound_gather (hrest : ClausesRest D s) (fs : List (Fact D))
    (h : ∀ f ∈ fs, ∃ n, f ∈ naiveRound s n) : ∃ n, ∀ f ∈ fs, f ∈ naiveRound s n := by
  have hmono : Monotone (naiveRound (D := D) s) := monotone_nat_of_le_succ (naiveRound_succ hrest)
  induction fs with
  | nil => exact ⟨0,by simp⟩
  | cons f fs ih =>
    obtain ⟨n,hn⟩ := h f (by simp)
    obtain ⟨m,hm⟩ := ih fun g hg => h g (by simp [hg])
    refine ⟨max n m,fun g hg => ?_⟩
    rcases List.mem_cons.mp hg with rfl | hg
    · exact hmono (le_max_left n m) hn
    · exact hmono (le_max_right n m) (hm g hg)

section Ended

variable {e e' : Engine D} {rules : List CompiledRule} {compiled : CompiledRule}
  {chosen : List (Fact D)} {bind : Bind} {i j : GroundInstance D} {head f : Fact D}
  (hseed : Engine.Seeded (Engine.Recorded s) e) (hrest : ClausesRest D s)
  (hperm : rules.Perm s.table.detectRules) (h : e.saturateIn C s rules = .ok e')
  (hcap : e'.capped = false)

include hseed hrest hperm h hcap

/-- A combination of the final base that gives its head a value has its head and its instance. -/
theorem ended_closed (hc : Combination s {f | f ∈ e'.base.facts} compiled chosen bind)
    (hh : headFact D compiled bind = .ok (some head)) :
    head ∈ e'.base.facts ∧ ∃ i ∈ e'.instances, i.Of compiled chosen := by
  obtain ⟨i,head',hem⟩ := Engine.ended_emits hseed hrest hperm h hcap hc (by simp [hh])
  have hland := Engine.ended_fires hseed hrest hperm h hcap hc.rule hc.drawn hc.joins hem
  cases hh.symm.trans hem.head
  exact ⟨hland.1,i,hland.2,hem.of⟩

/-- A rule and its facts have one instance. -/
theorem ended_unique (hr : compiled ∈ s.table.detectRules) (hi : i ∈ e'.instances)
    (hof : i.Of compiled chosen) (hj : j ∈ e'.instances) (hof' : j.Of compiled chosen) : j = i := by
  obtain ⟨c₁,hr₁,ch₁,b₁,h₁,-,hj₁,hem₁⟩ := Engine.ended_instances hseed hrest hperm h hcap hi
  obtain ⟨c₂,hr₂,ch₂,b₂,h₂,-,hj₂,hem₂⟩ := Engine.ended_instances hseed hrest hperm h hcap hj
  obtain ⟨rfl,rfl⟩ := hem₁.of.unique hof hr₁ hr
  obtain ⟨rfl,rfl⟩ := hem₂.of.unique hof' hr₂ hr₁
  cases hj₁.symm.trans hj₂
  exact (hem₂.unique hem₁).1

theorem ended_step : naiveStep s {f | f ∈ e'.base.facts} ⊆ {f | f ∈ e'.base.facts} := by
  rintro f (⟨ev,hev⟩ | ⟨compiled,chosen,bind,hcomb,-,hh⟩)
  · exact (Engine.ended_within hseed hperm h hcap).records f ev hev
  · exact (ended_closed hseed hrest hperm h hcap hcomb hh).1

/-- A fact of the final base comes in some naive round, and again in the next. -/
theorem ended_round (hf : f ∈ e'.base.facts) :
    (∃ n, f ∈ naiveRound s n) ∧ f ∈ naiveStep s {f | f ∈ e'.base.facts} := by
  have hwithin := Engine.ended_within hseed hperm h hcap
  have hd := (Engine.ended_facts hseed hrest hperm h hcap).mp hf
  induction hd with
  | seed hev => exact ⟨⟨1,.inl hev⟩,.inl hev⟩
  | @fire r hr hb ih =>
    obtain ⟨compiled,hrule,bind,i,hj,hem⟩ := hr
    have hdrawn : ∀ b ∈ r.body, b ∈ e'.base.facts := fun b hm =>
      (Engine.ended_facts hseed hrest hperm h hcap).mpr (hb b hm)
    have hloose := fun b hm => hwithin.loose b (hdrawn b hm)
    have hcomb := Engine.ended_combination hseed hrest hperm h hcap hrule hdrawn hj hem
    have hev := Engine.evidenced hrule hloose hj
    -- the body is together in one round, which judges the clause as the final base does
    obtain ⟨n,hn⟩ := naiveRound_gather hrest r.body fun b hm => (ih b hm (hdrawn b hm)).1
    have hround : Combination s (naiveRound s (n+1)) compiled r.body bind :=
      ⟨hrule,fun b hm => naiveRound_succ hrest n (hn b hm),hj,hcomb.guard,
        (hrest.judge (naiveRound_within n) hwithin hrule hloose hj hcomb.guard).mpr hcomb.clause⟩
    exact ⟨⟨n+2,.inr ⟨compiled,r.body,bind,hround,hev,hem.head⟩⟩,
      .inr ⟨compiled,r.body,bind,hcomb,hev,hem.head⟩⟩

end Ended

/-- Grounding ends with the naive fixpoint when clauses count unheaded predicates only. -/
theorem ground_naive (hcounts : s.table.CountsUnheaded) {result : GroundingResult D}
    (h : ground D C s = .ok result) (hc : result.capped = false) :
    NaiveFixpoint s result.program := by
  obtain ⟨e,hseed,h⟩ := Runs.bind_ok.mp h
  obtain ⟨e',hsat,h⟩ := Runs.bind_ok.mp h
  obtain ⟨-,-,h⟩ := Runs.bind_ok.mp h
  obtain ⟨program,hp,h⟩ := Runs.bind_ok.mp h
  cases h
  simp only at hc
  have hseed := Engine.seed_seeded hseed
  have hrest : ClausesRest D s := hcounts.rests
  rw [Engine.saturate_eq] at hsat
  have hperm := List.Perm.refl s.table.detectRules
  obtain ⟨hf,hi,-⟩ := Engine.snapshot_ok hp
  have hbase : {f | f ∈ program.facts} = {f | f ∈ e'.base.facts} := Set.ext hf
  have hwithin : Within s {f | f ∈ e'.base.facts} := Engine.ended_within hseed hperm hsat hc
  have hstep := ended_step hseed hrest hperm hsat hc
  refine ⟨fun f => ⟨fun hm => ?_,fun ⟨n,hn⟩ => ?_⟩,?_,?_,?_⟩
  · exact (ended_round hseed hrest hperm hsat hc ((hf f).mp hm)).1
  · exact (hf f).mpr (naiveRound_subset hrest hwithin hstep n hn)
  · rw [hbase]
    exact hstep.antisymm fun f hm => (ended_round hseed hrest hperm hsat hc hm).2
  · intro compiled chosen bind head hcomb _ hh
    rw [hbase] at hcomb
    obtain ⟨-,i,him,hof⟩ := ended_closed hseed hrest hperm hsat hc hcomb hh
    exact ⟨i,⟨(hi i).mpr him,hof⟩,fun j hj =>
      ended_unique hseed hrest hperm hsat hc hcomb.rule him hof ((hi j).mp hj.1) hj.2⟩
  · intro i him
    obtain ⟨compiled,hr,chosen,bind,head,hdrawn,hj,hem⟩ :=
      Engine.ended_instances hseed hrest hperm hsat hc ((hi i).mp him)
    rw [hbase]
    exact ⟨compiled,chosen,bind,head,
      Engine.ended_combination hseed hrest hperm hsat hc hr hdrawn hj hem,
      Engine.evidenced hr (fun b hm => hwithin.loose b (hdrawn b hm)) hj,hem.head,hem.of,
      hem.fields.2.1⟩

theorem ground_naive_quiet : ∃ result : GroundingResult watchDigest,
    ground watchDigest .source quietSetup = .ok result ∧ result.program.instances ≠ [] ∧
      NaiveFixpoint quietSetup result.program := by
  have hrun : (do
      let result ← ground watchDigest .source quietSetup
      ensure (result.capped = false ∧ result.program.instances ≠ []) (ErrorType.verdictError.mk "")
      pure result : Fallible _).isOk = true := by decide
  obtain ⟨result,hr,hrun⟩ := Runs.bind_ok.mp (valueOf_ok _ hrun)
  obtain ⟨_,hc,-⟩ := Runs.bind_ok.mp hrun
  obtain ⟨hcap,hne⟩ := ensure_ok.mp hc
  exact ⟨result,hr,hne,ground_naive quietSetup_countsUnheaded hr hcap⟩

/-! ### A head that no body binds -/

def rolePattern : Pattern where
  predicate := "session"
  vars := ["user","role","t"]
  valid := by decide

/-- The role is drawn by the envelope alone. -/
def roleRule : CompiledRule where
  rule := ⟨"rl:r0001","1.0.0",.detect,["src:iam"],true,""⟩
  head := rolePattern
  body := [loginPattern]
  when := none
  blockers := []
  temporal := none
  silentBindKinds := [("role","account")]
  valid := by decide
  kindsSorted := by decide

def roleSetup : Setup := watchSetup [roleRule] (by decide)

theorem login_minted : (Fact.mint watchDigest "login" ["en:a"] 20).isOk = true := by decide

def loginFact : Fact watchDigest := valueOf (Fact.mint watchDigest "login" ["en:a"] 20) login_minted

/-- A combination that carries evidence and gives no instance, for its head has no value. -/
theorem ground_skips : ¬∀ (D : Digest) (C : Ceilings) (s : Setup) (result : GroundingResult D),
    s.table.CountsUnheaded → ground D C s = .ok result → result.capped = false →
      ∀ {compiled chosen bind}, Combination s {f | f ∈ result.program.facts} compiled chosen bind →
        Evidenced s chosen → ∃! i, i ∈ result.program.instances ∧ i.Of compiled chosen := by
  intro hall
  have hrun : (do
      let result ← ground watchDigest .source roleSetup
      ensure (result.capped = false ∧ result.program.instances = [] ∧
        loginFact ∈ result.program.facts) (ErrorType.verdictError.mk "")
      pure result : Fallible _).isOk = true := by decide
  obtain ⟨result,hr,hrun⟩ := Runs.bind_ok.mp (valueOf_ok _ hrun)
  obtain ⟨_,hc,-⟩ := Runs.bind_ok.mp hrun
  obtain ⟨hcap,hnone,hfact⟩ := ensure_ok.mp hc
  have hcounts : roleSetup.table.CountsUnheaded := by
    intro c hc p hp
    obtain rfl : c = roleRule := List.mem_singleton.mp (RuleTable.mem_detectRules.mp hc).1
    cases hp
  have hjoin : (Engine.joined [] roleRule.body [loginFact]).isSome = true := by decide
  obtain ⟨bind,hbind⟩ := Option.isSome_iff_exists.mp hjoin
  have hcomb : Combination roleSetup {f | f ∈ result.program.facts} roleRule [loginFact] bind :=
    ⟨List.mem_singleton.mpr rfl,fun f hf => List.mem_singleton.mp hf ▸ hfact,hbind,rfl,trivial⟩
  have hev : Evidenced roleSetup [loginFact] :=
    ⟨loginFact,by simp,loginRecord,by simp [roleSetup,watchSetup],valueOf_ok _ _⟩
  obtain ⟨i,⟨hi,-⟩,-⟩ := hall _ _ _ result hcounts hr hcap hcomb hev
  rw [hnone] at hi
  cases hi

end Spectra
