import Spectra.Ground

/-! `spectra_vs.envelope`: the liveness view, the licensed silent instances, the
obligations, and the bracket of `P_min` and `P_max` built from two engines. -/
namespace Spectra

/-! ### The liveness document -/

structure LivenessInterval where
  t0Ns : ℤ
  t1Ns : ℤ
  verdict : LivenessVerdict
  reason : String
  witness : List EventId
  valid : checks [Interval.postInit t0Ns t1Ns,ensure (reason ≠ "")
    (ErrorType.schemaError.mk "LivenessInterval.reason is mandatory")] = .ok ()
  deriving DecidableEq

def LivenessInterval.isLive (i : LivenessInterval) : Bool := i.verdict = .live

/-- One source's timeline, ascending by `t0Ns`. -/
structure SourceLiveness where
  sourceId : SourceId
  intervals : List LivenessInterval
  valid : checkStrictlyAscending ("SourceLiveness["++sourceId++"]") (intervals.map (·.t0Ns)) = .ok ()
  deriving DecidableEq

/-- A maximal contiguous run of one verdict and reason that is not live. -/
structure NonLiveRun where
  sourceId : SourceId
  t0Ns : ℤ
  t1Ns : ℤ
  verdict : LivenessVerdict
  reason : String
  witness : List EventId
  deriving DecidableEq, Repr

def NonLiveRun.licence (D : Digest) (run : NonLiveRun) : Fallible Licence := do
  let interval ← Interval.of run.t0Ns run.t1Ns
  let basis := if run.verdict = .suppressed then LicenceBasis.suppressed else .blind
  let witness := if basis = .suppressed then run.witness else []
  Licence.mint D run.sourceId interval basis run.reason (witness.insertionSort (· ≤ ·))

structure LivenessView where
  sources : List SourceLiveness
  valid : checkStrictlyAscending "LivenessView" (sources.map (·.sourceId)) = .ok ()
  deriving DecidableEq

/-- Extend the last run or begin a new one. -/
def extendRuns (sourceId : SourceId) (merged : List NonLiveRun) (i : LivenessInterval) :
    List NonLiveRun :=
  if i.isLive then merged
  else
    let run : NonLiveRun := ⟨sourceId,i.t0Ns,i.t1Ns,i.verdict,i.reason,i.witness⟩
    match merged.getLast? with
    | none => merged++[run]
    | some previous =>
      if previous.t1Ns = i.t0Ns ∧ previous.verdict = i.verdict ∧ previous.reason = i.reason then
        merged.dropLast++[{previous with
          t1Ns := i.t1Ns
          witness := (previous.witness++i.witness).dedup.insertionSort (· ≤ ·)}]
      else merged++[run]

/-- The runs that cover up to `t1` from a cursor on, or none when an instant is left out. -/
def coverFrom (t1 : ℤ) : List NonLiveRun → ℤ → Option (List NonLiveRun)
  | [], _ => none
  | run::rest, cursor =>
    if run.t1Ns ≤ cursor then coverFrom t1 rest cursor
    else if cursor < run.t0Ns then none
    else if t1 ≤ run.t1Ns then some [run]
    else (coverFrom t1 rest run.t1Ns).map (run::·)

/-- Append an elementary window, or extend the last one that it meets. -/
def keepWindow (kept : List Interval) (elementary : Interval) : Fallible (List Interval) :=
  match kept.getLast? with
  | none => .ok (kept++[elementary])
  | some last =>
    if last.t1Ns = elementary.t0Ns then do
      let window ← Interval.of last.t0Ns elementary.t1Ns
      pure (kept.dropLast++[window])
    else .ok (kept++[elementary])

namespace LivenessView

variable (view : LivenessView)

def timeline (sourceId : SourceId) : List LivenessInterval :=
  ((view.sources.find? (·.sourceId = sourceId)).map (·.intervals)).getD []

def runs (sourceId : SourceId) : List NonLiveRun :=
  (view.timeline sourceId).foldl (extendRuns sourceId) []

def coveringRuns (sourceId : SourceId) (window : Interval) : Option (List NonLiveRun) :=
  if window.isEmpty then none else coverFrom window.t1Ns (view.runs sourceId) window.t0Ns

def breakpoints (sources : List SourceId) : List ℤ :=
  (sources.flatMap fun source => (view.timeline source).flatMap fun i =>
    [i.t0Ns,i.t1Ns]).dedup.insertionSort (· ≤ ·)

/-- The maximal windows over which every named source is non-live. -/
def jointBlindWindows (sources : List SourceId) : Fallible (List Interval) :=
  if sources = [] then .ok []
  else
    let ordered := view.breakpoints sources
    (ordered.zip ordered.tail).foldlM (fun kept p => do
      let elementary ← Interval.of p.1 p.2
      if elementary.isEmpty then pure kept
      else if sources.all fun source => (view.coveringRuns source elementary).isSome then
        keepWindow kept elementary
      else pure kept) []

end LivenessView

/-! ### Results -/

/-- An obligation that is unsatisfied and unlicensed. -/
structure BlindSpot where
  ruleId : RuleId
  headPredicate : String
  t0Ns : ℤ
  t1Ns : ℤ
  producingSources : List SourceId
  reason : String
  deriving DecidableEq, Repr

def BlindSpot.sortKey (b : BlindSpot) : RuleId ×ₗ String ×ₗ ℤ ×ₗ ℤ :=
  toLex (b.ruleId,toLex (b.headPredicate,toLex (b.t0Ns,b.t1Ns)))

structure EnvelopeResult (D : Digest) where
  pMin : Program D
  pMax : Program D
  licences : List Licence
  blindSpots : List BlindSpot
  capped : Bool
  capDetail : String

/-! ### Silent instances -/

variable {D : Digest}

def freshEngine (D : Digest) (C : Ceilings) (s : Setup) : Fallible (Engine D) := do
  let e ← Engine.empty.seed C s
  e.saturate C s

def entitiesByKind (entities : List Entity) (kind : String) : List Entity :=
  (entities.filter (·.kind = kind)).insertionSort (·.entityId ≤ ·.entityId)

/-- `itertools.product`: the last pool varies fastest. -/
def product {α : Type} : List (List α) → List (List α)
  | [] => [[]]
  | pool::pools => pool.flatMap fun a => (product pools).map (a::·)

abbrev EntityBinding := List (String × Entity)

/-- The combinations the rule declares as drawable; the loop stops at the ceiling, which
it tests after each combination. -/
def silentBindings (C : Ceilings) (compiled : CompiledRule) (entities : List Entity) :
    List EntityBinding :=
  let pools := compiled.silentBindKinds.map fun p => entitiesByKind entities p.2
  if pools.any (· = []) then []
  else ((product pools).take (max 1 C.maxSilentBindings)).map fun chosen =>
    (compiled.silentBindKinds.map (·.1)).zip chosen

def licencesFrom (D : Digest) (view : LivenessView) (window : Interval) :
    List SourceId → Fallible (Option (List Licence))
  | [] => .ok (some [])
  | source::rest =>
    match view.coveringRuns source window with
    | none => .ok none
    | some runs => do
      let own ← runs.mapM (·.licence D)
      let more ← licencesFrom D view window rest
      pure (more.map (own++·))

/-- Every licence covering the window on every source, or none if any is live. -/
def licencesForWindow (D : Digest) (view : LivenessView) (sources : List SourceId)
    (window : Interval) : Fallible (Option (List Licence)) := do
  let found ← licencesFrom D view window (sources.insertionSort (· ≤ ·))
  pure (found.map fun found =>
    ((found.foldl (fun unique l => Dict.set unique l.licenseId l) []).map (·.2)).insertionSort
      (·.sortKey ≤ ·.sortKey))

def licenceIds (licences : List Licence) : List LicenseId :=
  (licences.map (·.licenseId)).dedup.insertionSort (· ≤ ·)

/-- The engine, the licences minted so far and the instances counted so far. -/
structure SilentState (D : Digest) where
  engine : Engine D
  minted : List (LicenseId × Licence)
  counter : ℕ

namespace SilentState

def mint (st : SilentState D) (licences : List Licence) : SilentState D :=
  {st with minted := licences.foldl (fun d l => Dict.setDefault d l.licenseId l) st.minted}

def add (C : Ceilings) (span : Option (ℤ × ℤ)) (st : SilentState D) (p : GroundInstance D × Fact D) :
    SilentState D :=
  let r := st.engine.addInstance C p.1 p.2 span
  {st with engine := r.1, counter := if r.2 then st.counter+1 else st.counter}

def recordCap (C : Ceilings) (st : SilentState D) : SilentState D :=
  let detail := "MAX_SILENT_INSTANCES="++toString C.maxSilentInstances++" reached"
  {st with engine := st.engine.recordCap detail}

end SilentState

def boundArgs (bound : EntityBinding) (names : List String) : Option (List EntityId) :=
  names.mapM fun name => (Dict.get? bound name).map (·.entityId)

/-- A ghost premise for an absent slot, unless the base has the fact. -/
def ghostPremise (e : Engine D) (compiled : CompiledRule) (tick : ℤ) (ids : List LicenseId)
    (premiseFact : Fact D) : Fallible (List (GroundInstance D × Fact D)) :=
  if e.hasFact premiseFact.factKey then .ok []
  else do
    let premise ← GroundInstance.mint D compiled.ruleId compiled.rule.ruleVersion
      premiseFact.factKey [] [] .licensed tick [] ids true
    pure [(premise,premiseFact)]

/-- The premise keys of a silent instance, with the ghost premises the base lacks; none
when a variable is not drawn. -/
def silentPremises (e : Engine D) (compiled : CompiledRule) (tick : ℤ) (ids : List LicenseId)
    (bound : EntityBinding) :
    List Pattern → Fallible (Option (List FactHash × List (GroundInstance D × Fact D)))
  | [] => .ok (some ([],[]))
  | pattern::rest =>
    match boundArgs bound pattern.entityVars with
    | none => .ok none
    | some args => do
      let premiseFact ← Fact.mint D pattern.predicate args tick
      let own ← ghostPremise e compiled tick ids premiseFact
      let more ← silentPremises e compiled tick ids bound rest
      pure (more.map fun more => (premiseFact.factKey::more.1,own++more.2))

/-- One binding of one window. -/
def silentTurn (C : Ceilings) (compiled : CompiledRule) (tick : ℤ) (span : ℤ × ℤ)
    (ids : List LicenseId) (st : SilentState D) (bound : EntityBinding) :
    Fallible (SilentState D) := do
  match ← silentPremises st.engine compiled tick ids bound compiled.body with
  | none => pure st
  | some (bodyKeys,premises) =>
    match boundArgs bound compiled.head.entityVars with
    | none => pure st
    | some headArgs =>
      let headFact ← Fact.mint D compiled.head.predicate headArgs tick
      let i ← GroundInstance.mint D compiled.ruleId compiled.rule.ruleVersion headFact.factKey
        bodyKeys compiled.blockers .licensed tick [] ids false
      pure ((premises++[(i,headFact)]).foldl (SilentState.add C (some span)) st)

/-- The bindings of one window; the flag says that the ceiling ended the rule. -/
def silentBound (C : Ceilings) (compiled : CompiledRule) (tick : ℤ) (span : ℤ × ℤ)
    (ids : List LicenseId) : List EntityBinding → SilentState D → Fallible (SilentState D × Bool)
  | [], st => .ok (st,false)
  | bound::rest, st =>
    if C.maxSilentInstances ≤ st.counter then .ok (st.recordCap C,true)
    else do
      let st ← silentTurn C compiled tick span ids st bound
      silentBound C compiled tick span ids rest st

/-- The representative tick of a window and the closed range of its ticks. -/
def windowTick (window : Interval) : ℤ := window.t0Ns/tickNs

def windowSpan (window : Interval) : ℤ × ℤ :=
  (windowTick window,max (windowTick window) ((window.t1Ns-1)/tickNs))

def silentWindows (C : Ceilings) (view : LivenessView) (compiled : CompiledRule)
    (bindings : List EntityBinding) : List Interval → SilentState D → Fallible (SilentState D)
  | [], st => .ok st
  | window::rest, st => do
    match ← licencesForWindow D view compiled.rule.producingSources window with
    | none => silentWindows C view compiled bindings rest st
    | some licences =>
      let r ← silentBound C compiled (windowTick window) (windowSpan window) (licenceIds licences)
        bindings (st.mint licences)
      if r.2 then pure r.1 else silentWindows C view compiled bindings rest r.1

def addSilentDetect (C : Ceilings) (view : LivenessView) (entities : List Entity)
    (st : SilentState D) (compiled : CompiledRule) : Fallible (SilentState D) := do
  let windows ← view.jointBlindWindows compiled.rule.producingSources
  silentWindows C view compiled (silentBindings C compiled entities) windows st

def silentRules (table : RuleTable) : List CompiledRule :=
  table.detectRules.filter (·.rule.silentPossible)

/-! ### Obligations -/

abbrev ObligationState (D : Digest) := SilentState D × List BlindSpot

/-- The triggers of one obligation rule; reaching the ceiling ends the rule. -/
def obligationTriggers (C : Ceilings) (view : LivenessView) (compiled : CompiledRule) (within : ℤ)
    (pattern : Pattern) : List (Fact D) → ObligationState D → Fallible (ObligationState D)
  | [], st => .ok st
  | trigger::rest, st =>
    match compiled.head.entityVars.mapM fun name =>
        Dict.get? (pattern.entityVars.zip trigger.args) name with
    | none => obligationTriggers C view compiled within pattern rest st
    | some headArgs => do
      let headFact ← Fact.mint D compiled.head.predicate headArgs trigger.tick
      if st.1.engine.hasFact headFact.factKey then
        obligationTriggers C view compiled within pattern rest st
      else
        let low := max 0 (trigger.tick-within)
        let window ← Interval.of (low*tickNs) (trigger.tick*tickNs)
        match ← licencesForWindow D view compiled.rule.producingSources window with
        | none =>
          obligationTriggers C view compiled within pattern rest (st.1,st.2++
            [⟨compiled.ruleId,compiled.head.predicate,window.t0Ns,window.t1Ns,
              compiled.rule.producingSources,"obligation_unsatisfied_and_unlicensed"⟩])
        | some licences =>
          let silent := st.1.mint licences
          if C.maxSilentInstances ≤ silent.counter then pure (silent.recordCap C,st.2)
          else do
            let i ← GroundInstance.mint D compiled.ruleId compiled.rule.ruleVersion
              headFact.factKey [trigger.factKey] compiled.blockers .licensed trigger.tick []
              (licenceIds licences) true
            obligationTriggers C view compiled within pattern rest
              (silent.add C none (i,headFact),st.2)

def obligationRule (C : Ceilings) (view : LivenessView) (st : ObligationState D)
    (compiled : CompiledRule) : Fallible (ObligationState D) :=
  match compiled.temporal with
  | some (.obligation within _) => do
    let pattern ← nth compiled.body 0
    obligationTriggers C view compiled within pattern
      (st.1.engine.factsFor pattern.predicate pattern.arity) st
  | _ => .error (ErrorType.schemaError.mk (compiled.ruleId++": an obligation rule needs an "
      ++"obligation temporal clause naming the trigger slot and the window it obliges"))

def addObligations (C : Ceilings) (view : LivenessView) (table : RuleTable) (st : SilentState D) :
    Fallible (ObligationState D) := do
  let st ← table.obligationRules.foldlM (obligationRule C view) (st,[])
  pure (st.1,st.2.insertionSort (·.sortKey ≤ ·.sortKey))

/-! ### The bracket -/

/-- `P_min` is contained in `P_max` in facts and in instances. -/
def assertContains (lower upper : Program D) : Fallible Unit :=
  ensure ((∀ f ∈ lower.facts, f.factKey ∈ upper.facts.map (·.factKey)) ∧
      ∀ i ∈ lower.instances, i.instanceId ∈ upper.instances.map (·.instanceId))
    (ErrorType.schemaError.mk "PMin is not contained in PMax")

/-- The stages of the upper engine before its snapshot. -/
def upperEngine (D : Digest) (C : Ceilings) (s : Setup) (view : LivenessView)
    (entities : List Entity) : Fallible (ObligationState D) := do
  let e ← freshEngine D C s
  let st ← (silentRules s.table).foldlM (addSilentDetect C view entities) ⟨e,[],0⟩
  let e ← st.engine.saturate C s
  let ob ← addObligations C view s.table {st with engine := e}
  let e ← ob.1.engine.saturate C s
  e.assertGhostSupport s
  pure ({ob.1 with engine := e},ob.2)

/-- Both sides of the bracket. -/
def envelope (D : Digest) (C : Ceilings) (s : Setup) (view : LivenessView) (entities : List Entity)
    (pMin : Option (Program D)) : Fallible (EnvelopeResult D) := do
  let lowerEngine ← freshEngine D C s
  let lower ← lowerEngine.snapshot .pMin []
  let ob ← upperEngine D C s view entities
  let e := ob.1.engine
  let licences := (ob.1.minted.map (·.2)).insertionSort (·.sortKey ≤ ·.sortKey)
  let upper ← e.snapshot .pMax licences
  assertContains lower upper
  checks (pMin.toList.map (assertContains · upper))
  pure { pMin := lower
         pMax := upper
         licences
         blindSpots := ob.2
         capped := e.capped || lowerEngine.capped
         capDetail := if e.capDetail = "" then lowerEngine.capDetail else e.capDetail }

end Spectra
