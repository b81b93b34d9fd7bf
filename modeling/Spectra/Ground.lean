import Spectra.Rules

/-! `spectra_vs.ground`: the semi-naive fixpoint engine. The state is passed explicitly;
a ceiling that is reached is recorded in it, never raised. -/
namespace Spectra

inductive Absence where
  | observed | licensed | undetermined
  deriving DecidableEq, Repr

abbrev AbsenceAvailability := List SourceId → Interval → Absence

/-- One entity-resolution binding. -/
structure Binding where
  eventId : EventId
  role : String
  entityId : EntityId
  deriving DecidableEq, Repr

structure Ceilings where
  maxFacts : ℕ
  maxInstances : ℕ
  maxIterations : ℕ
  maxSilentInstances : ℕ
  maxSilentBindings : ℕ
  deriving DecidableEq, Repr

/-- `MAX_FACTS`, `MAX_INSTANCES`, `MAX_ITERATIONS`, `MAX_SILENT_INSTANCES`,
`MAX_SILENT_BINDINGS`. -/
def Ceilings.source : Ceilings := ⟨200000,500000,1000,100000,4096⟩

/-! ### The fact base -/

/-- The facts in insertion order and their index by predicate and arity, each bucket
ascending by key. -/
structure FactBase (D : Digest) where
  facts : List (Fact D)
  byPred : List ((String × ℕ) × List (Fact D))
  distinct : facts.Nodup
  indexed : ∀ p n f, f ∈ (Dict.get? byPred (p,n)).getD [] ↔
    f ∈ facts ∧ f.predicate = p ∧ f.args.length = n
  ordered : ∀ p n, ((Dict.get? byPred (p,n)).getD []).Pairwise (·.factKey ≤ ·.factKey)

variable {D : Digest}

namespace FactBase

def empty : FactBase D where
  facts := []
  byPred := []
  distinct := List.nodup_nil
  indexed := by simp
  ordered := by simp

def factsFor (b : FactBase D) (predicate : String) (arity : ℕ) : List (Fact D) :=
  (Dict.get? b.byPred (predicate,arity)).getD []

def hasFact (b : FactBase D) (key : FactHash) : Bool := b.facts.any (·.factKey = key)

theorem hasFact_iff {b : FactBase D} {f : Fact D} : b.hasFact f.factKey = true ↔ f ∈ b.facts := by
  simp only [hasFact,List.any_eq_true,decide_eq_true_eq]
  constructor
  · rintro ⟨g,hg,h⟩; exact Fact.key_inj h ▸ hg
  · exact fun h => ⟨f,h,rfl⟩

theorem mem_factsFor {b : FactBase D} {p : String} {n : ℕ} {f : Fact D} :
    f ∈ b.factsFor p n ↔ f ∈ b.facts ∧ f.predicate = p ∧ f.args.length = n :=
  b.indexed p n f

/-- A new fact, inserted into its bucket in place. -/
def insert (b : FactBase D) (fact : Fact D) (h : fact ∉ b.facts) : FactBase D where
  facts := b.facts++[fact]
  byPred := Dict.set b.byPred (fact.predicate,fact.args.length)
    ((b.factsFor fact.predicate fact.args.length).orderedInsert (·.factKey ≤ ·.factKey) fact)
  distinct := by
    rw [List.nodup_append]
    exact ⟨b.distinct,by simp,fun a ha c hc => by
      rw [List.mem_singleton.mp hc]; exact fun hac => h (hac ▸ ha)⟩
  indexed := by
    intro p n f
    rw [Dict.get?_set]
    split
    · rename_i hk
      obtain ⟨rfl,rfl⟩ := Prod.mk.injEq .. ▸ hk
      simp only [Option.getD_some,List.mem_orderedInsert,mem_factsFor,List.mem_append,
        List.mem_singleton]
      constructor
      · rintro (rfl | ⟨hf,hr⟩)
        · exact ⟨Or.inr rfl,rfl,rfl⟩
        · exact ⟨Or.inl hf,hr⟩
      · rintro ⟨hf | rfl,hr⟩
        · exact Or.inr ⟨hf,hr⟩
        · exact Or.inl rfl
    · rename_i hk
      rw [b.indexed,List.mem_append,List.mem_singleton]
      constructor
      · rintro ⟨hf,hr⟩; exact ⟨Or.inl hf,hr⟩
      · rintro ⟨hf | rfl,rfl,rfl⟩
        · exact ⟨hf,rfl,rfl⟩
        · exact absurd rfl hk
  ordered := by
    intro p n
    rw [Dict.get?_set]
    split
    · exact List.Pairwise.orderedInsert _ _ (b.ordered _ _)
    · exact b.ordered p n

end FactBase

/-! ### The engine -/

/-- What an engine is given. -/
structure Setup where
  table : RuleTable
  events : List CanonicalEvent
  bindings : List Binding
  absenceAvailability : Option AbsenceAvailability

/-- The state the engine keeps. The two snapshots are taken when a saturation begins. -/
structure Engine (D : Digest) where
  base : FactBase D
  instances : List (GroundInstance D)
  axioms : List FactHash
  axiomEvents : List (FactHash × List CanonicalEvent)
  licensedFacts : List FactHash
  ghostFacts : List FactHash
  delta : List (Fact D)
  timeFreeSnapshot : List FactHash
  licensedSpan : List (FactHash × (ℤ × ℤ))
  spanSnapshot : List (FactHash × (ℤ × ℤ))
  iterations : ℕ
  fixpointSteps : ℕ
  capped : Bool
  capDetail : String

/-- One more member of a set kept as a list. -/
def adjoin (key : FactHash) (keys : List FactHash) : List FactHash :=
  if key ∈ keys then keys else keys++[key]

theorem mem_adjoin {k k' : FactHash} {l : List FactHash} : k' ∈ adjoin k l ↔ k' = k ∨ k' ∈ l := by
  unfold adjoin
  split
  · rename_i h
    exact ⟨Or.inr,fun hk => hk.elim (fun he => he ▸ h) id⟩
  · simp [or_comm]

namespace Engine

def empty : Engine D where
  base := FactBase.empty
  instances := []
  axioms := []
  axiomEvents := []
  licensedFacts := []
  ghostFacts := []
  delta := []
  timeFreeSnapshot := []
  licensedSpan := []
  spanSnapshot := []
  iterations := 0
  fixpointSteps := 0
  capped := false
  capDetail := ""

/-- The flag is never cleared and the first detail is kept. -/
def recordCap (e : Engine D) (detail : String) : Engine D :=
  {e with capped := true, capDetail := if e.capDetail = "" then detail else e.capDetail}

def factsFor (e : Engine D) (predicate : String) (arity : ℕ) : List (Fact D) :=
  e.base.factsFor predicate arity

def hasFact (e : Engine D) (key : FactHash) : Bool := e.base.hasFact key

def addFact (C : Ceilings) (e : Engine D) (fact : Fact D) : Engine D × Bool :=
  if h : fact ∈ e.base.facts then (e,false)
  else if C.maxFacts ≤ e.base.facts.length then
    (e.recordCap ("MAX_FACTS="++toString C.maxFacts++" reached at "
      ++toString e.base.facts.length++" facts"),false)
  else ({e with base := e.base.insert fact h, delta := e.delta++[fact]},true)

def hasInstance (e : Engine D) (key : InstanceId) : Bool := e.instances.any (·.instanceId = key)

/-- The hull of the windows of the licensed instances supporting one head. -/
def recordSpan (e : Engine D) (i : GroundInstance D) (head : Fact D) :
    Option (ℤ × ℤ) → Engine D
  | some (lo,hi) =>
    if i.observed = .licensed then
      let hull := match Dict.get? e.licensedSpan head.factKey with
        | some prior => (min lo prior.1,max hi prior.2)
        | none => (lo,hi)
      {e with licensedSpan := Dict.set e.licensedSpan head.factKey hull}
    else e
  | none => e

/-- A fact is licensed while no observed instance supports it. -/
def recordStatus (e : Engine D) (i : GroundInstance D) (head : Fact D) : Engine D :=
  if i.observed = .licensed then
    {e with
      licensedFacts :=
        if e.instances.any fun o => o.head = head.factKey ∧ o.observed = .observed then
          e.licensedFacts
        else adjoin head.factKey e.licensedFacts
      ghostFacts := if i.ghost then adjoin head.factKey e.ghostFacts else e.ghostFacts}
  else
    {e with
      licensedFacts := e.licensedFacts.filter (· ≠ head.factKey)
      ghostFacts := e.ghostFacts.filter (· ≠ head.factKey)}

/-- Add an instance and its head; the flag says whether it was new. -/
def addInstance (C : Ceilings) (e : Engine D) (i : GroundInstance D) (head : Fact D)
    (span : Option (ℤ × ℤ)) : Engine D × Bool :=
  let e := e.recordSpan i head span
  if e.hasInstance i.instanceId then (e,false)
  else if C.maxInstances ≤ e.instances.length then
    (e.recordCap ("MAX_INSTANCES="++toString C.maxInstances++" reached at "
      ++toString e.instances.length),false)
  else ((({e with instances := e.instances++[i]}.addFact C head).1.recordStatus i head),true)

end Engine

/-! ### Seeding -/

/-- Argument order is role order. -/
def axiomFactFor (D : Digest) (event : CanonicalEvent) (roles : List (String × EntityId)) :
    Fallible (Fact D) :=
  Fact.mint D event.eventType ((roles.insertionSort (·.1 ≤ ·.1)).map (·.2)) event.tick

/-- Observed only when each source has a record in the window; never licensed. -/
def bundleAbsenceProxy (events : List CanonicalEvent) : AbsenceAvailability :=
  fun sources window =>
    if sources.all fun source => events.any fun event =>
        event.sourceId = source && window.contains event.tEvtNs then .observed
    else .undetermined

namespace Setup

variable (s : Setup)

def sortedEvents : List CanonicalEvent := s.events.insertionSort (·.sortKey ≤ ·.sortKey)

def roles (eventId : EventId) : List (String × EntityId) :=
  ((s.bindings.insertionSort fun a b => toLex (a.eventId,a.role) ≤ toLex (b.eventId,b.role)).filter
    (·.eventId = eventId)).map fun b => (b.role,b.entityId)

def absence : AbsenceAvailability :=
  s.absenceAvailability.getD (bundleAbsenceProxy s.sortedEvents)

end Setup

/-- Enter one record: its fact, the axiom mark, and the record as evidence of the fact. -/
def Engine.seedFact (C : Ceilings) (e : Engine D) (fact : Fact D) (event : CanonicalEvent) :
    Engine D :=
  let e := (e.addFact C fact).1
  {e with
    axioms := adjoin fact.factKey e.axioms
    axiomEvents := Dict.set e.axiomEvents fact.factKey
      ((Dict.get? e.axiomEvents fact.factKey).getD []++[event])}

def Engine.sortAxiomEvents (e : Engine D) : Engine D :=
  {e with axiomEvents := e.axiomEvents.map fun p =>
    (p.1,p.2.insertionSort (·.sortKey ≤ ·.sortKey))}

def Engine.seed (C : Ceilings) (s : Setup) (e : Engine D) : Fallible (Engine D) := do
  let e ← s.sortedEvents.foldlM (fun e event => do
    let fact ← axiomFactFor D event (s.roles event.eventId)
    pure (e.seedFact C fact event)) e
  pure e.sortAxiomEvents

/-! ### Unification -/

/-- What a variable is bound to. -/
inductive Bound where
  | entity (id : EntityId)
  | tick (value : ℤ)
  deriving DecidableEq, Repr

abbrev Bind := List (String × Bound)

/-- A repeated variable is an equality join. -/
def bindVar (bind : Bind) (name : String) (value : Bound) : Option Bind :=
  match Dict.get? bind name with
  | some previous => if previous = value then some (Dict.set bind name value) else none
  | none => some (Dict.set bind name value)

def bindAll : Bind → List (String × Bound) → Option Bind
  | bind, [] => some bind
  | bind, p::ps =>
    match bindVar bind p.1 p.2 with
    | some bind => bindAll bind ps
    | none => none

/-- The variables of a pattern with what a fact gives them; the tick is left out when free. -/
def Pattern.pairs (p : Pattern) (fact : Fact D) (tickFree : Bool) : List (String × Bound) :=
  p.entityVars.zip (fact.args.map .entity)++if tickFree then [] else [(p.tickVar,.tick fact.tick)]

def unify (pattern : Pattern) (fact : Fact D) (bind : Bind) (tickFree : Bool) : Option Bind :=
  if fact.predicate ≠ pattern.predicate ∨ fact.args.length ≠ pattern.arity then none
  else bindAll bind (pattern.pairs fact tickFree)

/-- Every bound argument but one agrees. -/
def agreesExcept (pattern : Pattern) (fact : Fact D) (bind : Bind) (freeIndex : ℕ) : Bool :=
  fact.predicate = pattern.predicate && fact.args.length = pattern.arity &&
    (pattern.entityVars.zip fact.args).zipIdx.all fun p =>
      p.2 = freeIndex || match Dict.get? bind p.1.1 with
        | some expected => expected = .entity p.1.2
        | none => true

/-- `<slot>.t` for the tick, `<slot>.<var>` for the arguments. -/
def guardEnv (compiled : CompiledRule) (chosen : List (Fact D)) : Node.Env :=
  (compiled.body.zip chosen).zipIdx.flatMap fun p =>
    (slotName p.2++".t",.int p.1.2.tick)::
      (p.1.1.entityVars.zip p.1.2.args).map fun v => (slotName p.2++"."++v.1,.sym v.2)

def headArgs (bind : Bind) (names : List String) : Option (List EntityId) :=
  names.mapM fun name => match Dict.get? bind name with
    | some (.entity id) => some id
    | _ => none

/-- The head fact, or none when a head variable is unbound. -/
def headFact (D : Digest) (compiled : CompiledRule) (bind : Bind) : Fallible (Option (Fact D)) :=
  match headArgs bind compiled.head.entityVars, Dict.get? bind compiled.head.tickVar with
  | some args, some (.tick tick) => do
    let fact ← Fact.mint D compiled.head.predicate args tick
    pure (some fact)
  | _, _ => .ok none

/-! ### Temporal operators -/

/-- Some left time and some right time satisfy `left < right ≤ left + within`. -/
def seqFeasible (left right : ℤ × ℤ) (within : ℤ) : Bool :=
  max (right.1-left.2) 1 ≤ min (right.2-left.1) within

/-- An index past the end is an `IndexError`. -/
def nth {α : Type} (items : List α) (index : ℕ) : Fallible α :=
  match items[index]? with
  | some a => .ok a
  | none => .error ⟨.uncaught,"IndexError",toString index⟩

namespace Engine

def timeFree (e : Engine D) (fact : Fact D) : Bool := fact.factKey ∈ e.timeFreeSnapshot

/-- The ticks a body fact could occupy, or none when its window is unknown. -/
def tickRange (e : Engine D) (fact : Fact D) : Option (ℤ × ℤ) :=
  if e.timeFree fact then Dict.get? e.spanSnapshot fact.factKey else some (fact.tick,fact.tick)

def checkSeq (e : Engine D) (chosen : List (Fact D)) (within : ℤ) (left right : String) :
    Fallible (Option (List (Fact D))) := do
  let left ← nth chosen (← slotOf left)
  let right ← nth chosen (← slotOf right)
  match e.tickRange left, e.tickRange right with
  | some leftRange, some rightRange =>
    pure (if seqFeasible leftRange rightRange within then some [] else none)
  | _, _ => pure (some [])

def distinctCandidates (e : Engine D) (pattern : Pattern) (anchor : Fact D) (bind : Bind)
    (within : ℤ) (fieldIndex : ℕ) : List (Fact D) :=
  (e.factsFor pattern.predicate pattern.arity).filter fun candidate =>
    anchor.tick-within ≤ candidate.tick && candidate.tick ≤ anchor.tick &&
      agreesExcept pattern candidate bind fieldIndex

def checkDistinct (e : Engine D) (compiled : CompiledRule) (chosen : List (Fact D)) (bind : Bind)
    (within : ℤ) (ofSlot fieldName : String) (n : ℤ) : Fallible (Option (List (Fact D))) := do
  let slot ← slotOf ofSlot
  let pattern ← nth compiled.body slot
  let anchor ← nth chosen slot
  if fieldName ∉ pattern.entityVars then
    .error (ErrorType.schemaError.mk (compiled.ruleId++": distinct field "++fieldName++
      " is not an argument of slot "++ofSlot))
  else
    let fieldIndex := pattern.entityVars.idxOf fieldName
    let participating := e.distinctCandidates pattern anchor bind within fieldIndex
    let values := (participating.map fun f => f.args.getD fieldIndex "").dedup
    pure (if (values.length : ℤ) < n then none
      else some (participating.insertionSort (·.factKey ≤ ·.factKey)))

/-- Some fact of the lookback matches the absent pattern. -/
def present (e : Engine D) (pattern : Pattern) (anchor : Fact D) (bind : Bind) (within : ℤ) : Bool :=
  (e.factsFor pattern.predicate pattern.arity).any fun candidate =>
    anchor.tick-within ≤ candidate.tick && candidate.tick < anchor.tick &&
      (unify pattern candidate bind true).isSome

def checkAbsence (s : Setup) (e : Engine D) (compiled : CompiledRule) (chosen : List (Fact D))
    (bind : Bind) (within : ℤ) (before : String) (pattern : Pattern) :
    Fallible (Option (List (Fact D))) := do
  let anchor ← nth chosen (← slotOf before)
  if e.present pattern anchor bind within then pure none
  else
    let window ← Interval.of ((anchor.tick-within)*tickNs) (anchor.tick*tickNs)
    pure (if s.absence compiled.rule.producingSources window = .observed then some [] else none)

/-- The extra facts an operator consumed, or none when it fails. -/
def checkTemporal (s : Setup) (e : Engine D) (compiled : CompiledRule) (chosen : List (Fact D))
    (bind : Bind) : Fallible (Option (List (Fact D))) :=
  match compiled.temporal with
  | none => .ok (some [])
  | some (.seq within left right) => e.checkSeq chosen within left right
  | some (.distinct within ofSlot fieldName n) =>
    e.checkDistinct compiled chosen bind within ofSlot fieldName n
  | some (.absence within before pattern) =>
    e.checkAbsence s compiled chosen bind within before pattern
  | some (.obligation _ _) => .ok none

/-! ### Evidence and emission -/

def eventsOf (e : Engine D) (key : FactHash) : List CanonicalEvent :=
  (Dict.get? e.axiomEvents key).getD []

/-- One reference for a slot and a record. -/
def addRef (refs : List EvidenceRef) (slot : String) (event : CanonicalEvent) : List EvidenceRef :=
  if refs.any fun r => r.binding = slot ∧ r.eventId = event.eventId then refs
  else refs++[⟨slot,event.eventId,event.sourceId,event.tEvtNs⟩]

/-- The records behind the body facts, each under the slot that names it. -/
def slotRecords (e : Engine D) (compiled : CompiledRule) (chosen extra : List (Fact D)) :
    List (String × CanonicalEvent) :=
  chosen.zipIdx.flatMap (fun p => (e.eventsOf p.1.factKey).map (slotName p.2,·))++
    match compiled.temporal with
    | some (.distinct _ ofSlot _ _) =>
      if ofSlot = "" then [] else extra.flatMap fun f => (e.eventsOf f.factKey).map (ofSlot,·)
    | _ => []

def evidenceFor (e : Engine D) (compiled : CompiledRule) (chosen extra : List (Fact D)) :
    List EvidenceRef :=
  ((e.slotRecords compiled chosen extra).foldl (fun refs p => addRef refs p.1 p.2) []).insertionSort
    fun a b => toLex (a.binding,a.eventId) ≤ toLex (b.binding,b.eventId)

/-- The guard is suspended when a body fact is licensed. -/
def guarded (e : Engine D) (compiled : CompiledRule) (chosen : List (Fact D)) : Bool :=
  chosen.any e.timeFree || evalWhen compiled.when (guardEnv compiled chosen)

def emit (C : Ceilings) (s : Setup) (compiled : CompiledRule) (chosen : List (Fact D)) (bind : Bind)
    (e : Engine D) : Fallible (Engine D) :=
  if !e.guarded compiled chosen then .ok e
  else do
    match ← e.checkTemporal s compiled chosen bind with
    | none => pure e
    | some extra =>
      let evidence := e.evidenceFor compiled chosen extra
      if evidence = [] then pure e
      else
        match ← headFact D compiled bind with
        | none => pure e
        | some head =>
          let i ← GroundInstance.mint D compiled.ruleId compiled.rule.ruleVersion head.factKey
            (chosen.map (·.factKey)) compiled.blockers .observed head.tick evidence [] false
          pure (e.addInstance C i head none).1

/-! ### The fixpoint -/

/-- Join the slots that are left against the base, a fact of the delta in the pivot slot.
A slot reads its bucket when it is entered. -/
def enumerate (C : Ceilings) (s : Setup) (compiled : CompiledRule) (pivot : ℕ)
    (deltaKeys : List FactHash) :
    List Pattern → ℕ → Bind → List (Fact D) → Engine D → Fallible (Engine D)
  | [], _, bind, chosen, e =>
    emit C s compiled chosen bind {e with fixpointSteps := e.fixpointSteps+1}
  | pattern::rest, slot, bind, chosen, e =>
    (e.factsFor pattern.predicate pattern.arity).foldlM (fun e fact =>
      if slot = pivot ∧ fact.factKey ∉ deltaKeys then .ok e
      else
        match unify pattern fact bind false with
        | none => .ok e
        | some extended =>
          enumerate C s compiled pivot deltaKeys rest (slot+1) extended (chosen++[fact]) e) e

def apply (C : Ceilings) (s : Setup) (deltaKeys : List FactHash) (e : Engine D)
    (compiled : CompiledRule) : Fallible (Engine D) :=
  (List.range compiled.body.length).foldlM (fun e pivot =>
    enumerate C s compiled pivot deltaKeys compiled.body 0 [] [] e) e

def takeDelta (e : Engine D) : List (Fact D) × Engine D :=
  (e.delta.insertionSort (·.factKey ≤ ·.factKey),{e with delta := []})

/-- The rounds that are left before `MAX_ITERATIONS`. -/
def rounds (C : Ceilings) (s : Setup) : ℕ → List (Fact D) → Engine D → Fallible (Engine D)
  | _, [], e => .ok e
  | 0, _::_, e => .ok (recordCap {e with iterations := e.iterations+1}
      ("MAX_ITERATIONS="++toString C.maxIterations++" reached"))
  | left+1, delta, e => do
    let e ← s.table.detectRules.foldlM (apply C s (delta.map (·.factKey)))
      {e with iterations := e.iterations+1}
    rounds C s left e.takeDelta.1 e.takeDelta.2

/-- The snapshots a saturation reads. -/
def openRound (e : Engine D) : Engine D :=
  {e with timeFreeSnapshot := e.licensedFacts, spanSnapshot := e.licensedSpan}

def saturate (C : Ceilings) (s : Setup) (e : Engine D) : Fallible (Engine D) :=
  rounds C s (C.maxIterations-e.iterations) e.takeDelta.1 e.openRound.takeDelta.2

end Engine

/-! ### Snapshots -/

structure ProgramFields (D : Digest) where
  kind : ProgramKind
  facts : List (Fact D)
  instances : List (GroundInstance D)
  licences : List Licence
  axioms : List FactHash
  ghosts : List FactHash
  capped : Bool

def ProgramFields.postInit (p : ProgramFields D) : Fallible Unit := checks [
  checkStrictlyAscending "Program.facts" (p.facts.map (·.factKey)),
  checkStrictlyAscending "Program.instances" (p.instances.map (·.instanceId)),
  checkStrictlyAscending "Program.licences" (p.licences.map (·.sortKey)),
  checkStrictlyAscending "Program.axioms" p.axioms,
  checkStrictlyAscending "Program.ghosts" p.ghosts,
  ensure (¬(p.kind = .pMin ∧ p.licences ≠ [])) (ErrorType.schemaError.mk
    "Program: PMin carries no licences; a licence is the envelope's")]

/-- One side of the bracket. -/
structure Program (D : Digest) extends ProgramFields D where
  valid : toProgramFields.postInit = .ok ()

namespace Engine

/-- The heads of the instances that have a body. -/
def supported (e : Engine D) : List FactHash :=
  (e.instances.filter (·.body ≠ [])).map (·.head)

/-- An axiom is a fact that no instance with a body supports. -/
def snapshotAxioms (e : Engine D) : List FactHash :=
  ((e.base.facts.map (·.factKey)).filter (· ∉ e.supported)).insertionSort (· ≤ ·)

def snapshot (e : Engine D) (kind : ProgramKind) (licences : List Licence) :
    Fallible (Program D) :=
  let fields : ProgramFields D :=
    { kind
      facts := e.base.facts.insertionSort (·.factKey ≤ ·.factKey)
      instances := e.instances.insertionSort (·.instanceId ≤ ·.instanceId)
      licences := licences.insertionSort (·.sortKey ≤ ·.sortKey)
      axioms := e.snapshotAxioms
      ghosts := e.ghostFacts.insertionSort (· ≤ ·)
      capped := e.capped }
  validated fields.postInit fun h => ⟨fields,h⟩

/-- A ghost may not be the sole support of a propagation edge. -/
def assertGhostSupport (s : Setup) (e : Engine D) : Fallible Unit :=
  checks (e.instances.map fun i => do
    let compiled ← s.table.get i.ruleId
    ensure (¬(compiled.rule.causalRelation = "PROPAGATES" ∧ i.body ≠ [] ∧
        ∀ key ∈ i.body, key ∈ e.ghostFacts))
      (ErrorType.schemaError.mk (i.instanceId++": every body fact of a PROPAGATES instance of "
        ++i.ruleId++" is a GHOST; an inferred node may not be the sole support of a "
        ++"propagation edge")))

end Engine

structure GroundingResult (D : Digest) where
  program : Program D
  iterations : ℕ
  fixpointSteps : ℕ
  capped : Bool
  capDetail : String

def ground (D : Digest) (C : Ceilings) (s : Setup) : Fallible (GroundingResult D) := do
  let e ← Engine.empty.seed C s
  let e ← e.saturate C s
  e.assertGhostSupport s
  let program ← e.snapshot .pMin []
  pure ⟨program,e.iterations,e.fixpointSteps,e.capped,e.capDetail⟩

end Spectra
