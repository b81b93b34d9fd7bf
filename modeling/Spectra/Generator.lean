import Spectra.Scenario
import Spectra.Standard

/-! `spectra_vs.gen`: the keyed draws, the occurrences a scenario and a seed give, the raw stream they are
numbered into, and the ground truth beside it. -/
namespace Spectra

open Checker (Library)
open Scenario (AttackStep ScenarioSpec)

namespace Generator

/-! ### Draws -/

/-- What a draw is keyed by. -/
inductive KeyPart where
  | text (value : String)
  | number (value : ℤ)

def drawAttempts : ℕ := 64

section

variable (lib : Library) (seed : ℤ) (domain : String)

def KeyPart.encode : KeyPart → Fallible Bytes
  | .text value => lib.utf8Text value
  | .number value => i64 value

/-- `draw_u64`: the first eight octets of a digest, read from its hexadecimal. -/
def drawU64 (parts : List KeyPart) : Fallible ℕ := do
  let payload ← Framing.concat (u64 seed::asciiText domain::parts.map (·.encode lib))
  let digest := lib.digestHex ("vsdraw/"++domain) payload 32
  pure (Checker.fromDigits 16 ((Checker.hexDigits ((octets digest).take 16)).getD []))

/-- The attempts that are left, from the one of this number on. -/
def drawFrom (bound : ℕ) (hpos : 0 < bound) (parts : List KeyPart) : ℕ → ℕ → Fallible (Fin bound)
  | 0, _ => .error (ErrorType.determinismError.mk ("draw_below: rejection sampling did not terminate in "
      ++toString drawAttempts++" attempts"))
  | left+1, attempt => do
    let value ← drawU64 lib seed domain (parts++[.number attempt])
    if value < 2^64-2^64%bound then pure ⟨value%bound,Nat.mod_lt value hpos⟩
    else drawFrom bound hpos parts left (attempt+1)

/-- `draw_below`: a draw from the short tail is made again. -/
def drawBelow (bound : ℕ) (parts : List KeyPart) : Fallible (Fin bound) :=
  if hpos : 0 < bound then drawFrom lib seed domain bound hpos parts drawAttempts 0
  else .error (ErrorType.schemaError.mk ("draw_below: bound must be a positive int, got "++toString bound))

def pick {α : Type} (choices : List α) (parts : List KeyPart) : Fallible α :=
  if choices = [] then .error (ErrorType.schemaError.mk ("pick: nothing to choose from in domain "++domain))
  else do pure (choices.get (← drawBelow lib seed domain choices.length parts))

end

/-! ### Occurrences -/

/-- An emission before it has a number. -/
structure Occurrence (lib : Library) where
  tEvtNs : ℤ
  sourceId : SourceId
  eventType : String
  attrs : List (String × String)
  actorRef : String
  subjectRef : Option String
  step : Option (AttackStep lib)

variable {lib : Library}

/-- The order of the occurrences is that of what they say. -/
def Occurrence.orderKey (o : Occurrence lib) : Fallible (ℤ ×ₗ List ℕ ×ₗ List ℕ ×ₗ List ℕ) := do
  let source ← lib.orderKey (sourceKey o.sourceId)
  let eventType ← lib.orderKey o.eventType
  let attrs ← lib.pairs o.attrs
  pure (toLex (o.tEvtNs,toLex (source,toLex (eventType,ordinals attrs))))

section

variable (scenario : ScenarioSpec lib) (seed : ℤ)

/-- The principal, a credential of it where it has one, the resource and the service of one emission. -/
def benignAttrs (principal : String) (parts : List KeyPart) : Fallible (List (String × String)) := do
  let credential ← match scenario.entities.credentialsOf principal with
    | [] => pure []
    | credentials => do pure [("credential",← pick lib seed "credential" credentials parts)]
  let resource ← pick lib seed "resource" scenario.entities.resourceIds parts
  let service ← pick lib seed "service" scenario.entities.serviceIds parts
  sortedOn (lib.orderKey ·.1)
    (("principal",principal)::credential++[("resource",resource),("service",service)])

/-- One benign emission, unless its source is declared blind then. -/
def benignOccurrence (family : String) (sourceId : SourceId) (tick index : ℕ) :
    Fallible (Option (Occurrence lib)) := do
  let parts := [.text family,.number tick,.number index]
  let offset ← drawBelow lib seed "jitter" scenario.tickGranularityNs parts
  let tEvtNs := scenario.epochNs+tick*scenario.tickGranularityNs+offset
  if ← scenario.isDeclaredBlind sourceId tEvtNs then pure none
  else
    let principal ← pick lib seed "principal" scenario.entities.principalIds parts
    let attrs ← benignAttrs scenario seed principal parts
    pure (some {tEvtNs
                sourceId
                eventType := family
                attrs
                actorRef := principal
                subjectRef := none
                step := none})

/-- The ticks of a family that are left: at each one what the rational rate has come due for. -/
def emitFrom (family : String) (sourceId : SourceId) : ℕ → ℕ → ℕ → Fallible (List (Occurrence lib))
  | 0, _, _ => .ok []
  | left+1, tick, emitted => do
    let target := (tick+1)*scenario.noise.benignRateNum/scenario.noise.benignRateDen
    let here ← (List.range (target-emitted)).mapM (benignOccurrence scenario seed family sourceId tick)
    let later ← emitFrom family sourceId left (tick+1) target
    pure (here.reduceOption++later)

def familyOccurrences (family : String) : Fallible (List (Occurrence lib)) := do
  let source ← scenario.sourceOfEventType family
  emitFrom scenario seed family source.sourceId scenario.horizonTicks 0 0

/-- `_benign_occurrences`. -/
def benignOccurrences : Fallible (List (Occurrence lib)) := do
  pure (← scenario.noise.families.mapM (familyOccurrences scenario seed)).flatten

/-- One sighting of a step, unless the source is declared blind then. -/
def attackOccurrence (step : AttackStep lib) (sourceId : SourceId) : Fallible (Option (Occurrence lib)) := do
  let tEvtNs := scenario.epochNs+step.tOffsetNs
  if ← scenario.isDeclaredBlind sourceId tEvtNs then pure none
  else match step.eventType with
    | none => .error ⟨.uncaught,"AssertionError",""⟩
    | some eventType => pure (some {tEvtNs
                                    sourceId
                                    eventType
                                    attrs := step.attrs
                                    actorRef := step.actor
                                    subjectRef := step.attr "resource"
                                    step := some step})

def stepOccurrences (step : AttackStep lib) : Fallible (List (Occurrence lib)) := do
  pure (← step.emits.mapM (attackOccurrence scenario step)).reduceOption

/-- `_attack_occurrences`: a step that is not observable emits nothing. -/
def attackOccurrences : Fallible (List (Occurrence lib)) := do
  pure (← (scenario.attack.steps.filter (·.observable)).mapM (stepOccurrences scenario)).flatten

end

/-! ### Ground truth -/

inductive TruthKind where
  | benign | attackStep | attackUnobserved | noiseLookalike
  deriving DecidableEq, Repr

def TruthKind.text : TruthKind → String
  | .benign => "benign"
  | .attackStep => "attack_step"
  | .attackUnobserved => "attack_unobserved"
  | .noiseLookalike => "noise_lookalike"

inductive TruthOrigin where
  | population | scenario | degradation
  deriving DecidableEq, Repr

def TruthOrigin.text : TruthOrigin → String
  | .population => "population"
  | .scenario => "scenario"
  | .degradation => "degradation"

/-- An annotation before it has its id. -/
structure TruthMembers where
  simTick : ℤ
  kind : TruthKind
  origin : TruthOrigin
  actorRef : String
  observable : Bool
  producingSources : List SourceId
  eventId : Option EventId
  chainId : Option String := none
  stepK : Option ℤ := none
  stepAction : Option String := none
  subjectRef : Option String := none
  trueTransition : List (String × String) := []
  suppressedBy : Option String := none
  deriving DecidableEq, Repr

/-- `tr_` and sixteen hexadecimal digits. -/
def isTruthId (value : String) : Bool :=
  Checker.hasPrefix "tr_" value && match Checker.hexDigits ((octets value).drop 3) with
    | some digits => digits.length = 16
    | none => false

def TruthMembers.postInit (lib : Library) (truthId : String) (m : TruthMembers) : Fallible Unit := checks [
  ensure (isTruthId truthId) (ErrorType.schemaError.mk
    ("GroundTruth.truth_id must match tr_<16hex>, got "++truthId)),
  checkTick "GroundTruth.sim_tick" m.simTick,
  lib.checkKeys "GroundTruth.producing_sources" 0 none m.producingSources,
  checks (m.stepK.toList.map fun k => (u16 k).map fun _ => ()),
  lib.checkKeys "GroundTruth.true_transition" 0 none (m.trueTransition.map (·.1)),
  ensure (m.kind = .attackUnobserved → m.eventId = none ∧ m.producingSources = []) (ErrorType.schemaError.mk
    "GroundTruth: an attack_unobserved annotation names no event and no source"),
  ensure (m.kind ≠ .attackUnobserved → m.eventId ≠ none) (ErrorType.schemaError.mk
    "GroundTruth: every observed annotation names its event")]

/-- What the generator knows about one occurrence. -/
structure GroundTruth (lib : Library) extends TruthMembers where
  truthId : String
  valid : toTruthMembers.postInit lib truthId = .ok ()

/-- The first sixteen digits of the digest. -/
def mintTruthId (lib : Library) (payload : Bytes) : String :=
  "tr_"++String.ofList ((lib.digestHex "truth" payload 16).toList.take 16)

/-- `_mint_truth`: the id is taken over the members that identify the annotation. -/
def TruthMembers.mint (lib : Library) (m : TruthMembers) : Fallible (GroundTruth lib) := do
  let payload ← lib.pairs [("chain_id",m.chainId.getD ""),("event_id",m.eventId.getD ""),
    ("kind",m.kind.text),("origin",m.origin.text),("sim_tick",Checker.decimalText m.simTick),
    ("step_k",(m.stepK.map Checker.decimalText).getD "")]
  validated (m.postInit lib (mintTruthId lib payload)) fun h => ⟨m,_,h⟩

section

variable (scenario : ScenarioSpec lib)

/-- Ticks since the epoch of the scenario. -/
def simTick (tEvtNs : ℤ) : ℤ := (tEvtNs-scenario.epochNs)/scenario.tickGranularityNs

/-- The annotation of one numbered record. -/
def eventTruth (p : RawEvent lib × Occurrence lib) : Fallible (GroundTruth lib) := do
  let eventId ← p.1.eventId lib
  match p.2.step with
  | none => TruthMembers.mint lib {simTick := simTick scenario p.1.tEvtNs
                                   kind := .benign
                                   origin := .population
                                   actorRef := p.2.actorRef
                                   observable := true
                                   producingSources := [p.1.sourceId]
                                   eventId := some eventId}
  | some step => TruthMembers.mint lib {simTick := simTick scenario p.1.tEvtNs
                                        kind := .attackStep
                                        origin := .scenario
                                        actorRef := step.actor
                                        observable := true
                                        producingSources := [p.1.sourceId]
                                        eventId := some eventId
                                        chainId := some scenario.attack.chainId
                                        stepK := some step.k
                                        stepAction := some step.action
                                        subjectRef := p.2.subjectRef
                                        trueTransition := step.expectTransition}

/-- The annotation of a step nobody could have seen. -/
def unobservedTruth (step : AttackStep lib) : Fallible (GroundTruth lib) :=
  TruthMembers.mint lib {simTick := simTick scenario (scenario.epochNs+step.tOffsetNs)
                         kind := .attackUnobserved
                         origin := .scenario
                         actorRef := step.actor
                         observable := false
                         producingSources := []
                         eventId := none
                         chainId := some scenario.attack.chainId
                         stepK := some step.k
                         stepAction := some step.action
                         subjectRef := step.attr "credential"
                         trueTransition := step.expectTransition}

/-- `_truth_stream`. -/
def truthStream (numbered : List (RawEvent lib × Occurrence lib)) : Fallible (List (GroundTruth lib)) := do
  let observed ← numbered.mapM (eventTruth scenario)
  let unobserved ← (scenario.attack.steps.filter (!·.observable)).mapM (unobservedTruth scenario)
  let ordered ← sortedOn (lib.orderKey ·.truthId) (observed++unobserved)
  checkStrictlyAscending "gen.truth" (← ordered.mapM (lib.orderKey ·.truthId))
  pure ordered

end

/-! ### The two streams -/

structure GenResult (lib : Library) where
  scenarioHash : String
  seed : ℤ
  raw : List (RawEvent lib)
  truth : List (GroundTruth lib)

/-- The records of the occurrences, each under the next number of its source. -/
def numberFrom : List (String × ℕ) → List (Occurrence lib) → Fallible (List (RawEvent lib × Occurrence lib))
  | _, [] => .ok []
  | nextSeq, o::rest => do
    let key := sourceKey o.sourceId
    let seq := (Dict.get? nextSeq key).getD 0
    let event ← RawFields.construct lib ⟨o.sourceId,seq,o.tEvtNs,o.eventType,o.attrs⟩
    let numbered ← numberFrom (Dict.set nextSeq key (seq+1)) rest
    pure ((event,o)::numbered)

/-- No two records have one event id. -/
def checkEventIds : List EventId → List (RawEvent lib) → Fallible Unit
  | _, [] => .ok ()
  | seen, event::rest => do
    let eventId ← event.eventId lib
    ensure (eventId ∉ seen) (ErrorType.determinismError.mk
      ("gen: two occurrences minted the same event id "++eventId))
    checkEventIds (eventId::seen) rest

/-- `gen`. -/
def gen (scenario : ScenarioSpec lib) (seed : ℤ) : Fallible (GenResult lib) := do
  let _ ← u64 seed
  let benign ← benignOccurrences scenario seed
  let attack ← attackOccurrences scenario
  let ordered ← sortedOn (·.orderKey) (benign++attack)
  checkStrictlyAscending "gen.occurrences" (← ordered.mapM (·.orderKey))
  let numbered ← numberFrom [] ordered
  let raw := (numbered.map (·.1)).insertionSort (·.sortKey ≤ ·.sortKey)
  checkStrictlyAscending "gen.raw" (raw.map (·.sortKey))
  checkEventIds [] raw
  let truth ← truthStream scenario numbered
  let scenarioHash ← scenario.scenarioHash
  pure {scenarioHash,seed,raw,truth}

end Generator

end Spectra
