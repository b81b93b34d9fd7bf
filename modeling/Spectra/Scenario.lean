import Spectra.Calibration
import Spectra.RawStream

/-! `spectra_vs.scenario`: the declared world a generation is for, what is looked up in it, and the
digest it is cited by. -/
namespace Spectra

open Checker (Library)

namespace Scenario

/-! ### The members of a scenario -/

/-- A declared origin of telemetry. -/
structure Source (lib : Library) where
  sourceId : SourceId
  integrityClass : IntegrityClass
  sourceRank : ℤ
  emitsEventTypes : List String
  nominalPeriodNs : Option ℤ
  valid : checks [
    (u8 sourceRank).map fun _ => (),
    lib.checkKeys "Source.emits_event_types" 0 none emitsEventTypes,
    checks (nominalPeriodNs.toList.map fun period => checks [
      checkNanos "Source.nominal_period_ns" period,
      ensure (0 < period) (ErrorType.schemaError.mk
        "Source.nominal_period_ns must be positive when present")])] = .ok ()

/-- A named regime of the timeline. -/
structure Phase where
  regimeId : String
  interval : Interval

structure ExcludedInterval where
  interval : Interval
  reason : String

/-- A declared outage: the source emits nothing over this span. -/
structure BlindnessDecl where
  sourceId : SourceId
  interval : Interval
  basis : String
  valid : ensure (basis = "blind") (ErrorType.schemaError.mk
    ("BlindnessDecl.basis must be 'blind', got "++basis)) = .ok ()

/-- One step of the simulated chain; one that is not observable emits nothing. -/
structure AttackStep (lib : Library) where
  k : ℤ
  actor : String
  action : String
  emits : List SourceId
  attrs : List (String × String)
  observable : Bool
  tOffsetNs : ℤ
  expectTransition : List (String × String)
  eventType : Option String
  valid : checks [
    (u16 k).map fun _ => (),
    ensure (observable = !emits.isEmpty) (ErrorType.schemaError.mk
      ("AttackStep k="++toString k++": `emits` is empty exactly when `observable` is false")),
    ensure (eventType.isNone = emits.isEmpty) (ErrorType.schemaError.mk
      ("AttackStep k="++toString k++": `event_type` is absent exactly when `emits` is empty")),
    lib.checkKeys ("AttackStep k="++toString k++" emits") 0 none emits] = .ok ()

/-- The chain as it was loaded: no two steps have one number. -/
structure AttackChain (lib : Library) where
  chainId : String
  steps : List (AttackStep lib)
  ordered : checkStrictlyAscending "scenario.attack.steps" (steps.map (·.k)) = .ok ()

/-- The benign population: one rational rate, and the event types it is for. -/
structure Noise (lib : Library) where
  benignRateNum : ℕ
  benignRateDen : ℕ
  families : List String
  valid : checks [
    (u32 benignRateNum).map fun _ => (),
    (u32 benignRateDen).map fun _ => (),
    ensure (0 < benignRateDen) (ErrorType.schemaError.mk "Noise.benign_rate_den must be positive"),
    ensure (0 < benignRateNum) (ErrorType.schemaError.mk "Noise.benign_rate_num must be positive"),
    lib.checkKeys "Noise.families" 0 none families] = .ok ()

/-- The tables of exact joins. -/
structure Entities where
  principals : List (String × String)
  devices : List String
  credentials : List (String × String × String)
  services : List (String × String)
  resources : List (String × String × String)
  zones : List String

structure Goal where
  goalPredicate : String
  goalArgs : List String
  horizonK : ℤ
  valid : (u32 horizonK).map (fun _ => ()) = .ok ()

/-- A scenario as it was loaded. -/
structure ScenarioSpec (lib : Library) where
  schema : String
  scenarioId : String
  family : String
  epochNs : ℤ
  horizonTicks : ℕ
  tickGranularityNs : ℕ
  sources : List (Source lib)
  phases : List Phase
  excludedIntervals : List ExcludedInterval
  entities : Entities
  noise : Noise lib
  attack : AttackChain lib
  blindness : List BlindnessDecl
  goal : Goal
  granularity : tickGranularityNs = 1000000000

/-! ### Lookups -/

namespace Entities

variable (e : Entities)

def principalIds : List String := e.principals.map (·.1)

def resourceIds : List String := e.resources.map (·.1)

def serviceIds : List String := e.services.map (·.1)

def credentialsOf (principal : String) : List String :=
  (e.credentials.filter (·.2.1 = principal)).map (·.1)

end Entities

/-- `dict(step.attrs).get(key)`. -/
def AttackStep.attr {lib : Library} (step : AttackStep lib) (key : String) : Option String :=
  Dict.get? (step.attrs.foldl (fun d p => Dict.set d p.1 p.2) []) key

namespace ScenarioSpec

variable {lib : Library} (scenario : ScenarioSpec lib)

/-- The only declared source of an event type. -/
def sourceOfEventType (eventType : String) : Fallible (Source lib) :=
  match scenario.sources.filter (eventType ∈ ·.emitsEventTypes) with
  | [source] => .ok source
  | found => .error (ErrorType.schemaError.mk ("ScenarioSpec: event type "++eventType++" is emitted by "
      ++toString found.length++" sources, expected exactly one"))

/-- The declared outages of one source. -/
def blindWindows (sourceId : SourceId) : List Interval :=
  (scenario.blindness.filter (sourceKey ·.sourceId = sourceKey sourceId)).map (·.interval)

/-- Some window contains the instant; each one refuses an instant that does not fit. -/
def isDeclaredBlind (sourceId : SourceId) (tNs : ℤ) : Fallible Bool :=
  match scenario.blindWindows sourceId with
  | [] => .ok false
  | windows => do
    checkNanos "Interval.contains" tNs
    pure (windows.any (·.contains tNs))

end ScenarioSpec

/-! ### The digest -/

/-- `_optional`: whether there is a value, then the value. -/
def optional {α : Type} (value : Option α) (encode : α → Fallible Bytes) : Fallible Bytes :=
  match value with
  | none => .ok (boolean false)
  | some a => Framing.concat [.ok (boolean true),encode a]

section

variable (lib : Library)

def intervalBytes (w : Interval) : Fallible Bytes := Framing.concat [i64 w.t0Ns,i64 w.t1Ns]

def Source.canonicalBytes {lib : Library} (s : Source lib) : Fallible Bytes := Framing.concat [
  orderedSeq lib.utf8Text s.emitsEventTypes,asciiText s.integrityClass.text,
  optional s.nominalPeriodNs i64,asciiText s.sourceId,u8 s.sourceRank]

def Phase.canonicalBytes (p : Phase) : Fallible Bytes :=
  Framing.concat [asciiText p.regimeId,intervalBytes p.interval]

def ExcludedInterval.canonicalBytes (x : ExcludedInterval) : Fallible Bytes :=
  Framing.concat [intervalBytes x.interval,lib.utf8Text x.reason]

def BlindnessDecl.canonicalBytes (d : BlindnessDecl) : Fallible Bytes :=
  Framing.concat [asciiText d.basis,intervalBytes d.interval,asciiText d.sourceId]

def AttackStep.canonicalBytes {lib : Library} (s : AttackStep lib) : Fallible Bytes := Framing.concat [
  lib.utf8Text s.action,lib.utf8Text s.actor,lib.pairs s.attrs,orderedSeq asciiText s.emits,
  lib.utf8Text (s.eventType.getD ""),lib.pairs s.expectTransition,u16 s.k,.ok (boolean s.observable),
  i64 s.tOffsetNs]

def AttackChain.canonicalBytes {lib : Library} (c : AttackChain lib) : Fallible Bytes :=
  Framing.concat [asciiText c.chainId,orderedSeq (·.canonicalBytes) c.steps]

def Noise.canonicalBytes {lib : Library} (n : Noise lib) : Fallible Bytes :=
  Framing.concat [u32 n.benignRateDen,u32 n.benignRateNum,orderedSeq lib.utf8Text n.families]

def Entities.canonicalBytes (e : Entities) : Fallible Bytes := Framing.concat [
  orderedSeq (fun p => Framing.concat [asciiText p.1,asciiText p.2.1,lib.utf8Text p.2.2]) e.credentials,
  orderedSeq asciiText e.devices,
  orderedSeq (fun p => Framing.concat [asciiText p.1,lib.utf8Text p.2]) e.principals,
  orderedSeq (fun p => Framing.concat [asciiText p.1,asciiText p.2.1,lib.utf8Text p.2.2]) e.resources,
  orderedSeq (fun p => Framing.concat [asciiText p.1,asciiText p.2]) e.services,
  orderedSeq asciiText e.zones]

def Goal.canonicalBytes (g : Goal) : Fallible Bytes :=
  Framing.concat [orderedSeq lib.utf8Text g.goalArgs,lib.utf8Text g.goalPredicate,u32 g.horizonK]

namespace ScenarioSpec

variable {lib} (scenario : ScenarioSpec lib)

def canonicalBytes : Fallible Bytes := Framing.concat [
  scenario.attack.canonicalBytes,orderedSeq (·.canonicalBytes) scenario.blindness,
  scenario.entities.canonicalBytes lib,i64 scenario.epochNs,
  orderedSeq (·.canonicalBytes lib) scenario.excludedIntervals,lib.utf8Text scenario.family,
  scenario.goal.canonicalBytes lib,u32 scenario.horizonTicks,scenario.noise.canonicalBytes,
  orderedSeq (·.canonicalBytes) scenario.phases,lib.utf8Text scenario.schema,
  lib.utf8Text scenario.scenarioId,orderedSeq (·.canonicalBytes) scenario.sources,
  u32 scenario.tickGranularityNs]

def scenarioHash : Fallible String := do
  pure (lib.hashRef "vsscn" (← scenario.canonicalBytes))

end ScenarioSpec

end

/-! ### What the lookups say -/

section

variable {lib : Library} {scenario : ScenarioSpec lib} {sourceId : SourceId} {tNs : ℤ}

/-- No two steps of a chain have one number. -/
theorem AttackChain.steps_ascending (c : AttackChain lib) : c.steps.Pairwise (·.k < ·.k) :=
  List.pairwise_map.mp (checkStrictlyAscending_ok.mp c.ordered)

/-- An instant that is not declared blind is in no declared window of the source. -/
theorem ScenarioSpec.sighted (h : scenario.isDeclaredBlind sourceId tNs = .ok false)
    {decl : BlindnessDecl} (hd : decl ∈ scenario.blindness)
    (hs : sourceKey decl.sourceId = sourceKey sourceId) : decl.interval.contains tNs = false := by
  have hmem : decl.interval ∈ scenario.blindWindows sourceId :=
    List.mem_map.mpr ⟨decl,List.mem_filter.mpr ⟨hd,decide_eq_true hs⟩,rfl⟩
  unfold isDeclaredBlind at h
  split at h
  · rename_i hnone
    rw [hnone] at hmem
    cases hmem
  · obtain ⟨_,-,h⟩ := Runs.bind_ok.mp h
    have hnone := List.any_eq_false.mp (Runs.pure_ok.mp h) _ hmem
    simpa using hnone

end

end Scenario

end Spectra
