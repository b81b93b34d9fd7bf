import Spectra.LivenessArtifact
import Spectra.Timeline

/-! `spectra_vs.liveness`, one source over one elementary interval: the grid of its breakpoints,
the records that bracket an interval, the chain between them and rules R1..R11. -/
namespace Spectra

open Checker (Library)

namespace Liveness

variable {lib : Library}

/-! ### Chain state -/

inductive ChainStatus where
  | absent | unverified | verified
  deriving DecidableEq, Repr

structure ChainState where
  status : ChainStatus
  firstBad : Option EventId
  missingSeq : Option (ℤ × ℤ)
  witness : List EventId
  deriving DecidableEq, Repr

/-- Whether a record links to the one before it, which is none at the start of a span. -/
abbrev ChainVerifier (lib : Library) := Option (BundleRecord lib) → BundleRecord lib → Bool

/-- `CHAIN_LINK_CONTINUITY_ONLY`: the record's `chain_prev` is its predecessor's `chain_hash`. -/
def chainLinkContinuityOnly (previous : Option (BundleRecord lib)) (current : BundleRecord lib) :
    Bool :=
  match current.chainHash, current.chainPrev with
  | some _, some prev => match previous with
    | none => true
    | some p => match p.chainHash with
      | none => false
      | some hash => prev = hash
  | _, _ => false

/-- The first record that does not link to the one before it. -/
def firstBad (verifier : ChainVerifier lib) : Option (BundleRecord lib) → List (BundleRecord lib) →
    Option (BundleRecord lib)
  | _, [] => none
  | previous, event::rest =>
    if verifier previous event then firstBad verifier (some event) rest else some event

/-- The first two neighbours between which a sequence number is missing. -/
def firstGap : List (BundleRecord lib) → Option (BundleRecord lib × BundleRecord lib)
  | left::right::rest => if left.seq+1 < right.seq then some (left,right) else firstGap (right::rest)
  | _ => none

/-- `_chain_state`. -/
def chainState (span : List (BundleRecord lib)) (integrityClass : IntegrityClass)
    (verifier : ChainVerifier lib) : ChainState :=
  if integrityClass = .unlinked then ⟨.absent,none,none,[]⟩
  else match firstBad verifier none span with
    | some event => ⟨.unverified,some event.eventId,none,[]⟩
    | none => match firstGap span with
      -- the witness is checked to be two ids, as those of two numbers are
      | some (left,right) => ⟨.verified,none,some (left.seq,right.seq),
          [left.eventId,right.eventId].dedup.insertionSort (· ≤ ·)⟩
      | none => ⟨.verified,none,none,[]⟩

/-! ### The grid and the observation -/

/-- `breakpoints`: the sorted union, clipped to the span. -/
def breakpoints (eventTimes phaseBoundaries queryEndpoints : List ℤ) (t0Ns t1Ns : ℤ) :
    Fallible (List ℤ) := do
  checkNanos "breakpoints.t0_ns" t0Ns
  checkNanos "breakpoints.t1_ns" t1Ns
  ensure (t0Ns ≤ t1Ns) (ErrorType.schemaError.mk "breakpoints: t1_ns precedes t0_ns")
  let values := eventTimes++phaseBoundaries++queryEndpoints
  checks (values.map (checkNanos "breakpoints"))
  pure (([t0Ns,t1Ns]++values.filter fun value => t0Ns ≤ value ∧ value ≤ t1Ns).dedup.insertionSort (· ≤ ·))

/-- What the bundle says about one source over one elementary interval. -/
structure WindowObservation where
  regime : Option String
  leftBracketTNs : Option ℤ
  rightBracketTNs : Option ℤ
  nRecordsInSpan : ℤ
  maxObservedGapNs : ℤ
  chain : ChainState
  deriving DecidableEq, Repr

/-- How many of ascending times are at or before an instant. -/
def bisectRight (times : List ℤ) (tNs : ℤ) : ℕ := times.countP (· ≤ tNs)

/-- How many of ascending times are before an instant. -/
def bisectLeft (times : List ℤ) (tNs : ℤ) : ℕ := times.countP (· < tNs)

/-- The widest gap between neighbours. -/
def maxGap (span : List (BundleRecord lib)) : ℤ :=
  (span.zip span.tail).foldl (fun widest p =>
    if p.2.tEvtNs-p.1.tEvtNs > widest then p.2.tEvtNs-p.1.tEvtNs else widest) 0

/-- `observe_window`: `[aNs,bNs)` between the record at or before it and the one at or after it. -/
def observeWindow (events : List (BundleRecord lib)) (times : List ℤ) (aNs bNs : ℤ)
    (phases : List Phase) (integrityClass : IntegrityClass) (verifier : ChainVerifier lib) :
    WindowObservation :=
  let regime := phaseOf phases aNs
  let after := bisectRight times aNs
  let rightIndex := bisectLeft times bNs
  if after = 0 ∨ times.length ≤ rightIndex then
    { regime := regime
      leftBracketTNs := if after = 0 then none else times[after-1]?
      rightBracketTNs := if times.length ≤ rightIndex then none else times[rightIndex]?
      nRecordsInSpan := 0
      maxObservedGapNs := 0
      chain := if integrityClass = .unlinked then ⟨.absent,none,none,[]⟩ else ⟨.verified,none,none,[]⟩ }
  else
    let span := (events.take (rightIndex+1)).drop (after-1)
    { regime := regime
      leftBracketTNs := times[after-1]?
      rightBracketTNs := times[rightIndex]?
      nRecordsInSpan := span.length
      maxObservedGapNs := maxGap span
      chain := chainState span integrityClass verifier }

/-! ### Classification -/

structure Outcome where
  verdict : LivenessVerdict
  reason : Reason
  missingSeq : Option (ℤ × ℤ)
  witness : List EventId
  deriving DecidableEq, Repr

def Outcome.blind (reason : Reason) : Outcome := ⟨.blind,reason,none,[]⟩

/-- Rules R1..R11, the first that matches; no rule can raise, so the guard around them adds
nothing. -/
def classify (observation : WindowObservation) (mode : LivenessMode) (thresholdNs : Option ℤ)
    (saturated : Bool) (integrityClass : IntegrityClass) (mMin : ℤ) : Outcome :=
  if mode = .f2NoProfile then .blind .forcedNoProfileMode
  else if observation.regime = none then .blind .regimeUnknown
  else match thresholdNs with
    | none => .blind .profileInsufficient
    | some threshold =>
      if saturated then .blind .thresholdOverflow
      else if observation.chain.status = .unverified then .blind .chainUnverified
      else if observation.chain.missingSeq ≠ none ∧ integrityClass = .chained then
        ⟨.suppressed,.chainSeqGap,observation.chain.missingSeq,observation.chain.witness⟩
      else if observation.chain.missingSeq ≠ none ∧ integrityClass = .sequenced then
        ⟨.suppressed,.seqGapUnauthenticated,observation.chain.missingSeq,observation.chain.witness⟩
      else if observation.leftBracketTNs = none ∨ observation.rightBracketTNs = none then
        .blind .unbracketed
      else if observation.nRecordsInSpan < mMin then .blind .windowUndersampled
      else if threshold < observation.maxObservedGapNs then .blind .gapExceedsThreshold
      else ⟨.live,.calibratedOk,none,[]⟩

end Liveness

end Spectra
