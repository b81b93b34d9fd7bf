import Spectra.CheckerInputs
import Spectra.Difference
import Spectra.Groups
import Spectra.Patience

/-! `spectra_vs.temporal`: the temporal-consistency pass as a system of difference constraints, what
the recorded timestamps contradict in it and the timestamps that would have to be disbelieved. -/
namespace Spectra
namespace Temporal

/-- The node every pin is measured against. -/
def zeroNode : String := "t:zero"

inductive Kind where
  | pin | ruleSeq | seqMonotonic
  deriving DecidableEq, Repr

def Kind.text : Kind → String
  | .pin => "PIN"
  | .ruleSeq => "RULE_SEQ"
  | .seqMonotonic => "SEQ_MONOTONIC"

/-- What the pass reads from a canonical event. -/
structure Event where
  eventId : String
  sourceId : String
  seq : ℤ
  tEvtNs : ℤ
  /-- An `EventId`. -/
  opens : Checker.hasPrefix "ev:" eventId = true
  deriving DecidableEq

theorem opens_a : Checker.hasPrefix "ev:" "ev:a" = true := by decide
theorem opens_b : Checker.hasPrefix "ev:" "ev:b" = true := by decide
theorem opens_c : Checker.hasPrefix "ev:" "ev:c" = true := by decide

/-- `t[v] - t[u] <= weight`; `eventId` is set on a pin, and the only handle to remove it by. -/
structure Constraint extends Difference.Bound String where
  kind : Kind
  detail : String
  eventId : Option String
  deriving DecidableEq

def Constraint.sortKey (c : Constraint) : String ×ₗ String ×ₗ String ×ₗ ℤ :=
  toLex (c.kind.text,toLex (c.u,toLex (c.v,c.weight)))

/-- One structural constraint the recorded timestamps do not satisfy, and the pins around it. -/
structure Violation where
  constraint : Constraint
  excessNs : ℤ
  pins : Constraint × Constraint
  deriving DecidableEq

/-- The two events either of which could be the one that is wrong. -/
def Violation.events (v : Violation) : String × String := (v.constraint.u,v.constraint.v)

/-- `_pins`. -/
def pins (event : Event) : List Constraint := [
  ⟨⟨zeroNode,event.eventId,event.tEvtNs⟩,.pin,"recorded timestamp, upper",some event.eventId⟩,
  ⟨⟨event.eventId,zeroNode,-event.tEvtNs⟩,.pin,"recorded timestamp, lower",some event.eventId⟩]

/-- The records of a source in `seq` order. -/
def Event.seqKey (event : Event) : ℤ ×ₗ String := toLex (event.seq,event.eventId)

def seqOrdered (records : List Event) : List Event := records.insertionSort (·.seqKey ≤ ·.seqKey)

/-- `t[following] >= t[previous]` between neighbours. -/
def neighbours (sourceId : String) (records : List Event) : List Constraint :=
  ((seqOrdered records).zip (seqOrdered records).tail).map fun (previous,following) =>
    ⟨⟨following.eventId,previous.eventId,0⟩,.seqMonotonic,
      sourceId++" seq "++toString previous.seq++" -> "++toString following.seq,none⟩

/-- A temporal operator of the rule table. -/
structure SeqOperator where
  op : String
  left : String
  right : String
  withinNs : ℤ

/-- A grounded instance: its rule, and the events its evidence binds to slots. -/
structure SeqInstance where
  ruleId : String
  evidence : List (String × String)

/-- The two bounds of a `seq` operator, where the instance carries evidence for both of its slots. -/
def ruleBounds (ruleSeq : List (String × SeqOperator)) (i : SeqInstance) : List Constraint :=
  match Dict.get? ruleSeq i.ruleId with
  | none => []
  | some operator =>
    if operator.op ≠ "seq" then []
    else
      let bound := i.evidence.foldl (fun d ref => Dict.set d ref.1 ref.2) []
      match Dict.get? bound operator.left, Dict.get? bound operator.right with
      | some left, some right => [
        ⟨⟨left,right,operator.withinNs⟩,.ruleSeq,i.ruleId++" within",none⟩,
        ⟨⟨right,left,-1⟩,.ruleSeq,i.ruleId++" strict order",none⟩]
      | _, _ => []

/-- Every constraint the recorded bundle and the rule table impose, canonically ordered. -/
def buildConstraints (events : List Event) (instances : List SeqInstance)
    (ruleSeq : List (String × SeqOperator)) : List Constraint :=
  let out := events.flatMap pins++
    (Groups.gather (·.sourceId) events).flatMap (fun p => neighbours p.1 p.2)++
    instances.flatMap (ruleBounds ruleSeq)
  out.eraseDups.insertionSort (·.sortKey ≤ ·.sortKey)

/-- The lower and the upper pins, by their events. -/
abbrev PinIndex := List (String × Constraint) × List (String × Constraint)

def notePin (st : PinIndex) (constraint : Constraint) : PinIndex :=
  match constraint.kind, constraint.eventId with
  | .pin, some eventId =>
    if constraint.v = zeroNode then (Dict.set st.1 eventId constraint,st.2)
    else (st.1,Dict.set st.2 eventId constraint)
  | _, _ => st

def pinsByEvent (constraints : List Constraint) : PinIndex := constraints.foldl notePin ([],[])

/-- What one constraint contributes to the violations. -/
def violationOf (lower upper : List (String × Constraint)) (times : List (String × ℤ))
    (constraint : Constraint) : Option Violation :=
  if constraint.kind = .pin then none
  else match Dict.get? times constraint.u, Dict.get? times constraint.v with
    | some tu, some tv =>
      let excess := tv-tu-constraint.weight
      if excess ≤ 0 then none
      else match Dict.get? lower constraint.v, Dict.get? upper constraint.u with
        | some low, some high => some ⟨constraint,excess,(low,high)⟩
        | _, _ => none
    | _, _ => none

/-- The structural constraints the recorded timestamps fail, in constraint order. -/
def findViolations (constraints : List Constraint) (times : List (String × ℤ)) : List Violation :=
  let (lower,upper) := pinsByEvent constraints
  constraints.filterMap (violationOf lower upper times)

/-- Indices of a longest non-decreasing subsequence, ascending. -/
def longestNonDecreasing (values : List ℤ) : List ℕ :=
  Patience.longest (fun i => values.getD i 0) values.length

/-- The events of one source whose timestamps must be disbelieved for it to be ordered. -/
def corrected (records : List Event) : List String :=
  let ordered := seqOrdered records
  let keep := longestNonDecreasing (ordered.map (·.tEvtNs))
  ordered.zipIdx.filterMap fun (event,index) => if index ∈ keep then none else some event.eventId

/-- The fewest events whose timestamps must be disbelieved for each source to be ordered. -/
def monotonicCorrections (events : List Event) : List String :=
  ((Groups.byKey (·.sourceId) events).flatMap fun p => corrected p.2).insertionSort (· ≤ ·)

/-- `itertools.combinations`, in its order. -/
def combinations {α : Type} : ℕ → List α → List (List α)
  | 0, _ => [[]]
  | _+1, [] => []
  | k+1, a::l => (combinations k l).map (a::·)++combinations (k+1) l

def touches (chosen : List String) (pair : String × String) : Bool := pair.1 ∈ chosen ∨ pair.2 ∈ chosen

/-- The first smallest cover, in the order of the combinations. -/
def exactCover (candidates : List String) (pairs : List (String × String)) : Option (List String) :=
  (List.range' 1 candidates.length).findSome? fun size =>
    (combinations size candidates).find? fun chosen => pairs.all (touches chosen)

/-- How many of the remaining pairs an event is in. -/
def coverCount (remaining : List (String × String)) (event : String) : ℕ :=
  remaining.countP (touches [event])

/-- In more of the remaining pairs, ties by the text. -/
def Ahead (remaining : List (String × String)) (a b : String) : Prop :=
  coverCount remaining b < coverCount remaining a ∨ coverCount remaining b = coverCount remaining a ∧ a ≤ b

instance (remaining : List (String × String)) : DecidableRel (Ahead remaining) :=
  fun _ _ => inferInstanceAs (Decidable (_ ∨ _))

/-- Repeatedly the event in the most remaining pairs. -/
def greedyCover (candidates : List String) : ℕ → List (String × String) → List String
  | 0, _ => []
  | fuel+1, remaining =>
    match ((candidates.filter (0 < coverCount remaining ·)).insertionSort (Ahead remaining)).head? with
    | none => []
    | some best => best::greedyCover candidates fuel (remaining.filter fun pair => !touches [best] pair)

/-- `correction_set`: a vertex cover of the pairs not already corrected, and whether it is the
greedy one. -/
def correctionSet (violations : List Violation) (cap : ℤ) (already : List String) : List String × Bool :=
  let pairs := (violations.map (·.events)).filter fun pair => !touches already pair
  if pairs = [] then ([],false)
  else
    let candidates := (pairs.flatMap fun pair => [pair.1,pair.2]).dedup.insertionSort (· ≤ ·)
    let exact := if (candidates.length : ℤ) ≤ cap then exactCover candidates pairs else none
    match exact with
    | some chosen => (chosen,false)
    | none => ((greedyCover candidates pairs.length pairs).insertionSort (· ≤ ·),true)

/-- What is left of the constraints once the pins of some events are gone. -/
def kept (constraints : List Constraint) (removed : Finset String) : List Constraint :=
  constraints.filter fun c => ¬(c.kind = .pin ∧ ∃ eventId ∈ removed, c.eventId = some eventId)

/-- `_BUDGET_FACTOR`. -/
def budgetFactor : ℕ := 4

/-- Whether the system is satisfiable once the pins of the removed events are gone. -/
def feasible (constraints : List Constraint) (_times : List (String × ℤ)) (removed : Finset String) : Bool :=
  let kept := kept constraints removed
  let nodes := (kept.map (·.u)++kept.map (·.v)++[zeroNode]).dedup
  let budget := budgetFactor*max nodes.length 1
  Difference.settles (kept.map (·.toBound)) (min nodes.length budget) fun _ => 0

/-- What the pass found. -/
structure Result where
  constraints : List Constraint
  violations : List Violation
  correctionSet : List String
  greedy : Bool
  disputedSources : List String
  budgetExhausted : Bool
  deriving DecidableEq

def timesOf (events : List Event) : List (String × ℤ) :=
  events.foldl (fun d e => Dict.set d e.eventId e.tEvtNs) []

/-- `run_pass`: build, check, and name what would have to be disbelieved. -/
def runPass (events : List Event) (instances : List SeqInstance) (ruleSeq : List (String × SeqOperator))
    (cap : ℤ) : Result :=
  let constraints := buildConstraints events instances ruleSeq
  let times := timesOf events
  let violations := findViolations constraints times
  let monotonic := monotonicCorrections events
  let ruleViolations := violations.filter (·.constraint.kind ≠ .seqMonotonic)
  let (extra,greedy) := correctionSet ruleViolations cap monotonic
  let chosen := (monotonic++extra).dedup.insertionSort (· ≤ ·)
  let sourceOf := events.foldl (fun d e => Dict.set d e.eventId e.sourceId) []
  let disputed := (chosen.filterMap (Dict.get? sourceOf)).dedup.insertionSort (· ≤ ·)
  { constraints := constraints
    violations := violations
    correctionSet := chosen
    greedy := greedy
    disputedSources := disputed
    budgetExhausted := chosen ≠ [] && !feasible constraints times chosen.toFinset }

end Temporal
end Spectra
