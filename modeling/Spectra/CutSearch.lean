import Spectra.AtomTable
import Spectra.Hitting

/-! `spectra_vs.cut`: the minimum-cardinality solve, the canonical representative, the
subset-minimal fallback and the corridor loop. Controls are visited in canonical order;
clause indices are what a control hits. -/
namespace Spectra

/-- `CORRIDOR_CAP` and `STEP_BUDGET`. -/
def corridorCapDefault : ℤ := 4096
def stepBudget : ℤ := 2000000

inductive MinCardStatus where
  | exact | infeasible | budgetExhausted
  deriving DecidableEq, Repr

structure MinCardinality where
  value : Option ℕ
  status : MinCardStatus
  nodes : ℕ
  deriving DecidableEq, Repr

/-- The clauses a control hits at a level. -/
def hitsAtLevel (clauses : List Clause) (atoms : AtomTable) (control : ControlId) (level : ℕ) :
    Finset ℕ :=
  (Finset.range clauses.length).filter fun i =>
    ((atoms.levelsOf control).take level).any fun a => a.rank ∈ clauses.getD i ∅

def hitsAtMax (clauses : List Clause) (atoms : AtomTable) (control : ControlId) : Finset ℕ :=
  hitsAtLevel clauses atoms control (atoms.maxLevel control)

/-- The fewest raised controls hitting every clause, or why that was not determined. -/
def minCardinality (clauses : List Clause) (atoms : AtomTable) (budget : ℤ)
    (excludedControls : List ControlId) : MinCardinality :=
  if budget ≤ 0 then ⟨none,.budgetExhausted,0⟩
  else
    let allowed := atoms.controls.filter (· ∉ excludedControls)
    match Hitting.bb (hitsAtMax clauses atoms) allowed (Finset.range clauses.length) 0 none
        ⟨budget,0⟩ with
    | .error box => ⟨none,.budgetExhausted,box.used⟩
    | .ok (none,box) => ⟨none,.infeasible,box.used⟩
    | .ok (some best,box) => ⟨some best,.exact,box.used⟩

/-- `unhit` can be covered by at most `cap` controls of `rest`. -/
def extendable (hits : ControlId → Finset ℕ) (rest : List ControlId) (unhit : Finset ℕ) (cap : ℤ)
    (box : Hitting.Box) : Except Hitting.Box (Bool × Hitting.Box) :=
  if cap < 0 then .ok (decide (unhit = ∅),box)
  else match Hitting.bb hits rest unhit 0 (some (cap.toNat+1)) box with
    | .error box => .error box
    | .ok (found,box) => .ok (found.any fun v : ℕ => (v : ℤ) ≤ cap,box)

/-- Phase one: take the first control that leaves the rest coverable. -/
def selectControls (hits : ControlId → Finset ℕ) (cardinality : ℕ) :
    List ControlId → List ControlId → Finset ℕ → Hitting.Box →
      Except Hitting.Box (List ControlId × Finset ℕ × Hitting.Box)
  | [], chosen, unhit, box => .ok (chosen,unhit,box)
  | control::rest, chosen, unhit, box =>
    if chosen.length = cardinality then .ok (chosen,unhit,box)
    else
      let covered := unhit ∩ hits control
      match extendable hits rest (unhit \ covered) (cardinality-chosen.length-1) box with
      | .error box => .error box
      | .ok (true,box) =>
        selectControls hits cardinality rest (chosen++[control]) (unhit \ covered) box
      | .ok (false,box) => selectControls hits cardinality rest chosen unhit box

def coveredBy (clauses : List Clause) (atoms : AtomTable) (chosen : List ControlId)
    (levels : ControlId → ℕ) : Finset ℕ :=
  chosen.foldl (fun covered control =>
    if 1 ≤ levels control then covered ∪ hitsAtLevel clauses atoms control (levels control)
    else covered) ∅

def hitsAll (clauses : List Clause) (atoms : AtomTable) (chosen : List ControlId)
    (levels : ControlId → ℕ) : Bool :=
  (coveredBy clauses atoms chosen levels).card = clauses.length

def levelMinimal (clauses : List Clause) (atoms : AtomTable) (chosen : List ControlId)
    (levels : ControlId → ℕ) : Bool :=
  chosen.all fun control => levels control ≤ 1 ||
    !hitsAll clauses atoms chosen (Function.update levels control (levels control-1))

/-- Lower one control, at level `level`, while every clause stays hit. -/
def lowerControl (clauses : List Clause) (atoms : AtomTable) (chosen : List ControlId)
    (control : ControlId) : ℕ → (ControlId → ℕ) → ControlId → ℕ
  | 0, levels => levels
  | level+1, levels =>
    if level = 0 then levels
    else
      let trial := Function.update levels control level
      if hitsAll clauses atoms chosen trial then lowerControl clauses atoms chosen control level trial
      else levels

def lowerAll (clauses : List Clause) (atoms : AtomTable) (chosen : List ControlId)
    (levels : ControlId → ℕ) : ControlId → ℕ :=
  chosen.foldl (fun levels control =>
    lowerControl clauses atoms chosen control (levels control) levels) levels

/-- The levels a choice of controls starts phase two with. -/
def maxLevels (atoms : AtomTable) (chosen : List ControlId) : ControlId → ℕ :=
  fun control => if control ∈ chosen then atoms.maxLevel control else 0

/-- The lexicographically least representative at a cardinality, and the nodes it cost. -/
def canonicalSelect (clauses : List Clause) (atoms : AtomTable) (cardinality : ℕ)
    (minimality : Minimality) (budget : ℤ) : Fallible (Cut × ℕ) :=
  match selectControls (hitsAtMax clauses atoms) cardinality atoms.controls []
      (Finset.range clauses.length) ⟨budget,0⟩ with
  | .error _ => .error (ErrorType.budgetError.mk
      "canonical_select: the node budget was exhausted inside selection; the caller must fall back to a subset-minimal cut and claim SUBSET")
  | .ok (chosen,unhit,box) =>
    if chosen.length ≠ cardinality ∨ unhit ≠ ∅ then
      .error (ErrorType.schemaError.mk ("canonical_select: no cut of cardinality "++
        toString cardinality++" hits every clause; the cardinality passed in was not the optimum for this database"))
    else
      let levels := lowerAll clauses atoms chosen (maxLevels atoms chosen)
      if !hitsAll clauses atoms chosen levels then
        .error (ErrorType.schemaError.mk
          "canonical_select: the selected cut does not hit every clause")
      else if !levelMinimal clauses atoms chosen levels then
        .error ⟨.schemaError,"E-CUT-CLOSURE","canonical_select: a raised control can be lowered one step with every clause still hit; level-minimality is a hard requirement, not a preference"⟩
      else match atoms.cutOfLevels levels minimality with
        | .error e => .error e
        | .ok cut => .ok (cut,box.used)

/-- Every control at its maximum, then dropped and lowered while every clause stays hit. -/
def subsetMinimal (clauses : List Clause) (atoms : AtomTable) : Fallible Cut :=
  let levels := maxLevels atoms atoms.controls
  if !hitsAll clauses atoms atoms.controls levels then
    .error (ErrorType.schemaError.mk
      "_subset_minimal: some clause is not hit by the whole literal universe; an unblockable corridor must be reported, not hidden in a fallback cut")
  else
    let chosen := atoms.controls.reverse.foldl (fun chosen control =>
      let trial := chosen.filter (· ≠ control)
      if hitsAll clauses atoms trial levels then trial else chosen) atoms.controls
    let levels := lowerAll clauses atoms chosen levels
    atoms.cutOfLevels (fun control => if control ∈ chosen then levels control else 0) .subset

structure Psi where
  program : ProgramKind
  complete : Bool
  corridors : List Corridor
  corridorCap : ℤ
  bbNodes : ℕ
  deriving DecidableEq

/-- The clause database as rank sets. -/
def Psi.clauses (psi : Psi) : List Clause := psi.corridors.map (·.atomRanks.toFinset)

/-- Everything one side of the bracket produced. -/
structure CutSearch where
  program : ProgramKind
  cut : Cut
  psi : Psi
  minimality : Minimality
  severs : Bool
  witness : Option WitnessNode
  fixpointSteps : ℕ
  bbNodes : ℕ
  budgetExhausted : Bool
  corridorCapHit : Bool

/-- The members of a clause, ascending. -/
def ascendingRanks (clause : Clause) : List ℕ :=
  (List.range (clause.sup id+1)).filter (· ∈ clause)

def corridorsOf (D : Digest) (atoms : AtomTable) : List Clause → Fallible (List Corridor)
  | [] => .ok []
  | clause::clauses =>
    match Corridor.mint D (ascendingRanks clause) (atoms.maskOfRanks (ascendingRanks clause)) with
    | .error e => .error e
    | .ok corridor => match corridorsOf D atoms clauses with
      | .error e => .error e
      | .ok corridors => .ok (corridor::corridors)

def finish (D : Digest) (p : ReachProgram) (atoms : AtomTable) (clauses : List Clause) (cut : Cut)
    (minimality : Minimality) (complete severs : Bool) (witness : Option WitnessNode)
    (steps nodes : ℕ) (corridorCap : ℤ) (budgetExhausted capHit : Bool) : Fallible CutSearch :=
  match corridorsOf D atoms clauses with
  | .error e => .error e
  | .ok corridors =>
    let corridors := corridors.insertionSort fun a b => a.corridorId ≤ b.corridorId
    match checkStrictlyAscending "Psi.corridors" (corridors.map (·.corridorId)) with
    | .error e => .error e
    | .ok _ => .ok ⟨p.kind,cut,⟨p.kind,complete,corridors,corridorCap,nodes⟩,minimality,severs,
        witness,steps,nodes,budgetExhausted,capHit⟩

/-- The cap-and-budget exit: a cut that claims SUBSET only. -/
def fallback (D : Digest) (p : ReachProgram) (atoms : AtomTable) (clauses : List Clause)
    (steps nodes : ℕ) (corridorCap : ℤ) (budgetExhausted capHit : Bool) : Fallible CutSearch :=
  match subsetMinimal clauses atoms with
  | .error e => .error e
  | .ok cut =>
    let result := reach p cut.mask
    let tree : Fallible (Option WitnessNode) :=
      if result.derivable then (witnessTree p cut.mask result none).map some else .ok none
    match tree with
    | .error e => .error e
    | .ok tree => finish D p atoms clauses cut .subset false (!result.derivable) tree
        (steps+result.steps) nodes corridorCap budgetExhausted capHit

/-- One turn of the corridor loop: it returns, or it learns a clause. -/
inductive Turn where
  | returned (search : CutSearch)
  | learned (clause : Clause) (steps nodes : ℕ)

def psiTurn (D : Digest) (p : ReachProgram) (atoms : AtomTable) (budget corridorCap : ℤ)
    (clauses : List Clause) (steps nodes : ℕ) : Fallible Turn :=
  let solve := minCardinality clauses atoms (budget-nodes) []
  let nodes := nodes+solve.nodes
  match solve.status, solve.value with
  | .budgetExhausted, _ =>
    (fallback D p atoms clauses steps nodes corridorCap true false).map .returned
  | .exact, some cardinality =>
    match canonicalSelect clauses atoms cardinality .exactPsiRelative (budget-nodes) with
    | .error e =>
      if e.type = .budgetError then
        (fallback D p atoms clauses steps nodes corridorCap true false).map .returned
      else .error e
    | .ok (cut,selectNodes) =>
      let nodes := nodes+selectNodes
      let result := reach p cut.mask
      let steps := steps+result.steps
      if !result.derivable then
        (finish D p atoms clauses cut .exactPsiRelative true true none steps nodes corridorCap
          false false).map .returned
      else match witnessTree p cut.mask result none with
        | .error e => .error e
        | .ok tree =>
          let mask := witnessMask p tree
          if mask = 0 then
            (finish D p atoms clauses cut .unverified true false (some tree) steps nodes corridorCap
              false false).map .returned
          else
            let clause := (atoms.ranksOfMask mask).toFinset
            if clause ∈ clauses then
              .error (ErrorType.determinismError.mk
                "enumerate_psi: the loop learned a clause it already holds, so it is not making progress; the cut it just tested should have hit that clause")
            else .ok (.learned clause steps nodes)
  | _, _ => .error (ErrorType.determinismError.mk
      "enumerate_psi: the clause database became infeasible; an empty corridor was appended, which the mask==0 branch is there to prevent")

/-- The loop; the corridor cap is what bounds it. -/
def psiLoop (D : Digest) (p : ReachProgram) (atoms : AtomTable) (budget corridorCap : ℤ)
    (clauses : List Clause) (steps nodes : ℕ) : Fallible CutSearch :=
  match psiTurn D p atoms budget corridorCap clauses steps nodes with
  | .error e => .error e
  | .ok (.returned search) => .ok search
  | .ok (.learned clause steps nodes) =>
    if corridorCap ≤ clauses.length+1 then
      fallback D p atoms (clauses++[clause]) steps nodes corridorCap false true
    else psiLoop D p atoms budget corridorCap (clauses++[clause]) steps nodes
termination_by (corridorCap-clauses.length).toNat
decreasing_by simp only [List.length_append,List.length_singleton]; push_cast; omega

def enumeratePsi (D : Digest) (p : ReachProgram) (atoms : AtomTable) (budget corridorCap : ℤ) :
    Fallible CutSearch := psiLoop D p atoms budget corridorCap [] 0 0

end Spectra
