import Spectra.Ground
import Spectra.Reach

/-! `spectra_vs.pipeline`, the seam between grounding and proof: the goal library an authored
goal resolves to, and a program indexed for propagation against it. -/
namespace Spectra

variable {D : Digest}

/-- The goal as authored. -/
structure GoalSpec where
  goalPredicate : String
  goalArgs : List String
  horizonK : ℤ
  deriving DecidableEq, Repr

/-- `GOAL_PREDICATE_BINDING`. -/
def goalPredicateBinding : List (String × String) := [("resource.bulk_read","exfil.bulk_read")]

def GoalSpec.boundPredicate (goal : GoalSpec) : String :=
  (Dict.get? goalPredicateBinding goal.goalPredicate).getD goal.goalPredicate

/-- The entities of one canonical name, of whatever kind. -/
def entitiesNamed (entities : List Entity) (name : String) : List EntityId :=
  (entities.filter (·.canonicalName = name)).map (·.entityId)

structure GoalResolution where
  target : FactHash
  library : List FactHash
  resolved : Bool
  complaints : List String
  deriving DecidableEq, Repr

def wantedEntities (goal : GoalSpec) (entities : List Entity) : List EntityId :=
  goal.goalArgs.flatMap (entitiesNamed entities)

/-- The facts of the bound predicate that have every wanted entity among their arguments. -/
def goalLibrary (goal : GoalSpec) (programs : List (Program D)) (entities : List Entity) :
    List FactHash :=
  ((programs.flatMap fun program => (program.facts.filter fun f =>
    f.predicate = goal.boundPredicate && (wantedEntities goal entities).all (· ∈ f.args)).map
      (·.factKey)).dedup).insertionSort (· ≤ ·)

def goalComplaints (goal : GoalSpec) (entities : List Entity) : List String :=
  (if goal.boundPredicate = goal.goalPredicate then [] else
    ["goal.toml names "++goal.goalPredicate++", which no rule heads; it is bound to the rule "
      ++"table's terminal head "++goal.boundPredicate])++
  (goal.goalArgs.filter (entitiesNamed entities · = [])).map fun arg =>
    "goal argument "++arg++" resolves to no entity the scenario declares; it is dropped from "
      ++"the goal filter rather than invented"

/-- Bind the authored goal; an empty library proves against a sentinel key. -/
def resolveGoal (goal : GoalSpec) (programs : List (Program D)) (entities : List Entity) :
    Fallible GoalResolution :=
  match goalLibrary goal programs entities with
  | first::rest => .ok ⟨first,first::rest,true,goalComplaints goal entities⟩
  | [] => do
    let sentinel ← Fact.mint D goal.boundPredicate (wantedEntities goal entities) goal.horizonK
    pure ⟨sentinel.factKey,[],false,goalComplaints goal entities++
      ["no fact of "++goal.boundPredicate++" is derived in either program; the goal library is "
        ++"empty and the run proves against a sentinel key that no instance heads"]⟩

/-- Index one program for propagation, against the whole goal library. -/
def buildReach (program : Program D) (goal : FactHash)
    (evidence : List (FactHash × List EventId)) (library : List FactHash)
    (instances : Option (List RuleInstance)) : Fallible ReachProgram :=
  let kept := evidence.filter fun p => p.1 ∈ program.axioms
  let goals := if library = [] then [goal] else library
  let goals := if goal ∈ goals then goals else (goals++[goal]).dedup.insertionSort (· ≤ ·)
  ReachProgram.build program.kind (instances.getD (program.instances.map (·.toRuleInstance)))
    program.axioms goal kept (some goals)

theorem buildReach_ok {program : Program D} {goal : FactHash}
    {evidence : List (FactHash × List EventId)} {library : List FactHash} {p : ReachProgram}
    (h : buildReach program goal evidence library none = .ok p) :
    p.axioms = program.axioms ∧ p.instances = program.instances.map (·.toRuleInstance) := by
  unfold buildReach ReachProgram.build at h
  simp only at h
  split at h
  · cases h
  · cases h
    exact ⟨rfl,rfl⟩

/-! ### What the library leaves out -/

/-- Each authored argument that names an entity has an entity so named among the arguments. -/
def MatchesGoal (goal : GoalSpec) (entities : List Entity) (f : Fact D) : Prop :=
  f.predicate = goal.boundPredicate ∧
    ∀ arg ∈ goal.goalArgs, entitiesNamed entities arg ≠ [] →
      ∃ id ∈ entitiesNamed entities arg, id ∈ f.args

theorem mem_goalLibrary {goal : GoalSpec} {programs : List (Program D)} {entities : List Entity}
    {f : Fact D} : f.factKey ∈ goalLibrary goal programs entities ↔
      (∃ program ∈ programs, f ∈ program.facts) ∧ f.predicate = goal.boundPredicate ∧
        ∀ arg ∈ goal.goalArgs, ∀ id ∈ entitiesNamed entities arg, id ∈ f.args := by
  simp only [goalLibrary,List.mem_insertionSort,List.mem_dedup,List.mem_flatMap,List.mem_map,
    List.mem_filter,Bool.and_eq_true,decide_eq_true_eq,List.all_eq_true,wantedEntities]
  constructor
  · rintro ⟨program,hp,g,⟨hg,hpred,hall⟩,hk⟩
    cases Fact.key_inj hk
    exact ⟨⟨program,hp,hg⟩,hpred,fun arg ha id hid => hall id ⟨arg,ha,hid⟩⟩
  · rintro ⟨⟨program,hp,hf⟩,hpred,hall⟩
    exact ⟨program,hp,f,⟨hf,hpred,fun id ⟨arg,ha,hid⟩ => hall arg ha id hid⟩,rfl⟩

theorem resolveGoal_library {goal : GoalSpec} {programs : List (Program D)}
    {entities : List Entity} {r : GoalResolution} (h : resolveGoal goal programs entities = .ok r) :
    r.library = goalLibrary goal programs entities ∧ (r.resolved = false ↔ r.library = []) := by
  unfold resolveGoal at h
  split at h
  · rename_i first rest hl
    cases h
    simp [hl]
  · rename_i hl
    cases hm : Fact.mint D goal.boundPredicate (wantedEntities goal entities) goal.horizonK with
    | error e => rw [hm] at h; cases h
    | ok sentinel => rw [hm] at h; cases h; simp [hl]

/-- No goal fact is lost exactly when none has only some of the entities of a shared name:
the filter asks for all of them. -/
theorem resolveGoal_complete_iff {goal : GoalSpec} {programs : List (Program D)}
    {entities : List Entity} {r : GoalResolution} (h : resolveGoal goal programs entities = .ok r) :
    ((∀ program ∈ programs, ∀ f ∈ program.facts, MatchesGoal goal entities f →
        f.factKey ∈ r.library) ∧
      (r.resolved = false → ∀ program ∈ programs, ∀ f ∈ program.facts,
        ¬MatchesGoal goal entities f)) ↔
    ∀ program ∈ programs, ∀ f ∈ program.facts, MatchesGoal goal entities f →
      ∀ arg ∈ goal.goalArgs, ∀ id ∈ entitiesNamed entities arg, id ∈ f.args := by
  obtain ⟨hl,hr⟩ := resolveGoal_library h
  constructor
  · intro hc program hp f hf hm
    have hk := hc.1 program hp f hf hm
    rw [hl,mem_goalLibrary] at hk
    exact hk.2.2
  · intro hall
    have hin : ∀ program ∈ programs, ∀ f ∈ program.facts, MatchesGoal goal entities f →
        f.factKey ∈ r.library := by
      intro program hp f hf hm
      rw [hl,mem_goalLibrary]
      exact ⟨⟨program,hp,hf⟩,hm.1,hall program hp f hf hm⟩
    refine ⟨hin,fun hu program hp f hf hm => ?_⟩
    have hmem := hin program hp f hf hm
    rw [hr.mp hu] at hmem
    cases hmem

/-- An account and a host that share a name. -/
def backupEntities : List Entity :=
  [⟨"en:account:00000000000000000000000000000001","account","backup"⟩,
    ⟨"en:host:00000000000000000000000000000002","host","backup"⟩]

def backupGoal : GoalSpec := ⟨"exfil.bulk_read",["backup"],10⟩

def backupRead : Fact .spelled :=
  valueOf (Fact.mint .spelled "exfil.bulk_read" ["en:account:00000000000000000000000000000001"] 5)
    (by decide)

/-- The read by the account is the only fact of the program. -/
def backupProgram : Program .spelled where
  kind := .pMin
  facts := [backupRead]
  instances := []
  licences := []
  axioms := [backupRead.factKey]
  ghosts := []
  capped := false
  valid := by decide

def backupResolution : GoalResolution :=
  valueOf (resolveGoal backupGoal [backupProgram,backupProgram] backupEntities) (by decide)

theorem backupResolution_ok :
    resolveGoal backupGoal [backupProgram,backupProgram] backupEntities = .ok backupResolution :=
  valueOf_ok _ _

theorem backupRead_matches : MatchesGoal backupGoal backupEntities backupRead :=
  ⟨by decide,fun arg ha _ => by
    have ha : arg = "backup" := by simpa [backupGoal] using ha
    subst ha
    exact ⟨"en:account:00000000000000000000000000000001",by decide,by decide⟩⟩

/-- The goal fact of the account is lost and the run proves against the sentinel. -/
theorem resolveGoal_incomplete :
    resolveGoal backupGoal [backupProgram,backupProgram] backupEntities = .ok backupResolution ∧
      backupRead ∈ backupProgram.facts ∧ MatchesGoal backupGoal backupEntities backupRead ∧
      backupResolution.resolved = false ∧ backupRead.factKey ∉ backupResolution.library :=
  ⟨backupResolution_ok,by simp [backupProgram],backupRead_matches,by decide,by decide⟩

theorem resolveGoal_complete_iff_backup :
    ((∀ program ∈ [backupProgram,backupProgram], ∀ f ∈ program.facts,
        MatchesGoal backupGoal backupEntities f → f.factKey ∈ backupResolution.library) ∧
      (backupResolution.resolved = false → ∀ program ∈ [backupProgram,backupProgram],
        ∀ f ∈ program.facts, ¬MatchesGoal backupGoal backupEntities f)) ↔
    ∀ program ∈ [backupProgram,backupProgram], ∀ f ∈ program.facts,
      MatchesGoal backupGoal backupEntities f → ∀ arg ∈ backupGoal.goalArgs,
        ∀ id ∈ entitiesNamed backupEntities arg, id ∈ f.args :=
  resolveGoal_complete_iff backupResolution_ok

end Spectra
