import Spectra.Dict
import Spectra.Records

/-! `spectra_vs.rules`: data guards and their evaluation, patterns, temporal clauses, the
compiled rule and the rule table. A value carries the fact that the checks its loader
makes passed; text is taken in parsed form. -/
namespace Spectra

/-! ### Data guards -/

/-- One canonicalised guard node of the data sort, by kind. -/
inductive Node where
  | constBool (value : ℤ)
  | constInt (value : ℤ)
  | constDur (value : ℤ)
  | constSym (text : String)
  | field (text : String)
  | not (child : Node)
  | abs (child : Node)
  | and (children : List Node)
  | or (children : List Node)
  | eq (left right : Node)
  | lt (left right : Node)
  | add (left right : Node)
  | sub (left right : Node)
  | min (left right : Node)
  | max (left right : Node)

/-- What a guard evaluates to. -/
inductive Value where
  | bool (value : Bool)
  | int (value : ℤ)
  | sym (text : String)
  /-- The sentinel of a field the environment does not bind. -/
  | missing
  deriving DecidableEq, Repr

namespace Value

/-- A Boolean is an integer too. -/
def asInt : Value → Option ℤ
  | .bool b => some (if b then 1 else 0)
  | .int n => some n
  | .sym _ => none
  | .missing => none

def truthy : Value → Bool
  | .bool b => b
  | .int n => n ≠ 0
  | .sym s => s ≠ ""
  | .missing => true

def equal : Value → Value → Bool
  | .sym s, .sym t => s = t
  | .missing, _ => false
  | _, .missing => false
  | v, w => match v.asInt, w.asInt with
    | some n, some m => n = m
    | _, _ => false

/-- A comparison of two integers; anything else is false. -/
def less (v w : Value) : Bool :=
  match v.asInt, w.asInt with
  | some n, some m => n < m
  | _, _ => false

/-- An operation on two integers; anything else is zero. -/
def arith (op : ℤ → ℤ → ℤ) (v w : Value) : Value :=
  match v.asInt, w.asInt with
  | some n, some m => .int (op n m)
  | _, _ => .int 0

end Value

namespace Node

/-- Clamp to the i64 range. -/
def saturate (value : ℤ) : ℤ :=
  if value < -2^63 then -2^63 else if 2^63-1 < value then 2^63-1 else value

abbrev Env := List (String × Value)

mutual

def eval (env : Env) : Node → Value
  | .constBool value => .bool (value = 1)
  | .constInt value => .int value
  | .constDur value => .int value
  | .constSym text => .sym text
  | .field text => (Dict.get? env text).getD .missing
  | .not child => .bool (!(child.eval env).truthy)
  | .and children => .bool (evalAll env children)
  | .or children => .bool (evalAny env children)
  | .eq left right => .bool ((left.eval env).equal (right.eval env))
  | .lt left right => .bool ((left.eval env).less (right.eval env))
  | .add left right => (left.eval env).arith (fun n m => saturate (n+m)) (right.eval env)
  | .sub left right => (left.eval env).arith (fun n m => saturate (n-m)) (right.eval env)
  | .min left right => (left.eval env).arith (fun n m => if m < n then m else n) (right.eval env)
  | .max left right => (left.eval env).arith (fun n m => if n < m then m else n) (right.eval env)
  | .abs child =>
    match (child.eval env).asInt with
    | some n => .int (saturate |n|)
    | none => .int 0

def evalAll (env : Env) : List Node → Bool
  | [] => true
  | c::cs => (c.eval env).truthy && evalAll env cs

def evalAny (env : Env) : List Node → Bool
  | [] => false
  | c::cs => (c.eval env).truthy || evalAny env cs

end

end Node

/-- No guard is no restriction. -/
def evalWhen (node : Option Node) (env : Node.Env) : Bool :=
  match node with
  | none => true
  | some node => (node.eval env).truthy

/-! ### Patterns and temporal clauses -/

def isLower (c : Char) : Bool := 'a' ≤ c && c ≤ 'z'

def isSnakeTail (c : Char) : Bool := isLower c || ('0' ≤ c && c ≤ '9') || c = '_'

def snakeChars : List Char → Bool
  | [] => false
  | c::cs => isLower c && cs.all isSnakeTail

def isSnake (value : String) : Bool := snakeChars value.toList && value.toList.length ≤ 48

def isPredicate (value : String) : Bool := (value.toList.splitOn '.').all snakeChars

structure PatternFields where
  predicate : String
  vars : List String
  deriving DecidableEq, Repr

def PatternFields.postInit (p : PatternFields) : Fallible Unit := checks [
  ensure (isPredicate p.predicate) (ErrorType.schemaError.mk ("not a predicate: "++p.predicate)),
  ensure (p.vars ≠ []) (ErrorType.schemaError.mk
    (p.predicate++": a pattern needs at least a tick variable")),
  checks (p.vars.zipIdx.map fun v => checks [
    ensure (isSnake v.1) (ErrorType.identifierError.mk (p.predicate++
      " variable: not a section 57.2 snake (lowercase ASCII, <= 48 octets): "++v.1)),
    ensure (v.1 ∉ p.vars.take v.2) (ErrorType.schemaError.mk
      (p.predicate++": variable "++v.1++" repeats in one pattern"))]),
  ensure ("t" ∉ p.vars.dropLast) (ErrorType.schemaError.mk (p.predicate++
    ": t is reserved for the slot's tick field in when and may not name an entity argument"))]

/-- `predicate(var, ..., tickVar)`; the last variable binds the fact's tick. -/
structure Pattern extends PatternFields where
  valid : toPatternFields.postInit = .ok ()
  deriving DecidableEq

namespace Pattern

def entityVars (p : Pattern) : List String := p.vars.dropLast

def tickVar (p : Pattern) : String := p.vars.getLastD ""

def arity (p : Pattern) : ℕ := p.vars.length-1

theorem vars_ne_nil (p : Pattern) : p.vars ≠ [] := by
  have h := p.valid
  simp only [PatternFields.postInit,checks_cons,ensure_ok] at h
  exact h.2.1

theorem vars_nodup (p : Pattern) : p.vars.Nodup := by
  have h := p.valid
  simp only [PatternFields.postInit,checks_cons,checks_map,ensure_ok] at h
  rw [List.nodup_iff_injective_getElem]
  -- of two equal entries the later one would repeat in the prefix before it
  have key : ∀ i j (hi : i < p.vars.length) (hj : j < p.vars.length), i < j →
      p.vars[i] ≠ p.vars[j] := by
    intro i j hi hj hij he
    have hm : (p.vars[j],j) ∈ p.vars.zipIdx := by
      rw [List.mem_zipIdx_iff_getElem?]
      exact List.getElem?_eq_getElem hj
    refine (h.2.2.1 _ hm).2.1 ?_
    show p.vars[j] ∈ p.vars.take j
    rw [← he,List.mem_take_iff_getElem]
    exact ⟨i,by omega,rfl⟩
  intro i j he
  rcases lt_trichotomy i.1 j.1 with hij | hij | hij
  · exact absurd he (key i.1 j.1 i.2 j.2 hij)
  · exact Fin.ext hij
  · exact absurd he.symm (key j.1 i.1 j.2 i.2 hij)

theorem entityVars_length (p : Pattern) : p.entityVars.length = p.arity := by
  simp [entityVars,arity]

theorem vars_eq (p : Pattern) : p.vars = p.entityVars++[p.tickVar] := by
  have h := List.dropLast_append_getLast p.vars_ne_nil
  have ht : p.tickVar = p.vars.getLast p.vars_ne_nil := by
    simp [tickVar,List.getLastD_eq_getLast?,List.getLast?_eq_some_getLast p.vars_ne_nil]
  rw [entityVars,ht,h]

theorem tickVar_notMem (p : Pattern) : p.tickVar ∉ p.entityVars := by
  have h := p.vars_nodup
  rw [vars_eq,List.nodup_append] at h
  exact fun hm => h.2.2 _ hm _ (by simp) rfl

theorem entityVars_nodup (p : Pattern) : p.entityVars.Nodup := by
  have h := p.vars_nodup
  rw [vars_eq,List.nodup_append] at h
  exact h.1

end Pattern

/-- The three implemented operators and the obligation trigger form, each with the fields
it reads. A slot is named by its text. -/
inductive Temporal where
  | seq (withinTicks : ℤ) (left right : String)
  | absence (withinTicks : ℤ) (before : String) (ofPattern : Pattern)
  | distinct (withinTicks : ℤ) (ofSlot fieldName : String) (n : ℤ)
  | obligation (withinTicks : ℤ) (before : String)
  deriving DecidableEq

/-! ### Compiled rules -/

def slotNames : List String := ["a","b","c","d"]

def slotName (index : ℕ) : String := slotNames.getD index ""

structure Rule where
  ruleId : RuleId
  ruleVersion : String
  kind : RuleKind
  producingSources : List SourceId
  silentPossible : Bool
  causalRelation : String
  deriving DecidableEq, Repr

structure CompiledFields where
  rule : Rule
  head : Pattern
  body : List Pattern
  when : Option Node
  blockers : List Mask
  temporal : Option Temporal
  silentBindKinds : List (String × String)

/-- A `seq` clause names slots that have a pattern; the other forms are not checked. -/
def checkSeqSlots (loc : String) (slots : ℕ) : Option Temporal → Fallible Unit
  | some (.seq _ left right) => checks ([left,right].map fun slot =>
    ensure (slot ∈ slotNames.take slots) (ErrorType.schemaError.mk
      (loc++": seq names slot "++slot++", which has no pattern")))
  | _ => .ok ()

/-- The checks `_compile_one` makes on one rule, in its order. -/
def CompiledFields.postInit (c : CompiledFields) : Fallible Unit :=
  let loc := "rules.toml["++c.rule.ruleId++"]"
  checks [
    ensure (c.body ≠ []) (ErrorType.schemaError.mk
      (loc++": a rule with no body would be an unconditional assertion")),
    ensure (c.body.length ≤ slotNames.length) (ErrorType.schemaError.mk
      (loc++": "++toString c.body.length++" body patterns; the slice narrows to 4")),
    checkSeqSlots loc c.body.length c.temporal,
    ensure (∀ v ∈ c.head.vars,
      v ∈ c.body.flatMap (·.vars) ∨ v ∈ c.silentBindKinds.map (·.1))
      (ErrorType.schemaError.mk (loc++": head variables are not bound by the body and are not "
        ++"declared in silent_bind_kinds; an unbound head variable has no ground value")),
    checkStrictlyAscending "Rule.producing_sources" c.rule.producingSources,
    ensure (¬(c.rule.silentPossible = true ∧ c.rule.kind = .detect ∧ c.rule.producingSources = []))
      (ErrorType.schemaError.mk (loc++": silent_possible with no producing_sources; there would "
        ++"be nothing whose blindness could licence the instance"))]

/-- One compiled rule; the bind kinds are the sorted items of a table. -/
structure CompiledRule extends CompiledFields where
  valid : toCompiledFields.postInit = .ok ()
  kindsSorted : (silentBindKinds.map (·.1)).Pairwise (· < ·)

/-- A rule without bind kinds has them sorted. -/
theorem no_kinds : (([] : List (String × String)).map (·.1)).Pairwise (· < ·) := by decide

namespace CompiledRule

variable (c : CompiledRule)

def ruleId : RuleId := c.rule.ruleId

def isObligation : Bool := c.rule.kind = .obligation

theorem body_ne_nil : c.body ≠ [] := by
  have h := c.valid
  simp only [CompiledFields.postInit,checks_cons,ensure_ok] at h
  exact h.1

theorem body_length_le : c.body.length ≤ 4 := by
  have h := c.valid
  simp only [CompiledFields.postInit,checks_cons,ensure_ok] at h
  exact h.2.1

end CompiledRule

/-- The position of a slot name; an unknown name is a `ValueError`. -/
def slotOf (name : String) : Fallible ℕ :=
  match slotNames.idxOf? name with
  | some index => .ok index
  | none => .error ⟨.uncaught,"ValueError",name⟩

/-! ### The rule table -/

def axiomPredicatesOf (rules : List CompiledRule) : List String :=
  ((rules.flatMap fun c => c.body.map (·.predicate)).filter fun p =>
    p ∉ rules.map (·.head.predicate)).dedup.insertionSort (· ≤ ·)

/-- The arity a predicate has where it is met first. -/
def arityOf (patterns : List Pattern) (predicate : String) : Option ℕ :=
  (patterns.find? (·.predicate = predicate)).map (·.arity)

def allPatterns (rules : List CompiledRule) : List Pattern :=
  rules.flatMap fun c => c.head::c.body

def CompiledRule.absencePattern (c : CompiledRule) : Option Pattern :=
  match c.temporal with
  | some (.absence _ _ pattern) => some pattern
  | _ => none

def checkArities (rules : List CompiledRule) (entry : CompiledRule) : Fallible Unit := checks [
  checks ((allPatterns rules).map fun p =>
    ensure (arityOf (allPatterns rules) p.predicate = some p.arity) (ErrorType.schemaError.mk
      ("predicate "++p.predicate++" appears with two arities; a predicate has one arity"))),
  checks (entry.absencePattern.toList.map fun p =>
    ensure ((arityOf (allPatterns rules) p.predicate).all (· = p.arity))
      (ErrorType.schemaError.mk (entry.ruleId++": absence pattern "++p.predicate
        ++" has an arity other than the declared one")))]

def checkAxiomOrder (axiomPredicates : List String) (entry : CompiledRule) : Fallible Unit :=
  checks ((entry.body++entry.absencePattern.toList).map fun p =>
    if p.predicate ∈ axiomPredicates then
      checkStrictlyAscending (entry.ruleId++": axiom pattern "++p.predicate) p.entityVars
    else .ok ())

def checkAxiomSlot (axiomPredicates : List String) (entry : CompiledRule) : Fallible Unit :=
  ensure (entry.isObligation = true ∨ ∃ p ∈ entry.body, p.predicate ∈ axiomPredicates)
    (ErrorType.schemaError.mk ("rules.toml["++entry.ruleId++"]: a detect rule with no axiom body "
      ++"pattern would ground an OBSERVED instance carrying no evidence"))

/-- The checks `compile_rules` makes on the sorted table, and the table's own. -/
def compileChecks (rules : List CompiledRule) : Fallible Unit := checks [
  ensure (rules ≠ []) (ErrorType.schemaError.mk "rules.toml: the table declares no rules"),
  checks (rules.map fun entry => checks [
    checkArities rules entry,
    checkAxiomOrder (axiomPredicatesOf rules) entry,
    checkAxiomSlot (axiomPredicatesOf rules) entry]),
  checkStrictlyAscending "RuleTable.rules" (rules.map (·.ruleId))]

structure RuleTable where
  rules : List CompiledRule
  compiled : compileChecks rules = .ok ()

namespace RuleTable

variable {table : RuleTable} {c : CompiledRule}

def axiomPredicates (table : RuleTable) : List String := axiomPredicatesOf table.rules

def detectRules (table : RuleTable) : List CompiledRule := table.rules.filter (!·.isObligation)

def obligationRules (table : RuleTable) : List CompiledRule := table.rules.filter (·.isObligation)

def get (table : RuleTable) (ruleId : RuleId) : Fallible CompiledRule :=
  match table.rules.find? (·.ruleId = ruleId) with
  | some c => .ok c
  | none => .error ⟨.uncaught,"KeyError",ruleId⟩

theorem mem_detectRules : c ∈ table.detectRules ↔ c ∈ table.rules ∧ c.isObligation = false := by
  simp [detectRules]

theorem mem_axiomPredicates {p : String} : p ∈ table.axiomPredicates ↔
    (∃ c ∈ table.rules, ∃ q ∈ c.body, q.predicate = p) ∧ ∀ c ∈ table.rules, c.head.predicate ≠ p := by
  have hs : p ∈ table.axiomPredicates ↔ p ∈ ((table.rules.flatMap fun c =>
      c.body.map (·.predicate)).filter fun p => p ∉ table.rules.map (·.head.predicate)) :=
    (List.mem_insertionSort _).trans List.mem_dedup
  rw [hs]
  simp

/-- A detect rule has a slot that only the bundle can fill. -/
theorem axiom_slot (hc : c ∈ table.detectRules) :
    ∃ p ∈ c.body, ∀ d ∈ table.rules, d.head.predicate ≠ p.predicate := by
  obtain ⟨hc,ho⟩ := mem_detectRules.mp hc
  have h := table.compiled
  simp only [compileChecks,checkAxiomSlot,checks_cons,checks_map,ensure_ok] at h
  rcases (h.2.1 c hc).2.2.1 with hob | ⟨p,hp,ha⟩
  · rw [ho] at hob; cases hob
  · exact ⟨p,hp,(mem_axiomPredicates.mp ha).2⟩

theorem ids_ascending (table : RuleTable) : (table.rules.map (·.ruleId)).Pairwise (· < ·) := by
  have h := table.compiled
  simp only [compileChecks,checks_cons,checkStrictlyAscending_ok] at h
  exact h.2.2.1

theorem ruleId_inj {c d : CompiledRule} (hc : c ∈ table.rules) (hd : d ∈ table.rules)
    (h : c.ruleId = d.ruleId) : c = d := by
  have hn : (table.rules.map (·.ruleId)).Nodup := table.ids_ascending.imp fun hab => ne_of_lt hab
  exact List.inj_on_of_nodup_map hn hc hd h

end RuleTable

end Spectra
