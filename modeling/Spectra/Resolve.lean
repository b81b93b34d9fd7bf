import Spectra.EventWidths
import Spectra.Tally

/-! `spectra_vs.resolve`: the roles of a bundle's records are bound to entities by exact joins, and what
joins to nothing or to more than one entity is told apart from what is bound. -/
namespace Spectra
namespace Resolve

open Checker (Library)

/-! ### Join rules -/

def joinRuleIds : List String := ["r_exact_principal","r_exact_device","r_exact_token",
  "r_exact_session_by_token","r_exact_resource"]

structure JoinFields where
  joinRuleId : String
  role : String
  attrKey : String
  kind : String
  table : List (String × List String)
  deriving DecidableEq, Repr

namespace JoinFields

def postInit (lib : Library) (r : JoinFields) : Fallible Unit := checks [
  ensure (r.joinRuleId ∈ joinRuleIds) (ErrorType.schemaError.mk
    ("JoinRule: "++r.joinRuleId++" is not one of the closed five")),
  ensure (isSnake r.role) (ErrorType.identifierError.mk
    ("JoinRule.role: not a section 57.2 snake (lowercase ASCII, <= 48 octets): "++r.role)),
  ensure (Checker.isKey r.attrKey) (ErrorType.schemaError.mk
    ("JoinRule: attr_key "++r.attrKey++" is not ASCII [a-z0-9_]+")),
  ensure (r.kind ∈ entityKinds) (ErrorType.schemaError.mk
    ("JoinRule: kind "++r.kind++" is not a section 57.2 EntityKind")),
  lib.checkKeys "JoinRule.table keys" 0 none (r.table.map (·.1)),
  checks (r.table.map fun entry => checks [
    ensure (entry.2 ≠ []) (ErrorType.schemaError.mk
      ("JoinRule: table key "++entry.1++" denotes no entity")),
    lib.checkKeys ("JoinRule.table["++entry.1++"]") 0 none entry.2])]

/-- `sort_key`; its three texts are ASCII. -/
def sortKey (r : JoinFields) : String ×ₗ String ×ₗ String := toLex (r.joinRuleId,toLex (r.role,r.attrKey))

/-- Exact membership: the names a value denotes, or none. -/
def lookup (r : JoinFields) (value : String) : List String := (Dict.get? r.table value).getD []

end JoinFields

/-- One exact join. -/
structure JoinRule (lib : Library) extends JoinFields where
  valid : toJoinFields.postInit lib = .ok ()

section

variable {lib : Library}

/-- No two rules of a list have one key. -/
def checkDistinct : List (String ×ₗ String ×ₗ String) → List (JoinRule lib) → Fallible Unit
  | _, [] => .ok ()
  | seen, rule::rest => do
    ensure (rule.sortKey ∉ seen) (ErrorType.schemaError.mk ("resolve: join rule ("++rule.joinRuleId++", "
      ++rule.role++", "++rule.attrKey++") is declared twice"))
    checkDistinct (rule.sortKey::seen) rest

/-- `_check_rules`. -/
def checkRules (rules : List (JoinRule lib)) : Fallible (List (JoinRule lib)) := do
  let ordered := rules.insertionSort (·.sortKey ≤ ·.sortKey)
  checkDistinct [] ordered
  pure ordered

end

/-! ### Outcomes -/

structure Entity where
  entityId : EntityId
  kind : String
  canonicalName : String
  joinRuleId : String
  resolvedFrom : List EventId
  deriving DecidableEq, Repr

structure Binding where
  eventId : EventId
  role : String
  entityId : EntityId
  joinRuleId : String
  deriving DecidableEq, Repr

structure AmbiguousRole where
  eventId : EventId
  role : String
  candidates : List EntityId
  deriving DecidableEq, Repr

structure UnresolvedRole where
  eventId : EventId
  role : String
  attrKey : String
  value : String
  deriving DecidableEq, Repr

/-! The sort keys of the rows; ids and roles are ASCII. -/

def Binding.sortKey (row : Binding) : String ×ₗ String := toLex (row.eventId,row.role)

def AmbiguousRole.sortKey (row : AmbiguousRole) : String ×ₗ String := toLex (row.eventId,row.role)

def UnresolvedRole.sortKey (row : UnresolvedRole) : String ×ₗ String ×ₗ String :=
  toLex (row.eventId,toLex (row.role,row.attrKey))

/-- What became of the rows of a role. -/
structure RoleCounts where
  resolved : ℕ
  ambiguous : ℕ
  unresolved : ℕ
  deriving DecidableEq, Repr

structure ResolveCounts where
  eventsTotal : ℕ
  eventsWithBindings : ℕ
  rolesResolved : ℕ
  rolesAmbiguous : ℕ
  rolesUnresolved : ℕ
  entities : ℕ
  byRole : List (String × RoleCounts)
  byJoinRule : List (String × ℕ)
  byKind : List (String × ℕ)
  deriving DecidableEq, Repr

structure ResolveResult where
  entities : List Entity
  bindings : List Binding
  ambiguous : List AmbiguousRole
  unresolved : List UnresolvedRole
  counts : ResolveCounts
  erBytes : Bytes
  erHash : String
  deriving DecidableEq, Repr

def ResolveResult.erAmbiguous (r : ResolveResult) : Bool := !r.ambiguous.isEmpty

/-- `er_obj`. -/
def erObj (entities : List Entity) (bindings : List Binding) (ambiguous : List AmbiguousRole) : Json := .obj [
  ("ambiguous",.list (ambiguous.map fun row => .obj [("candidates",.list (row.candidates.map .str)),
    ("event_id",.str row.eventId),("role",.str row.role)])),
  ("bindings",.list (bindings.map fun row => .obj [("entity_id",.str row.entityId),
    ("event_id",.str row.eventId),("role",.str row.role)])),
  ("entities",.list (entities.map fun entity => .obj [("canonical_name",.str entity.canonicalName),
    ("entity_id",.str entity.entityId),("join_rule_id",.str entity.joinRuleId),("kind",.str entity.kind),
    ("resolved_from",.list (entity.resolvedFrom.map .str))])),
  ("schema",.str "spectra.vs.er/1")]

/-! ### The roles of one record -/

/-- A candidate: the rule that named it first, its kind and its name. -/
structure Named where
  joinRuleId : String
  kind : String
  name : String
  deriving DecidableEq, Repr

/-- A role of a record: the first attribute that is present for it and the candidates by their ids. -/
structure Joined where
  attrKey : String
  bucket : List (EntityId × Named)
  deriving DecidableEq, Repr

section

variable (lib : Library)

/-- `_entity_id`: the name in normal form, then the kind. -/
def entityId (kind canonicalName : String) : Fallible EntityId := do
  let payload ← Framing.concat [lib.utf8Text canonicalName,asciiText kind]
  ensure (kind ∈ entityKinds) (ErrorType.identifierError.mk ("EntityId.mint: unknown entity kind "++kind))
  pure ("en:"++kind++":"++lib.digestHex "en" payload 16)

/-- One name that a rule's table gives. -/
def addName (rule : JoinFields) (bucket : List (EntityId × Named)) (name : String) :
    Fallible (List (EntityId × Named)) := do
  let id ← entityId lib rule.kind name
  pure (Dict.setDefault bucket id ⟨rule.joinRuleId,rule.kind,name⟩)

/-- One rule against the attributes of a record: `present` and `candidates`, which have the same roles. -/
def joinRule (attrs : List (String × String)) (roles : List (String × Joined)) (rule : JoinRule lib) :
    Fallible (List (String × Joined)) :=
  match Dict.get? attrs rule.attrKey with
  | none => .ok roles
  | some value => do
    let joined := (Dict.get? roles rule.role).getD ⟨rule.attrKey,[]⟩
    let bucket ← (rule.lookup value).foldlM (addName lib rule.toJoinFields) joined.bucket
    pure (Dict.set roles rule.role ⟨joined.attrKey,bucket⟩)

def joinRoles (ordered : List (JoinRule lib)) (attrs : List (String × String)) :
    Fallible (List (String × Joined)) := ordered.foldlM (joinRule lib attrs) []

end

/-! ### The pass over the bundle -/

structure State where
  minted : List (EntityId × Entity)
  resolvedFrom : List (EntityId × List EventId)
  bindings : List Binding
  ambiguous : List AmbiguousRole
  unresolved : List UnresolvedRole
  eventsWithBindings : ℕ
  byRole : List (String × RoleCounts)
  byJoinRule : List (String × ℕ)
  boundHere : Bool
  deriving DecidableEq, Repr

/-- `_remember`: the least join rule of a candidate is kept. -/
def remember (minted : List (EntityId × Entity)) (candidate : EntityId × Named) : List (EntityId × Entity) :=
  match Dict.get? minted candidate.1 with
  | none => Dict.set minted candidate.1
      ⟨candidate.1,candidate.2.kind,candidate.2.name,candidate.2.joinRuleId,[]⟩
  | some existing =>
    if candidate.2.joinRuleId < existing.joinRuleId then
      Dict.set minted candidate.1 {existing with joinRuleId := candidate.2.joinRuleId}
    else minted

/-- An event joins the set of those an entity was resolved from. -/
def addSource (sources : List (EntityId × List EventId)) (id : EntityId) (eventId : EventId) :
    List (EntityId × List EventId) :=
  Dict.set sources id (((Dict.get? sources id).getD []).insert eventId)

def rememberAll (st : State) (candidates : List (EntityId × Named)) : State :=
  {st with
    minted := candidates.foldl remember st.minted
    resolvedFrom := candidates.foldl (fun sources c => Dict.setDefault sources c.1 []) st.resolvedFrom}

def countRole (st : State) (role : String) (count : RoleCounts → RoleCounts) : State :=
  {st with byRole := Dict.set st.byRole role (count ((Dict.get? st.byRole role).getD ⟨0,0,0⟩))}

section

variable {lib : Library}

/-- One role of a record: unresolved without a candidate, bound with one, ambiguous with more. -/
def resolveRole (event : BundleRecord lib) (st : State) (entry : String × Joined) : State :=
  match entry.2.bucket.insertionSort (·.1 ≤ ·.1) with
  | [] => countRole {st with unresolved := st.unresolved++[⟨event.eventId,entry.1,entry.2.attrKey,
      (Dict.get? event.attrs entry.2.attrKey).getD ""⟩]} entry.1
      fun c => {c with unresolved := c.unresolved+1}
  | [candidate] =>
    let st := rememberAll st [candidate]
    countRole {st with
      bindings := st.bindings++[⟨event.eventId,entry.1,candidate.1,candidate.2.joinRuleId⟩],
      resolvedFrom := addSource st.resolvedFrom candidate.1 event.eventId,
      byJoinRule := Dict.set st.byJoinRule candidate.2.joinRuleId
        ((Dict.get? st.byJoinRule candidate.2.joinRuleId).getD 0+1),
      boundHere := true} entry.1 fun c => {c with resolved := c.resolved+1}
  | candidates =>
    let st := rememberAll st candidates
    countRole {st with ambiguous := st.ambiguous++[⟨event.eventId,entry.1,candidates.map (·.1)⟩]} entry.1
      fun c => {c with ambiguous := c.ambiguous+1}

/-- The roles of a record, in order. -/
def resolveRoles (st : State) (event : BundleRecord lib) (roles : List (String × Joined)) : State :=
  let st := (roles.insertionSort (·.1 ≤ ·.1)).foldl (resolveRole event) {st with boundHere := false}
  if st.boundHere then {st with eventsWithBindings := st.eventsWithBindings+1} else st

def resolveEvent (ordered : List (JoinRule lib)) (st : State) (event : BundleRecord lib) : Fallible State := do
  pure (resolveRoles st event (← joinRoles lib ordered event.attrs))

end

/-- `_finalise_entities`. -/
def finaliseEntities (st : State) : Fallible (List Entity) := do
  let entities := (st.minted.insertionSort (·.1 ≤ ·.1)).map fun p =>
    {p.2 with resolvedFrom := ((Dict.get? st.resolvedFrom p.1).getD []).insertionSort (· ≤ ·)}
  checkStrictlyAscending "resolve: entities" (entities.map (·.entityId))
  pure entities

/-- What `resolve` returns of the pass: the entities, the rows in order, the counts and the artifact. -/
def State.finish (lib : Library) (eventsTotal : ℕ) (st : State) : Fallible ResolveResult := do
  let entities ← finaliseEntities st
  let bindings := st.bindings.insertionSort (·.sortKey ≤ ·.sortKey)
  let ambiguous := st.ambiguous.insertionSort (·.sortKey ≤ ·.sortKey)
  let unresolved := st.unresolved.insertionSort (·.sortKey ≤ ·.sortKey)
  let counts : ResolveCounts := ⟨eventsTotal,st.eventsWithBindings,bindings.length,ambiguous.length,
    unresolved.length,entities.length,st.byRole.insertionSort (·.1 ≤ ·.1),
    st.byJoinRule.insertionSort (·.1 ≤ ·.1),sortedCounts (entities.map (·.kind))⟩
  let erBytes ← (erObj entities bindings ambiguous).scfLine
  pure ⟨entities,bindings,ambiguous,unresolved,counts,erBytes,lib.hashRef "er" erBytes⟩

def State.start : State := ⟨[],[],[],[],[],0,[],[],false⟩

/-- `resolve`. -/
def resolve (lib : Library) (bundle : List (BundleRecord lib)) (rules : List (JoinRule lib)) :
    Fallible ResolveResult := do
  let ordered ← checkRules rules
  let st ← bundle.foldlM (resolveEvent ordered) .start
  st.finish lib bundle.length

end Resolve
end Spectra
