import Spectra.Resolve

/-! The rows of entity resolution: what the rules make of the roles of one record, what the pass over the bundle
gathers of them, and that each role with an attribute present has exactly one row. -/
namespace Spectra
namespace Resolve

open Checker (Library)

variable {lib : Library}

/-! ### The candidates of a role -/

/-- What a rule makes of the attributes under an id: the first name of its table with that id. -/
def naming (lib : Library) (attrs : List (String × String)) (id : EntityId) (rule : JoinRule lib) : Option Named :=
  (Dict.get? attrs rule.attrKey).bind fun value =>
    ((rule.lookup value).find? fun name => decide (entityId lib rule.kind name = .ok id)).map fun name =>
      ⟨rule.joinRuleId,rule.kind,name⟩

theorem addNames_ok {rule : JoinFields} {names : List String} {bucket bucket' : List (EntityId × Named)}
    (h : names.foldlM (addName lib rule) bucket = .ok bucket') (hn : (bucket.map (·.1)).Nodup) :
    (bucket'.map (·.1)).Nodup ∧ ∀ id, Dict.get? bucket' id = (Dict.get? bucket id).or
      ((names.find? fun name => decide (entityId lib rule.kind name = .ok id)).map fun name =>
        ⟨rule.joinRuleId,rule.kind,name⟩) := by
  induction names generalizing bucket with
  | nil =>
    obtain rfl := Runs.foldlM_nil_ok.mp h
    exact ⟨hn,fun id => by simp⟩
  | cons name names ih =>
    obtain ⟨next,hnext,h⟩ := Runs.foldlM_cons_ok.mp h
    obtain ⟨id',hid,hnext⟩ := Runs.bind_ok.mp hnext
    obtain rfl := Runs.pure_ok.mp hnext
    obtain ⟨hnodup,hget⟩ := ih h (Dict.nodup_keys_setDefault hn _ _)
    refine ⟨hnodup,fun id => ?_⟩
    rw [hget,Dict.get?_setDefault,List.find?_cons]
    by_cases he : id' = id
    · subst he
      rw [if_pos rfl,hid]
      cases Dict.get? bucket id' <;> simp
    · have hne : ¬entityId lib rule.kind name = .ok id := fun hok => he (Except.ok.inj (hid.symm.trans hok))
      rw [if_neg he,decide_eq_false hne]

/-- What some rules have made of the attributes of a record. -/
structure Tabled (attrs : List (String × String)) (done : List (JoinRule lib)) (roles : List (String × Joined)) :
    Prop where
  nodup : (roles.map (·.1)).Nodup
  present : ∀ role, (Dict.get? roles role).isSome ↔
    ∃ rule ∈ done, rule.role = role ∧ (Dict.get? attrs rule.attrKey).isSome
  buckets : ∀ role joined, Dict.get? roles role = some joined → (joined.bucket.map (·.1)).Nodup ∧
    ∀ id, Dict.get? joined.bucket id = (done.filter (·.role = role)).findSome? (naming lib attrs id)

theorem Tabled.step {attrs : List (String × String)} {done : List (JoinRule lib)} {rule : JoinRule lib}
    {roles roles' : List (String × Joined)} (ht : Tabled attrs done roles)
    (h : joinRule lib attrs roles rule = .ok roles') : Tabled attrs (done++[rule]) roles' := by
  unfold joinRule at h
  split at h
  · -- the attribute is absent
    rename_i habsent
    obtain rfl := Except.ok.inj h
    refine ⟨ht.nodup,fun role => ?_,fun role joined hj => ?_⟩
    · rw [ht.present]
      simp [habsent]
    · obtain ⟨hn,hget⟩ := ht.buckets role joined hj
      refine ⟨hn,fun id => ?_⟩
      rw [hget,List.filter_append,List.findSome?_append]
      by_cases hr : rule.role = role <;> simp [hr,naming,habsent]
  · rename_i value hvalue
    obtain ⟨bucket,hbucket,h⟩ := Runs.bind_ok.mp h
    obtain rfl := Runs.pure_ok.mp h
    refine ⟨Dict.nodup_keys_set ht.nodup _ _,fun role => ?_,fun role joined hj => ?_⟩
    · rw [Dict.get?_set]
      by_cases hr : rule.role = role
      · simp [hr,hvalue]
      · rw [if_neg hr,ht.present]
        simp [hr]
    · rw [Dict.get?_set] at hj
      by_cases hr : rule.role = role
      · rw [if_pos hr] at hj
        obtain rfl := Option.some.inj hj
        -- the bucket the rule finds is the one of the rules before it
        have hbefore : ((((Dict.get? roles rule.role).getD ⟨rule.attrKey,[]⟩).bucket).map (·.1)).Nodup ∧
            ∀ id, Dict.get? ((Dict.get? roles rule.role).getD ⟨rule.attrKey,[]⟩).bucket id =
              (done.filter (·.role = role)).findSome? (naming lib attrs id) := by
          cases hold : Dict.get? roles rule.role with
          | some joined => exact hr ▸ ht.buckets _ _ hold
          | none =>
            refine ⟨List.nodup_nil,fun id => (List.findSome?_eq_none_iff.mpr fun other ho => ?_).symm⟩
            obtain ⟨ho,hrole⟩ := List.mem_filter.mp ho
            have hnone := ht.present rule.role
            rw [hold] at hnone
            have habsent : Dict.get? attrs other.attrKey = none := by
              by_contra hsome
              exact Bool.noConfusion (hnone.mpr ⟨other,ho,by rw [hr]; simpa using hrole,
                Option.isSome_iff_ne_none.mpr hsome⟩)
            rw [naming,habsent]
            rfl
        obtain ⟨hn,hget⟩ := addNames_ok hbucket hbefore.1
        refine ⟨hn,fun id => ?_⟩
        rw [hget,hbefore.2,List.filter_append,List.findSome?_append]
        simp [hr,naming,hvalue]
      · rw [if_neg hr] at hj
        obtain ⟨hn,hget⟩ := ht.buckets role joined hj
        refine ⟨hn,fun id => ?_⟩
        rw [hget,List.filter_append]
        simp [hr]

theorem joinRoles_tabled {attrs : List (String × String)} {ordered : List (JoinRule lib)}
    {roles : List (String × Joined)} (h : joinRoles lib ordered attrs = .ok roles) : Tabled attrs ordered roles := by
  have hrun : ∀ (rules done : List (JoinRule lib)) (start : List (String × Joined)), Tabled attrs done start →
      rules.foldlM (joinRule lib attrs) start = .ok roles → Tabled attrs (done++rules) roles := by
    intro rules
    induction rules with
    | nil =>
      intro done start ht hr
      rw [List.append_nil]
      exact Runs.foldlM_nil_ok.mp hr ▸ ht
    | cons rule rules ih =>
      intro done start ht hr
      obtain ⟨next,hnext,hr⟩ := Runs.foldlM_cons_ok.mp hr
      have := ih (done++[rule]) next (ht.step hnext) hr
      rwa [List.append_assoc] at this
  exact hrun ordered [] [] ⟨List.nodup_nil,by simp,by simp⟩ h

/-! ### Rows -/

/-- A role of a record, with what the rules made of it. -/
structure Join (lib : Library) where
  event : BundleRecord lib
  role : String
  joined : Joined

/-- The one row of a role. -/
inductive Row where
  | bound (row : Binding)
  | ambiguous (row : AmbiguousRole)
  | unresolved (row : UnresolvedRole)

namespace Row

def binding? : Row → Option Binding
  | .bound row => some row
  | _ => none

def ambiguous? : Row → Option AmbiguousRole
  | .ambiguous row => some row
  | _ => none

def unresolved? : Row → Option UnresolvedRole
  | .unresolved row => some row
  | _ => none

def count : Row → RoleCounts → RoleCounts
  | .bound _, c => {c with resolved := c.resolved+1}
  | .ambiguous _, c => {c with ambiguous := c.ambiguous+1}
  | .unresolved _, c => {c with unresolved := c.unresolved+1}

end Row

namespace Join

/-- The candidates in the order of their ids. -/
def candidates (j : Join lib) : List (EntityId × Named) := j.joined.bucket.insertionSort (·.1 ≤ ·.1)

def row (j : Join lib) : Row := match j.candidates with
  | [] => .unresolved ⟨j.event.eventId,j.role,j.joined.attrKey,(Dict.get? j.event.attrs j.joined.attrKey).getD ""⟩
  | [candidate] => .bound ⟨j.event.eventId,j.role,candidate.1,candidate.2.joinRuleId⟩
  | candidates => .ambiguous ⟨j.event.eventId,j.role,candidates.map (·.1)⟩

end Join

/-- The row of a role goes by how many candidates the role has. -/
theorem Join.row_cases (j : Join lib) :
    (j.candidates = [] ∧ j.row = .unresolved ⟨j.event.eventId,j.role,j.joined.attrKey,
      (Dict.get? j.event.attrs j.joined.attrKey).getD ""⟩) ∨
    (∃ c, j.candidates = [c] ∧ j.row = .bound ⟨j.event.eventId,j.role,c.1,c.2.joinRuleId⟩) ∨
    ((j.candidates ≠ [] ∧ ∀ c, j.candidates ≠ [c]) ∧
      j.row = .ambiguous ⟨j.event.eventId,j.role,j.candidates.map (·.1)⟩) := by
  unfold row
  split
  · rename_i hc
    exact .inl ⟨hc,rfl⟩
  · rename_i c hc
    exact .inr (.inl ⟨c,hc,rfl⟩)
  · rename_i hnil hone
    exact .inr (.inr ⟨⟨hnil,hone⟩,rfl⟩)

def bindingsOf (js : List (Join lib)) : List Binding := js.filterMap (·.row.binding?)

/-- One more of a key. -/
def bump (counts : List (String × ℕ)) (key : String) : List (String × ℕ) :=
  Dict.set counts key ((Dict.get? counts key).getD 0+1)

def bumpRole (counts : List (String × RoleCounts)) (j : Join lib) : List (String × RoleCounts) :=
  Dict.set counts j.role (j.row.count ((Dict.get? counts j.role).getD ⟨0,0,0⟩))

/-- What the pass has gathered from some roles. -/
structure Gathers (js : List (Join lib)) (st : State) : Prop where
  bindings : st.bindings = bindingsOf js
  ambiguous : st.ambiguous = js.filterMap (·.row.ambiguous?)
  unresolved : st.unresolved = js.filterMap (·.row.unresolved?)
  minted : st.minted = (js.flatMap (·.candidates)).foldl remember []
  byRole : st.byRole = js.foldl bumpRole []
  byJoinRule : st.byJoinRule = (bindingsOf js).foldl (fun counts row => bump counts row.joinRuleId) []
  sources : ∀ id, ((Dict.get? st.resolvedFrom id).getD []).Nodup ∧ ∀ eventId,
    eventId ∈ (Dict.get? st.resolvedFrom id).getD [] ↔ ∃ row ∈ bindingsOf js, row.entityId = id ∧ row.eventId = eventId

theorem getD_setDefaults {candidates : List (EntityId × Named)} {sources : List (EntityId × List EventId)}
    {id : EntityId} : (Dict.get? (candidates.foldl (fun sources c => Dict.setDefault sources c.1 []) sources) id).getD [] =
      (Dict.get? sources id).getD [] := by
  induction candidates generalizing sources with
  | nil => rfl
  | cons c candidates ih =>
    rw [List.foldl_cons,ih,Dict.get?_setDefault]
    split
    · cases Dict.get? sources id <;> rfl
    · rfl

theorem mem_addSource {sources : List (EntityId × List EventId)} {id id' : EntityId} {eventId eventId' : EventId} :
    eventId' ∈ (Dict.get? (addSource sources id eventId) id').getD [] ↔
      eventId' ∈ (Dict.get? sources id').getD [] ∨ id = id' ∧ eventId = eventId' := by
  rw [addSource,Dict.get?_set]
  split
  · rename_i hid
    subst hid
    rw [Option.getD_some,List.mem_insert_iff]
    simp [or_comm,eq_comm]
  · rename_i hid
    simp [hid]

theorem nodup_addSource {sources : List (EntityId × List EventId)} {id id' : EntityId} {eventId : EventId}
    (h : ∀ id, ((Dict.get? sources id).getD []).Nodup) :
    ((Dict.get? (addSource sources id eventId) id').getD []).Nodup := by
  rw [addSource,Dict.get?_set]
  split
  · exact (h id).insert
  · exact h id'

theorem Gathers.step {js : List (Join lib)} {st : State} (h : Gathers js st) (j : Join lib) :
    Gathers (js++[j]) (resolveRole j.event st (j.role,j.joined)) := by
  unfold resolveRole
  split
  · rename_i hc
    have hc : j.candidates = [] := hc
    have hr : j.row = .unresolved ⟨j.event.eventId,j.role,j.joined.attrKey,
        (Dict.get? j.event.attrs j.joined.attrKey).getD ""⟩ := by rw [Join.row,hc]
    have hb : bindingsOf (js++[j]) = bindingsOf js := by simp [bindingsOf,hr,Row.binding?]
    refine ⟨hb ▸ h.bindings,?_,?_,?_,?_,hb ▸ h.byJoinRule,hb ▸ h.sources⟩
    · simp [countRole,hr,Row.ambiguous?,h.ambiguous]
    · simp [countRole,hr,Row.unresolved?,h.unresolved]
    · simp [countRole,hc,h.minted]
    · simp [countRole,bumpRole,hr,Row.count,h.byRole]
  · rename_i candidate hc
    have hc : j.candidates = [candidate] := hc
    have hr : j.row = .bound ⟨j.event.eventId,j.role,candidate.1,candidate.2.joinRuleId⟩ := by rw [Join.row,hc]
    have hb : bindingsOf (js++[j]) =
        bindingsOf js++[⟨j.event.eventId,j.role,candidate.1,candidate.2.joinRuleId⟩] := by
      simp [bindingsOf,hr,Row.binding?]
    have hsources : ∀ id, (Dict.get? (rememberAll st [candidate]).resolvedFrom id).getD [] =
        (Dict.get? st.resolvedFrom id).getD [] := fun id => getD_setDefaults
    refine ⟨?_,?_,?_,?_,?_,?_,fun id => ⟨?_,fun eventId => ?_⟩⟩
    · simp [countRole,rememberAll,hb,h.bindings]
    · simp [countRole,rememberAll,hr,Row.ambiguous?,h.ambiguous]
    · simp [countRole,rememberAll,hr,Row.unresolved?,h.unresolved]
    · simp [countRole,rememberAll,hc,h.minted]
    · simp [countRole,rememberAll,bumpRole,hr,Row.count,h.byRole]
    · simp [countRole,rememberAll,hb,bump,h.byJoinRule]
    · exact nodup_addSource fun id => hsources id ▸ (h.sources id).1
    · rw [show (countRole _ _ _).resolvedFrom = addSource (rememberAll st [candidate]).resolvedFrom candidate.1
        j.event.eventId from rfl,mem_addSource,hsources,(h.sources id).2,hb]
      simp [or_and_right,exists_or]
  · rename_i hnil hone
    have hc : j.joined.bucket.insertionSort (·.1 ≤ ·.1) = j.candidates := rfl
    have hr : j.row = .ambiguous ⟨j.event.eventId,j.role,j.candidates.map (·.1)⟩ := by
      rw [Join.row]
      split
      · rename_i he; exact absurd he hnil
      · rename_i c he; exact absurd he (hone c)
      · rfl
    have hb : bindingsOf (js++[j]) = bindingsOf js := by simp [bindingsOf,hr,Row.binding?]
    have hsources : ∀ id, (Dict.get? (rememberAll st j.candidates).resolvedFrom id).getD [] =
        (Dict.get? st.resolvedFrom id).getD [] := fun id => getD_setDefaults
    refine ⟨?_,?_,?_,?_,?_,?_,fun id => ⟨?_,fun eventId => ?_⟩⟩
    · simp [countRole,rememberAll,hb,h.bindings]
    · simp [countRole,rememberAll,hr,Row.ambiguous?,h.ambiguous,hc]
    · simp [countRole,rememberAll,hr,Row.unresolved?,h.unresolved]
    · simp [countRole,rememberAll,hc,h.minted]
    · simp [countRole,rememberAll,bumpRole,hr,Row.count,h.byRole]
    · simp [countRole,rememberAll,hb,h.byJoinRule]
    · exact hsources id ▸ (h.sources id).1
    · rw [show (countRole _ _ _).resolvedFrom = (rememberAll st j.candidates).resolvedFrom from rfl,hsources,
        (h.sources id).2,hb]

theorem Gathers.run {js : List (Join lib)} {st : State} (h : Gathers js st) (ks : List (Join lib)) :
    Gathers (js++ks) (ks.foldl (fun st j => resolveRole j.event st (j.role,j.joined)) st) := by
  induction ks generalizing js st with
  | nil => rwa [List.append_nil]
  | cons k ks ih =>
    have hrest := ih (h.step k)
    rwa [List.append_assoc] at hrest

/-! ### The run -/

/-- The roles of a record; none where a name has no id. -/
def tablesOf (ordered : List (JoinRule lib)) (event : BundleRecord lib) : List (String × Joined) :=
  match joinRoles lib ordered event.attrs with
  | .ok roles => roles
  | .error _ => []

def joinsOf (ordered : List (JoinRule lib)) (event : BundleRecord lib) : List (Join lib) :=
  ((tablesOf ordered event).insertionSort (·.1 ≤ ·.1)).map fun entry => ⟨event,entry.1,entry.2⟩

/-- All roles of a bundle, in the order they are resolved. -/
def joins (ordered : List (JoinRule lib)) (bundle : List (BundleRecord lib)) : List (Join lib) :=
  bundle.flatMap (joinsOf ordered)

/-- Whether some role of a record is bound. -/
def anyBound (ordered : List (JoinRule lib)) (event : BundleRecord lib) : Bool :=
  (joinsOf ordered event).any (·.row.binding?.isSome)

/-- Every name the rules give to a record of the bundle has an id. -/
def Nameable (ordered : List (JoinRule lib)) (bundle : List (BundleRecord lib)) : Prop :=
  ∀ event ∈ bundle, joinRoles lib ordered event.attrs = .ok (tablesOf ordered event)

theorem run_ok {ordered : List (JoinRule lib)} {bundle : List (BundleRecord lib)} {st st' : State} :
    bundle.foldlM (resolveEvent ordered) st = .ok st' ↔ Nameable ordered bundle ∧
      bundle.foldl (fun st event => resolveRoles st event (tablesOf ordered event)) st = st' := by
  have htable : ∀ {event roles}, joinRoles lib ordered event.attrs = .ok roles → tablesOf ordered event = roles :=
    fun h => by rw [tablesOf,h]
  induction bundle generalizing st with
  | nil => simp [Nameable]
  | cons event bundle ih =>
    rw [Runs.foldlM_cons_ok,Nameable,List.forall_mem_cons]
    constructor
    · rintro ⟨next,hnext,h⟩
      obtain ⟨roles,hroles,hnext⟩ := Runs.bind_ok.mp hnext
      obtain rfl := Runs.pure_ok.mp hnext
      obtain ⟨hall,h⟩ := ih.mp h
      obtain rfl := htable hroles
      exact ⟨⟨hroles,hall⟩,h⟩
    · rintro ⟨⟨hroles,hall⟩,h⟩
      exact ⟨_,Runs.bind_ok.mpr ⟨_,hroles,rfl⟩,ih.mpr ⟨hall,h⟩⟩

theorem resolveRole_flags (event : BundleRecord lib) (st : State) (entry : String × Joined) :
    (resolveRole event st entry).eventsWithBindings = st.eventsWithBindings ∧
      (resolveRole event st entry).boundHere =
        (st.boundHere || (Join.row ⟨event,entry.1,entry.2⟩).binding?.isSome) := by
  unfold resolveRole
  split
  · rename_i hc
    simp [countRole,Join.row,Join.candidates,hc,Row.binding?]
  · rename_i candidate hc
    simp [countRole,rememberAll,Join.row,Join.candidates,hc,Row.binding?]
  · rename_i hnil hone
    have hr : (Join.row ⟨event,entry.1,entry.2⟩).binding? = none := by
      rw [Join.row]
      split
      · rfl
      · rename_i c he; exact absurd he (hone c)
      · rfl
    rw [hr]
    simp [countRole,rememberAll]

theorem foldl_flags (event : BundleRecord lib) (st : State) (entries : List (String × Joined)) :
    (entries.foldl (resolveRole event) st).eventsWithBindings = st.eventsWithBindings ∧
      (entries.foldl (resolveRole event) st).boundHere =
        (st.boundHere || entries.any fun entry => (Join.row ⟨event,entry.1,entry.2⟩).binding?.isSome) := by
  induction entries generalizing st with
  | nil => simp
  | cons entry entries ih =>
    obtain ⟨hevents,hbound⟩ := resolveRole_flags event st entry
    rw [List.foldl_cons,(ih _).1,(ih _).2,hevents,hbound,List.any_cons,Bool.or_assoc]
    exact ⟨rfl,rfl⟩

/-- A record adds its roles, and one to the records with bindings if it has one. -/
theorem Gathers.event {js : List (Join lib)} {st : State} (h : Gathers js st) (ordered : List (JoinRule lib))
    (event : BundleRecord lib) : Gathers (js++joinsOf ordered event)
      (resolveRoles st event (tablesOf ordered event)) ∧
    (resolveRoles st event (tablesOf ordered event)).eventsWithBindings =
      st.eventsWithBindings+if anyBound ordered event then 1 else 0 := by
  have hcleared : Gathers js {st with boundHere := false} := ⟨h.bindings,h.ambiguous,h.unresolved,h.minted,h.byRole,
    h.byJoinRule,h.sources⟩
  have hrun := hcleared.run (joinsOf ordered event)
  rw [joinsOf,List.foldl_map] at hrun
  obtain ⟨hevents,hbound⟩ := foldl_flags event {st with boundHere := false}
    ((tablesOf ordered event).insertionSort (·.1 ≤ ·.1))
  have hany : anyBound ordered event = ((tablesOf ordered event).insertionSort (·.1 ≤ ·.1)).any fun entry =>
      (Join.row ⟨event,entry.1,entry.2⟩).binding?.isSome := by
    rw [anyBound,joinsOf,List.any_map]
    rfl
  rw [Bool.false_or,← hany] at hbound
  unfold resolveRoles
  dsimp only
  rw [hbound]
  cases anyBound ordered event with
  | true => exact ⟨⟨hrun.bindings,hrun.ambiguous,hrun.unresolved,hrun.minted,hrun.byRole,hrun.byJoinRule,hrun.sources⟩,
      congrArg (·+1) hevents⟩
  | false => exact ⟨hrun,hevents⟩

theorem Gathers.bundle {js : List (Join lib)} {st : State} (h : Gathers js st) (ordered : List (JoinRule lib))
    (bundle : List (BundleRecord lib)) : Gathers (js++joins ordered bundle)
      (bundle.foldl (fun st event => resolveRoles st event (tablesOf ordered event)) st) ∧
    (bundle.foldl (fun st event => resolveRoles st event (tablesOf ordered event)) st).eventsWithBindings =
      st.eventsWithBindings+bundle.countP (anyBound ordered) := by
  induction bundle generalizing js st with
  | nil => simpa [joins] using h
  | cons event bundle ih =>
    obtain ⟨hevent,hcount⟩ := h.event ordered event
    obtain ⟨hrest,hcounts⟩ := ih hevent
    rw [List.append_assoc] at hrest
    refine ⟨hrest,?_⟩
    rw [List.foldl_cons,hcounts,hcount,List.countP_cons]
    omega

theorem checkDistinct_ok {seen : List (String ×ₗ String ×ₗ String)} {rules : List (JoinRule lib)} :
    checkDistinct seen rules = .ok () ↔
      (∀ rule ∈ rules, rule.sortKey ∉ seen) ∧ (rules.map (·.sortKey)).Nodup := by
  induction rules generalizing seen with
  | nil => simp [checkDistinct]
  | cons rule rules ih =>
    rw [checkDistinct,Runs.bind_ok,List.forall_mem_cons,List.map_cons,List.nodup_cons]
    constructor
    · rintro ⟨_,hseen,hrest⟩
      obtain ⟨hall,hn⟩ := ih.mp hrest
      refine ⟨⟨ensure_ok.mp hseen,fun other ho hmem => hall other ho (List.mem_cons_of_mem _ hmem)⟩,fun hmem => ?_,hn⟩
      obtain ⟨other,ho,he⟩ := List.mem_map.mp hmem
      exact hall other ho (he ▸ List.mem_cons_self)
    · rintro ⟨⟨hseen,hrest⟩,hne,hn⟩
      refine ⟨(),ensure_ok.mpr hseen,ih.mpr ⟨fun other ho hmem => ?_,hn⟩⟩
      rcases List.mem_cons.mp hmem with he | hmem
      · exact hne (he ▸ List.mem_map_of_mem ho)
      · exact hrest other ho hmem

/-- The rules in the order they are applied. -/
def inOrder (rules : List (JoinRule lib)) : List (JoinRule lib) := rules.insertionSort (·.sortKey ≤ ·.sortKey)

theorem checkRules_ok {rules ordered : List (JoinRule lib)} :
    checkRules rules = .ok ordered ↔ (rules.map (·.sortKey)).Nodup ∧ inOrder rules = ordered := by
  have hperm : ((inOrder rules).map (·.sortKey)).Perm (rules.map (·.sortKey)) :=
    (List.perm_insertionSort _ _).map _
  rw [checkRules,Runs.bind_ok]
  constructor
  · rintro ⟨_,hd,h⟩
    exact ⟨hperm.nodup_iff.mp (checkDistinct_ok.mp hd).2,Runs.pure_ok.mp h⟩
  · rintro ⟨hn,rfl⟩
    exact ⟨(),checkDistinct_ok.mpr ⟨by simp,hperm.nodup_iff.mpr hn⟩,rfl⟩

/-- The state behind the pass. -/
def passed (ordered : List (JoinRule lib)) (bundle : List (BundleRecord lib)) : State :=
  bundle.foldl (fun st event => resolveRoles st event (tablesOf ordered event)) .start

theorem gathers_passed (ordered : List (JoinRule lib)) (bundle : List (BundleRecord lib)) :
    Gathers (joins ordered bundle) (passed ordered bundle) ∧
      (passed ordered bundle).eventsWithBindings = bundle.countP (anyBound ordered) := by
  have hstart : Gathers ([] : List (Join lib)) .start := by
    refine ⟨rfl,rfl,rfl,rfl,rfl,rfl,fun id => ⟨List.nodup_nil,fun eventId => ?_⟩⟩
    simp [bindingsOf,State.start]
  obtain ⟨hgathers,hcount⟩ := hstart.bundle ordered bundle
  exact ⟨hgathers,hcount.trans (Nat.zero_add _)⟩

theorem resolve_ok {bundle : List (BundleRecord lib)} {rules : List (JoinRule lib)} {result : ResolveResult} :
    resolve lib bundle rules = .ok result ↔ (rules.map (·.sortKey)).Nodup ∧ Nameable (inOrder rules) bundle ∧
      (passed (inOrder rules) bundle).finish lib bundle.length = .ok result := by
  rw [resolve,Runs.bind_ok]
  constructor
  · rintro ⟨ordered,ho,h⟩
    obtain ⟨hn,rfl⟩ := checkRules_ok.mp ho
    obtain ⟨st,hst,h⟩ := Runs.bind_ok.mp h
    obtain ⟨hnameable,rfl⟩ := run_ok.mp hst
    exact ⟨hn,hnameable,h⟩
  · rintro ⟨hn,hnameable,h⟩
    exact ⟨_,checkRules_ok.mpr ⟨hn,rfl⟩,Runs.bind_ok.mpr ⟨_,run_ok.mpr ⟨hnameable,rfl⟩,h⟩⟩

/-! ### One row for each role -/

section

variable {ordered : List (JoinRule lib)} {bundle : List (BundleRecord lib)}

/-- Some rule of a role has its attribute on a record. -/
def Present (rules : List (JoinRule lib)) (event : BundleRecord lib) (role : String) : Prop :=
  ∃ rule ∈ rules, rule.role = role ∧ (Dict.get? event.attrs rule.attrKey).isSome

/-- Some rule of a role names an entity for a record. -/
def Candidate (rules : List (JoinRule lib)) (event : BundleRecord lib) (role : String) (id : EntityId) : Prop :=
  ∃ rule ∈ rules, rule.role = role ∧ ∃ value, Dict.get? event.attrs rule.attrKey = some value ∧
    ∃ name ∈ rule.lookup value, entityId lib rule.kind name = .ok id

theorem tabled_of (h : Nameable ordered bundle) {event : BundleRecord lib} (he : event ∈ bundle) :
    Tabled event.attrs ordered (tablesOf ordered event) := joinRoles_tabled (h event he)

theorem naming_isSome {attrs : List (String × String)} {id : EntityId} {rule : JoinRule lib} :
    (naming lib attrs id rule).isSome ↔ ∃ value, Dict.get? attrs rule.attrKey = some value ∧
      ∃ name ∈ rule.lookup value, entityId lib rule.kind name = .ok id := by
  unfold naming
  cases Dict.get? attrs rule.attrKey with
  | none => simp
  | some value => simp

theorem mem_joinsOf {event : BundleRecord lib} {j : Join lib} : j ∈ joinsOf ordered event ↔
    j.event = event ∧ (j.role,j.joined) ∈ tablesOf ordered event := by
  unfold joinsOf
  rw [List.mem_map]
  constructor
  · rintro ⟨entry,he,rfl⟩
    exact ⟨rfl,(List.mem_insertionSort _).mp he⟩
  · rintro ⟨rfl,he⟩
    exact ⟨_,(List.mem_insertionSort _).mpr he,rfl⟩

theorem mem_joins {j : Join lib} : j ∈ joins ordered bundle ↔
    j.event ∈ bundle ∧ (j.role,j.joined) ∈ tablesOf ordered j.event := by
  simp only [joins,List.mem_flatMap,mem_joinsOf]
  constructor
  · rintro ⟨event,he,rfl,hj⟩
    exact ⟨he,hj⟩
  · rintro ⟨he,hj⟩
    exact ⟨_,he,rfl,hj⟩

/-- The id of a record and a role tell the roles of a bundle apart. -/
def Join.key (j : Join lib) : EventId × String := (j.event.eventId,j.role)

theorem joins_nodup (h : Nameable ordered bundle) (hd : (bundle.map (·.eventId)).Nodup) :
    ((joins ordered bundle).map (·.key)).Nodup := by
  have hone : ∀ event ∈ bundle, ((joinsOf ordered event).map (·.key)).Nodup := by
    intro event he
    have hn : (((tablesOf ordered event).insertionSort (·.1 ≤ ·.1)).map (·.1)).Nodup :=
      ((List.perm_insertionSort _ _).map _).nodup_iff.mpr (tabled_of h he).nodup
    have hkeys : (joinsOf ordered event).map (·.key) =
        (((tablesOf ordered event).insertionSort (·.1 ≤ ·.1)).map (·.1)).map fun role => (event.eventId,role) := by
      rw [joinsOf,List.map_map,List.map_map]
      rfl
    rw [hkeys]
    exact hn.map fun _ _ he => (Prod.mk.inj he).2
  clear h
  induction bundle with
  | nil => exact List.nodup_nil
  | cons event bundle ih =>
    obtain ⟨hfirst,hone⟩ := List.forall_mem_cons.mp hone
    rw [List.map_cons,List.nodup_cons] at hd
    rw [joins,List.flatMap_cons,List.map_append,← joins,List.nodup_append]
    refine ⟨hfirst,ih hd.2 hone,fun key hk key' hk' heq => hd.1 ?_⟩
    obtain ⟨j,hj,rfl⟩ := List.mem_map.mp hk
    obtain ⟨j',hj',rfl⟩ := List.mem_map.mp hk'
    have hid : j.event.eventId = j'.event.eventId := (Prod.mk.inj heq).1
    rw [← (mem_joinsOf.mp hj).1,hid]
    exact List.mem_map_of_mem (mem_joins.mp hj').1

/-- The role of a record has a row where one of its rules' attributes is present, and its candidates are those
the rules name. -/
theorem exists_join (h : Nameable ordered bundle) {event : BundleRecord lib} (he : event ∈ bundle) {role : String}
    (hp : Present ordered event role) : ∃ j ∈ joins ordered bundle, j.event = event ∧ j.role = role ∧
      (j.candidates.map (·.1)).Nodup ∧ ∀ id, id ∈ j.candidates.map (·.1) ↔ Candidate ordered event role id := by
  have ht := tabled_of h he
  obtain ⟨joined,hj⟩ := Option.isSome_iff_exists.mp ((ht.present role).mpr hp)
  obtain ⟨hn,hget⟩ := ht.buckets role joined hj
  have hperm : ((joined.bucket.insertionSort (·.1 ≤ ·.1)).map (·.1)).Perm (joined.bucket.map (·.1)) :=
    (List.perm_insertionSort _ _).map _
  refine ⟨⟨event,role,joined⟩,mem_joins.mpr ⟨he,Dict.get?_mem hj⟩,rfl,rfl,hperm.nodup_iff.mpr hn,fun id => ?_⟩
  rw [Join.candidates,hperm.mem_iff,← Dict.isSome_get?_iff,hget,List.findSome?_isSome_iff]
  constructor
  · rintro ⟨rule,hr,hsome⟩
    obtain ⟨hr,hrole⟩ := List.mem_filter.mp hr
    exact ⟨rule,hr,by simpa using hrole,naming_isSome.mp hsome⟩
  · rintro ⟨rule,hr,hrole,hsome⟩
    exact ⟨rule,List.mem_filter.mpr ⟨hr,by simpa using hrole⟩,naming_isSome.mpr hsome⟩

end

/-- The rows of all three kinds that name a record and a role. -/
def rowsAt (eventId : EventId) (role : String) (bindings : List Binding) (ambiguous : List AmbiguousRole)
    (unresolved : List UnresolvedRole) : ℕ :=
  bindings.countP (fun row => row.eventId = eventId ∧ row.role = role)+
    ambiguous.countP (fun row => row.eventId = eventId ∧ row.role = role)+
    unresolved.countP fun row => row.eventId = eventId ∧ row.role = role

theorem rowsAt_gathered (js : List (Join lib)) (eventId : EventId) (role : String) :
    rowsAt eventId role (bindingsOf js) (js.filterMap (·.row.ambiguous?)) (js.filterMap (·.row.unresolved?)) =
      (js.map (·.key)).count (eventId,role) := by
  induction js with
  | nil => rfl
  | cons j js ih =>
    have hkey : (j.key == (eventId,role)) = decide (j.event.eventId = eventId ∧ j.role = role) := by
      rw [Bool.eq_iff_iff,beq_iff_eq,decide_eq_true_eq,Join.key,Prod.mk.injEq]
    rw [List.map_cons,List.count_cons,hkey,← ih]
    unfold rowsAt bindingsOf
    rcases j.row_cases with ⟨-,hr⟩ | ⟨c,-,hr⟩ | ⟨-,hr⟩
    all_goals
      simp only [List.filterMap_cons,hr,Row.binding?,Row.ambiguous?,Row.unresolved?,List.countP_cons]
      omega

/-- The rows of a result are the gathered ones, in order. -/
theorem finish_ok {st : State} {eventsTotal : ℕ} {result : ResolveResult}
    (h : st.finish lib eventsTotal = .ok result) : finaliseEntities st = .ok result.entities ∧
      result.bindings.Perm st.bindings ∧ result.ambiguous.Perm st.ambiguous ∧
      result.unresolved.Perm st.unresolved := by
  obtain ⟨entities,he,h⟩ := Runs.bind_ok.mp h
  obtain ⟨bytes,-,h⟩ := Runs.bind_ok.mp h
  obtain rfl := Runs.pure_ok.mp h
  exact ⟨he,List.perm_insertionSort _ _,List.perm_insertionSort _ _,List.perm_insertionSort _ _⟩

section

variable {bundle : List (BundleRecord lib)} {rules : List (JoinRule lib)} {result : ResolveResult}

theorem present_inOrder {event : BundleRecord lib} {role : String} :
    Present (inOrder rules) event role ↔ Present rules event role := by
  simp only [Present,inOrder,List.mem_insertionSort]

theorem candidate_inOrder (rules : List (JoinRule lib)) {event : BundleRecord lib} {role : String} {id : EntityId} :
    Candidate (inOrder rules) event role id ↔ Candidate rules event role id := by
  simp only [Candidate,inOrder,List.mem_insertionSort]

/-- A role with an attribute present has exactly one row. -/
theorem rowsAt_one (h : resolve lib bundle rules = .ok result) (hd : (bundle.map (·.eventId)).Nodup)
    {event : BundleRecord lib} (he : event ∈ bundle) {role : String} (hp : Present rules event role) :
    rowsAt event.eventId role result.bindings result.ambiguous result.unresolved = 1 := by
  obtain ⟨-,hnameable,hfinish⟩ := resolve_ok.mp h
  obtain ⟨-,hbindings,hambiguous,hunresolved⟩ := finish_ok hfinish
  obtain ⟨hgathers,-⟩ := gathers_passed (inOrder rules) bundle
  obtain ⟨j,hj,hevent,hrole,-⟩ := exists_join hnameable he (present_inOrder.mpr hp)
  have hcount := rowsAt_gathered (joins (inOrder rules) bundle) event.eventId role
  rw [← hgathers.bindings,← hgathers.ambiguous,← hgathers.unresolved] at hcount
  unfold rowsAt at hcount ⊢
  rw [hbindings.countP_eq,hambiguous.countP_eq,hunresolved.countP_eq,hcount]
  refine List.count_eq_one_of_mem (joins_nodup hnameable hd) (List.mem_map.mpr ⟨j,hj,?_⟩)
  rw [Join.key,hevent,hrole]

/-- The row is a binding exactly where the rules of the role name one entity. -/
theorem bound_iff (h : resolve lib bundle rules = .ok result) (hd : (bundle.map (·.eventId)).Nodup)
    {event : BundleRecord lib} (he : event ∈ bundle) {role : String} (hp : Present rules event role) :
    (∃ row ∈ result.bindings, row.eventId = event.eventId ∧ row.role = role) ↔
      ∃! id, Candidate rules event role id := by
  obtain ⟨-,hnameable,hfinish⟩ := resolve_ok.mp h
  obtain ⟨-,hbindings,-⟩ := finish_ok hfinish
  obtain ⟨hgathers,-⟩ := gathers_passed (inOrder rules) bundle
  obtain ⟨j,hj,hevent,hrole,hn,hcandidates⟩ := exists_join hnameable he (present_inOrder.mpr hp)
  have hrow : (∃ row ∈ result.bindings, row.eventId = event.eventId ∧ row.role = role) ↔ j.row.binding?.isSome := by
    simp only [hbindings.mem_iff,hgathers.bindings,bindingsOf,List.mem_filterMap]
    constructor
    · rintro ⟨row,⟨k,hk,hrow⟩,hid,hr⟩
      have hkey : k.key = (row.eventId,row.role) := by
        rcases k.row_cases with ⟨-,hc⟩ | ⟨c,-,hc⟩ | ⟨-,hc⟩ <;> rw [hc] at hrow
        · cases hrow
        · obtain rfl := Option.some.inj hrow
          rfl
        · cases hrow
      have hsame : j.key = k.key := by rw [hkey,hid,hr,Join.key,hevent,hrole]
      rw [List.inj_on_of_nodup_map (joins_nodup hnameable hd) hj hk hsame,hrow]
      rfl
    · intro hsome
      rcases j.row_cases with ⟨-,hc⟩ | ⟨c,-,hc⟩ | ⟨-,hc⟩
      · rw [hc] at hsome; cases hsome
      · exact ⟨_,⟨j,hj,by rw [hc]; rfl⟩,by rw [hevent],hrole⟩
      · rw [hc] at hsome; cases hsome
  rw [hrow]
  simp only [← candidate_inOrder rules,← hcandidates]
  rcases j.row_cases with ⟨hc,hr⟩ | ⟨c,hc,hr⟩ | ⟨⟨hnil,hone⟩,hr⟩
  · simp [hc,hr,Row.binding?]
  · simp [hc,hr,Row.binding?]
  · rw [hr]
    refine ⟨fun hsome => Bool.noConfusion hsome,?_⟩
    rintro ⟨id,hid,hunique⟩
    -- a second candidate would be the first
    cases hcs : j.candidates with
    | nil => exact absurd hcs hnil
    | cons c rest =>
      cases rest with
      | nil => exact absurd hcs (hone c)
      | cons c' rest =>
        rw [hcs] at hn hunique
        have hfirst := hunique c.1 (by simp)
        have hsecond := hunique c'.1 (by simp)
        simp [hfirst,hsecond] at hn

end

end Resolve
end Spectra
