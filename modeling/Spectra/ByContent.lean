import Spectra.RoleRows

/-! Entity resolution as a function of content: where an entity takes its name from, and when the order of the
bundle reaches the artifact. -/
namespace Spectra
namespace Resolve

open Checker (Library)

variable {lib : Library}

/-! ### Entities -/

/-- The entity an id has after one more candidate. -/
def mint : Option Entity → EntityId × Named → Entity
  | none, c => ⟨c.1,c.2.kind,c.2.name,c.2.joinRuleId,[]⟩
  | some entity, c =>
    if c.2.joinRuleId < entity.joinRuleId then {entity with joinRuleId := c.2.joinRuleId} else entity

theorem remember_keeps : Tally.Keeps (·.1) mint remember where
  get minted c id := by
    unfold remember
    cases hold : Dict.get? minted c.1 with
    | none =>
      dsimp only
      rw [Dict.get?_set]
      split
      · rename_i hid
        rw [← hid,hold]
        rfl
      · rfl
    | some entity =>
      dsimp only
      by_cases hless : c.2.joinRuleId < entity.joinRuleId
      · rw [if_pos hless,Dict.get?_set]
        split
        · rename_i hid
          rw [← hid,hold,mint,if_pos hless]
        · rfl
      · rw [if_neg hless]
        split
        · rename_i hid
          rw [← hid,hold,mint,if_neg hless]
        · rfl
  nodup minted c h := by
    unfold remember
    split
    · exact Dict.nodup_keys_set h _ _
    · split
      · exact Dict.nodup_keys_set h _ _
      · exact h

/-- What an entity says but for its rule. -/
def Entity.face (entity : Entity) : EntityId × String × String × List EventId :=
  (entity.entityId,entity.kind,entity.canonicalName,entity.resolvedFrom)

/-- The first candidate gives an entity its name. -/
theorem foldl_mint_face (l : List (EntityId × Named)) (o : Option Entity) :
    (l.foldl (fun o c => some (mint o c)) o).map (·.face) =
      (o.map (·.face)).or (l.head?.map fun c => (c.1,c.2.kind,c.2.name,[])) := by
  induction l generalizing o with
  | nil => simp
  | cons c l ih =>
    rw [List.foldl_cons,ih]
    cases o with
    | none => rfl
    | some entity =>
      have hface : (mint (some entity) c).face = entity.face := by
        rw [mint]
        split <;> rfl
      rw [Option.map_some,hface,Option.some_or,Option.map_some,Option.some_or]

def leastRule (o : Option String) (rule : String) : Option String := some (o.elim rule (min · rule))

/-- The least rule of the candidates is the entity's. -/
theorem foldl_mint_rule (l : List (EntityId × Named)) (o : Option Entity) :
    (l.foldl (fun o c => some (mint o c)) o).map (·.joinRuleId) =
      (l.map (·.2.joinRuleId)).foldl leastRule (o.map (·.joinRuleId)) := by
  induction l generalizing o with
  | nil => rfl
  | cons c l ih =>
    rw [List.foldl_cons,ih,List.map_cons,List.foldl_cons]
    congr 1
    cases o with
    | none => rfl
    | some entity =>
      have hrule : (mint (some entity) c).joinRuleId = min entity.joinRuleId c.2.joinRuleId := by
        rw [mint]
        split
        · rename_i hless
          exact (min_eq_right hless.le).symm
        · rename_i hless
          exact (min_eq_left (not_lt.mp hless)).symm
      rw [Option.map_some,hrule]
      rfl

theorem leastRule_perm {l l' : List String} (h : l.Perm l') (o : Option String) :
    l.foldl leastRule o = l'.foldl leastRule o := by
  refine h.foldl_eq' (fun r _ r' _ o => ?_) o
  cases o with
  | none => exact congrArg some (min_comm r r')
  | some m => exact congrArg some (min_right_comm m r r')

theorem entity_ext {o o' : Option Entity} (hf : o.map (·.face) = o'.map (·.face))
    (hr : o.map (·.joinRuleId) = o'.map (·.joinRuleId)) : o = o' := by
  cases o with
  | none => cases o' with
    | none => rfl
    | some _ => cases hr
  | some entity => cases o' with
    | none => cases hr
    | some entity' =>
      obtain ⟨id,kind,name,rule,sources⟩ := entity
      obtain ⟨id',kind',name',rule',sources'⟩ := entity'
      simp only [Option.map_some,Option.some.injEq,Entity.face,Prod.mk.injEq] at hf hr
      obtain ⟨rfl,rfl,rfl,rfl⟩ := hf
      rw [hr]

/-! ### Ids -/

theorem kinds_apart : ∀ kind ∈ entityKinds, ∀ kind' ∈ entityKinds,
    (octets ("en:"++kind++":")).isPrefixOf (octets ("en:"++kind'++":")) = true → kind = kind' := by decide

/-- The kind can be read off an id. -/
theorem kind_of_id {kind kind' name name' : String} {id : EntityId} (h : entityId lib kind name = .ok id)
    (h' : entityId lib kind' name' = .ok id) : kind = kind' := by
  have hopen : ∀ {kind name}, entityId lib kind name = .ok id → kind ∈ entityKinds ∧
      octets ("en:"++kind++":") <+: octets id := by
    intro kind name h
    obtain ⟨payload,-,h⟩ := Runs.bind_ok.mp h
    obtain ⟨_,hk,h⟩ := Runs.bind_ok.mp h
    rw [← Runs.pure_ok.mp h,Checker.octets_append]
    exact ⟨ensure_ok.mp hk,List.prefix_append _ _⟩
  obtain ⟨hk,hp⟩ := hopen h
  obtain ⟨hk',hp'⟩ := hopen h'
  rcases List.prefix_or_prefix_of_prefix hp hp' with hpp | hpp
  · exact kinds_apart kind hk kind' hk' (List.isPrefixOf_iff_prefix.mpr hpp)
  · exact (kinds_apart kind' hk' kind hk (List.isPrefixOf_iff_prefix.mpr hpp)).symm

theorem naming_id {attrs : List (String × String)} {id : EntityId} {rule : JoinRule lib} {named : Named}
    (h : naming lib attrs id rule = some named) : entityId lib named.kind named.name = .ok id := by
  obtain ⟨value,-,h⟩ := Option.bind_eq_some_iff.mp h
  obtain ⟨name,hname,rfl⟩ := Option.map_eq_some_iff.mp h
  have hid := List.find?_some hname
  exact of_decide_eq_true hid

/-! ### The name a record gives first -/

theorem findSome?_congr {α β : Type} {l : List α} {f g : α → Option β} (h : ∀ a ∈ l, f a = g a) :
    l.findSome? f = l.findSome? g := by
  induction l with
  | nil => rfl
  | cons a l ih =>
    obtain ⟨ha,hl⟩ := List.forall_mem_cons.mp h
    rw [List.findSome?_cons,List.findSome?_cons,ha,ih hl]

/-- What is found first looks the same in any order if all that can be found does. -/
theorem findSome?_perm {α β γ : Type} {l l' : List α} {f : α → Option β} {g : β → γ} (hp : l.Perm l')
    (h : ∀ a ∈ l, ∀ b ∈ l, ∀ x y, f a = some x → f b = some y → g x = g y) :
    (l.findSome? f).map g = (l'.findSome? f).map g := by
  cases hx : l.findSome? f with
  | none =>
    have hnone : l'.findSome? f = none :=
      List.findSome?_eq_none_iff.mpr fun a ha => List.findSome?_eq_none_iff.mp hx a (hp.mem_iff.mpr ha)
    rw [hnone]
  | some x =>
    obtain ⟨a,ha,hfa⟩ := List.exists_of_findSome?_eq_some hx
    cases hy : l'.findSome? f with
    | none => rw [List.findSome?_eq_none_iff.mp hy a (hp.mem_iff.mp ha)] at hfa; cases hfa
    | some y =>
      obtain ⟨b,hb,hfb⟩ := List.exists_of_findSome?_eq_some hy
      rw [Option.map_some,Option.map_some,h a ha b (hp.mem_iff.mpr hb) x y hfa hfb]

/-- The roles of which some rule has its attribute on a record, in order. -/
def presentRoles (rules : List (JoinRule lib)) (attrs : List (String × String)) : List String :=
  ((rules.filter fun rule => (Dict.get? attrs rule.attrKey).isSome).map (·.role)).dedup.insertionSort (· ≤ ·)

/-- The first name the rules give to an id for a record: roles in order, and the rules of a role in order. -/
def spelled (rules : List (JoinRule lib)) (attrs : List (String × String)) (id : EntityId) : Option String :=
  (presentRoles rules attrs).findSome? fun role =>
    (((inOrder rules).filter (·.role = role)).findSome? (naming lib attrs id)).map (·.name)

/-- No two records of the bundle give one entity id different first names. -/
def Agreed (bundle : List (BundleRecord lib)) (rules : List (JoinRule lib)) : Prop :=
  ∀ event ∈ bundle, ∀ event' ∈ bundle, ∀ id name name', spelled rules event.attrs id = some name →
    spelled rules event'.attrs id = some name' → name = name'

/-- The candidates of a record, role by role. -/
def mentions (ordered : List (JoinRule lib)) (event : BundleRecord lib) : List (EntityId × Named) :=
  (joinsOf ordered event).flatMap (·.candidates)

theorem head?_filter_key {α : Type} (l : List (EntityId × α)) (id : EntityId) :
    (l.filter (·.1 = id)).head? = (Dict.get? l id).map fun a => (id,a) := by
  induction l with
  | nil => rfl
  | cons p l ih =>
    by_cases hp : p.1 = id
    · rw [List.filter_cons_of_pos (by simpa using hp),Dict.get?,if_pos hp,← hp]
      rfl
    · rw [List.filter_cons_of_neg (by simpa using hp),Dict.get?,if_neg hp,ih]

section

variable {rules : List (JoinRule lib)} {bundle : List (BundleRecord lib)}

theorem presentRoles_eq (h : Nameable (inOrder rules) bundle) {event : BundleRecord lib} (he : event ∈ bundle) :
    ((tablesOf (inOrder rules) event).insertionSort (·.1 ≤ ·.1)).map (·.1) = presentRoles rules event.attrs := by
  have ht := tabled_of h he
  have hleft := Tally.listed_ascending ht.nodup
  have hright : (presentRoles rules event.attrs).Pairwise (· < ·) := by
    have hle : (presentRoles rules event.attrs).Pairwise (· ≤ ·) := List.pairwise_insertionSort _ _
    have hn : (presentRoles rules event.attrs).Nodup :=
      (List.perm_insertionSort _ _).nodup_iff.mpr (List.nodup_dedup _)
    exact hle.imp₂ (fun _ _ h hne => lt_of_le_of_ne h hne) hn
  have hmem : ∀ role, role ∈ (Tally.listed (tablesOf (inOrder rules) event)).map (·.1) ↔
      role ∈ presentRoles rules event.attrs := by
    intro role
    have hperm : ((Tally.listed (tablesOf (inOrder rules) event)).map (·.1)).Perm
        ((tablesOf (inOrder rules) event).map (·.1)) := (List.perm_insertionSort _ _).map _
    rw [hperm.mem_iff,← Dict.isSome_get?_iff,ht.present]
    simp only [presentRoles,inOrder,List.mem_insertionSort,List.mem_dedup,List.mem_map,List.mem_filter]
    constructor
    · rintro ⟨rule,hr,hrole,hsome⟩
      exact ⟨rule,⟨hr,hsome⟩,hrole⟩
    · rintro ⟨rule,⟨hr,hsome⟩,hrole⟩
      exact ⟨rule,hr,hrole,hsome⟩
  exact ((List.perm_ext_iff_of_nodup (hleft.imp ne_of_lt) (hright.imp ne_of_lt)).mpr hmem).eq_of_pairwise
    (fun _ _ _ _ hab hba => absurd hba hab.asymm) hleft hright

theorem spelled_eq (h : Nameable (inOrder rules) bundle) {event : BundleRecord lib} (he : event ∈ bundle)
    (id : EntityId) : spelled rules event.attrs id =
      ((mentions (inOrder rules) event).filter (·.1 = id)).head?.map (·.2.name) := by
  have ht := tabled_of h he
  have hfind : ∀ entry ∈ (tablesOf (inOrder rules) event).insertionSort (·.1 ≤ ·.1),
      (((Join.candidates ⟨event,entry.1,entry.2⟩).filter (·.1 = id)).head?).map (·.2.name) =
        (((inOrder rules).filter (·.role = entry.1)).findSome? (naming lib event.attrs id)).map (·.name) := by
    intro entry hentry
    have hget := Dict.get?_of_mem ht.nodup ((List.mem_insertionSort _).mp hentry)
    obtain ⟨hn,hbucket⟩ := ht.buckets _ _ hget
    rw [head?_filter_key,Join.candidates,Json.get?_sortKeys hn,hbucket,Option.map_map]
    rfl
  rw [spelled,← presentRoles_eq h he,List.findSome?_map,mentions,List.filter_flatMap,List.head?_flatMap,joinsOf,
    List.findSome?_map,List.map_findSome?]
  exact findSome?_congr fun entry hentry => (hfind entry hentry).symm

/-- A candidate's id is the id of its kind and name. -/
theorem mention_id (h : Nameable (inOrder rules) bundle) {event : BundleRecord lib} (he : event ∈ bundle)
    {c : EntityId × Named} (hc : c ∈ mentions (inOrder rules) event) :
    entityId lib c.2.kind c.2.name = .ok c.1 := by
  obtain ⟨j,hj,hmem⟩ := List.mem_flatMap.mp hc
  obtain ⟨rfl,hj⟩ := mem_joinsOf.mp hj
  have ht := tabled_of h he
  obtain ⟨hn,hbucket⟩ := ht.buckets _ _ (Dict.get?_of_mem ht.nodup hj)
  have hget := Dict.get?_of_mem hn ((List.mem_insertionSort _).mp hmem)
  rw [hbucket] at hget
  obtain ⟨rule,-,hnaming⟩ := List.exists_of_findSome?_eq_some hget
  exact naming_id hnaming

theorem minted_get (ordered : List (JoinRule lib)) (bundle : List (BundleRecord lib)) (id : EntityId) :
    Dict.get? (passed ordered bundle).minted id = ((bundle.flatMap (mentions ordered)).filter (·.1 = id)).foldl
      (fun o c => some (mint o c)) none := by
  have hflat : (joins ordered bundle).flatMap (·.candidates) = bundle.flatMap (mentions ordered) := by
    rw [joins,List.flatMap_assoc]
    rfl
  rw [(gathers_passed ordered bundle).1.minted,hflat,remember_keeps.get_foldl]
  rfl

theorem minted_nodup (ordered : List (JoinRule lib)) (bundle : List (BundleRecord lib)) :
    ((passed ordered bundle).minted.map (·.1)).Nodup := by
  rw [(gathers_passed ordered bundle).1.minted]
  exact remember_keeps.nodup_foldl List.nodup_nil

/-- The face of an entity is the one of the first candidate of the first record that names it. -/
theorem minted_face (ordered : List (JoinRule lib)) (bundle : List (BundleRecord lib)) (id : EntityId) :
    (Dict.get? (passed ordered bundle).minted id).map (·.face) =
      (bundle.findSome? fun event => ((mentions ordered event).filter (·.1 = id)).head?).map fun c =>
        (c.1,c.2.kind,c.2.name,[]) := by
  rw [minted_get,foldl_mint_face,List.filter_flatMap,List.head?_flatMap]
  rfl

/-- Where the records agree, an entity is the same whatever the order of the bundle. -/
theorem minted_perm (h : Nameable (inOrder rules) bundle) (hagreed : Agreed bundle rules)
    {bundle' : List (BundleRecord lib)} (hp : bundle.Perm bundle') (id : EntityId) :
    Dict.get? (passed (inOrder rules) bundle).minted id = Dict.get? (passed (inOrder rules) bundle').minted id := by
  refine entity_ext ?_ ?_
  · rw [minted_face,minted_face]
    refine findSome?_perm hp fun event he event' he' c c' hc hc' => ?_
    have hmem : ∀ {event c}, ((mentions (inOrder rules) event).filter (·.1 = id)).head? = some c →
        c ∈ mentions (inOrder rules) event ∧ c.1 = id := by
      intro event c hc
      simpa using List.mem_filter.mp (List.mem_of_head? hc)
    obtain ⟨hcm,hid⟩ := hmem hc
    obtain ⟨hcm',hid'⟩ := hmem hc'
    have hname := hagreed event he event' he' id c.2.name c'.2.name (by rw [spelled_eq h he,hc]; rfl)
      (by rw [spelled_eq h he',hc']; rfl)
    have hkind := kind_of_id (hid ▸ mention_id h he hcm) (hid' ▸ mention_id h he' hcm')
    rw [hid,hid',hname,hkind]
  · rw [minted_get,minted_get,foldl_mint_rule,foldl_mint_rule]
    exact leastRule_perm (((hp.flatMap_right _).filter _).map _) _

end

/-! ### The order of the bundle -/

/-- The entities as they are published. -/
def published (st : State) : List Entity := (Tally.listed st.minted).map fun p =>
  {p.2 with resolvedFrom := ((Dict.get? st.resolvedFrom p.1).getD []).insertionSort (· ≤ ·)}

theorem finaliseEntities_ok {st : State} {entities : List Entity} : finaliseEntities st = .ok entities ↔
    ((published st).map (·.entityId)).Pairwise (· < ·) ∧ published st = entities := by
  rw [finaliseEntities,Runs.bind_ok]
  constructor
  · rintro ⟨_,hchecked,h⟩
    exact ⟨checkStrictlyAscending_ok.mp hchecked,Runs.pure_ok.mp h⟩
  · rintro ⟨hascending,rfl⟩
    exact ⟨(),checkStrictlyAscending_ok.mpr hascending,rfl⟩

/-- States that are told apart only by the order the records came in. -/
structure Alike (st st' : State) : Prop where
  minted : ∀ id, Dict.get? st.minted id = Dict.get? st'.minted id
  sources : ∀ id, ((Dict.get? st.resolvedFrom id).getD []).Perm ((Dict.get? st'.resolvedFrom id).getD [])
  bindings : st.bindings.insertionSort (·.sortKey ≤ ·.sortKey) = st'.bindings.insertionSort (·.sortKey ≤ ·.sortKey)
  ambiguous : st.ambiguous.insertionSort (·.sortKey ≤ ·.sortKey) = st'.ambiguous.insertionSort (·.sortKey ≤ ·.sortKey)
  unresolved : st.unresolved.insertionSort (·.sortKey ≤ ·.sortKey) =
    st'.unresolved.insertionSort (·.sortKey ≤ ·.sortKey)
  eventsWithBindings : st.eventsWithBindings = st'.eventsWithBindings
  byRole : Tally.listed st.byRole = Tally.listed st'.byRole
  byJoinRule : Tally.listed st.byJoinRule = Tally.listed st'.byJoinRule

theorem Alike.finish {st st' : State} (h : Alike st st') (hn : (st.minted.map (·.1)).Nodup)
    (hn' : (st'.minted.map (·.1)).Nodup) (eventsTotal : ℕ) :
    st.finish lib eventsTotal = st'.finish lib eventsTotal := by
  have hpublished : published st = published st' := by
    unfold published
    rw [Tally.listed_congr hn hn' h.minted]
    refine List.map_congr_left fun p _ => ?_
    rw [Tally.insertionSort_perm (fun _ _ _ _ hab => hab) (h.sources p.1)]
  have hentities : finaliseEntities st = finaliseEntities st' := by
    unfold finaliseEntities
    exact congrArg (fun entities : List Entity => (do
      checkStrictlyAscending "resolve: entities" (entities.map (·.entityId))
      pure entities : Fallible (List Entity))) hpublished
  have hrole : st.byRole.insertionSort (·.1 ≤ ·.1) = st'.byRole.insertionSort (·.1 ≤ ·.1) := h.byRole
  have hrule : st.byJoinRule.insertionSort (·.1 ≤ ·.1) = st'.byJoinRule.insertionSort (·.1 ≤ ·.1) := h.byJoinRule
  unfold State.finish
  rw [hentities,h.bindings,h.ambiguous,h.unresolved,h.eventsWithBindings,hrole,hrule]

/-- The counts of the roles are a table. -/
theorem bumpRole_keeps : Tally.Keeps (fun j : Join lib => j.role)
    (fun o j => j.row.count (o.getD ⟨0,0,0⟩)) bumpRole := Tally.keeps_set

theorem bump_keeps : Tally.Keeps (fun row : Binding => row.joinRuleId) (fun o _ => o.getD 0+1)
    (fun counts row => bump counts row.joinRuleId) := Tally.keeps_set

theorem Row.count_comm (r r' : Row) (c : RoleCounts) : r.count (r'.count c) = r'.count (r.count c) := by
  cases r <;> cases r' <;> rfl

/-- The record and the role a row is about. -/
def Row.key : Row → EventId × String
  | .bound row => (row.eventId,row.role)
  | .ambiguous row => (row.eventId,row.role)
  | .unresolved row => (row.eventId,row.role)

theorem Join.row_key (j : Join lib) : j.row.key = j.key := by
  rcases j.row_cases with ⟨-,hr⟩ | ⟨c,-,hr⟩ | ⟨-,hr⟩ <;> rw [hr] <;> rfl

section

variable {rules : List (JoinRule lib)} {bundle bundle' : List (BundleRecord lib)}

theorem Nameable.perm {ordered : List (JoinRule lib)} (h : Nameable ordered bundle) (hp : bundle.Perm bundle') :
    Nameable ordered bundle' := fun event he => h event (hp.mem_iff.mpr he)

/-- Rows of one kind, sorted, do not show the order of the roles. -/
theorem sorted_rows {ρ κ : Type} [LinearOrder κ] (pick : Row → Option ρ) {sortKey : ρ → κ}
    {js js' : List (Join lib)} (hp : js.Perm js') (hn : (js.map (·.key)).Nodup)
    (hkey : ∀ row row' r r', pick row = some r → pick row' = some r' → sortKey r = sortKey r' →
      row.key = row'.key) :
    (js.filterMap (pick ·.row)).insertionSort (sortKey · ≤ sortKey ·) =
      (js'.filterMap (pick ·.row)).insertionSort (sortKey · ≤ sortKey ·) := by
  refine Tally.insertionSort_perm (fun r hr r' hr' heq => ?_) (hp.filterMap _)
  obtain ⟨j,hj,hrow⟩ := List.mem_filterMap.mp hr
  obtain ⟨j',hj',hrow'⟩ := List.mem_filterMap.mp hr'
  have hsame := hkey _ _ r r' hrow hrow' heq
  rw [j.row_key,j'.row_key] at hsame
  obtain rfl := List.inj_on_of_nodup_map hn hj hj' hsame
  exact Option.some.inj (hrow.symm.trans hrow')

/-- The pass over a rearranged bundle leaves the same behind, where the records agree. -/
theorem passed_alike (h : Nameable (inOrder rules) bundle) (hd : (bundle.map (·.eventId)).Nodup)
    (hagreed : Agreed bundle rules) (hp : bundle.Perm bundle') :
    Alike (passed (inOrder rules) bundle) (passed (inOrder rules) bundle') := by
  obtain ⟨hg,hcount⟩ := gathers_passed (inOrder rules) bundle
  obtain ⟨hg',hcount'⟩ := gathers_passed (inOrder rules) bundle'
  have hjoins : (joins (inOrder rules) bundle).Perm (joins (inOrder rules) bundle') := hp.flatMap_right _
  have hrows : (bindingsOf (joins (inOrder rules) bundle)).Perm (bindingsOf (joins (inOrder rules) bundle')) :=
    hjoins.filterMap _
  have hn := joins_nodup h hd
  refine ⟨minted_perm h hagreed hp,fun id => ?_,?_,?_,?_,?_,?_,?_⟩
  · refine (List.perm_ext_iff_of_nodup (hg.sources id).1 (hg'.sources id).1).mpr fun eventId => ?_
    rw [(hg.sources id).2,(hg'.sources id).2]
    simp only [hrows.mem_iff]
  · rw [hg.bindings,hg'.bindings]
    refine sorted_rows Row.binding? hjoins hn fun row row' r r' hr hr' heq => ?_
    cases row <;> cases hr
    cases row' <;> cases hr'
    exact congrArg ofLex heq
  · rw [hg.ambiguous,hg'.ambiguous]
    refine sorted_rows Row.ambiguous? hjoins hn fun row row' r r' hr hr' heq => ?_
    cases row <;> cases hr
    cases row' <;> cases hr'
    exact congrArg ofLex heq
  · rw [hg.unresolved,hg'.unresolved]
    refine sorted_rows Row.unresolved? hjoins hn fun row row' r r' hr hr' heq => ?_
    cases row <;> cases hr
    cases row' <;> cases hr'
    exact congrArg (fun key => ((ofLex key).1,(ofLex (ofLex key).2).1)) heq
  · rw [hcount,hcount']
    exact hp.countP_eq _
  · rw [hg.byRole,hg'.byRole]
    refine bumpRole_keeps.listed_perm hjoins fun j _ j' _ _ o => ?_
    exact Row.count_comm _ _ _
  · rw [hg.byJoinRule,hg'.byJoinRule]
    exact bump_keeps.listed_perm hrows fun _ _ _ _ _ o => rfl

theorem inOrder_perm {rules rules' : List (JoinRule lib)} (hn : (rules.map (·.sortKey)).Nodup)
    (hp : rules.Perm rules') : inOrder rules = inOrder rules' :=
  Tally.insertionSort_perm (fun _ hr _ hr' heq => List.inj_on_of_nodup_map hn hr hr' heq) hp

end

/-- Entity resolution is a function of content: each role of a record with an attribute present has exactly one
row, the row is a binding exactly where the role's rules name one entity, and neither the order of the bundle nor
that of the rules reaches the result. -/
structure ByContent (lib : Library) (bundle : List (BundleRecord lib)) (rules : List (JoinRule lib))
    (result : ResolveResult) : Prop where
  one : ∀ event ∈ bundle, ∀ role, Present rules event role →
    rowsAt event.eventId role result.bindings result.ambiguous result.unresolved = 1
  bound : ∀ event ∈ bundle, ∀ role, Present rules event role →
    ((∃ row ∈ result.bindings, row.eventId = event.eventId ∧ row.role = role) ↔
      ∃! id, Candidate rules event role id)
  unordered : ∀ bundle' rules', bundle.Perm bundle' → rules.Perm rules' →
    resolve lib bundle' rules' = .ok result

section

variable {rules : List (JoinRule lib)} {bundle : List (BundleRecord lib)} {result : ResolveResult}

/-- The entity the first record names is published under the name the record gives it. -/
theorem entity_named {event : BundleRecord lib} (h : resolve lib (event::bundle) rules = .ok result)
    {id : EntityId} {name : String} (hs : spelled rules event.attrs id = some name) :
    ∃ entity ∈ result.entities, entity.entityId = id ∧ entity.canonicalName = name := by
  obtain ⟨-,hnameable,hfinish⟩ := resolve_ok.mp h
  obtain ⟨-,hpublished⟩ := finaliseEntities_ok.mp (finish_ok hfinish).1
  have hface := minted_face (inOrder rules) (event::bundle) id
  rw [spelled_eq hnameable (by simp)] at hs
  obtain ⟨c,hc,rfl⟩ := Option.map_eq_some_iff.mp hs
  have hid : c.1 = id := by simpa using (List.mem_filter.mp (List.mem_of_head? hc)).2
  rw [List.findSome?_cons,hc] at hface
  obtain ⟨entity,hget,hentity⟩ := Option.map_eq_some_iff.mp hface
  simp only [Entity.face,Prod.mk.injEq] at hentity
  rw [← hpublished]
  refine ⟨_,List.mem_map.mpr ⟨(id,entity),Tally.mem_listed.mpr (Dict.get?_mem hget),rfl⟩,?_,hentity.2.2.1⟩
  exact hentity.1.trans hid

/-- Resolution is a function of content exactly where no two records give one entity different first names. -/
theorem by_content_iff (lib : Library) (bundle : List (BundleRecord lib)) (rules : List (JoinRule lib))
    (result : ResolveResult) (h : resolve lib bundle rules = .ok result) (hd : (bundle.map (·.eventId)).Nodup) :
    ByContent lib bundle rules result ↔ Agreed bundle rules := by
  constructor
  · intro hcontent event he event' he' id name name' hs hs'
    have hfirst : ∀ {event name}, event ∈ bundle → spelled rules event.attrs id = some name →
        ∃ entity ∈ result.entities, entity.entityId = id ∧ entity.canonicalName = name := by
      intro event name he hs
      obtain ⟨l,l',rfl⟩ := List.append_of_mem he
      exact entity_named (hcontent.unordered _ _ List.perm_middle (List.Perm.refl _)) hs
    obtain ⟨-,-,hfinish⟩ := resolve_ok.mp h
    obtain ⟨hascending,hpublished⟩ := finaliseEntities_ok.mp (finish_ok hfinish).1
    rw [hpublished] at hascending
    obtain ⟨entity,hentity,hid,rfl⟩ := hfirst he hs
    obtain ⟨entity',hentity',hid',rfl⟩ := hfirst he' hs'
    rw [List.inj_on_of_nodup_map (hascending.imp ne_of_lt) hentity hentity' (hid.trans hid'.symm)]
  · intro hagreed
    refine ⟨fun event he role hp => rowsAt_one h hd he hp,fun event he role hp => bound_iff h hd he hp,?_⟩
    intro bundle' rules' hbundle hrules
    obtain ⟨hn,hnameable,hfinish⟩ := resolve_ok.mp h
    have horder := inOrder_perm hn hrules
    have halike := passed_alike hnameable hd hagreed hbundle
    rw [resolve_ok,← horder]
    refine ⟨(hrules.map _).nodup_iff.mp hn,hnameable.perm hbundle,?_⟩
    rw [← hfinish,← hbundle.length_eq]
    exact (halike.finish (minted_nodup _ _) (minted_nodup _ _) _).symm

end

/-! ### One name in two forms -/

/-- The library that composes an e and the acute accent behind it. -/
def composing : Library := {Checker.readerOf [] with normalize := fun s => if s = "e\u0301" then "\u00e9" else s}

def composedRule : JoinRule composing where
  joinRuleId := "r_exact_principal"
  role := "principal"
  attrKey := "principal"
  kind := "account"
  table := [("ana",["\u00e9"])]
  valid := by decide

/-- The same role from another attribute, the name in another form. -/
def decomposedRule : JoinRule composing where
  joinRuleId := "r_exact_principal"
  role := "principal"
  attrKey := "user"
  kind := "account"
  table := [("ana",["e\u0301"])]
  valid := by decide

/-- A login with one attribute. -/
def login (eventId : EventId) (seq : ℤ) (attrs : List (String × String)) : BundleFields where
  eventId := eventId
  recordId := "rc:1"
  source := "iam"
  seq := seq
  eventType := "login"
  tEvtNs := seq
  tIngNs := seq
  attrs := attrs
  chainHash := none
  chainPrev := none

def composedLogin : BundleRecord composing :=
  ⟨login "ev:00000000000000000000000000000001" 0 [("principal","ana")],by decide⟩

def decomposedLogin : BundleRecord composing :=
  ⟨login "ev:00000000000000000000000000000002" 1 [("user","ana")],by decide⟩

/-- The composed login comes first. -/
def composedFirst := returned (resolve composing [composedLogin,decomposedLogin] [composedRule,decomposedRule])
  (fun result => decide (result.entities.map (·.canonicalName) = ["\u00e9"])) (by decide +kernel)

/-- It comes second. -/
def decomposedFirst := returned (resolve composing [decomposedLogin,composedLogin] [composedRule,decomposedRule])
  (fun result => decide (result.entities.map (·.canonicalName) = ["e\u0301"])) (by decide +kernel)

theorem by_content_iff_logins : ∃ result,
    resolve composing [composedLogin,decomposedLogin] [composedRule,decomposedRule] = .ok result ∧
    (ByContent composing [composedLogin,decomposedLogin] [composedRule,decomposedRule] result ↔
      Agreed [composedLogin,decomposedLogin] [composedRule,decomposedRule]) := by
  obtain ⟨result,hresult,-⟩ := composedFirst
  exact ⟨result,hresult,by_content_iff _ _ _ result hresult (by decide)⟩

/-- The first of two logins gives the account its name. -/
theorem order_reaches_artifact : ∃ result,
    resolve composing [composedLogin,decomposedLogin] [composedRule,decomposedRule] = .ok result ∧
    ([composedLogin,decomposedLogin].map (·.eventId)).Nodup ∧
    ¬ByContent composing [composedLogin,decomposedLogin] [composedRule,decomposedRule] result := by
  obtain ⟨result,hresult,hnames⟩ := composedFirst
  obtain ⟨other,hother,hnames'⟩ := decomposedFirst
  refine ⟨result,hresult,by decide,fun hcontent => ?_⟩
  have hsame := hcontent.unordered [decomposedLogin,composedLogin] _ (List.Perm.swap _ _ _) (List.Perm.refl _)
  obtain rfl := Except.ok.inj (hother.symm.trans hsame)
  exact absurd ((of_decide_eq_true hnames).symm.trans (of_decide_eq_true hnames')) (by decide)

end Resolve
end Spectra
