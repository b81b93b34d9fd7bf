import Spectra.Horn
import Spectra.Model

/-! `spectra_vs.reach`: the least fixpoint of a program under a cut mask and the witness
tree over it. The propagation loop is `Horn.propagate`; a program's gates are its
instances over their distinct body facts. -/
namespace Spectra

structure ReachFields where
  kind : ProgramKind
  instances : List RuleInstance
  axioms : List FactHash
  goal : FactHash
  goals : List FactHash
  axiomEvidence : List (FactHash × List EventId)
  deriving DecidableEq

def ReachFields.postInit (p : ReachFields) : Fallible Unit := checks [
  checkStrictlyAscending "ReachProgram.instances" (p.instances.map (·.instanceId)),
  checkStrictlyAscending "ReachProgram.axioms" p.axioms,
  checkStrictlyAscending "ReachProgram.goals" p.goals,
  ensure (p.goal ∈ p.goals) ⟨.schemaError,"E-VS-GOAL-REP",
    "ReachProgram: the representative goal "++p.goal++" is not a member of goals"⟩,
  checkStrictlyAscending "ReachProgram.axiom_evidence" (p.axiomEvidence.map (·.1)),
  checks (p.instances.map fun i => checks (i.blockers.map fun mask =>
    ensure (bitCount mask = 1) ⟨.schemaError,"E-VS-BLOCK-CONJ",
      "ReachProgram: instance "++i.instanceId++" carries a blocker term of popcount "
        ++toString (bitCount mask)++"; C-SLICE-1 admits single literals only"⟩))]

/-- A program is its fields in published order; the adjacency is read off the instances. -/
structure ReachProgram extends ReachFields where
  valid : toReachFields.postInit = .ok ()
  deriving DecidableEq

/-- The goal set is the representative alone unless a library is given. -/
def ReachProgram.build (kind : ProgramKind) (instances : List RuleInstance)
    (axioms : List FactHash) (goal : FactHash) (axiomEvidence : List (FactHash × List EventId))
    (goals : Option (List FactHash)) : Fallible ReachProgram :=
  let fields : ReachFields := ⟨kind,instances,axioms,goal,goals.getD [goal],axiomEvidence⟩
  match h : fields.postInit with
  | .error e => .error e
  | .ok _ => .ok ⟨fields,h⟩

def ReachProgram.supports (p : ReachProgram) (fact : FactHash) : List RuleInstance :=
  p.instances.filter (·.head = fact)

def ReachProgram.axiomEvents (p : ReachProgram) (fact : FactHash) : List EventId :=
  ((p.axiomEvidence.find? (·.1 = fact)).map (·.2)).getD []

/-- Some term of the instance is satisfied by the cut. -/
def instanceBlocked (i : InstanceFields) (cutMask : Mask) : Bool :=
  i.blockers.any fun term => term &&& cutMask = term

def ReachProgram.gates (p : ReachProgram) (cutMask : Mask) : List (Horn.Rule FactHash × Bool) :=
  p.instances.map fun i => (⟨i.head,i.body.dedup⟩,!instanceBlocked i.toInstanceFields cutMask)

structure ReachResult where
  derivable : Bool
  closure : List FactHash
  order : List FactHash
  steps : ℕ
  deriving DecidableEq, Repr

def reach (p : ReachProgram) (cutMask : Mask) : ReachResult :=
  let st := Horn.propagate p.axioms (p.gates cutMask)
  { derivable := p.goals.any (· ∈ st.order)
    closure := st.order.insertionSort (· ≤ ·)
    order := st.order
    steps := st.steps }

/-! ### The least fixpoint -/

def InstanceFields.rule (i : InstanceFields) : Horn.Rule FactHash := ⟨i.head,i.body⟩

/-- The rules a cut leaves standing. -/
def enabledUnder (instances : List RuleInstance) (cutMask : Mask) : Set (Horn.Rule FactHash) :=
  {r | ∃ i ∈ instances, instanceBlocked i.toInstanceFields cutMask = false ∧ i.rule = r}

/-- Membership in the least fixpoint of the program under a cut. -/
def ReachProgram.Derives (p : ReachProgram) (cutMask : Mask) : FactHash → Prop :=
  Horn.Derivable {a | a ∈ p.axioms} (enabledUnder p.instances cutMask)

/-- A cut severs when every goal is underivable. -/
def ReachProgram.Severs (p : ReachProgram) (cutMask : Mask) : Prop :=
  ∀ g ∈ p.goals, ¬p.Derives cutMask g

theorem enabledRules_gates {p : ReachProgram} {cutMask : Mask} {r : Horn.Rule FactHash} :
    r ∈ Horn.enabledRules (p.gates cutMask) ↔ ∃ i ∈ p.instances,
      instanceBlocked i.toInstanceFields cutMask = false ∧ (⟨i.head,i.body.dedup⟩ : Horn.Rule _) = r := by
  simp [Horn.enabledRules,ReachProgram.gates,and_comm]

theorem derivable_gates {p : ReachProgram} {cutMask : Mask} {a : FactHash} :
    Horn.Derivable {a | a ∈ p.axioms} (Horn.enabledRules (p.gates cutMask)) a ↔
      p.Derives cutMask a := by
  constructor
  · intro h
    induction h with
    | seed h => exact .seed h
    | fire hr _ ih =>
      obtain ⟨i,hi,hb,rfl⟩ := enabledRules_gates.mp hr
      exact .fire (r := i.rule) ⟨i,hi,hb,rfl⟩ fun b hm => ih b (List.mem_dedup.mpr hm)
  · intro h
    induction h with
    | seed h => exact .seed h
    | fire hr _ ih =>
      obtain ⟨i,hi,hb,rfl⟩ := hr
      exact .fire (r := ⟨i.head,i.body.dedup⟩) (enabledRules_gates.mpr ⟨i,hi,hb,rfl⟩)
        fun b hm => ih b (List.mem_dedup.mp hm)

/-- `reach` computes the least fixpoint. -/
theorem mem_reach_order {p : ReachProgram} {cutMask : Mask} {a : FactHash} :
    a ∈ (reach p cutMask).order ↔ p.Derives cutMask a :=
  Horn.mem_propagate.trans derivable_gates

theorem mem_reach_closure {p : ReachProgram} {cutMask : Mask} {a : FactHash} :
    a ∈ (reach p cutMask).closure ↔ p.Derives cutMask a := by
  rw [← mem_reach_order]
  exact List.mem_insertionSort _

theorem reach_derivable {p : ReachProgram} {cutMask : Mask} :
    (reach p cutMask).derivable = false ↔ p.Severs cutMask := by
  have h : ∀ g, g ∈ (Horn.propagate p.axioms (p.gates cutMask)).order ↔ p.Derives cutMask g :=
    fun g => mem_reach_order
  simp [reach,ReachProgram.Severs,h]

theorem instanceBlocked_mono {i : InstanceFields} {s t : Mask}
    (h : ∀ b, s.getLsbD b = true → t.getLsbD b = true) (hb : instanceBlocked i s = true) :
    instanceBlocked i t = true := by
  simp only [instanceBlocked,List.any_eq_true,decide_eq_true_eq] at hb ⊢
  obtain ⟨term,ht,he⟩ := hb
  exact ⟨term,ht,and_eq_iff.mpr fun b hm => h b (and_eq_iff.mp he b hm)⟩

/-- A single-literal instance is blocked exactly when the cut raises one of its literals. -/
theorem instanceBlocked_iff {i : RuleInstance} {s : Mask} :
    instanceBlocked i.toInstanceFields s = true ↔
      ∃ t ∈ i.blockers, ∃ b, t.getLsbD b = true ∧ s.getLsbD b = true := by
  simp only [instanceBlocked,List.any_eq_true,decide_eq_true_eq]
  refine exists_congr fun t => and_congr_right fun ht => ?_
  obtain ⟨b,-,hb⟩ := bitCount_eq_one (i.blockers_single t ht)
  rw [and_eq_iff]
  constructor
  · exact fun h => ⟨b,by simp [hb],h b (by simp [hb])⟩
  · rintro ⟨c,hc,hs⟩ d hd
    simp only [hb,decide_eq_true_eq] at hc hd
    rwa [hd,← hc]

/-! ### Witness trees -/

inductive WitnessKind where
  | observedKind | licensedKind | ghostKind | axiomKind
  deriving DecidableEq, Repr

/-- A derivation: an instance, absent on a seed leaf, and the derivations of its body. -/
inductive WitnessNode where
  | node (head : FactHash) (kind : WitnessKind) (instanceId : Option InstanceId)
      (evidence : List EventId) (children : List WitnessNode)

mutual
def WitnessNode.found : WitnessNode → List InstanceId
  | .node _ _ instanceId _ children => instanceId.toList++foundIn children
def foundIn : List WitnessNode → List InstanceId
  | [] => []
  | t::ts => t.found++foundIn ts
end

theorem foundIn_eq (ts : List WitnessNode) : foundIn ts = ts.flatMap WitnessNode.found := by
  induction ts with
  | nil => rfl
  | cons t ts ih => simp [foundIn,ih]

/-- Every instance id in the tree, ascending and deduplicated. -/
def WitnessNode.instances (t : WitnessNode) : List InstanceId :=
  t.found.dedup.insertionSort (· ≤ ·)

theorem WitnessNode.mem_instances {t : WitnessNode} {a : InstanceId} :
    a ∈ t.instances ↔ a ∈ t.found := by
  unfold WitnessNode.instances
  rw [List.mem_insertionSort,List.mem_dedup]

/-- Every body fact was derived strictly before position `here`. -/
def earlier (order : List FactHash) (here : ℕ) (i : InstanceFields) : Bool :=
  i.body.all fun b => b ∈ order && order.idxOf b < here

def admissible (cutMask : Mask) (order : List FactHash) (fact : FactHash) (i : InstanceFields) :
    Bool :=
  !instanceBlocked i cutMask && earlier order (order.idxOf fact) i

/-- The admissible support of lowest id. -/
def lowest (cutMask : Mask) (order : List FactHash) (fact : FactHash) :
    Option RuleInstance → RuleInstance → Option RuleInstance
  | none, i => if admissible cutMask order fact i.toInstanceFields then some i else none
  | some c, i =>
    if admissible cutMask order fact i.toInstanceFields ∧ i.instanceId < c.instanceId then some i
    else some c

def chooseSupport (p : ReachProgram) (cutMask : Mask) (order : List FactHash)
    (fact : FactHash) : Option RuleInstance :=
  (p.supports fact).foldl (lowest cutMask order fact) none

def InstanceFields.witnessKind (i : InstanceFields) : WitnessKind :=
  if i.ghost then .ghostKind
  else if i.observed = .licensed then .licensedKind
  else .observedKind

/-- The recursion descends in derivation order, so a fact's position bounds its depth. -/
def buildWitness (p : ReachProgram) (cutMask : Mask) (order : List FactHash) :
    ℕ → FactHash → WitnessNode
  | 0, fact => .node fact .axiomKind none (p.axiomEvents fact) []
  | depth+1, fact =>
    match chooseSupport p cutMask order fact with
    | none => .node fact .axiomKind none (p.axiomEvents fact) []
    | some i => .node fact i.witnessKind (some i.instanceId) (i.evidence.map (·.eventId))
        (i.body.map (buildWitness p cutMask order depth))

/-- A derivation of `target`, by default of the first goal reached. -/
def witnessTree (p : ReachProgram) (cutMask : Mask) (result : ReachResult)
    (target : Option FactHash) : Fallible WitnessNode :=
  let goal := target.getD ((p.goals.find? (· ∈ result.order)).getD p.goal)
  if goal ∈ result.order then
    .ok (buildWitness p cutMask result.order result.order.length goal)
  else .error (ErrorType.schemaError.mk ("witness_tree: "++goal++
    " is not in the closure under this cut; a witness tree is only defined for a derived fact"))

def ReachProgram.blockersOf (p : ReachProgram) (id : InstanceId) : List Mask :=
  ((p.instances.find? (·.instanceId = id)).map (·.blockers)).getD []

/-- The union of every blocker term of every instance in the tree. -/
def witnessMask (p : ReachProgram) (tree : WitnessNode) : Mask :=
  unionMask (tree.instances.flatMap p.blockersOf)

theorem foldl_lowest {cutMask : Mask} {order : List FactHash} {fact : FactHash}
    (l : List RuleInstance) (c : Option RuleInstance) :
    (∀ i, l.foldl (lowest cutMask order fact) c = some i → c = some i ∨
      i ∈ l ∧ admissible cutMask order fact i.toInstanceFields = true) ∧
    (l.foldl (lowest cutMask order fact) c = none → c = none ∧
      ∀ i ∈ l, admissible cutMask order fact i.toInstanceFields = false) := by
  induction l generalizing c with
  | nil => simp
  | cons k l ih =>
    simp only [List.foldl_cons]
    obtain ⟨hs,hn⟩ := ih (lowest cutMask order fact c k)
    refine ⟨fun i hi => ?_,fun h => ?_⟩
    · rcases hs i hi with hc | ⟨hm,ha⟩
      · cases c with
        | none =>
          simp only [lowest,Option.ite_none_right_eq_some,Option.some.injEq] at hc
          obtain ⟨ha,rfl⟩ := hc
          exact .inr ⟨by simp,ha⟩
        | some c =>
          simp only [lowest] at hc
          split at hc
          · rename_i ha
            obtain rfl := Option.some.inj hc
            exact .inr ⟨by simp,ha.1⟩
          · exact .inl hc
      · exact .inr ⟨by simp [hm],ha⟩
    · obtain ⟨hc,hl⟩ := hn h
      cases c with
      | none =>
        have hk : admissible cutMask order fact k.toInstanceFields = false := by
          simpa [lowest] using hc
        exact ⟨rfl,by rintro i hi; rcases List.mem_cons.mp hi with rfl | hi
                      exacts [hk,hl i hi]⟩
      | some c => simp only [lowest] at hc; split at hc <;> cases hc

theorem admissible_iff {cutMask : Mask} {order : List FactHash} {fact : FactHash}
    {i : InstanceFields} : admissible cutMask order fact i = true ↔
      instanceBlocked i cutMask = false ∧
        ∀ b ∈ i.body, b ∈ order ∧ order.idxOf b < order.idxOf fact := by
  simp [admissible,earlier]

theorem chooseSupport_some {p : ReachProgram} {cutMask : Mask} {order : List FactHash}
    {fact : FactHash} {i : RuleInstance} (h : chooseSupport p cutMask order fact = some i) :
    i ∈ p.instances ∧ i.head = fact ∧ instanceBlocked i.toInstanceFields cutMask = false ∧
      ∀ b ∈ i.body, b ∈ order ∧ order.idxOf b < order.idxOf fact := by
  rcases (foldl_lowest _ none).1 i h with hc | ⟨hm,ha⟩
  · cases hc
  · simp only [ReachProgram.supports,List.mem_filter,decide_eq_true_eq] at hm
    exact ⟨hm.1,hm.2,admissible_iff.mp ha⟩

theorem chooseSupport_none {p : ReachProgram} {cutMask : Mask} {order : List FactHash}
    {fact : FactHash} (h : chooseSupport p cutMask order fact = none) {i : RuleInstance}
    (hi : i ∈ p.instances) (hh : i.head = fact) :
    admissible cutMask order fact i.toInstanceFields = false :=
  ((foldl_lowest _ none).2 h).2 i (by simp [ReachProgram.supports,hi,hh])

/-- What a witness proves: its instances are enabled under the cut it was built for, and
any cut that leaves them standing leaves the fact derivable. -/
structure Witnesses (p : ReachProgram) (cutMask : Mask) (fact : FactHash) (ids : List InstanceId) :
    Prop where
  enabled : ∀ id ∈ ids, ∃ i ∈ p.instances, i.instanceId = id ∧
    instanceBlocked i.toInstanceFields cutMask = false
  derives : ∀ s : Mask, (∀ i ∈ p.instances, i.instanceId ∈ ids →
    instanceBlocked i.toInstanceFields s = false) → p.Derives s fact

/-- A derived fact without an admissible support entered the order as a seed. -/
theorem unsupported_seed {p : ReachProgram} {cutMask : Mask} {fact : FactHash}
    (hf : fact ∈ (reach p cutMask).order)
    (hc : chooseSupport p cutMask (reach p cutMask).order fact = none) : fact ∈ p.axioms := by
  obtain ⟨l₁,l₂,hl⟩ := List.append_of_mem hf
  rcases Horn.propagate_ordered hl with hs | ⟨r,hr,rfl,hb⟩
  · exact hs
  · obtain ⟨i,hi,hbl,rfl⟩ := enabledRules_gates.mp hr
    have hn := chooseSupport_none hc hi rfl
    have hnd : (reach p cutMask).order.Nodup := Horn.propagate_nodup _ _
    rw [admissible_iff.mpr ⟨hbl,fun b hm => ?_⟩] at hn
    · cases hn
    · have hb' := hb b (List.mem_dedup.mpr hm)
      rw [hl] at hnd ⊢
      have hnot : i.head ∉ l₁ := fun h =>
        (List.nodup_append.mp hnd).2.2 _ h _ (by simp) rfl
      refine ⟨by simp [hb'],?_⟩
      rw [List.idxOf_append_of_mem hb',List.idxOf_append_of_notMem hnot]
      have := List.idxOf_lt_length_iff.mpr hb'
      omega

theorem buildWitness_witnesses (p : ReachProgram) (cutMask : Mask) (depth : ℕ) {fact : FactHash}
    (hf : fact ∈ (reach p cutMask).order) (hd : (reach p cutMask).order.idxOf fact < depth) :
    Witnesses p cutMask fact
      (buildWitness p cutMask (reach p cutMask).order depth fact).found := by
  induction depth generalizing fact with
  | zero => omega
  | succ depth ih =>
    rw [buildWitness]
    split
    · rename_i hc
      have hseed := unsupported_seed hf hc
      refine ⟨by simp [WitnessNode.found,foundIn],fun s _ => .seed hseed⟩
    · rename_i i hc
      obtain ⟨hi,hh,hb,hbody⟩ := chooseSupport_some hc
      have hih := fun b hm => ih (hbody b hm).1 (by have := (hbody b hm).2; omega)
      have hfound : ∀ id, id ∈ (WitnessNode.node fact i.witnessKind (some i.instanceId)
          (i.evidence.map (·.eventId)) (i.body.map
            (buildWitness p cutMask (reach p cutMask).order depth))).found ↔
          id = i.instanceId ∨ ∃ b ∈ i.body,
            id ∈ (buildWitness p cutMask (reach p cutMask).order depth b).found := by
        intro id
        simp [WitnessNode.found,foundIn_eq]
      refine ⟨?_,?_⟩
      · intro id hid
        rcases (hfound id).mp hid with rfl | ⟨b,hm,hid⟩
        · exact ⟨i,hi,rfl,hb⟩
        · exact (hih b hm).enabled id hid
      · intro s hs
        rw [← hh]
        refine .fire (r := i.rule) ⟨i,hi,hs i hi ((hfound _).mpr (.inl rfl)),rfl⟩ fun b hm => ?_
        exact (hih b hm).derives s fun j hj hid => hs j hj ((hfound _).mpr (.inr ⟨b,hm,hid⟩))

theorem ReachProgram.ids_ascending (p : ReachProgram) :
    (p.instances.map (·.instanceId)).Pairwise (· < ·) := by
  have h := p.valid
  simp only [ReachFields.postInit,checks_cons,checkStrictlyAscending_ok] at h
  exact h.1

theorem ReachProgram.find_instance (p : ReachProgram) {i : RuleInstance} (hi : i ∈ p.instances) :
    p.instances.find? (·.instanceId = i.instanceId) = some i := by
  have hn : ∀ l : List RuleInstance, (l.map (·.instanceId)).Pairwise (· < ·) → i ∈ l →
      l.find? (·.instanceId = i.instanceId) = some i := by
    intro l
    induction l with
    | nil => simp
    | cons j l ih =>
      intro hp hm
      rw [List.map_cons,List.pairwise_cons] at hp
      rcases List.mem_cons.mp hm with rfl | hm
      · simp
      · have hlt := hp.1 _ (List.mem_map_of_mem hm)
        rw [List.find?_cons_of_neg (by simpa using ne_of_lt hlt)]
        exact ih hp.2 hm
  exact hn _ p.ids_ascending hi

theorem witnessMask_getLsbD {p : ReachProgram} {cutMask : Mask} {fact : FactHash}
    {tree : WitnessNode} (h : Witnesses p cutMask fact tree.found) {b : ℕ} :
    (witnessMask p tree).getLsbD b = true ↔ ∃ i ∈ p.instances, i.instanceId ∈ tree.found ∧
      ∃ t ∈ i.blockers, t.getLsbD b = true := by
  simp only [witnessMask,unionMask_getLsbD,List.mem_flatMap,WitnessNode.mem_instances]
  constructor
  · rintro ⟨t,⟨id,hid,ht⟩,hb⟩
    obtain ⟨i,hi,rfl,-⟩ := h.enabled id hid
    rw [ReachProgram.blockersOf,p.find_instance hi] at ht
    exact ⟨i,hi,hid,t,ht,hb⟩
  · rintro ⟨i,hi,hid,t,ht,hb⟩
    refine ⟨t,⟨i.instanceId,hid,?_⟩,hb⟩
    rw [ReachProgram.blockersOf,p.find_instance hi]
    exact ht

/-- The witness found for a derivable goal: its mask is made of blocker literals, is
disjoint from the cut, and every cut disjoint from it leaves one goal derivable. -/
theorem witnessTree_spec {p : ReachProgram} {cutMask : Mask}
    (hd : (reach p cutMask).derivable = true) :
    ∃ tree, witnessTree p cutMask (reach p cutMask) none = .ok tree ∧
      (∀ b, (witnessMask p tree).getLsbD b = true → cutMask.getLsbD b = false ∧
        ∃ i ∈ p.instances, ∃ t ∈ i.blockers, t.getLsbD b = true) ∧
      ∃ g ∈ p.goals, ∀ s : Mask,
        (∀ b, (witnessMask p tree).getLsbD b = true → s.getLsbD b = false) → p.Derives s g := by
  obtain ⟨g,hg,hr⟩ : ∃ g ∈ p.goals, g ∈ (reach p cutMask).order := by
    simpa [reach] using hd
  obtain ⟨g',hf⟩ : ∃ g', p.goals.find? (· ∈ (reach p cutMask).order) = some g' := by
    rw [← Option.isSome_iff_exists,List.find?_isSome]
    exact ⟨g,hg,by simpa using hr⟩
  have hg' : g' ∈ p.goals := List.mem_of_find?_eq_some hf
  have hr' : g' ∈ (reach p cutMask).order := by simpa using List.find?_some hf
  have hw := buildWitness_witnesses p cutMask _ hr' (List.idxOf_lt_length_iff.mpr hr')
  refine ⟨_,by simp only [witnessTree,hf,Option.getD_none,Option.getD_some]; rw [if_pos hr'],?_,
    g',hg',?_⟩
  · intro b hb
    obtain ⟨i,hi,hid,t,ht,hb⟩ := (witnessMask_getLsbD hw).mp hb
    refine ⟨?_,i,hi,t,ht,hb⟩
    obtain ⟨j,hj,hji,hen⟩ := hw.enabled _ hid
    have hij : i = j := by
      have h₁ := p.find_instance hi
      have h₂ := p.find_instance hj
      rw [hji,h₁] at h₂
      exact Option.some.inj h₂
    by_contra hs
    have := instanceBlocked_iff.mpr ⟨t,ht,b,hb,by simpa using hs⟩
    rw [hij,hen] at this
    cases this
  · intro s hs
    refine hw.derives s fun i hi hid => ?_
    by_contra hb
    obtain ⟨t,ht,b,hb,hsb⟩ := instanceBlocked_iff.mp (by simpa using hb)
    have := hs b ((witnessMask_getLsbD hw).mpr ⟨i,hi,hid,t,ht,hb⟩)
    rw [hsb] at this
    cases this

end Spectra
