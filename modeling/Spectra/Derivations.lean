import Spectra.Reach

/-! What `spectra_vs.reach` returns: the least fixpoint in few steps, and for every fact of it a
finite derivation. -/
namespace Spectra

def WitnessNode.head : WitnessNode → FactHash
  | .node head _ _ _ _ => head

/-- A tree whose inner nodes are standing instances over their bodies and whose leaves are seeds, or
standing instances without a body. -/
inductive Derivation (p : ReachProgram) (cutMask : Mask) : WitnessNode → Prop
  | leaf {fact : FactHash} (h : fact ∈ p.axioms) :
      Derivation p cutMask (.node fact .axiomKind none (p.axiomEvents fact) [])
  | inner {i : RuleInstance} {children : List WitnessNode} (h : i ∈ p.instances)
      (standing : instanceBlocked i.toInstanceFields cutMask = false)
      (heads : children.map (·.head) = i.body) (more : ∀ c ∈ children, Derivation p cutMask c) :
      Derivation p cutMask (.node i.head i.witnessKind (some i.instanceId)
        (i.evidence.map (·.eventId)) children)

variable {p : ReachProgram} {cutMask : Mask}

theorem buildWitness_head (order : List FactHash) (depth : ℕ) (fact : FactHash) :
    (buildWitness p cutMask order depth fact).head = fact := by
  cases depth with
  | zero => rfl
  | succ depth =>
    rw [buildWitness]
    split <;> rfl

/-- Below its position every fact is derived by its lowest support, or is a seed. -/
theorem buildWitness_derivation (depth : ℕ) {fact : FactHash} (hf : fact ∈ (reach p cutMask).order)
    (hd : (reach p cutMask).order.idxOf fact < depth) :
    Derivation p cutMask (buildWitness p cutMask (reach p cutMask).order depth fact) := by
  induction depth generalizing fact with
  | zero => omega
  | succ depth ih =>
    rw [buildWitness]
    split
    · rename_i hc
      exact .leaf (unsupported_seed hf hc)
    · rename_i i hc
      obtain ⟨hi,rfl,hb,hbody⟩ := chooseSupport_some hc
      refine .inner hi hb ?_ fun c hc => ?_
      · rw [List.map_map]
        exact (List.map_congr_left fun b _ => buildWitness_head _ depth b).trans (List.map_id' _)
      · obtain ⟨b,hm,rfl⟩ := List.mem_map.mp hc
        obtain ⟨hb,hlt⟩ := hbody b hm
        exact ih hb (by omega)

theorem witnessTree_some {fact : FactHash} (h : p.Derives cutMask fact) :
    ∃ tree, witnessTree p cutMask (reach p cutMask) (some fact) = .ok tree ∧ tree.head = fact ∧
      Derivation p cutMask tree := by
  have hf := mem_reach_order.mpr h
  refine ⟨_,by rw [witnessTree,Option.getD_some,if_pos hf],buildWitness_head _ _ _,?_⟩
  exact buildWitness_derivation _ hf (List.idxOf_lt_length_iff.mpr hf)

theorem witnessTree_goal (h : (reach p cutMask).derivable = true) :
    ∃ g ∈ p.goals, ∃ tree, witnessTree p cutMask (reach p cutMask) none = .ok tree ∧ tree.head = g ∧
      Derivation p cutMask tree := by
  obtain ⟨reached,hm,hreached⟩ : ∃ g ∈ p.goals, g ∈ (reach p cutMask).order := by
    simpa [reach] using h
  obtain ⟨g,hg⟩ : ∃ g, p.goals.find? (· ∈ (reach p cutMask).order) = some g := by
    rw [← Option.isSome_iff_exists,List.find?_isSome]
    exact ⟨reached,hm,by simpa using hreached⟩
  have hr : g ∈ (reach p cutMask).order := by simpa using List.find?_some hg
  obtain ⟨tree,ht,hhead,hder⟩ := witnessTree_some (mem_reach_order.mp hr)
  refine ⟨g,List.mem_of_find?_eq_some hg,tree,?_,hhead,hder⟩
  rw [← ht,witnessTree,witnessTree,hg]
  rfl

theorem reach_closure_nodup : (reach p cutMask).closure.Nodup :=
  (List.perm_insertionSort _ _).nodup_iff.mpr (Horn.propagate_nodup _ _)

/-- The edges of all instances bound those of the standing ones. -/
theorem openEdges_gates : Horn.openEdges (p.gates cutMask) [] ≤
    (p.instances.map fun i => i.body.dedup.length).sum := by
  rw [Horn.openEdges,ReachProgram.gates,List.map_map]
  refine List.sum_le_sum fun i _ => ?_
  simp only [Function.comp_apply,Horn.pending_nil]
  split <;> omega

theorem reach_steps : (reach p cutMask).steps ≤
    (p.instances.map fun i => i.body.dedup.length).sum+(reach p cutMask).closure.length := by
  have h := Horn.propagate_steps p.axioms (p.gates cutMask)
  have hedges := @openEdges_gates p cutMask
  have hlength : (reach p cutMask).closure.length = (reach p cutMask).order.length :=
    List.length_insertionSort _ _
  rw [hlength]
  simp only [reach]
  omega

theorem enabledUnder_mono {instances instances' : List RuleInstance} {s : Mask}
    (hi : ∀ i ∈ instances, i ∈ instances') (hs : ∀ b, s.getLsbD b = true → cutMask.getLsbD b = true) :
    enabledUnder instances cutMask ⊆ enabledUnder instances' s := by
  rintro r ⟨i,hm,hb,rfl⟩
  refine ⟨i,hi i hm,?_,rfl⟩
  rw [← Bool.not_eq_true] at hb ⊢
  exact mt (instanceBlocked_mono hs) hb

/-- The closure under a cut. -/
def ReachProgram.closureSet (p : ReachProgram) (cutMask : Mask) : Set FactHash :=
  {a | a ∈ (reach p cutMask).closure}

/-- What a fixpoint run and the trees over it are. -/
structure ReachRight (p : ReachProgram) (cutMask : Mask) : Prop where
  least : IsLeast {s | Horn.Closed {a | a ∈ p.axioms} (enabledUnder p.instances cutMask) s}
    (p.closureSet cutMask)
  antitone : ∀ s : Mask, (∀ b, cutMask.getLsbD b = true → s.getLsbD b = true) →
    p.closureSet s ⊆ p.closureSet cutMask
  monotone : ∀ q : ReachProgram, (∀ i ∈ p.instances, i ∈ q.instances) → (∀ a ∈ p.axioms, a ∈ q.axioms) →
    p.closureSet cutMask ⊆ q.closureSet cutMask
  once : (reach p cutMask).closure.Nodup
  steps : (reach p cutMask).steps ≤
    (p.instances.map fun i => i.body.dedup.length).sum+(reach p cutMask).closure.length
  trees : ∀ fact ∈ (reach p cutMask).closure, ∃ tree,
    witnessTree p cutMask (reach p cutMask) (some fact) = .ok tree ∧ tree.head = fact ∧
      Derivation p cutMask tree
  goalTree : (reach p cutMask).derivable = true → ∃ g ∈ p.goals, ∃ tree,
    witnessTree p cutMask (reach p cutMask) none = .ok tree ∧ tree.head = g ∧ Derivation p cutMask tree

/-- Every run of `reach` computes the least fixpoint, and every fact of it has a derivation. -/
theorem reach_right (p : ReachProgram) (cutMask : Mask) : ReachRight p cutMask where
  least := by
    have hderives : ∀ a, a ∈ p.closureSet cutMask ↔ p.Derives cutMask a := fun a => mem_reach_closure
    refine ⟨⟨fun a ha => (hderives a).mpr (.seed ha),fun r hr hb => ?_⟩,fun s hs a ha => ?_⟩
    · exact (hderives _).mpr (.fire hr fun b hm => (hderives b).mp (hb b hm))
    · exact ((hderives a).mp ha).mem_of_closed hs
  antitone := fun s hs a ha => mem_reach_closure.mpr
    ((mem_reach_closure.mp ha).mono (fun _ hb => .seed hb) (enabledUnder_mono (fun _ hi => hi) hs))
  monotone := fun _ hi hax a ha => mem_reach_closure.mpr
    ((mem_reach_closure.mp ha).mono (fun b hb => .seed (hax b hb)) (enabledUnder_mono hi fun _ hb => hb))
  once := reach_closure_nodup
  steps := reach_steps
  trees := fun _ hf => witnessTree_some (mem_reach_closure.mp hf)
  goalTree := witnessTree_goal

end Spectra
