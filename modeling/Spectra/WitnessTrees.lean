import Spectra.Closure

/-! Witness trees: what O12 establishes about every node of a published tree, and what a
derivation of a goal still needs. -/
namespace Spectra
namespace Checker

/-- A flat tree of instances: children come after their parent, every node but the root has
one parent, and what a node's body needs is headed by a child or is an axiom. -/
structure FlatTree (axioms : List FactHash) (children : List (List ℕ)) (steps : List Published) :
    Prop where
  length : children.length = steps.length
  root : steps ≠ []
  forward : ∀ index child, child ∈ children.getD index [] → index < child ∧ child < steps.length
  parents : children.flatten.count 0 = 0 ∧
    ∀ index, 0 < index → index < steps.length → children.flatten.count index = 1
  supported : ∀ index i, steps[index]? = some i → ∀ b ∈ i.body,
    (∃ child ∈ children.getD index [], ∃ j, steps[child]? = some j ∧ j.head = b) ∨ b ∈ axioms

/-- A flat tree of enabled instances is a derivation of every head in it. -/
theorem FlatTree.derives {instances : List Published} {axioms : List FactHash} {cutMask : Mask}
    {children : List (List ℕ)} {steps : List Published} (h : FlatTree axioms children steps)
    (hmem : ∀ i ∈ steps, i ∈ instances) (hon : ∀ i ∈ steps, blocked i.blockers cutMask = false)
    {index : ℕ} {i : Published} (hi : steps[index]? = some i) :
    Derives instances axioms cutMask i.head := by
  have hrec : ∀ n index i, steps.length-index ≤ n → steps[index]? = some i →
      Derives instances axioms cutMask i.head := by
    intro n
    induction n with
    | zero =>
      intro index i hn hi
      have := (List.getElem?_eq_some_iff.mp hi).1
      omega
    | succ n ih =>
      intro index i hn hi
      have hin := List.mem_of_getElem? hi
      refine Horn.Derivable.fire (r := i.rule) ⟨i,hmem i hin,hon i hin,rfl⟩ fun b hb => ?_
      rcases h.supported index i hi b hb with ⟨child,hc,j,hj,rfl⟩ | hax
      · have := h.forward index child hc
        exact ih child j (by omega) hj
      · exact .seed hax
  exact hrec _ index i le_rfl hi

namespace State

/-- The published cut without the atoms of one control. -/
def maskWithout (st : State) (control : ControlId) : Mask :=
  (PublishedCut.ofRows (st.cut.rows.filter (·.2.controlId ≠ control))).mask

/-- The root instance heads a declared goal. -/
def RootsAtGoal (st : State) (w : PublishedWitness) : Prop :=
  ∃ i, w.instances[0]? = some i ∧ ∃ g ∈ st.goals, goalIn [i.head] g = true

/-- No instance of the tree is blocked when the control is removed from the cut. -/
def EnabledWithout (st : State) (w : PublishedWitness) : Prop :=
  ∀ i ∈ w.instances, blocked i.blockers (st.maskWithout w.control) = false

/-- The tree is a well-founded derivation of a declared goal over published instances that
are enabled when the witnessed control is removed from the cut. -/
structure WitnessValid (st : State) (w : PublishedWitness) : Prop where
  tree : FlatTree (axiomsOf st.instances) w.children w.instances
  published : ∀ i ∈ w.instances, i ∈ st.instances
  goal : st.RootsAtGoal w
  enabled : st.EnabledWithout w

end State

/-- A valid witness derives a goal under the reduced cut. -/
theorem State.WitnessValid.derives {st : State} {w : PublishedWitness} (h : st.WitnessValid w) :
    ∃ g ∈ st.goals, goalIn (reach st.instances (axiomsOf st.instances) (st.maskWithout w.control)) g =
      true := by
  obtain ⟨i,hi,g,hg,hgi⟩ := h.goal
  refine ⟨g,hg,goalIn_mono ?_ hgi⟩
  intro k hk
  rw [List.mem_singleton.mp hk]
  exact mem_reach.mpr (h.tree.derives h.published h.enabled hi)

section

variable {lib : Library} {nodes : List Json} {children : List (List ℕ)} {instances : List Published}
  {bundle : List (String × Json)}

theorem byId_mem {id : InstanceId} {i : Published} (h : byId instances id = some i) :
    i ∈ instances := List.mem_reverse.mp (List.mem_of_find?_eq_some h)

theorem instanceOf_mem {id : Json} {i : Published} (h : instanceOf instances id = .ok (some i)) :
    i ∈ instances := by
  obtain ⟨_,-,h⟩ := Runs.bind_ok.mp h
  obtain ⟨s,-,hs⟩ := Option.bind_eq_some_iff.mp (Runs.pure_ok.mp h)
  exact byId_mem hs

/-- What the check of one node establishes about its instance. -/
theorem checkNode_ok {own : List ℕ} {node : Json} {path : List InstanceId} {i : Published}
    (h : checkNode lib nodes own node path instances bundle = .ok i) :
    i ∈ instances ∧ node.item "head" = .ok (.str i.head) ∧ ∀ b ∈ i.body,
      (∃ child ∈ own, (nodes.getD child .null).item "head" = .ok (.str b)) ∨
        b ∈ axiomsOf instances := by
  obtain ⟨id,-,h⟩ := Runs.bind_ok.mp h
  obtain ⟨_,-,h⟩ := Runs.bind_ok.mp h
  obtain ⟨o,ho,h⟩ := Runs.bind_ok.mp h
  cases o with
  | none => cases h
  | some j =>
    simp only [Runs.bind_ok,Runs.pure_ok,require_ok] at h
    obtain ⟨head,hhead,_,heq,_,-,_,-,_,-,covered,hcov,_,hbody,rfl⟩ := h
    refine ⟨instanceOf_mem ho,Json.eq_str.mp heq ▸ Json.member_ok.mp hhead,fun b hb => ?_⟩
    rcases hbody b hb with hany | hax
    · obtain ⟨h',hh',hb'⟩ := List.any_eq_true.mp hany
      obtain ⟨child,hc,hread⟩ := mapM_mem hcov hh'
      obtain ⟨head',hread,hrest⟩ := Runs.bind_ok.mp hread
      obtain ⟨_,-,hrest⟩ := Runs.bind_ok.mp hrest
      cases Runs.pure_ok.mp hrest
      exact .inl ⟨child,hc,Json.eq_str.mp hb' ▸ hread⟩
    · exact .inr hax

/-- The walk checks every node, in order. -/
theorem walk_ok {l : List Json} {k : ℕ} {st st' : List (ℕ × List InstanceId) × List Published}
    (h : (l.zipIdx k).foldlM (walkNode lib nodes children instances bundle) st = .ok st') :
    ∃ steps, st'.2 = st.2++steps ∧ steps.length = l.length ∧ ∀ index node, l[index]? = some node →
      ∃ i path, steps[index]? = some i ∧
        checkNode lib nodes (children.getD (k+index) []) node path instances bundle = .ok i := by
  induction l generalizing k st with
  | nil => exact ⟨[],by simp [Runs.foldlM_nil_ok.mp h],rfl,by simp⟩
  | cons node l ih =>
    rw [List.zipIdx_cons] at h
    obtain ⟨u,hu,h⟩ := Runs.foldlM_cons_ok.mp h
    obtain ⟨steps,hsteps,hlength,hall⟩ := ih h
    unfold walkNode at hu
    split at hu
    · cases hu
    · rename_i path hpath
      obtain ⟨i,hi,hu⟩ := Runs.bind_ok.mp hu
      cases Runs.pure_ok.mp hu
      refine ⟨i::steps,by simp [hsteps],by simp [hlength],fun index node' hn => ?_⟩
      cases index with
      | zero => cases hn; exact ⟨i,path,rfl,hi⟩
      | succ index =>
        obtain ⟨j,path',hj,hcheck⟩ := hall index node' hn
        exact ⟨j,path',hj,by rwa [show k+(index+1) = k+1+index by omega]⟩

theorem readChild_ok {index size child : ℕ} {j : Json} (h : readChild index size j = .ok child) :
    index < child ∧ child < size := by
  unfold readChild at h
  split at h
  · cases h
  · obtain ⟨_,hr,h⟩ := Runs.bind_ok.mp h
    have hr := require_ok.mp hr
    rw [← Runs.pure_ok.mp h]
    omega

/-- What the structural check establishes about the children. -/
theorem checkFlatTree_ok {tree : Json} (h : checkFlatTree tree = .ok children) :
    ∃ nodes, tree = .list nodes ∧ nodes ≠ [] ∧ children.length = nodes.length ∧
      (∀ index child, child ∈ children.getD index [] → index < child ∧ child < nodes.length) ∧
      children.flatten.count 0 = 0 ∧
      ∀ index, 0 < index → index < nodes.length → children.flatten.count index = 1 := by
  cases tree with
  | list nodes =>
    simp only [checkFlatTree,Json.list?,Runs.bind_ok,Runs.pure_ok,require_ok,forEach_ok] at h
    obtain ⟨_,hne,children',hread,_,hroot,_,hparents,rfl⟩ := h
    have hlength : children'.length = nodes.length := by
      rw [← (mapM_ok.mp hread).length_eq,List.length_zipIdx]
    refine ⟨nodes,rfl,hne,hlength,?_,hroot,fun index h0 h1 => hparents index ?_⟩
    · intro index child hc
      obtain ⟨own,hown,hc⟩ : ∃ own, children'[index]? = some own ∧ child ∈ own := by
        rw [List.getD_eq_getElem?_getD] at hc
        cases ho : children'[index]? with
        | none => rw [ho] at hc; cases hc
        | some own => rw [ho] at hc; exact ⟨own,rfl,hc⟩
      obtain ⟨p,hp,hread⟩ := mapM_getElem? hread hown
      obtain ⟨listed,-,hread⟩ := Runs.bind_ok.mp hread
      obtain ⟨values,-,hread⟩ := Runs.bind_ok.mp hread
      obtain ⟨j,-,hchild⟩ := mapM_mem hread hc
      rw [List.getElem?_zipIdx,Nat.zero_add] at hp
      obtain ⟨node,-,rfl⟩ := Option.map_eq_some_iff.mp hp
      exact readChild_ok hchild
    · simp; omega
  | _ => simp [checkFlatTree,Json.list?,reject] at h

/-- What O12 establishes about a witness: the tree is a derivation but for its root and for
the blockers of its instances. -/
theorem checkWitness_ok {goals : List Json} {atoms : Atoms} {cut : PublishedCut} {entry : Json}
    {w : PublishedWitness} (h : checkWitness lib goals instances atoms cut bundle entry = .ok w) :
    FlatTree (axiomsOf instances) w.children w.instances ∧ ∀ i ∈ w.instances, i ∈ instances := by
  obtain ⟨removed,-,h⟩ := Runs.bind_ok.mp h
  obtain ⟨_,-,h⟩ := Runs.bind_ok.mp h
  cases hr : removed.str? with
  | none => rw [hr] at h; cases h
  | some control =>
    simp only [hr,Runs.bind_ok,Runs.pure_ok] at h
    obtain ⟨_,-,_,-,_,-,_,-,tree,-,children,hflat,⟨paths,steps⟩,hwalk,rfl⟩ := h
    obtain ⟨nodes,rfl,hne,hlength,hforward,hroot,hparents⟩ := checkFlatTree_ok hflat
    obtain ⟨steps',hsteps,hlen,hall⟩ := walk_ok hwalk
    simp only [Json.list?,Option.getD_some,List.nil_append] at hsteps hlen hall
    subst hsteps
    have hcheck : ∀ index i, steps[index]? = some i → ∃ node path, nodes[index]? = some node ∧
        checkNode lib nodes (children.getD index []) node path instances bundle = .ok i := by
      intro index i hi
      have hlt : index < nodes.length := hlen ▸ (List.getElem?_eq_some_iff.mp hi).1
      obtain ⟨j,path,hj,hc⟩ := hall index nodes[index] (List.getElem?_eq_getElem hlt)
      cases hi.symm.trans hj
      exact ⟨_,path,List.getElem?_eq_getElem hlt,by simpa using hc⟩
    refine ⟨⟨by simp [hlen,hlength],?_,?_,⟨hroot,?_⟩,?_⟩,?_⟩
    · rintro rfl; exact hne (List.length_eq_zero_iff.mp hlen.symm)
    · simpa [hlen] using hforward
    · simpa [hlen] using hparents
    · intro index i hi b hb
      obtain ⟨node,path,-,hc⟩ := hcheck index i hi
      obtain ⟨-,-,hbody⟩ := checkNode_ok hc
      rcases hbody b hb with ⟨child,hchild,hhead⟩ | hax
      · have hlt : child < steps.length := hlen ▸ (hforward index child hchild).2
        have hj := List.getElem?_eq_getElem hlt
        obtain ⟨node',path',hn',hc'⟩ := hcheck child _ hj
        obtain ⟨-,hhead',-⟩ := checkNode_ok hc'
        rw [List.getD_eq_getElem?_getD,hn'] at hhead
        cases hhead.symm.trans hhead'
        exact .inl ⟨child,hchild,_,hj,rfl⟩
      · exact .inr hax
    · intro i hi
      obtain ⟨index,hindex⟩ := List.mem_iff_getElem?.mp hi
      obtain ⟨node,path,-,hc⟩ := hcheck index i hindex
      exact (checkNode_ok hc).1

end

/-- Every published witness is valid exactly when each tree is rooted at a declared goal and
no instance of it is blocked without the removed control. -/
theorem witness_valid_iff {lib : Library} {content : Bytes} {files : CheckerInputs} {st : State}
    (h : Accepts lib content files st) : (∀ w ∈ st.witnesses, st.WitnessValid w) ↔
      ∀ w ∈ st.witnesses, st.RootsAtGoal w ∧ st.EnabledWithout w := by
  obtain ⟨document,h⟩ := h.established
  have hchecked : ∀ w ∈ st.witnesses, FlatTree (axiomsOf st.instances) w.children w.instances ∧
      ∀ i ∈ w.instances, i ∈ st.instances := by
    obtain ⟨listed,-,h12⟩ := Runs.bind_ok.mp h.o12
    obtain ⟨witnesses,-,h12⟩ := Runs.bind_ok.mp h12
    obtain ⟨_,-,h12⟩ := Runs.bind_ok.mp h12
    obtain ⟨_,-,h12⟩ := Runs.bind_ok.mp h12
    intro w hw
    split at h12
    · rw [← Runs.pure_ok.mp h12] at hw; cases hw
    · simp only [Runs.bind_ok] at h12
      obtain ⟨bundle,-,_,-,_,-,goals,-,hread⟩ := h12
      obtain ⟨entry,-,hentry⟩ := mapM_mem hread hw
      exact checkWitness_ok hentry
  constructor
  · exact fun hv w hw => ⟨(hv w hw).goal,(hv w hw).enabled⟩
  · exact fun hv w hw => ⟨(hchecked w hw).1,(hchecked w hw).2,(hv w hw).1,(hv w hw).2⟩

/-- Without the control `a` the goal's step is enabled; the tree shown for `a` is a step to
something else, which the control `b` blocks. -/
def misrooted : Subject := {
  atoms := [⟨"ctl:a",1,0⟩,⟨"ctl:b",1,1⟩]
  cut := [(0,⟨"ctl:a",1,0⟩),(1,⟨"ctl:b",1,1⟩)]
  goals := [("fh:g",true)]
  instances := [⟨[bitMask 0],["fh:x"],[],false,"fh:g","in:1",["lic:0"],"LICENSED","rl:r","1",0⟩,
    ⟨[bitMask 1],["fh:x"],[],false,"fh:h","in:2",["lic:0"],"LICENSED","rl:r","1",0⟩]
  witnesses := [.obj [("nodes",.list [.obj [("children",.list []),("evidence",.list []),
    ("head",.str "fh:h"),("instance_id",.str "in:2"),("kind",.str "LICENSED")]]),
    ("removed_control",.str "ctl:a")]]}

def misrootedPass : misrooted.Passed fun st =>
    st.witnesses.any fun w => w.instances.any fun i =>
      blocked i.blockers (st.maskWithout w.control) :=
  misrooted.pass _ (by decide +kernel) (by decide +kernel)

theorem witness_valid_iff_misrooted : ∃ st,
    Accepts misrooted.library misrooted.content misrooted.files st ∧ st.witnesses ≠ [] ∧
      ((∀ w ∈ st.witnesses, st.WitnessValid w) ↔
        ∀ w ∈ st.witnesses, st.RootsAtGoal w ∧ st.EnabledWithout w) := by
  obtain ⟨st,h,hst⟩ := misrootedPass
  refine ⟨st,h,?_,witness_valid_iff h⟩
  rintro he
  rw [he] at hst
  cases hst

/-- An accepted witness that derives nothing under the reduced cut. -/
theorem witness_invalid : ¬∀ lib content files st, Accepts lib content files st →
    ∀ w ∈ st.witnesses, st.WitnessValid w := by
  intro hall
  obtain ⟨st,h,hst⟩ := misrootedPass
  obtain ⟨w,hw,hany⟩ := List.any_eq_true.mp hst
  obtain ⟨i,hi,hb⟩ := List.any_eq_true.mp hany
  have := (hall _ _ _ st h w hw).enabled i hi
  rw [hb] at this
  cases this

end Checker

end Spectra
