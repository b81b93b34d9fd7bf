import Spectra.PreOrder
import Spectra.Verdict
import Spectra.WitnessTrees

/-! The published node lists of `spectra_vs.cert`, `spectra_vs_verify.checker` and the viewer's
`witness.js`: how a witness is flattened, what the two readers accept, and how the viewer walks a list. -/
namespace Spectra
namespace Cert

def StepKind.text : StepKind → String
  | .observed => "OBSERVED"
  | .ghost => "GHOST"
  | .licensed => "LICENSED"

/-- A published node; its children are places of the node list. -/
structure FlatNode where
  instanceId : InstanceId
  head : FactHash
  kind : StepKind
  evidence : List EventId
  children : List ℤ
  valid : checkNode kind evidence = .ok ()

def FlatNode.toJson (n : FlatNode) : Json := .obj [("children",.list (n.children.map .int)),
  ("evidence",.list (n.evidence.map .str)),("head",.str n.head),("instance_id",.str n.instanceId),
  ("kind",.str n.kind.text)]

mutual

/-- The nodes `place` appends when there are `start` nodes. -/
def Node.place (start : ℕ) : Node → List FlatNode
  | .node instanceId head kind evidence children valid =>
    let (places,below) := placeAll (start+1) children
    ⟨instanceId,head,kind,evidence,places.map Int.ofNat,valid⟩::below

/-- The trees in turn: their places, and what they append. -/
def placeAll (start : ℕ) : List Node → List ℕ × List FlatNode
  | [] => ([],[])
  | t::ts =>
    let nodes := t.place start
    let (places,rest) := placeAll (start+nodes.length) ts
    (start::places,nodes++rest)

end

/-- `WitnessNode.flatten`. -/
def Node.flatten (t : Node) : List FlatNode := t.place 0

end Cert

/-! ### The viewer -/
namespace Viewer

open Cert (FlatNode)

inductive ShapeError where
  | empty
  | childRange (i : ℕ) (c : ℤ)
  | rootReferenced (i : ℕ)
  | multipleParents (c : ℤ)
  | unreachable (c : ℕ)
  deriving DecidableEq, Repr

/-- The parents that are known, and the nodes that have one. -/
structure Sweep where
  parent : List ℤ
  seen : List Bool

/-- Node `i` names a child. -/
def markChild (size i : ℕ) (s : Sweep) (child : ℤ) : Except ShapeError Sweep :=
  if child = 0 then .error (.rootReferenced i)
  else if child ≤ i ∨ (size : ℤ) ≤ child then .error (.childRange i child)
  else if s.seen.getD child.toNat false then .error (.multipleParents child)
  else .ok ⟨s.parent.set child.toNat i,s.seen.set child.toNat true⟩

/-- The parent of each node; -1 for the root. -/
def checkNodeList (nodes : List FlatNode) : Except ShapeError (List ℤ) :=
  if nodes.isEmpty then .error .empty
  else do
    let s ← nodes.zipIdx.foldlM (fun s p => p.1.children.foldlM (markChild nodes.length p.2) s)
      ⟨.replicate nodes.length (-1),.replicate nodes.length false⟩
    match (List.range' 1 (nodes.length-1)).find? fun i => !s.seen.getD i false with
    | some i => .error (.unreachable i)
    | none => .ok s.parent

/-- One forward sweep: a child is one deeper than its parent. -/
def nodeDepths (nodes : List FlatNode) : Except ShapeError (List ℕ) := do
  let _ ← checkNodeList nodes
  pure (nodes.zipIdx.foldl (fun depth p =>
    p.1.children.foldl (fun depth child => depth.set child.toNat (depth.getD p.2 0+1)) depth)
    (.replicate nodes.length 0))

/-- A node of the rebuilt tree. -/
inductive Entry where
  | entry (index depth : ℕ) (node : FlatNode) (children : List Entry)

/-- The rebuilt nodes from place `i` on; a child is among the later ones. -/
def rebuild (depth : List ℕ) : ℕ → List FlatNode → List Entry
  | _, [] => []
  | i, node::nodes =>
    let later := rebuild depth (i+1) nodes
    .entry i (depth.getD i 0) node (node.children.filterMap fun child : ℤ =>
      later[(child-(i : ℤ)-1).toNat]?)::later

def buildWitnessTree (nodes : List FlatNode) : Except ShapeError Entry := do
  let depth ← nodeDepths nodes
  match rebuild depth 0 nodes with
  | root::_ => pure root
  | [] => .error .empty

/-- What a rendering shows of a node. -/
structure Visit where
  index : ℕ
  depth : ℕ
  node : FlatNode

mutual

def Entry.visits : Entry → List Visit
  | .entry index depth node children => ⟨index,depth,node⟩::visitsAll children

def visitsAll : List Entry → List Visit
  | [] => []
  | t::ts => t.visits++visitsAll ts

end

def preorder (nodes : List FlatNode) : Except ShapeError (List Visit) := do
  let root ← buildWitnessTree nodes
  pure root.visits

end Viewer

namespace Cert

/-! ### The shape both readers ask for -/

/-- Children come after their node and inside the list, and every node but the root is a child once. -/
structure TreeShaped (nodes : List FlatNode) : Prop where
  nonempty : nodes ≠ []
  forward : ∀ (i : ℕ) (node : FlatNode), nodes[i]? = some node → ∀ c ∈ node.children, (i : ℤ) < c ∧ c < nodes.length
  once : ∀ c : ℕ, 0 < c → c < nodes.length → (nodes.flatMap (·.children)).count (c : ℤ) = 1

/-- The children of the node at a place. -/
def childrenAt (nodes : List FlatNode) (i : ℕ) : List ℕ :=
  match nodes[i]? with
  | some node => node.children.map Int.toNat
  | none => []

section

variable {nodes : List FlatNode}

theorem childrenAt_some {i : ℕ} {node : FlatNode} (h : nodes[i]? = some node) :
    childrenAt nodes i = node.children.map Int.toNat := by rw [childrenAt,h]

theorem childrenAt_outside {i : ℕ} (h : nodes.length ≤ i) : childrenAt nodes i = [] := by
  rw [childrenAt,List.getElem?_eq_none h]

theorem flatMap_childrenAt (nodes : List FlatNode) : (List.range nodes.length).flatMap (childrenAt nodes) =
    (nodes.flatMap (·.children)).map Int.toNat := by
  have hmap : (List.range nodes.length).map (childrenAt nodes) = nodes.map fun n => n.children.map Int.toNat := by
    refine List.ext_getElem (by simp) fun i h₁ h₂ => ?_
    rw [List.getElem_map,List.getElem_map,List.getElem_range]
    exact childrenAt_some (List.getElem?_eq_getElem _)
  rw [List.flatMap_def,hmap,List.map_flatMap,List.flatMap_def]

theorem count_toNat {l : List ℤ} (h : ∀ c ∈ l, 0 ≤ c) (n : ℕ) : (l.map Int.toNat).count n = l.count (n : ℤ) := by
  have hl : l = (l.map Int.toNat).map Int.ofNat := by
    rw [List.map_map]
    refine ((List.map_congr_left fun c hc => ?_).trans (List.map_id l)).symm
    exact Int.toNat_of_nonneg (h c hc)
  conv_rhs => rw [hl]
  exact (List.count_map_of_injective _ _ Int.ofNat_injective _).symm

/-- The shape is that of a tree on the places, when no child is negative. -/
theorem treeShaped_iff : TreeShaped nodes ↔
    PreOrder.Treelike (childrenAt nodes) nodes.length ∧ ∀ node ∈ nodes, ∀ c ∈ node.children, 0 ≤ c := by
  constructor
  · intro h
    have hnat : ∀ node ∈ nodes, ∀ c ∈ node.children, 0 ≤ c := by
      intro node hn c hc
      obtain ⟨i,hi⟩ := List.mem_iff_getElem?.mp hn
      have := h.forward i node hi c hc
      omega
    refine ⟨⟨List.length_pos_iff.mpr h.nonempty,fun p c hc => ?_,fun c h0 hc => ?_⟩,hnat⟩
    · cases hp : nodes[p]? with
      | none =>
        rw [childrenAt,hp] at hc
        cases hc
      | some node =>
        rw [childrenAt_some hp] at hc
        obtain ⟨d,hd,rfl⟩ := List.mem_map.mp hc
        have := h.forward p node hp d hd
        omega
    · rw [flatMap_childrenAt,count_toNat fun c hc => ?_]
      · exact h.once c h0 hc
      · obtain ⟨node,hn,hc⟩ := List.mem_flatMap.mp hc
        exact hnat node hn c hc
  · rintro ⟨ht,hnat⟩
    refine ⟨List.length_pos_iff.mp ht.root,fun i node hi c hc => ?_,fun c h0 hc => ?_⟩
    · have hpos := hnat node (List.mem_of_getElem? hi) c hc
      have := ht.forward i c.toNat (by rw [childrenAt_some hi]; exact List.mem_map_of_mem hc)
      omega
    · rw [← count_toNat fun c hc => ?_,← flatMap_childrenAt]
      · exact ht.once c h0 hc
      · obtain ⟨node,hn,hc⟩ := List.mem_flatMap.mp hc
        exact hnat node hn c hc

end

/-! ### The checker -/

theorem forall₂_map_iff {α β : Type} {P : α → Prop} {f : α → β} {l : List α} {r : List β} :
    List.Forall₂ (fun a b => P a ∧ b = f a) l r ↔ (∀ a ∈ l, P a) ∧ r = l.map f := by
  induction l generalizing r with
  | nil => cases r <;> simp
  | cons a l ih =>
    cases r with
    | nil => simp
    | cons b r =>
      rw [List.forall₂_cons,ih,List.forall_mem_cons,List.map_cons,List.cons.injEq]
      tauto

open Checker in
theorem readChild_int {i n k : ℕ} {c : ℤ} : readChild i n (.int c) = .ok k ↔
    ((i : ℤ) < c ∧ c < n) ∧ k = c.toNat := by
  simp only [readChild,Json.int?,Runs.bind_ok,require_ok,Runs.pure_ok,exists_const]
  exact and_congr_right fun _ => eq_comm

open Checker in
theorem readChildren_ok {i n : ℕ} {node : FlatNode} {cs : List ℕ} :
    (do (← (← node.toJson.member "children").iter).mapM (readChild i n)) = .ok cs ↔
      (∀ c ∈ node.children, (i : ℤ) < c ∧ c < n) ∧ cs = node.children.map Int.toNat := by
  have hmember : node.toJson.member "children" = .ok (.list (node.children.map .int)) :=
    Json.member_ok.mpr (Json.item_ok.mpr ⟨_,rfl,rfl⟩)
  rw [hmember]
  change (node.children.map Json.int).mapM (readChild i n) = .ok cs ↔ _
  rw [mapM_ok,List.forall₂_map_left_iff,← forall₂_map_iff]
  simp only [readChild_int]

theorem readAll_ok {nodes : List FlatNode} {children : List (List ℕ)} :
    (nodes.map FlatNode.toJson).zipIdx.mapM (fun p => do
      (← (← p.1.member "children").iter).mapM (Checker.readChild p.2 (nodes.map FlatNode.toJson).length)) =
        .ok children ↔
      (∀ p ∈ nodes.zipIdx, ∀ c ∈ p.1.children, (p.2 : ℤ) < c ∧ c < nodes.length) ∧
        children = nodes.zipIdx.map fun p => p.1.children.map Int.toNat := by
  rw [mapM_ok,List.zipIdx_map,List.forall₂_map_left_iff,← forall₂_map_iff,List.length_map]
  simp only [Prod.map_fst,Prod.map_snd,id_eq,readChildren_ok]

/-- `_check_flat_tree` accepts the lists of that shape. -/
theorem checkFlatTree_accepts (nodes : List FlatNode) :
    (∃ children, Checker.checkFlatTree (.list (nodes.map FlatNode.toJson)) = .ok children) ↔ TreeShaped nodes := by
  have hforward : (∀ p ∈ nodes.zipIdx, ∀ c ∈ p.1.children, (p.2 : ℤ) < c ∧ c < nodes.length) ↔
      ∀ (i : ℕ) (node : FlatNode), nodes[i]? = some node → ∀ c ∈ node.children, (i : ℤ) < c ∧ c < nodes.length := by
    simp only [Prod.forall,List.mem_zipIdx_iff_getElem?]
    exact ⟨fun h i node hi => h node i hi,fun h node i hi => h i node hi⟩
  have hflat : (nodes.zipIdx.map fun p => p.1.children.map Int.toNat).flatten =
      (nodes.flatMap (·.children)).map Int.toNat := by
    rw [← List.flatMap_def,List.map_flatMap]
    conv_rhs => rw [← List.zipIdx_map_fst 0 nodes,List.flatMap_map]
  have hnat : (∀ (i : ℕ) (node : FlatNode), nodes[i]? = some node → ∀ c ∈ node.children, (i : ℤ) < c ∧ c < nodes.length) →
      ∀ c ∈ nodes.flatMap (·.children), 0 < c := by
    intro h c hc
    obtain ⟨node,hn,hc⟩ := List.mem_flatMap.mp hc
    obtain ⟨i,hi⟩ := List.mem_iff_getElem?.mp hn
    have := h i node hi c hc
    omega
  simp only [Checker.checkFlatTree,Json.list?,Runs.bind_ok,Runs.pure_ok,require_ok,forEach_ok,readAll_ok,hforward]
  constructor
  · rintro ⟨_,_,hne,children,⟨hf,rfl⟩,_,-,_,honce,-⟩
    refine ⟨by simpa using hne,hf,fun c h0 hc => ?_⟩
    have hcount := honce c (by simp; omega)
    rwa [hflat,count_toNat fun c hc => (hnat hf c hc).le] at hcount
  · intro h
    have hpos := hnat h.forward
    refine ⟨_,(),by simpa using h.nonempty,_,⟨h.forward,rfl⟩,(),?_,(),fun c hc => ?_,rfl⟩
    · rw [hflat,count_toNat fun c hc => (hpos c hc).le]
      exact List.count_eq_zero_of_not_mem fun hmem => absurd (hpos _ hmem) (by simp)
    · rw [hflat,count_toNat fun c hc => (hpos c hc).le]
      rw [List.mem_range'_1,List.length_map] at hc
      exact h.once c (by omega) (by omega)

end Cert

namespace Viewer

open Cert (FlatNode TreeShaped)

/-! ### The sweep of the viewer -/

/-- The edges in the order they are swept. -/
def edges (nodes : List FlatNode) : List (ℕ × ℤ) := nodes.zipIdx.flatMap fun p => p.1.children.map (p.2,·)

theorem mem_edges {nodes : List FlatNode} {i : ℕ} {c : ℤ} :
    (i,c) ∈ edges nodes ↔ ∃ node, nodes[i]? = some node ∧ c ∈ node.children := by
  simp only [edges,List.mem_flatMap,List.mem_map,Prod.exists,List.mem_zipIdx_iff_getElem?,Prod.mk.injEq]
  constructor
  · rintro ⟨node,_,hn,_,hc,rfl,rfl⟩
    exact ⟨node,hn,hc⟩
  · rintro ⟨node,hn,hc⟩
    exact ⟨node,i,hn,c,hc,rfl,rfl⟩

theorem edges_snd (nodes : List FlatNode) : (edges nodes).map (·.2) = nodes.flatMap (·.children) := by
  rw [edges,List.map_flatMap]
  conv_rhs => rw [← List.zipIdx_map_fst 0 nodes,List.flatMap_map]
  simp

theorem sweep_edges {size : ℕ} (l : List (FlatNode × ℕ)) (s : Sweep) :
    l.foldlM (fun s p => p.1.children.foldlM (markChild size p.2) s) s =
      (l.flatMap fun p => p.1.children.map (p.2,·)).foldlM (fun s e => markChild size e.1 s e.2) s := by
  induction l generalizing s with
  | nil => rfl
  | cons p l ih =>
    rw [List.foldlM_cons,List.flatMap_cons,List.foldlM_append,List.foldlM_map]
    exact bind_congr ih

/-- The nodes that have a parent are these. -/
structure Marks (size : ℕ) (s : Sweep) (found : List ℕ) : Prop where
  length : s.seen.length = size
  seen : ∀ i, s.seen.getD i false = true ↔ i ∈ found

variable {size : ℕ} {s s' : Sweep} {found : List ℕ}

theorem markChild_ok {i : ℕ} {child : ℤ} : markChild size i s child = .ok s' ↔
    ((i : ℤ) < child ∧ child < size ∧ s.seen.getD child.toNat false = false) ∧
      (⟨s.parent.set child.toNat i,s.seen.set child.toNat true⟩ : Sweep) = s' := by
  unfold markChild
  split_ifs with hzero hrange hseen
  · exact iff_of_false (by simp) fun h => by omega
  · exact iff_of_false (by simp) fun h => by omega
  · refine iff_of_false (by simp) fun h => ?_
    rw [hseen] at h
    cases h.1.2.2
  · rw [Except.ok.injEq]
    refine ⟨fun h => ⟨⟨by omega,by omega,by simpa using hseen⟩,h⟩,fun h => h.2⟩

theorem Marks.mark (h : Marks size s found) {i c : ℕ} (hc : c < size) :
    Marks size ⟨s.parent.set c i,s.seen.set c true⟩ (found++[c]) where
  length := by simpa using h.length
  seen j := by
    rw [List.mem_append,List.mem_singleton,← h.seen]
    simp only [List.getD_eq_getElem?_getD,List.getElem?_set]
    split_ifs with hj hlt
    · simp [hj]
    · have := h.length
      omega
    · simp [Ne.symm hj]

/-- A sweep that goes through found every child inside the list, and none twice. -/
theorem sweep_ok {l : List (ℕ × ℤ)} (hm : Marks size s found) (hn : found.Nodup)
    (h : l.foldlM (fun s e => markChild size e.1 s e.2) s = .ok s') :
    (∀ e ∈ l, (e.1 : ℤ) < e.2 ∧ e.2 < size) ∧ (found++l.map (·.2.toNat)).Nodup ∧
      Marks size s' (found++l.map (·.2.toNat)) := by
  induction l generalizing s found with
  | nil =>
    obtain rfl := Runs.foldlM_nil_ok.mp h
    simpa using ⟨hn,hm⟩
  | cons e l ih =>
    obtain ⟨next,he,h⟩ := Runs.foldlM_cons_ok.mp h
    obtain ⟨⟨hlow,hhigh,hseen⟩,rfl⟩ := markChild_ok.mp he
    have hnew : e.2.toNat ∉ found := fun hf => by rw [(hm.seen _).mpr hf] at hseen; cases hseen
    obtain ⟨hf,hnodup,hdone⟩ := ih (hm.mark (i := e.1) (by omega))
      (List.nodup_append.mpr ⟨hn,List.nodup_singleton _,
        by simpa using fun c hc (heq : c = e.2.toNat) => hnew (heq ▸ hc)⟩) h
    rw [List.append_assoc] at hnodup hdone
    exact ⟨List.forall_mem_cons.mpr ⟨⟨hlow,hhigh⟩,hf⟩,hnodup,hdone⟩

theorem sweep_returns {l : List (ℕ × ℤ)} (hm : Marks size s found)
    (hf : ∀ e ∈ l, (e.1 : ℤ) < e.2 ∧ e.2 < size) (hn : (found++l.map (·.2.toNat)).Nodup) :
    ∃ s', l.foldlM (fun s e => markChild size e.1 s e.2) s = .ok s' := by
  induction l generalizing s found with
  | nil => exact ⟨s,rfl⟩
  | cons e l ih =>
    obtain ⟨⟨hlow,hhigh⟩,hf⟩ := List.forall_mem_cons.mp hf
    rw [List.map_cons,List.append_cons] at hn
    have hnew : e.2.toNat ∉ found := fun hmem =>
      (List.nodup_append.mp (List.nodup_append.mp hn).1).2.2 _ hmem _ (List.mem_singleton_self _) rfl
    have hseen : s.seen.getD e.2.toNat false = false := by
      rw [Bool.eq_false_iff]
      exact fun h => hnew ((hm.seen _).mp h)
    obtain ⟨s',hs'⟩ := ih (hm.mark (i := e.1) (by omega : e.2.toNat < size)) hf hn
    exact ⟨s',Runs.foldlM_cons_ok.mpr ⟨_,markChild_ok.mpr ⟨⟨hlow,hhigh,hseen⟩,rfl⟩,hs'⟩⟩

theorem marks_start (size : ℕ) : Marks size ⟨.replicate size (-1),.replicate size false⟩ [] where
  length := List.length_replicate
  seen i := by
    rw [List.getD_eq_getElem?_getD,List.getElem?_replicate]
    split_ifs <;> simp

/-- The viewer accepts the lists of that shape. -/
theorem checkNodeList_accepts (nodes : List FlatNode) :
    (∃ parents, checkNodeList nodes = .ok parents) ↔ TreeShaped nodes := by
  have hforward : (∀ e ∈ edges nodes, (e.1 : ℤ) < e.2 ∧ e.2 < nodes.length) ↔
      ∀ (i : ℕ) (node : FlatNode), nodes[i]? = some node → ∀ c ∈ node.children, (i : ℤ) < c ∧ c < nodes.length := by
    simp only [Prod.forall,mem_edges]
    exact ⟨fun h i node hi c hc => h i c ⟨node,hi,hc⟩,fun h i c ⟨node,hi,hc⟩ => h i node hi c hc⟩
  have hnat : (∀ e ∈ edges nodes, (e.1 : ℤ) < e.2 ∧ e.2 < nodes.length) →
      ∀ c : ℤ, c ∈ nodes.flatMap (·.children) → 0 < c ∧ c < nodes.length := by
    intro h c hc
    rw [← edges_snd] at hc
    obtain ⟨e,he,rfl⟩ := List.mem_map.mp hc
    have := h e he
    omega
  have hfound : (edges nodes).map (·.2.toNat) = (nodes.flatMap (·.children)).map Int.toNat := by
    rw [← edges_snd,List.map_map]
    rfl
  unfold checkNodeList
  cases hempty : nodes.isEmpty with
  | true =>
    refine iff_of_false (by simp) fun h => h.nonempty ?_
    simpa using hempty
  | false =>
    simp only [Bool.false_eq_true,if_false,sweep_edges,Runs.bind_ok]
    constructor
    · rintro ⟨parents,s,hs,hfind⟩
      obtain ⟨hf,hnodup,hmarks⟩ := sweep_ok (marks_start nodes.length) .nil hs
      refine ⟨by simpa using hempty,hforward.mp hf,fun c h0 hc => ?_⟩
      split at hfind
      · cases hfind
      · rename_i hnone
        have hseen := List.find?_eq_none.mp hnone c (by rw [List.mem_range'_1]; omega)
        have hmem := (hmarks.seen c).mp (by simpa using hseen)
        change ([]++(edges nodes).map fun e : ℕ × ℤ => e.2.toNat).Nodup at hnodup
        change c ∈ []++(edges nodes).map (·.2.toNat) at hmem
        rw [List.nil_append,hfound] at hnodup hmem
        rw [← Cert.count_toNat fun c hc => (hnat hf c hc).1.le]
        exact List.count_eq_one_of_mem hnodup hmem
    · intro h
      have hf := hforward.mpr h.forward
      have hcount : ∀ c : ℕ, 0 < c → c < nodes.length →
          ((nodes.flatMap (·.children)).map Int.toNat).count c = 1 := fun c h0 hc => by
        rw [Cert.count_toNat fun c hc => (hnat hf c hc).1.le]
        exact h.once c h0 hc
      have hnodup : ([]++(edges nodes).map fun e : ℕ × ℤ => e.2.toNat).Nodup := by
        rw [List.nil_append,hfound,List.nodup_iff_count_le_one]
        intro c
        by_cases hc : c ∈ (nodes.flatMap (·.children)).map Int.toNat
        · obtain ⟨d,hd,rfl⟩ := List.mem_map.mp hc
          have := hnat hf d hd
          exact (hcount d.toNat (by omega) (by omega)).le
        · rw [List.count_eq_zero_of_not_mem hc]
          exact Nat.zero_le _
      obtain ⟨s,hs⟩ := sweep_returns (marks_start nodes.length) hf hnodup
      obtain ⟨-,-,hmarks⟩ := sweep_ok (marks_start nodes.length) .nil hs
      refine ⟨s.parent,s,hs,?_⟩
      have hnone : ((List.range' 1 (nodes.length-1)).find? fun i => !s.seen.getD i false) = none := by
        refine List.find?_eq_none.mpr fun i hi => ?_
        rw [List.mem_range'_1] at hi
        have hmem : i ∈ []++(edges nodes).map fun e : ℕ × ℤ => e.2.toNat := by
          rw [List.nil_append,hfound]
          exact List.one_le_count_iff.mp (hcount i (by omega) (by omega)).ge
        simpa using (hmarks.seen i).mpr hmem
      rw [hnone]

end Viewer

/-! ### Parts of a list -/

/-- The places from `s` on before `e`. -/
def slice {α : Type} (l : List α) (s e : ℕ) : List α := (l.take e).drop s

section

variable {α : Type} {l : List α} {s m e : ℕ}

theorem slice_self (l : List α) (s : ℕ) : slice l s s = [] := by
  rw [slice,List.drop_eq_nil_iff]
  exact List.length_take_le s l

theorem slice_all (l : List α) : slice l 0 l.length = l := by
  rw [slice,List.drop_zero,List.take_length]

theorem slice_cons {a : α} (ha : l[s]? = some a) (h : s < e) : slice l s e = a::slice l (s+1) e := by
  have hget : (l.take e)[s]? = some a := by rw [List.getElem?_take_of_lt h,ha]
  obtain ⟨hlt,rfl⟩ := List.getElem?_eq_some_iff.mp hget
  exact (List.cons_getElem_drop_succ).symm

theorem slice_append (hm : s ≤ m) (he : m ≤ e) (hl : e ≤ l.length) : slice l s m++slice l m e = slice l s e := by
  have htake : l.take m = (l.take e).take m := by rw [List.take_take,Nat.min_eq_left he]
  rw [slice,slice,slice,htake,← List.drop_append_of_le_length (by simp; omega),List.take_append_drop]

theorem length_slice (hl : e ≤ l.length) : (slice l s e).length = e-s := by
  rw [slice,List.length_drop,List.length_take,Nat.min_eq_left hl]

/-- A list that stands in another from a place on. -/
theorem slice_split {a b c : List α} : slice (a++(b++c)) a.length (a.length+b.length) = b := by
  rw [slice,← List.append_assoc,List.take_left' (by simp),List.drop_left]

end

namespace Viewer

open Cert (FlatNode TreeShaped childrenAt)

/-! ### The walk of the viewer -/

theorem rebuild_drop (depth : List ℕ) (k i : ℕ) (nodes : List FlatNode) :
    rebuild depth (i+k) (nodes.drop k) = (rebuild depth i nodes).drop k := by
  induction k generalizing i nodes with
  | zero => rfl
  | succ k ih =>
    cases nodes with
    | nil => rfl
    | cons node nodes =>
      rw [List.drop_succ_cons,rebuild,List.drop_succ_cons,← ih,Nat.add_right_comm,Nat.add_assoc i k]

/-- A rebuilt node has the rebuilt nodes at the places of its children. -/
theorem rebuild_getElem? {nodes : List FlatNode} {depth : List ℕ} {i : ℕ} {node : FlatNode}
    (hi : nodes[i]? = some node) (hf : ∀ c ∈ node.children, (i : ℤ) < c) :
    (rebuild depth 0 nodes)[i]? = some (.entry i (depth.getD i 0) node
      ((childrenAt nodes i).filterMap ((rebuild depth 0 nodes)[·]?))) := by
  obtain ⟨hlt,rfl⟩ := List.getElem?_eq_some_iff.mp hi
  have hdrop := rebuild_drop depth i 0 nodes
  rw [← List.cons_getElem_drop_succ (h := hlt),Nat.zero_add,rebuild] at hdrop
  have hhead : (rebuild depth 0 nodes)[i]? = ((rebuild depth 0 nodes).drop i)[0]? := by
    rw [List.getElem?_drop,Nat.add_zero]
  rw [hhead,← hdrop,List.getElem?_cons_zero,Cert.childrenAt_some hi,List.filterMap_map]
  congr 2
  refine List.filterMap_congr fun c hc => ?_
  have hlater := rebuild_drop depth (i+1) 0 nodes
  rw [Nat.zero_add] at hlater
  rw [hlater,List.getElem?_drop]
  have := hf c hc
  exact congrArg _ (by omega)

/-- Trees that adjoin are walked in the order they are published in. -/
theorem visits_adjoin {nodes : List FlatNode} (depth : List ℕ)
    (hf : ∀ (i : ℕ) (node : FlatNode), nodes[i]? = some node → ∀ c ∈ node.children, (i : ℤ) < c)
    {s e : ℕ} {cs : List ℕ} (h : PreOrder.Adjoins (childrenAt nodes) s cs e) (he : e ≤ nodes.length) :
    (visitsAll (cs.filterMap ((rebuild depth 0 nodes)[·]?))).map (fun v => (v.node,v.index)) =
      slice nodes.zipIdx s e := by
  induction h with
  | nil => rw [slice_self]; rfl
  | @cons s m e cs first rest ih₁ ih₂ =>
    have h₁ := first.le
    have h₂ := rest.le
    have hs : nodes[s]? = some nodes[s] := List.getElem?_eq_getElem (by omega)
    have hzip : nodes.zipIdx[s]? = some (nodes[s],s) := by
      rw [List.getElem?_zipIdx,hs,Option.map_some,Nat.zero_add]
    rw [List.filterMap_cons,rebuild_getElem? hs (hf s _ hs),visitsAll,Entry.visits,List.map_append,
      List.map_cons,ih₁ (h₂.trans he),ih₂ he,← slice_append (by omega : s ≤ m) h₂ (by simpa using he),
      slice_cons hzip h₁]

end Viewer

namespace Cert

/-! ### The lists that are flattened trees -/

section

variable {nodes : List FlatNode}

/-- Trees that adjoin in a list are flattened to their part of it. -/
theorem exists_trees (hnat : ∀ node ∈ nodes, ∀ c ∈ node.children, 0 ≤ c) {s e : ℕ} {cs : List ℕ}
    (h : PreOrder.Adjoins (childrenAt nodes) s cs e) (he : e ≤ nodes.length) :
    ∃ trees, placeAll s trees = (cs,slice nodes s e) := by
  induction h with
  | nil => exact ⟨[],by rw [slice_self]; rfl⟩
  | @cons s m e cs first rest ih₁ ih₂ =>
    have h₁ := first.le
    have h₂ := rest.le
    obtain ⟨below,hbelow⟩ := ih₁ (h₂.trans he)
    obtain ⟨later,hlater⟩ := ih₂ he
    obtain ⟨node,hs⟩ : ∃ node, nodes[s]? = some node := ⟨_,List.getElem?_eq_getElem (by omega)⟩
    rw [childrenAt_some hs] at hbelow
    have hints : (node.children.map Int.toNat).map Int.ofNat = node.children := by
      rw [List.map_map]
      refine (List.map_congr_left fun c hc => ?_).trans (List.map_id _)
      exact Int.toNat_of_nonneg (hnat node (List.mem_of_getElem? hs) c hc)
    have hplace : (Node.node node.instanceId node.head node.kind node.evidence below node.valid).place s =
        slice nodes s m := by
      rw [Node.place,hbelow,slice_cons hs h₁]
      dsimp only
      rw [hints]
    refine ⟨.node node.instanceId node.head node.kind node.evidence below node.valid::later,?_⟩
    rw [placeAll,hplace,length_slice (h₂.trans he),Nat.add_sub_cancel' (by omega),hlater]
    dsimp only
    rw [slice_append (by omega) h₂ he]

mutual

/-- A flattened tree spans its part of the list. -/
theorem place_spans : ∀ (t : Node) (before after : List FlatNode),
    PreOrder.Spans (childrenAt (before++(t.place before.length++after))) before.length
      (before.length+(t.place before.length).length)
  | .node instanceId head kind evidence children valid, before, after => by
    have hbelow := placeAll_adjoins children (before++[⟨instanceId,head,kind,evidence,
      (placeAll (before.length+1) children).1.map Int.ofNat,valid⟩]) after
    rw [List.length_append,List.length_singleton,List.append_assoc,List.singleton_append,
      ← List.cons_append] at hbelow
    have hself : (before++((Node.node instanceId head kind evidence children valid).place before.length++after))[
        before.length]? = some ⟨instanceId,head,kind,evidence,
          (placeAll (before.length+1) children).1.map Int.ofNat,valid⟩ := by
      rw [List.getElem?_append_right le_rfl,Nat.sub_self]
      rfl
    rw [PreOrder.Spans,childrenAt_some hself,List.map_map]
    have hid : (placeAll (before.length+1) children).1.map (Int.toNat ∘ Int.ofNat) =
        (placeAll (before.length+1) children).1 := (List.map_congr_left fun _ _ => rfl).trans (List.map_id _)
    have hlength : before.length+((Node.node instanceId head kind evidence children valid).place
        before.length).length = before.length+1+(placeAll (before.length+1) children).2.length := by
      rw [Node.place]
      dsimp only
      rw [List.length_cons]
      omega
    rw [hid,hlength]
    exact hbelow

theorem placeAll_adjoins : ∀ (ts : List Node) (before after : List FlatNode),
    PreOrder.Adjoins (childrenAt (before++((placeAll before.length ts).2++after))) before.length
      (placeAll before.length ts).1 (before.length+(placeAll before.length ts).2.length)
  | [], before, after => .nil
  | t::ts, before, after => by
    have hfirst := place_spans t before ((placeAll (before.length+(t.place before.length).length) ts).2++after)
    have hrest := placeAll_adjoins ts (before++t.place before.length) after
    rw [List.length_append,List.append_assoc] at hrest
    rw [placeAll,List.length_append,List.append_assoc,← Nat.add_assoc]
    exact .cons hfirst hrest

end

mutual

theorem place_natural : ∀ (t : Node) (start : ℕ), ∀ node ∈ t.place start, ∀ c ∈ node.children, 0 ≤ c
  | .node instanceId head kind evidence children valid, start => by
    rw [Node.place]
    refine List.forall_mem_cons.mpr ⟨fun c hc => ?_,placeAll_natural children (start+1)⟩
    obtain ⟨n,-,rfl⟩ := List.mem_map.mp hc
    exact Int.natCast_nonneg n

theorem placeAll_natural : ∀ (ts : List Node) (start : ℕ), ∀ node ∈ (placeAll start ts).2,
    ∀ c ∈ node.children, 0 ≤ c
  | [], start => by simp [placeAll]
  | t::ts, start => by
    rw [placeAll]
    intro node hn
    rcases List.mem_append.mp hn with hn | hn
    · exact place_natural t start node hn
    · exact placeAll_natural ts _ node hn

end

/-- The flattened trees are the lists of that shape whose places are in pre-order. -/
theorem flatten_iff : (∃ t : Node, t.flatten = nodes) ↔
    TreeShaped nodes ∧ PreOrder.InOrder (childrenAt nodes) := by
  have hspans : PreOrder.Spans (childrenAt nodes) 0 nodes.length ↔ _ :=
    PreOrder.spans_iff fun _ => childrenAt_outside
  constructor
  · rintro ⟨t,rfl⟩
    have h := place_spans t [] []
    rw [List.nil_append,List.append_nil,List.length_nil,Nat.zero_add] at h
    obtain ⟨htree,horder⟩ := hspans.mp h
    exact ⟨treeShaped_iff.mpr ⟨htree,place_natural t 0⟩,horder⟩
  · rintro ⟨hshape,horder⟩
    obtain ⟨htree,hnat⟩ := treeShaped_iff.mp hshape
    have h : PreOrder.Adjoins (childrenAt nodes) 0 [0] nodes.length := .cons (hspans.mpr ⟨htree,horder⟩) .nil
    obtain ⟨trees,htrees⟩ := exists_trees hnat h le_rfl
    rw [slice_all] at htrees
    match trees, htrees with
    | [], htrees => cases htrees
    | [t], htrees =>
      rw [placeAll,placeAll,Prod.mk.injEq,List.append_nil] at htrees
      exact ⟨t,htrees.2⟩
    | t::u::ts, htrees =>
      rw [placeAll,placeAll,Prod.mk.injEq,List.cons.injEq] at htrees
      cases htrees.1.2

end

/-! ### The grammar -/

/-- The two readers accept the same lists, the flattened trees, and the viewer's walk of one visits
the nodes in the published order. -/
def PreOrderGrammar (nodes : List FlatNode) : Prop :=
  ((∃ children, Checker.checkFlatTree (.list (nodes.map FlatNode.toJson)) = .ok children) ↔
    ∃ parents, Viewer.checkNodeList nodes = .ok parents) ∧
  ((∃ children, Checker.checkFlatTree (.list (nodes.map FlatNode.toJson)) = .ok children) ↔
    ∃ t : Node, t.flatten = nodes) ∧
  ((∃ children, Checker.checkFlatTree (.list (nodes.map FlatNode.toJson)) = .ok children) →
    ∃ visits, Viewer.preorder nodes = .ok visits ∧ visits.map (fun v => (v.node,v.index)) = nodes.zipIdx)

end Cert

namespace Viewer

open Cert (FlatNode TreeShaped childrenAt)

theorem preorder_inOrder {nodes : List FlatNode} (hs : TreeShaped nodes)
    (ho : PreOrder.InOrder (childrenAt nodes)) : ∃ visits, preorder nodes = .ok visits ∧
      visits.map (fun v => (v.node,v.index)) = nodes.zipIdx := by
  have hspans := (PreOrder.spans_iff (n := nodes.length) fun _ => Cert.childrenAt_outside).mpr
    ⟨(Cert.treeShaped_iff.mp hs).1,ho⟩
  obtain ⟨parents,hparents⟩ := (checkNodeList_accepts nodes).mpr hs
  have hdepth : ∃ depth, nodeDepths nodes = .ok depth := ⟨_,Runs.bind_ok.mpr ⟨parents,hparents,rfl⟩⟩
  obtain ⟨depth,hdepth⟩ := hdepth
  obtain ⟨root,hroot⟩ : ∃ root, nodes[0]? = some root :=
    ⟨_,List.getElem?_eq_getElem (List.length_pos_iff.mpr hs.nonempty)⟩
  have hf : ∀ (i : ℕ) (node : FlatNode), nodes[i]? = some node → ∀ c ∈ node.children, (i : ℤ) < c :=
    fun i node hi c hc => (hs.forward i node hi c hc).1
  have hbuilt : (rebuild depth 0 nodes)[0]? = _ := rebuild_getElem? hroot (hf 0 root hroot)
  have hvisits := visits_adjoin depth hf (.cons hspans .nil : PreOrder.Adjoins _ 0 [0] nodes.length) le_rfl
  rw [List.filterMap_cons,hbuilt,List.filterMap_nil,visitsAll,visitsAll,List.append_nil] at hvisits
  refine ⟨_,Runs.bind_ok.mpr ⟨_,Runs.bind_ok.mpr ⟨depth,hdepth,?_⟩,rfl⟩,hvisits.trans ?_⟩
  · cases hr : rebuild depth 0 nodes with
    | nil => rw [hr] at hbuilt; cases hbuilt
    | cons first later =>
      rw [hr] at hbuilt
      exact congrArg _ (Option.some.inj hbuilt)
  · conv_rhs => rw [← slice_all nodes.zipIdx,List.length_zipIdx]

end Viewer

namespace Cert

/-- The grammar is the pre-order exactly for the lists that no reader accepts and for those whose
places are in pre-order: each node's children ascend, and what comes right before a child is in the
tree of its parent. -/
theorem preOrderGrammar_iff (nodes : List FlatNode) :
    PreOrderGrammar nodes ↔ (TreeShaped nodes → PreOrder.InOrder (childrenAt nodes)) := by
  unfold PreOrderGrammar
  rw [checkFlatTree_accepts,Viewer.checkNodeList_accepts,flatten_iff]
  constructor
  · rintro ⟨-,hflat,-⟩ hs
    exact (hflat.mp hs).2
  · intro h
    exact ⟨Iff.rfl,⟨fun hs => ⟨hs,h hs⟩,fun hs => hs.1⟩,fun hs => Viewer.preorder_inOrder hs (h hs)⟩

/-- A root that names its second leaf first. -/
def leavesSwapped : List FlatNode := [
  ⟨"inst:root","fact:root",.ghost,[],[2,1],by decide⟩,⟨"inst:one","fact:one",.ghost,[],[],by decide⟩,
  ⟨"inst:two","fact:two",.ghost,[],[],by decide⟩]

/-- Both readers accept it, it is no flattened tree, and the walk is not in the published order. -/
theorem leavesSwapped_not_preOrder : ¬PreOrderGrammar leavesSwapped ∧
    (∃ children, Checker.checkFlatTree (.list (leavesSwapped.map FlatNode.toJson)) = .ok children) ∧
    (∃ parents, Viewer.checkNodeList leavesSwapped = .ok parents) ∧
    (Viewer.preorder leavesSwapped).map (·.map (·.index)) = .ok [0,2,1] := by
  have hchecker : ∃ children, Checker.checkFlatTree (.list (leavesSwapped.map FlatNode.toJson)) = .ok children :=
    ⟨[[2,1],[],[]],rfl⟩
  refine ⟨fun h => ?_,hchecker,⟨[-1,0,0],rfl⟩,rfl⟩
  have horder := (flatten_iff.mp (h.2.1.mp hchecker)).2.ascending 0
  have hzero : childrenAt leavesSwapped 0 = [2,1] := rfl
  rw [hzero] at horder
  simp at horder

end Cert

end Spectra
