import Spectra.CtlGuards
import Spectra.GuardRuns
import Spectra.SharedTable

/-! `spectra_vs.rules`, the bytes a rule's guards are hashed by: the data guard as a table of its
distinct nodes in postorder, then the terms of the blockers. -/
namespace Spectra

namespace Node

variable (normalize : String → String)

/-! ### Texts in normal form -/

mutual

/-- The node with every text in the form it is written in. -/
def mapText : Node → Node
  | .constBool v => .constBool v
  | .constInt v => .constInt v
  | .constDur v => .constDur v
  | .constSym t => .constSym (normalize t)
  | .field t => .field (normalize t)
  | .not c => .not c.mapText
  | .abs c => .abs c.mapText
  | .and cs => .and (mapTexts cs)
  | .or cs => .or (mapTexts cs)
  | .eq l r => .eq l.mapText r.mapText
  | .lt l r => .lt l.mapText r.mapText
  | .add l r => .add l.mapText r.mapText
  | .sub l r => .sub l.mapText r.mapText
  | .min l r => .min l.mapText r.mapText
  | .max l r => .max l.mapText r.mapText

def mapTexts : List Node → List Node
  | [] => []
  | c::cs => c.mapText::mapTexts cs

end

theorem mapTexts_eq (cs : List Node) : mapTexts normalize cs = cs.map (mapText normalize) := by
  induction cs with
  | nil => rfl
  | cons c cs ih => rw [mapTexts,ih,List.map_cons]

@[simp] theorem kind_mapText (n : Node) : (n.mapText normalize).kind = n.kind := by cases n <;> rfl

@[simp] theorem value_mapText (n : Node) : (n.mapText normalize).value = n.value := by cases n <;> rfl

@[simp] theorem children_mapText (n : Node) :
    (n.mapText normalize).children = n.children.map (mapText normalize) := by
  cases n <;> simp [mapText,children,mapTexts_eq]

/-- The text of a node depends on its kind and its own text. -/
theorem text_mapText {m n : Node} (hk : m.kind = n.kind) (ht : normalize m.text = normalize n.text) :
    (m.mapText normalize).text = (n.mapText normalize).text := by
  cases m <;> cases n <;> simp_all [mapText,text,kind]

/-- `Node.canonical_bytes`, of a node whose texts need not be in normal form. -/
def encoded (n : Node) : Fallible Bytes := (n.mapText normalize).canonicalBytes

theorem encoded_inj {m n : Node} {b : Bytes} (hm : encoded normalize m = .ok b)
    (hn : encoded normalize n = .ok b) : m.mapText normalize = n.mapText normalize :=
  canonicalBytes_inj hm hn

/-! ### The table of the nodes -/

/-- The distinct nodes in the order they are finished, and the place of each one's bytes. -/
structure Dag where
  order : List Node
  indexOf : List (Bytes × ℕ)

namespace Dag

def empty : Dag := ⟨[],[]⟩

/-- A node whose children are in the table. -/
def finish (dag : Dag) (current : Node) : Fallible Dag := do
  let key ← encoded normalize current
  if (Dict.get? dag.indexOf key).isSome then pure dag
  else pure ⟨dag.order++[current],Dict.set dag.indexOf key dag.order.length⟩

mutual

/-- The children, then the node. -/
def visit : Dag → Node → Fallible Dag
  | dag, .not c => do finish normalize (← visit dag c) (.not c)
  | dag, .abs c => do finish normalize (← visit dag c) (.abs c)
  | dag, .and cs => do finish normalize (← visitAll dag cs) (.and cs)
  | dag, .or cs => do finish normalize (← visitAll dag cs) (.or cs)
  | dag, .eq l r => do finish normalize (← visit (← visit dag l) r) (.eq l r)
  | dag, .lt l r => do finish normalize (← visit (← visit dag l) r) (.lt l r)
  | dag, .add l r => do finish normalize (← visit (← visit dag l) r) (.add l r)
  | dag, .sub l r => do finish normalize (← visit (← visit dag l) r) (.sub l r)
  | dag, .min l r => do finish normalize (← visit (← visit dag l) r) (.min l r)
  | dag, .max l r => do finish normalize (← visit (← visit dag l) r) (.max l r)
  | dag, .constBool v => finish normalize dag (.constBool v)
  | dag, .constInt v => finish normalize dag (.constInt v)
  | dag, .constDur v => finish normalize dag (.constDur v)
  | dag, .constSym t => finish normalize dag (.constSym t)
  | dag, .field t => finish normalize dag (.field t)

def visitAll : Dag → List Node → Fallible Dag
  | dag, [] => .ok dag
  | dag, c::cs => do visitAll (← visit dag c) cs

end

/-- The place of a node that is in the table. -/
def placeOf (dag : Dag) (n : Node) : Fallible ℕ := do
  let key ← encoded normalize n
  match Dict.get? dag.indexOf key with
  | some place => .ok place
  | none => .error ⟨.uncaught,"KeyError",n.kind⟩

/-- Kind, text and value of an entry, then the places of its children. -/
def entryBytes (dag : Dag) (entry : Node) : Fallible Bytes := Framing.concat [
  u8 entry.kindTag,utf8Text (normalize entry.text),i64 entry.value,.ok (leb128 entry.children.length),
  Framing.concat (entry.children.map fun child => do pure (leb128 (← placeOf normalize dag child)))]

end Dag

/-- `_encode_ast_dag`. -/
def encodeAstDag : Option Node → Fallible Bytes
  | none => .ok (leb128 0)
  | some node => do
    let dag ← Dag.visit normalize Dag.empty node
    Framing.concat (.ok (leb128 dag.order.length)::dag.order.map (dag.entryBytes normalize))

/-! ### The table while it is filled -/

namespace Dag

theorem visitAll_eq (dag : Dag) (cs : List Node) :
    visitAll normalize dag cs = cs.foldlM (visit normalize) dag := by
  induction cs generalizing dag with
  | nil => rfl
  | cons c cs ih =>
    rw [visitAll,List.foldlM_cons]
    exact bind_congr ih

theorem visit_eq (dag : Dag) (n : Node) : visit normalize dag n =
    n.children.foldlM (visit normalize) dag >>= fun dag => finish normalize dag n := by
  cases n <;> simp [visit,children,visitAll_eq]

variable {normalize} {dag dag' : Dag}

theorem placeOf_ok {n : Node} {place : ℕ} : placeOf normalize dag n = .ok place ↔
    ∃ key, encoded normalize n = .ok key ∧ Dict.get? dag.indexOf key = some place := by
  unfold placeOf
  rw [Runs.bind_ok]
  refine exists_congr fun key => and_congr_right fun _ => ?_
  cases Dict.get? dag.indexOf key <;> simp

variable (normalize) in
/-- A listed place is that of an entry with these bytes, and the children of an entry stand before it. -/
structure Sound (dag : Dag) : Prop where
  listed : ∀ {key place}, Dict.get? dag.indexOf key = some place →
    ∃ entry, dag.order[place]? = some entry ∧ encoded normalize entry = .ok key
  below : ∀ {place entry}, dag.order[place]? = some entry →
    ∀ child ∈ entry.children, ∃ earlier < place, placeOf normalize dag child = .ok earlier

variable (normalize) in
/-- The table has grown: what was listed stays, and what is new is smaller than the bound. -/
structure Grows (bound : ℕ) (dag dag' : Dag) : Prop where
  kept : ∀ {key place}, Dict.get? dag.indexOf key = some place → Dict.get? dag'.indexOf key = some place
  fresh : ∀ entry ∈ dag'.order, entry ∈ dag.order ∨ sizeOf (entry.mapText normalize) < bound

theorem Grows.refl (bound : ℕ) (dag : Dag) : Grows normalize bound dag dag := ⟨id,fun _ => .inl⟩

theorem Grows.trans {bound bound' : ℕ} {dag'' : Dag} (h : Grows normalize bound dag dag')
    (h' : Grows normalize bound' dag' dag'') (hb : bound ≤ bound') : Grows normalize bound' dag dag'' where
  kept hk := h'.kept (h.kept hk)
  fresh entry he := by
    rcases h'.fresh entry he with he | hlt
    · exact (h.fresh entry he).imp_right fun hlt => hlt.trans_le hb
    · exact .inr hlt

theorem Grows.placeOf {bound : ℕ} (h : Grows normalize bound dag dag') {n : Node} {place : ℕ}
    (hp : dag.placeOf normalize n = .ok place) : dag'.placeOf normalize n = .ok place := by
  obtain ⟨key,hkey,hget⟩ := placeOf_ok.mp hp
  exact placeOf_ok.mpr ⟨key,hkey,h.kept hget⟩

theorem Sound.placeOf_lt (h : Sound normalize dag) {n : Node} {place : ℕ}
    (hp : dag.placeOf normalize n = .ok place) : place < dag.order.length := by
  obtain ⟨key,-,hget⟩ := placeOf_ok.mp hp
  obtain ⟨entry,he,-⟩ := h.listed hget
  exact (List.getElem?_eq_some_iff.mp he).1

theorem sound_empty : Sound normalize empty where
  listed h := by cases h
  below h := by cases h

/-- A node whose bytes are new goes to the end of the table. -/
theorem Sound.append (hs : Sound normalize dag) {n : Node} {key : Bytes} (hkey : encoded normalize n = .ok key)
    (hnew : Dict.get? dag.indexOf key = none)
    (hc : ∀ c ∈ n.children, ∃ place, dag.placeOf normalize c = .ok place) :
    Sound normalize ⟨dag.order++[n],Dict.set dag.indexOf key dag.order.length⟩ ∧
    Grows normalize (sizeOf (n.mapText normalize)+1) dag
      ⟨dag.order++[n],Dict.set dag.indexOf key dag.order.length⟩ := by
  have hgrows : Grows normalize (sizeOf (n.mapText normalize)+1) dag
      ⟨dag.order++[n],Dict.set dag.indexOf key dag.order.length⟩ := by
    constructor
    · intro key' place hget
      have hne : key ≠ key' := fun h => by rw [h,hget] at hnew; cases hnew
      simpa only [Dict.get?_set,if_neg hne] using hget
    · intro entry he
      rcases List.mem_append.mp he with he | he
      · exact .inl he
      · rw [List.mem_singleton.mp he]
        exact .inr (Nat.lt_succ_self _)
  refine ⟨⟨fun {key' place} hget => ?_,fun {place entry} he c hchild => ?_⟩,hgrows⟩
  · simp only [Dict.get?_set] at hget
    split_ifs at hget with hk
    · cases hget
      exact ⟨n,by simp,hk ▸ hkey⟩
    · obtain ⟨entry,he,henc⟩ := hs.listed hget
      exact ⟨entry,by rw [List.getElem?_append_left (List.getElem?_eq_some_iff.mp he).1,he],henc⟩
  · rcases lt_trichotomy place dag.order.length with hlt | rfl | hgt
    · rw [List.getElem?_append_left hlt] at he
      obtain ⟨earlier,hlt',hplace⟩ := hs.below he c hchild
      exact ⟨earlier,hlt',hgrows.placeOf hplace⟩
    · rw [List.getElem?_append_right le_rfl,Nat.sub_self] at he
      obtain rfl := Option.some.inj he
      obtain ⟨earlier,hplace⟩ := hc c hchild
      exact ⟨earlier,hs.placeOf_lt hplace,hgrows.placeOf hplace⟩
    · rw [List.getElem?_eq_none (by simpa using hgt)] at he
      cases he

theorem finish_ok {n : Node} (h : finish normalize dag n = .ok dag') (hs : Sound normalize dag)
    (hc : ∀ c ∈ n.children, ∃ place, dag.placeOf normalize c = .ok place) :
    Sound normalize dag' ∧ Grows normalize (sizeOf (n.mapText normalize)+1) dag dag' ∧
      ∃ place, dag'.placeOf normalize n = .ok place := by
  unfold finish at h
  obtain ⟨key,hkey,h⟩ := Runs.bind_ok.mp h
  cases hget : Dict.get? dag.indexOf key with
  | some place =>
    rw [hget] at h
    obtain rfl := Runs.pure_ok.mp h
    exact ⟨hs,.refl _ _,place,placeOf_ok.mpr ⟨key,hkey,hget⟩⟩
  | none =>
    rw [hget] at h
    obtain rfl := Runs.pure_ok.mp h
    obtain ⟨hsound,hgrows⟩ := hs.append hkey hget hc
    exact ⟨hsound,hgrows,_,placeOf_ok.mpr ⟨key,hkey,Dict.get?_set_self _ _ _⟩⟩

/-- The nodes of a list in turn, each of which leaves a sound table that has its place. -/
theorem foldlM_visit_ok {cs : List Node} {bound : ℕ}
    (ih : ∀ c ∈ cs, ∀ {dag dag' : Dag}, visit normalize dag c = .ok dag' → Sound normalize dag →
      Sound normalize dag' ∧ Grows normalize bound dag dag' ∧ ∃ place, dag'.placeOf normalize c = .ok place)
    (h : cs.foldlM (visit normalize) dag = .ok dag') (hs : Sound normalize dag) :
    Sound normalize dag' ∧ Grows normalize bound dag dag' ∧
      ∀ c ∈ cs, ∃ place, dag'.placeOf normalize c = .ok place := by
  induction cs generalizing dag with
  | nil =>
    obtain rfl := Runs.pure_ok.mp h
    exact ⟨hs,.refl _ _,by simp⟩
  | cons c cs rest =>
    rw [List.foldlM_cons] at h
    obtain ⟨next,hc,h⟩ := Runs.bind_ok.mp h
    obtain ⟨hnext,hgrow,place,hplace⟩ := ih c (by simp) hc hs
    obtain ⟨hdone,hgrows,hplaces⟩ := rest (fun d hd => ih d (by simp [hd])) h hnext
    refine ⟨hdone,hgrow.trans hgrows le_rfl,fun d hd => ?_⟩
    rcases List.mem_cons.mp hd with rfl | hd
    · exact ⟨place,hgrows.placeOf hplace⟩
    · exact hplaces d hd

theorem size_child_mapText {n c : Node} (hc : c ∈ n.children) :
    sizeOf (c.mapText normalize) < sizeOf (n.mapText normalize) :=
  sizeOf_lt_of_mem_children (by rw [children_mapText]; exact List.mem_map_of_mem hc)

theorem Grows.of_child {n c : Node} (hc : c ∈ n.children)
    (h : Grows normalize (sizeOf (c.mapText normalize)+1) dag dag') :
    Grows normalize (sizeOf (n.mapText normalize)) dag dag' := h.trans (.refl _ _) (size_child_mapText hc)

theorem visit_ok (n : Node) : ∀ {dag dag' : Dag}, visit normalize dag n = .ok dag' → Sound normalize dag →
    Sound normalize dag' ∧ Grows normalize (sizeOf (n.mapText normalize)+1) dag dag' ∧
      ∃ place, dag'.placeOf normalize n = .ok place := by
  induction n using ofChildren with
  | step n ih =>
    intro dag dag' h hs
    rw [visit_eq] at h
    obtain ⟨under,hunder,h⟩ := Runs.bind_ok.mp h
    obtain ⟨hdone,hgrows,hplaces⟩ := foldlM_visit_ok (fun c hc {dag dag'} hv hs =>
      (ih c hc hv hs).imp_right (And.imp_left (Grows.of_child hc))) hunder hs
    obtain ⟨hsound,hgrow,hplace⟩ := finish_ok h hdone hplaces
    exact ⟨hsound,hgrows.trans hgrow (Nat.le_succ _),hplace⟩

/-- The root ends its table: what was there before it is smaller. -/
theorem visit_root {n : Node} (h : visit normalize empty n = .ok dag) :
    Sound normalize dag ∧ dag.order.getLast? = some n := by
  refine ⟨(visit_ok n h sound_empty).1,?_⟩
  rw [visit_eq] at h
  obtain ⟨under,hunder,h⟩ := Runs.bind_ok.mp h
  obtain ⟨hsound,hgrows,-⟩ := foldlM_visit_ok (fun c hc {dag dag'} hv hs =>
    (visit_ok c hv hs).imp_right (And.imp_left (Grows.of_child hc))) hunder sound_empty
  unfold finish at h
  obtain ⟨key,hkey,h⟩ := Runs.bind_ok.mp h
  cases hget : Dict.get? under.indexOf key with
  | some place =>
    obtain ⟨entry,he,henc⟩ := hsound.listed hget
    rcases hgrows.fresh entry (List.mem_of_getElem? he) with hmem | hlt
    · cases hmem
    · rw [encoded_inj normalize henc hkey] at hlt
      exact absurd hlt (lt_irrefl _)
  | none =>
    rw [hget] at h
    obtain rfl := Runs.pure_ok.mp h
    exact List.getLast?_concat

end Dag

/-! ### What the bytes say -/

/-- Kind, text and value of an entry. -/
def label (n : Node) : ℕ × String × ℤ := (n.kindTag,normalize n.text,n.value)

theorem coreKinds_kind (n : Node) : n.kind ∈ coreKinds := by cases n <;> simp [kind,coreKinds]

/-- A node in normal form is its label and its children. -/
theorem mapText_eq {m n : Node} (hl : label normalize m = label normalize n)
    (hc : m.children.map (mapText normalize) = n.children.map (mapText normalize)) :
    m.mapText normalize = n.mapText normalize := by
  simp only [label,kindTag,Prod.mk.injEq] at hl
  obtain ⟨hkind,htext,hvalue⟩ := hl
  have hk : m.kind = n.kind := (List.idxOf_inj (coreKinds_kind m)).mp hkind
  refine ext_parts (by simpa using hk) (text_mapText normalize hk htext) (by simpa using hvalue) ?_
  rw [children_mapText,children_mapText,hc]

/-- The bytes of an entry of which this is said. -/
def saidBytes (said : (ℕ × String × ℤ) × List ℕ) : Fallible Bytes := Framing.concat [
  u8 said.1.1,utf8Text said.1.2.1,i64 said.1.2.2,.ok (leb128Seq said.2)]

theorem leb128_framed : Framing.SelfDelimiting fun n : ℕ => (.ok (leb128 n) : Fallible Bytes) := by
  intro m n p q x y hp hq h
  obtain rfl := Except.ok.inj hp
  obtain rfl := Except.ok.inj hq
  exact leb128_selfDelimiting h

theorem concat_leb128 (places : List ℕ) :
    Framing.concat (places.map fun n => (.ok (leb128 n) : Fallible Bytes)) = .ok (places.flatMap leb128) := by
  induction places with
  | nil => rfl
  | cons n places ih => rw [List.map_cons,List.flatMap_cons,Framing.concat,ih]

theorem leb128Seq_framed : Framing.SelfDelimiting fun l : List ℕ => (.ok (leb128Seq l) : Fallible Bytes) := by
  have heq : (fun l : List ℕ => (.ok (leb128Seq l) : Fallible Bytes)) =
      Framing.counted (fun n => .ok (leb128 n)) fun n => .ok (leb128 n) := by
    funext l
    rw [Framing.counted,Framing.concat,concat_leb128]
    rfl
  exact heq ▸ leb128_framed.counted leb128_framed

theorem saidBytes_selfDelimiting : Framing.SelfDelimiting saidBytes := by
  rintro ⟨⟨tag,text,value⟩,places⟩ ⟨⟨tag',text',value'⟩,places'⟩ p q x y hp hq hxy
  unfold saidBytes at hp hq
  obtain ⟨htag,p,q,hp,hq,hxy⟩ := (uint_selfDelimiting "u8" 1).peel hp hq hxy
  obtain ⟨htext,p,q,hp,hq,hxy⟩ := utf8Text_selfDelimiting.peel hp hq hxy
  obtain ⟨hvalue,p,q,hp,hq,hxy⟩ := i64_selfDelimiting.peel hp hq hxy
  obtain ⟨hplaces,p,q,hp,hq,hxy⟩ := leb128Seq_framed.peel hp hq hxy
  obtain rfl := Except.ok.inj hp
  obtain rfl := Except.ok.inj hq
  dsimp only at htag htext hvalue hplaces
  rw [Int.ofNat_inj.mp htag,htext,hvalue,hplaces]
  exact ⟨rfl,hxy⟩

variable {normalize} {dag : Dag}

theorem concat_placeOf {cs : List Node} {b : Bytes}
    (h : Framing.concat (cs.map fun c => do pure (leb128 (← dag.placeOf normalize c))) = .ok b) :
    ∃ places, List.Forall₂ (fun c place => dag.placeOf normalize c = .ok place) cs places ∧
      b = places.flatMap leb128 := by
  induction cs generalizing b with
  | nil => exact ⟨[],.nil,(Except.ok.inj h).symm⟩
  | cons c cs ih =>
    obtain ⟨p,q,hp,hq,rfl⟩ := Framing.concat_cons.mp h
    obtain ⟨place,hplace,hp⟩ := Runs.bind_ok.mp hp
    obtain ⟨places,hplaces,rfl⟩ := ih hq
    exact ⟨place::places,.cons hplace hplaces,by rw [List.flatMap_cons,Runs.pure_ok.mp hp]⟩

/-- The bytes of an entry say its label and the places of its children. -/
theorem entryBytes_ok {entry : Node} {b : Bytes} (h : dag.entryBytes normalize entry = .ok b) :
    ∃ places, List.Forall₂ (fun c place => dag.placeOf normalize c = .ok place) entry.children places ∧
      saidBytes (label normalize entry,places) = .ok b := by
  unfold Dag.entryBytes at h
  obtain ⟨tag,_,htag,h₁,rfl⟩ := Framing.concat_cons.mp h
  obtain ⟨text,_,htext,h₂,rfl⟩ := Framing.concat_cons.mp h₁
  obtain ⟨value,_,hvalue,h₃,rfl⟩ := Framing.concat_cons.mp h₂
  obtain ⟨count,_,hcount,h₄,rfl⟩ := Framing.concat_cons.mp h₃
  obtain ⟨refs,_,hrefs,hnil,rfl⟩ := Framing.concat_cons.mp h₄
  obtain rfl := Except.ok.inj hnil
  obtain rfl := Except.ok.inj hcount
  obtain ⟨places,hplaces,rfl⟩ := concat_placeOf hrefs
  refine ⟨places,hplaces,?_⟩
  simp [saidBytes,label,Framing.concat,htag,htext,hvalue,leb128Seq,hplaces.length_eq]

/-- The places of the children of an entry stand for them. -/
theorem Dag.Sound.standsFor (hs : Dag.Sound normalize dag) {place : ℕ} {entry : Node}
    (he : dag.order[place]? = some entry) {child : Node} (hc : child ∈ entry.children) {earlier : ℕ}
    (hplace : dag.placeOf normalize child = .ok earlier) :
    SharedTable.StandsFor (mapText normalize) dag.order place child earlier := by
  obtain ⟨earlier',hlt,hplace'⟩ := hs.below he child hc
  obtain rfl := Except.ok.inj (hplace.symm.trans hplace')
  obtain ⟨key,hkey,hget⟩ := Dag.placeOf_ok.mp hplace
  obtain ⟨b,hb,henc⟩ := hs.listed hget
  exact ⟨hlt,b,hb,encoded_inj normalize henc hkey⟩

/-- The entries of a table, one after another. -/
theorem concat_entries (hs : Dag.Sound normalize dag) {b : Bytes}
    (h : Framing.concat (dag.order.map (dag.entryBytes normalize)) = .ok b) :
    ∃ entries, SharedTable.Described children (mapText normalize) (label normalize) dag.order entries ∧
      Framing.concat (entries.map saidBytes) = .ok b := by
  -- from any place of the table on
  suffices hfrom : ∀ (rest : List Node) (start : ℕ) (b : Bytes), dag.order.drop start = rest →
      Framing.concat (rest.map (dag.entryBytes normalize)) = .ok b →
      ∃ entries, List.Forall₂ (fun p said => SharedTable.Describes children (mapText normalize)
        (label normalize) dag.order p.2 p.1 said) (rest.zipIdx start) entries ∧
          Framing.concat (entries.map saidBytes) = .ok b from hfrom _ 0 b rfl h
  intro rest
  induction rest with
  | nil => exact fun start b _ h => ⟨[],.nil,h⟩
  | cons entry rest ih =>
    intro start b hdrop h
    obtain ⟨p,q,hp,hq,rfl⟩ := Framing.concat_cons.mp h
    have hentry : dag.order[start]? = some entry := by
      rw [← Nat.add_zero start,← List.getElem?_drop,hdrop]
      rfl
    obtain ⟨places,hplaces,hsaid⟩ := entryBytes_ok hp
    obtain ⟨entries,hall,hrest⟩ := ih (start+1) q (by rw [← List.drop_drop,hdrop]; rfl) hq
    refine ⟨(label normalize entry,places)::entries,.cons ⟨rfl,?_⟩ hall,
      Framing.concat_cons.mpr ⟨p,q,hsaid,hrest,rfl⟩⟩
    exact ((List.forall₂_and_left _ _).mpr ⟨fun _ hc => hc,hplaces⟩).imp fun _ _ h =>
      hs.standsFor hentry h.1 h.2

/-- The bytes of a guard say the entries of a table that ends with it. -/
theorem encodeAstDag_ok {guard : Option Node} {b : Bytes} (h : encodeAstDag normalize guard = .ok b) :
    ∃ (table : List Node) (entries : List ((ℕ × String × ℤ) × List ℕ)),
      SharedTable.Described children (mapText normalize) (label normalize) table entries ∧
      Framing.counted (fun n => .ok (leb128 n)) saidBytes entries = .ok b ∧ table.getLast? = guard := by
  cases guard with
  | none => exact ⟨[],[],.nil,by rw [← h]; simp [Framing.counted,Framing.concat,encodeAstDag],rfl⟩
  | some node =>
    obtain ⟨dag,hdag,h⟩ := Runs.bind_ok.mp h
    obtain ⟨hs,hlast⟩ := Dag.visit_root hdag
    obtain ⟨p,q,hp,hq,rfl⟩ := Framing.concat_cons.mp h
    obtain ⟨entries,hsaid,hentries⟩ := concat_entries hs hq
    refine ⟨dag.order,entries,hsaid,?_,hlast⟩
    have hlength : entries.length = dag.order.length := by
      rw [← hsaid.length_eq,List.length_zipIdx]
    exact Framing.concat_cons.mpr ⟨p,q,by rw [hlength]; exact hp,hentries,rfl⟩

/-- The bytes of a guard tell its normal form, also when more follows. -/
theorem encodeAstDag_tells {g h : Option Node} {p q x y : Bytes} (hp : encodeAstDag normalize g = .ok p)
    (hq : encodeAstDag normalize h = .ok q) (hxy : p++x = q++y) :
    g.map (mapText normalize) = h.map (mapText normalize) ∧ x = y := by
  obtain ⟨s,entries,hs,hbytes,rfl⟩ := encodeAstDag_ok hp
  obtain ⟨t,entries',ht,hbytes',rfl⟩ := encodeAstDag_ok hq
  obtain ⟨rfl,hrest⟩ := leb128_framed.counted saidBytes_selfDelimiting _ _ _ _ _ _ hbytes hbytes' hxy
  have hmap := hs.map_key ht fun a b => mapText_eq normalize
  rw [← List.getLast?_map,← List.getLast?_map,hmap]
  exact ⟨rfl,hrest⟩

end Node

/-- One demand of a term. -/
def demandBytes (demand : ControlId × ℕ) : Fallible Bytes :=
  Framing.concat [asciiText demand.1,u8 demand.2]

/-- `CompiledRule.guard_bytes`: the data guard, then the terms of the blockers. -/
def guardBytes (normalize : String → String) (guard : Option Node) (terms : List Demands) : Fallible Bytes :=
  Framing.concat [Node.encodeAstDag normalize guard,orderedSeq (orderedSeq demandBytes) terms]

theorem demandBytes_selfDelimiting : Framing.SelfDelimiting demandBytes := by
  rintro ⟨control,level⟩ ⟨control',level'⟩ p q x y hp hq hxy
  unfold demandBytes at hp hq
  obtain ⟨hcontrol,p,q,hp,hq,hxy⟩ := asciiText_selfDelimiting.peel hp hq hxy
  obtain ⟨hlevel,p,q,hp,hq,hxy⟩ := (uint_selfDelimiting "u8" 1).peel hp hq hxy
  obtain rfl := Except.ok.inj hp
  obtain rfl := Except.ok.inj hq
  dsimp only at hcontrol hlevel
  rw [hcontrol,Int.ofNat_inj.mp hlevel]
  exact ⟨rfl,hxy⟩

/-- Guards of one encoding are one guard up to the normal form of its texts, and their terms are equal. -/
theorem guardBytes_injective (normalize : String → String) {guard guard' : Option Node}
    {terms terms' : List Demands} {b : Bytes} (h : guardBytes normalize guard terms = .ok b)
    (h' : guardBytes normalize guard' terms' = .ok b) :
    guard.map (Node.mapText normalize) = guard'.map (Node.mapText normalize) ∧ terms = terms' := by
  obtain ⟨dag,rest,hdag,hrest,rfl⟩ := Framing.concat_cons.mp h
  obtain ⟨dag',rest',hdag',hrest',hb⟩ := Framing.concat_cons.mp h'
  obtain ⟨hguard,rfl⟩ := Node.encodeAstDag_tells hdag hdag' hb
  have hterms : Framing.SelfDelimiting (orderedSeq (orderedSeq demandBytes)) :=
    orderedSeq_selfDelimiting (orderedSeq_selfDelimiting demandBytes_selfDelimiting)
  exact ⟨hguard,(hterms.peel (x := []) hrest hrest' rfl).1⟩

/-- A composed and a decomposed letter. -/
def composing (s : String) : String := if s = "a.e\u0301" then "a.\u00e9" else s

/-- A guard with a comparison it uses twice. -/
def twice (field : String) : Node :=
  .and [.lt (.field field) (.constInt 3),.not (.or [.lt (.field field) (.constInt 3),.constBool 0])]

def lockedTerms : List Demands := [[("ctl:mfa",2)],[("ctl:lock",1),("ctl:mfa",1)]]

/-- The octets of the decomposed guard, which the composed one shares. -/
def twiceBytes := returned (guardBytes composing (some (twice "a.e\u0301")) lockedTerms)
  (fun bytes => decide (guardBytes composing (some (twice "a.\u00e9")) lockedTerms = .ok bytes)) (by decide +kernel)

theorem guardBytes_injective_twice :
    (some (twice "a.e\u0301")).map (Node.mapText composing) =
      (some (twice "a.\u00e9")).map (Node.mapText composing) ∧ lockedTerms = lockedTerms := by
  obtain ⟨bytes,hb,hsame⟩ := twiceBytes
  exact guardBytes_injective composing hb (of_decide_eq_true hsame)

end Spectra
