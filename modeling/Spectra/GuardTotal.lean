import Spectra.GuardRuns

/-! When the canonicaliser of the data guards returns, and that what it returns it returns again. -/
namespace Spectra

namespace Node

open Junctions

/-! ### Guards whose constants fit -/

/-- The number and the text of a node have canonical octets. -/
def Fits (n : Node) : Prop := (-2^63 ≤ n.value ∧ n.value < 2^63) ∧ ∃ b, utf8Text n.text = .ok b

theorem fits_of_plain {n : Node} (ht : n.text = "") (hv : -2^63 ≤ n.value ∧ n.value < 2^63) : n.Fits :=
  ⟨hv,ht ▸ utf8Text_returns (t := "") rfl (by decide)⟩

theorem fits_junction (conj : Bool) (cs : List Node) : (junction conj cs).Fits := by
  cases conj <;> exact fits_of_plain rfl (by simp [junction,value])

theorem allFits_junction {conj : Bool} {cs : List Node} :
    All Fits (junction conj cs) ↔ ∀ c ∈ cs, All Fits c := by
  rw [All.iff_children,children_junction]
  exact and_iff_right (fits_junction conj cs)

theorem allFits_leaf {n : Node} (h : n.Fits) (hc : n.children = []) : All Fits n :=
  .intro h fun c hcm => by rw [hc] at hcm; cases hcm

theorem allFits_pair {n l r : Node} (h : n.Fits) (hc : n.children = [l,r]) (hl : All Fits l)
    (hr : All Fits r) : All Fits n := by
  refine .intro h fun c hcm => ?_
  rw [hc] at hcm
  rcases List.mem_pair.mp hcm with rfl | rfl
  · exact hl
  · exact hr

theorem allFits_signed {a : Node} (h : All Fits a) (neg : Bool) : All Fits (signed neg a) := by
  cases neg with
  | false => exact h
  | true =>
    change All Fits (.not a)
    refine .intro (fits_of_plain rfl (by simp [value])) fun c hc => ?_
    rw [List.mem_singleton.mp (show c ∈ [a] from hc)]
    exact h

theorem allFits_numberNode {dur : Bool} {v : ℤ} (h : -2^63 ≤ v ∧ v < 2^63) : All Fits (numberNode dur v) := by
  cases dur <;> exact allFits_leaf (fits_of_plain rfl h) rfl

theorem saturate_range (v : ℤ) : -2^63 ≤ saturate v ∧ saturate v < 2^63 := by
  unfold saturate
  split_ifs <;> omega

theorem number_value {n : Node} {p : Bool × ℤ} (h : n.number = some p) : n.value = p.2 := by
  cases n <;> simp_all [number] <;> subst h <;> rfl

theorem allFits_foldArith {build : Node → Node → Node} {op : ℤ → ℤ → ℤ} {l r : Node}
    (hb : (build l r).Fits) (hc : (build l r).children = [l,r])
    (hop : ∀ n m, (-2^63 ≤ n ∧ n < 2^63) → (-2^63 ≤ m ∧ m < 2^63) → -2^63 ≤ op n m ∧ op n m < 2^63)
    (hl : All Fits l) (hr : All Fits r) : All Fits (foldArith build op l r) := by
  unfold foldArith
  cases hln : l.number with
  | none => exact allFits_pair hb hc hl hr
  | some p =>
    cases hrn : r.number with
    | none => exact allFits_pair hb hc hl hr
    | some q =>
      refine allFits_numberNode (hop _ _ ?_ ?_)
      · exact number_value hln ▸ hl.here.1
      · exact number_value hrn ▸ hr.here.1

theorem allFits_normal [LinearOrder Node] {n : Node} (h : All Fits n) (neg : Bool) :
    All Fits (normal neg n) := by
  induction n using ofChildren generalizing neg with
  | step n ih =>
    have ih : ∀ c ∈ n.children, ∀ neg, All Fits (normal neg c) := fun c hc neg => ih c hc (h.child hc) neg
    have hplain : ∀ m : Node, m.text = "" → m.value = 0 → m.Fits :=
      fun m ht hv => fits_of_plain ht (by rw [hv]; norm_num)
    have hbool : ∀ b : ℤ, b = 0 ∨ b = 1 → All Fits (.constBool b) := by
      intro b hb
      refine allFits_leaf (fits_of_plain rfl ?_) rfl
      rcases hb with rfl | rfl <;> simp [value]
    have hjoin : ∀ conj cs, n = junction conj cs → All Fits (normal neg n) := by
      rintro conj cs rfl
      rw [normal_junction]
      refine Connective.forall_join (p := All Fits) ?_ ?_ (fun l => allFits_junction) fun d hd => ?_
      · exact hbool _ (by cases conj <;> cases neg <;> simp [identityOf])
      · exact hbool _ (by cases conj <;> cases neg <;> simp)
      · obtain ⟨c,hc,rfl⟩ := List.mem_map.mp hd
        exact ih c (by simpa using hc) neg
    cases n with
    | constBool v =>
      cases neg with
      | false => exact h
      | true =>
        refine hbool _ ?_
        by_cases hv : v = 0 <;> simp [hv]
    | not c => exact ih c (by simp [children]) _
    | and cs => exact hjoin true cs rfl
    | or cs => exact hjoin false cs rfl
    | constInt v | constDur v | constSym s | field s => exact allFits_signed h neg
    | eq l r | lt l r =>
      have hl := ih l (by simp [children]) false
      have hr := ih r (by simp [children]) false
      exact allFits_signed (allFits_pair (hplain _ rfl rfl) rfl hl hr) neg
    | add l r | sub l r =>
      have hl := ih l (by simp [children]) false
      have hr := ih r (by simp [children]) false
      exact allFits_signed (allFits_foldArith (hplain _ rfl rfl) rfl
        (fun n m _ _ => saturate_range _) hl hr) neg
    | min l r | max l r =>
      have hl := ih l (by simp [children]) false
      have hr := ih r (by simp [children]) false
      refine allFits_signed (allFits_foldArith (hplain _ rfl rfl) rfl (fun n m hn hm => ?_) hl hr) neg
      split_ifs
      · exact hm
      · exact hn
    | abs c =>
      have hc := ih c (by simp [children]) false
      refine allFits_signed ?_ neg
      unfold foldAbs
      split
      · exact allFits_numberNode (saturate_range _)
      · refine .intro (hplain _ rfl rfl) fun d hd => ?_
        rw [List.mem_singleton.mp (show d ∈ [normal false c] from hd)]
        exact hc

theorem asciiText_kind (n : Node) : ∃ b, asciiText n.kind = .ok b := by
  have hmem : n.kind ∈ coreKinds := by cases n <;> simp [kind,coreKinds]
  have hall : coreKinds.all fun k => (octets k).all (· < 128) && (octets k).length < 2^32 := by decide
  have hk := List.all_eq_true.mp hall n.kind hmem
  simp only [Bool.and_eq_true,List.all_eq_true,decide_eq_true_eq] at hk
  exact asciiText_returns hk.1 hk.2

theorem children_length_le (n : Node) : n.children.length ≤ n.size := by
  have hpos : ∀ m : Node, 1 ≤ weigh 1 m := weigh_pos le_rfl
  have hlen : ∀ cs : List Node, cs.length ≤ weighAll 1 cs := by
    intro cs
    induction cs with
    | nil => simp
    | cons c cs ih => have := hpos c; simp only [List.length_cons,weighAll]; omega
  cases n with
  | and cs => exact (hlen cs).trans (Nat.le_succ _)
  | or cs => exact (hlen cs).trans (Nat.le_succ _)
  | not c => exact (hpos c).trans (Nat.one_mul _).ge
  | abs c => exact Nat.succ_le_succ (Nat.zero_le _)
  | eq l r | lt l r | add l r | sub l r | min l r | max l r =>
    have := hpos l
    have := hpos r
    simp only [children,List.length_cons,List.length_nil,size,weigh]
    omega
  | _ => exact Nat.zero_le _

/-- A guard whose constants fit has canonical bytes. -/
theorem canonicalBytes_returns {n : Node} (h : All Fits n) (hs : n.size < 2^32) :
    ∃ b, n.canonicalBytes = .ok b := by
  induction n using ofChildren with
  | step n ih =>
    rw [canonicalBytes_eq]
    have hseq : ∃ b, orderedSeq canonicalBytes n.children = .ok b := by
      refine concat_returns fun e he => ?_
      rcases List.mem_cons.mp he with rfl | he
      · exact lengthCode_returns ((children_length_le n).trans_lt hs)
      · obtain ⟨c,hc,rfl⟩ := List.mem_map.mp he
        exact ih c hc (h.child hc) ((size_child hc).trans_lt hs)
    obtain ⟨k,hk⟩ := asciiText_kind n
    obtain ⟨t,ht⟩ := h.here.2
    obtain ⟨v,hv⟩ := i64_returns h.here.1
    obtain ⟨q,hq⟩ := hseq
    exact concat_returns (by simp [hk,ht,hv,hq])

/-! ### Returning -/

theorem combine_returns [LinearOrder Node] {conj : Bool} {cs : List Node}
    (h : ∀ a ∈ cs.flatMap (connective conj).operands, ∃ b, a.canonicalBytes = .ok b) :
    ∃ r, combine conj cs = .ok r := by
  rw [combine,kept_eq]
  split
  · exact ⟨_,rfl⟩
  · obtain ⟨keyed,hk⟩ : ∃ keyed, (cs.flatMap (connective conj).operands).mapM keyedBytes = .ok keyed := by
      refine mapM_returns fun a ha => ?_
      obtain ⟨b,hb⟩ := h a ha
      exact ⟨(a,b),keyedBytes_ok.mpr ⟨rfl,hb⟩⟩
    dsimp only
    rw [hk]
    generalize hsorted : ((dedupe [] keyed).insertionSort childLe).map (·.1) = s
    simp only [bind,Except.bind,hsorted]
    rcases s with _ | ⟨c,_ | ⟨_,_⟩⟩
    · exact ⟨_,rfl⟩
    · exact ⟨_,rfl⟩
    · exact ⟨_,rfl⟩

theorem binary_returns {x y : Fallible Node} {f : Node → Node → Node} (hx : ∃ a, x = .ok a)
    (hy : ∃ b, y = .ok b) : ∃ r, (do pure (f (← x) (← y)) : Fallible Node) = .ok r := by
  obtain ⟨a,rfl⟩ := hx
  obtain ⟨b,rfl⟩ := hy
  exact ⟨_,rfl⟩

/-- The canonicaliser returns when the constants fit. -/
theorem canonicaliseData_returns {n : Node} (ht : All TruthValue n) (hf : All Fits n)
    (hs : n.size < 2^32) : ∃ r, canonicaliseData n = .ok r := by
  obtain ⟨order,hord⟩ := exists_byBytes
  induction hw : n.weight using Nat.strong_induction_on generalizing n with
  | h w ih =>
    subst hw
    have hchild : ∀ c ∈ n.children, ∃ d, canonicaliseData c = .ok d := fun c hc =>
      ih c.weight (weight_child hc) (ht.child hc) (hf.child hc) ((size_child hc).trans_lt hs) rfl
    have hjoin : ∀ conj cs, n = junction conj cs → ∃ r, (cs.mapM canonicaliseData >>= combine conj) = .ok r := by
      rintro conj cs rfl
      obtain ⟨ds,hds⟩ := mapM_returns (f := canonicaliseData) (l := cs)
        fun c hc => hchild c (by simpa using hc)
      obtain rfl := (normalises_data hord).mapM (truthValue_operands.mp ht) hds
      rw [hds]
      refine combine_returns fun a ha => ?_
      obtain ⟨d,hd,ha⟩ := List.mem_flatMap.mp ha
      obtain ⟨c,hc,rfl⟩ := List.mem_map.mp hd
      have hc : c ∈ (junction conj cs).children := by simpa using hc
      have hfits := allFits_normal (hf.child hc) false
      have hsize := ((size_normal c false).trans (size_child hc)).trans_lt hs
      have hop := (List.mem_filter.mp ha).1
      cases hp : operandsOf conj (normal false c) with
      | none =>
        rw [connective_parts,hp,Option.getD_none,List.mem_singleton] at hop
        exact hop ▸ canonicalBytes_returns hfits hsize
      | some es =>
        rw [connective_parts,hp,Option.getD_some] at hop
        have he : normal false c = junction conj es := (connective conj).node_parts _ es hp
        have ha : a ∈ (normal false c).children := by rw [he]; simpa using hop
        exact canonicalBytes_returns (hfits.child ha) ((size_child ha).trans_lt hsize)
    rw [canonicaliseData_eq ht]
    cases n with
    | constBool v | constInt v | constDur v | constSym s | field s => exact ⟨_,rfl⟩
    | and cs => exact hjoin true cs rfl
    | or cs => exact hjoin false cs rfl
    | not c =>
      have hc : c ∈ (Node.not c).children := by simp [children]
      obtain ⟨d,hd⟩ := hchild c hc
      rw [canonicaliseBody,hd]
      obtain rfl := normalises_data hord c d (ht.child hc) hd
      have hred := (reduced_normal (ht.child hc) false).truthValue
      have hfits := allFits_normal (hf.child hc) false
      have hsize := ((size_normal c false).trans (size_child hc)).trans_lt hs
      have hweight := weight_normal c
      generalize normal false c = d at hred hfits hsize hweight
      rcases pushNot_cases d with ⟨conj,cs,rfl⟩ | ⟨r,hpush,_⟩
      · have hsame : (junction (!conj) (cs.map .not)).size = (junction conj cs).size := by
          rw [size,size,weigh_junction,weigh_junction,List.map_map]
          simp [Function.comp_def,weigh]
        change ∃ r, pushNot canonicaliseData (junction conj cs) = .ok r
        rw [pushNot_junction]
        exact ih _ (weight_deMorgan hweight) (hred.deMorgan truthValue_junction fun _ => trivial)
          (hfits.deMorgan fits_junction fun c => fits_of_plain rfl (by simp [value])) (hsame ▸ hsize) rfl
      · exact ⟨r,hpush _⟩
    | eq l r | lt l r | add l r | sub l r | min l r | max l r =>
      exact binary_returns (hchild l (by simp [children])) (hchild r (by simp [children]))
    | abs c =>
      obtain ⟨d,hd⟩ := hchild c (by simp [children])
      rw [canonicaliseBody,hd]
      exact ⟨_,rfl⟩

/-! ### Returning again -/

/-- The operands of a connective have canonical bytes. -/
def Encoded (n : Node) : Prop := ∀ conj cs, n = junction conj cs → ∀ c ∈ cs, ∃ b, c.canonicalBytes = .ok b

theorem encoded_of_ne {n : Node} (h : ∀ conj, operandsOf conj n = none) : n.Encoded := by
  rintro conj cs rfl
  have := h conj
  rw [operandsOf_junction] at this
  cases this

theorem allEncoded_numberNode (dur : Bool) (v : ℤ) : All Encoded (numberNode dur v) := by
  cases dur <;> exact .intro (encoded_of_ne fun _ => rfl) fun c hc => by cases hc

theorem allEncoded_pair {n l r : Node} (h : ∀ conj, operandsOf conj n = none) (hc : n.children = [l,r])
    (hl : All Encoded l) (hr : All Encoded r) : All Encoded n := by
  refine .intro (encoded_of_ne h) fun c hcm => ?_
  rw [hc] at hcm
  rcases List.mem_pair.mp hcm with rfl | rfl
  · exact hl
  · exact hr

theorem allEncoded_foldArith {build : Node → Node → Node} {op : ℤ → ℤ → ℤ} {l r : Node}
    (h : ∀ conj, operandsOf conj (build l r) = none) (hc : (build l r).children = [l,r])
    (hl : All Encoded l) (hr : All Encoded r) : All Encoded (foldArith build op l r) := by
  unfold foldArith
  split
  · exact allEncoded_numberNode _ _
  · exact allEncoded_pair h hc hl hr

/-- What the operands of a connective are combined into. -/
theorem combine_cases {conj : Bool} {ds : List Node} {r : Node} (h : combine conj ds = .ok r) :
    (∃ v, r = .constBool v) ∨ r ∈ ds.flatMap (fun c => (operandsOf conj c).getD [c]) ∨
      ∃ s, r = junction conj s ∧ ∀ c ∈ s, c ∈ ds.flatMap (fun c => (operandsOf conj c).getD [c]) ∧
        ∃ b, c.canonicalBytes = .ok b := by
  rw [combine] at h
  dsimp only at h
  split at h
  · exact Or.inl ⟨_,(Except.ok.inj h).symm⟩
  · obtain ⟨keyed,hk,h⟩ := Runs.bind_ok.mp h
    have hmem : ∀ c ∈ ((dedupe [] keyed).insertionSort childLe).map (·.1),
        c ∈ ds.flatMap (fun c => (operandsOf conj c).getD [c]) ∧ ∃ b, c.canonicalBytes = .ok b := by
      intro c hc
      obtain ⟨p,hp,rfl⟩ := List.mem_map.mp hc
      have hp := (mem_of_mem_dedupe ((List.perm_insertionSort childLe _).mem_iff.mp hp)).1
      obtain ⟨a,ha,hap⟩ := mapM_mem hk hp
      obtain ⟨rfl,hb⟩ := keyedBytes_ok.mp hap
      exact ⟨(List.mem_filter.mp ha).1,p.2,hb⟩
    generalize ((dedupe [] keyed).insertionSort childLe).map (·.1) = s at h hmem
    rcases s with _ | ⟨c,_ | ⟨b,s⟩⟩
    · exact Or.inl ⟨_,(Runs.pure_ok.mp h).symm⟩
    · obtain rfl := Runs.pure_ok.mp h
      exact Or.inr (Or.inl (hmem c (by simp)).1)
    · exact Or.inr (Or.inr ⟨_,(Runs.pure_ok.mp h).symm,hmem⟩)

/-- Every connective the canonicaliser returns has had the bytes of its operands taken. -/
theorem encoded_returned {n r : Node} (ht : All TruthValue n) (h : canonicaliseData n = .ok r) :
    All Encoded r := by
  obtain ⟨order,hord⟩ := exists_byBytes
  induction hw : n.weight using Nat.strong_induction_on generalizing n r with
  | h w ih =>
    subst hw
    have hchild : ∀ c ∈ n.children, ∀ d, canonicaliseData c = .ok d → All Encoded d := fun c hc d hd =>
      ih c.weight (weight_child hc) (ht.child hc) hd rfl
    have hjoin : ∀ conj cs, n = junction conj cs → (cs.mapM canonicaliseData >>= combine conj) = .ok r →
        All Encoded r := by
      rintro conj cs rfl h
      obtain ⟨ds,hds,h⟩ := Runs.bind_ok.mp h
      have hsub : ∀ a ∈ ds.flatMap (fun c => (operandsOf conj c).getD [c]), All Encoded a := by
        intro a ha
        obtain ⟨d,hd,ha⟩ := List.mem_flatMap.mp ha
        obtain ⟨c,hc,hcd⟩ := mapM_mem hds hd
        have hd := hchild c (by simpa using hc) d hcd
        cases hp : operandsOf conj d with
        | none => rw [hp] at ha; exact List.mem_singleton.mp ha ▸ hd
        | some es =>
          rw [hp] at ha
          obtain rfl : d = junction conj es := (connective conj).node_parts d es hp
          exact hd.child (by simpa using ha)
      rcases combine_cases h with ⟨v,rfl⟩ | hr | ⟨s,rfl,hs⟩
      · exact .intro (encoded_of_ne fun _ => rfl) fun c hc => by cases hc
      · exact hsub r hr
      · refine .intro ?_ fun c hc => hsub c (hs c (by simpa using hc)).1
        intro conj' cs' he c hc
        refine (hs c ?_).2
        have hch := congrArg children he
        rw [children_junction,children_junction] at hch
        exact hch ▸ hc
    rw [canonicaliseData_eq ht] at h
    cases n with
    | constBool v | constInt v | constDur v | constSym s | field s =>
      rw [← Except.ok.inj h]
      exact .intro (encoded_of_ne fun _ => rfl) fun c hc => by cases hc
    | and cs => exact hjoin true cs rfl h
    | or cs => exact hjoin false cs rfl h
    | not c =>
      obtain ⟨d,hd,h⟩ := Runs.bind_ok.mp h
      have hc : c ∈ (Node.not c).children := by simp [children]
      have henc := hchild c hc d hd
      obtain rfl := normalises_data hord c d (ht.child hc) hd
      have hred := (reduced_normal (ht.child hc) false).truthValue
      have hweight := weight_normal c
      generalize normal false c = d at h henc hred hweight
      rcases pushNot_cases d with ⟨conj,cs,rfl⟩ | ⟨s,hpush,hcase⟩
      · rw [pushNot_junction] at h
        exact ih _ (weight_deMorgan hweight) (hred.deMorgan truthValue_junction fun _ => trivial) h rfl
      · obtain rfl := Except.ok.inj ((hpush _).symm.trans h)
        rcases hcase with rfl | ⟨v,rfl,rfl⟩ | ⟨hl,rfl⟩
        · exact henc.child (by simp [children])
        · exact .intro (encoded_of_ne fun _ => rfl) fun c hc => by cases hc
        · refine .intro (encoded_of_ne fun _ => rfl) fun e he => ?_
          rw [List.mem_singleton.mp (show e ∈ [d] from he)]
          exact henc
    | eq l r' | lt l r' =>
      obtain ⟨d,hd,h⟩ := Runs.bind_ok.mp h
      obtain ⟨e,he,h⟩ := Runs.bind_ok.mp h
      rw [← Runs.pure_ok.mp h]
      exact allEncoded_pair (fun _ => rfl) rfl (hchild l (by simp [children]) d hd)
        (hchild r' (by simp [children]) e he)
    | add l r' | sub l r' | min l r' | max l r' =>
      obtain ⟨d,hd,h⟩ := Runs.bind_ok.mp h
      obtain ⟨e,he,h⟩ := Runs.bind_ok.mp h
      rw [← Runs.pure_ok.mp h]
      exact allEncoded_foldArith (fun _ => rfl) rfl (hchild l (by simp [children]) d hd)
        (hchild r' (by simp [children]) e he)
    | abs c =>
      obtain ⟨d,hd,h⟩ := Runs.bind_ok.mp h
      have henc := hchild c (by simp [children]) d hd
      rw [← Runs.pure_ok.mp h]
      unfold foldAbs
      split
      · exact allEncoded_numberNode _ _
      · refine .intro (encoded_of_ne fun _ => rfl) fun e he => ?_
        rw [List.mem_singleton.mp (show e ∈ [d] from he)]
        exact henc

/-- A reduced guard with encoded operands is canonicalised, to itself. -/
theorem canonicaliseData_self [LinearOrder Node] (hord : ByBytes) {n : Node} (hr : Reduced n)
    (he : All Encoded n) : canonicaliseData n = .ok n := by
  suffices hret : ∃ r, canonicaliseData n = .ok r by
    obtain ⟨r,h⟩ := hret
    rw [h,normalises_data hord n r hr.truthValue h,hr.normal_eq]
  induction n using ofChildren with
  | step n ih =>
    have hchild : ∀ c ∈ n.children, ∃ d, canonicaliseData c = .ok d := fun c hc =>
      ih c hc (hr.child hc) (he.child hc)
    have hjoin : ∀ conj cs, n = junction conj cs → ∃ r, (cs.mapM canonicaliseData >>= combine conj) = .ok r := by
      rintro conj cs rfl
      obtain ⟨ds,hds⟩ := mapM_returns (f := canonicaliseData) (l := cs)
        fun c hc => hchild c (by simpa using hc)
      have hself : cs.map (normal false) = cs := (List.map_congr_left fun c hc =>
        Reduced.normal_eq (hr.child (by simpa using hc))).trans (List.map_id _)
      obtain rfl := (normalises_data hord).mapM (truthValue_operands.mp hr.truthValue) hds
      rw [hds,hself]
      refine combine_returns fun a ha => ?_
      obtain ⟨c,hc,ha⟩ := List.mem_flatMap.mp ha
      have hleaf := ((settled_junction.mp hr.here).2.2 c hc).1
      have hop := (List.mem_filter.mp ha).1
      rw [connective_parts,hleaf,Option.getD_none,List.mem_singleton] at hop
      exact hop ▸ he.here conj cs rfl c hc
    rw [canonicaliseData_eq hr.truthValue]
    cases n with
    | constBool v | constInt v | constDur v | constSym s | field s => exact ⟨_,rfl⟩
    | and cs => exact hjoin true cs rfl
    | or cs => exact hjoin false cs rfl
    | not c =>
      obtain ⟨d,hd⟩ := hchild c (by simp [children])
      have hl : c.logical = false := hr.here
      have hc : Reduced c := hr.child (by simp [children])
      obtain rfl := normalises_data hord c d hc.truthValue hd
      rw [canonicaliseBody,hd]
      rcases pushNot_cases (normal false c) with ⟨conj,cs,hcs⟩ | ⟨s,hpush,_⟩
      · have := logical_normal hl
        rw [hcs] at this
        cases conj <;> cases this
      · exact ⟨s,hpush _⟩
    | eq l r | lt l r | add l r | sub l r | min l r | max l r =>
      exact binary_returns (hchild l (by simp [children])) (hchild r (by simp [children]))
    | abs c =>
      obtain ⟨d,hd⟩ := hchild c (by simp [children])
      rw [canonicaliseBody,hd]
      exact ⟨_,rfl⟩

/-- What the canonicaliser returned it returns again. -/
theorem canonicaliseData_again {n r : Node} (ht : All TruthValue n) (h : canonicaliseData n = .ok r) :
    canonicaliseData r = .ok r := by
  obtain ⟨order,hord⟩ := exists_byBytes
  have henc := encoded_returned ht h
  obtain rfl := normalises_data hord n r ht h
  exact canonicaliseData_self hord (reduced_normal ht false) henc

end Node

end Spectra
