import Spectra.Admissible
import Spectra.CutProbe
import Spectra.Render

/-! The minimality labels of the emitter under the checker's O6b, O13 and O15: the published
table, cut and corridors read back as the ones of the search. -/
namespace Spectra
namespace Checker

/-! ### The published sections -/

def rowOf (a : ThresholdLiteral) : AtomRow := ⟨a.controlId,a.level,a.bit⟩

def tableRows (atoms : AtomTable) : List AtomRow := atoms.literals.map rowOf

def cutRows (cut : Cut) : List (ℕ × AtomRow) := cut.atoms.map fun a => (a.rank,rowOf a)

def corridorOf (c : Corridor) : PublishedCorridor := ⟨c.corridorId,c.atomRanks,c.mask⟩

def programText : ProgramKind → String
  | .pMin => "PMin"
  | .pMax => "PMax"

/-- `Psi.as_member`. -/
def psiSection (psi : Psi) : Json := .obj [("complete",.bool psi.complete),
  ("corridors",.list (psi.corridors.map fun c => corridorMember (corridorOf c))),
  ("program",.str (programText psi.program))]

/-- A body that publishes a search, some goals and the outcome of the probe. -/
structure Publishes (search : CutSearch) (tried : ExhaustiveProbe) (body : Json) : Prop where
  cut : body.item "cut" = .ok (cutMember (cutRows search.cut))
  psi : body.item "psi" = .ok (psiSection search.psi)
  goals : ∃ goals : List (FactHash × Bool), body.item "goals" = .ok (.list (goals.map goalMember))
  budgets : ∃ budgets, body.item "budgets" = .ok budgets ∧
    budgets.item "exhaustive_ran" = .ok (.bool tried.ran) ∧
    budgets.item "exhaustive_cuts_tested" = .ok (.int tried.cutsTested)

/-- Every control of the table is one: its id opens with `ctl:`. -/
def ControlIds (atoms : AtomTable) : Prop :=
  ∀ a ∈ atoms.literals, ∃ name : String, a.controlId = "ctl:"++name

/-! ### The table -/

theorem removePrefix_append (name : String) : removePrefix "ctl:" ("ctl:"++name) = name := by
  have hopen : hasPrefix "ctl:" ("ctl:"++name) = true := by
    rw [hasPrefix,octets_append,List.isPrefixOf_iff_prefix]
    exact List.prefix_append _ _
  have hlength : "ctl:".length = "ctl:".toList.length := String.length_toList.symm
  rw [removePrefix,if_pos hopen,String.toList_append,hlength,List.drop_left]
  exact String.ofList_toList

theorem prefix_lt_iff (s t : String) : "ctl:"++s < "ctl:"++t ↔ s < t := by
  have hcons : ∀ l m n : List Char, l++m < l++n ↔ m < n := by
    intro l m n
    induction l with
    | nil => simp
    | cons a l ih => simpa using ih
  rw [String.lt_iff_toList_lt,String.lt_iff_toList_lt,String.toList_append,String.toList_append]
  exact hcons _ _ _

section Table

variable {atoms : AtomTable} (hctl : ControlIds atoms)

include hctl in
/-- The checker's rank order is the order of the table. -/
theorem byRank_tableRows : (Atoms.ofRows (tableRows atoms)).byRank = tableRows atoms := by
  refine List.Pairwise.insertionSort_eq (List.pairwise_map.mpr ?_)
  have hasc := List.pairwise_map.mp atoms.ascending
  refine hasc.imp_of_mem fun {a b} ha hb hlt => ?_
  obtain ⟨s,hs⟩ := hctl a ha
  obtain ⟨t,ht⟩ := hctl b hb
  rw [Prod.Lex.toLex_lt_toLex] at hlt
  rw [Prod.Lex.toLex_le_toLex]
  simp only [rowOf,hs,ht,removePrefix_append] at hlt ⊢
  rcases hlt with hlt | ⟨heq,hlt⟩
  · exact .inl ((prefix_lt_iff s t).mp hlt)
  · refine .inr ⟨?_,by exact_mod_cast hlt.le⟩
    rw [← removePrefix_append s,heq,removePrefix_append]

include hctl in
theorem mem_byRank {r : AtomRow} : r ∈ (Atoms.ofRows (tableRows atoms)).byRank ↔
    ∃ a ∈ atoms.literals, rowOf a = r := by
  rw [byRank_tableRows hctl]
  exact List.mem_map

include hctl in
theorem getElem?_byRank {r : ℕ} : (Atoms.ofRows (tableRows atoms)).byRank[r]? =
    (atoms.literals[r]?).map rowOf := by
  rw [byRank_tableRows hctl,tableRows,List.getElem?_map]

include hctl in
/-- The table of bits holds every literal. -/
theorem bits_tableRows {a : ThresholdLiteral} (ha : a ∈ atoms.literals) :
    Dict.get? (Atoms.ofRows (tableRows atoms)).bits (a.controlId,(a.level : ℤ)) = some a.bit := by
  have hmem : rowOf a ∈ (Atoms.ofRows (tableRows atoms)).byRank := (mem_byRank hctl).mpr ⟨a,ha,rfl⟩
  obtain ⟨b,hb⟩ := Option.isSome_iff_exists.mp (Atoms.isSome_bits hmem)
  obtain ⟨a',ha',heq⟩ := (mem_byRank hctl).mp (Atoms.bits_mem hb)
  obtain ⟨hc,hl,hbit⟩ := AtomRow.mk.inj heq
  have : a' = a := AtomTable.literal_ext ha' ha hc (Int.ofNat_inj.mp hl)
  rw [this] at hbit
  rw [hbit]
  exact hb

include hctl in
/-- The levels of a control the table of bits holds up to a level. -/
theorem heldLevels (c : ControlId) (top : ℕ) (htop : top ≤ atoms.maxLevel c) :
    ((List.range' 1 top).map fun l : ℕ => (l : ℤ)).Perm
      (((((Atoms.ofRows (tableRows atoms)).bits.map (·.1)).filter fun k =>
        k.1 = c ∧ 1 ≤ k.2 ∧ k.2 ≤ (top : ℤ))).map (·.2)) := by
  have hkeys : ((Atoms.ofRows (tableRows atoms)).bits.map (·.1)).Nodup :=
    Dict.nodup_keys_foldl (f := fun r : AtomRow => (r.controlId,r.level))
      (v := fun _ r => r.bit) List.nodup_nil
  refine (List.perm_ext_iff_of_nodup ?_ ?_).mpr fun l => ?_
  · exact (List.nodup_range' (s := 1) (n := top)).map (f := fun l : ℕ => (l : ℤ)) fun a b h => Int.ofNat_inj.mp h
  · refine List.Nodup.map_on ?_ (hkeys.filter _)
    intro a ha b hb hab
    have ha := of_decide_eq_true (List.mem_filter.mp ha).2
    have hb := of_decide_eq_true (List.mem_filter.mp hb).2
    exact Prod.ext (ha.1.trans hb.1.symm) hab
  · simp only [List.mem_map,List.mem_range'_1,List.mem_filter,decide_eq_true_eq]
    constructor
    · rintro ⟨n,hn,rfl⟩
      obtain ⟨a,ha,rfl,rfl⟩ := AtomTable.exists_literal hn.1 (show n ≤ atoms.maxLevel c by omega)
      exact ⟨(a.controlId,(a.level : ℤ)),⟨⟨_,Dict.get?_mem (bits_tableRows hctl ha),rfl⟩,rfl,
        by simpa using hn.1,by simpa using Nat.lt_succ_iff.mp (by omega)⟩,rfl⟩
    · rintro ⟨⟨c',l'⟩,⟨⟨q,hq,hkey⟩,rfl,hlo,hhi⟩,rfl⟩
      refine ⟨l'.toNat,?_,by omega⟩
      omega

include hctl in
theorem controls_tableRows {c : ControlId} :
    c ∈ (Atoms.ofRows (tableRows atoms)).controls ↔ c ∈ atoms.controls := by
  rw [Atoms.controls,List.mem_toFinset,byRank_tableRows hctl,AtomTable.mem_controls]
  simp [tableRows,rowOf]

include hctl in
theorem length_controlLevels :
    (Atoms.ofRows (tableRows atoms)).controlLevels.length = atoms.controls.length := by
  have hperm : ((Atoms.ofRows (tableRows atoms)).controlLevels.map (·.1)).Perm atoms.controls :=
    (List.perm_ext_iff_of_nodup Atoms.nodup_controlLevels AtomTable.controls_nodup).mpr fun c =>
      Atoms.mem_controlLevels.trans (controls_tableRows hctl)
  simpa using hperm.length_eq

include hctl in
/-- The mask of a set of controls raised to their top; no row is lost in the table of bits. -/
theorem getLsbD_keptMask {T : Finset ControlId} {i : ℕ} :
    ((Atoms.ofRows (tableRows atoms)).keptMask T).getLsbD i = true ↔
      ∃ a ∈ atoms.literals, a.controlId ∈ T ∧ a.bit = i := by
  rw [Atoms.keptMask,getLsbD_maskOfRows]
  constructor
  · rintro ⟨r,hr,hi⟩
    obtain ⟨hr,-⟩ := List.mem_filter.mp hr
    obtain ⟨hr,hT⟩ := List.mem_filter.mp hr
    obtain ⟨a,ha,rfl⟩ := (mem_byRank hctl).mp hr
    exact ⟨a,ha,of_decide_eq_true hT,(getLsbD_bitMask.mp hi).2⟩
  · rintro ⟨a,ha,hT,rfl⟩
    refine ⟨rowOf a,List.mem_filter.mpr ⟨List.mem_filter.mpr ⟨(mem_byRank hctl).mpr ⟨a,ha,rfl⟩,
      decide_eq_true hT⟩,?_⟩,getLsbD_bitMask.mpr ⟨a.bitRange,rfl⟩⟩
    exact decide_eq_true (bits_tableRows hctl ha)

include hctl in
/-- The probe of a subset of the controls finds a bit for each of its levels. -/
theorem maskOfControls_tableRows (subset : List ControlId) :
    maskOfControls (Atoms.ofRows (tableRows atoms)) subset =
      .ok ((Atoms.ofRows (tableRows atoms)).keptMask subset.toFinset) := by
  have hlevels : ∀ (c : ControlId) (levels : List ℤ) (m : Mask),
      (∀ l ∈ levels, ∃ a ∈ atoms.literals, a.controlId = c ∧ (a.level : ℤ) = l) →
      ∃ m', levels.foldlM (fun mask level => do pure (mask |||
        bitMask (← (Atoms.ofRows (tableRows atoms)).bitOf c level))) m =
          Except.ok (ε := Raised) m' := by
    intro c levels
    induction levels with
    | nil => exact fun m _ => ⟨m,rfl⟩
    | cons l levels ih =>
      intro m h
      obtain ⟨a,ha,rfl,rfl⟩ := h l (by simp)
      obtain ⟨m',hm'⟩ := ih (m ||| bitMask a.bit) fun l hl => h l (by simp [hl])
      refine ⟨m',Runs.foldlM_cons_ok.mpr ⟨_,?_,hm'⟩⟩
      simp [Atoms.bitOf,bits_tableRows hctl ha,bind,Except.bind,pure,Except.pure]
  have hall : ∀ (l : List ControlId) (m : Mask), ∃ m', l.foldlM (fun mask control =>
      ((Atoms.ofRows (tableRows atoms)).levelsOf control).foldlM (fun mask level => do pure (mask |||
        bitMask (← (Atoms.ofRows (tableRows atoms)).bitOf control level))) mask) m =
          Except.ok (ε := Raised) m' := by
    intro l
    induction l with
    | nil => exact fun m => ⟨m,rfl⟩
    | cons c l ih =>
      intro m
      obtain ⟨u,hu⟩ := hlevels c ((Atoms.ofRows (tableRows atoms)).levelsOf c) m fun lv hlv => by
        obtain ⟨r,hr,hc,hl⟩ := Atoms.mem_levelsOf.mp hlv
        obtain ⟨a,ha,rfl⟩ := (mem_byRank hctl).mp hr
        exact ⟨a,ha,hc,hl⟩
      obtain ⟨m',hm'⟩ := ih u
      exact ⟨m',Runs.foldlM_cons_ok.mpr ⟨u,hu,hm'⟩⟩
  obtain ⟨m,hm⟩ := hall subset 0
  rw [← maskOfControls_ok hm]
  exact hm

end Table

/-! ### The cut and its corridors -/

theorem foldl_max_levels (n : ℕ) :
    ((List.range' 1 n).map fun l : ℕ => (l : ℤ)).foldl max 0 = n := by
  induction n with
  | zero => rfl
  | succ n ih => rw [List.range'_concat,List.map_append,List.foldl_append,ih]; simp; omega

theorem and_ne_zero {m s : Mask} :
    m &&& s ≠ 0 ↔ ∃ i, m.getLsbD i = true ∧ s.getLsbD i = true := by
  constructor
  · intro h
    by_contra hn
    push Not at hn
    refine h (BitVec.eq_of_getLsbD_eq_iff.mpr fun i _ => ?_)
    rw [BitVec.getLsbD_and]
    cases hm : m.getLsbD i
    · simp
    · simpa using hn i hm
  · rintro ⟨i,hm,hs⟩ h
    have := congrArg (·.getLsbD i) h
    simp [hm,hs] at this

theorem getLsbD_maskOfRanks {atoms : AtomTable} {ranks : List ℕ} {i : ℕ} :
    (atoms.maskOfRanks ranks).getLsbD i = true ↔ ∃ a ∈ atoms.literals, a.rank ∈ ranks ∧ a.bit = i := by
  rw [AtomTable.maskOfRanks,maskOf_getLsbD]
  constructor
  · rintro ⟨a,ha,rfl⟩
    obtain ⟨r,hr,hget⟩ := List.mem_filterMap.mp ha
    obtain ⟨hmem,rfl⟩ := atoms.getElem?_rank.mp hget
    exact ⟨a,hmem,hr,rfl⟩
  · rintro ⟨a,ha,hr,rfl⟩
    exact ⟨a,List.mem_filterMap.mpr ⟨a.rank,hr,atoms.getElem?_rank.mpr ⟨ha,rfl⟩⟩,rfl⟩

section Search

variable {D : Digest} {atoms : AtomTable} {p : ReachProgram} {search : CutSearch}
  {σ : Assignment atoms} {tried : ExhaustiveProbe} {body : Json}

/-- The cut as the checker reads it. -/
def publishedCut (search : CutSearch) : PublishedCut := PublishedCut.ofRows (cutRows search.cut)

theorem mask_publishedCut (hr : Renders atoms search.psi.clauses search.cut σ) :
    (publishedCut search).mask = σ.mask := by
  refine BitVec.eq_of_getLsbD_eq_iff.mpr fun i _ => Bool.eq_iff_iff.mpr ?_
  rw [publishedCut,PublishedCut.getLsbD_mask,Assignment.mask,maskOf_getLsbD,cutRows,hr.literals]
  simp only [List.mem_map,exists_exists_and_eq_and,rowOf,getLsbD_bitMask]
  refine exists_congr fun a => and_congr_right fun _ => ⟨fun h => h.2,?_⟩
  rintro rfl
  exact ⟨a.bitRange,rfl⟩

theorem length_publishedCut (hr : Renders atoms search.psi.clauses search.cut σ) :
    (publishedCut search).controls.length = search.cut.cardinality := by
  rw [publishedCut,PublishedCut.length_controls,hr.cardinality,Assignment.raised,
    ← AtomTable.literalsAt_controls,cutRows,hr.literals,List.map_map]
  rfl

section Cut

variable {cut : Cut} (hcut : cut.atoms = atoms.literalsAt σ.level)

include hcut

/-- The levels of a control in the published cut: all up to the one it is raised to. -/
theorem levels_cutRows (c : ControlId) : ((cutRows cut).filter (·.2.controlId = c)).map (·.2.level) =
    (List.range' 1 (σ.level c)).map fun l : ℕ => (l : ℤ) := by
  have hlevels := @AtomTable.literalsAt_levels atoms σ.level c
  rw [min_eq_right (σ.admissible c)] at hlevels
  rw [← hlevels,cutRows,hcut,List.filter_map,List.map_map,List.map_map]
  rfl

/-- The level a control is raised to is read back. -/
theorem level_publishedCut {c : ControlId} {top : ℤ}
    (h : (c,top) ∈ (PublishedCut.ofRows (cutRows cut)).controls) : top = σ.level c := by
  have hget := Dict.get?_of_mem PublishedCut.nodup_controls h
  have hmax := Dict.getD_foldl_max (f := fun p : ℕ × AtomRow => p.2.controlId)
    (v := fun p : ℕ × AtomRow => p.2.level) (l := cutRows cut) (d := []) (k := c)
  have htop : (Dict.get? (PublishedCut.ofRows (cutRows cut)).controls c).getD 0 = top := by
    rw [hget,Option.getD_some]
  rw [← htop]
  refine hmax.trans ?_
  rw [levels_cutRows hcut,Dict.get?_nil,Option.getD_none,foldl_max_levels]

/-- O6 reads the published cut. -/
theorem o6Cut_published (hctl : ControlIds atoms)
    (hbody : body.item "cut" = .ok (cutMember (cutRows cut))) :
    o6Cut body (Atoms.ofRows (tableRows atoms)) = .ok (PublishedCut.ofRows (cutRows cut)) := by
  have hmem : ∀ {a : ThresholdLiteral}, a ∈ cut.atoms ↔
      a ∈ atoms.literals ∧ a.level ≤ σ.level a.controlId := by
    intro a
    rw [hcut]; exact AtomTable.mem_literalsAt
  have hread : ∀ a ∈ cut.atoms, readCutEntry (Atoms.ofRows (tableRows atoms))
      (.obj [("bit",.int (rowOf a).bit),("control_id",.str (rowOf a).controlId),
        ("level",.int (rowOf a).level),("rank",.int a.rank)]) = .ok (a.rank,rowOf a) := by
    intro a ha
    have hrow : (Atoms.ofRows (tableRows atoms)).atRank (.int a.rank) = .ok (some (a.rank,rowOf a)) := by
      refine Runs.bind_ok.mpr ⟨(),rfl,?_⟩
      simp [Json.number?,getElem?_byRank hctl,atoms.getElem?_rank.mpr ⟨(hmem.mp ha).1,rfl⟩,pure,
        Except.pure]
    simp only [readCutEntry,Runs.bind_ok]
    refine ⟨_,rfl,_,rfl,_,rfl,_,rfl,_,hrow,?_⟩
    simp [Json.eq,Json.number?,require,bind,Except.bind,pure,Except.pure]
  have hascending : ((cutRows cut).map (·.1)).IsChain (· < ·) := by
    have hsub : ((cutRows cut).map (·.1)).Sublist (atoms.literals.map (·.rank)) := by
      rw [cutRows,List.map_map,hcut]
      exact List.filter_sublist.map _
    exact (atoms.ranks_ascending.sublist hsub).isChain
  have hclosed : ∀ q ∈ (PublishedCut.ofRows (cutRows cut)).controls,
      upwardClosed (Atoms.ofRows (tableRows atoms)) (cutRows cut) q = .ok () := by
    rintro ⟨c,top⟩ hq
    have htop := level_publishedCut hcut hq
    subst htop
    have hperm := heldLevels hctl c (σ.level c) (σ.admissible c)
    refine require_ok.mpr ?_
    rw [levels_cutRows hcut]
    exact List.Perm.eq_of_pairwise' (List.pairwise_insertionSort _ _)
      (List.pairwise_insertionSort _ _) ((List.perm_insertionSort _ _).trans (hperm.trans
        (List.perm_insertionSort _ _).symm))
  simp only [o6Cut,Runs.bind_ok,Runs.pure_ok,forEach_ok]
  refine ⟨_,Json.member_ok.mpr hbody,_,rfl,cutRows cut,?_,(),require_ok.mpr hascending,
    (),hclosed,rfl⟩
  rw [cutRows,List.map_map]
  exact mapM_ok.mpr (List.forall₂_map_left_iff.mpr (List.forall₂_map_right_iff.mpr
    (List.forall₂_same.mpr hread)))

end Cut

/-- The corridors of the search, as O13 reads them. -/
theorem corridors_psiSection (hbody : Publishes search tried body) :
    body.member "psi" = .ok (psiSection search.psi) ∧
      (psiSection search.psi).member "corridors" =
        .ok (.list (search.psi.corridors.map fun c => corridorMember (corridorOf c))) ∧
      (psiSection search.psi).member "program" = .ok (.str (programText search.psi.program)) :=
  ⟨Json.member_ok.mpr hbody.psi,rfl,rfl⟩

theorem masks_ok (corridors : List Corridor) :
    (corridors.map fun c => corridorMember (corridorOf c)).mapM
      (fun c => do maskText (← c.item "mask")) = Except.ok (ε := Raised) (corridors.map (·.mask)) := by
  refine mapM_ok.mpr (List.forall₂_map_left_iff.mpr (List.forall₂_map_right_iff.mpr
    (List.forall₂_same.mpr fun c _ => ?_)))
  exact Runs.bind_ok.mpr ⟨_,rfl,maskText_maskHex c.mask⟩

/-- Every clause is a corridor of the search, with the mask of its ranks. -/
theorem corridor_of_clause (hminted : Minted D atoms search.psi) {clause : Clause}
    (h : clause ∈ search.psi.clauses) : ∃ c ∈ search.psi.corridors, c.atomRanks.toFinset = clause ∧
      c.mask = atoms.maskOfRanks c.atomRanks := by
  obtain ⟨c,hc,rfl⟩ := List.mem_map.mp h
  exact ⟨c,hc,rfl,hminted.mask c hc⟩

/-- O6b: every raised control is at a level that some corridor needs. -/
theorem o6bLevels_published (hctl : ControlIds atoms)
    (hr : Renders atoms search.psi.clauses search.cut σ) (hminted : Minted D atoms search.psi)
    (hpsi : body.item "psi" = .ok (psiSection search.psi)) :
    o6bLevels body (Atoms.ofRows (tableRows atoms)) (publishedCut search) =
      .ok (search.psi.corridors.map (·.mask)) := by
  have hminimal : ∀ q ∈ (publishedCut search).controls,
      levelMinimal (Atoms.ofRows (tableRows atoms)) (publishedCut search)
        (search.psi.corridors.map (·.mask)) q = .ok () := by
    rintro ⟨c,top⟩ hq
    have htop := level_publishedCut hr.literals hq
    subst htop
    rw [levelMinimal]
    split
    · rfl
    · rename_i hlevel
      have hlevel : 1 < σ.level c := by simpa using hlevel
      obtain ⟨clause,hclause,honly⟩ := hr.lowest c hlevel
      obtain ⟨corridor,hcorridor,rfl,hmask⟩ := corridor_of_clause hminted hclause
      obtain ⟨a,ha,rfl,hal⟩ := AtomTable.exists_literal hlevel.le (σ.admissible c)
      have hbit : (Atoms.ofRows (tableRows atoms)).bitOf a.controlId (σ.level a.controlId : ℤ) =
          .ok a.bit := by
        rw [Atoms.bitOf,← hal,bits_tableRows hctl ha]
      refine Runs.bind_ok.mpr ⟨a.bit,hbit,require_ok.mpr ?_⟩
      rw [List.all_eq_true]
      intro hall
      -- the corridor meets the cut in the lowered literal only
      have hne := of_decide_eq_true (hall _ (List.mem_map_of_mem hcorridor))
      obtain ⟨i,hi,hlow⟩ := and_ne_zero.mp hne
      rw [hmask,getLsbD_maskOfRanks] at hi
      obtain ⟨b,hb,hrank,rfl⟩ := hi
      rw [BitVec.getLsbD_and,Bool.and_eq_true,mask_publishedCut hr,Assignment.mask_getLsbD] at hlow
      obtain ⟨⟨b',hb',hbl,hbe⟩,hcleared⟩ := hlow
      have hsame : b' = b := atoms.bits_inj hb' hb hbe
      subst hsame
      obtain ⟨hc,hl⟩ := honly b' hb (List.mem_toFinset.mpr hrank) hbl
      have hba : b' = a := AtomTable.literal_ext hb ha hc (hl.trans (by rw [hal]))
      subst hba
      simp [bitMask,b'.bitRange] at hcleared
  simp only [o6bLevels,Runs.bind_ok,Runs.pure_ok,forEach_ok]
  exact ⟨_,Json.member_ok.mpr hpsi,_,rfl,_,rfl,_,masks_ok _,(),hminimal,rfl⟩

theorem ascending_texts {l : List String} (h : l.Pairwise (· < ·)) :
    Json.ascending (l.map .str) = .ok () := by
  cases l with
  | nil => rfl
  | cons a l =>
    induction l generalizing a with
    | nil => rfl
    | cons b l ih =>
      rw [List.pairwise_cons] at h
      refine Runs.bind_ok.mpr ⟨_,rfl,Runs.bind_ok.mpr ⟨(),?_,ih b h.2⟩⟩
      simpa using h.1 b (by simp)

theorem ascending_ranks {l : List ℕ} (h : l.Pairwise (· < ·)) :
    Json.ascending (l.map fun r : ℕ => .int r) = .ok () := by
  cases l with
  | nil => rfl
  | cons a l =>
    induction l generalizing a with
    | nil => rfl
    | cons b l ih =>
      rw [List.pairwise_cons] at h
      refine Runs.bind_ok.mpr ⟨_,rfl,Runs.bind_ok.mpr ⟨(),?_,ih b h.2⟩⟩
      simpa using h.1 b (by simp)

/-- The mask O13 makes of the ranks of a corridor. -/
theorem expected_maskOfRanks (hctl : ControlIds atoms) (ranks : List ℕ) :
    ranks.foldl (fun mask r => mask ||| (((Atoms.ofRows (tableRows atoms)).byRank[r]?).elim 0
      fun row => bitMask row.bit)) 0 = atoms.maskOfRanks ranks := by
  have hfold : ∀ (l : List ℕ) (m : Mask), l.foldl (fun mask r => mask |||
      (((Atoms.ofRows (tableRows atoms)).byRank[r]?).elim 0 fun row => bitMask row.bit)) m =
        ((l.filterMap (atoms.literals[·]?)).map fun a => BitVec.twoPow 64 a.bit).foldl
          (fun mask term => mask ||| term) m := by
    intro l
    induction l with
    | nil => simp
    | cons r l ih =>
      intro m
      rw [List.foldl_cons,ih,getElem?_byRank hctl,List.filterMap_cons]
      cases atoms.literals[r]? <;> simp [rowOf,bitMask]
  exact hfold ranks 0

/-- O13: the corridors are read back, each hit by the cut. -/
theorem o13PsiHit_publishes {lib : Library} (hlib : lib.digestHex = D.digestHex)
    (hctl : ControlIds atoms) (hd : Database p atoms search.psi.clauses)
    (hr : Renders atoms search.psi.clauses search.cut σ) (hminted : Minted D atoms search.psi)
    (hbody : Publishes search tried body) :
    (∃ corridors, o13PsiHit lib body (Atoms.ofRows (tableRows atoms)) (publishedCut search) =
      .ok corridors) ↔ search.psi.program = .pMax := by
  obtain ⟨hpsi,hcorridors,hprogram⟩ := corridors_psiSection hbody
  have hread : ∀ c ∈ search.psi.corridors, readCorridor lib (Atoms.ofRows (tableRows atoms))
      (publishedCut search).mask (corridorMember (corridorOf c)) = .ok (corridorOf c) := by
    intro c hc
    have hclause : c.atomRanks.toFinset ∈ search.psi.clauses := List.mem_map_of_mem hc
    have hrank : ∀ r ∈ c.atomRanks, r < (Atoms.ofRows (tableRows atoms)).byRank.length := by
      intro r hrank
      obtain ⟨a,ha,rfl⟩ := hd.ranks _ hclause r (List.mem_toFinset.mpr hrank)
      rw [byRank_tableRows hctl,tableRows,List.length_map]
      exact atoms.rank_lt ha
    have hhit : c.mask &&& (publishedCut search).mask ≠ 0 := by
      obtain ⟨a,ha,hrank,hl⟩ := hr.hits _ hclause
      refine and_ne_zero.mpr ⟨a.bit,?_,?_⟩
      · rw [hminted.mask c hc,getLsbD_maskOfRanks]
        exact ⟨a,ha,List.mem_toFinset.mp hrank,rfl⟩
      · rw [mask_publishedCut hr,Assignment.mask_getLsbD]
        exact ⟨a,ha,hl,rfl⟩
    have hid : c.corridorId = "cor:"++lib.digestHex "cor" (leb128Seq c.atomRanks) 32 := by
      rw [hminted.corridorId c hc,Digest.mint,hlib]; rfl
    have hranks : (c.atomRanks.map fun r : ℕ => Json.int r).mapM leb128Field = .ok c.atomRanks := by
      refine mapM_ok.mpr (List.forall₂_map_left_iff.mpr (List.forall₂_same.mpr fun r _ => ?_))
      simp [leb128Field,Json.int?]
    simp only [readCorridor,Runs.bind_ok,Runs.pure_ok,require_ok]
    refine ⟨_,rfl,(),Runs.bind_ok.mpr ⟨_,rfl,ascending_ranks (hminted.ranks c hc)⟩,_,rfl,_,hranks,
      _,rfl,(),?_,(),hrank,_,rfl,_,maskText_maskHex c.mask,(),?_,(),hhit,?_⟩
    · simp [Json.eq,corridorOf,hid]
    · exact (hminted.mask c hc).trans (expected_maskOfRanks hctl _).symm
    · simp [corridorOf,← hid]
  constructor
  · rintro ⟨corridors,h⟩
    simp only [o13PsiHit,Runs.bind_ok] at h
    obtain ⟨psi,hpsi',program,hprogram',_,hreq,-⟩ := h
    cases hpsi.symm.trans hpsi'
    cases hprogram.symm.trans hprogram'
    have := Json.eq_str.mp (require_ok.mp hreq)
    cases hk : search.psi.program with
    | pMax => rfl
    | pMin => rw [hk] at this; simp [programText] at this
  · intro hk
    refine ⟨search.psi.corridors.map corridorOf,?_⟩
    simp only [o13PsiHit,Runs.bind_ok]
    refine ⟨_,hpsi,_,hprogram,(),by simp [hk,programText,Json.eq],_,hcorridors,_,rfl,
      search.psi.corridors.map fun c => .str c.corridorId,?_,(),?_,?_⟩
    · exact mapM_ok.mpr (List.forall₂_map_left_iff.mpr (List.forall₂_map_right_iff.mpr
        (List.forall₂_same.mpr fun c _ => rfl)))
    · have := ascending_texts hminted.ascending
      rwa [List.map_map] at this
    · exact mapM_ok.mpr (List.forall₂_map_left_iff.mpr (List.forall₂_map_right_iff.mpr
        (List.forall₂_same.mpr hread)))

/-- The probe of a subset smaller than the optimum misses a corridor. -/
theorem probe_publishes (hctl : ControlIds atoms) (hminted : Minted D atoms search.psi) {v : ℕ}
    (hopt : IsOptimum atoms search.psi.clauses [] v) (minimality : String)
    (instances : List Published) (goals : List Json) {subset : List ControlId}
    (hsub : ∀ c ∈ subset, c ∈ atoms.controls) (hlt : subset.toFinset.card < v) :
    probe minimality instances (Atoms.ofRows (tableRows atoms))
      (search.psi.corridors.map (·.mask)) goals subset = .ok () := by
  refine Runs.bind_ok.mpr ⟨_,maskOfControls_tableRows hctl subset,?_⟩
  rw [if_neg]
  · rfl
  · intro hall
    rw [List.all_map,List.all_eq_true] at hall
    have hmeets : ∀ c ∈ search.psi.corridors,
        c.mask &&& (Atoms.ofRows (tableRows atoms)).keptMask subset.toFinset ≠ 0 := fun c hc =>
      of_decide_eq_true (hall c hc)
    have hitting : HittingSet atoms search.psi.clauses subset.toFinset := by
      refine ⟨fun c hc => List.mem_toFinset.mpr (hsub c (List.mem_toFinset.mp hc)),
        fun clause hclause => ?_⟩
      obtain ⟨c,hc,rfl,hmask⟩ := corridor_of_clause hminted hclause
      obtain ⟨i,hi,hs⟩ := and_ne_zero.mp (hmeets c hc)
      rw [hmask,getLsbD_maskOfRanks] at hi
      rw [getLsbD_keptMask hctl] at hs
      obtain ⟨a,ha,hrank,rfl⟩ := hi
      obtain ⟨b,hb,hT,hbit⟩ := hs
      have : b = a := atoms.bits_inj hb ha hbit
      subst this
      exact ⟨b,hb,hT,List.mem_toFinset.mpr hrank⟩
    have := hopt.least _ hitting (by simp)
    omega

/-- O15 under a label that claims an optimum. -/
theorem o15Minimality_publishes (hctl : ControlIds atoms) (hminted : Minted D atoms search.psi)
    (hr : Renders atoms search.psi.clauses search.cut σ)
    (hopt : IsOptimum atoms search.psi.clauses [] search.cut.cardinality)
    (hbody : Publishes search tried body) {minimality : String}
    (hm : ¬(minimality = "SUBSET" ∨ minimality = "UNVERIFIED")) (instances : List Published) :
    o15Minimality body minimality instances (Atoms.ofRows (tableRows atoms)) (publishedCut search)
      (search.psi.corridors.map (·.mask)) = .ok () ↔ search.cut.cardinality = 0 ∨
        atoms.controls.length.choose (search.cut.cardinality-1) ≤ exhaustiveCutCap ∧
          (minimality = "EXACT_EXHAUSTIVE" → tried.ran = true ∧
            tried.cutsTested = atoms.controls.length.choose (search.cut.cardinality-1)) := by
  obtain ⟨goals,hgoals⟩ := hbody.goals
  obtain ⟨budgets,hbudgets,hran,htested⟩ := hbody.budgets
  have hlength : ((((Atoms.ofRows (tableRows atoms)).controlLevels.map (·.1)).insertionSort
      (· ≤ ·)).length) = atoms.controls.length := by
    rw [List.length_insertionSort,List.length_map,length_controlLevels hctl]
  have hkeys : (goals.map goalMember).mapM (·.item "goal_key") =
      Except.ok (ε := Raised) (goals.map fun g => .str g.1) :=
    mapM_ok.mpr (List.forall₂_map_left_iff.mpr (List.forall₂_map_right_iff.mpr
      (List.forall₂_same.mpr fun g _ => rfl)))
  simp only [o15Minimality]
  rw [if_neg hm,length_publishedCut hr]
  by_cases hzero : search.cut.cardinality = 0
  · rw [if_pos hzero]
    simp [hzero,pure,Except.pure]
  · rw [if_neg hzero,hlength]
    have hprobes : ∀ subset ∈ combinations (search.cut.cardinality-1)
        (((Atoms.ofRows (tableRows atoms)).controlLevels.map (·.1)).insertionSort (· ≤ ·)),
        probe minimality instances (Atoms.ofRows (tableRows atoms))
          (search.psi.corridors.map (·.mask)) (goals.map fun g => .str g.1) subset = .ok () := by
      intro subset hs
      obtain ⟨hsublist,hlen⟩ := mem_combinations.mp hs
      refine probe_publishes hctl hminted hopt minimality instances _ (fun c hc => ?_) ?_
      · have := List.mem_insertionSort _ |>.mp (hsublist.subset hc)
        exact (controls_tableRows hctl).mp (Atoms.mem_controlLevels.mp this)
      · have := List.toFinset_card_le (l := subset)
        omega
    by_cases hexhaustive : minimality = "EXACT_EXHAUSTIVE"
    · rw [if_pos hexhaustive]
      simp only [Runs.bind_ok,require_ok,forEach_ok,hzero,false_or]
      constructor
      · rintro ⟨_,hcap,b,hb,r,hr',_,htruthy,t,ht,_,heq,-⟩
        cases hbudgets.symm.trans hb
        cases hran.symm.trans (Json.member_ok.mp hr')
        cases htested.symm.trans ht
        refine ⟨hcap,fun _ => ⟨htruthy,?_⟩⟩
        simpa [Json.eq,Json.number?] using heq
      · rintro ⟨hcap,hexact⟩
        obtain ⟨hran',heq⟩ := hexact hexhaustive
        refine ⟨(),hcap,_,hbudgets,_,Json.member_ok.mpr hran,(),hran',_,htested,(),?_,_,hgoals,_,rfl,
          _,hkeys,hprobes⟩
        simp [Json.eq,Json.number?,heq]
    · rw [if_neg hexhaustive]
      simp only [Runs.bind_ok,require_ok,forEach_ok,hzero,false_or,hexhaustive,false_imp_iff,
        and_true]
      constructor
      · rintro ⟨_,hcap,-⟩
        exact hcap
      · exact fun hcap => ⟨(),hcap,_,hgoals,_,rfl,_,hkeys,hprobes⟩

end Search

/-- What the checker says of a published search: O6, O6b and O13 pass, O15 passes the label
relative to the corridors, and the exhaustive one when the probe ran and found no smaller cut. -/
structure LabelsAccepted (lib : Library) (atoms : AtomTable) (search : CutSearch)
    (tried : ExhaustiveProbe) (body : Json) (instances : List Published) : Prop where
  cut : o6Cut body (Atoms.ofRows (tableRows atoms)) = .ok (publishedCut search)
  levels : o6bLevels body (Atoms.ofRows (tableRows atoms)) (publishedCut search) =
    .ok (search.psi.corridors.map (·.mask))
  corridors : ∃ corridors,
    o13PsiHit lib body (Atoms.ofRows (tableRows atoms)) (publishedCut search) = .ok corridors
  relative : o15Minimality body "EXACT_PSI_RELATIVE" instances (Atoms.ofRows (tableRows atoms))
    (publishedCut search) (search.psi.corridors.map (·.mask)) = .ok ()
  exhaustive : tried.ran = true → tried.smallerFound = false →
    o15Minimality body "EXACT_EXHAUSTIVE" instances (Atoms.ofRows (tableRows atoms))
      (publishedCut search) (search.psi.corridors.map (·.mask)) = .ok ()

/-- The checker accepts the labels of an exact search exactly when the search is of `P_max` and
either the cut raises at most one control or the subsets one control smaller are within the cap
and, where the probe runs, every control has a single level. -/
theorem labels_accepted_iff {D : Digest} {lib : Library} (hlib : lib.digestHex = D.digestHex)
    {p : ReachProgram} {atoms : AtomTable} (hb : BlockersIn p atoms) (hctl : ControlIds atoms)
    {budget corridorCap combinationCap : ℤ} {search : CutSearch}
    (h : enumeratePsi D p atoms budget corridorCap = .ok search) (hsev : search.severs = true)
    (hm : search.minimality = .exactPsiRelative) {tried : ExhaustiveProbe}
    (ht : exhaustiveProbe p atoms search.cut.cardinality combinationCap = .ok tried) {body : Json}
    (hbody : Publishes search tried body) (instances : List Published) :
    LabelsAccepted lib atoms search tried body instances ↔ p.kind = .pMax ∧
      (search.cut.cardinality ≤ 1 ∨
        atoms.controls.length.choose (search.cut.cardinality-1) ≤ exhaustiveCutCap ∧
          (((smallerVectors atoms search.cut.cardinality).length : ℤ) ≤ combinationCap →
            ∀ c ∈ atoms.controls, atoms.maxLevel c = 1)) := by
  obtain ⟨search',hs,hsound⟩ := enumeratePsi_spec D hb budget corridorCap
  cases h.symm.trans hs
  have hminted := psiLoop_minted h
  obtain ⟨-,σ,hr,hopt⟩ := hsound.exact hm
  rw [← hr.cardinality] at hopt
  have h6 := o6Cut_published hr.literals hctl hbody.cut
  have h6b := o6bLevels_published hctl hr hminted hbody.psi
  have h13 := o13PsiHit_publishes hlib hctl hsound.database hr hminted hbody
  rw [hsound.program] at h13
  have h15 := o15Minimality_publishes hctl hminted hr hopt hbody
    (show ¬("EXACT_PSI_RELATIVE" = "SUBSET" ∨ "EXACT_PSI_RELATIVE" = "UNVERIFIED") by decide) instances
  have h15' := o15Minimality_publishes hctl hminted hr hopt hbody
    (show ¬("EXACT_EXHAUSTIVE" = "SUBSET" ∨ "EXACT_EXHAUSTIVE" = "UNVERIFIED") by decide) instances
  obtain ⟨tried',ht',hran,htested⟩ := exhaustiveProbe_ok p atoms search.cut.cardinality combinationCap
  cases ht.symm.trans ht'
  have hfound : tried.ran = true → tried.smallerFound = false := fun hrun =>
    exhaustiveProbe_exact hb h hsev hm (hran.mp hrun).1 combinationCap ht hrun
  have hcount : tried.ran = true → tried.cutsTested =
      LevelVectors.count (atoms.controls.map atoms.maxLevel) (search.cut.cardinality-1) :=
    fun hrun => (htested hrun).1.trans (length_smallerVectors _)
  have hle : search.cut.cardinality ≤ atoms.controls.length := by
    rw [hr.cardinality]
    exact (Finset.card_filter_le _ _).trans (List.toFinset_card_le _)
  have hchoose : 2 ≤ search.cut.cardinality →
      (LevelVectors.count (atoms.controls.map atoms.maxLevel) (search.cut.cardinality-1) =
        atoms.controls.length.choose (search.cut.cardinality-1) ↔
          ∀ c ∈ atoms.controls, atoms.maxLevel c = 1) := by
    intro htwo
    have htops : ∀ top ∈ atoms.controls.map atoms.maxLevel, 1 ≤ top := by
      simpa using fun c hc => AtomTable.maxLevel_pos hc
    have := LevelVectors.count_eq_choose_iff htops (k := search.cut.cardinality-1) (by omega)
      (by simp; omega)
    simpa using this
  constructor
  · intro hl
    refine ⟨h13.mp hl.corridors,?_⟩
    by_cases hone : search.cut.cardinality ≤ 1
    · exact .inl hone
    · obtain ⟨hcap,-⟩ := (h15.mp hl.relative).resolve_left (by omega)
      refine .inr ⟨hcap,fun hlen => ?_⟩
      have hrun := hran.mpr ⟨by omega,hlen⟩
      obtain ⟨-,hexact⟩ := (h15'.mp (hl.exhaustive hrun (hfound hrun))).resolve_left (by omega)
      exact (hchoose (by omega)).mp ((hcount hrun).symm.trans (hexact rfl).2)
  · rintro ⟨hk,hcond⟩
    refine ⟨h6,h6b,h13.mpr hk,h15.mpr ?_,fun hrun _ => h15'.mpr ?_⟩
    · rcases hcond with hone | ⟨hcap,-⟩
      · by_cases hzero : search.cut.cardinality = 0
        · exact .inl hzero
        · rw [show search.cut.cardinality-1 = 0 by omega,Nat.choose_zero_right]
          exact .inr ⟨by decide,fun hx => absurd hx (by decide)⟩
      · exact .inr ⟨hcap,fun hx => absurd hx (by decide)⟩
    · obtain ⟨hpos,hlen⟩ := hran.mp hrun
      rcases hcond with hone | ⟨hcap,hsingle⟩
      · have hcount := hcount hrun
        rw [show search.cut.cardinality-1 = 0 by omega,LevelVectors.count_zero] at hcount
        rw [show search.cut.cardinality-1 = 0 by omega,Nat.choose_zero_right]
        exact .inr ⟨by decide,fun _ => ⟨hrun,hcount⟩⟩
      · refine .inr ⟨hcap,fun _ => ⟨hrun,?_⟩⟩
        rw [hcount hrun]
        by_cases htwo : 2 ≤ search.cut.cardinality
        · exact (hchoose htwo).mpr (hsingle hlen)
        · rw [show search.cut.cardinality-1 = 0 by omega,LevelVectors.count_zero,
            Nat.choose_zero_right]

/-- The control `c` has two levels, `d` has one. -/
def twoLevels : AtomTable where
  literals := [⟨"ctl:c",1,0,0,level_one,bit_zero,rank_zero⟩,
    ⟨"ctl:c",2,1,1,level_two,bit_one,rank_one⟩,⟨"ctl:d",1,2,2,level_one,bit_two,rank_two⟩]
  valid := by decide

/-- Two steps to the goal, blocked by the first level of `c` and by `d`. -/
def twoSteps : ReachProgram where
  kind := .pMax
  instances := [⟨observedStep "in:1" "fh:g" ["fh:s"] 0,seedStep_valid⟩,
    ⟨observedStep "in:2" "fh:g" ["fh:s"] 2,by decide⟩]
  axioms := ["fh:s"]
  goal := "fh:g"
  goals := ["fh:g"]
  axiomEvidence := []
  valid := by decide

/-- A library under the digest of the search. -/
def spelledLibrary : Library := {standard [] [] with digestHex := Digest.spelled.digestHex}

def searchBody (search : CutSearch) (tried : ExhaustiveProbe) : Json := .obj [
  ("budgets",.obj [("exhaustive_cuts_tested",.int tried.cutsTested),
    ("exhaustive_ran",.bool tried.ran)]),("cut",cutMember (cutRows search.cut)),
  ("goals",.list [goalMember ("fh:g",false)]),("psi",psiSection search.psi)]

theorem publishes_searchBody (search : CutSearch) (tried : ExhaustiveProbe) :
    Publishes search tried (searchBody search tried) :=
  ⟨rfl,rfl,⟨[("fh:g",false)],rfl⟩,_,rfl,rfl,rfl⟩

theorem controlIds_twoLevels : ControlIds twoLevels := by
  simp only [ControlIds,twoLevels,List.forall_mem_cons,List.not_mem_nil,IsEmpty.forall_iff,
    implies_true,and_true]
  exact ⟨⟨"c",by decide⟩,⟨"c",by decide⟩,⟨"d",by decide⟩⟩

/-- The search of the two steps, its probe, and whether O15 passes the exhaustive label. -/
def twoStepsRun : Option (CutSearch × ExhaustiveProbe × Bool) := do
  let search ← (enumeratePsi Digest.spelled twoSteps twoLevels stepBudget corridorCapDefault).toOption
  let tried ← (exhaustiveProbe twoSteps twoLevels search.cut.cardinality
    exhaustiveCombinationCap).toOption
  pure (search,tried,(o15Minimality (searchBody search tried) "EXACT_EXHAUSTIVE" []
    (Atoms.ofRows (tableRows twoLevels)) (publishedCut search)
    (search.psi.corridors.map (·.mask))).toOption.isSome)

def twoStepsFound := found twoStepsRun (fun r => r.1.severs && r.1.minimality = .exactPsiRelative &&
  r.2.1.ran && !r.2.1.smallerFound && !r.2.2) (by decide +kernel)

theorem twoSteps_searched : ∃ search tried,
    enumeratePsi Digest.spelled twoSteps twoLevels stepBudget corridorCapDefault = .ok search ∧
    exhaustiveProbe twoSteps twoLevels search.cut.cardinality exhaustiveCombinationCap = .ok tried ∧
    search.severs = true ∧ search.minimality = .exactPsiRelative ∧ tried.ran = true ∧
    tried.smallerFound = false ∧ o15Minimality (searchBody search tried) "EXACT_EXHAUSTIVE" []
      (Atoms.ofRows (tableRows twoLevels)) (publishedCut search)
      (search.psi.corridors.map (·.mask)) ≠ .ok () := by
  obtain ⟨⟨search,tried,passes⟩,hrun,hq⟩ := twoStepsFound
  simp only [twoStepsRun,Option.bind_eq_bind,Option.bind_eq_some_iff,Option.pure_def,
    Option.some.injEq,Prod.mk.injEq] at hrun
  obtain ⟨search',hs,tried',ht,rfl,rfl,rfl⟩ := hrun
  simp only [Bool.and_eq_true,decide_eq_true_eq,Bool.not_eq_true'] at hq
  refine ⟨search',tried',Runs.toOption_some hs,Runs.toOption_some ht,hq.1.1.1.1,hq.1.1.1.2,hq.1.1.2,
    hq.1.2,fun hok => ?_⟩
  rw [hok] at hq
  exact absurd hq.2 (by simp [Except.toOption])

theorem labels_accepted_iff_twoSteps : ∃ search tried,
    enumeratePsi Digest.spelled twoSteps twoLevels stepBudget corridorCapDefault = .ok search ∧
    exhaustiveProbe twoSteps twoLevels search.cut.cardinality exhaustiveCombinationCap = .ok tried ∧
    (LabelsAccepted spelledLibrary twoLevels search tried (searchBody search tried) [] ↔
      twoSteps.kind = .pMax ∧ (search.cut.cardinality ≤ 1 ∨
        twoLevels.controls.length.choose (search.cut.cardinality-1) ≤ exhaustiveCutCap ∧
          (((smallerVectors twoLevels search.cut.cardinality).length : ℤ) ≤
            exhaustiveCombinationCap → ∀ c ∈ twoLevels.controls, twoLevels.maxLevel c = 1))) := by
  obtain ⟨search,tried,hs,ht,hsev,hm,-⟩ := twoSteps_searched
  exact ⟨search,tried,hs,ht,labels_accepted_iff rfl (by decide) controlIds_twoLevels hs hsev
    hm ht (publishes_searchBody search tried) []⟩

/-- Three cuts of one control are tested where the checker counts two. -/
theorem labels_rejected : ¬∀ (D : Digest) (lib : Library) (p : ReachProgram) (atoms : AtomTable)
    (search : CutSearch) (tried : ExhaustiveProbe) (body : Json) (instances : List Published),
    lib.digestHex = D.digestHex → BlockersIn p atoms → ControlIds atoms → p.kind = .pMax →
    enumeratePsi D p atoms stepBudget corridorCapDefault = .ok search → search.severs = true →
    search.minimality = .exactPsiRelative →
    exhaustiveProbe p atoms search.cut.cardinality exhaustiveCombinationCap = .ok tried →
    Publishes search tried body → LabelsAccepted lib atoms search tried body instances := by
  intro hall
  obtain ⟨search,tried,hs,ht,hsev,hm,hran,hfound,hreject⟩ := twoSteps_searched
  exact hreject ((hall Digest.spelled spelledLibrary twoSteps twoLevels search tried
    (searchBody search tried) [] rfl (by decide) controlIds_twoLevels rfl hs hsev hm ht
    (publishes_searchBody search tried)).exhaustive hran hfound)

end Checker

end Spectra
