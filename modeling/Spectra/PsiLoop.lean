import Spectra.CutExact

/-! The corridor loop never fails and its labels are true: every clause it learns is a
corridor of the program, so the optimum over the clauses bounds every severing cut. -/
namespace Spectra

variable {p : ReachProgram} {atoms : AtomTable} {clauses : List Clause}

/-- Every blocker bit of the program belongs to the atom table. -/
def BlockersIn (p : ReachProgram) (atoms : AtomTable) : Prop :=
  ∀ i ∈ p.instances, ∀ t ∈ i.blockers, t &&& maskOf atoms.literals = t

-- not through `∀ t`, which would enumerate the masks
instance (p : ReachProgram) (atoms : AtomTable) : Decidable (BlockersIn p atoms) :=
  decidable_of_iff ((p.instances.all fun i => i.blockers.all fun t =>
    t &&& maskOf atoms.literals = t) = true) (by simp [BlockersIn])

theorem BlockersIn.literal (h : BlockersIn p atoms) {i : RuleInstance} (hi : i ∈ p.instances)
    {t : Mask} (ht : t ∈ i.blockers) {b : ℕ} (hb : t.getLsbD b = true) :
    ∃ a ∈ atoms.literals, a.bit = b :=
  (maskOf_getLsbD _ _).mp (and_eq_iff.mp (h i hi t ht) b hb)

/-- What the loop keeps about its clauses: each names literals of the table and is hit by
every assignment that severs the program. -/
structure Database (p : ReachProgram) (atoms : AtomTable) (clauses : List Clause) : Prop where
  nodup : clauses.Nodup
  ranks : ∀ c ∈ clauses, ∀ r ∈ c, ∃ a ∈ atoms.literals, a.rank = r
  named : ∀ c ∈ clauses, ∃ a ∈ atoms.literals, a.rank ∈ c
  corridor : ∀ c ∈ clauses, ∀ σ : Assignment atoms, p.Severs σ.mask → σ.Hits c

theorem Database.nil : Database p atoms [] := ⟨by simp,by simp,by simp,by simp⟩

theorem Database.of_perm {clauses' : List Clause} (h : Database p atoms clauses)
    (hp : clauses.Perm clauses') : Database p atoms clauses' :=
  ⟨hp.nodup_iff.mp h.nodup,fun c hc => h.ranks c (hp.mem_iff.mpr hc),
    fun c hc => h.named c (hp.mem_iff.mpr hc),fun c hc => h.corridor c (hp.mem_iff.mpr hc)⟩

theorem Database.hitsAll (h : Database p atoms clauses) {σ : Assignment atoms}
    (hs : p.Severs σ.mask) : σ.HitsAll clauses := fun c hc => h.corridor c hc σ hs

theorem Database.feasible (h : Database p atoms clauses) :
    HittingSet atoms clauses atoms.controls.toFinset := by
  refine ⟨Finset.Subset.refl _,fun c hc => ?_⟩
  obtain ⟨a,ha,hr⟩ := h.named c hc
  exact ⟨a,ha,List.mem_toFinset.mpr (AtomTable.mem_controls.mpr ⟨a,ha,rfl⟩),hr⟩

/-! ### Publishing the clauses -/

theorem mem_ascendingRanks {c : Clause} {r : ℕ} : r ∈ ascendingRanks c ↔ r ∈ c := by
  simp only [ascendingRanks,List.mem_filter,List.mem_range,decide_eq_true_eq,and_iff_right_iff_imp]
  exact fun h => Nat.lt_succ_of_le (Finset.le_sup (f := id) h)

theorem ascendingRanks_toFinset (c : Clause) : (ascendingRanks c).toFinset = c := by
  ext r; rw [List.mem_toFinset,mem_ascendingRanks]

theorem corridorsOf_ok (D : Digest) (h : ∀ c ∈ clauses, ∀ r ∈ c, r < 65536) :
    corridorsOf D atoms clauses = .ok (clauses.map fun c =>
      ⟨D.mint "cor" (leb128Seq (ascendingRanks c)) 32,ascendingRanks c,
        atoms.maskOfRanks (ascendingRanks c)⟩) := by
  induction clauses with
  | nil => rfl
  | cons c clauses ih =>
    have hc : checks [checks ((ascendingRanks c).map fun rank =>
          ensure (rank < 65536) (widthError "u16")),
        checkStrictlyAscending "Corridor.atom_ranks" (ascendingRanks c)] = .ok () := by
      simp only [checks_cons,checks_nil,checks_map,ensure_ok,checkStrictlyAscending_ok,and_true]
      exact ⟨fun r hr => h c (by simp) r (mem_ascendingRanks.mp hr),
        List.pairwise_lt_range.filter _⟩
    simp only [corridorsOf,Corridor.mint,hc,ih fun d hd => h d (by simp [hd]),List.map_cons]

/-- A published search: its fields as given, its corridors a rearrangement of the clauses. -/
structure Published (p : ReachProgram) (clauses : List Clause) (cut : Cut)
    (minimality : Minimality) (complete severs : Bool) (search : CutSearch) : Prop where
  cut : search.cut = cut
  minimality : search.minimality = minimality
  complete : search.psi.complete = complete
  severs : search.severs = severs
  program : search.psi.program = p.kind
  corridors : search.psi.clauses.Perm clauses

theorem finish_ok (D : Digest) (hd : Database p atoms clauses) (cut : Cut)
    (minimality : Minimality) (complete severs : Bool) (witness : Option WitnessNode)
    (steps nodes : ℕ) (corridorCap : ℤ) (budgetExhausted capHit : Bool) :
    ∃ search, finish D p atoms clauses cut minimality complete severs witness steps nodes
        corridorCap budgetExhausted capHit = .ok search ∧
      Published p clauses cut minimality complete severs search := by
  unfold finish
  have hwidth : ∀ c ∈ clauses, ∀ r ∈ c, r < 65536 := by
    intro c hc r hr
    obtain ⟨a,-,rfl⟩ := hd.ranks c hc r hr
    exact a.rankRange
  rw [corridorsOf_ok D hwidth]
  dsimp only
  have hinj : Function.Injective fun c : Clause => D.mint "cor" (leb128Seq (ascendingRanks c)) 32 := by
    intro c d h
    have h := leb128Seq_injective (D.mint_injective "cor" 32 h)
    rw [← ascendingRanks_toFinset c,h,ascendingRanks_toFinset]
  have hperm := List.perm_insertionSort (fun a b : Corridor => a.corridorId ≤ b.corridorId)
    (clauses.map fun c => ⟨D.mint "cor" (leb128Seq (ascendingRanks c)) 32,ascendingRanks c,
        atoms.maskOfRanks (ascendingRanks c)⟩)
  have hasc : checkStrictlyAscending "Psi.corridors" ((List.insertionSort
      (fun a b : Corridor => a.corridorId ≤ b.corridorId) (clauses.map fun c =>
        ⟨D.mint "cor" (leb128Seq (ascendingRanks c)) 32,ascendingRanks c,
          atoms.maskOfRanks (ascendingRanks c)⟩)).map (·.corridorId)) = .ok () := by
    rw [checkStrictlyAscending_ok]
    have _ : Std.Total fun a b : Corridor => a.corridorId ≤ b.corridorId :=
      ⟨fun a b => le_total a.corridorId b.corridorId⟩
    have _ : IsTrans Corridor fun a b => a.corridorId ≤ b.corridorId :=
      ⟨fun _ _ _ => le_trans⟩
    have hle := List.pairwise_insertionSort (fun a b : Corridor => a.corridorId ≤ b.corridorId)
      (clauses.map fun c => ⟨D.mint "cor" (leb128Seq (ascendingRanks c)) 32,ascendingRanks c,
        atoms.maskOfRanks (ascendingRanks c)⟩)
    have hnd := (hperm.map (·.corridorId)).nodup_iff.mpr
      (by rw [List.map_map]; exact hd.nodup.map hinj)
    exact ((List.pairwise_map.mpr hle).and hnd).imp fun h => lt_of_le_of_ne h.1 h.2
  rw [hasc]
  refine ⟨_,rfl,rfl,rfl,rfl,rfl,rfl,?_⟩
  refine (hperm.map _).trans ?_
  rw [List.map_map]
  exact List.Perm.of_eq ((List.map_congr_left fun c _ => ascendingRanks_toFinset c).trans
    (List.map_id _))

/-! ### Turns -/

/-- What a search says about the program it was run on. -/
structure Sound (p : ReachProgram) (atoms : AtomTable) (search : CutSearch) : Prop where
  database : Database p atoms search.psi.clauses
  program : search.psi.program = p.kind
  severs : search.severs = true ↔ p.Severs search.cut.mask
  exact : search.minimality = .exactPsiRelative → search.severs = true ∧
    ∃ σ : Assignment atoms, Renders atoms search.psi.clauses search.cut σ ∧
      IsOptimum atoms search.psi.clauses [] σ.raised.card
  unverified : search.minimality = .unverified → ∃ g ∈ p.goals, ∀ s, p.Derives s g
  complete : search.psi.complete = true →
    search.minimality = .exactPsiRelative ∨ search.minimality = .unverified

theorem IsOptimum.of_perm {clauses' : List Clause} {excluded : List ControlId} {v : ℕ}
    (hp : clauses.Perm clauses') (h : IsOptimum atoms clauses excluded v) :
    IsOptimum atoms clauses' excluded v := by
  have hh : ∀ s, HittingSet atoms clauses s ↔ HittingSet atoms clauses' s := fun s =>
    and_congr_right fun _ => forall_congr' fun c => by rw [hp.mem_iff]
  obtain ⟨s,hs,he,hv⟩ := h.attained
  exact ⟨⟨s,(hh s).mp hs,he,hv⟩,fun s hs he => h.least s ((hh s).mpr hs) he⟩

theorem Renders.of_perm {clauses' : List Clause} {cut : Cut} {σ : Assignment atoms}
    (hp : clauses.Perm clauses') (h : Renders atoms clauses cut σ) : Renders atoms clauses' cut σ :=
  ⟨h.mask,h.cardinality,fun c hc => h.hits c (hp.mem_iff.mpr hc),h.literals,fun c hl =>
    let ⟨clause,hclause,honly⟩ := h.lowest c hl
    ⟨clause,hp.mem_iff.mp hclause,honly⟩⟩

theorem reach_derivable_iff {s : Mask} : (!(reach p s).derivable) = true ↔ p.Severs s := by
  rw [Bool.not_eq_true',reach_derivable]

theorem fallback_ok (D : Digest) (hd : Database p atoms clauses) (steps nodes : ℕ)
    (corridorCap : ℤ) (budgetExhausted capHit : Bool) :
    ∃ search, fallback D p atoms clauses steps nodes corridorCap budgetExhausted capHit =
      .ok search ∧ Sound p atoms search := by
  obtain ⟨cut,hcut,-⟩ := subsetMinimal_ok hd.named
  unfold fallback
  rw [hcut]
  dsimp only
  have htree : ∃ tree, (if (reach p cut.mask).derivable = true then
      (witnessTree p cut.mask (reach p cut.mask) none).map some else .ok none) = .ok tree := by
    split
    · rename_i h
      obtain ⟨tree,ht,-⟩ := witnessTree_spec h
      exact ⟨some tree,by rw [ht]; rfl⟩
    · exact ⟨none,rfl⟩
  obtain ⟨tree,ht⟩ := htree
  rw [ht]
  obtain ⟨search,hf,hp⟩ := finish_ok D hd cut .subset false (!(reach p cut.mask).derivable) tree
    (steps+(reach p cut.mask).steps) nodes corridorCap budgetExhausted capHit
  refine ⟨search,hf,hd.of_perm hp.corridors.symm,hp.program,?_,?_,?_,?_⟩
  · rw [hp.severs,hp.cut,reach_derivable_iff]
  · rw [hp.minimality]; exact nofun
  · rw [hp.minimality]; exact nofun
  · rw [hp.complete]; exact nofun

/-- A clause learned from a cut that hits the whole database extends the database. -/
theorem Database.learn (hd : Database p atoms clauses) (hb : BlockersIn p atoms) {cut : Cut}
    {σ : Assignment atoms} (hr : Renders atoms clauses cut σ) {mask : Mask}
    (hdis : ∀ b, mask.getLsbD b = true → cut.mask.getLsbD b = false ∧
      ∃ i ∈ p.instances, ∃ t ∈ i.blockers, t.getLsbD b = true)
    (hfail : ∃ g ∈ p.goals, ∀ s : Mask, (∀ b, mask.getLsbD b = true → s.getLsbD b = false) →
      p.Derives s g) (hne : mask ≠ 0) :
    (atoms.ranksOfMask mask).toFinset ∉ clauses ∧
      Database p atoms (clauses++[(atoms.ranksOfMask mask).toFinset]) := by
  have hmem : ∀ r, r ∈ (atoms.ranksOfMask mask).toFinset ↔
      ∃ a ∈ atoms.literals, mask.getLsbD a.bit = true ∧ a.rank = r := by
    intro r
    simp [AtomTable.ranksOfMask,and_assoc]
  have hfresh : (atoms.ranksOfMask mask).toFinset ∉ clauses := by
    intro hc
    obtain ⟨a,ha,hrank,hl⟩ := hr.hits _ hc
    obtain ⟨a',ha',hm,he⟩ := (hmem _).mp hrank
    rw [atoms.rank_inj ha' ha he] at hm
    have hcut := (hdis _ hm).1
    rw [hr.mask,Assignment.mask_getLsbD.mpr ⟨a,ha,hl,rfl⟩] at hcut
    cases hcut
  refine ⟨hfresh,?_,?_,?_,?_⟩
  · exact List.nodup_append.mpr ⟨hd.nodup,by simp,by
      rintro c hc _ hc' rfl
      exact hfresh (List.mem_singleton.mp hc' ▸ hc)⟩
  · intro c hc
    rcases List.mem_append.mp hc with hc | hc
    · exact hd.ranks c hc
    · rw [List.mem_singleton.mp hc]
      intro r hr
      obtain ⟨a,ha,-,hrank⟩ := (hmem r).mp hr
      exact ⟨a,ha,hrank⟩
  · intro c hc
    rcases List.mem_append.mp hc with hc | hc
    · exact hd.named c hc
    · rw [List.mem_singleton.mp hc]
      obtain ⟨b,hbit⟩ : ∃ b, mask.getLsbD b = true := by
        by_contra hno
        refine hne (BitVec.eq_of_getLsbD_eq fun i _ => ?_)
        rw [Bool.eq_false_iff.mpr fun h => hno ⟨i,h⟩]
        simp
      obtain ⟨i,hi,t,ht,htb⟩ := (hdis b hbit).2
      obtain ⟨a,ha,rfl⟩ := hb.literal hi ht htb
      exact ⟨a,ha,(hmem _).mpr ⟨a,ha,hbit,rfl⟩⟩
  · intro c hc
    rcases List.mem_append.mp hc with hc | hc
    · exact hd.corridor c hc
    · rw [List.mem_singleton.mp hc]
      intro τ hτ
      by_contra hmiss
      obtain ⟨g,hg,hder⟩ := hfail
      refine hτ g hg (hder _ fun b hbm => ?_)
      by_contra hset
      obtain ⟨a,ha,hl,rfl⟩ := Assignment.mask_getLsbD.mp (by simpa using hset)
      exact hmiss ⟨a,ha,(hmem _).mpr ⟨a,ha,hbm,rfl⟩,hl⟩

/-- One turn returns a sound search or learns a corridor; it never raises. -/
theorem psiTurn_spec (D : Digest) (hb : BlockersIn p atoms) (hd : Database p atoms clauses)
    (budget corridorCap : ℤ) (steps nodes : ℕ) :
    (∃ search, psiTurn D p atoms budget corridorCap clauses steps nodes = .ok (.returned search) ∧
      Sound p atoms search) ∨
    ∃ clause steps' nodes', psiTurn D p atoms budget corridorCap clauses steps nodes =
      .ok (.learned clause steps' nodes') ∧ Database p atoms (clauses++[clause]) := by
  have hexit : ∀ steps nodes b c, ∃ search,
      (fallback D p atoms clauses steps nodes corridorCap b c).map Turn.returned =
        .ok (.returned search) ∧ Sound p atoms search := by
    intro steps nodes b c
    obtain ⟨search,hf,hs⟩ := fallback_ok D hd steps nodes corridorCap b c
    exact ⟨search,by rw [hf]; rfl,hs⟩
  unfold psiTurn
  dsimp only
  rcases minCardinality_spec clauses atoms (budget-nodes) [] with h | ⟨-,h⟩ | ⟨h,v,hv,hopt⟩
  · rw [h]
    exact .inl (hexit _ _ _ _)
  · exact absurd (by simp) (h _ hd.feasible)
  · rw [h,hv]
    dsimp only
    rcases canonicalSelect_spec hopt .exactPsiRelative
      (budget-(nodes+(minCardinality clauses atoms (budget-nodes) []).nodes : ℕ)) with
      ⟨e,he,ht⟩ | ⟨cut,n,σ,hsel,hr,hcard,-⟩
    · rw [he]
      dsimp only
      rw [if_pos ht]
      exact .inl (hexit _ _ _ _)
    · rw [hsel]
      dsimp only
      split
      · -- severed: the optimum over the clauses is the cut's own cardinality
        rename_i hs
        rw [reach_derivable_iff] at hs
        obtain ⟨search,hf,hp⟩ := finish_ok D hd cut .exactPsiRelative true true none
          (steps+(reach p cut.mask).steps)
          (nodes+(minCardinality clauses atoms (budget-nodes) []).nodes+n) corridorCap false false
        refine .inl ⟨search,by rw [hf]; rfl,hd.of_perm hp.corridors.symm,hp.program,?_,?_,?_,?_⟩
        · simp [hp.severs,hp.cut,hs]
        · refine fun _ => ⟨hp.severs,σ,hp.cut ▸ hr.of_perm hp.corridors.symm,?_⟩
          rw [hcard]
          exact hopt.of_perm hp.corridors.symm
        · rw [hp.minimality]; exact nofun
        · exact fun _ => .inl hp.minimality
      · rename_i hs
        rw [reach_derivable_iff] at hs
        have hder : (reach p cut.mask).derivable = true := by
          by_contra hn
          exact hs (reach_derivable.mp (by simpa using hn))
        obtain ⟨tree,ht,hdis,hfail⟩ := witnessTree_spec hder
        rw [ht]
        dsimp only
        split
        · -- an unblockable derivation: no cut severs this goal
          rename_i hz
          obtain ⟨search,hf,hp⟩ := finish_ok D hd cut .unverified true false (some tree)
            (steps+(reach p cut.mask).steps)
            (nodes+(minCardinality clauses atoms (budget-nodes) []).nodes+n) corridorCap false false
          obtain ⟨g,hg,hder⟩ := hfail
          refine .inl ⟨search,by rw [hf]; rfl,hd.of_perm hp.corridors.symm,hp.program,?_,?_,?_,?_⟩
          · simp [hp.severs,hp.cut,hs]
          · rw [hp.minimality]; exact nofun
          · exact fun _ => ⟨g,hg,fun s => hder s fun b hb' => by simp [hz] at hb'⟩
          · exact fun _ => .inr hp.minimality
        · rename_i hz
          obtain ⟨hfresh,hd'⟩ := hd.learn hb hr hdis hfail hz
          rw [if_neg hfresh]
          exact .inr ⟨_,_,_,rfl,hd'⟩

/-- A run of the loop from a sound database ends in a sound search. -/
theorem psiLoop_spec (D : Digest) (hb : BlockersIn p atoms) (budget corridorCap : ℤ)
    {clauses : List Clause} (hd : Database p atoms clauses) (steps nodes : ℕ) :
    ∃ search, psiLoop D p atoms budget corridorCap clauses steps nodes = .ok search ∧
      Sound p atoms search := by
  induction hn : (corridorCap-clauses.length).toNat using Nat.strong_induction_on
    generalizing clauses steps nodes with
  | _ n ih =>
    rw [psiLoop]
    rcases psiTurn_spec D hb hd budget corridorCap steps nodes with
      ⟨search,ht,hs⟩ | ⟨clause,steps',nodes',ht,hd'⟩
    · rw [ht]
      exact ⟨search,rfl,hs⟩
    · rw [ht]
      dsimp only
      split
      · exact fallback_ok D hd' _ _ _ _ _
      · exact ih _ (by simp only [List.length_append,List.length_singleton]; push_cast; omega)
          hd' _ _ rfl

theorem enumeratePsi_spec (D : Digest) (hb : BlockersIn p atoms) (budget corridorCap : ℤ) :
    ∃ search, enumeratePsi D p atoms budget corridorCap = .ok search ∧ Sound p atoms search :=
  psiLoop_spec D hb budget corridorCap Database.nil 0 0

/-! ### Exits -/

/-- The three ways the loop ends, over the clauses it holds then. -/
inductive Exit (D : Digest) (p : ReachProgram) (atoms : AtomTable) (corridorCap : ℤ)
    (clauses : List Clause) (search : CutSearch) : Prop where
  | solved {cut : Cut} {steps nodes : ℕ} (h : finish D p atoms clauses cut .exactPsiRelative true
      true none steps nodes corridorCap false false = .ok search)
  | unblockable {cut : Cut} {tree : WitnessNode} {steps nodes : ℕ} (h : finish D p atoms clauses cut
      .unverified true false (some tree) steps nodes corridorCap false false = .ok search)
  | fellBack {steps nodes : ℕ} {budgetExhausted capHit : Bool} (h : fallback D p atoms clauses
      steps nodes corridorCap budgetExhausted capHit = .ok search)

theorem map_returned {x : Fallible CutSearch} {search : CutSearch}
    (h : x.map Turn.returned = .ok (.returned search)) : x = .ok search := by
  cases x with
  | error e => cases h
  | ok s => cases h; rfl

theorem psiTurn_exits {D : Digest} {budget corridorCap : ℤ} {steps nodes : ℕ} {search : CutSearch}
    (h : psiTurn D p atoms budget corridorCap clauses steps nodes = .ok (.returned search)) :
    Exit D p atoms corridorCap clauses search := by
  unfold psiTurn at h
  dsimp only at h
  split at h
  · exact .fellBack (map_returned h)
  · split at h
    · split at h
      · exact .fellBack (map_returned h)
      · cases h
    · split at h
      · exact .solved (map_returned h)
      · split at h
        · cases h
        · split at h
          · exact .unblockable (map_returned h)
          · split at h <;> cases h
  · cases h

theorem psiLoop_exits {D : Digest} {budget corridorCap : ℤ} {steps nodes : ℕ} {search : CutSearch}
    (h : psiLoop D p atoms budget corridorCap clauses steps nodes = .ok search) :
    ∃ clauses, Exit D p atoms corridorCap clauses search := by
  induction hn : (corridorCap-clauses.length).toNat using Nat.strong_induction_on
    generalizing clauses steps nodes with
  | _ n ih =>
    rw [psiLoop] at h
    split at h
    · cases h
    · rename_i found hturn
      cases h
      exact ⟨_,psiTurn_exits hturn⟩
    · split at h
      · exact ⟨_,.fellBack h⟩
      · exact ih _ (by simp only [List.length_append,List.length_singleton]; push_cast; omega) h rfl

theorem fallback_finishes {D : Digest} {corridorCap : ℤ} {steps nodes : ℕ}
    {budgetExhausted capHit : Bool} {search : CutSearch}
    (h : fallback D p atoms clauses steps nodes corridorCap budgetExhausted capHit = .ok search) :
    ∃ cut severs witness steps, finish D p atoms clauses cut .subset false severs witness steps nodes
      corridorCap budgetExhausted capHit = .ok search := by
  unfold fallback at h
  split at h
  · cases h
  · dsimp only at h
    split at h
    · cases h
    · exact ⟨_,_,_,_,h⟩

theorem finish_labels {D : Digest} {corridorCap : ℤ} {cut : Cut} {minimality : Minimality}
    {complete severs : Bool} {witness : Option WitnessNode} {steps nodes : ℕ}
    {budgetExhausted capHit : Bool} {search : CutSearch}
    (h : finish D p atoms clauses cut minimality complete severs witness steps nodes corridorCap
      budgetExhausted capHit = .ok search) :
    search.minimality = minimality ∧ search.corridorCapHit = capHit := by
  unfold finish at h
  split at h
  · cases h
  · dsimp only at h
    split at h
    · cases h
    · cases h
      exact ⟨rfl,rfl⟩

/-- A search that hit its corridor cap claims SUBSET only, and none claims to be exhaustive. -/
theorem enumeratePsi_labels {D : Digest} {budget corridorCap : ℤ} {search : CutSearch}
    (h : enumeratePsi D p atoms budget corridorCap = .ok search) :
    search.minimality ≠ .exactExhaustive ∧
      (search.corridorCapHit = true → search.minimality = .subset) := by
  obtain ⟨clauses,hexit⟩ := psiLoop_exits h
  cases hexit with
  | solved h => simp [finish_labels h]
  | unblockable h => simp [finish_labels h]
  | fellBack h =>
    obtain ⟨cut,severs,witness,steps,h⟩ := fallback_finishes h
    simp [finish_labels h]

/-- The loop terminates without raising; an exact severing cut is a true optimum over every
admissible assignment, and an unverified search found a goal no admissible cut severs. -/
theorem enumeratePsi_exact (D : Digest) (p : ReachProgram) (atoms : AtomTable)
    (hb : BlockersIn p atoms) (budget corridorCap : ℤ) :
    ∃ search, enumeratePsi D p atoms budget corridorCap = .ok search ∧
      (search.severs = true → search.minimality = .exactPsiRelative →
        (∀ g ∈ p.goals, g ∉ (reach p search.cut.mask).closure) ∧
        ∀ σ : Assignment atoms, σ.raised.card < search.cut.cardinality →
          ∃ g ∈ p.goals, g ∈ (reach p σ.mask).closure) ∧
      (search.minimality = .unverified →
        ∃ g ∈ p.goals, ∀ σ : Assignment atoms, g ∈ (reach p σ.mask).closure) := by
  obtain ⟨search,hs,hsound⟩ := enumeratePsi_spec D hb budget corridorCap
  refine ⟨search,hs,fun hsev hmin => ⟨fun g hg hm => ?_,fun σ hσ => ?_⟩,fun hmin => ?_⟩
  · exact hsound.severs.mp hsev g hg (mem_reach_closure.mp hm)
  · obtain ⟨-,τ,hr,hopt⟩ := hsound.exact hmin
    by_contra hno
    -- a severing assignment hits every corridor, so it is no smaller than the optimum
    have hsevers : p.Severs σ.mask := fun g hg hd => hno ⟨g,hg,mem_reach_closure.mpr hd⟩
    have := hopt.least _ (hsound.database.hitsAll hsevers).hitting_raised (by simp)
    rw [hr.cardinality] at hσ
    omega
  · obtain ⟨g,hg,hd⟩ := hsound.unverified hmin
    exact ⟨g,hg,fun σ => mem_reach_closure.mpr (hd σ.mask)⟩

/-- An observed instance of one rule, citing one record, blocked by one literal. -/
def observedStep (id : InstanceId) (head : FactHash) (body : List FactHash) (bit : ℕ) :
    InstanceFields :=
  ⟨id,"rl:step","1.0.0",head,body,[BitVec.twoPow 64 bit],.observed,0,[⟨"e","ev:1","src:s",0⟩],[],
    false⟩

/-- A step from the seed `fh:s` to the goal `fh:g`. -/
theorem seedStep_valid : (observedStep "in:1" "fh:g" ["fh:s"] 0).postInit = .ok () := by decide

theorem observedStep_blocked {id : InstanceId} {head : FactHash} {body : List FactHash} {bit : ℕ}
    {s : Mask} (hb : bit < 64) :
    instanceBlocked (observedStep id head body bit) s = s.getLsbD bit := by
  have h : BitVec.twoPow 64 bit &&& s = BitVec.twoPow 64 bit ↔ s.getLsbD bit = true := by
    rw [and_eq_iff]
    simp only [BitVec.getLsbD_twoPow,Bool.and_eq_true,decide_eq_true_eq]
    exact ⟨fun h => h bit ⟨hb,rfl⟩,fun h i hi => hi.2 ▸ h⟩
  rw [Bool.eq_iff_iff,← h]
  simp [instanceBlocked,observedStep]

/-- A single-level literal whose bit is its rank. -/
def plainLiteral (control : ControlId) (rank : ℕ) (h : rank < 64) : ThresholdLiteral :=
  ⟨control,1,rank,rank,level_one,h,by omega⟩

/-- Two ways to the goal behind one step: `g ← x` twice and `x ← s`. -/
def twoRoutes (kind : ProgramKind) : ReachProgram where
  kind := kind
  instances := [⟨observedStep "in:1" "fh:g" ["fh:x"] 1,by decide⟩,
    ⟨observedStep "in:2" "fh:g" ["fh:x"] 2,by decide⟩,
    ⟨observedStep "in:3" "fh:x" ["fh:s"] 0,by decide⟩]
  axioms := ["fh:s"]
  goal := "fh:g"
  goals := ["fh:g"]
  axiomEvidence := []
  valid := by cases kind <;> decide

def threeControls : AtomTable where
  literals := [plainLiteral "ctl:a" 0 bit_zero,plainLiteral "ctl:b" 1 bit_one,
    plainLiteral "ctl:c" 2 bit_two]
  valid := by decide

theorem enumeratePsi_exact_twoRoutes :
    ∃ search, enumeratePsi Digest.spelled (twoRoutes .pMax) threeControls stepBudget
        corridorCapDefault = .ok search ∧
      (search.severs = true → search.minimality = .exactPsiRelative →
        (∀ g ∈ (twoRoutes .pMax).goals, g ∉ (reach (twoRoutes .pMax) search.cut.mask).closure) ∧
        ∀ σ : Assignment threeControls, σ.raised.card < search.cut.cardinality →
          ∃ g ∈ (twoRoutes .pMax).goals, g ∈ (reach (twoRoutes .pMax) σ.mask).closure) ∧
      (search.minimality = .unverified → ∃ g ∈ (twoRoutes .pMax).goals,
        ∀ σ : Assignment threeControls, g ∈ (reach (twoRoutes .pMax) σ.mask).closure) :=
  enumeratePsi_exact Digest.spelled (twoRoutes .pMax) threeControls (by decide) stepBudget
    corridorCapDefault

end Spectra
