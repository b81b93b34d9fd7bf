import Spectra.Premium

/-! What the published premium says about the two programs: the solver loops compute the
all-sets and some-sets of the clause database, and a complete database brackets those of
the program it was learned from. -/
namespace Spectra

variable {p : ReachProgram} {atoms : AtomTable} {clauses : List Clause}

/-! ### The solver loops -/

/-- One turn of either loop: the control at hand is kept exactly when it qualifies. -/
theorem mem_found_cons {q : ControlId → Prop} {found found' rest : List ControlId}
    {c control : ControlId} (h : q c ∧ found' = found++[c] ∨ ¬q c ∧ found' = found) :
    (control ∈ found' ∨ control ∈ rest ∧ q control) ↔
      control ∈ found ∨ control ∈ c::rest ∧ q control := by
  rcases h with ⟨hq,rfl⟩ | ⟨hq,rfl⟩
  · rw [List.mem_append,List.mem_singleton,List.mem_cons]
    constructor
    · rintro ((hf | rfl) | hr)
      · exact .inl hf
      · exact .inr ⟨.inl rfl,hq⟩
      · exact .inr ⟨.inr hr.1,hr.2⟩
    · rintro (hf | ⟨rfl | hr,hn⟩)
      · exact .inl (.inl hf)
      · exact .inl (.inr rfl)
      · exact .inr ⟨hr,hn⟩
  · rw [List.mem_cons]
    refine or_congr_right ⟨fun hr => ⟨.inr hr.1,hr.2⟩,?_⟩
    rintro ⟨rfl | hr,hn⟩
    · exact absurd hn hq
    · exact ⟨hr,hn⟩

theorem necessaryLoop_spec {budget : ℤ} {v : ℕ} (rest : List ControlId) {spent solves : ℕ}
    {found : List ControlId}
    (h : (necessaryLoop clauses atoms budget v rest spent solves found).exhausted = false)
    (control : ControlId) :
    control ∈ (necessaryLoop clauses atoms budget v rest spent solves found).controls ↔
      control ∈ found ∨ control ∈ rest ∧ ∀ w, IsOptimum atoms clauses [control] w → v < w := by
  induction rest generalizing spent solves found with
  | nil => simp [necessaryLoop]
  | cons c rest ih =>
    simp only [necessaryLoop] at h ⊢
    rcases minCardinality_spec clauses atoms (budget-spent) [c] with hs | ⟨hs,hno⟩ | ⟨hs,w,hw,hopt⟩
    · simp [hs] at h
    · have hnec : ∀ w, IsOptimum atoms clauses [c] w → v < w := by
        rintro w ⟨⟨s,hm,he,-⟩,-⟩
        exact absurd he (hno s hm)
      simp only [hs] at h ⊢
      rw [ih h]
      exact mem_found_cons (q := fun c => ∀ w, IsOptimum atoms clauses [c] w → v < w)
        (.inl ⟨hnec,rfl⟩)
    · have hiff : (∀ u, IsOptimum atoms clauses [c] u → v < u) ↔ v < w :=
        ⟨fun hu => hu w hopt,fun hlt u hu => hu.unique hopt ▸ hlt⟩
      simp only [hs,hw] at h ⊢
      rw [ih h]
      refine mem_found_cons (q := fun c => ∀ w, IsOptimum atoms clauses [c] w → v < w) ?_
      by_cases hlt : v < w
      · exact .inl ⟨hiff.mpr hlt,if_pos hlt⟩
      · exact .inr ⟨mt hiff.mp hlt,if_neg hlt⟩

theorem occursAt_spec {budget : ℤ} {v : ℕ} {control : ControlId} (levels : List ℕ)
    {spent solves : ℕ} {occurs : Bool}
    (h : (occursAt clauses atoms budget v control levels spent solves).1 = some occurs) :
    occurs = true ↔ ∃ level ∈ levels, ∃ w,
      IsOptimum atoms (keptClauses clauses atoms control level) [control] w ∧ 1+w = v := by
  induction levels generalizing spent solves with
  | nil =>
    obtain rfl : false = occurs := Option.some.inj h
    simp
  | cons level levels ih =>
    simp only [occursAt] at h
    rcases minCardinality_spec (keptClauses clauses atoms control level) atoms (budget-spent)
      [control] with hs | ⟨hs,hno⟩ | ⟨hs,w,hw,hopt⟩
    · simp [hs] at h
    · simp only [hs] at h
      rw [ih h,List.exists_mem_cons_iff]
      refine ⟨.inr,fun hx => hx.resolve_left ?_⟩
      rintro ⟨w,⟨⟨s,hm,he,-⟩,-⟩,-⟩
      exact hno s hm he
    · simp only [hs,hw] at h
      rw [List.exists_mem_cons_iff]
      split at h
      · rename_i hv
        obtain rfl := Option.some.inj h
        exact ⟨fun _ => .inl ⟨w,hopt,hv⟩,fun _ => rfl⟩
      · rename_i hv
        rw [ih h]
        refine ⟨.inr,fun hx => hx.resolve_left ?_⟩
        rintro ⟨u,hu,hv'⟩
        exact hv (hopt.unique hu ▸ hv')

theorem occurringLoop_spec {budget : ℤ} {v : ℕ} (rest : List ControlId) {spent solves : ℕ}
    {found : List ControlId}
    (h : (occurringLoop clauses atoms budget v rest spent solves found).exhausted = false)
    (control : ControlId) :
    control ∈ (occurringLoop clauses atoms budget v rest spent solves found).controls ↔
      control ∈ found ∨ control ∈ rest ∧ ∃ level ∈ List.range' 1 (atoms.maxLevel control), ∃ w,
        IsOptimum atoms (keptClauses clauses atoms control level) [control] w ∧ 1+w = v := by
  induction rest generalizing spent solves found with
  | nil => simp [occurringLoop]
  | cons c rest ih =>
    simp only [occurringLoop] at h ⊢
    split at h
    · simp at h
    · rename_i occurs spent' solves' ho
      have hiff := occursAt_spec _ (congrArg Prod.fst ho)
      simp only [ih h]
      refine mem_found_cons (q := fun c => ∃ level ∈ List.range' 1 (atoms.maxLevel c), ∃ w,
        IsOptimum atoms (keptClauses clauses atoms c level) [c] w ∧ 1+w = v) ?_
      cases occurs with
      | false => exact .inr ⟨mt hiff.mpr (by simp),rfl⟩
      | true => exact .inl ⟨hiff.mp rfl,rfl⟩

theorem Solves.publish_spec {loc : String} {s s' : Solves} (h : s.publish loc = .ok s') :
    s'.exhausted = s.exhausted ∧ ∀ c, c ∈ s'.controls ↔ c ∈ s.controls := by
  unfold Solves.publish at h
  split at h
  · rw [← Except.ok.inj h]; simp
  · dsimp only at h
    split at h
    · cases h
    · rw [← Except.ok.inj h]; simp

/-- `NEC`: the controls every minimum hitting assignment raises. -/
theorem necessaryControls_spec {psi : Psi} {budget : ℤ} {s : Solves}
    (h : necessaryControls psi atoms budget = .ok s) (he : s.exhausted = false) (c : ControlId) :
    c ∈ s.controls ↔
      c ∈ atoms.controls ∧ ∀ σ, MinHitting atoms psi.clauses σ → c ∈ σ.raised := by
  unfold necessaryControls at h
  rcases minCardinality_spec psi.clauses atoms budget [] with hs | ⟨hs,-⟩ | ⟨hs,v,hv,hopt⟩
  · simp only [hs] at h
    rw [← Except.ok.inj h] at he
    cases he
  · simp [hs] at h
  · simp only [hs,hv] at h
    obtain ⟨hex,hm⟩ := Solves.publish_spec h
    rw [hm,necessaryLoop_spec _ (hex ▸ he),necessary_probe hopt]
    simp

/-- `OCC`: the controls some minimum hitting assignment raises. -/
theorem occurringControls_spec {psi : Psi} {budget : ℤ} {s : Solves}
    (h : occurringControls psi atoms budget = .ok s) (he : s.exhausted = false) (c : ControlId) :
    c ∈ s.controls ↔
      c ∈ atoms.controls ∧ ∃ σ, MinHitting atoms psi.clauses σ ∧ c ∈ σ.raised := by
  unfold occurringControls at h
  rcases minCardinality_spec psi.clauses atoms budget [] with hs | ⟨hs,-⟩ | ⟨hs,v,hv,hopt⟩
  · simp only [hs] at h
    rw [← Except.ok.inj h] at he
    cases he
  · simp [hs] at h
  · simp only [hs,hv] at h
    obtain ⟨hex,hm⟩ := Solves.publish_spec h
    rw [hm,occurringLoop_spec _ (hex ▸ he),occurring_probe hopt]
    simp

/-- A published premium: both databases were complete and both solves finished. -/
theorem blindnessPremium_published {psiMin psiMax : Psi} {budget : ℤ} {f₁ f₂ f₃ f₄ : Bool}
    {res : PremiumResult}
    (h : blindnessPremium psiMin psiMax atoms budget f₁ f₂ f₃ f₄ = .ok res)
    (hp : res.published = true) :
    psiMin.complete = true ∧ psiMax.complete = true ∧ ∃ nec occ budget',
      necessaryControls psiMax atoms budget = .ok nec ∧ nec.exhausted = false ∧
      occurringControls psiMin atoms budget' = .ok occ ∧ occ.exhausted = false ∧
      ∀ c, c ∈ res.blindnessPremium ↔ c ∈ nec.controls ∧ c ∉ occ.controls := by
  have hsup : ∀ r n m, .ok (suppressed r n m) = (Except.ok res : Fallible PremiumResult) → False := by
    intro r n m hr
    rw [← Except.ok.inj hr] at hp
    cases hp
  unfold blindnessPremium at h
  split at h
  · exact (hsup _ _ _ h).elim
  · split at h
    · exact (hsup _ _ _ h).elim
    · rename_i hcomp
      split at h
      · exact (hsup _ _ _ h).elim
      · split at h
        · exact (hsup _ _ _ h).elim
        · split at h
          · exact (hsup _ _ _ h).elim
          · split at h
            · cases h
            · split at h
              · cases h
              · split at h
                · cases h
                · rename_i nec hnec
                  split at h
                  · exact (hsup _ _ _ h).elim
                  · rename_i hne
                    split at h
                    · cases h
                    · rename_i occ hocc
                      split at h
                      · exact (hsup _ _ _ h).elim
                      · rename_i hoe
                        dsimp only at h
                        split at h
                        · cases h
                        · rw [← Except.ok.inj h]
                          simp only [Bool.or_eq_true,Bool.not_eq_true',not_or,
                            Bool.not_eq_false] at hcomp
                          exact ⟨hcomp.1,hcomp.2,nec,occ,_,hnec,by simpa using hne,hocc,
                            by simpa using hoe,fun c => by simp⟩

/-! ### From the database to the program -/

theorem Sound.unsevered {search : CutSearch} (hs : Sound p atoms search)
    (hc : search.psi.complete = true) (hn : search.severs = false) (s : Mask) : ¬p.Severs s := by
  intro h
  rcases hs.complete hc with he | hu
  · rw [(hs.exact he).1] at hn
    cases hn
  · obtain ⟨g,hg,hd⟩ := hs.unverified hu
    exact h g hg (hd s)

theorem Sound.exact_of_severs {search : CutSearch} (hs : Sound p atoms search)
    (hc : search.psi.complete = true) (hsev : search.severs = true) :
    search.minimality = .exactPsiRelative := by
  rcases hs.complete hc with he | hu
  · exact he
  · obtain ⟨g,hg,hd⟩ := hs.unverified hu
    exact absurd (hd _) (hs.severs.mp hsev g hg)

/-- Minimum severing assignments are minimum hitting assignments of a complete database. -/
theorem Sound.minHitting {search : CutSearch} (hs : Sound p atoms search)
    (hc : search.psi.complete = true) {σ : Assignment atoms} (hσ : MinSevering p atoms σ) :
    MinHitting atoms search.psi.clauses σ := by
  have hsev : search.severs = true := by
    by_contra hn
    exact hs.unsevered hc (by simpa using hn) _ hσ.holds
  obtain ⟨-,τ,hr,hopt⟩ := hs.exact (hs.exact_of_severs hc hsev)
  have hhit := hs.database.hitsAll hσ.holds
  refine (minHitting_iff hopt).mpr ⟨hhit,le_antisymm (hσ.least τ ?_) ?_⟩
  · exact hr.mask ▸ hs.severs.mp hsev
  · exact hopt.least _ hhit.hitting_raised (by simp)

/-- And the converse where the minimum hitting assignment severs. -/
theorem Sound.minSevering {search : CutSearch} (hs : Sound p atoms search)
    (hc : search.psi.complete = true) (hsev : search.severs = true) {σ : Assignment atoms}
    (hσ : MinHitting atoms search.psi.clauses σ) (hp : p.Severs σ.mask) :
    MinSevering p atoms σ := by
  obtain ⟨-,τ,hr,hopt⟩ := hs.exact (hs.exact_of_severs hc hsev)
  refine ⟨hp,fun ρ hρ => ?_⟩
  rw [((minHitting_iff hopt).mp hσ).2]
  exact hopt.least _ (hs.database.hitsAll hρ).hitting_raised (by simp)

theorem Sound.exists_minSevering {search : CutSearch} (hs : Sound p atoms search)
    (hc : search.psi.complete = true) (hsev : search.severs = true) :
    ∃ σ : Assignment atoms, MinSevering p atoms σ := by
  obtain ⟨-,τ,hr,hopt⟩ := hs.exact (hs.exact_of_severs hc hsev)
  exact ⟨τ,hs.minSevering hc hsev ((minHitting_iff hopt).mpr ⟨hr.hits,rfl⟩)
    (hr.mask ▸ hs.severs.mp hsev)⟩

theorem enumeratePsi_sound {D : Digest} {budget corridorCap : ℤ} {search : CutSearch}
    (hb : BlockersIn p atoms) (h : enumeratePsi D p atoms budget corridorCap = .ok search) :
    Sound p atoms search := by
  obtain ⟨r,hr,hs⟩ := enumeratePsi_spec D hb budget corridorCap
  rw [h] at hr
  exact Except.ok.inj hr ▸ hs

/-- Nothing derives the goal: the lower side of the bracket below. -/
def noRoute : ReachProgram where
  kind := .pMin
  instances := []
  axioms := ["fh:s"]
  goal := "fh:g"
  goals := ["fh:g"]
  axiomEvidence := []
  valid := by decide

/-- One searched bracket and its premium, over the default budget and cap. -/
def searchedBracket (pMin pMax : ReachProgram) (atoms : AtomTable) :
    Fallible (CutSearch × CutSearch × PremiumResult) :=
  match enumeratePsi Digest.spelled pMin atoms stepBudget corridorCapDefault with
  | .error e => .error e
  | .ok lower => match enumeratePsi Digest.spelled pMax atoms stepBudget corridorCapDefault with
    | .error e => .error e
    | .ok upper =>
      match blindnessPremium lower.psi upper.psi atoms stepBudget false false false false with
      | .error e => .error e
      | .ok res => .ok (lower,upper,res)

theorem searchedBracket_ok {pMin pMax : ReachProgram} {atoms : AtomTable}
    {r : CutSearch × CutSearch × PremiumResult} (h : searchedBracket pMin pMax atoms = .ok r) :
    enumeratePsi Digest.spelled pMin atoms stepBudget corridorCapDefault = .ok r.1 ∧
      enumeratePsi Digest.spelled pMax atoms stepBudget corridorCapDefault = .ok r.2.1 ∧
      blindnessPremium r.1.psi r.2.1.psi atoms stepBudget false false false false = .ok r.2.2 := by
  unfold searchedBracket at h
  split at h
  · cases h
  · rename_i lower hlo
    split at h
    · cases h
    · rename_i upper hup
      split at h
      · cases h
      · rename_i res hres
        cases h
        exact ⟨hlo,hup,hres⟩

/-- Every published control is raised by every minimum severing cut of `P_max` and by no
minimum severing cut of `P_min`. -/
theorem blindnessPremium_sound {D : Digest} {pMin pMax : ReachProgram} {atoms : AtomTable}
    (hbMin : BlockersIn pMin atoms) (hbMax : BlockersIn pMax atoms)
    {b₁ b₂ c₁ c₂ budget : ℤ} {lower upper : CutSearch}
    (hlo : enumeratePsi D pMin atoms b₁ c₁ = .ok lower)
    (hup : enumeratePsi D pMax atoms b₂ c₂ = .ok upper) {f₁ f₂ f₃ f₄ : Bool}
    {res : PremiumResult}
    (h : blindnessPremium lower.psi upper.psi atoms budget f₁ f₂ f₃ f₄ = .ok res)
    (hp : res.published = true) :
    ∀ c ∈ res.blindnessPremium, (∀ σ, MinSevering pMax atoms σ → c ∈ σ.raised) ∧
      ∀ σ, MinSevering pMin atoms σ → c ∉ σ.raised := by
  obtain ⟨hcMin,hcMax,nec,occ,_,hnec,hne,hocc,hoe,hprem⟩ := blindnessPremium_published h hp
  have hsMin := enumeratePsi_sound hbMin hlo
  have hsMax := enumeratePsi_sound hbMax hup
  intro c hc
  obtain ⟨hcn,hco⟩ := (hprem c).mp hc
  obtain ⟨hctl,hall⟩ := (necessaryControls_spec hnec hne c).mp hcn
  refine ⟨fun σ hσ => hall σ (hsMax.minHitting hcMax hσ),fun σ hσ hr => hco ?_⟩
  exact (occurringControls_spec hocc hoe c).mpr ⟨hctl,σ,hsMin.minHitting hcMin hσ,hr⟩

/-- One way to the goal, blocked by `ctl:a`. -/
def oneRoute : ReachProgram where
  kind := .pMax
  instances := [⟨observedStep "in:1" "fh:g" ["fh:s"] 0,seedStep_valid⟩]
  axioms := ["fh:s"]
  goal := "fh:g"
  goals := ["fh:g"]
  axiomEvidence := []
  valid := by decide

def oneRouteRun := returned (searchedBracket noRoute oneRoute threeControls)
  (fun r => decide (r.2.2.published = true ∧ r.2.2.blindnessPremium = ["ctl:a"])) (by decide +kernel)

theorem blindnessPremium_sound_oneRoute : ∃ lower upper res,
    enumeratePsi Digest.spelled noRoute threeControls stepBudget corridorCapDefault = .ok lower ∧
    enumeratePsi Digest.spelled oneRoute threeControls stepBudget corridorCapDefault = .ok upper ∧
    blindnessPremium lower.psi upper.psi threeControls stepBudget false false false false =
      .ok res ∧
    res.published = true ∧ res.blindnessPremium = ["ctl:a"] ∧
    ∀ c ∈ res.blindnessPremium, (∀ σ, MinSevering oneRoute threeControls σ → c ∈ σ.raised) ∧
      ∀ σ, MinSevering noRoute threeControls σ → c ∉ σ.raised := by
  obtain ⟨⟨lower,upper,res⟩,hrun,hq⟩ := oneRouteRun
  obtain ⟨hlo,hup,hres⟩ := searchedBracket_ok hrun
  obtain ⟨hpublished,hpremium⟩ := of_decide_eq_true hq
  exact ⟨lower,upper,res,hlo,hup,hres,hpublished,hpremium,blindnessPremium_sound (by decide)
    (by decide) hlo hup hres hpublished⟩

/-! ### How far the premium is complete -/

/-- Every minimum assignment hitting the enumerated corridors severs the program. -/
def Tight (p : ReachProgram) (atoms : AtomTable) (search : CutSearch) : Prop :=
  ∀ σ : Assignment atoms, MinHitting atoms search.psi.clauses σ → p.Severs σ.mask

/-- What the two solves say: exactly the minimum hitting assignments of the database, hence a
bound on the minimum severing assignments of the program, met when the database is tight. -/
structure Bracketed (p : ReachProgram) (atoms : AtomTable) (search : CutSearch) : Prop where
  necessary : ∀ budget s, necessaryControls search.psi atoms budget = .ok s →
    s.exhausted = false → ∀ c,
      (c ∈ s.controls ↔ ∀ σ, MinHitting atoms search.psi.clauses σ → c ∈ σ.raised) ∧
      (c ∈ s.controls → ∀ σ, MinSevering p atoms σ → c ∈ σ.raised) ∧
      (Tight p atoms search → (∀ σ, MinSevering p atoms σ → c ∈ σ.raised) → c ∈ s.controls)
  occurring : ∀ budget s, occurringControls search.psi atoms budget = .ok s →
    s.exhausted = false → ∀ c,
      (c ∈ s.controls ↔ ∃ σ, MinHitting atoms search.psi.clauses σ ∧ c ∈ σ.raised) ∧
      (∀ σ, MinSevering p atoms σ → c ∈ σ.raised → c ∈ s.controls) ∧
      (Tight p atoms search → c ∈ s.controls → ∃ σ, MinSevering p atoms σ ∧ c ∈ σ.raised)

theorem Sound.bracketed {search : CutSearch} (hs : Sound p atoms search)
    (hc : search.psi.complete = true) (hsev : search.severs = true) :
    Bracketed p atoms search := by
  obtain ⟨ρ,hρ⟩ := hs.exists_minSevering hc hsev
  have hctl : ∀ {σ : Assignment atoms} {c}, c ∈ σ.raised → c ∈ atoms.controls :=
    fun h => (AtomTable.mem_raised.mp h).1
  refine ⟨fun budget s h he c => ?_,fun budget s h he c => ?_⟩
  · have hspec := necessaryControls_spec h he c
    refine ⟨⟨fun hm => (hspec.mp hm).2,fun hall => hspec.mpr
      ⟨hctl (hall ρ (hs.minHitting hc hρ)),hall⟩⟩,fun hm σ hσ => (hspec.mp hm).2 σ
        (hs.minHitting hc hσ),fun ht hall => hspec.mpr ⟨hctl (hall ρ hρ),fun σ hσ => ?_⟩⟩
    exact hall σ (hs.minSevering hc hsev hσ (ht σ hσ))
  · have hspec := occurringControls_spec h he c
    refine ⟨⟨fun hm => (hspec.mp hm).2,fun ⟨σ,hσ,hr⟩ => hspec.mpr ⟨hctl hr,σ,hσ,hr⟩⟩,
      fun σ hσ hr => hspec.mpr ⟨hctl hr,σ,hs.minHitting hc hσ,hr⟩,fun ht hm => ?_⟩
    obtain ⟨-,σ,hσ,hr⟩ := hspec.mp hm
    exact ⟨σ,hs.minSevering hc hsev hσ (ht σ hσ),hr⟩

/-- The premium of two complete severing databases: what it publishes holds of every
minimum severing cut, and it misses nothing when both databases are tight. -/
theorem blindnessPremium_bracketed {D : Digest} {pMin pMax : ReachProgram} {atoms : AtomTable}
    (hbMin : BlockersIn pMin atoms) (hbMax : BlockersIn pMax atoms)
    {b₁ b₂ c₁ c₂ : ℤ} {lower upper : CutSearch}
    (hlo : enumeratePsi D pMin atoms b₁ c₁ = .ok lower)
    (hup : enumeratePsi D pMax atoms b₂ c₂ = .ok upper)
    (hcMin : lower.psi.complete = true) (hcMax : upper.psi.complete = true)
    (hsMin : lower.severs = true) (hsMax : upper.severs = true) :
    Bracketed pMin atoms lower ∧ Bracketed pMax atoms upper ∧
      ∀ budget f₁ f₂ f₃ f₄ res,
        blindnessPremium lower.psi upper.psi atoms budget f₁ f₂ f₃ f₄ = .ok res →
        res.published = true →
        (∀ c ∈ res.blindnessPremium, (∀ σ, MinSevering pMax atoms σ → c ∈ σ.raised) ∧
          ∀ σ, MinSevering pMin atoms σ → c ∉ σ.raised) ∧
        (Tight pMin atoms lower → Tight pMax atoms upper → ∀ c,
          (∀ σ, MinSevering pMax atoms σ → c ∈ σ.raised) →
          (∀ σ, MinSevering pMin atoms σ → c ∉ σ.raised) → c ∈ res.blindnessPremium) := by
  have hMin := (enumeratePsi_sound hbMin hlo).bracketed hcMin hsMin
  have hMax := (enumeratePsi_sound hbMax hup).bracketed hcMax hsMax
  refine ⟨hMin,hMax,fun budget f₁ f₂ f₃ f₄ res h hp => ?_⟩
  obtain ⟨-,-,nec,occ,_,hnec,hne,hocc,hoe,hprem⟩ := blindnessPremium_published h hp
  refine ⟨fun c hc => ?_,fun htMin htMax c hall hnone => (hprem c).mpr ⟨?_,fun hm => ?_⟩⟩
  · obtain ⟨hcn,hco⟩ := (hprem c).mp hc
    refine ⟨(hMax.necessary _ _ hnec hne c).2.1 hcn,fun σ hσ hr => hco ?_⟩
    exact (hMin.occurring _ _ hocc hoe c).2.1 σ hσ hr
  · exact (hMax.necessary _ _ hnec hne c).2.2 htMax hall
  · obtain ⟨σ,hσ,hr⟩ := (hMin.occurring _ _ hocc hoe c).2.2 htMin hm
    exact hnone σ hσ hr

/-- Both searches are complete and sever, and nothing is necessary in the upper program. -/
def twoRoutesRun := returned (searchedBracket noRoute (twoRoutes .pMax) threeControls)
  (fun r => decide ((r.1.psi.complete = true ∧ r.1.severs = true) ∧
    (r.2.1.psi.complete = true ∧ r.2.1.severs = true) ∧
    r.2.2.published = true ∧ r.2.2.necMax = [] ∧ r.2.2.blindnessPremium = [])) (by decide +kernel)

theorem blindnessPremium_bracketed_twoRoutes : ∃ lower upper,
    enumeratePsi Digest.spelled noRoute threeControls stepBudget corridorCapDefault = .ok lower ∧
    enumeratePsi Digest.spelled (twoRoutes .pMax) threeControls stepBudget corridorCapDefault =
      .ok upper ∧
    Bracketed noRoute threeControls lower ∧ Bracketed (twoRoutes .pMax) threeControls upper := by
  obtain ⟨⟨lower,upper,res⟩,hrun,hq⟩ := twoRoutesRun
  obtain ⟨hlo,hup,-⟩ := searchedBracket_ok hrun
  obtain ⟨⟨h₁,h₂⟩,⟨h₃,h₄⟩,-⟩ := of_decide_eq_true hq
  have h := blindnessPremium_bracketed (by decide) (by decide) hlo hup h₁ h₃ h₂ h₄
  exact ⟨lower,upper,hlo,hup,h.1,h.2.1⟩

/-- Raising a control is setting the bit of its first literal. -/
theorem Assignment.mask_bit {atoms : AtomTable} {σ : Assignment atoms} {a : ThresholdLiteral}
    (ha : a ∈ atoms.literals) (hl : a.level = 1) :
    σ.mask.getLsbD a.bit = true ↔ a.controlId ∈ σ.raised := by
  rw [Assignment.mask_getLsbD,Assignment.raised,AtomTable.mem_raised]
  constructor
  · rintro ⟨b,hb,hlb,he⟩
    rw [atoms.bits_inj hb ha he] at hlb
    exact ⟨AtomTable.mem_controls.mpr ⟨a,ha,rfl⟩,hl ▸ hlb⟩
  · exact fun h => ⟨a,ha,hl ▸ h.2,rfl⟩

/-- Severing the two routes takes `ctl:a`, or both `ctl:b` and `ctl:c`. -/
theorem twoRoutes_severs {kind : ProgramKind} {σ : Assignment threeControls}
    (h : (twoRoutes kind).Severs σ.mask) (ha : "ctl:a" ∉ σ.raised) :
    "ctl:b" ∈ σ.raised ∧ "ctl:c" ∈ σ.raised := by
  -- a step whose control is not raised fires
  have hstep : ∀ id head body c k (hk : k < 64),
      observedStep id head body k ∈ (twoRoutes kind).instances.map (·.toInstanceFields) →
      plainLiteral c k hk ∈ threeControls.literals → c ∉ σ.raised →
      (∀ b ∈ body, (twoRoutes kind).Derives σ.mask b) → (twoRoutes kind).Derives σ.mask head := by
    intro id head body c k hk hm hlit hc hbody
    obtain ⟨i,hi,he⟩ := List.mem_map.mp hm
    refine .fire (r := ⟨head,body⟩) ⟨i,hi,?_,by rw [he]; rfl⟩ hbody
    rw [he,observedStep_blocked hk]
    exact Bool.eq_false_iff.mpr (mt (Assignment.mask_bit hlit rfl).mp hc)
  have hx := hstep "in:3" "fh:x" ["fh:s"] "ctl:a" 0 (by decide) (by simp [twoRoutes])
    (by simp [threeControls]) ha (fun b hb => .seed (by simpa [twoRoutes] using hb))
  refine ⟨by_contra fun hb => ?_,by_contra fun hc => ?_⟩
  · exact h "fh:g" (by simp [twoRoutes]) (hstep "in:1" "fh:g" ["fh:x"] "ctl:b" 1 (by decide)
      (by simp [twoRoutes]) (by simp [threeControls]) hb (by simpa using hx))
  · exact h "fh:g" (by simp [twoRoutes]) (hstep "in:2" "fh:g" ["fh:x"] "ctl:c" 2 (by decide)
      (by simp [twoRoutes]) (by simp [threeControls]) hc (by simpa using hx))

/-- The two routes share only the step `ctl:a` blocks, so every minimum severing cut raises
it, while the one corridor enumerated offers `ctl:b` as well and the premium is empty. -/
theorem blindnessPremium_incomplete :
    (∃ lower upper res,
      enumeratePsi Digest.spelled noRoute threeControls stepBudget corridorCapDefault = .ok lower ∧
      enumeratePsi Digest.spelled (twoRoutes .pMax) threeControls stepBudget corridorCapDefault =
        .ok upper ∧
      blindnessPremium lower.psi upper.psi threeControls stepBudget false false false false =
        .ok res ∧
      lower.psi.complete = true ∧ lower.severs = true ∧ upper.psi.complete = true ∧
      upper.severs = true ∧ res.published = true ∧ res.necMax = [] ∧ res.blindnessPremium = []) ∧
    (∀ σ, MinSevering (twoRoutes .pMax) threeControls σ → "ctl:a" ∈ σ.raised) ∧
    ∀ σ, MinSevering noRoute threeControls σ → "ctl:a" ∉ σ.raised := by
  refine ⟨?_,fun σ hσ => ?_,fun σ hσ hr => ?_⟩
  · obtain ⟨⟨lower,upper,res⟩,hrun,hq⟩ := twoRoutesRun
    obtain ⟨hlo,hup,hres⟩ := searchedBracket_ok hrun
    obtain ⟨⟨h₁,h₂⟩,⟨h₃,h₄⟩,h₅,h₆,h₇⟩ := of_decide_eq_true hq
    exact ⟨lower,upper,res,hlo,hup,hres,h₁,h₂,h₃,h₄,h₅,h₆,h₇⟩
  · -- without `ctl:a` both routes must be blocked, which costs two controls instead of one
    by_contra ha
    obtain ⟨hb,hc⟩ := twoRoutes_severs hσ.holds ha
    have hone := hσ.least (Assignment.full threeControls {"ctl:a"})
      (reach_derivable.mp (by decide))
    rw [Assignment.raised_full (by decide),Finset.card_singleton] at hone
    have htwo := Finset.card_le_card (show ({"ctl:b","ctl:c"} : Finset ControlId) ⊆ σ.raised by
      intro c hm
      rcases Finset.mem_insert.mp hm with rfl | hm
      · exact hb
      · exact Finset.mem_singleton.mp hm ▸ hc)
    rw [Finset.card_pair (by decide)] at htwo
    omega
  · have hnone := hσ.least (Assignment.full threeControls ∅)
      (reach_derivable.mp (by decide))
    rw [Assignment.raised_full (by simp),Finset.card_empty,Nat.le_zero,Finset.card_eq_zero] at hnone
    rw [hnone] at hr
    cases hr

end Spectra
