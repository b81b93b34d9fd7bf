import Spectra.CtlGuards

/-! A compiled `blocked_when` guard blocks a rule exactly when the levels of the controls make the
parsed guard true, and none of its terms implies another. -/
namespace Spectra

open TokenParser

/-! ### The meaning of a control guard -/

namespace CtlNode

mutual

/-- The guard, over what it says of each threshold. -/
def eval (holds : String × String → Bool) : CtlNode → Bool
  | .threshold control level => holds (control,level)
  | .and cs => evalAll holds cs
  | .or cs => evalAny holds cs

def evalAll (holds : String × String → Bool) : List CtlNode → Bool
  | [] => true
  | c::cs => eval holds c && evalAll holds cs

def evalAny (holds : String × String → Bool) : List CtlNode → Bool
  | [] => false
  | c::cs => eval holds c || evalAny holds cs

end

end CtlNode

/-- `ctl.<control> >= <level>` under a level for each control. -/
def thresholdHolds (catalog : Catalog) (levels : ControlId → ℕ) (threshold : String × String) : Bool :=
  match catalog.get (controlOf threshold.1) with
  | .error _ => false
  | .ok spec => match spec.levelOrdinal threshold.2 with
    | .error _ => false
    | .ok ordinal => ordinal ≤ levels (controlOf threshold.1)

/-- The guard text evaluated directly; no text blocks nothing. -/
def guardHolds (isdigit : Char → Bool) (loc text : String) (catalog : Catalog) (levels : ControlId → ℕ) :
    Bool :=
  if text.toList.all isSpace then false
  else match Lexer.lex isdigit loc text >>= CtlParser.parse loc with
    | .error _ => false
    | .ok node => node.eval (thresholdHolds catalog levels)

/-! ### Disjunctive normal form -/

section Dnf

variable {holds : String × String → Bool}

theorem union_all (left right : CtlTerm) : (left ∪ right).all holds = (left.all holds && right.all holds) := by
  rw [Bool.eq_iff_iff]
  simp only [List.all_eq_true,List.mem_union_iff,Bool.and_eq_true]
  exact ⟨fun h => ⟨fun t ht => h t (Or.inl ht),fun t ht => h t (Or.inr ht)⟩,
    fun h t ht => ht.elim (h.1 t) (h.2 t)⟩

theorem crossTerms_any (product terms : List CtlTerm) : (crossTerms product terms).any (·.all holds) =
    (product.any (·.all holds) && terms.any (·.all holds)) := by
  rw [Bool.eq_iff_iff]
  simp only [crossTerms,List.any_eq_true,List.mem_flatMap,List.mem_map,Bool.and_eq_true]
  constructor
  · rintro ⟨_,⟨left,hl,right,hr,rfl⟩,h⟩
    rw [union_all,Bool.and_eq_true] at h
    exact ⟨⟨left,hl,h.1⟩,⟨right,hr,h.2⟩⟩
  · rintro ⟨⟨left,hl,hleft⟩,⟨right,hr,hright⟩⟩
    exact ⟨left ∪ right,⟨left,hl,right,hr,rfl⟩,by rw [union_all,hleft,hright]; rfl⟩

mutual

/-- The normal form has the meaning of the guard. -/
theorem ctlTerms_eval : ∀ (n : CtlNode) {terms : List CtlTerm}, ctlTerms n = .ok terms →
    n.eval holds = terms.any (·.all holds)
  | .threshold control level, terms, h => by
    rw [← Except.ok.inj h]
    simp [CtlNode.eval]
  | .or cs, terms, h => anyTerms_eval cs h
  | .and cs, terms, h => by
    have := allTerms_eval cs h
    simpa [CtlNode.eval] using this

theorem anyTerms_eval : ∀ (cs : List CtlNode) {terms : List CtlTerm}, anyTerms cs = .ok terms →
    CtlNode.evalAny holds cs = terms.any (·.all holds)
  | [], terms, h => by rw [← Except.ok.inj h]; rfl
  | c::cs, terms, h => by
    obtain ⟨first,hfirst,h⟩ := Runs.bind_ok.mp h
    obtain ⟨rest,hrest,h⟩ := Runs.bind_ok.mp h
    rw [← Runs.pure_ok.mp h,CtlNode.evalAny,ctlTerms_eval c hfirst,anyTerms_eval cs hrest,List.any_append]

theorem allTerms_eval : ∀ (cs : List CtlNode) {product terms : List CtlTerm}, allTerms product cs = .ok terms →
    (product.any (·.all holds) && CtlNode.evalAll holds cs) = terms.any (·.all holds)
  | [], product, terms, h => by rw [← Except.ok.inj h,CtlNode.evalAll,Bool.and_true]
  | c::cs, product, terms, h => by
    obtain ⟨first,hfirst,h⟩ := Runs.bind_ok.mp h
    dsimp only at h
    split at h
    · cases h
    · rw [← allTerms_eval cs h,CtlNode.evalAll,ctlTerms_eval c hfirst,crossTerms_any,Bool.and_assoc]

end

end Dnf

/-! ### Terms that ask for something -/

/-- The terms of a guard all name a threshold. -/
def Asking (n : CtlNode) : Prop := ∀ terms, ctlTerms n = .ok terms → ∀ t ∈ terms, t ≠ []

theorem ne_nil_of_crossTerms {product terms : List CtlTerm} (h : ∀ t ∈ terms, t ≠ []) :
    ∀ t ∈ crossTerms product terms, t ≠ [] := by
  intro t ht
  obtain ⟨left,_,ht⟩ := List.mem_flatMap.mp ht
  obtain ⟨right,hr,rfl⟩ := List.mem_map.mp ht
  obtain ⟨threshold,rest,hright⟩ := List.exists_cons_of_ne_nil (h right hr)
  exact List.ne_nil_of_mem (List.mem_union_iff.mpr (Or.inr (hright ▸ List.mem_cons_self)))

theorem asking_or {cs : List CtlNode} (h : ∀ c ∈ cs, Asking c) : Asking (.or cs) := by
  change ∀ terms, anyTerms cs = .ok terms → _
  induction cs with
  | nil => intro terms ht; rw [← Except.ok.inj ht]; simp
  | cons c cs ih =>
    intro terms ht
    obtain ⟨first,hfirst,ht⟩ := Runs.bind_ok.mp ht
    obtain ⟨rest,hrest,ht⟩ := Runs.bind_ok.mp ht
    rw [← Runs.pure_ok.mp ht]
    intro t htm
    rcases List.mem_append.mp htm with htm | htm
    · exact h c (by simp) first hfirst t htm
    · exact ih (fun d hd => h d (by simp [hd])) rest hrest t htm

theorem asking_and {cs : List CtlNode} (h : ∀ c ∈ cs, Asking c) (hne : cs ≠ []) : Asking (.and cs) := by
  -- from the first child on, every term of the product asks for something
  have key : ∀ (cs : List CtlNode) (product : List CtlTerm), (∀ c ∈ cs, Asking c) →
      cs ≠ [] ∨ (∀ t ∈ product, t ≠ []) → ∀ terms, allTerms product cs = .ok terms → ∀ t ∈ terms, t ≠ [] := by
    intro cs
    induction cs with
    | nil =>
      intro product _ hp terms ht
      rw [← Except.ok.inj ht]
      exact hp.resolve_left fun hne => hne rfl
    | cons c cs ih =>
      intro product hcs _ terms ht
      obtain ⟨first,hfirst,ht⟩ := Runs.bind_ok.mp ht
      dsimp only at ht
      split at ht
      · cases ht
      · refine ih _ (fun d hd => hcs d (by simp [hd])) (Or.inr ?_) terms ht
        exact ne_nil_of_crossTerms (hcs c (by simp) first hfirst)
  exact key cs [[]] h (Or.inl hne)

section Parser

variable {loc : String} {self : TokenParser CtlNode}

theorem asking_threshold : Yields Asking (CtlParser.parseThreshold loc) := by
  intro tokens node rest h
  obtain ⟨⟨dot,rest₁⟩,_,h⟩ := Runs.bind_ok.mp h
  dsimp only at h
  split at h
  · cases h
  obtain ⟨⟨name,rest₂⟩,_,h⟩ := Runs.bind_ok.mp h
  dsimp only at h
  split at h
  · cases h
  obtain ⟨⟨operator,rest₃⟩,_,h⟩ := Runs.bind_ok.mp h
  dsimp only at h
  split at h
  · cases h
  obtain ⟨⟨level,rest₄⟩,_,h⟩ := Runs.bind_ok.mp h
  dsimp only at h
  split_ifs at h
  cases Runs.pure_ok.mp h
  intro terms ht
  rw [← Except.ok.inj ht]
  simp

theorem asking_prim (hself : Yields Asking self) : Yields Asking (CtlParser.parsePrim loc self) := by
  intro tokens node rest h
  obtain ⟨⟨token,rest₁⟩,_,h⟩ := Runs.bind_ok.mp h
  dsimp only at h
  split at h
  · obtain ⟨⟨inner,rest₂⟩,hinner,h⟩ := Runs.bind_ok.mp h
    obtain ⟨⟨closing,rest₃⟩,_,h⟩ := Runs.bind_ok.mp h
    dsimp only at h
    split at h
    · cases h
    · cases Runs.pure_ok.mp h
      exact hself _ _ _ hinner
  · split_ifs at h
    exact asking_threshold _ _ _ h

theorem asking_parseAnd (hself : Yields Asking self) : Yields Asking (CtlParser.parseAnd loc self) := by
  intro tokens node rest h
  obtain ⟨⟨terms,rest₁⟩,hterms,h⟩ := Runs.bind_ok.mp h
  obtain ⟨hne,hall⟩ := Yields.list (asking_prim hself) "and" _ _ _ hterms
  dsimp only at h
  split at h
  · cases Runs.pure_ok.mp h
    exact hall _ (by simp)
  · cases Runs.pure_ok.mp h
    exact asking_and hall hne

theorem asking_parseOr (depth : ℕ) : Yields Asking (CtlParser.parseOr loc depth) := by
  induction depth with
  | zero => intro tokens node rest h; cases h
  | succ depth ih =>
    intro tokens node rest h
    obtain ⟨⟨terms,rest₁⟩,hterms,h⟩ := Runs.bind_ok.mp h
    obtain ⟨_,hall⟩ := Yields.list (asking_parseAnd ih) "or" _ _ _ hterms
    dsimp only at h
    split at h
    · cases Runs.pure_ok.mp h
      exact hall _ (by simp)
    · cases Runs.pure_ok.mp h
      exact asking_or hall

theorem asking_parse {tokens : List Token} {node : CtlNode} (h : CtlParser.parse loc tokens = .ok node) :
    Asking node := by
  obtain ⟨⟨n,rest⟩,hn,h⟩ := Runs.bind_ok.mp h
  cases rest with
  | nil => exact Runs.pure_ok.mp h ▸ asking_parseOr _ _ _ _ hn
  | cons t rest => cases h

end Parser

/-! ### Demands -/

/-- The levels are at least those a term asks for. -/
def Demands.meets (levels : ControlId → ℕ) (d : Demands) : Bool := d.all fun (control,level) => level ≤ levels control

section Demands

variable {levels : ControlId → ℕ}

theorem meets_iff {d : Demands} (hd : (d.map (·.1)).Nodup) : d.meets levels = true ↔
    ∀ control level, Dict.get? d control = some level → level ≤ levels control := by
  simp only [Demands.meets,List.all_eq_true,decide_eq_true_eq]
  exact ⟨fun h control level hget => h _ (Dict.get?_mem hget),fun h p hp => h p.1 p.2 (Dict.get?_of_mem hd hp)⟩

theorem meets_perm {d e : Demands} (h : d.Perm e) : d.meets levels = e.meets levels := h.all_eq

/-- Raising a demand asks for both levels. -/
theorem meets_raise {d : Demands} (hd : (d.map (·.1)).Nodup) (control : ControlId) (level : ℕ) :
    Demands.meets levels (Dict.set d control (max ((Dict.get? d control).getD 0) level)) =
      (d.meets levels && decide (level ≤ levels control)) := by
  rw [Bool.eq_iff_iff,Bool.and_eq_true,decide_eq_true_eq,meets_iff (Dict.nodup_keys_set hd _ _),meets_iff hd]
  simp only [Dict.get?_set]
  constructor
  · intro h
    have hmax := h control _ (if_pos rfl)
    refine ⟨fun other held hget => ?_,(le_max_right _ _).trans hmax⟩
    by_cases hc : control = other
    · subst hc
      rw [hget] at hmax
      exact (le_max_left _ _).trans hmax
    · exact h other held (by rw [if_neg hc,hget])
  · rintro ⟨h,hlevel⟩ other held hget
    split at hget
    · rename_i hc
      subst hc
      rw [← Option.some.inj hget]
      refine max_le ?_ hlevel
      cases hheld : Dict.get? d control with
      | none => exact Nat.zero_le _
      | some old => exact h control old hheld
    · exact h other held hget

theorem implies_iff {w s : Demands} : implies w s = true ↔
    ∀ p ∈ w, ∃ level, Dict.get? s p.1 = some level ∧ p.2 ≤ level := by
  simp only [implies,List.all_eq_true,Option.any_eq_true,decide_eq_true_eq]

theorem implies_refl {d : Demands} (hd : (d.map (·.1)).Nodup) : implies d d = true :=
  implies_iff.mpr fun p hp => ⟨p.2,Dict.get?_of_mem hd hp,le_rfl⟩

theorem implies_trans (a b c : Demands) (hab : implies a b = true) (hbc : implies b c = true) :
    implies a c = true := by
  refine implies_iff.mpr fun p hp => ?_
  obtain ⟨level,hget,hle⟩ := implies_iff.mp hab p hp
  obtain ⟨level',hget',hle'⟩ := implies_iff.mp hbc _ (Dict.get?_mem hget)
  exact ⟨level',hget',hle.trans hle'⟩

theorem meets_of_implies {w s : Demands} (h : implies w s = true) (hs : s.meets levels = true) :
    w.meets levels = true := by
  rw [Demands.meets,List.all_eq_true] at hs ⊢
  intro p hp
  obtain ⟨level,hget,hle⟩ := implies_iff.mp h p hp
  have := hs _ (Dict.get?_mem hget)
  exact decide_eq_true (hle.trans (of_decide_eq_true this))

/-- A term that is not implied fails under some levels that meet the other. -/
theorem exists_levels {w s : Demands} (hs : (s.map (·.1)).Nodup) (hpos : ∀ p ∈ w, 1 ≤ p.2)
    (h : implies w s = false) : ∃ levels, s.meets levels = true ∧ w.meets levels = false := by
  refine ⟨fun control => (Dict.get? s control).getD 0,?_,?_⟩
  · exact (meets_iff hs).mpr fun control level hget => by rw [hget]; exact le_rfl
  · by_contra hn
    have hw := List.all_eq_true.mp (Bool.eq_true_of_not_eq_false hn)
    refine Bool.false_ne_true (h.symm.trans (implies_iff.mpr fun p hp => ?_))
    have hle : p.2 ≤ (Dict.get? s p.1).getD 0 := of_decide_eq_true (hw p hp)
    cases hget : Dict.get? s p.1 with
    | none =>
      rw [hget] at hle
      exact absurd (hpos p hp) (by simpa using hle)
    | some level => exact ⟨level,rfl,by rwa [hget] at hle⟩

end Demands

/-! ### Canonical terms -/

section Canonical

variable {loc : String} {catalog : Catalog} {levels : ControlId → ℕ}

theorem resolveThreshold_ok (levels : ControlId → ℕ) {threshold : String × String} {r : ControlId × ℕ}
    (h : resolveThreshold loc catalog threshold = .ok r) :
    1 ≤ r.2 ∧ thresholdHolds catalog levels threshold = decide (r.2 ≤ levels r.1) := by
  obtain ⟨control,hcontrol,h⟩ := Runs.bind_ok.mp h
  obtain ⟨spec,hspec,h⟩ := Runs.bind_ok.mp h
  obtain ⟨ordinal,hordinal,h⟩ := Runs.bind_ok.mp h
  unfold controlIdOf at hcontrol
  split_ifs at hcontrol
  cases Except.ok.inj hcontrol
  split_ifs at h with hlow
  rw [← Runs.pure_ok.mp h]
  exact ⟨Nat.not_lt.mp hlow,by simp only [thresholdHolds,hspec,hordinal]⟩

/-- A dictionary of demands: one for each control, none for the weakest setting. -/
structure Demanding (d : Demands) : Prop where
  nodup : (d.map (·.1)).Nodup
  pos : ∀ p ∈ d, 1 ≤ p.2

theorem demanding_nil : Demanding [] := ⟨List.nodup_nil,by simp⟩

theorem Demanding.perm {d e : Demands} (h : Demanding d) (hp : d.Perm e) : Demanding e :=
  ⟨(hp.map _).nodup_iff.mp h.nodup,fun p hm => h.pos p (hp.mem_iff.mpr hm)⟩

theorem Demanding.set {d : Demands} (h : Demanding d) {control : ControlId} {level : ℕ} (hl : 1 ≤ level) :
    Demanding (Dict.set d control level) :=
  ⟨Dict.nodup_keys_set h.nodup _ _,fun p hp => (Dict.mem_of_mem_set hp).elim (h.pos p) fun he => he ▸ hl⟩

theorem strongestOf_meets (levels : ControlId → ℕ) : ∀ {term : CtlTerm} {start result : Demands}, Demanding start →
    strongestOf loc catalog start term = .ok result → Demanding result ∧ (result = [] → term = []) ∧
      result.meets levels = (start.meets levels && term.all (thresholdHolds catalog levels))
  | [], start, result, hs, h => by
    rw [← Except.ok.inj h]
    exact ⟨hs,fun _ => rfl,by simp⟩
  | threshold::rest, start, result, hs, h => by
    obtain ⟨r,hr,h⟩ := Runs.bind_ok.mp h
    obtain ⟨hpos,hholds⟩ := resolveThreshold_ok levels hr
    obtain ⟨hd,hne,hmeets⟩ := strongestOf_meets levels (hs.set (hpos.trans (le_max_right _ _))) h
    refine ⟨hd,fun hnil => ?_,?_⟩
    · rw [hne hnil] at h
      exact absurd ((Except.ok.inj h).trans hnil) Dict.set_ne_nil
    · rw [hmeets,meets_raise hs.nodup,List.all_cons,hholds,Bool.and_assoc]

/-- The demands of the normal form, before any is pruned: they have the meaning of the guard. -/
theorem strongest_any (levels : ControlId → ℕ) {dnf : List CtlTerm} {strongest : List Demands} (hask : ∀ t ∈ dnf, t ≠ [])
    (h : (dnf.mapM fun term => strongestOf loc catalog [] (term.insertionSort fun a b => toLex a ≤ toLex b)) =
      .ok strongest) :
    (∀ d ∈ strongest, Demanding d ∧ d ≠ []) ∧
      strongest.any (·.meets levels) = dnf.any (·.all (thresholdHolds catalog levels)) := by
  have hf := mapM_ok.mp h
  clear h
  induction hf with
  | nil => exact ⟨by simp,rfl⟩
  | @cons term d dnf strongest hd _ ih =>
    have hperm : (term.insertionSort fun a b => toLex a ≤ toLex b).Perm term := List.perm_insertionSort _ _
    obtain ⟨hdemanding,hne,hmeets⟩ := strongestOf_meets levels demanding_nil hd
    obtain ⟨hall,hany⟩ := ih fun t ht => hask t (by simp [ht])
    refine ⟨List.forall_mem_cons.mpr ⟨⟨hdemanding,fun hnil => ?_⟩,hall⟩,?_⟩
    · rw [hne hnil] at hperm
      exact hask term (by simp) hperm.symm.eq_nil
    · rw [List.any_cons,List.any_cons,hany,hmeets,hperm.all_eq]
      rfl

theorem prune_any {resolved : List Demands} (h : ∀ d ∈ resolved, Demanding d) :
    (Pruning.prune implies resolved).any (·.meets levels) = resolved.any (·.meets levels) := by
  rw [Bool.eq_iff_iff,List.any_eq_true,List.any_eq_true]
  constructor
  · rintro ⟨d,hd,hmeets⟩
    exact ⟨d,Pruning.mem_of_mem_prune hd,hmeets⟩
  · rintro ⟨d,hd,hmeets⟩
    obtain ⟨e,he,hed⟩ := Pruning.exists_le_of_mem (fun d hd => implies_refl (h d hd).nodup) implies_trans hd
    exact ⟨e,he,meets_of_implies hed hmeets⟩

theorem canonicalTerm_perm (d : Demands) : (canonicalTerm d).Perm d := List.perm_insertionSort _ _

theorem implies_perm {w w' s s' : Demands} (hw : w.Perm w') (hs : s.Perm s') (hn : (s.map (·.1)).Nodup)
    (h : implies w s = true) : implies w' s' = true := by
  refine implies_iff.mpr fun p hp => ?_
  obtain ⟨level,hget,hle⟩ := implies_iff.mp h p (hw.mem_iff.mpr hp)
  exact ⟨level,Dict.get?_of_mem ((hs.map _).nodup_iff.mp hn) (hs.mem_iff.mp (Dict.get?_mem hget)),hle⟩

/-- The terms a guard compiles to. -/
structure Compiled (catalog : Catalog) (node : CtlNode) (terms : List Demands) : Prop where
  demanding : ∀ t ∈ terms, Demanding t
  meaning : ∀ levels, terms.any (·.meets levels) = node.eval (thresholdHolds catalog levels)
  nodup : terms.Nodup
  antichain : ∀ s ∈ terms, ∀ t ∈ terms, implies s t = true → s = t

theorem canonicalTerms_compiled {node : CtlNode} {terms : List Demands} (hask : Asking node)
    (h : canonicalTerms loc catalog node = .ok terms) : Compiled catalog node terms := by
  obtain ⟨dnf,hdnf,h⟩ := Runs.bind_ok.mp h
  obtain ⟨strongest,hstrongest,h⟩ := Runs.bind_ok.mp h
  dsimp only at h
  split_ifs at h
  have hterms := Runs.pure_ok.mp h
  have hall := fun levels => strongest_any levels (hask dnf hdnf) hstrongest
  have hfilter : strongest.filter (· ≠ []) = strongest :=
    List.filter_eq_self.mpr fun d hd => decide_eq_true ((hall fun _ => 0).1 d hd).2
  rw [hfilter] at hterms
  have hdemanding : ∀ d ∈ strongest, Demanding d := fun d hd => ((hall fun _ => 0).1 d hd).1
  have hmem : ∀ t, t ∈ terms ↔ ∃ d ∈ Pruning.prune implies strongest, canonicalTerm d = t := fun t => by
    rw [← hterms,List.mem_insertionSort,List.mem_dedup,List.mem_map]
  have hkept : ∀ d ∈ Pruning.prune implies strongest, Demanding d := fun d hd =>
    hdemanding d (Pruning.mem_of_mem_prune hd)
  refine ⟨fun t ht => ?_,fun levels => ?_,?_,fun s hs t ht hst => ?_⟩
  · obtain ⟨d,hd,rfl⟩ := (hmem t).mp ht
    exact (hkept d hd).perm (canonicalTerm_perm d).symm
  · calc terms.any (·.meets levels)
        = (Pruning.prune implies strongest).any (·.meets levels) := by
          rw [Bool.eq_iff_iff,List.any_eq_true,List.any_eq_true]
          simp only [hmem,exists_exists_and_eq_and,meets_perm (canonicalTerm_perm _)]
      _ = strongest.any (·.meets levels) := prune_any hdemanding
      _ = dnf.any (·.all (thresholdHolds catalog levels)) := (hall levels).2
      _ = node.eval (thresholdHolds catalog levels) := (ctlTerms_eval node hdnf).symm
  · rw [← hterms]
    exact (List.perm_insertionSort _ _).nodup_iff.mpr (List.nodup_dedup _)
  · obtain ⟨d,hd,rfl⟩ := (hmem s).mp hs
    obtain ⟨e,he,rfl⟩ := (hmem t).mp ht
    have hn : ((canonicalTerm e).map (·.1)).Nodup := ((hkept e he).perm (canonicalTerm_perm e).symm).nodup
    rw [Pruning.eq_of_le hd he (implies_perm (canonicalTerm_perm d) (canonicalTerm_perm e) hn hst)]

/-- A text compiles to terms that have the meaning of its guard. -/
theorem compileBlockedWhen_meaning {isdigit : Char → Bool} {text : String} {terms : List Demands}
    (h : compileBlockedWhen isdigit loc text catalog = .ok terms) :
    (∀ t ∈ terms, Demanding t) ∧ terms.Nodup ∧ (∀ s ∈ terms, ∀ t ∈ terms, implies s t = true → s = t) ∧
      ∀ levels, terms.any (·.meets levels) = guardHolds isdigit loc text catalog levels := by
  unfold compileBlockedWhen at h
  unfold guardHolds
  split at h
  · rename_i htext
    rw [← Except.ok.inj h]
    simp only [List.not_mem_nil,List.nodup_nil,List.any_nil,if_pos htext]
    simp
  · rename_i htext
    obtain ⟨tokens,htokens,h⟩ := Runs.bind_ok.mp h
    obtain ⟨node,hnode,h⟩ := Runs.bind_ok.mp h
    obtain ⟨canonical,hcanonical,h⟩ := Runs.bind_ok.mp h
    obtain ⟨again,-,h⟩ := Runs.bind_ok.mp h
    split_ifs at h
    cases Runs.pure_ok.mp h
    have hc := canonicalTerms_compiled (asking_parse hnode) hcanonical
    refine ⟨hc.demanding,hc.nodup,hc.antichain,fun levels => ?_⟩
    rw [hc.meaning,if_neg htext,Runs.bind_ok.mpr ⟨tokens,htokens,hnode⟩]

end Canonical

/-! ### Masks -/

section Masks

variable {bits : BitTable}

theorem bitOf_ok {control : ControlId} {level pos : ℕ} (h : bits.bitOf control level = .ok pos) :
    ∃ e ∈ bits.live, e.key = (control,level) ∧ e.pos = pos := by
  unfold BitTable.bitOf at h
  split at h
  · rename_i e he
    have hkey := List.find?_some he
    rw [decide_eq_true_eq] at hkey
    exact ⟨e,bits.mem_live.mpr ⟨List.mem_of_find?_eq_some he,hkey.2.2⟩,Prod.ext hkey.1 hkey.2.1,Except.ok.inj h⟩
  · cases h

/-- A cut has the bit of a live entry exactly when the control is at least at its level. -/
theorem exists_bit_iff {literals : List ThresholdLiteral} (hl : bits.literals = .ok literals) {e : BitEntry}
    (he : e ∈ bits.live) {levels : ControlId → ℕ} :
    (∃ a ∈ literals, a.level ≤ levels a.controlId ∧ a.bit = e.pos) ↔ e.level ≤ levels e.controlId := by
  have hf := forall₂_mem (mapM_ok.mp hl)
  constructor
  · rintro ⟨a,ha,hlevel,hbit⟩
    obtain ⟨⟨e',rank⟩,hmem,h⟩ := hf.2 a ha
    obtain ⟨hc,hle,hpos,-⟩ := ThresholdLiteral.construct_ok.mp h
    have he' := List.mem_of_getElem? (List.mem_zipIdx_iff_getElem?.mp hmem)
    have : e' = e := List.inj_on_of_nodup_map bits.live_pos_nodup he' he (hpos.symm.trans hbit)
    rwa [hc,hle,this] at hlevel
  · intro hlevel
    obtain ⟨rank,hrank⟩ := List.mem_iff_getElem?.mp he
    obtain ⟨a,ha,h⟩ := hf.1 (e,rank) (List.mem_zipIdx_iff_getElem?.mpr hrank)
    obtain ⟨hc,hle,hpos,-⟩ := ThresholdLiteral.construct_ok.mp h
    exact ⟨a,ha,by rwa [hc,hle],hpos⟩

theorem AtomTable.build_literals {literals : List ThresholdLiteral} {atoms : AtomTable}
    (h : AtomTable.build literals = .ok atoms) : atoms.literals = literals := by
  unfold AtomTable.build at h
  split at h
  · cases h
  · rw [← Except.ok.inj h]

variable {loc : String} {literals : List ThresholdLiteral} {atoms : AtomTable} (hl : bits.literals = .ok literals)
  (hb : AtomTable.build literals = .ok atoms)

include hl hb

/-- The mask of a term is part of a cut exactly when the levels meet the term. -/
theorem termMask_cut {levels : ControlId → ℕ} {minimality : Minimality} {cut : Cut}
    (hcut : atoms.cutOfLevels levels minimality = .ok cut) {t : Demands} {mask : Mask}
    (h : termMask loc bits t = .ok mask) : mask &&& cut.mask = mask ↔ t.meets levels = true := by
  obtain ⟨_,-,h⟩ := Runs.bind_ok.mp h
  obtain ⟨positions,hpositions,h⟩ := Runs.bind_ok.mp h
  have hf := forall₂_mem (mapM_ok.mp hpositions)
  obtain ⟨cut',hcut',-,-,hmask,-⟩ := @AtomTable.cutOfLevels_ok atoms levels minimality
  cases hcut.symm.trans hcut'
  -- a position of the mask is the bit of a live entry, which the cut has at the entry's level
  have hbit : ∀ (p : ControlId × ℕ) (pos : ℕ), bits.bitOf p.1 p.2 = .ok pos →
      pos < 64 ∧ (cut.mask.getLsbD pos = true ↔ p.2 ≤ levels p.1) := by
    intro p pos hpos
    obtain ⟨e,he,hkey,rfl⟩ := bitOf_ok hpos
    refine ⟨(bits.entry_valid (bits.mem_live.mp he).1).2.1,?_⟩
    rw [hmask,maskOf_getLsbD]
    simp only [AtomTable.mem_literalsAt,AtomTable.build_literals hb,and_assoc]
    rw [exists_bit_iff hl he]
    have hc : e.controlId = p.1 := congrArg Prod.fst hkey
    have hlevel : e.level = p.2 := congrArg Prod.snd hkey
    rw [hc,hlevel]
  rw [← Runs.pure_ok.mp h,and_eq_iff,Demands.meets,List.all_eq_true]
  simp only [unionMask_getLsbD,List.mem_map,exists_exists_and_eq_and,BitVec.getLsbD_twoPow,Bool.and_eq_true,
    decide_eq_true_eq]
  constructor
  · intro hall p hp
    obtain ⟨pos,hpos,hb⟩ := hf.1 p hp
    obtain ⟨hlt,hiff⟩ := hbit p pos hb
    exact hiff.mp (hall pos ⟨pos,hpos,hlt,rfl⟩)
  · rintro hall _ ⟨pos,hpos,-,rfl⟩
    obtain ⟨p,hp,hb⟩ := hf.2 pos hpos
    exact (hbit p pos hb).2.mpr (hall p hp)

/-- The masks of the terms block an instance exactly when the levels meet a term. -/
theorem instanceBlocked_masks {levels : ControlId → ℕ} {minimality : Minimality} {cut : Cut}
    (hcut : atoms.cutOfLevels levels minimality = .ok cut) {terms : List Demands} {masks : List Mask}
    (h : termsToMasks loc bits terms = .ok masks) {i : InstanceFields} (hi : i.blockers = masks) :
    instanceBlocked i cut.mask = terms.any (·.meets levels) := by
  obtain ⟨read,hread,h⟩ := Runs.bind_ok.mp h
  have hf := forall₂_mem (mapM_ok.mp hread)
  rw [instanceBlocked,hi,← Runs.pure_ok.mp h,Bool.eq_iff_iff,List.any_eq_true,List.any_eq_true]
  simp only [List.mem_insertionSort,List.mem_dedup,decide_eq_true_eq]
  constructor
  · rintro ⟨mask,hmask,hsub⟩
    obtain ⟨t,ht,hterm⟩ := hf.2 mask hmask
    exact ⟨t,ht,(termMask_cut hl hb hcut hterm).mp hsub⟩
  · rintro ⟨t,ht,hmeets⟩
    obtain ⟨mask,hmask,hterm⟩ := hf.1 t ht
    exact ⟨mask,hmask,(termMask_cut hl hb hcut hterm).mpr hmeets⟩

end Masks

/-- Under every assignment of levels, an instance with the compiled masks is blocked by the cut exactly
when the parsed guard is true, and no compiled term is implied by another. -/
theorem blocked_when_masks {isdigit : Char → Bool} {loc text : String} {catalog : Catalog} {bits : BitTable}
    {terms : List Demands} {masks : List Mask} {literals : List ThresholdLiteral} {atoms : AtomTable}
    (hterms : compileBlockedWhen isdigit loc text catalog = .ok terms)
    (hmasks : termsToMasks loc bits terms = .ok masks) (hl : bits.literals = .ok literals)
    (hb : AtomTable.build literals = .ok atoms) :
    (∀ (levels : ControlId → ℕ) (minimality : Minimality), ∃ cut,
      atoms.cutOfLevels levels minimality = .ok cut ∧ ∀ i : InstanceFields, i.blockers = masks →
        instanceBlocked i cut.mask = guardHolds isdigit loc text catalog levels) ∧
    terms.Nodup ∧ ∀ s ∈ terms, ∀ t ∈ terms, s ≠ t →
      implies s t = false ∧ ∃ levels, t.meets levels = true ∧ s.meets levels = false := by
  obtain ⟨hdemanding,hnodup,hanti,hmeaning⟩ := compileBlockedWhen_meaning hterms
  refine ⟨fun levels minimality => ?_,hnodup,fun s hs t ht hne => ?_⟩
  · obtain ⟨cut,hcut,-⟩ := @AtomTable.cutOfLevels_ok atoms levels minimality
    refine ⟨cut,hcut,fun i hi => ?_⟩
    rw [instanceBlocked_masks hl hb hcut hmasks hi,hmeaning]
  · have himplies : implies s t = false := Bool.eq_false_iff.mpr fun h => hne (hanti s hs t ht h)
    exact ⟨himplies,exists_levels (hdemanding t ht).nodup (hdemanding s hs).pos himplies⟩

def endpointCatalog : Catalog := ⟨[edrControl,mfaControl],by decide⟩

/-- The tokens of `ctl.mfa >= on or ctl.edr >= on`. -/
def severedTokens : List Token := [⟨.ident,"ctl"⟩,⟨.op,"."⟩,⟨.ident,"mfa"⟩,⟨.op,">="⟩,⟨.ident,"on"⟩,
  ⟨.ident,"or"⟩,⟨.ident,"ctl"⟩,⟨.op,"."⟩,⟨.ident,"edr"⟩,⟨.op,">="⟩,⟨.ident,"on"⟩]

def severedNode : CtlNode := .or [.threshold "mfa" "on",.threshold "edr" "on"]

def severedTerms : List Demands := [[("ctl:edr",1)],[("ctl:mfa",1)]]

theorem ok_of_decide {α : Type} [DecidableEq α] {r : Fallible α} {a : α}
    (h : (match r with | .error _ => false | .ok b => decide (b = a)) = true) : r = .ok a := by
  split at h
  · cases h
  · rw [of_decide_eq_true h]

theorem severed_compiles :
    compileBlockedWhen Char.isDigit "rule" "ctl.mfa >= on or ctl.edr >= on" endpointCatalog = .ok severedTerms := by
  have hlex : Lexer.lex Char.isDigit "rule" "ctl.mfa >= on or ctl.edr >= on" = .ok severedTokens :=
    ok_of_decide (by decide)
  have hparse : CtlParser.parse "rule" severedTokens = .ok severedNode := rfl
  have hterms : canonicalTerms "rule" endpointCatalog severedNode = .ok severedTerms := ok_of_decide (by decide)
  have htext : ¬"ctl.mfa >= on or ctl.edr >= on".toList.all isSpace = true := by decide
  rw [compileBlockedWhen,if_neg htext]
  exact Runs.bind_ok.mpr ⟨_,hlex,Runs.bind_ok.mpr ⟨_,hparse,Runs.bind_ok.mpr ⟨_,hterms,
    Runs.bind_ok.mpr ⟨_,hterms,rfl⟩⟩⟩⟩

theorem blocked_when_masks_severed : ∃ atoms : AtomTable, grownLock.literals >>= AtomTable.build = .ok atoms ∧
    ∀ (levels : ControlId → ℕ) (minimality : Minimality), ∃ cut,
      atoms.cutOfLevels levels minimality = .ok cut ∧ ∀ i : InstanceFields, i.blockers = [1#64,2#64] →
        instanceBlocked i cut.mask =
          guardHolds Char.isDigit "rule" "ctl.mfa >= on or ctl.edr >= on" endpointCatalog levels := by
  have hmasks : termsToMasks "rule" grownLock severedTerms = .ok [1#64,2#64] := ok_of_decide (by decide)
  have hbuilt : (match grownLock.literals >>= AtomTable.build with
    | .error _ => false
    | .ok _ => true) = true := by decide
  split at hbuilt
  · cases hbuilt
  · rename_i atoms hatoms
    obtain ⟨literals,hl,hb⟩ := Runs.bind_ok.mp hatoms
    exact ⟨atoms,hatoms,(blocked_when_masks severed_compiles hmasks hl hb).1⟩

end Spectra
