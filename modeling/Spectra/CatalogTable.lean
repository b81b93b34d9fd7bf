import Spectra.BitLock
import Spectra.CutOrder

/-! `AtomTable.from_catalog`: the literal universe of a catalog under a bit lock. The literals, in
canonical order, are those of the catalog whatever its order and its bits. -/
namespace Spectra

/-- `cut.ControlSpec`, as the table reads it; `levels[0]` asserts nothing. -/
structure Cut.ControlSpec where
  control : String
  levels : List String
  deriving DecidableEq, Repr

def Cut.ControlSpec.maxLevel (spec : Cut.ControlSpec) : ℕ := spec.levels.length-1

/-- `LiteralId.of`. -/
def literalIdOf (control : String) (level : ℕ) : Fallible String :=
  if level ≤ 99 then .ok ("lit:"++control++"@"++toString level)
  else .error (ErrorType.identifierError.mk ("LiteralId.of: level out of range 0..99: "++toString level))

def ThresholdLiteral.key (a : ThresholdLiteral) : ControlId × ℕ := (a.controlId,a.level)

theorem ThresholdLiteral.key_eq {a b : ThresholdLiteral} :
    a.key = b.key ↔ a.controlId = b.controlId ∧ a.level = b.level := Prod.mk_inj

def ThresholdLiteral.literalId (a : ThresholdLiteral) : String :=
  "lit:"++Checker.removePrefix "ctl:" a.controlId++"@"++toString a.level

/-- Every literal of the catalog in canonical order. -/
def catalogLiterals (catalog : List Cut.ControlSpec) : List (String × ℕ) :=
  (catalog.insertionSort fun a b => a.control ≤ b.control).flatMap fun spec =>
    (List.range' 1 spec.maxLevel).map fun level => (spec.control,level)

/-- The literal at a rank, with its bit of the lock. -/
def lockedLiteral (bits : List (String × ℤ)) (control : String) (level rank : ℕ) :
    Fallible ThresholdLiteral :=
  match literalIdOf control level with
  | .error e => .error e
  | .ok literalId => match Dict.get? bits literalId with
    | none => .error (ErrorType.schemaError.mk
        ("AtomTable.from_catalog: "++literalId++" has no bit in the lock"))
    | some bit =>
      if bit < 0 then .error (widthError "u8")
      else ThresholdLiteral.construct (controlOf control) level bit.toNat rank

def AtomTable.fromCatalog (catalog : List Cut.ControlSpec) (bits : List (String × ℤ)) :
    Fallible AtomTable :=
  match (catalogLiterals catalog).zipIdx.mapM fun (key,rank) => lockedLiteral bits key.1 key.2 rank with
  | .error e => .error e
  | .ok literals => AtomTable.build literals

/-! ### The literals of a catalog -/

theorem lockedLiteral_key {bits : List (String × ℤ)} {control : String} {level rank : ℕ}
    {a : ThresholdLiteral} (h : lockedLiteral bits control level rank = .ok a) :
    a.key = (controlOf control,level) := by
  unfold lockedLiteral at h
  split at h
  · cases h
  · split at h
    · cases h
    · split at h
      · cases h
      · obtain ⟨hc,hl,-⟩ := ThresholdLiteral.construct_ok.mp h
        exact Prod.ext hc hl

variable {catalog : List Cut.ControlSpec} {bits : List (String × ℤ)} {atoms : AtomTable}

theorem fromCatalog_keys (h : AtomTable.fromCatalog catalog bits = .ok atoms) :
    atoms.literals.map (·.key) = (catalogLiterals catalog).map fun k => (controlOf k.1,k.2) := by
  unfold AtomTable.fromCatalog at h
  split at h
  · cases h
  · rename_i literals hlits
    have hatoms : atoms.literals = literals := by
      unfold AtomTable.build at h
      split at h
      · cases h
      · rw [← Except.ok.inj h]
    have hkeys := mapM_ok.mp hlits
    rw [hatoms,← map_eq_of_forall₂ hkeys fun k a hk => (lockedLiteral_key hk).symm]
    conv_rhs => rw [← List.zipIdx_map_fst 0 (catalogLiterals catalog)]
    rw [List.map_map]
    rfl

theorem mem_catalogLiterals_iff {k : String × ℕ} : k ∈ catalogLiterals catalog ↔
    ∃ spec ∈ catalog, spec.control = k.1 ∧ 1 ≤ k.2 ∧ k.2 ≤ spec.maxLevel := by
  simp only [catalogLiterals,List.mem_flatMap,List.mem_insertionSort,List.mem_map,List.mem_range'_1]
  constructor
  · rintro ⟨spec,hs,level,hl,rfl⟩
    exact ⟨spec,hs,rfl,hl.1,by omega⟩
  · rintro ⟨spec,hs,hc,h₁,h₂⟩
    exact ⟨spec,hs,k.2,⟨h₁,by omega⟩,Prod.ext hc rfl⟩

theorem AtomTable.keys_nodup : (atoms.literals.map (·.key)).Nodup := by
  have h := atoms.ascending
  rw [List.pairwise_map] at h
  rw [List.Nodup,List.pairwise_map]
  exact h.imp fun hab heq => hab.ne (congrArg toLex heq)

theorem controlOf_inj {s t : String} (h : controlOf s = controlOf t) : s = t := by
  have hname := congrArg (Checker.removePrefix "ctl:") h
  rwa [controlOf,controlOf,Checker.removePrefix_append,Checker.removePrefix_append] at hname

/-- A table that has the literals of another, and no further literal of its controls. -/
structure AtomTable.Extends (atoms' atoms : AtomTable) : Prop where
  kept : ∀ a ∈ atoms.literals, ∃ b ∈ atoms'.literals, b.key = a.key
  shared : ∀ b ∈ atoms'.literals, b.controlId ∈ atoms.controls → ∃ a ∈ atoms.literals, a.key = b.key

theorem mem_keys_iff (h : AtomTable.fromCatalog catalog bits = .ok atoms) {key : ControlId × ℕ} :
    (∃ a ∈ atoms.literals, a.key = key) ↔
      ∃ spec ∈ catalog, controlOf spec.control = key.1 ∧ 1 ≤ key.2 ∧ key.2 ≤ spec.maxLevel := by
  have hmem : (∃ a ∈ atoms.literals, a.key = key) ↔
      ∃ k ∈ catalogLiterals catalog, (controlOf k.1,k.2) = key := by
    rw [← List.mem_map,fromCatalog_keys h,List.mem_map]
  rw [hmem]
  constructor
  · rintro ⟨k,hk,rfl⟩
    obtain ⟨spec,hs,hc,hl⟩ := mem_catalogLiterals_iff.mp hk
    exact ⟨spec,hs,congrArg controlOf hc,hl⟩
  · rintro ⟨spec,hs,hc,hl⟩
    exact ⟨(spec.control,key.2),mem_catalogLiterals_iff.mpr ⟨spec,hs,rfl,hl⟩,Prod.ext hc rfl⟩

/-- Controls added to a catalog in any place, under any lock, add literals of their own only. -/
theorem fromCatalog_extends {catalog' added : List Cut.ControlSpec} {bits' : List (String × ℤ)}
    {atoms' : AtomTable} (hperm : catalog'.Perm (added++catalog))
    (h : AtomTable.fromCatalog catalog bits = .ok atoms)
    (h' : AtomTable.fromCatalog catalog' bits' = .ok atoms') : atoms'.Extends atoms where
  kept a ha := by
    obtain ⟨spec,hs,hrest⟩ := (mem_keys_iff h).mp ⟨a,ha,rfl⟩
    exact (mem_keys_iff h').mpr ⟨spec,hperm.mem_iff.mpr (List.mem_append_right _ hs),hrest⟩
  shared b hb hc := by
    obtain ⟨spec',hs',hcontrol',hl'⟩ := (mem_keys_iff h').mp ⟨b,hb,rfl⟩
    refine (mem_keys_iff h).mpr ⟨spec',?_,hcontrol',hl'⟩
    refine (List.mem_append.mp (hperm.mem_iff.mp hs')).resolve_left fun hadded => ?_
    obtain ⟨a,ha,hac⟩ := AtomTable.mem_controls.mp hc
    obtain ⟨spec,hs,hcontrol,hl⟩ := (mem_keys_iff h).mp ⟨a,ha,rfl⟩
    -- both entries would make the first literal of this control
    have hnodup : (catalogLiterals catalog').Nodup := by
      have := @AtomTable.keys_nodup atoms'
      rw [fromCatalog_keys h'] at this
      exact this.of_map _
    have hdisjoint := (List.nodup_flatMap.mp hnodup).2
    have hall := ((List.perm_insertionSort _ _).trans hperm).pairwise hdisjoint fun hd => hd.symm
    have hcross := (List.pairwise_append.mp hall).2.2 spec' hadded spec hs
    have hsame := controlOf_inj (hcontrol'.trans (hac.symm.trans hcontrol.symm))
    have hfirst : ∀ {s : Cut.ControlSpec}, 1 ≤ s.maxLevel → (s.control,1) ∈
        (List.range' 1 s.maxLevel).map fun level => (s.control,level) := fun hs =>
      List.mem_map.mpr ⟨1,List.mem_range'_1.mpr (by omega),rfl⟩
    refine List.disjoint_left.mp hcross (hfirst (hl'.1.trans hl'.2)) ?_
    rw [hsame]
    exact hfirst (hl.1.trans hl.2)

end Spectra
