import Spectra.Bundle
import Spectra.HonestLabels

/-! `spectra_vs.rules`, the control catalog and the append-only bit lock, and what the three
validators of a published atom table make of the literals of a lock. -/
namespace Spectra

open Checker

/-! ### The catalog -/

def controlOf (name : String) : ControlId := "ctl:"++name

structure ControlSpecFields where
  control : String
  levels : List String
  provenance : String
  deriving DecidableEq, Repr

namespace ControlSpecFields

variable (c : ControlSpecFields)

def controlId : ControlId := controlOf c.control

/-- `levels[0]` has no literal. -/
def maxLevel : ℕ := c.levels.length-1

def postInit : Fallible Unit := checks ([
  ensure (isSnake c.control) (ErrorType.identifierError.mk "ControlSpec.control_id"),
  ensure (2 ≤ c.levels.length) (ErrorType.schemaError.mk
    (c.controlId++": a control needs at least two levels to carry a literal"))]++
  c.levels.zipIdx.flatMap (fun (name,index) => [
    ensure (isSnake name) (ErrorType.identifierError.mk (c.controlId++" level")),
    ensure (name ∉ c.levels.take index)
      (ErrorType.schemaError.mk (c.controlId++": duplicate level name "++name))])++[
  ensure (c.provenance ≠ "")
    (ErrorType.schemaError.mk (c.controlId++": a control with no provenance is a knob"))])

end ControlSpecFields

structure ControlSpec extends ControlSpecFields where
  valid : toControlSpecFields.postInit = .ok ()
  deriving DecidableEq

structure Catalog where
  controls : List ControlSpec
  valid : checkStrictlyAscending "Catalog" (controls.map (·.controlId)) = .ok ()

/-- Every literal of the catalog in canonical order. -/
def Catalog.literals (catalog : Catalog) : List (ControlId × ℕ) :=
  catalog.controls.flatMap fun spec => (List.range' 1 spec.maxLevel).map fun level => (spec.controlId,level)

/-! ### The lock -/

inductive BitState where
  | live | tombstone
  deriving DecidableEq, Repr

def BitState.text : BitState → String
  | .live => "live"
  | .tombstone => "tombstone"

/-- One row of the lock: a literal pinned to a bit. -/
structure BitEntry where
  pos : ℕ
  control : String
  level : ℕ
  state : BitState
  deriving DecidableEq, Repr

namespace BitEntry

variable (e : BitEntry)

def controlId : ControlId := controlOf e.control

def key : ControlId × ℕ := (e.controlId,e.level)

def postInit : Fallible Unit := checks [
  ensure (isSnake e.control) (ErrorType.identifierError.mk "BitEntry.control_id"),
  ensure (e.pos < 256) (widthError "u8"),
  ensure (e.pos < 64) (ErrorType.limitError.mk
    ("bit position "++toString e.pos++" is outside the 64-bit mask")),
  ensure (1 ≤ e.level) (ErrorType.schemaError.mk
    "BitEntry.level starts at 1; level 0 asserts nothing")]

end BitEntry

/-- A pair of a control and a level as a message prints it. -/
def literalText (key : ControlId × ℕ) : String := "('"++key.1++"', "++toString key.2++")"

def checkBitTable (entries : List BitEntry) : Fallible Unit := checks ([
  checks (entries.map (·.postInit)),
  checkStrictlyAscending "BitTable.entries" (entries.map (·.pos))]++
  entries.zipIdx.map fun (e,index) => ensure (e.key ∉ (entries.take index).map (·.key))
    (ErrorType.schemaError.mk ("BitTable: "++literalText e.key++" appears twice in the lock")))

structure BitTable where
  entries : List BitEntry
  valid : checkBitTable entries = .ok ()

/-- The literal a live entry at a rank stands for. -/
def ThresholdLiteral.construct (controlId : ControlId) (level bit rank : ℕ) : Fallible ThresholdLiteral :=
  if hl : level ≤ 99 then
    if h₁ : 1 ≤ level then
      if hb : bit < 64 then
        if hr : rank < 65536 then .ok ⟨controlId,level,bit,rank,⟨h₁,hl⟩,hb,hr⟩
        else .error (widthError "u16")
      else if bit < 256 then .error ⟨.schemaError,"E-LIMIT-COUNT","ThresholdLiteral.bit "++toString bit++
        " is outside the 64-bit mask width"⟩
      else .error (widthError "u8")
    else .error (ErrorType.schemaError.mk "ThresholdLiteral.level starts at 1; level 0 asserts nothing")
  else .error (ErrorType.identifierError.mk ("ThresholdLiteral.level: level out of range 0..99: "++
    toString level))

namespace BitTable

variable (bits : BitTable)

/-- The live entries in canonical order. -/
def live : List BitEntry :=
  (bits.entries.filter (·.state = .live)).insertionSort fun a b => toLex a.key ≤ toLex b.key

/-- Every live literal, ascending by rank. -/
def literals : Fallible (List ThresholdLiteral) :=
  bits.live.zipIdx.mapM fun (e,rank) => ThresholdLiteral.construct e.controlId e.level e.pos rank

/-- The literals of the catalog have live bits, and no other literal has one. -/
def checkCovers (catalog : Catalog) : Fallible Unit :=
  let wanted := catalog.literals
  let held := (bits.entries.filter (·.state = .live)).map (·.key)
  let missing := (wanted.filter (· ∉ held)).insertionSort fun a b => toLex a ≤ toLex b
  let extra := (held.filter (· ∉ wanted)).insertionSort fun a b => toLex a ≤ toLex b
  ensure (missing = [] ∧ extra = []) ⟨.guardError,"E-LITERAL-TABLE","lock and catalog disagree; missing ["++
    ", ".intercalate (missing.map literalText)++"], unexpected ["++
    ", ".intercalate (extra.map literalText)++"]"⟩

end BitTable

/-- An entry in the lock file. -/
def BitEntry.lockText (e : BitEntry) : Bytes := octets "\n[[bit]]\npos = "++Json.decimal e.pos++
  octets "\ncontrol_id = \""++octets e.control++octets "\"\nlevel = "++Json.decimal e.level++
  octets "\nstate = \""++octets e.state.text++octets "\"\n"

/-- `lock_text`. -/
def BitTable.lockText (bits : BitTable) : Bytes := octets "# config/vs/catalog-bits.lock\n"++
  octets "# APPEND-ONLY. A (control_id, level) keeps its pos forever; removal sets\n"++
  octets "# state = \"tombstone\" and the pos is never reused.\n"++bits.entries.flatMap (·.lockText)

/-- The value the lock file spells. -/
def BitTable.lockValue (bits : BitTable) : Json := .obj (if bits.entries = [] then [] else [("bit",
  .list (bits.entries.map fun e => .obj [("pos",.int e.pos),("control_id",.str e.control),
    ("level",.int e.level),("state",.str e.state.text)]))])

/-! ### What the constructors leave -/

theorem nodup_of_fresh {α : Type} {l : List α} (h : ∀ p ∈ l.zipIdx, p.1 ∉ l.take p.2) : l.Nodup := by
  refine List.pairwise_iff_getElem.mpr fun i j hi hj hij heq => ?_
  refine h (l[j],j) (List.mem_zipIdx_iff_getElem?.mpr (by simp [hj])) ?_
  exact heq ▸ List.mem_take_iff_getElem.mpr ⟨i,by omega,rfl⟩

/-- An ascending list of the numbers from one to `n`. -/
theorem eq_range'_of_ascending {l : List ℕ} {n : ℕ} (hs : l.Pairwise (· < ·))
    (hm : ∀ i, i ∈ l ↔ 1 ≤ i ∧ i ≤ n) : l = List.range' 1 n := by
  have hperm : l.Perm (List.range' 1 n) := by
    refine (List.perm_ext_iff_of_nodup (hs.imp fun h => h.ne) List.nodup_range').mpr fun i => ?_
    rw [hm,List.mem_range'_1]
    omega
  exact hperm.eq_of_pairwise' hs List.pairwise_lt_range'

namespace BitTable

variable (bits : BitTable)

theorem entry_valid {e : BitEntry} (he : e ∈ bits.entries) :
    isSnake e.control = true ∧ e.pos < 64 ∧ 1 ≤ e.level := by
  have h := bits.valid
  simp only [checkBitTable,List.cons_append,checks_cons,checks_map] at h
  have hv := h.1 e he
  simp only [BitEntry.postInit,checks_cons,ensure_ok] at hv
  exact ⟨hv.1,hv.2.2.1,hv.2.2.2.1⟩

theorem pos_ascending : (bits.entries.map (·.pos)).Pairwise (· < ·) := by
  have h := bits.valid
  simp only [checkBitTable,List.cons_append,checks_cons] at h
  exact checkStrictlyAscending_ok.mp h.2.1

theorem nodup_keys : (bits.entries.map (·.key)).Nodup := by
  have h := bits.valid
  simp only [checkBitTable,List.cons_append,List.nil_append,checks_cons,checks_map,ensure_ok] at h
  refine nodup_of_fresh fun p hp => ?_
  rw [List.zipIdx_map,List.mem_map] at hp
  obtain ⟨q,hq,rfl⟩ := hp
  rw [← List.map_take]
  exact h.2.2 q hq

theorem mem_live {e : BitEntry} : e ∈ bits.live ↔ e ∈ bits.entries ∧ e.state = .live := by
  rw [live,List.mem_insertionSort,List.mem_filter,decide_eq_true_eq]

theorem live_perm : bits.live.Perm (bits.entries.filter (·.state = .live)) := List.perm_insertionSort _ _

theorem live_ascending : (bits.live.map fun e => toLex e.key).Pairwise (· < ·) := by
  have hn : (bits.live.map (·.key)).Nodup :=
    (bits.live_perm.map _).nodup_iff.mpr (bits.nodup_keys.sublist (List.filter_sublist.map _))
  have hs : bits.live.Pairwise fun a b => toLex a.key ≤ toLex b.key := List.pairwise_insertionSort _ _
  refine List.pairwise_map.mpr ((hs.and (List.pairwise_map.mp hn)).imp fun h => ?_)
  exact lt_of_le_of_ne h.1 fun he => h.2 (toLex.injective he)

theorem live_pos_nodup : (bits.live.map (·.pos)).Nodup := by
  refine (bits.live_perm.map _).nodup_iff.mpr ?_
  exact (bits.pos_ascending.sublist (List.filter_sublist.map _)).imp fun h => h.ne

/-- There are no more live entries than bits. -/
theorem live_length : bits.live.length ≤ 64 := by
  have hsub : (bits.live.map (·.pos)) ⊆ List.range 64 := by
    intro pos hpos
    obtain ⟨e,he,rfl⟩ := List.mem_map.mp hpos
    exact List.mem_range.mpr (bits.entry_valid ((bits.mem_live).mp he).1).2.1
  simpa using (bits.live_pos_nodup.subperm hsub).length_le

end BitTable

/-! ### The literals of a lock -/

theorem mem_catalogLiterals {catalog : Catalog} {key : ControlId × ℕ} : key ∈ catalog.literals ↔
    ∃ spec ∈ catalog.controls, spec.controlId = key.1 ∧ 1 ≤ key.2 ∧ key.2 ≤ spec.maxLevel := by
  simp only [Catalog.literals,List.mem_flatMap,List.mem_map,List.mem_range'_1]
  constructor
  · rintro ⟨spec,hs,level,hl,rfl⟩
    exact ⟨spec,hs,rfl,hl.1,by omega⟩
  · rintro ⟨spec,hs,hc,h₁,h₂⟩
    exact ⟨spec,hs,key.2,⟨h₁,by omega⟩,Prod.ext hc rfl⟩

theorem ThresholdLiteral.construct_ok {controlId : ControlId} {level bit rank : ℕ} {a : ThresholdLiteral} :
    ThresholdLiteral.construct controlId level bit rank = .ok a ↔
      a.controlId = controlId ∧ a.level = level ∧ a.bit = bit ∧ a.rank = rank := by
  unfold ThresholdLiteral.construct
  constructor
  · intro h
    split at h
    · split at h
      · split at h
        · split at h
          · cases h; exact ⟨rfl,rfl,rfl,rfl⟩
          · cases h
        · split at h <;> cases h
      · cases h
    · cases h
  · rintro ⟨rfl,rfl,rfl,rfl⟩
    rw [dif_pos a.levelRange.2,dif_pos a.levelRange.1,dif_pos a.bitRange,dif_pos a.rankRange]

theorem map_eq_of_forall₂ {α β γ : Type} {R : α → β → Prop} {f : α → γ} {g : β → γ} {l : List α}
    {m : List β} (h : List.Forall₂ R l m) (he : ∀ a b, R a b → f a = g b) : l.map f = m.map g := by
  induction h with
  | nil => rfl
  | cons hab _ ih => rw [List.map_cons,List.map_cons,he _ _ hab,ih]

theorem bits_of_fields {literals : List ThresholdLiteral} {entries : List BitEntry}
    (h : (literals.map fun a => (a.controlId,a.level,a.bit)) =
      entries.map fun e => (e.controlId,e.level,e.pos)) : literals.map (·.bit) = entries.map (·.pos) := by
  have hbits := congrArg (List.map fun t : ControlId × ℕ × ℕ => t.2.2) h
  rwa [List.map_map,List.map_map] at hbits

section Covered

variable {bits : BitTable} {catalog : Catalog} (hc : bits.checkCovers catalog = .ok ())

include hc

/-- The live literals of a lock that covers a catalog are those of the catalog. -/
theorem mem_live_key {key : ControlId × ℕ} : key ∈ bits.live.map (·.key) ↔ key ∈ catalog.literals := by
  have h := ensure_ok.mp hc
  have hsorted : ∀ {l : List (ControlId × ℕ)} {p : ControlId × ℕ → Bool},
      (l.filter p).insertionSort (fun a b => toLex a ≤ toLex b) = [] → ∀ k ∈ l, ¬p k = true := by
    intro l p hl
    have hperm := List.perm_insertionSort (fun a b : ControlId × ℕ => toLex a ≤ toLex b) (l.filter p)
    rw [hl] at hperm
    exact List.filter_eq_nil_iff.mp hperm.symm.eq_nil
  have hmissing := hsorted h.1
  have hextra := hsorted h.2
  rw [(bits.live_perm.map _).mem_iff]
  constructor
  · intro hk
    by_contra hn
    exact hextra key hk (by simpa using hn)
  · intro hk
    by_contra hn
    exact hmissing key hk (by simpa using hn)

/-- The levels of a control that has live literals are dense. -/
theorem live_levels {e : BitEntry} (he : e ∈ bits.live) : ∃ top, top ≤ 64 ∧
    ∀ level, (e.controlId,level) ∈ bits.live.map (·.key) ↔ 1 ≤ level ∧ level ≤ top := by
  obtain ⟨spec,hs,hcontrol,-,-⟩ := mem_catalogLiterals.mp ((mem_live_key hc).mp (List.mem_map_of_mem he))
  have hascending := checkStrictlyAscending_ok.mp catalog.valid
  have hlevels : ∀ level, (e.controlId,level) ∈ bits.live.map (·.key) ↔ 1 ≤ level ∧ level ≤ spec.maxLevel := by
    intro level
    rw [mem_live_key hc,mem_catalogLiterals]
    constructor
    · rintro ⟨spec',hs',hcontrol',h₁,h₂⟩
      have : spec' = spec := List.inj_on_of_nodup_map (hascending.imp fun h => h.ne) hs' hs
        (hcontrol'.trans hcontrol.symm)
      subst this
      exact ⟨h₁,h₂⟩
    · exact fun h => ⟨spec,hs,hcontrol,h⟩
  refine ⟨spec.maxLevel,?_,hlevels⟩
  have hsub : ((List.range' 1 spec.maxLevel).map fun level => (e.controlId,level)) ⊆ bits.live.map (·.key) := by
    intro key hkey
    obtain ⟨level,hl,rfl⟩ := List.mem_map.mp hkey
    rw [List.mem_range'_1] at hl
    exact (hlevels level).mpr ⟨hl.1,by omega⟩
  have hn : ((List.range' 1 spec.maxLevel).map fun level => (e.controlId,level)).Nodup :=
    (List.nodup_range' (s := 1) (n := spec.maxLevel)).map fun a b h => (Prod.ext_iff.mp h).2
  have hlength := (hn.subperm hsub).length_le
  rw [List.length_map,List.length_map,List.length_range'] at hlength
  exact hlength.trans bits.live_length

/-- Every live entry makes a literal, at its place in canonical order. -/
theorem literals_ok : ∃ literals, bits.literals = .ok literals ∧
    (literals.map fun a => (a.controlId,a.level,a.bit)) = bits.live.map (fun e => (e.controlId,e.level,e.pos)) ∧
    literals.map (·.rank) = List.range literals.length := by
  have hlength := bits.live_length
  have hbuild : ∀ p ∈ bits.live.zipIdx, ∃ a,
      ThresholdLiteral.construct p.1.controlId p.1.level p.1.pos p.2 = .ok a := by
    rintro ⟨e,rank⟩ hp
    have hget := List.mem_zipIdx_iff_getElem?.mp hp
    have he := List.mem_of_getElem? hget
    obtain ⟨-,hpos,hlevel⟩ := bits.entry_valid (bits.mem_live.mp he).1
    obtain ⟨top,htop,hlevels⟩ := live_levels hc he
    have hle := ((hlevels e.level).mp (List.mem_map_of_mem (f := (·.key)) he)).2
    have hrank := (List.getElem?_eq_some_iff.mp hget).1
    exact ⟨⟨e.controlId,e.level,e.pos,rank,⟨hlevel,by omega⟩,hpos,by simp at hrank; omega⟩,
      ThresholdLiteral.construct_ok.mpr ⟨rfl,rfl,rfl,rfl⟩⟩
  obtain ⟨literals,hread⟩ := mapM_exists hbuild
  have hfields := (mapM_ok.mp hread).imp fun p a => ThresholdLiteral.construct_ok.mp
  refine ⟨literals,hread,?_,?_⟩
  · have hmap := map_eq_of_forall₂ (g := fun a : ThresholdLiteral => (a.controlId,a.level,a.bit))
      (f := fun p : BitEntry × ℕ => (p.1.controlId,p.1.level,p.1.pos)) hfields
      fun p a h => by rw [h.1,h.2.1,h.2.2.1]
    rw [← hmap,show (fun p : BitEntry × ℕ => (p.1.controlId,p.1.level,p.1.pos)) =
      (fun e : BitEntry => (e.controlId,e.level,e.pos)) ∘ Prod.fst from rfl,← List.map_map,
      List.zipIdx_map_fst]
  · have hmap := map_eq_of_forall₂ (g := fun a : ThresholdLiteral => a.rank)
      (f := fun p : BitEntry × ℕ => p.2) hfields fun p a h => h.2.2.2.symm
    rw [← hmap,List.zipIdx_map_snd,← hfields.length_eq,List.length_zipIdx,List.range_eq_range']

/-- The table of atoms is built from the literals of a lock that covers a catalog. -/
theorem build_ok {literals : List ThresholdLiteral} (hl : bits.literals = .ok literals) :
    ∃ atoms, AtomTable.build literals = .ok atoms ∧ atoms.literals = literals := by
  obtain ⟨literals',hl',hfields,hrank⟩ := literals_ok hc
  cases hl.symm.trans hl'
  have hkeys : (literals.map fun a => toLex (a.controlId,a.level)) = bits.live.map fun e => toLex e.key := by
    have := congrArg (List.map fun t : ControlId × ℕ × ℕ => toLex (t.1,t.2.1)) hfields
    rwa [List.map_map,List.map_map] at this
  have hbits := bits_of_fields hfields
  have hlength : literals.length = bits.live.length := by simpa using congrArg List.length hfields
  have hascending : (literals.map fun a => toLex (a.controlId,a.level)).Pairwise (· < ·) :=
    hkeys ▸ bits.live_ascending
  have hmem : ∀ control level, level ∈ (levelsIn literals control).map (·.level) ↔
      (control,level) ∈ bits.live.map (·.key) := by
    intro control level
    have : toLex (control,level) ∈ (literals.map fun a => toLex (a.controlId,a.level)) ↔
        toLex (control,level) ∈ bits.live.map fun e => toLex e.key := by rw [hkeys]
    simp only [List.mem_map,EmbeddingLike.apply_eq_iff_eq,Prod.mk.injEq] at this ⊢
    rw [← this]
    simp only [levelsIn,List.mem_filter,decide_eq_true_eq]
    constructor
    · rintro ⟨a,⟨ha,hac⟩,hal⟩
      exact ⟨a,ha,hac,hal⟩
    · rintro ⟨a,ha,hac,hal⟩
      exact ⟨a,⟨ha,hac⟩,hal⟩
  have hvalid : checkAtomTable literals = .ok () := by
    simp only [checkAtomTable,checks_cons,checks_nil,checkStrictlyAscending_ok,checks_map,ensure_ok,
      and_true]
    refine ⟨hascending,hlength ▸ bits.live_length,?_,hbits ▸ bits.live_pos_nodup,?_⟩
    · rintro ⟨a,index⟩ hp
      have hget := List.mem_zipIdx_iff_getElem?.mp hp
      have hindex := (List.getElem?_eq_some_iff.mp hget).1
      have : (literals.map (·.rank))[index]? = some a.rank := by simp [hget]
      rw [hrank,List.getElem?_range hindex] at this
      exact (Option.some.inj this).symm
    · intro control hcontrol
      rw [List.mem_insertionSort,List.mem_dedup] at hcontrol
      obtain ⟨a,ha,rfl⟩ := List.mem_map.mp hcontrol
      have hlive := (hmem a.controlId a.level).mp
        (List.mem_map_of_mem (List.mem_filter.mpr ⟨ha,decide_eq_true rfl⟩))
      obtain ⟨e,he,hkey⟩ := List.mem_map.mp hlive
      have hcontrol : e.controlId = a.controlId := (Prod.ext_iff.mp hkey).1
      obtain ⟨top,-,hlevels⟩ := live_levels hc he
      rw [hcontrol] at hlevels
      have hsorted : ((levelsIn literals a.controlId).map (·.level)).Pairwise (· < ·) := by
        refine List.pairwise_map.mpr (((List.pairwise_map.mp hascending).sublist
          List.filter_sublist).imp_of_mem fun {x y} hx hy hxy => ?_)
        have hx := of_decide_eq_true (List.mem_filter.mp hx).2
        have hy := of_decide_eq_true (List.mem_filter.mp hy).2
        rw [Prod.Lex.toLex_lt_toLex] at hxy
        rcases hxy with hxy | hxy
        · simp only [hx,hy,lt_self_iff_false] at hxy
        · exact hxy.2
      have hrange := eq_range'_of_ascending hsorted fun level => (hmem _ level).trans (hlevels level)
      have htop : (levelsIn literals a.controlId).length = top := by
        simpa using congrArg List.length hrange
      rw [hrange,htop]
  refine ⟨⟨literals,hvalid⟩,?_,rfl⟩
  unfold AtomTable.build
  split
  · rename_i e he
    rw [hvalid] at he
    cases he
  · rfl

end Covered

/-! ### The certificate's table -/

/-- A literal of the cut is the one the table publishes. -/
def checkCited (table : List ((ControlId × ℕ) × ThresholdLiteral)) (a : ThresholdLiteral) : Fallible Unit :=
  match Dict.get? table (a.controlId,a.level) with
  | none => .error ⟨.schemaError,"E-LITERAL-TABLE","cut cites "++a.controlId++" level "++
      toString a.level++", which is not in the atom table"⟩
  | some published => ensure (published.bit = a.bit ∧ published.rank = a.rank) ⟨.schemaError,
      "E-LITERAL-TABLE","cut cites "++a.controlId++" level "++toString a.level++" with bit "++
      toString a.bit++" rank "++toString a.rank++"; the atom table says bit "++
      toString published.bit++" rank "++toString published.rank⟩

/-- `_check_atom_table`. -/
def checkPublishedAtoms (atoms : List ThresholdLiteral) (cut : Cut) : Fallible Unit :=
  let expectedRank := atoms.insertionSort fun a b => toLex (a.controlId,a.level) ≤ toLex (b.controlId,b.level)
  let table := atoms.foldl (fun d a => Dict.set d (a.controlId,a.level) a) []
  checks [
    ensure (atoms.length ≤ 64) ⟨.schemaError,"E-LIMIT-COUNT",
      "atoms.n is "++toString atoms.length++"; the mask is 64 bits wide"⟩,
    checkStrictlyAscending "atoms.assign" (atoms.map (·.bit)),
    checks (expectedRank.zipIdx.map fun (a,index) => ensure (a.rank = index) ⟨.schemaError,
      "E-LITERAL-TABLE","atoms: "++a.controlId++" level "++toString a.level++" carries rank "++
      toString a.rank++" but the canonical atom order puts it at "++toString index⟩),
    checks (cut.atoms.map (checkCited table))]

/-- `_atoms_member`. -/
def atomsMember (atoms : List ThresholdLiteral) : Json := .obj [
  ("assign",.list (atoms.map fun a => .list [.str a.controlId,.int a.level,.int a.bit])),
  ("n",.int atoms.length)]

section Table

variable {atoms : AtomTable}

theorem AtomTable.nodup_keys (atoms : AtomTable) :
    (atoms.literals.map fun a => (a.controlId,a.level)).Nodup :=
  List.Nodup.of_map toLex (by rw [List.map_map]; exact atoms.ascending.imp fun h => h.ne)

/-- The certificate accepts a table in canonical order exactly when its bits ascend too. -/
theorem checkPublishedAtoms_ok {cut : Cut} (hcut : ∀ a ∈ cut.atoms, a ∈ atoms.literals) :
    checkPublishedAtoms atoms.literals cut = .ok () ↔ (atoms.literals.map (·.bit)).Pairwise (· < ·) := by
  have hsorted : atoms.literals.insertionSort (fun a b => toLex (a.controlId,a.level) ≤
      toLex (b.controlId,b.level)) = atoms.literals :=
    ((List.pairwise_map.mp atoms.ascending).imp fun h => h.le).insertionSort_eq
  have hrank : ∀ p ∈ atoms.literals.zipIdx, p.1.rank = p.2 := fun p hp =>
    (atoms.getElem?_rank.mp (List.mem_zipIdx_iff_getElem?.mp hp)).2
  have hfresh := Dict.foldl_set_fresh (f := fun a : ThresholdLiteral => (a.controlId,a.level))
    (v := id) (l := atoms.literals) (d := []) (by simpa using atoms.nodup_keys)
  have hcited : ∀ a ∈ cut.atoms, checkCited (atoms.literals.foldl (fun d a =>
      Dict.set d (a.controlId,a.level) a) []) a = .ok () := by
    intro a ha
    have hget : Dict.get? (atoms.literals.map fun a => ((a.controlId,a.level),a)) (a.controlId,a.level) =
        some a := by
      refine Dict.get?_of_mem ?_ (List.mem_map_of_mem (hcut a ha))
      rw [List.map_map]
      exact atoms.nodup_keys
    simp only [id,List.nil_append] at hfresh
    rw [hfresh,checkCited,hget]
    exact ensure_ok.mpr ⟨rfl,rfl⟩
  simp only [checkPublishedAtoms,checks_cons,checks_nil,checkStrictlyAscending_ok,checks_map,ensure_ok,
    hsorted]
  exact ⟨fun h => h.2.1,fun h => ⟨atoms.width,h,hrank,hcited,trivial⟩⟩

/-- A cut over the table raises each control to a level. -/
theorem exists_assignment {cut : Cut} (hcut : ∀ a ∈ cut.atoms, a ∈ atoms.literals) :
    ∃ σ : Assignment atoms, cut.atoms = atoms.literalsAt σ.level := by
  have hv := cut.valid
  simp only [CutFields.postInit,checks_cons,checkStrictlyAscending_ok,CutFields.checkUpwardClosed,
    checks_map,ensure_ok,List.mem_insertionSort,List.mem_dedup] at hv
  obtain ⟨hranks,-,hclosed,-⟩ := hv
  obtain ⟨level,hlevel⟩ : ∃ level : ControlId → ℕ, ∀ c, (cut.atoms.filter (·.controlId = c)).length = level c :=
    ⟨_,fun _ => rfl⟩
  have hlevels : ∀ c l, l ∈ (cut.atoms.filter (·.controlId = c)).map (·.level) ↔ 1 ≤ l ∧ l ≤ level c := by
    intro c l
    by_cases hc : c ∈ cut.atoms.map (·.controlId)
    · have hsort := hclosed c hc
      rw [List.length_insertionSort,List.length_map,hlevel] at hsort
      rw [← List.mem_insertionSort (· ≤ ·),hsort,List.mem_range'_1]
      omega
    · have hnone : cut.atoms.filter (·.controlId = c) = [] := by
        refine List.filter_eq_nil_iff.mpr fun a ha => ?_
        simp only [decide_eq_true_eq]
        rintro rfl
        exact hc (List.mem_map_of_mem ha)
      have hzero := hlevel c
      rw [hnone,List.length_nil] at hzero
      simp only [hnone,List.map_nil,List.not_mem_nil,false_iff]
      omega
  have hmem : ∀ a, a ∈ cut.atoms ↔ a ∈ atoms.literals ∧ a.level ≤ level a.controlId := by
    intro a
    constructor
    · intro ha
      exact ⟨hcut a ha,((hlevels a.controlId a.level).mp
        (List.mem_map_of_mem (List.mem_filter.mpr ⟨ha,decide_eq_true rfl⟩))).2⟩
    · rintro ⟨ha,hl⟩
      obtain ⟨b,hb,hbl⟩ := List.mem_map.mp ((hlevels a.controlId a.level).mpr ⟨a.levelRange.1,hl⟩)
      obtain ⟨hb,hbc⟩ := List.mem_filter.mp hb
      have : b = a := AtomTable.literal_ext (hcut b hb) ha (of_decide_eq_true hbc) hbl
      exact this ▸ hb
  have hadmissible : ∀ c, level c ≤ atoms.maxLevel c := by
    intro c
    by_cases hc : level c = 0
    · omega
    · obtain ⟨b,hb,hbl⟩ := List.mem_map.mp ((hlevels c (level c)).mpr ⟨by omega,le_rfl⟩)
      obtain ⟨hb,hbc⟩ := List.mem_filter.mp hb
      have hbc : b.controlId = c := of_decide_eq_true hbc
      rw [← hbl,← hbc]
      exact AtomTable.level_le_maxLevel (hcut b hb)
  refine ⟨⟨level,hadmissible⟩,?_⟩
  have hsub : ((atoms.literalsAt level).map (·.rank)).Pairwise (· < ·) :=
    atoms.ranks_ascending.sublist (List.filter_sublist.map _)
  have hperm : cut.atoms.Perm (atoms.literalsAt level) := by
    refine (List.perm_ext_iff_of_nodup ?_ ?_).mpr fun a => (hmem a).trans AtomTable.mem_literalsAt.symm
    · exact List.Nodup.of_map ThresholdLiteral.rank (hranks.imp fun h => h.ne)
    · exact List.Nodup.of_map ThresholdLiteral.rank (hsub.imp fun h => h.ne)
  have hle : ∀ {l : List ThresholdLiteral}, (l.map (·.rank)).Pairwise (· < ·) →
      l.Pairwise fun a b => a.rank < b.rank := List.pairwise_map.mp
  refine hperm.eq_of_pairwise (fun a b _ _ hab hba => ?_) (hle hranks) (hle hsub)
  omega

end Table

/-! ### The checker's table -/

def BitEntry.row (e : BitEntry) : AtomRow := ⟨e.controlId,e.level,e.pos⟩

theorem hasPrefix_controlOf (name : String) : hasPrefix "ctl:" (controlOf name) = true := by
  rw [hasPrefix,controlOf,octets_append,List.isPrefixOf_iff_prefix]
  exact List.prefix_append _ _

namespace BitTable

variable {bits : BitTable}

/-- No carriage return is in the lock file. -/
theorem lockText_uncarried (bits : BitTable) : 0x0d ∉ bits.lockText := by
  have hnumber : ∀ n : ℕ, (0x0d : UInt8) ∉ Json.decimal n := fun n h =>
    absurd (Json.readable_decimal n _ h).1 (by decide)
  have hentry : ∀ e ∈ bits.entries, 0x0d ∉ e.lockText := by
    intro e he
    have hname : (0x0d : UInt8) ∉ octets e.control := fun h =>
      absurd (octets_snake (bits.entry_valid he).1 _ h).1 (by decide)
    have hstate : (0x0d : UInt8) ∉ octets e.state.text := by cases e.state <;> decide
    simp only [BitEntry.lockText,List.mem_append,not_or]
    exact ⟨⟨⟨⟨⟨⟨⟨⟨by decide,hnumber _⟩,by decide⟩,hname⟩,by decide⟩,hnumber _⟩,
      by decide⟩,hstate⟩,by decide⟩
  simp only [lockText,List.mem_append,List.mem_flatMap,not_or]
  refine ⟨⟨⟨by decide,by decide⟩,by decide⟩,?_⟩
  rintro ⟨e,he,h⟩
  exact hentry e he h

theorem readLockEntry_ok (lib : Library) {e : BitEntry} (he : e.pos < 64) {st : List ℕ × List AtomRow}
    (hfresh : e.pos ∉ st.1) : readLockEntry lib st (.obj [("pos",.int e.pos),("control_id",.str e.control),
      ("level",.int e.level),("state",.str e.state.text)]) =
        .ok (st.1++[e.pos],st.2++if e.state = .live then [e.row] else []) := by
  refine Runs.bind_ok.mpr ⟨_,rfl,Runs.bind_ok.mpr ⟨(),require_ok.mpr ?_,Runs.bind_ok.mpr ⟨(),require_ok.mpr ?_,
    Runs.bind_ok.mpr ⟨_,rfl,?_⟩⟩⟩⟩
  · simp [Json.number?,Dict.get?,maskWidth,he]
  · simpa [Json.number?,Dict.get?] using hfresh
  · cases hs : e.state with
    | live =>
      rw [if_pos (by simp [Dict.get?,Json.eq,BitState.text]),if_pos rfl]
      refine Runs.bind_ok.mpr ⟨_,rfl,Runs.bind_ok.mpr ⟨_,rfl,?_⟩⟩
      simp [Library.int,Library.str,Json.number?,Dict.get?,BitEntry.row,BitEntry.controlId,
        controlOf]
    | tombstone =>
      rw [if_neg (by simp [Dict.get?,Json.eq,BitState.text])]
      simp [Json.number?,Dict.get?]

/-- The entries of the lock file are read in order, and the live ones kept. -/
theorem readLock_ok (lib : Library) {entries : List BitEntry} (he : ∀ e ∈ entries, e.pos < 64)
    {st : List ℕ × List AtomRow} (hn : (st.1++entries.map (·.pos)).Nodup) :
    (entries.map fun e => Json.obj [("pos",.int e.pos),("control_id",.str e.control),
      ("level",.int e.level),("state",.str e.state.text)]).foldlM (readLockEntry lib) st =
        .ok (st.1++entries.map (·.pos),st.2++(entries.filter (·.state = .live)).map (·.row)) := by
  induction entries generalizing st with
  | nil => simp [pure,Except.pure]
  | cons e entries ih =>
    have hfresh : e.pos ∉ st.1 := fun h => (List.nodup_append.mp hn).2.2 _ h _ (by simp) rfl
    rw [List.map_cons,Runs.foldlM_cons_ok]
    refine ⟨_,readLockEntry_ok lib (he e (by simp)) hfresh,?_⟩
    rw [ih (fun x hx => he x (by simp [hx])) (by simpa using hn)]
    cases hs : e.state <;> simp [hs]

/-- The control of a literal is one of the lock. -/
theorem control_of_row {atoms : AtomTable} (hrows : tableRows atoms = bits.live.map (·.row))
    {a : ThresholdLiteral} (ha : a ∈ atoms.literals) : ∃ e ∈ bits.live, a.controlId = controlOf e.control := by
  have hmem : rowOf a ∈ tableRows atoms := List.mem_map_of_mem ha
  rw [hrows] at hmem
  obtain ⟨e,he,hrow⟩ := List.mem_map.mp hmem
  exact ⟨e,he,(AtomRow.mk.inj hrow).1.symm⟩

/-- O5 on the table of a lock, when its bits ascend. -/
theorem o5Atoms_published {atoms : AtomTable} {lib : Library} {files : CheckerInputs} {body : Json}
    (hrows : tableRows atoms = bits.live.map (·.row)) (hfile : files.catalogBits = .octets bits.lockText)
    (hlock : lib.tomlLoads bits.lockText = .ok bits.lockValue)
    (hbody : body.item "atoms" = .ok (atomsMember atoms.literals))
    (hascending : (atoms.literals.map (·.bit)).Pairwise (· < ·)) :
    o5Atoms lib body files = .ok (Atoms.ofRows (tableRows atoms)) := by
  have hread : ∀ a ∈ atoms.literals,
      readAtomRow (.list [.str a.controlId,.int a.level,.int a.bit]) = .ok (rowOf a) := by
    intro a ha
    obtain ⟨e,-,he⟩ := control_of_row hrows ha
    have hopen : hasPrefix "ctl:" a.controlId = true := he ▸ hasPrefix_controlOf e.control
    simp only [readAtomRow,Json.str?,Json.int?]
    refine Runs.bind_ok.mpr ⟨(),require_ok.mpr hopen,Runs.bind_ok.mpr ⟨(),require_ok.mpr ?_,
      Runs.bind_ok.mpr ⟨(),require_ok.mpr ⟨by omega,by exact_mod_cast a.bitRange⟩,rfl⟩⟩⟩
    exact_mod_cast a.levelRange.1
  have hassign : (atoms.literals.map fun a => Json.list [.str a.controlId,.int a.level,.int a.bit]).mapM
      readAtomRow = .ok (tableRows atoms) :=
    mapM_ok.mpr (List.forall₂_map_left_iff.mpr (List.forall₂_map_right_iff.mpr
      (List.forall₂_same.mpr hread)))
  have hchain : ((tableRows atoms).map (·.bit)).IsChain (· < ·) := by
    rw [tableRows,List.map_map]
    exact hascending.isChain
  have htoml : parseToml lib files.catalogBits = .ok bits.lockValue := by
    rw [hfile]
    refine Runs.bind_ok.mpr ⟨_,rfl,Runs.bind_ok.mpr ⟨(),require_ok.mpr bits.lockText_uncarried,?_⟩⟩
    simp only [hlock]
  have hentries : (((Dict.get? (if bits.entries = [] then [] else [("bit",
      Json.list (bits.entries.map fun e => .obj [("pos",.int e.pos),("control_id",.str e.control),
        ("level",.int e.level),("state",.str e.state.text)]))]) "bit").getD (.list [])).iter) =
      .ok (bits.entries.map fun e => Json.obj [("pos",.int e.pos),("control_id",.str e.control),
        ("level",.int e.level),("state",.str e.state.text)]) := by
    split
    · rename_i he
      rw [he]
      rfl
    · rfl
  have hlive := @readLock_ok lib bits.entries (fun e he => (bits.entry_valid he).2.1) ([],[])
    (bits.pos_ascending.imp fun h => h.ne)
  have hsame : ∀ r, r ∈ (bits.entries.filter (·.state = .live)).map (·.row) ↔ r ∈ tableRows atoms := by
    intro r
    rw [hrows]
    exact ((bits.live_perm.map _).mem_iff).symm
  simp only [o5Atoms,Runs.bind_ok,Runs.pure_ok]
  refine ⟨_,Json.member_ok.mpr hbody,_,Json.member_ok.mpr rfl,_,Json.member_ok.mpr rfl,_,rfl,
    (),require_ok.mpr (by simp [Json.eq,Json.number?]),(),require_ok.mpr (by simpa using atoms.width),
    _,rfl,tableRows atoms,hassign,(),require_ok.mpr hchain,_,htoml,_,rfl,_,hentries,_,hlive,
    (),require_ok.mpr ⟨fun r hr => (hsame r).mp (by simpa using hr),fun r hr => by simpa using (hsame r).mpr hr⟩,rfl⟩

end BitTable

/-! ### Growth -/

/-- What the three validators make of the literals of a lock: the atom table is built, the
certificate accepts it with any cut, and so does the checker on the lock file. -/
structure BitTable.Accepted (bits : BitTable) (literals : List ThresholdLiteral) : Prop where
  built : ∃ atoms, AtomTable.build literals = .ok atoms
  certified : ∀ cut : Cut, (∀ a ∈ cut.atoms, a ∈ literals) → checkPublishedAtoms literals cut = .ok ()
  checked : ∀ (lib : Library) (files : CheckerInputs) (body : Json) (cut : Cut),
    (∀ a ∈ cut.atoms, a ∈ literals) → files.catalogBits = .octets bits.lockText →
    lib.tomlLoads bits.lockText = .ok bits.lockValue → body.item "atoms" = .ok (atomsMember literals) →
    body.item "cut" = .ok (cutMember (cutRows cut)) →
    ∃ table read, o5Atoms lib body files = .ok table ∧ o6Cut body table = .ok read

def emptyCut : Cut := ⟨⟨[],0,0,.unverified⟩,by decide⟩

/-- The literals of a lock that covers its catalog are accepted everywhere exactly when its
bits ascend in canonical order. -/
theorem literals_accepted_iff {bits : BitTable} {catalog : Catalog}
    (hc : bits.checkCovers catalog = .ok ()) :
    (∃ literals, bits.literals = .ok literals ∧ bits.Accepted literals) ↔
      (bits.live.map (·.pos)).Pairwise (· < ·) := by
  obtain ⟨literals,hl,hfields,-⟩ := literals_ok hc
  obtain ⟨atoms,hbuilt,rfl⟩ := build_ok hc hl
  have hrows : tableRows atoms = bits.live.map (·.row) := by
    have := congrArg (List.map fun t : ControlId × ℕ × ℕ => AtomRow.mk t.1 t.2.1 t.2.2) hfields
    rwa [List.map_map,List.map_map] at this
  have hbits := bits_of_fields hfields
  have hctl : ControlIds atoms := by
    intro a ha
    obtain ⟨e,-,he⟩ := BitTable.control_of_row hrows ha
    exact ⟨e.control,he⟩
  rw [← hbits]
  constructor
  · rintro ⟨literals,hl',haccepted⟩
    cases hl.symm.trans hl'
    exact (checkPublishedAtoms_ok (show ∀ a ∈ emptyCut.atoms, a ∈ atoms.literals by simp [emptyCut])).mp
      (haccepted.certified emptyCut (by simp [emptyCut]))
  · intro hascending
    refine ⟨atoms.literals,hl,⟨atoms,hbuilt⟩,fun cut hcut => (checkPublishedAtoms_ok hcut).mpr hascending,?_⟩
    intro lib files body cut hcut hfile hlock hatoms hbody
    obtain ⟨σ,hσ⟩ := exists_assignment hcut
    exact ⟨_,_,bits.o5Atoms_published hrows hfile hlock hatoms hascending,o6Cut_published hσ hctl hbody⟩

/-- A lock whose first control was `mfa`, and which `edr` was appended to. -/
def grownLock : BitTable := ⟨[⟨0,"mfa",1,.live⟩,⟨1,"edr",1,.live⟩],by decide⟩

/-- A lock after `edr` was appended and taken away again. -/
def prunedLock : BitTable := ⟨[⟨0,"mfa",1,.live⟩,⟨1,"edr",1,.tombstone⟩],by decide⟩

def mfaControl : ControlSpec := ⟨⟨"mfa",["off","on"],"policy"⟩,by decide⟩

def edrControl : ControlSpec := ⟨⟨"edr",["off","on"],"policy"⟩,by decide⟩

theorem literals_accepted_iff_pruned :
    (∃ literals, prunedLock.literals = .ok literals ∧ prunedLock.Accepted literals) ↔
      (prunedLock.live.map (·.pos)).Pairwise (· < ·) :=
  @literals_accepted_iff prunedLock ⟨[mfaControl],by decide⟩ (by decide)

/-- The lock that `edr` was appended to covers its catalog, and its literals are refused. -/
theorem grown_lock_refused : ¬∀ (bits : BitTable) (catalog : Catalog),
    bits.checkCovers catalog = .ok () →
    ∃ literals, bits.literals = .ok literals ∧ bits.Accepted literals := by
  intro hall
  have hcovers : grownLock.checkCovers ⟨[edrControl,mfaControl],by decide⟩ = .ok () := by
    decide
  obtain ⟨literals,hl,haccepted⟩ := hall _ _ hcovers
  obtain ⟨atoms,-,rfl⟩ := build_ok hcovers hl
  have hascending := (checkPublishedAtoms_ok (show ∀ a ∈ emptyCut.atoms, a ∈ atoms.literals by simp [emptyCut])).mp
    (haccepted.certified emptyCut (by simp [emptyCut]))
  obtain ⟨literals,hl',hfields,-⟩ := literals_ok hcovers
  cases hl.symm.trans hl'
  have hbits := bits_of_fields hfields
  rw [hbits] at hascending
  exact absurd hascending (by decide)

end Spectra
