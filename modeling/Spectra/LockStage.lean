import Spectra.CatalogTable

/-! `rules.BitTable.derive`, `rules.load_bit_table` and `pipeline.s0_bits_lock`: the lock is made once, from
the catalog of the first run, and read back by every run after it, whatever the catalog has become. -/
namespace Spectra

open Checker (Library)

/-! ### The first lock -/

namespace BitTable

/-- `__post_init__` of the table. -/
def construct (entries : List BitEntry) : Fallible BitTable :=
  validated (checkBitTable entries) fun h => ⟨entries,h⟩

/-- The entry of a literal at its place in canonical order. -/
def freshEntry (p : (ControlId × ℕ) × ℕ) : BitEntry :=
  ⟨p.2,Checker.removePrefix "ctl:" p.1.1,p.1.2,.live⟩

/-- The bits of a fresh lock, in canonical order. -/
def derive (catalog : Catalog) : Fallible BitTable := do
  ensure (catalog.literals.length ≤ 64) (ErrorType.limitError.mk
    (toString catalog.literals.length++" threshold literals exceed the 64-bit mask width"))
  construct (catalog.literals.zipIdx.map freshEntry)

theorem construct_ok {entries : List BitEntry} {bits : BitTable} :
    construct entries = .ok bits ↔ bits.entries = entries := by
  rw [construct,validated_ok]
  constructor
  · rintro ⟨_,rfl⟩
    rfl
  · rintro rfl
    exact ⟨bits.valid,rfl⟩

end BitTable

theorem fresh_of_nodup {entries : List BitEntry} (h : (entries.map (·.key)).Nodup) :
    ∀ p ∈ entries.zipIdx, p.1.key ∉ (entries.take p.2).map (·.key) := by
  intro p hp hmem
  have hget := List.mem_zipIdx_iff_getElem?.mp hp
  have hlt := (List.getElem?_eq_some_iff.mp hget).1
  rw [List.map_take,List.mem_take_iff_getElem] at hmem
  obtain ⟨i,hi,heq⟩ := hmem
  have hlt' : p.2 < (entries.map (·.key)).length := by rwa [List.length_map]
  have hget' : (entries.map (·.key)).get ⟨p.2,hlt'⟩ = p.1.key := by
    simp [(List.getElem?_eq_some_iff.mp hget).2]
  have heq' := (List.Nodup.getElem_inj_iff h).mp (heq.trans hget'.symm)
  omega

namespace Catalog

variable (catalog : Catalog)

theorem literals_ascending : (catalog.literals.map toLex).Pairwise (· < ·) := by
  have hcontrols := List.pairwise_map.mp (checkStrictlyAscending_ok.mp catalog.valid)
  rw [literals,List.map_flatMap,List.pairwise_flatMap]
  constructor
  · intro spec _
    rw [List.map_map]
    have hlevels : (List.range' 1 spec.maxLevel).Pairwise (· < ·) := List.pairwise_lt_range'
    refine List.pairwise_map.mpr (hlevels.imp fun h => ?_)
    exact Prod.Lex.toLex_lt_toLex.mpr (Or.inr ⟨rfl,h⟩)
  · refine hcontrols.imp fun {spec spec'} h => ?_
    intro k hk k' hk'
    simp only [List.map_map,List.mem_map,Function.comp_apply] at hk hk'
    obtain ⟨level,-,rfl⟩ := hk
    obtain ⟨level',-,rfl⟩ := hk'
    exact Prod.Lex.toLex_lt_toLex.mpr (Or.inl h)

theorem literals_nodup : catalog.literals.Nodup :=
  (List.pairwise_map.mp catalog.literals_ascending).imp fun h heq => h.ne (congrArg toLex heq)

/-- Catalogs of the same literals list them alike. -/
theorem literals_eq_iff {catalog catalog' : Catalog} :
    catalog.literals = catalog'.literals ↔ ∀ k, k ∈ catalog.literals ↔ k ∈ catalog'.literals := by
  refine ⟨fun h => by simp [h],fun h => ?_⟩
  have hn := List.pairwise_map.mp catalog.literals_ascending
  have hn' := List.pairwise_map.mp catalog'.literals_ascending
  have hperm : catalog.literals.Perm catalog'.literals :=
    (List.perm_ext_iff_of_nodup catalog.literals_nodup catalog'.literals_nodup).mpr h
  exact hperm.eq_of_pairwise (fun _ _ _ _ hab hba => absurd hba hab.asymm) hn hn'

theorem literal_control {k : ControlId × ℕ} (h : k ∈ catalog.literals) :
    ∃ name, isSnake name = true ∧ k.1 = controlOf name ∧ 1 ≤ k.2 := by
  obtain ⟨spec,-,hc,hl,-⟩ := mem_catalogLiterals.mp h
  have hv := spec.valid
  simp only [ControlSpecFields.postInit,List.cons_append,checks_cons,ensure_ok] at hv
  exact ⟨spec.control,hv.1,hc.symm,hl⟩

/-- The name in the lock is the control of the literal. -/
theorem control_kept {k : ControlId × ℕ} (h : k ∈ catalog.literals) :
    controlOf (Checker.removePrefix "ctl:" k.1) = k.1 := by
  obtain ⟨name,-,hname,-⟩ := catalog.literal_control h
  rw [hname]
  exact congrArg controlOf (Checker.removePrefix_append name)

end Catalog

/-- The literals of a fresh lock are those of its catalog, each at the bit of its place. -/
theorem derive_ok {catalog : Catalog} {bits : BitTable} (h : BitTable.derive catalog = .ok bits) :
    bits.entries.map (fun e => (e.key,e.pos)) = catalog.literals.zipIdx ∧
      ∀ e ∈ bits.entries, e.state = .live := by
  obtain ⟨_,-,h⟩ := Runs.bind_ok.mp h
  have hentries := BitTable.construct_ok.mp h
  rw [hentries]
  constructor
  · rw [List.map_map]
    conv_rhs => rw [← List.map_id catalog.literals.zipIdx]
    refine List.map_congr_left fun p hp => ?_
    exact Prod.ext (Prod.ext (catalog.control_kept (List.fst_mem_of_mem_zipIdx hp)) rfl) rfl
  · intro e he
    obtain ⟨p,-,rfl⟩ := List.mem_map.mp he
    rfl

theorem derive_live {catalog : Catalog} {bits : BitTable} (h : BitTable.derive catalog = .ok bits) :
    (bits.entries.filter (·.state = .live)).map (·.key) = catalog.literals := by
  obtain ⟨hentries,hlive⟩ := derive_ok h
  rw [List.filter_eq_self.mpr fun e he => decide_eq_true (hlive e he)]
  have hkeys := congrArg (List.map Prod.fst) hentries
  rwa [List.map_map,List.zipIdx_map_fst] at hkeys

/-- A fresh lock is refused for the width of the mask alone. -/
theorem derive_returns {catalog : Catalog} :
    (∃ bits, BitTable.derive catalog = .ok bits) ↔ catalog.literals.length ≤ 64 := by
  constructor
  · rintro ⟨bits,h⟩
    obtain ⟨_,hlength,-⟩ := Runs.bind_ok.mp h
    exact ensure_ok.mp hlength
  · intro hlength
    have hpos : (catalog.literals.zipIdx.map BitTable.freshEntry).map (·.pos) = List.range catalog.literals.length := by
      rw [List.map_map,List.range_eq_range',← List.zipIdx_map_snd 0 catalog.literals]
      rfl
    have hkeys : (catalog.literals.zipIdx.map BitTable.freshEntry).map (·.key) = catalog.literals := by
      rw [List.map_map]
      refine Eq.trans (List.map_congr_left fun p hp => ?_) (List.zipIdx_map_fst 0 catalog.literals)
      exact Prod.ext (catalog.control_kept (List.fst_mem_of_mem_zipIdx hp)) rfl
    have hv : checkBitTable (catalog.literals.zipIdx.map BitTable.freshEntry) = .ok () := by
      simp only [checkBitTable,List.cons_append,List.nil_append,checks_cons,checks_map,ensure_ok]
      refine ⟨fun e he => ?_,?_,?_⟩
      · obtain ⟨p,hp,rfl⟩ := List.mem_map.mp he
        obtain ⟨name,hsnake,hname,hlevel⟩ := catalog.literal_control (List.fst_mem_of_mem_zipIdx hp)
        have hlt : p.2 < catalog.literals.length := by simpa using List.snd_lt_of_mem_zipIdx hp
        have hcontrol : isSnake (Checker.removePrefix "ctl:" p.1.1) = true := by
          rw [hname]
          exact (Checker.removePrefix_append name).symm ▸ hsnake
        simp only [BitEntry.postInit,checks_cons,checks_nil,ensure_ok]
        exact ⟨hcontrol,lt_of_lt_of_le hlt (by omega),hlt.trans_le hlength,hlevel,trivial⟩
      · rw [checkStrictlyAscending_ok,hpos]
        exact List.pairwise_lt_range
      · refine fresh_of_nodup ?_
        rw [hkeys]
        exact catalog.literals_nodup
    exact ⟨⟨_,hv⟩,Runs.bind_ok.mpr ⟨(),ensure_ok.mpr hlength,BitTable.construct_ok.mpr rfl⟩⟩

/-- A fresh lock covers its catalog, and the catalogs of the same literals only. -/
theorem derive_covers {catalog catalog' : Catalog} {bits : BitTable} (h : BitTable.derive catalog = .ok bits) :
    bits.checkCovers catalog' = .ok () ↔ catalog'.literals = catalog.literals := by
  have hlive := derive_live h
  constructor
  · intro hc
    refine Catalog.literals_eq_iff.mpr fun k => ?_
    rw [← mem_live_key hc,(bits.live_perm.map _).mem_iff,hlive]
  · intro heq
    refine ensure_ok.mpr ⟨?_,?_⟩
    · rw [hlive,heq,List.filter_eq_nil_iff.mpr fun k hk => by simpa using hk]
      rfl
    · rw [hlive,heq,List.filter_eq_nil_iff.mpr fun k hk => by simpa using hk]
      rfl

/-! ### The lock is read back -/

/-- The state of an entry, or the refusal of `__post_init__`. -/
def readState (state : String) : Fallible BitState :=
  if state = "live" then .ok .live
  else if state = "tombstone" then .ok .tombstone
  else .error (ErrorType.schemaError.mk ("BitEntry.state must be live or tombstone, got "++state))

/-- One row of `[[bit]]`, in the order the fields are read and checked. -/
def readBit (lib : Library) (row : Json) : Check BitEntry := do
  let pos ← lib.int (← row.item "pos")
  let control := lib.str (← row.item "control_id")
  canonical (ensure (isSnake control) (ErrorType.identifierError.mk "ControlId"))
  let level ← lib.int (← row.item "level")
  let state := lib.str ((← row.get "state").getD (.str "live"))
  canonical (ensure (0 ≤ pos ∧ pos < 256) (widthError "u8"))
  canonical (ensure (pos < 64) (ErrorType.limitError.mk
    ("bit position "++toString pos++" is outside the 64-bit mask")))
  canonical (ensure (1 ≤ level) (ErrorType.schemaError.mk "BitEntry.level starts at 1; level 0 asserts nothing"))
  let state ← canonical (readState state)
  pure ⟨pos.toNat,control,level.toNat,state⟩

/-- `load_bit_table`. -/
def loadBitTable (lib : Library) (content : Bytes) : Check BitTable := do
  let raw ← lib.tomlLoads content
  let rows ← ((← raw.get "bit").getD (.list [])).iter
  let entries ← rows.mapM (readBit lib)
  canonical (BitTable.construct (entries.insertionSort (·.pos ≤ ·.pos)))

theorem readBit_written (lib : Library) {e : BitEntry} (hs : isSnake e.control = true) (hpos : e.pos < 64)
    (hlevel : 1 ≤ e.level) : readBit lib (.obj [("pos",.int e.pos),("control_id",.str e.control),
      ("level",.int e.level),("state",.str e.state.text)]) = .ok e := by
  obtain ⟨pos,control,level,state⟩ := e
  have hstate : readState state.text = .ok state := by cases state <;> rfl
  simp only [readBit,Runs.bind_ok,Runs.pure_ok,canonical_ok]
  refine ⟨_,rfl,_,rfl,_,rfl,(),ensure_ok.mpr hs,_,rfl,_,rfl,_,rfl,(),ensure_ok.mpr ?_,(),
    ensure_ok.mpr ?_,(),ensure_ok.mpr ?_,_,hstate,rfl⟩
  · simp only at hpos
    omega
  · exact_mod_cast hpos
  · exact_mod_cast hlevel

/-- A lock is read back as it was written. -/
theorem loadBitTable_written {lib : Library} {bits : BitTable}
    (hreads : lib.tomlLoads bits.lockText = .ok bits.lockValue) : loadBitTable lib bits.lockText = .ok bits := by
  have hsorted : bits.entries.insertionSort (·.pos ≤ ·.pos) = bits.entries := by
    refine List.Pairwise.insertionSort_eq ?_
    exact (List.pairwise_map.mp bits.pos_ascending).imp fun h => h.le
  have hconstruct : canonical (BitTable.construct (bits.entries.insertionSort (·.pos ≤ ·.pos))) = .ok bits := by
    rw [hsorted]
    exact canonical_ok.mpr (BitTable.construct_ok.mpr rfl)
  have hrows : (((Dict.get? (if bits.entries = [] then [] else [("bit",
      Json.list (bits.entries.map fun e => .obj [("pos",.int e.pos),("control_id",.str e.control),
        ("level",.int e.level),("state",.str e.state.text)]))]) "bit").getD (.list [])).iter) =
      .ok (bits.entries.map fun e => Json.obj [("pos",.int e.pos),("control_id",.str e.control),
        ("level",.int e.level),("state",.str e.state.text)]) := by
    split
    · rename_i he
      rw [he]
      rfl
    · rfl
  have hentries : (bits.entries.map fun e => Json.obj [("pos",.int e.pos),("control_id",.str e.control),
      ("level",.int e.level),("state",.str e.state.text)]).mapM (readBit lib) = .ok bits.entries := by
    refine mapM_ok.mpr (List.forall₂_map_left_iff.mpr (List.forall₂_same.mpr fun e he => ?_))
    obtain ⟨hs,hpos,hlevel⟩ := bits.entry_valid he
    exact readBit_written lib hs hpos hlevel
  simp only [loadBitTable,Runs.bind_ok]
  exact ⟨_,hreads,_,rfl,_,hrows,_,hentries,hconstruct⟩

/-! ### The stage -/

/-- `s0_bits_lock`: the table of a run with the digest of the lock file, and the file it leaves. -/
def s0BitsLock (lib : Library) (lock : Option Bytes) (catalog : Catalog) :
    Check (BitTable × String) × Option Bytes :=
  match lock with
  | some octets => (do
      let bits ← loadBitTable lib octets
      canonical (bits.checkCovers catalog)
      pure (bits,lib.hashRef "catbits" octets),some octets)
  | none =>
    match BitTable.derive catalog with
    | .error e => (.error (.canon e),none)
    | .ok bits => (do
        canonical (bits.checkCovers catalog)
        pure (bits,lib.hashRef "catbits" bits.lockText),some bits.lockText)

/-- What the stage makes of the catalogs of the runs on one repository, one after the other. -/
def lockRuns (lib : Library) : Option Bytes → List Catalog → List (Check (BitTable × String))
  | _,[] => []
  | lock,catalog::catalogs =>
    (s0BitsLock lib lock catalog).1::lockRuns lib (s0BitsLock lib lock catalog).2 catalogs

/-- A lock that exists is not written again. -/
theorem lockRuns_locked (lib : Library) (content : Bytes) (catalogs : List Catalog) :
    lockRuns lib (some content) catalogs =
      catalogs.map fun catalog => (s0BitsLock lib (some content) catalog).1 := by
  induction catalogs with
  | nil => rfl
  | cons catalog catalogs ih => rw [lockRuns,List.map_cons,← ih]; rfl

theorem stage_locked {lib : Library} {bits : BitTable} {catalog : Catalog} {result : BitTable × String}
    (hreads : lib.tomlLoads bits.lockText = .ok bits.lockValue) :
    (s0BitsLock lib (some bits.lockText) catalog).1 = .ok result ↔
      bits.checkCovers catalog = .ok () ∧ result = (bits,lib.hashRef "catbits" bits.lockText) := by
  simp only [s0BitsLock,loadBitTable_written hreads,Runs.bind_ok,Runs.pure_ok,canonical_ok]
  constructor
  · rintro ⟨_,⟨⟩,_,hc,rfl⟩
    exact ⟨hc,rfl⟩
  · rintro ⟨hc,rfl⟩
    exact ⟨bits,rfl,(),hc,rfl⟩

/-- The run that writes the lock returns what it would read from it. -/
theorem stage_first {lib : Library} {bits : BitTable} {catalog : Catalog}
    (hreads : lib.tomlLoads bits.lockText = .ok bits.lockValue) (hbits : BitTable.derive catalog = .ok bits) :
    s0BitsLock lib none catalog = s0BitsLock lib (some bits.lockText) catalog := by
  simp only [s0BitsLock,hbits,loadBitTable_written hreads]
  rfl

theorem derive_iff {catalog : Catalog} {bits : BitTable} : BitTable.derive catalog = .ok bits ↔
    catalog.literals.length ≤ 64 ∧ bits.entries.map (fun e => (e.key,e.pos)) = catalog.literals.zipIdx ∧
      ∀ e ∈ bits.entries, e.state = .live := by
  constructor
  · exact fun h => ⟨derive_returns.mp ⟨bits,h⟩,derive_ok h⟩
  · rintro ⟨hlength,hentries,hlive⟩
    have hfresh : ∀ e ∈ bits.entries, BitTable.freshEntry (e.key,e.pos) = e := by
      rintro ⟨pos,control,level,state⟩ he
      have hstate : state = .live := hlive _ he
      subst hstate
      simp only [BitTable.freshEntry,BitEntry.key,BitEntry.controlId,controlOf,Checker.removePrefix_append]
    refine Runs.bind_ok.mpr ⟨(),ensure_ok.mpr hlength,BitTable.construct_ok.mpr ?_⟩
    rw [← hentries,List.map_map]
    exact (List.map_id _).symm.trans (List.map_congr_left fun e he => (hfresh e he).symm)

/-- The bits of a literal are its place in the first catalog the mask has room for, in every run: a run
is accepted when its catalog has the literals of that one, whatever else changed in it. -/
theorem lock_never_renumbers {lib : Library} {catalogs : List Catalog}
    (hreads : ∀ catalog ∈ catalogs, ∀ bits, BitTable.derive catalog = .ok bits →
      lib.tomlLoads bits.lockText = .ok bits.lockValue) {i : ℕ} {bits : BitTable} {digest : String} :
    (lockRuns lib none catalogs)[i]? = some (.ok (bits,digest)) ↔
      ∃ catalog first, catalogs[i]? = some catalog ∧
        catalogs.find? (fun c => c.literals.length ≤ 64) = some first ∧ catalog.literals = first.literals ∧
        bits.entries.map (fun e => (e.key,e.pos)) = first.literals.zipIdx ∧
        (∀ e ∈ bits.entries, e.state = .live) ∧ digest = lib.hashRef "catbits" bits.lockText := by
  induction catalogs generalizing i with
  | nil => simp [lockRuns]
  | cons catalog catalogs ih =>
    by_cases hlength : catalog.literals.length ≤ 64
    · obtain ⟨fresh,hfresh⟩ := derive_returns.mpr hlength
      have hread := hreads catalog (List.mem_cons_self ..) fresh hfresh
      have hruns : lockRuns lib none (catalog::catalogs) =
          (catalog::catalogs).map fun c => (s0BitsLock lib (some fresh.lockText) c).1 := by
        rw [← lockRuns_locked,lockRuns,lockRuns,stage_first hread hfresh]
      rw [hruns,List.getElem?_map,Option.map_eq_some_iff,List.find?_cons_of_pos (by simpa using hlength)]
      constructor
      · rintro ⟨c,hget,hstage⟩
        obtain ⟨hcovers,heq⟩ := (stage_locked hread).mp hstage
        obtain ⟨rfl,rfl⟩ := Prod.mk_inj.mp heq
        obtain ⟨-,hentries,hlive⟩ := derive_iff.mp hfresh
        exact ⟨c,catalog,hget,rfl,(derive_covers hfresh).mp hcovers,hentries,hlive,rfl⟩
      · rintro ⟨c,first,hget,hfirst,hsame,hentries,hlive,rfl⟩
        cases hfirst
        have hbits := derive_iff.mpr ⟨hlength,hentries,hlive⟩
        cases hfresh.symm.trans hbits
        exact ⟨c,hget,(stage_locked hread).mpr ⟨(derive_covers hfresh).mpr hsame,rfl⟩⟩
    · have hrefused : ∃ e, s0BitsLock lib none catalog = (.error e,none) := by
        unfold s0BitsLock
        cases hderive : BitTable.derive catalog with
        | error e => exact ⟨_,rfl⟩
        | ok bits => exact absurd (derive_returns.mp ⟨bits,hderive⟩) hlength
      obtain ⟨e,he⟩ := hrefused
      have htail := fun {i} => ih (i := i) fun c hc => hreads c (List.mem_cons_of_mem _ hc)
      rw [lockRuns,he,List.find?_cons_of_neg (by simpa using hlength)]
      cases i with
      | zero =>
        simp only [List.getElem?_cons_zero,Option.some.injEq,reduceCtorEq,false_iff]
        rintro ⟨c,first,rfl,hfirst,hsame,-⟩
        have hfits := List.find?_some hfirst
        rw [decide_eq_true_eq,← hsame] at hfits
        exact hlength hfits
      | succ i => exact htail

def mfaCatalog : Catalog := ⟨[mfaControl],by decide⟩

def mfaLock : BitTable := ⟨[⟨0,"mfa",1,.live⟩],by decide⟩

theorem lock_never_renumbers_mfa :
    let lib := Checker.standard [] [(mfaLock.lockText,mfaLock.lockValue)]
    (lockRuns lib none [mfaCatalog])[0]? = some (.ok (mfaLock,lib.hashRef "catbits" mfaLock.lockText)) := by
  intro lib
  have hentries : mfaLock.entries.map (fun e => (e.key,e.pos)) = mfaCatalog.literals.zipIdx := by decide
  have hlive : ∀ e ∈ mfaLock.entries, e.state = .live := by decide
  have hreads : ∀ catalog ∈ [mfaCatalog], ∀ bits, BitTable.derive catalog = .ok bits →
      lib.tomlLoads bits.lockText = .ok bits.lockValue := by
    intro catalog hcatalog bits hbits
    cases List.mem_singleton.mp hcatalog
    cases (derive_iff.mpr ⟨by decide,hentries,hlive⟩).symm.trans hbits
    simp [lib,Checker.standard,Dict.get?]
  exact (lock_never_renumbers hreads).mpr
    ⟨mfaCatalog,mfaCatalog,rfl,rfl,rfl,hentries,hlive,rfl⟩

end Spectra
