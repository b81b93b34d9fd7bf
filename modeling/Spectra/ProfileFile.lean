import Spectra.LiveMeaning
import Spectra.ReadBundle

/-! `spectra_vs.calibrate`, its artifact: the file a profile is written to, the strict reader that
rebuilds the profile from the file, and the one undoing the other. -/
namespace Spectra
namespace Liveness

open Checker (Library)

/-! ### Writing -/

section

variable (lib : Library)

/-- `SourceProfile.to_scf`: the body with `profile_id`. -/
def SourceProfile.toScf (profile : SourceProfile lib) : Fallible Json := do
  let id ← profile.profileId lib
  match profile.body with
  | .obj body => pure (.obj (Dict.set body "profile_id" (.str id)))
  | other => pure other

/-- `canonical_bytes`. -/
def SourceProfile.canonicalBytes (profile : SourceProfile lib) : Fallible Bytes := do
  scfBytes "profile" (← profile.toScf lib)

/-- `write_profile`: what the file holds, and the id that is returned. -/
def writeProfile (profile : SourceProfile lib) : Fallible (Bytes × String) := do
  let data ← profile.canonicalBytes lib
  pure (data,← profile.profileId lib)

end

/-! ### Reading -/

def profileInvalid (text : String) : SpectraError :=
  ⟨.profileError,"PROFILE_INVALID","load_profile: "++text⟩

/-- `_reject_duplicate_keys` from the items that are left. -/
def rejectDuplicateKeys : List (String × Json) → List (String × Json) → Check Json
  | out, [] => .ok (.obj out)
  | out, (key,value)::items => do
    demand (Dict.get? out key).isNone
      ⟨.canonError,"E-CANON-DUPKEY","scf_loads: duplicate object key "++key⟩
    rejectDuplicateKeys (out++[(key,value)]) items

/-- `_reject_float_literal` and `_reject_constant` beside it. -/
def profileHooks : Checker.Hooks :=
  ⟨rejectDuplicateKeys [],
    fun text => .error (.canon ⟨.canonError,"E-CANON-FLOAT","scf_loads: a float literal "++text
      ++" in a number position"⟩),
    fun text => .error (.canon ⟨.canonError,"E-CANON-FLOAT","scf_loads: "++text
      ++" in a number position"⟩)⟩

/-- The text before the one line feed it ends in. -/
def beforeLineFeed (text : String) : Option String :=
  match text.toList.reverse with
  | '\n' :: '\n' :: _ => none
  | '\n' :: rest => some (String.ofList rest.reverse)
  | _ => none

/-- `_u64_text`. -/
def u64Text (loc : String) : Json → Check ℤ
  | .str s => do
    demand (Checker.isNumeral (octets s)) (profileInvalid
      (loc++" is not a canonical decimal u64 string: "++s))
    let parsed ← Checker.decimalValue (octets s)
    demand ((parsed : ℤ) ≤ u64Max) (profileInvalid (loc++" exceeds u64"))
    pure parsed
  | _ => .error (.canon (profileInvalid (loc++" is not a canonical decimal u64 string")))

/-- `_require_list`. -/
def requireList (obj : Json) (key : String) : Check (List Json) := do
  match ← obj.get key with
  | some (.list value) => pure value
  | _ => .error (.canon (profileInvalid (key++" is absent or not an array")))

/-- `IntegrityClass(value)`. -/
def integrityClassOf : Json → Check IntegrityClass
  | .str "chained" => .ok .chained
  | .str "sequenced" => .ok .sequenced
  | .str "none" => .ok .unlinked
  | _ => .error .valueError

def hashRefText (j : Json) : Check String :=
  textOf (some j) (ErrorType.canonError.mk "parse_hash_ref: expected str")

def nfcText (j : Json) : Check String := textOf (some j) (ErrorType.canonError.mk "nfc: expected str")

section

variable (lib : Library)

/-- `scf_loads`. -/
def scfLoads (loc text : String) : Check Json := do
  let parsed ← lib.jsonLoads profileHooks text
  canonical (scfCheck loc 0 false parsed)
  pure parsed

/-- The order statistics, in the order of `canon.byte_order_key`. -/
def readStatistics (statistics : List (String × Json)) : Check (List (String × ℤ)) := do
  (← byteOrdered lib statistics).mapM fun p => do pure (p.1,← u64Text "order_statistics" p.2)

/-- One regime; the check is the one its type carries. -/
def readRegime (regime : Json) : Check RegimeProfile := do
  let statistics ← objectOf (some (← regime.item "order_statistics"))
    (profileInvalid "order_statistics is not an object")
  let regimeId ← regime.item "regime_id"
  let nGaps ← regime.item "n_gaps"
  let statistics ← readStatistics lib statistics
  let minGapNs ← u64Text "min_gap_ns" (← regime.item "min_gap_ns")
  let maxGapNs ← u64Text "max_gap_ns" (← regime.item "max_gap_ns")
  let gapDigest ← regime.item "gap_digest"
  let regimeId ← nfcText regimeId
  let nGaps ← seqOf (some nGaps)
  let gapDigest ← hashRefText gapDigest
  canonical (validated _ fun h => ⟨regimeId,nGaps,statistics,minGapNs,maxGapNs,gapDigest,h⟩)

/-- One source. -/
def readSource (entry : Json) : Check (SourceCalibration lib) := do
  let regimes ← (← requireList entry "regimes").mapM (readRegime lib)
  let source ← textOf (some (← entry.item "source_id")) (ErrorType.identifierError.mk "SourceId")
  demand (isSnake source) (ErrorType.identifierError.mk ("SourceId: "++source))
  let integrityClass ← integrityClassOf (← entry.item "integrity_class")
  canonical (validated _ fun h => ⟨source,integrityClass,regimes,h⟩)

/-- The two members of a seed band. -/
def readBand : Json → Check (Json × Json)
  | .list [low,high] => .ok (low,high)
  | _ => .error (.canon (profileInvalid "calibration_seed_band is not a pair"))

/-- The members of a profile in the order they are read, then its constructor. -/
def readProfile (obj : Json) (sources : List (SourceCalibration lib)) : Check (SourceProfile lib) := do
  let band ← readBand (← obj.item "calibration_seed_band")
  let schema ← obj.item "schema"
  let scenarioFamily ← obj.item "scenario_family"
  let generatorConfigHash ← obj.item "generator_config_hash"
  let degradationSpecHash ← obj.item "degradation_spec_hash"
  let referenceBundleHash ← obj.item "reference_bundle_hash"
  let referenceRunManifestHash ← obj.item "reference_run_manifest_hash"
  let excludedIntervalsHash ← obj.item "excluded_intervals_hash"
  let regimeCollapsed ← obj.item "regime_collapsed"
  demand (schema.eq (.str "spectra.source_profile/1") = true) (ErrorType.schemaError.mk
    "SourceProfile.schema must be 'spectra.source_profile/1'")
  let scenarioFamily ← nfcText scenarioFamily
  let generatorConfigHash ← hashRefText generatorConfigHash
  let degradationSpecHash ← hashRefText degradationSpecHash
  let referenceBundleHash ← hashRefText referenceBundleHash
  let referenceRunManifestHash ← hashRefText referenceRunManifestHash
  let excludedIntervalsHash ← hashRefText excludedIntervalsHash
  let low ← seqOf (some band.1)
  let high ← seqOf (some band.2)
  match regimeCollapsed with
  | .bool regimeCollapsed => canonical (validated _ fun h => ⟨scenarioFamily,generatorConfigHash,
      degradationSpecHash,(low,high),referenceBundleHash,referenceRunManifestHash,
      excludedIntervalsHash,regimeCollapsed,sources,h⟩)
  | _ => .error (.canon (ErrorType.schemaError.mk "SourceProfile.regime_collapsed must be a bool"))

/-- `load_profile`, of what the file holds. -/
def loadProfile (raw : Bytes) : Check (SourceProfile lib) := do
  match lib.decode raw with
  | none => .error .unicodeDecode
  | some text => match beforeLineFeed text with
    | none => .error (.canon (profileInvalid "the file does not end in exactly one LF"))
    | some text => do
      let obj ← scfLoads lib "profile" text
      let members ← objectOf (some obj) (profileInvalid "the profile is not an object")
      let storedId ← textOf (Dict.get? members "profile_id") (profileInvalid "profile_id is absent")
      let sources ← (← requireList obj "sources").mapM (readSource lib)
      let profile ← readProfile lib obj sources
      let id ← canonical (profile.profileId lib)
      demand (id = storedId) (profileInvalid
        ("the file carries profile_id "++storedId++" but recomputes to "++id))
      pure profile

end

/-! ### What the check lets through -/

/-- The check lets a value through wherever the value stands. -/
def Encodable (depth : ℕ) (dataKeyed : Bool) (j : Json) : Prop :=
  ∀ loc, scfCheck loc depth dataKeyed j = .ok ()

theorem scfCheckItems_loc {depth : ℕ} {dataKeyed : Bool} {l : List Json} {loc loc' : String} {index index' : ℕ}
    (h : ∀ a ∈ l, ∀ loc, scfCheck loc (depth+1) dataKeyed a = .ok () → Encodable (depth+1) dataKeyed a)
    (hl : scfCheckItems loc depth dataKeyed index l = .ok ()) :
    scfCheckItems loc' depth dataKeyed index' l = .ok () := by
  induction l generalizing index index' with
  | nil => rfl
  | cons a l ih =>
    obtain ⟨ha,hrest⟩ := List.forall_mem_cons.mp h
    obtain ⟨_,hfirst,hl⟩ := Runs.bind_ok.mp hl
    exact Runs.bind_ok.mpr ⟨(),ha _ hfirst _,ih hrest hl⟩

theorem scfCheckMembers_loc {depth : ℕ} {dataKeyed : Bool} {m : List (String × Json)} {loc loc' : String}
    (h : ∀ p ∈ m, ∀ loc dataKeyed, scfCheck loc (depth+1) dataKeyed p.2 = .ok () →
      Encodable (depth+1) dataKeyed p.2)
    (hm : scfCheckMembers loc depth dataKeyed m = .ok ()) : scfCheckMembers loc' depth dataKeyed m = .ok () := by
  induction m with
  | nil => rfl
  | cons p m ih =>
    obtain ⟨hp,hrest⟩ := List.forall_mem_cons.mp h
    obtain ⟨_,hkey,hm⟩ := Runs.bind_ok.mp hm
    obtain ⟨_,hvalue,hm⟩ := Runs.bind_ok.mp hm
    exact Runs.bind_ok.mpr ⟨(),ensure_ok.mpr (ensure_ok.mp hkey),
      Runs.bind_ok.mpr ⟨(),hp _ _ hvalue _,ih hrest hm⟩⟩

theorem encodable_of_check {j : Json} {loc : String} {depth : ℕ} {dataKeyed : Bool}
    (h : scfCheck loc depth dataKeyed j = .ok ()) : Encodable depth dataKeyed j := by
  induction j using Json.nestedInduction generalizing loc depth dataKeyed with
  | list l ih =>
    intro loc'
    rw [scfCheck] at h ⊢
    obtain ⟨_,hdepth,h⟩ := Runs.bind_ok.mp h
    exact Runs.bind_ok.mpr ⟨(),ensure_ok.mpr (ensure_ok.mp hdepth),
      scfCheckItems_loc (fun a ha _ hok => ih a ha hok) h⟩
  | obj m ih =>
    intro loc'
    rw [scfCheck] at h ⊢
    obtain ⟨_,hdepth,h⟩ := Runs.bind_ok.mp h
    exact Runs.bind_ok.mpr ⟨(),ensure_ok.mpr (ensure_ok.mp hdepth),
      scfCheckMembers_loc (fun p hp _ _ hok => ih p hp hok) h⟩
  | null =>
    rw [scfCheck] at h
    obtain ⟨_,_,h⟩ := Runs.bind_ok.mp h
    cases h
  | scalar s =>
    rw [scfCheck] at h
    obtain ⟨_,_,h⟩ := Runs.bind_ok.mp h
    cases h
  | bool b =>
    intro loc'
    rw [scfCheck] at h ⊢
    obtain ⟨_,hdepth,h⟩ := Runs.bind_ok.mp h
    exact Runs.bind_ok.mpr ⟨(),ensure_ok.mpr (ensure_ok.mp hdepth),h⟩
  | int n =>
    intro loc'
    rw [scfCheck] at h ⊢
    obtain ⟨_,hdepth,h⟩ := Runs.bind_ok.mp h
    exact Runs.bind_ok.mpr ⟨(),ensure_ok.mpr (ensure_ok.mp hdepth),ensure_ok.mpr (ensure_ok.mp h)⟩
  | str s =>
    intro loc'
    rw [scfCheck] at h ⊢
    obtain ⟨_,hdepth,h⟩ := Runs.bind_ok.mp h
    exact Runs.bind_ok.mpr ⟨(),ensure_ok.mpr (ensure_ok.mp hdepth),h⟩

/-- The form of the keys of an object. -/
def keyForm (dataKeyed : Bool) (key : String) : Bool := if dataKeyed then isMapKey key else Checker.isKey key

theorem encodable_list {depth : ℕ} {dataKeyed : Bool} {l : List Json} :
    Encodable depth dataKeyed (.list l) ↔ depth ≤ 8 ∧ ∀ a ∈ l, Encodable (depth+1) dataKeyed a := by
  have hitems : ∀ loc index, scfCheckItems loc depth dataKeyed index l = .ok () ↔
      ∀ a ∈ l, Encodable (depth+1) dataKeyed a := by
    intro loc
    induction l with
    | nil => simp [scfCheckItems]
    | cons a l ih =>
      intro index
      rw [scfCheckItems,Runs.bind_ok,List.forall_mem_cons,← ih (index+1)]
      exact ⟨fun ⟨_,ha,hl⟩ => ⟨encodable_of_check ha,hl⟩,fun ⟨ha,hl⟩ => ⟨(),ha _,hl⟩⟩
  constructor
  · intro h
    have h := h ""
    rw [scfCheck] at h
    obtain ⟨_,hdepth,h⟩ := Runs.bind_ok.mp h
    exact ⟨ensure_ok.mp hdepth,(hitems _ _).mp h⟩
  · rintro ⟨hdepth,hl⟩ loc
    rw [scfCheck]
    exact Runs.bind_ok.mpr ⟨(),ensure_ok.mpr hdepth,(hitems _ _).mpr hl⟩

theorem encodable_obj {depth : ℕ} {dataKeyed : Bool} {m : List (String × Json)} :
    Encodable depth dataKeyed (.obj m) ↔ depth ≤ 8 ∧ ∀ p ∈ m, keyForm dataKeyed p.1 = true ∧
      Encodable (depth+1) (p.1 ∈ mapKeyedMembers) p.2 := by
  have hmembers : ∀ loc, scfCheckMembers loc depth dataKeyed m = .ok () ↔
      ∀ p ∈ m, keyForm dataKeyed p.1 = true ∧ Encodable (depth+1) (p.1 ∈ mapKeyedMembers) p.2 := by
    intro loc
    induction m with
    | nil => simp [scfCheckMembers]
    | cons p m ih =>
      rw [scfCheckMembers,Runs.bind_ok,List.forall_mem_cons,← ih]
      constructor
      · rintro ⟨_,hkey,h⟩
        obtain ⟨_,hvalue,h⟩ := Runs.bind_ok.mp h
        exact ⟨⟨ensure_ok.mp hkey,encodable_of_check hvalue⟩,h⟩
      · rintro ⟨⟨hkey,hvalue⟩,h⟩
        exact ⟨(),ensure_ok.mpr hkey,Runs.bind_ok.mpr ⟨(),hvalue _,h⟩⟩
  constructor
  · intro h
    have h := h ""
    rw [scfCheck] at h
    obtain ⟨_,hdepth,h⟩ := Runs.bind_ok.mp h
    exact ⟨ensure_ok.mp hdepth,(hmembers _).mp h⟩
  · rintro ⟨hdepth,hm⟩ loc
    rw [scfCheck]
    exact Runs.bind_ok.mpr ⟨(),ensure_ok.mpr hdepth,(hmembers _).mpr hm⟩

theorem Encodable.readBack {j : Json} {depth : ℕ} {dataKeyed : Bool} (h : Encodable depth dataKeyed j) :
    Encodable depth dataKeyed j.readBack := by
  induction j using Json.nestedInduction generalizing depth dataKeyed with
  | list l ih =>
    obtain ⟨hdepth,hl⟩ := encodable_list.mp h
    rw [Json.readBack_list,encodable_list]
    refine ⟨hdepth,fun b hb => ?_⟩
    obtain ⟨a,ha,rfl⟩ := List.mem_map.mp hb
    exact ih a ha (hl a ha)
  | obj m ih =>
    obtain ⟨hdepth,hm⟩ := (encodable_obj).mp h
    rw [Json.readBack_obj,encodable_obj]
    refine ⟨hdepth,fun q hq => ?_⟩
    obtain ⟨p,hp,rfl⟩ := List.mem_map.mp ((List.mem_insertionSort _).mp hq)
    exact ⟨(hm p hp).1,ih p hp (hm p hp).2⟩
  | _ => exact h

theorem rejectDuplicateKeys_ok {out m : List (String × Json)} (hn : ((out++m).map (·.1)).Nodup) :
    rejectDuplicateKeys out m = .ok (.obj (out++m)) := by
  induction m generalizing out with
  | nil => simp [rejectDuplicateKeys]
  | cons p m ih =>
    have hfresh : Dict.get? out p.1 = none := by
      have hnot : p.1 ∉ out.map (·.1) := by
        intro hmem
        rw [List.map_append,List.nodup_append] at hn
        exact hn.2.2 p.1 hmem p.1 (by simp) rfl
      by_contra hsome
      exact hnot (Dict.isSome_get?_iff.mp (Option.isSome_iff_ne_none.mpr hsome))
    have hrest := @ih (out++[p]) (by simpa using hn)
    rw [List.append_assoc] at hrest
    exact Runs.bind_ok.mpr ⟨(),demand_ok.mpr (by rw [hfresh]; rfl),hrest⟩

/-- The hooks let such a value through as it is. -/
theorem revive_profileHooks {j : Json} {depth : ℕ} {dataKeyed : Bool} (h : Encodable depth dataKeyed j)
    (hd : j.distinct = true) : profileHooks.revive j = .ok j := by
  induction j using Json.nestedInduction generalizing depth dataKeyed with
  | list l ih =>
    have hl := (encodable_list.mp h).2
    rw [Checker.Hooks.revive,Checker.reviveItems_ok fun a ha => ih a ha (hl a ha) (Json.distinct_list.mp hd a ha)]
    rfl
  | obj m ih =>
    have hm := ((encodable_obj).mp h).2
    obtain ⟨hn,hdm⟩ := Json.distinct_obj.mp hd
    rw [Checker.Hooks.revive,Checker.reviveMembers_ok fun p hp => ih p hp (hm p hp).2 (hdm p hp)]
    exact rejectDuplicateKeys_ok hn
  | scalar s =>
    have h := h ""
    rw [scfCheck] at h
    obtain ⟨_,_,h⟩ := Runs.bind_ok.mp h
    cases h
  | _ => rfl

/-! ### Reading back -/

theorem u64Text_decimalText {loc : String} {n : ℤ} (h0 : 0 ≤ n) (h : n ≤ u64Max) :
    u64Text loc (.str (Checker.decimalText n)) = .ok n := by
  have hoctets : octets (Checker.decimalText n) = Json.digitOctets n.natAbs := by
    rw [Checker.decimalText,Checker.octets_asciiString]
    exact if_neg (by omega)
  have hsmall : n.natAbs < 10^20 := by
    unfold u64Max at h
    norm_num at h ⊢
    omega
  rw [u64Text,hoctets]
  refine Runs.bind_ok.mpr ⟨(),demand_ok.mpr (Json.isNumeral_digitOctets _),?_⟩
  refine Runs.bind_ok.mpr ⟨_,Checker.decimalValue_digitOctets hsmall,?_⟩
  have hn : (n.natAbs : ℤ) = n := by omega
  exact Runs.bind_ok.mpr ⟨(),demand_ok.mpr (by rw [hn]; exact h),congrArg Except.ok hn⟩

/-- A level is digits, a slash and digits. -/
theorem printed_level {text : String} {pq : ℤ × ℤ} (h : parseQuantile text = .ok pq) : Printed text := by
  have hdigits : ∀ digits n, quantileMember text digits = .ok n →
      ∀ b ∈ digits, 0x30 ≤ b.toNat ∧ b.toNat ≤ 0x39 := by
    intro digits n hn b hb
    unfold quantileMember at hn
    split at hn
    · cases hn
    · rename_i hform
      have hall : digits.all Checker.isDigit = true := by
        by_contra hne
        exact hform (.inr (by simpa using hne))
      have hdigit := List.all_eq_true.mp hall b hb
      rw [Checker.isDigit,Bool.and_eq_true,decide_eq_true_eq,decide_eq_true_eq] at hdigit
      exact hdigit
  unfold parseQuantile at h
  dsimp only at h
  split at h
  · rename_i first second hparts
    obtain ⟨p,hp,h⟩ := Runs.bind_ok.mp h
    obtain ⟨q,hq,-⟩ := Runs.bind_ok.mp h
    have hjoin : octets text = first++0x2f::second := by
      have hwhole : [0x2f].intercalate (List.splitOn 0x2f (octets text)) = octets text := List.intercalate_splitOn _
      rw [hparts] at hwhole
      rw [← hwhole]
      simp [List.intercalate]
    refine printed_of fun b hb => ?_
    rw [hjoin] at hb
    rcases List.mem_append.mp hb with hb | hb
    · have := hdigits _ _ hp b hb
      omega
    · rcases List.mem_cons.mp hb with rfl | hb
      · decide
      · have := hdigits _ _ hq b hb
        omega
  · cases h

variable {lib : Library}

/-- The order statistics are read from their member however its keys come. -/
theorem readStatistics_returns (ha : lib.KeepsAscii) (r : RegimeProfile) {statistics : List (String × Json)}
    (hp : statistics.Perm (r.orderStatistics.map fun p => (p.1,Json.str (Checker.decimalText p.2)))) :
    readStatistics lib statistics = .ok r.orderStatistics := by
  have h := r.valid
  simp only [checks_cons,ensure_ok,checks_map] at h
  obtain ⟨-,-,-,hascending,-,hlevels,-⟩ := h
  have hchecked : lib.checkKeys "order_statistics" 0 none
      ((r.orderStatistics.map fun p => (p.1,Json.str (Checker.decimalText p.2))).map (·.1)) = .ok () := by
    rw [List.map_map]
    refine checkKeys_returns ha (fun key hkey => ?_) (checkStrictlyAscending_ok.mp hascending) (by simp)
    obtain ⟨p,hp,rfl⟩ := List.mem_map.mp hkey
    have hlevel := (hlevels p hp).1
    cases hq : parseQuantile p.1 with
    | ok pq => exact printed_level hq
    | error e => rw [hq] at hlevel; cases hlevel
  refine Runs.bind_ok.mpr ⟨_,byteOrdered_checked hp hchecked,?_⟩
  refine mapM_ok.mpr (List.forall₂_map_left_iff.mpr (List.forall₂_same.mpr fun p hp => ?_))
  obtain ⟨h0,hmax⟩ := (hlevels p hp).2.1
  exact Runs.bind_ok.mpr ⟨_,u64Text_decimalText h0 hmax,rfl⟩

theorem readRegime_returns (ha : lib.KeepsAscii) (r : RegimeProfile) :
    readRegime lib r.toScf.readBack = .ok r := by
  have hn : ["gap_digest","max_gap_ns","min_gap_ns","n_gaps","order_statistics","regime_id"].Nodup := by decide
  have h := r.valid
  simp only [checks_cons,ensure_ok] at h
  obtain ⟨-,-,-,-,-,-,⟨hmin,hmin'⟩,⟨hmax,hmax'⟩,-⟩ := h
  have hstatistics : (((r.orderStatistics.map fun p => (p.1,Json.str (Checker.decimalText p.2))).map
      fun p => (p.1,p.2.readBack)).insertionSort (·.1 ≤ ·.1)).Perm
        (r.orderStatistics.map fun p => (p.1,Json.str (Checker.decimalText p.2))) := by
    refine (List.perm_insertionSort _ _).trans ?_
    rw [List.map_map]
    rfl
  refine Runs.bind_ok.mpr ⟨_,Json.item_readBack (by exact hn) rfl,?_⟩
  refine Runs.bind_ok.mpr ⟨_,by rw [Json.readBack_obj]; rfl,?_⟩
  refine Runs.bind_ok.mpr ⟨_,Json.item_readBack (by exact hn) rfl,?_⟩
  refine Runs.bind_ok.mpr ⟨_,Json.item_readBack (by exact hn) rfl,?_⟩
  refine Runs.bind_ok.mpr ⟨_,readStatistics_returns ha r hstatistics,?_⟩
  refine Runs.bind_ok.mpr ⟨_,Json.item_readBack (by exact hn) rfl,?_⟩
  refine Runs.bind_ok.mpr ⟨_,u64Text_decimalText hmin hmin',?_⟩
  refine Runs.bind_ok.mpr ⟨_,Json.item_readBack (by exact hn) rfl,?_⟩
  refine Runs.bind_ok.mpr ⟨_,u64Text_decimalText hmax hmax',?_⟩
  refine Runs.bind_ok.mpr ⟨_,Json.item_readBack (by exact hn) rfl,?_⟩
  refine Runs.bind_ok.mpr ⟨r.regimeId,rfl,Runs.bind_ok.mpr ⟨r.nGaps,rfl,?_⟩⟩
  exact Runs.bind_ok.mpr ⟨r.gapDigest,rfl,canonical_ok.mpr (validated_ok.mpr ⟨r.valid,rfl⟩)⟩

theorem integrityClassOf_text (c : IntegrityClass) : integrityClassOf (.str c.text) = .ok c := by
  cases c <;> rfl

theorem requireList_readBack {m : List (String × Json)} {key : String} {l : List Json}
    (hn : (m.map (·.1)).Nodup) (hv : Dict.get? m key = some (.list l)) :
    requireList (Json.obj m).readBack key = .ok (l.map Json.readBack) := by
  have hget : (Json.obj m).readBack.get key = .ok (some (.list (l.map Json.readBack))) := by
    rw [Json.readBack_obj,Json.get,Json.get?_readBack hn,hv,Option.map_some,Json.readBack_list]
  exact Runs.bind_ok.mpr ⟨_,hget,rfl⟩

theorem readSource_returns (ha : lib.KeepsAscii) (c : SourceCalibration lib) :
    readSource lib c.toScf.readBack = .ok c := by
  have hn : ["integrity_class","regimes","source_id"].Nodup := by decide
  have hregimes : ((c.regimes.map (·.toScf)).map Json.readBack).mapM (readRegime lib) = .ok c.regimes := by
    rw [List.map_map]
    exact mapM_ok.mpr (List.forall₂_map_left_iff.mpr (List.forall₂_same.mpr fun r _ => readRegime_returns ha r))
  have h := c.valid
  simp only [checks_cons,ensure_ok] at h
  refine Runs.bind_ok.mpr ⟨_,requireList_readBack (by exact hn) rfl,Runs.bind_ok.mpr ⟨_,hregimes,?_⟩⟩
  refine Runs.bind_ok.mpr ⟨_,Json.item_readBack (by exact hn) rfl,Runs.bind_ok.mpr ⟨c.source,rfl,?_⟩⟩
  refine Runs.bind_ok.mpr ⟨(),demand_ok.mpr h.1,Runs.bind_ok.mpr ⟨_,Json.item_readBack (by exact hn) rfl,?_⟩⟩
  refine Runs.bind_ok.mpr ⟨_,integrityClassOf_text _,?_⟩
  exact canonical_ok.mpr (validated_ok.mpr ⟨c.valid,rfl⟩)

def profileKeys : List String := ["calibration_seed_band","degradation_spec_hash","excluded_intervals_hash",
  "generator_config_hash","reference_bundle_hash","reference_run_manifest_hash","regime_collapsed",
  "scenario_family","schema","sources","profile_id"]

theorem profileKeys_nodup : profileKeys.Nodup := by decide

/-- The members of the document: those of the body, and the id. -/
def SourceProfile.members (profile : SourceProfile lib) (id : String) : List (String × Json) := [
  ("calibration_seed_band",.list [.int profile.calibrationSeedBand.1,.int profile.calibrationSeedBand.2]),
  ("degradation_spec_hash",.str profile.degradationSpecHash),
  ("excluded_intervals_hash",.str profile.excludedIntervalsHash),
  ("generator_config_hash",.str profile.generatorConfigHash),
  ("reference_bundle_hash",.str profile.referenceBundleHash),
  ("reference_run_manifest_hash",.str profile.referenceRunManifestHash),
  ("regime_collapsed",.bool profile.regimeCollapsed),("scenario_family",.str profile.scenarioFamily),
  ("schema",.str "spectra.source_profile/1"),("sources",.list (profile.sources.map (·.toScf))),
  ("profile_id",.str id)]

theorem SourceProfile.toScf_ok {profile : SourceProfile lib} {document : Json}
    (h : profile.toScf lib = .ok document) :
    ∃ id, profile.profileId lib = .ok id ∧ document = .obj (profile.members id) := by
  obtain ⟨id,hid,h⟩ := Runs.bind_ok.mp h
  exact ⟨id,hid,(Runs.pure_ok.mp h).symm⟩

theorem readProfile_returns (profile : SourceProfile lib) (id : String) :
    readProfile lib (Json.obj (profile.members id)).readBack profile.sources = .ok profile := by
  have hn : ((profile.members id).map (·.1)).Nodup := profileKeys_nodup
  refine Runs.bind_ok.mpr ⟨_,Json.item_readBack hn rfl,?_⟩
  refine Runs.bind_ok.mpr ⟨_,by rw [Json.readBack_list]; rfl,?_⟩
  refine Runs.bind_ok.mpr ⟨_,Json.item_readBack hn rfl,Runs.bind_ok.mpr ⟨_,Json.item_readBack hn rfl,?_⟩⟩
  refine Runs.bind_ok.mpr ⟨_,Json.item_readBack hn rfl,Runs.bind_ok.mpr ⟨_,Json.item_readBack hn rfl,?_⟩⟩
  refine Runs.bind_ok.mpr ⟨_,Json.item_readBack hn rfl,Runs.bind_ok.mpr ⟨_,Json.item_readBack hn rfl,?_⟩⟩
  refine Runs.bind_ok.mpr ⟨_,Json.item_readBack hn rfl,Runs.bind_ok.mpr ⟨_,Json.item_readBack hn rfl,?_⟩⟩
  refine Runs.bind_ok.mpr ⟨(),demand_ok.mpr (Json.eq_str.mpr rfl),?_⟩
  refine Runs.bind_ok.mpr ⟨_,rfl,Runs.bind_ok.mpr ⟨_,rfl,Runs.bind_ok.mpr ⟨_,rfl,?_⟩⟩⟩
  refine Runs.bind_ok.mpr ⟨_,rfl,Runs.bind_ok.mpr ⟨_,rfl,Runs.bind_ok.mpr ⟨_,rfl,?_⟩⟩⟩
  refine Runs.bind_ok.mpr ⟨_,rfl,Runs.bind_ok.mpr ⟨_,rfl,?_⟩⟩
  exact canonical_ok.mpr (validated_ok.mpr ⟨profile.valid,rfl⟩)

theorem RegimeProfile.distinct (r : RegimeProfile) : r.toScf.distinct = true := by
  have h := r.valid
  simp only [checks_cons] at h
  have hascending := checkStrictlyAscending_ok.mp h.2.2.2.1
  have hn : ["gap_digest","max_gap_ns","min_gap_ns","n_gaps","order_statistics","regime_id"].Nodup := by decide
  have hstatistics : (Json.obj (r.orderStatistics.map fun p =>
      (p.1,Json.str (Checker.decimalText p.2)))).distinct = true := by
    rw [Json.distinct_obj,List.map_map]
    refine ⟨hascending.imp fun hlt => ne_of_lt hlt,?_⟩
    rintro _ hp
    obtain ⟨p,-,rfl⟩ := List.mem_map.mp hp
    rfl
  refine Json.distinct_obj.mpr ⟨hn,?_⟩
  simp only [List.forall_mem_cons]
  exact ⟨rfl,rfl,rfl,rfl,hstatistics,rfl,by simp⟩

theorem SourceCalibration.distinct (c : SourceCalibration lib) : c.toScf.distinct = true := by
  have hn : ["integrity_class","regimes","source_id"].Nodup := by decide
  refine Json.distinct_obj.mpr ⟨hn,?_⟩
  simp only [List.forall_mem_cons]
  refine ⟨rfl,Json.distinct_list.mpr fun j hj => ?_,rfl,by simp⟩
  obtain ⟨r,-,rfl⟩ := List.mem_map.mp hj
  exact r.distinct

theorem SourceProfile.distinct (profile : SourceProfile lib) (id : String) :
    (Json.obj (profile.members id)).distinct = true := by
  refine Json.distinct_obj.mpr ⟨profileKeys_nodup,?_⟩
  simp only [members,List.forall_mem_cons]
  refine ⟨?_,rfl,rfl,rfl,rfl,rfl,rfl,rfl,rfl,?_,rfl,by simp⟩
  · exact Json.distinct_list.mpr (by simp [Json.distinct])
  · refine Json.distinct_list.mpr fun j hj => ?_
    obtain ⟨c,-,rfl⟩ := List.mem_map.mp hj
    exact c.distinct

theorem beforeLineFeed_object {m : List (String × Json)} :
    beforeLineFeed (String.ofList ((Json.obj m).text++['\n'])) = some (String.ofList (Json.obj m).text) := by
  rw [beforeLineFeed,String.toList_ofList,Json.text]
  simp

/-- The strict reader makes of a document's text what any reader makes of it. -/
theorem scfLoads_text {document : Json} (loc : String) (hc : Encodable 0 false document)
    (hd : document.distinct = true) (hreads : lib.Reads profileHooks document) :
    scfLoads lib loc (String.ofList document.text) = .ok document.readBack := by
  have hvalue : lib.jsonLoads profileHooks (String.ofList document.text) = .ok document.readBack := by
    rw [hreads _ (.inl (Json.octets_text document))]
    exact revive_profileHooks hc.readBack (Json.distinct_readBack hd)
  exact Runs.bind_ok.mpr ⟨_,hvalue,Runs.bind_ok.mpr ⟨(),canonical_ok.mpr (hc.readBack _),rfl⟩⟩

/-! ### A profile that is written -/

/-- A document is spelled as its body is. -/
theorem SourceProfile.encodable {profile : SourceProfile lib} {id : String}
    (hbody : Encodable 0 false profile.body) (hid : nfc id = .ok id) :
    Encodable 0 false (.obj (profile.members id)) := by
  have hopen : profile.body = .obj (profile.members id).dropLast := rfl
  have hmembers : profile.members id = (profile.members id).dropLast++[("profile_id",.str id)] := rfl
  obtain ⟨hdepth,hall⟩ := (encodable_obj).mp (hopen ▸ hbody)
  rw [hmembers,encodable_obj]
  refine ⟨hdepth,fun p hp => ?_⟩
  rcases List.mem_append.mp hp with hp | hp
  · exact hall p hp
  · rw [List.mem_singleton] at hp
    subst hp
    refine ⟨show Checker.isKey "profile_id" = true by decide,fun loc => ?_⟩
    rw [scfCheck]
    exact Runs.bind_ok.mpr ⟨(),ensure_ok.mpr (by decide),by rw [hid]; rfl⟩

theorem SourceProfile.profileId_returns {profile : SourceProfile lib} (hbody : Encodable 0 false profile.body) :
    profile.profileId lib = .ok (lib.hashRef "prof" (profile.body.dumps true++[0x0a])) :=
  Runs.bind_ok.mpr ⟨_,Runs.bind_ok.mpr ⟨(),hbody _,rfl⟩,rfl⟩

theorem writeProfile_returns {profile : SourceProfile lib} {id : String} (hbody : Encodable 0 false profile.body)
    (hid : profile.profileId lib = .ok id) (hspelled : nfc id = .ok id) :
    ∃ data, writeProfile lib profile = .ok (data,id) := by
  have hdata : profile.canonicalBytes lib = .ok ((Json.obj (profile.members id)).dumps true++[0x0a]) := by
    refine Runs.bind_ok.mpr ⟨.obj (profile.members id),Runs.bind_ok.mpr ⟨id,hid,rfl⟩,?_⟩
    exact Runs.bind_ok.mpr ⟨(),SourceProfile.encodable hbody hspelled _,rfl⟩
  exact ⟨_,Runs.bind_ok.mpr ⟨_,hdata,Runs.bind_ok.mpr ⟨id,hid,rfl⟩⟩⟩

/-- The library that reads one document. -/
theorem readerOf_profile {document : Json} (hc : Encodable 0 false document) (hd : document.distinct = true) :
    (Checker.readerOf [document]).Reads profileHooks document := by
  intro text ht
  have hget : Dict.get? [(document.dumps true,document.readBack),(document.dumps true++[0x0a],document.readBack)]
      (octets text) = some document.readBack := by
    rcases ht with ht | ht <;> rw [ht] <;> simp [Dict.get?]
  rw [revive_profileHooks hc.readBack (Json.distinct_readBack hd)]
  simp only [Checker.readerOf,Checker.standard,List.flatMap_cons,List.flatMap_nil,List.append_nil,hget]
  rfl

theorem printed_hashRef (documents : List Json) (kind : String) (payload : Bytes) :
    Printed ((Checker.readerOf documents).hashRef kind payload) := by
  have hopens : octets Checker.hashRefPrefix = [0x62,0x32,0x62,0x32,0x35,0x36,0x3a] := rfl
  have hopen : ∀ b ∈ octets Checker.hashRefPrefix, 0x20 ≤ b.toNat ∧ b.toNat < 0x7f := by
    rw [hopens]
    simp
  refine printed_of fun b hb => ?_
  rw [Library.hashRef,Checker.octets_append,List.mem_append] at hb
  rcases hb with hb | hb
  · exact hopen b hb
  · have hdigest : octets ((Checker.readerOf documents).digestHex kind payload 32) =
        Checker.hexOctets ((Checker.digest kind payload).take 32) :=
      Checker.octets_asciiString fun b hb => (Checker.hexOctets_printable _ b hb).2.trans (by norm_num)
    exact Checker.hexOctets_printable _ b (hdigest ▸ hb)

/-- A written profile is loaded as the profile that was written, under the id and the octets it had. -/
theorem profile_round_trip (lib : Library) (profile : SourceProfile lib) (data : Bytes) (id : String)
    (h : writeProfile lib profile = .ok (data,id)) (ha : lib.KeepsAscii) (hdecode : lib.DecodesText)
    (hreads : ∀ document, profile.toScf lib = .ok document → lib.Reads profileHooks document) :
    loadProfile lib data = .ok profile ∧ profile.profileId lib = .ok id ∧
      profile.canonicalBytes lib = .ok data := by
  obtain ⟨data,hdata,h⟩ := Runs.bind_ok.mp h
  obtain ⟨id,hid,h⟩ := Runs.bind_ok.mp h
  cases Runs.pure_ok.mp h
  refine ⟨?_,hid,hdata⟩
  obtain ⟨document,hdocument,hdata⟩ := Runs.bind_ok.mp hdata
  obtain ⟨_,hcheck,hdata⟩ := Runs.bind_ok.mp hdata
  obtain rfl := Runs.pure_ok.mp hdata
  have hreads := hreads document hdocument
  obtain ⟨id',hid',rfl⟩ := profile.toScf_ok hdocument
  obtain rfl := Except.ok.inj (hid'.symm.trans hid)
  have hn : ((profile.members id').map (·.1)).Nodup := profileKeys_nodup
  have hloads := scfLoads_text "profile" (encodable_of_check hcheck) (profile.distinct id') hreads
  have hspelled : (Json.obj (profile.members id')).dumps true++[0x0a] =
      octets (String.ofList ((Json.obj (profile.members id')).text++['\n'])) := by
    rw [octets_ofList,List.flatMap_append,← octets_ofList,Json.octets_text]
    rfl
  have hsources : ((profile.sources.map (·.toScf)).map Json.readBack).mapM (readSource lib) =
      .ok profile.sources := by
    rw [List.map_map]
    exact mapM_ok.mpr (List.forall₂_map_left_iff.mpr (List.forall₂_same.mpr fun c _ => readSource_returns ha c))
  rw [hspelled,loadProfile,hdecode]
  dsimp only
  rw [beforeLineFeed_object]
  refine Runs.bind_ok.mpr ⟨_,hloads,Runs.bind_ok.mpr ⟨_,by rw [Json.readBack_obj]; rfl,?_⟩⟩
  refine Runs.bind_ok.mpr ⟨id',by rw [Json.get?_readBack hn]; rfl,?_⟩
  refine Runs.bind_ok.mpr ⟨_,requireList_readBack hn rfl,Runs.bind_ok.mpr ⟨_,hsources,?_⟩⟩
  refine Runs.bind_ok.mpr ⟨_,readProfile_returns profile id',Runs.bind_ok.mpr ⟨_,canonical_ok.mpr hid,?_⟩⟩
  exact Runs.bind_ok.mpr ⟨(),demand_ok.mpr rfl,rfl⟩

/-! ### The profile of a day -/

/-- The document of the day's profile. -/
def dayDocument : Json := .obj ((dayProfile (Checker.readerOf [])).members
  ((Checker.readerOf []).hashRef "prof" ((dayProfile (Checker.readerOf [])).body.dumps true++[0x0a])))

theorem profile_round_trip_day : ∃ data id,
    writeProfile (Checker.readerOf [dayDocument]) (dayProfile _) = .ok (data,id) ∧
    loadProfile (Checker.readerOf [dayDocument]) data = .ok (dayProfile _) ∧
    (dayProfile (Checker.readerOf [dayDocument])).profileId _ = .ok id ∧
    (dayProfile (Checker.readerOf [dayDocument])).canonicalBytes _ = .ok data := by
  have hcheck : scfCheck "profile_body" 0 false (dayProfile (Checker.readerOf [])).body = .ok () := by decide
  have hbody : Encodable 0 false (dayProfile (Checker.readerOf [dayDocument])).body := encodable_of_check hcheck
  have hspelled : ∀ payload, nfc ((Checker.readerOf [dayDocument]).hashRef "prof" payload) =
      .ok ((Checker.readerOf [dayDocument]).hashRef "prof" payload) := by
    intro payload
    rw [nfc,if_neg (printed_hashRef _ _ _).2]
  have hid := SourceProfile.profileId_returns hbody
  obtain ⟨data,hwrite⟩ := writeProfile_returns hbody hid (hspelled _)
  refine ⟨data,_,hwrite,?_⟩
  refine profile_round_trip _ _ data _ hwrite (fun _ _ => rfl) (Checker.readerOf_decodes _) fun document h => ?_
  obtain ⟨id,hid',rfl⟩ := SourceProfile.toScf_ok h
  obtain rfl := Except.ok.inj (hid'.symm.trans hid)
  exact readerOf_profile (SourceProfile.encodable hbody (hspelled _)) (SourceProfile.distinct _ _)

end Liveness
end Spectra
