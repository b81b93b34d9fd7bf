import Mathlib.Data.Nat.Choose.Basic
import Spectra.CheckerInputs

/-! `spectra_vs_verify.checker`: the obligations in order, and the run that stops at the
first one that fails. What an obligation establishes is handed to the later ones. -/
namespace Spectra
namespace Checker

/-! ### Canonicity, schema, scope -/

mutual

/-- `_walk_values`: one scan for nulls, floats, wide integers, text that is not NFC, depth. -/
def walk (lib : Library) (path : List String) (depth : ℕ) : Json → Check Unit
  | .null => require (path = ["body","verdict","witness_class"]) "E-CANON-NULL"
  | .bool _ => .ok ()
  | .scalar _ => reject "E-CANON-FLOAT"
  | .int n => require (0 ≤ n ∧ n ≤ u32Max) "E-CANON-WIDTH"
  | .str s => do
    require (lib.normalize s = s) "E-CANON-NFC"
    require (¬(octets s).any fun b => b.toNat < 0x20 || b.toNat = 0x7f) "E-CANON-NFC"
  | .obj m => do
    require (depth ≤ maxDepth) "E-LIMIT-DEPTH"
    walkMembers lib path (depth+1) m
  | .list l => do
    require (depth ≤ maxDepth) "E-LIMIT-DEPTH"
    walkItems lib path (depth+1) 0 l

def walkMembers (lib : Library) (path : List String) (depth : ℕ) :
    List (String × Json) → Check Unit
  | [] => .ok ()
  | (key,v)::rest => do
    walk lib (path++[key]) depth v
    walkMembers lib path depth rest

def walkItems (lib : Library) (path : List String) (depth : ℕ) : ℕ → List Json → Check Unit
  | _, [] => .ok ()
  | index, v::rest => do
    walk lib (path++[toString index]) depth v
    walkItems lib path depth (index+1) rest

end

def o0Canonicity (lib : Library) (content : Bytes) (document : Json) : Check Unit := do
  walk lib [] 1 document
  forEach (← document.iter) fun key =>
    require (key.eq (.str "body") ∨ key.eq (.str "cert_hash")) "E-SCHEMA-UNKNOWN"
  if document.dumps true++[0x0a] = content then pure ()
  else if document.dumps false++[0x0a] = content then reject "E-CANON-ORDER"
  else reject "E-CANON-FORM"

def o1CertHash (lib : Library) (document body : Json) : Check Unit := do
  let declared ← document.member "cert_hash"
  require (declared.eq (.str (lib.hashRef "cert" (body.dumps true)))) "E-HASH-CERT"

/-- A version part: ASCII digits. -/
def versionPart (part : List Char) : Check ℕ := do
  let digits := part.map fun c => UInt8.ofNat (min c.toNat 255)
  require (digits ≠ [] ∧ digits.all isDigit) "E-SCHEMA-DOWNGRADE"
  decimalValue digits

/-- `_version`: every part is tested before any is converted. -/
def version (j : Json) : Check (List ℕ) :=
  match j with
  | .str text => do
    let parts := text.toList.splitOn '.'
    require (parts.all fun part => part ≠ [] && part.all fun c => '0' ≤ c && c ≤ '9')
      "E-SCHEMA-DOWNGRADE"
    parts.mapM versionPart
  | _ => reject "E-SCHEMA-DOWNGRADE"

def checkerVersion : List ℕ := [1,1]

def hashAlgorithm : String := "blake2b-256"

def hashSubstitutionNote : String :=
  "The specification names blake3. This Python reference implementation computes "
    ++"blake2b-256 because the standard library has no blake3 and no package may be "
    ++"installed. Digests here are not comparable with specified digests."

def requiredBodyMembers : List String :=
  ["atoms","budgets","cut","cut_delta_canonical","ghost_count","goals","inputs","instances",
    "licenses","observed_event_count","psi","residual","schema","scope","silent","verdict",
    "witnesses"]

def bodyMembers : List String :=
  requiredBodyMembers++["invariant","premium","premium_suppressed_reason"]

def o2Schema (body : Json) : Check Unit := do
  let schema ← body.member "schema"
  require ((← schema.member "v").eq (.str "1.1")) "E-SCHEMA-DOWNGRADE"
  let minChecker ← version (← schema.member "min_checker")
  require (minChecker ≤ checkerVersion) "E-SCHEMA-DOWNGRADE"
  require ((← schema.member "profile").eq (.str "eclipse-cert")) "E-SCHEMA-UNKNOWN"
  require ((← schema.member "hash_algorithm").eq (.str hashAlgorithm)) "E-HASH-ALGO"
  require ((← schema.member "hash_substitution_note").eq (.str hashSubstitutionNote)) "E-HASH-ALGO"
  let keys ← body.iter
  require (∀ key ∈ keys, bodyMembers.any fun name => key.eq (.str name)) "E-SCHEMA-UNKNOWN"
  let present ← requiredBodyMembers.mapM body.contains
  require (∀ p ∈ present, p = true) "E-SCHEMA-MISSING"
  let premium ← body.contains "premium"
  let reason ← body.contains "premium_suppressed_reason"
  require (premium ≠ reason) (if premium || reason then "E-SCHEMA-UNKNOWN" else "E-SCHEMA-MISSING")

/-- `canon.parse_hash_ref`; the text of a hash reference. -/
def hashRefText (j : Json) : Option String :=
  match j with
  | .str s =>
    let digits := (octets s).drop hashRefPrefix.length
    if hasPrefix hashRefPrefix s ∧ digits.length = 64 ∧ (hexDigits digits).isSome then some s
    else none
  | _ => none

def scopeToInput : List (String × String) :=
  [("bundle","bundle_hash"),("controls","controls_hash"),("er","er_hash"),("goal","goal_hash"),
    ("liveness","liveness_hash"),("rules","rules_hash")]

def scopeMembers : List String :=
  ["attacker","bundle","controls","er","goal","liveness","rules"]

def o3Scope (body : Json) : Check Unit := do
  let scope ← body.member "scope"
  let inputs ← body.member "inputs"
  let names ← scope.iter
  forEach names Json.hash
  require ((∀ name ∈ names, scopeMembers.any fun m => name.eq (.str m)) ∧
    ∀ m ∈ scopeMembers, names.any fun name => name.eq (.str m)) "VRD-005"
  require ((← scope.item "attacker").eq (.str "non-adaptive")) "VRD-005"
  forEach scopeToInput fun p => do
    let value ← scope.item p.1
    require value.truthy "VRD-005"
    match hashRefText value with
    | none => reject "VRD-005"
    | some s => require ((← inputs.member p.2).eq (.str s)) "E-SCOPE-BIND"

/-! ### Inputs -/

/-- One pinned input: its member, the digest domain, the file, and the code of a mismatch. -/
structure Coverage where
  name : String
  domain : String
  file : CheckerInputs → SideFile
  code : String

def inputCoverage : List Coverage := [
  ⟨"rules_hash","rules",(·.rulesCae),"E-INPUT-RULES"⟩,
  ⟨"rules_text_hash","rulestext",(·.rules),"E-INPUT-RULES_TEXT"⟩,
  ⟨"guard_ast_hash","guardast",(·.guards),"E-INPUT-GUARD_AST"⟩,
  ⟨"controls_hash","controls",(·.controlsCae),"E-INPUT-CONTROLS"⟩,
  ⟨"catalog_bits_hash","catbits",(·.catalogBits),"E-INPUT-CATALOG_BITS"⟩,
  ⟨"bundle_hash","bundle",(·.bundle),"E-INPUT-BUNDLE"⟩,
  ⟨"liveness_hash","liveness",(·.liveness),"E-INPUT-LIVENESS"⟩,
  ⟨"profile_hash","profile",(·.profile),"E-INPUT-PROFILE"⟩,
  ⟨"goal_hash","goal",(·.goalCae),"E-INPUT-GOAL"⟩,
  ⟨"er_hash","er",(·.er),"E-INPUT-ER"⟩]

/-- Forensic only: a mismatch is a note, never a rejection. -/
def advisoryInputs : List String := ["rules_text_hash"]

def checkCoverage (lib : Library) (inputs : Json) (files : CheckerInputs) (c : Coverage) :
    Check Unit := do
  let declared ← inputs.member c.name
  let content ← (c.file files).read
  require (declared.eq (.str (lib.hashRef c.domain content)) ∨ c.name ∈ advisoryInputs) c.code

/-- The published instances, read once and handed on. -/
def o4Inputs (lib : Library) (body : Json) (files : CheckerInputs) : Check (List Published) := do
  let inputs ← body.member "inputs"
  require ((← inputs.member "grounding_mode").eq (.str "replayed")) "E-SCHEMA-UNKNOWN"
  require ((← inputs.member "bundle_provenance").eq (.str "synthetic_generator_no_range"))
    "E-SCHEMA-UNKNOWN"
  require ((← inputs.member "implementation").eq (.str "python-reference")) "E-SCHEMA-UNKNOWN"
  let _ ← maskText (← inputs.member "seed")
  forEach inputCoverage (checkCoverage lib inputs files)
  let (instances,content) ← seqField lib.instanceCanonical (← body.member "instances")
  require ((← inputs.member "instances_hash").eq (.str (lib.hashRef "instances" content)))
    "E-HASH-CERT"
  pure instances

/-- `low <= seed <= high`; a bound that is no number raises. -/
def inBand (low high : Json) (seed : ℤ) : Check Bool :=
  match low.number? with
  | none => .error .typeError
  | some low =>
    if low ≤ seed then match high.number? with
      | none => .error .typeError
      | some high => .ok (seed ≤ high)
    else .ok false

/-- The binding gates B1 to B6. -/
def o4bProfile (lib : Library) (body : Json) (files : CheckerInputs) : Check Unit := do
  let inputs ← body.member "inputs"
  let profile ← parseSideJson lib files.profile
  let manifest ← match files.runManifest with
    | .absent => reject "PROFILE_INVALID"
    | file => parseSideJson lib file
  let reference ← profile.member "reference_bundle_hash"
  require (reference.eq (← inputs.member "bundle_hash") = false) "PROFILE_SELF_CALIBRATED"
  let degradation ← profile.member "degradation_spec_hash"
  require (degradation.eq (← manifest.member "identity_spec_hash")) "PROFILE_FROM_DEGRADED_RUN"
  match ← profile.member "calibration_seed_band" with
  | .list [low,high] => do
    let seed ← maskText (← inputs.member "seed")
    require ((← inBand low high seed.toNat) = false) "PROFILE_SEED_OVERLAP"
  | _ => reject "PROFILE_INVALID"
  let config ← profile.member "generator_config_hash"
  require (config.eq (← manifest.member "generator_config_hash")) "PROFILE_CONFIG_MISMATCH"
  let family ← profile.member "scenario_family"
  require (family.eq (← manifest.member "scenario_family")) "PROFILE_FAMILY_MISMATCH"
  let excluded ← profile.member "excluded_intervals_hash"
  require (excluded.eq (← manifest.member "excluded_intervals_hash")) "PROFILE_INTERVALS_MISMATCH"

/-! ### Atoms and the cut -/

/-- A row of the atom table. -/
structure AtomRow where
  controlId : ControlId
  level : ℤ
  bit : ℕ
  deriving DecidableEq

/-- The atom table by rank, the bit of a control's level, and the levels of a control. -/
structure Atoms where
  byRank : List AtomRow
  bits : List ((ControlId × ℤ) × ℕ)
  controlLevels : List (ControlId × List ℤ)

def maskWidth : ℕ := 64

def readAtomRow (j : Json) : Check AtomRow :=
  match j with
  | .list [control,level,bit] =>
    match control.str? with
    | none => reject "E-LITERAL-TABLE"
    | some controlId => do
      require (hasPrefix "ctl:" controlId) "E-LITERAL-TABLE"
      match level.int? with
      | none => reject "E-LITERAL-TABLE"
      | some level => do
        require (1 ≤ level) "E-LITERAL-TABLE"
        match bit.int? with
        | none => reject "E-LITERAL-TABLE"
        | some bit => do
          require (0 ≤ bit ∧ bit < maskWidth) "E-LITERAL-TABLE"
          pure ⟨controlId,level,bit.toNat⟩
  | _ => reject "E-LITERAL-TABLE"

/-- One entry of the lock: its position, and its row when it is live. -/
def readLockEntry (lib : Library) (st : List ℕ × List AtomRow) (entry : Json) :
    Check (List ℕ × List AtomRow) := do
  let pos := ((← entry.get "pos").bind Json.number?).getD (-1)
  require (0 ≤ pos ∧ pos < maskWidth) "E-LITERAL-TABLE"
  require (pos.toNat ∉ st.1) "E-LITERAL-TABLE"
  let state ← entry.get "state"
  if (state.getD .null).eq (.str "live") then
    let control ← entry.item "control_id"
    let level ← lib.int (← entry.item "level")
    pure (st.1++[pos.toNat],st.2++[⟨"ctl:"++lib.str control,level,pos.toNat⟩])
  else pure (st.1++[pos.toNat],st.2)

/-- Canonical rank order: the bare control name, then the level. -/
def rankOrder (rows : List AtomRow) : List AtomRow :=
  rows.insertionSort fun a b =>
    toLex (removePrefix "ctl:" a.controlId,a.level) ≤ toLex (removePrefix "ctl:" b.controlId,b.level)

def Atoms.ofRows (rows : List AtomRow) : Atoms where
  byRank := rankOrder rows
  bits := (rankOrder rows).foldl (fun d r => Dict.set d (r.controlId,r.level) r.bit) []
  controlLevels := ((rankOrder rows).foldl (fun d r =>
    Dict.set d r.controlId ((Dict.get? d r.controlId).getD []++[r.level])) []).map fun p =>
      (p.1,p.2.insertionSort (· ≤ ·))

def Atoms.levelsOf (atoms : Atoms) (controlId : ControlId) : List ℤ :=
  (Dict.get? atoms.controlLevels controlId).getD []

/-- `atom_bits[(control_id, level)]`. -/
def Atoms.bitOf (atoms : Atoms) (controlId : ControlId) (level : ℤ) : Check ℕ :=
  match Dict.get? atoms.bits (controlId,level) with
  | some bit => .ok bit
  | none => .error .keyError

/-- `atom_by_rank.get(rank)`. -/
def Atoms.atRank (atoms : Atoms) (rank : Json) : Check (Option (ℕ × AtomRow)) := do
  rank.hash
  match rank.number? with
  | some n => pure (if 0 ≤ n then (atoms.byRank[n.toNat]?).map (n.toNat,·) else none)
  | none => pure none

def o5Atoms (lib : Library) (body : Json) (files : CheckerInputs) : Check Atoms := do
  let table ← body.member "atoms"
  let assign ← table.member "assign"
  let n ← table.member "n"
  let size ← assign.len
  require (n.eq (.int size)) "E-LIMIT-COUNT"
  require (size ≤ 64) "E-LIMIT-COUNT"
  let rows ← (← assign.iter).mapM readAtomRow
  require ((rows.map (·.bit)).IsChain (· < ·)) "E-CANON-ORDER"
  let lock ← parseToml lib files.catalogBits
  let entries ← ((← lock.get "bit").getD (.list [])).iter
  let (_,live) ← entries.foldlM (readLockEntry lib) ([],[])
  require ((∀ r ∈ live, r ∈ rows) ∧ ∀ r ∈ rows, r ∈ live) "E-LITERAL-TABLE"
  pure (Atoms.ofRows rows)

/-- The published cut: its ranks, its mask, and the level each control is raised to. -/
structure PublishedCut where
  rows : List (ℕ × AtomRow)
  mask : Mask
  controls : List (ControlId × ℤ)

def bitMask (bit : ℕ) : Mask := BitVec.twoPow 64 bit

def readCutEntry (atoms : Atoms) (entry : Json) : Check (ℕ × AtomRow) := do
  let rank ← entry.member "rank"
  let control ← entry.member "control_id"
  let level ← entry.member "level"
  let bit ← entry.member "bit"
  match ← atoms.atRank rank with
  | none => reject "E-LITERAL-TABLE"
  | some (r,row) => do
    require (control.eq (.str row.controlId) ∧ level.eq (.int row.level) ∧ bit.eq (.int row.bit))
      "E-LITERAL-TABLE"
    pure (r,row)

def PublishedCut.ofRows (rows : List (ℕ × AtomRow)) : PublishedCut where
  rows := rows
  mask := rows.foldl (fun mask p => mask ||| bitMask p.2.bit) 0
  controls := rows.foldl (fun d p =>
    Dict.set d p.2.controlId (max ((Dict.get? d p.2.controlId).getD 0) p.2.level)) []

/-- The levels present are those the table holds up to the top. -/
def upwardClosed (atoms : Atoms) (rows : List (ℕ × AtomRow)) (p : ControlId × ℤ) : Check Unit :=
  let held : List ℤ :=
    ((atoms.bits.map (·.1)).filter fun k => k.1 = p.1 ∧ 1 ≤ k.2 ∧ k.2 ≤ p.2).map (·.2)
  let present : List ℤ := (rows.filter fun q => q.2.controlId = p.1).map (·.2.level)
  require (present.insertionSort (· ≤ ·) = held.insertionSort (· ≤ ·)) "E-CUT-CLOSURE"

def o6Cut (body : Json) (atoms : Atoms) : Check PublishedCut := do
  let entries ← (← body.member "cut").iter
  let rows ← entries.mapM (readCutEntry atoms)
  require ((rows.map (·.1)).IsChain (· < ·)) "E-CANON-ORDER"
  let cut := PublishedCut.ofRows rows
  forEach cut.controls (upwardClosed atoms rows)
  pure cut

/-- Lowering a control from its top leaves a corridor unhit. -/
def levelMinimal (atoms : Atoms) (cut : PublishedCut) (corridorMasks : List Mask)
    (p : ControlId × ℤ) : Check Unit :=
  if p.2 ≤ 1 then .ok ()
  else do
    let lowered := cut.mask &&& ~~~bitMask (← atoms.bitOf p.1 p.2)
    require (¬corridorMasks.all fun m => m &&& lowered ≠ 0) "E-CUT-LEVEL"

def o6bLevels (body : Json) (atoms : Atoms) (cut : PublishedCut) : Check (List Mask) := do
  let psi ← body.member "psi"
  let corridors ← (← psi.member "corridors").iter
  let masks ← corridors.mapM fun c => do maskText (← c.item "mask")
  forEach cut.controls (levelMinimal atoms cut masks)
  pure masks

/-! ### The closure invariant -/

/-- No goal is declared derivable; the scan stops at the first that is. -/
def everySevered : List Json → Check Bool
  | [] => .ok true
  | g::goals => do
    if (← g.item "derivable").truthy then pure false else everySevered goals

/-- `fh:` and 64 more characters. -/
def factIdOk (value : String) : Bool := hasPrefix "fh:" value && value.length = 67

def readFactId (j : Json) : Check FactHash :=
  match j.str? with
  | none => .error .attributeError
  | some fact => do
    require (factIdOk fact) "E-INV-AXIOM"
    pure fact

/-- The strictly ascending scan of a value that is indexed; a mapping has no index. -/
def ascendingIn (j : Json) : Check Unit :=
  match j with
  | .obj m => if m.length ≤ 1 then .ok () else .error .keyError
  | j => do Json.ascending (← j.iter)

def o7Invariant (body : Json) (instances : List Published) : Check (Option (List FactHash)) := do
  let goals ← (← body.member "goals").iter
  let severed ← everySevered goals
  if ← body.contains "invariant" then
    require (severed = true) "E-SCHEMA-UNKNOWN"
    let declared ← (← body.item "invariant").member "u"
    ascendingIn declared
    let facts ← (← declared.iter).mapM readFactId
    require (∀ a ∈ axiomsOf instances, a ∈ facts) "E-INV-AXIOM"
    pure (some facts)
  else do
    require (severed = false) "E-SCHEMA-MISSING"
    pure none

def closedUnder (facts : List FactHash) (cutMask : Mask) (i : Published) : Check Unit := do
  require (i.blockers.all fun term => bitCount term = 1) "E-VS-BLOCK-CONJ"
  require ((∀ b ∈ i.body, b ∈ facts) → blocked i.blockers cutMask = false → i.head ∈ facts)
    "E-CLOSURE"

def o8Closure (instances : List Published) (cutMask : Mask) (invariant : Option (List FactHash)) :
    Check Unit :=
  match invariant with
  | none => .ok ()
  | some facts => forEach instances (closedUnder facts cutMask)

/-- A set membership test: the value is hashed, and only a text can be a member. -/
def inFacts (facts : List FactHash) (key : Json) : Check Bool := do
  key.hash
  pure (facts.any fun f => key.eq (.str f))

def goalAbsent (facts : List FactHash) (goal : Json) : Check Unit := do
  if (← goal.item "derivable").truthy then pure ()
  else require ((← inFacts facts (← goal.item "goal_key")) = false) "E-GOAL-MEMBER"

/-- The declared goals. -/
def o9Goals (body : Json) (invariant : Option (List FactHash)) : Check (List Json) := do
  let goals ← (← body.member "goals").iter
  Json.ascending (← goals.mapM (·.item "goal_key"))
  match invariant with
  | none => pure goals
  | some facts => do
    forEach goals (goalAbsent facts)
    pure goals

/-! ### Licences and ghosts -/

/-- One elementary interval of a source. -/
structure Row where
  t0Ns : ℤ
  t1Ns : ℤ
  verdict : Json
  reason : Json

def readRow (window : Json) : Check Row := do
  let t0 ← intText (← window.item "t0_ns")
  let t1 ← intText (← window.item "t1_ns")
  let verdict ← window.item "verdict"
  let reason ← window.item "reason"
  pure ⟨t0,t1,verdict,reason⟩

def readSource (d : List (SourceId × List Row)) (source : Json) :
    Check (List (SourceId × List Row)) := do
  let windows ← ((← source.get "intervals").getD (.list [])).iter
  let rows ← windows.mapM readRow
  let sourceId ← src (← source.item "source_id")
  pure (Dict.set d sourceId
    (rows.insertionSort fun a b => toLex (a.t0Ns,a.t1Ns) ≤ toLex (b.t0Ns,b.t1Ns)))

/-- The intervals of each source of the liveness document. -/
def readIntervals (liveness : Json) : Check (List (SourceId × List Row)) := do
  (← ((← liveness.get "sources").getD (.list [])).iter).foldlM readSource []

def readRule (lib : Library) (d : List (RuleId × List SourceId)) (rule : Json) :
    Check (List (RuleId × List SourceId)) := do
  let names ← ((← rule.get "producing_sources").getD (.list [])).iter
  let sources ← names.mapM src
  let id ← rule.item "id"
  pure (Dict.set d ("rl:"++lib.str id) sources)

/-- The producing sources of each rule of the rule file. -/
def readProducing (lib : Library) (rules : Json) : Check (List (RuleId × List SourceId)) := do
  (← ((← rules.get "rule").getD (.list [])).iter).foldlM (readRule lib) []

/-- `_non_live_over` from a cursor on. -/
def nonLiveFrom (t1 : ℤ) : ℤ → List Row → Bool
  | cursor, [] => t1 ≤ cursor
  | cursor, r::rows =>
    if r.t1Ns ≤ cursor then nonLiveFrom t1 cursor rows
    else if cursor < r.t0Ns then false
    else if r.verdict.eq (.str "LIVE") then false
    else if t1 ≤ r.t1Ns then true
    else nonLiveFrom t1 r.t1Ns rows

def nonLiveOver (rows : List Row) (t0 t1 : ℤ) : Bool := nonLiveFrom t1 t0 rows

/-- The sort key of a licence; the source is compared as the value it is. -/
def readLicenceKey (lic : Json) : Check (Json × ℤ × ℤ) := do
  let source ← lic.item "source_id"
  let t0 ← intText (← lic.item "t0_ns")
  let t1 ← intText (← lic.item "t1_ns")
  pure (source,t0,t1)

def keyLt (a b : Json × ℤ × ℤ) : Check Bool :=
  if a.1.eq b.1 then .ok (toLex (a.2.1,a.2.2) < toLex (b.2.1,b.2.2)) else a.1.lt b.1

def keysAscending : List (Json × ℤ × ℤ) → Check Unit
  | a::b::rest => do
    require (← keyLt a b) "E-CANON-ORDER"
    keysAscending (b::rest)
  | _ => .ok ()

def readLicence (lib : Library) (lic : Json) : Check PublishedLicence := do
  let ((basis,reason,sourceId,t0,t1),content) ← lib.licencePreimage lic
  let licenseId := "lic:"++lib.digestHex "lic" content 32
  require ((← lic.item "license_id").eq (.str licenseId)) "E-LICENSE-UNIMPLIED"
  require (basis = "BLIND" ∨ basis = "SUPPRESSED") "E-LICENSE-UNIMPLIED"
  if basis = "BLIND" then require ((← lic.contains "witness") = false) "E-LICENSE-UNIMPLIED"
  else require (((← lic.get "witness").getD .null).truthy) "E-LICENSE-UNIMPLIED"
  pure ⟨licenseId,basis,reason,sourceId,t0,t1⟩

/-- The published licences, in order, each under the id its fields mint. -/
def readLicences (lib : Library) (body : Json) : Check (List PublishedLicence) := do
  let published ← (← body.member "licenses").iter
  forEach published fun lic => do (← lic.item "license_id").hash
  keysAscending (← published.mapM readLicenceKey)
  published.mapM (readLicence lib)

/-- The last published instance under an id. -/
def byId (instances : List Published) (id : InstanceId) : Option Published :=
  instances.reverse.find? (·.instanceId = id)

/-- One cited licence: published, of a non-empty span that every producing source is
non-live over, and carried by an elementary interval of its own source. -/
def checkCited (intervals : List (SourceId × List Row)) (licences : List PublishedLicence)
    (sources : List SourceId) (id : LicenseId) : Check Unit :=
  match licences.reverse.find? (·.licenseId = id) with
  | none => reject "E-LICENSE-UNIMPLIED"
  | some lic => do
    require (lic.t0Ns < lic.t1Ns) "E-LICENSE-WINDOW"
    forEach sources fun source => match Dict.get? intervals source with
      | none => reject "E-LICENSE-UNIMPLIED"
      | some rows => require (nonLiveOver rows lic.t0Ns lic.t1Ns) "E-LICENSE-WINDOW"
    match Dict.get? intervals (← src (.str lic.sourceId)) with
    | none => pure ()
    | some rows => require (rows.any fun r => r.t0Ns < lic.t1Ns && lic.t0Ns < r.t1Ns &&
        r.verdict.eq (.str lic.basis) && r.reason.eq (.str lic.reason)) "E-LICENSE-UNIMPLIED"

/-- `by_instance.get(ref["instance_id"])`. -/
def instanceOf (instances : List Published) (id : Json) : Check (Option Published) := do
  id.hash
  pure (id.str?.bind (byId instances))

def checkSilent (producing : List (RuleId × List SourceId)) (intervals : List (SourceId × List Row))
    (licences : List PublishedLicence) (instances : List Published) (ref : Json) : Check Unit := do
  match ← instanceOf instances (← ref.item "instance_id") with
  | none => reject "E-LICENSE-UNIMPLIED"
  | some i => do
    require (i.observed = "LICENSED") "E-LICENSE-UNIMPLIED"
    let cited ← (← ref.item "license_ids").iter
    require (Json.eqItems cited (i.licenseIds.map .str)) "E-LICENSE-UNIMPLIED"
    match Dict.get? producing i.ruleId with
    | none => reject "E-LICENSE-UNIMPLIED"
    | some sources => forEach i.licenseIds (checkCited intervals licences sources)

/-- The published licences and the entries of the silent section. -/
def o10Licenses (lib : Library) (body : Json) (files : CheckerInputs) (instances : List Published) :
    Check (List PublishedLicence × List Json) := do
  let _ ← files.liveness.read
  let _ ← files.rules.read
  let liveness ← parseSideJson lib files.liveness
  let rules ← parseToml lib files.rules
  let producing ← readProducing lib rules
  let intervals ← readIntervals liveness
  let licences ← readLicences lib body
  let silent ← (← body.member "silent").iter
  forEach silent (checkSilent producing intervals licences instances)
  pure (licences,silent)

def ghostOk (i : Published) : Check Unit := do
  if i.observed = "LICENSED" then
    require (i.evidence = []) "E-GHOST-COUNT"
    require (i.licenseIds ≠ []) "E-LICENSE-UNIMPLIED"
  else require (i.evidence ≠ [] ∧ i.licenseIds = []) "E-GHOST-COUNT"
  require (i.ghost = true → i.observed = "LICENSED") "E-GHOST-COUNT"

def o11Ghost (body : Json) (instances : List Published) : Check Unit := do
  forEach instances ghostOk
  let events := (instances.flatMap fun i => i.evidence.map (·.eventId)).dedup
  let ghosts := ((instances.filter (·.ghost)).map (·.head)).dedup
  let declaredEvents ← body.member "observed_event_count"
  let declaredGhosts ← body.member "ghost_count"
  require (declaredEvents.eq (.int events.length)) "E-GHOST-COUNT"
  require (declaredGhosts.eq (.int ghosts.length)) "E-GHOST-COUNT"

/-! ### Witnesses -/

def readChild (index size : ℕ) (j : Json) : Check ℕ :=
  match j.int? with
  | none => reject "E-WITNESS-CYCLE"
  | some child => do
    require ((index : ℤ) < child ∧ child < size) "E-WITNESS-CYCLE"
    pure child.toNat

/-- `_check_flat_tree`: one tree in pre-order; the children of each node. -/
def checkFlatTree (tree : Json) : Check (List (List ℕ)) :=
  match tree.list? with
  | none => reject "E-WITNESS-CYCLE"
  | some nodes => do
    require (nodes ≠ []) "E-WITNESS-CYCLE"
    let children ← nodes.zipIdx.mapM fun p => do
      (← (← p.1.member "children").iter).mapM (readChild p.2 nodes.length)
    require (children.flatten.count 0 = 0) "E-WITNESS-CYCLE"
    forEach (List.range' 1 (nodes.length-1)) fun index =>
      require (children.flatten.count index = 1) "E-WITNESS-CYCLE"
    pure children

/-- Every cited event is in the bundle and recomputes from its record. -/
def checkEvents (lib : Library) (bundle : List (String × Json)) (events : List EventId) : Check Unit :=
  forEach events fun eventId => match Dict.get? bundle eventId with
    | none => reject "E-WITNESS-EVENT"
    | some record => do
      let content ← lib.eventPreimage record
      require ("ev:"++lib.digestHex "ev" content 16 = eventId) "E-WITNESS-EVENT"

def checkKind (lib : Library) (bundle : List (String × Json)) (kind evidence : Json) (i : Published) :
    Check Unit := do
  if kind.eq (.str "GHOST") then
    require (evidence.truthy = false) "E-GHOST-COUNT"
    require (i.ghost = true) "E-GHOST-COUNT"
    require (i.licenseIds ≠ []) "E-LICENSE-UNIMPLIED"
  else if kind.eq (.str "LICENSED") then
    require (evidence.truthy = false) "E-WITNESS-EVENT"
    require (i.ghost = false ∧ i.observed = "LICENSED") "E-WITNESS-EVENT"
    require (i.licenseIds ≠ []) "E-LICENSE-UNIMPLIED"
  else if kind.eq (.str "OBSERVED") then
    require evidence.truthy "E-WITNESS-EVENT"
    require (i.observed = "OBSERVED") "E-WITNESS-EVENT"
    let cited ← Json.sorted (← evidence.iter)
    let published := (i.evidence.map (·.eventId)).insertionSort (· ≤ ·)
    require (Json.eqItems cited (published.map .str)) "E-WITNESS-EVENT"
    checkEvents lib bundle ((← evidence.iter).filterMap Json.str?)
  else reject "E-WITNESS-EVENT"

/-- `_check_node`; the instance the node stands for. -/
def checkNode (lib : Library) (nodes : List Json) (children : List ℕ) (node : Json)
    (ancestors : List InstanceId) (instances : List Published) (bundle : List (String × Json)) :
    Check Published := do
  let id ← node.member "instance_id"
  require (¬ancestors.any fun a => id.eq (.str a)) "E-WITNESS-CYCLE"
  match ← instanceOf instances id with
  | none => reject "E-WITNESS-EVENT"
  | some i => do
    require ((← node.member "head").eq (.str i.head)) "E-WITNESS-EVENT"
    let kind ← node.member "kind"
    let evidence ← node.member "evidence"
    checkKind lib bundle kind evidence i
    let covered ← children.mapM fun child => do
      let head ← (nodes.getD child .null).item "head"
      head.hash
      pure head
    require (∀ b ∈ i.body, (covered.any fun h => h.eq (.str b)) ∨ b ∈ axiomsOf instances)
      "E-WITNESS-EVENT"
    pure i

/-- One node of the walk: check it, and hand its path to its children. -/
def walkNode (lib : Library) (nodes : List Json) (children : List (List ℕ))
    (instances : List Published) (bundle : List (String × Json))
    (st : List (ℕ × List InstanceId) × List Published) (p : Json × ℕ) :
    Check (List (ℕ × List InstanceId) × List Published) :=
  match Dict.get? st.1 p.2 with
  | none => .error .keyError
  | some path => do
    let i ← checkNode lib nodes (children.getD p.2 []) p.1 path instances bundle
    pure ((children.getD p.2 []).foldl (fun d child => Dict.set d child (path++[i.instanceId])) st.1,
      st.2++[i])

/-- A witness tree that checked: the removed control, the children of each node, and the
instance each node stands for. -/
structure PublishedWitness where
  control : ControlId
  children : List (List ℕ)
  instances : List Published

def anyDerived (derived : List FactHash) : List Json → Check Bool
  | [] => .ok false
  | g::goals => do
    if ← inFacts derived g then pure true else anyDerived derived goals

/-- The cut without a control. -/
def reducedMask (atoms : Atoms) (cutMask : Mask) (control : ControlId) : Check Mask :=
  (atoms.levelsOf control).foldlM (fun mask level => do
    pure (mask &&& ~~~bitMask (← atoms.bitOf control level))) cutMask

def checkWitness (lib : Library) (goals : List Json) (instances : List Published) (atoms : Atoms)
    (cut : PublishedCut) (bundle : List (String × Json)) (entry : Json) : Check PublishedWitness := do
  let removed ← entry.item "removed_control"
  removed.hash
  match removed.str? with
  | none => reject "E-WITNESS-CUT"
  | some control => do
    require (control ∈ cut.controls.map (·.1)) "E-WITNESS-CUT"
    let reduced ← reducedMask atoms cut.mask control
    require (← anyDerived (reach instances (axiomsOf instances) reduced) goals) "E-WITNESS-CUT"
    let tree ← entry.member "nodes"
    let children ← checkFlatTree tree
    let nodes := tree.list?.getD []
    let (_,steps) ← nodes.zipIdx.foldlM (walkNode lib nodes children instances bundle)
      ([(0,[])],[])
    pure ⟨control,children,steps⟩

def o12Witnesses (lib : Library) (body : Json) (files : CheckerInputs) (instances : List Published)
    (atoms : Atoms) (cut : PublishedCut) : Check (List PublishedWitness) := do
  let witnesses ← (← body.member "witnesses").iter
  Json.ascending (← witnesses.mapM (·.item "removed_control"))
  if witnesses = [] then pure []
  else do
    let bundle ← loadBundle lib files.bundle
    let goals ← (← (← body.member "goals").iter).mapM (·.item "goal_key")
    witnesses.mapM (checkWitness lib goals instances atoms cut bundle)

/-! ### Corridors and the premium -/

/-- A corridor as the certificate publishes it. -/
structure PublishedCorridor where
  corridorId : String
  ranks : List ℕ
  mask : Mask
  deriving DecidableEq

/-- `canon.leb128` of one rank. -/
def leb128Field (j : Json) : Check ℕ :=
  match j.int? with
  | some n =>
    if 0 ≤ n then .ok n.toNat
    else .error (.canon (ErrorType.canonError.mk "leb128: unsigned only"))
  | none => .error (.canon (ErrorType.canonError.mk "leb128: expected int"))

def readCorridor (lib : Library) (atoms : Atoms) (cutMask : Mask) (c : Json) :
    Check PublishedCorridor := do
  let atomRanks ← c.member "atom_ranks"
  ascendingIn atomRanks
  let ranks ← (← atomRanks.iter).mapM leb128Field
  let corridorId := "cor:"++lib.digestHex "cor" (leb128Seq ranks) 32
  require ((← c.item "corridor_id").eq (.str corridorId)) "E-PSI-HIT"
  require (∀ r ∈ ranks, r < atoms.byRank.length) "E-PSI-HIT"
  let expected := ranks.foldl (fun mask r =>
    mask ||| ((atoms.byRank[r]?).elim 0 fun row => bitMask row.bit)) 0
  let declared ← maskText (← c.item "mask")
  require (declared = expected) "E-PSI-HIT"
  require (declared &&& cutMask ≠ 0) "E-PSI-HIT"
  pure ⟨corridorId,ranks,declared⟩

def o13PsiHit (lib : Library) (body : Json) (atoms : Atoms) (cut : PublishedCut) :
    Check (List PublishedCorridor) := do
  let psi ← body.member "psi"
  require ((← psi.member "program").eq (.str "PMax")) "E-PSI-HIT"
  let corridors ← (← psi.member "corridors").iter
  Json.ascending (← corridors.mapM (·.item "corridor_id"))
  corridors.mapM (readCorridor lib atoms cut.mask)

/-- The premium is `NEC(Psi_max) \ OCC(Psi_min)`, re-derived from the published sets. -/
def o13bPremiumSets (body : Json) : Check Unit := do
  if ← body.contains "premium" then
    let premium ← body.member "premium"
    let necMax ← premium.member "nec_max"
    let occMin ← premium.member "occ_min"
    let published ← premium.member "blindness_premium"
    ascendingIn necMax
    ascendingIn occMin
    ascendingIn published
    let nec ← necMax.iter
    if nec ≠ [] then
      forEach (← occMin.iter) Json.hash
      forEach nec Json.hash
    let occ ← if nec = [] then pure [] else occMin.iter
    let expected := nec.filter fun control => !occ.any fun o => control.eq o
    require (published.eq (.list expected)) "E-PREMIUM-SETS"
    let entries ← (← premium.member "per_control").iter
    forEach entries fun entry => do
      let control ← entry.item "control_id"
      require (expected.any fun c => c.eq control) "E-PREMIUM-SETS"
  else
    let _ ← body.member "premium_suppressed_reason"

/-! ### The verdict -/

def flagBits : List (String × ℕ) :=
  [("grounding_capped",0),("corridor_cap",1),("atoms_over_budget",2),("er_ambiguous",3),
    ("quarantined_records",4),("license_voided_by_suspected_tampering",5),("greedy_cover",6),
    ("sampled_matrix",7),("profile_missing",8)]

def soundnessMask : ℕ := ([0,1,3,4,5,8].map fun b => 2^b).sum

def reservedMask : ℕ := ((List.range' 9 7).map fun b => 2^b).sum

def minimalityCapFlags : List String := ["atoms_over_budget","corridor_cap"]

def derivedSuppressedAlways : List String := ["pareto_frontier","redundancy_index"]

/-- `value in frozenset(names)`. -/
def oneOf (names : List String) (j : Json) : Check Bool := do
  j.hash
  pure (names.any fun name => j.eq (.str name))

/-- Flags in bit order, each declared; the mask they make. -/
def flagsMask : ℤ → ℕ → List Json → Check ℕ
  | _, mask, [] => .ok mask
  | previous, mask, name::rest => do
    name.hash
    match name.str?.bind (Dict.get? flagBits) with
    | none => reject "VRD-008"
    | some bit => do
      require (previous < bit) "VRD-008"
      flagsMask bit (mask ||| 2^bit) rest

/-- Some node of the published trees stands for an unobserved step. -/
def treeHasSilent (witnesses : List Json) : Check Bool := do
  let nodes ← witnesses.mapM fun w => do (← w.item "nodes").iter
  let kinds ← nodes.flatten.mapM (·.item "kind")
  pure (kinds.any fun k => k.eq (.str "GHOST") || k.eq (.str "LICENSED"))

def checkWitnessClass (body flags witnessClass : Json) : Check Unit := do
  require (← oneOf ["OBSERVED","LICENSED","CONTESTED"] witnessClass) "VRD-002"
  let witnesses ← body.member "witnesses"
  require witnesses.truthy "VRD-002"
  if ← flags.contains "er_ambiguous" then require (witnessClass.eq (.str "CONTESTED")) "VRD-007"
  if witnessClass.eq (.str "OBSERVED") then
    require ((← treeHasSilent (← witnesses.iter)) = false) "VRD-003"
  if witnessClass.eq (.str "LICENSED") then
    require (← treeHasSilent (← witnesses.iter)) "VRD-003"

/-- The two axes of the verdict the other obligations read. -/
structure PublishedVerdict where
  safety : String
  minimality : String
  deriving DecidableEq

def o14Flags (body : Json) : Check PublishedVerdict := do
  let verdict ← body.member "verdict"
  let flags ← verdict.member "flags"
  let mask ← flagsMask (-1) 0 (← flags.iter)
  require (mask &&& reservedMask = 0) "VRD-009"
  let safety ← verdict.member "safety"
  let minimality ← verdict.member "minimality"
  let realizability ← verdict.member "realizability"
  require (← oneOf ["ROBUST","OPTIMISTIC_ONLY","UNSAFE","INDETERMINATE"] safety) "VRD-008"
  require (← oneOf ["EXACT_EXHAUSTIVE","EXACT_PSI_RELATIVE","SUBSET","UNVERIFIED"] minimality)
    "VRD-008"
  require (← oneOf ["CHECKED","UNCHECKED"] realizability) "VRD-008"
  require (← verdict.contains "witness_class") "E-SCHEMA-MISSING"
  let witnessClass ← verdict.item "witness_class"
  if safety.eq (.str "ROBUST") then require (mask &&& soundnessMask = 0) "VRD-001"
  if safety.eq (.str "UNSAFE") then checkWitnessClass body flags witnessClass
  else require (witnessClass.eq .null) "VRD-006"
  if minimality.eq (.str "EXACT_EXHAUSTIVE") || minimality.eq (.str "EXACT_PSI_RELATIVE") then
    let capped ← minimalityCapFlags.mapM flags.contains
    require (∀ p ∈ capped, p = false) "VRD-004"
  let derived ← verdict.member "derived_suppressed"
  ascendingIn derived
  let present ← derivedSuppressedAlways.mapM derived.contains
  require (∀ p ∈ present, p = true) "VRD-014"
  if ← body.contains "premium" then
    let capped ← ["grounding_capped","corridor_cap"].mapM flags.contains
    require (∀ p ∈ capped, p = false) "E-FLAG-DERIVED"
    require ((← (← body.item "psi").member "complete").truthy) "E-FLAG-DERIVED"
    require ((← (← body.item "budgets").member "budget_exhausted").truthy = false) "E-FLAG-DERIVED"
  pure ⟨safety.str?.getD "",minimality.str?.getD ""⟩

/-- A ROBUST verdict may not stand over a source that is suspected of tampering. -/
def o14bTemporalDispute (lib : Library) (body : Json) (files : CheckerInputs) : Check Unit := do
  let verdict ← body.member "verdict"
  let safety ← verdict.member "safety"
  let liveness ← parseSideJson lib files.liveness
  let sources ← ((← liveness.get "sources").getD (.list [])).iter
  let marked ← sources.mapM fun source => do
    match ← source.get "tamper_suspected" with
    | some (.bool true) => do pure (some (lib.str ((← source.get "source_id").getD .null)))
    | _ => pure none
  let suspected := marked.filterMap id
  let sensitive ← ((← liveness.get "flags").getD (.obj [])).get "verdict_tamper_sensitive"
  let disputed := (← liveness.get "disputed_events").getD (.list [])
  if safety.eq (.str "ROBUST") then
    require (suspected = []) "VRD-001"
    require ((sensitive.getD .null).truthy = false) "VRD-001"
  forEach (← disputed.iter) fun event => do
    let source := lib.str ((← event.get "source_id").getD .null)
    require (source ∈ suspected) "VRD-001"
  let _ ← disputed.len

/-! ### Minimality -/

def exhaustiveCutCap : ℕ := 200000

/-- `itertools.combinations`, in its order. -/
def combinations {α : Type} : ℕ → List α → List (List α)
  | 0, _ => [[]]
  | _+1, [] => []
  | k+1, a::l => (combinations k l).map (a::·)++combinations (k+1) l

/-- Every level of every control of the subset. -/
def maskOfControls (atoms : Atoms) (subset : List ControlId) : Check Mask :=
  subset.foldlM (fun mask control => (atoms.levelsOf control).foldlM (fun mask level => do
    pure (mask ||| bitMask (← atoms.bitOf control level))) mask) 0

/-- One smaller cut: it misses a corridor, or the label's own test fails on it. -/
def probe (minimality : String) (instances : List Published) (atoms : Atoms)
    (corridorMasks : List Mask) (goals : List Json) (subset : List ControlId) : Check Unit := do
  let mask ← maskOfControls atoms subset
  if corridorMasks.all fun m => m &&& mask ≠ 0 then
    if minimality = "EXACT_PSI_RELATIVE" then reject "E-MIN-SMALLER"
    else require (← anyDerived (reach instances (axiomsOf instances) mask) goals) "E-MIN-SMALLER"

def o15Minimality (body : Json) (minimality : String) (instances : List Published) (atoms : Atoms)
    (cut : PublishedCut) (corridorMasks : List Mask) : Check Unit := do
  if minimality = "SUBSET" ∨ minimality = "UNVERIFIED" then pure ()
  else
    let controls := (atoms.controlLevels.map (·.1)).insertionSort (· ≤ ·)
    let target := cut.controls.length
    if target = 0 then pure ()
    else do
      let candidates := controls.length.choose (target-1)
      require (candidates ≤ exhaustiveCutCap) "E-MIN-UNEARNED"
      if minimality = "EXACT_EXHAUSTIVE" then
        let budgets ← body.item "budgets"
        require ((← budgets.member "exhaustive_ran").truthy) "E-MIN-UNEARNED"
        require ((← budgets.item "exhaustive_cuts_tested").eq (.int candidates)) "E-MIN-UNEARNED"
      let goals ← (← (← body.item "goals").iter).mapM (·.item "goal_key")
      forEach (combinations (target-1) controls)
        (probe minimality instances atoms corridorMasks goals)

/-! ### The run -/

/-- What the obligations established about a certificate. -/
structure State where
  body : Json
  instances : List Published
  atoms : Atoms
  cut : PublishedCut
  corridorMasks : List Mask
  invariant : Option (List FactHash)
  goals : List Json
  licences : List PublishedLicence
  silent : List Json
  witnesses : List PublishedWitness
  corridors : List PublishedCorridor
  verdict : PublishedVerdict

/-- An obligation under its name; the name is reported when it fails. -/
def obligation {α : Type} (name : String) (x : Check α) : Except (String × Raised) α :=
  x.mapError (name,·)

/-- `document.get("body")`, which has to be an object. -/
def bodyOf (document : Json) : Check Json := do
  match ← document.get "body" with
  | some (.obj m) => pure (.obj m)
  | _ => reject "E-SCHEMA-MISSING"

/-- O5 to O15, on the instances O4 read. -/
def obligationsFrom (lib : Library) (body : Json) (files : CheckerInputs)
    (instances : List Published) : Except (String × Raised) State := do
  let atoms ← obligation "O5" (o5Atoms lib body files)
  let cut ← obligation "O6" (o6Cut body atoms)
  let corridorMasks ← obligation "O6b" (o6bLevels body atoms cut)
  let invariant ← obligation "O7" (o7Invariant body instances)
  obligation "O8" (o8Closure instances cut.mask invariant)
  let goals ← obligation "O9" (o9Goals body invariant)
  let (licences,silent) ← obligation "O10" (o10Licenses lib body files instances)
  obligation "O11" (o11Ghost body instances)
  let witnesses ← obligation "O12" (o12Witnesses lib body files instances atoms cut)
  let corridors ← obligation "O13" (o13PsiHit lib body atoms cut)
  obligation "O13b" (o13bPremiumSets body)
  let verdict ← obligation "O14" (o14Flags body)
  obligation "O14b" (o14bTemporalDispute lib body files)
  obligation "O15" (o15Minimality body verdict.minimality instances atoms cut corridorMasks)
  pure ⟨body,instances,atoms,cut,corridorMasks,invariant,goals,licences,silent,witnesses,
    corridors,verdict⟩

/-- The parse and the obligations, in order. -/
def obligations (lib : Library) (content : Bytes) (files : CheckerInputs) :
    Except (String × Raised) State := do
  let document ← obligation "O0" (parseDocument lib content)
  let body ← obligation "O0" (bodyOf document)
  obligation "O0" (o0Canonicity lib content document)
  obligation "O1" (o1CertHash lib document body)
  obligation "O2" (o2Schema body)
  obligation "O3" (o3Scope body)
  let instances ← obligation "O4" (o4Inputs lib body files)
  obligation "O4b" (o4bProfile lib body files)
  obligationsFrom lib body files instances

/-- The whole check: `exitCode` is 0 ACCEPT, 1 REJECT, 2 usage or I/O. -/
structure Report where
  exitCode : ℕ
  code : String
  failed : Option String
  deriving DecidableEq

def Report.accepted (r : Report) : Bool := r.exitCode = 0

/-- `verify`: a rejection and a usage error are reported, anything else is raised. -/
def verify (lib : Library) (content : Bytes) (files : CheckerInputs) : Check Report :=
  match obligations lib content files with
  | .ok _ => .ok ⟨0,"",none⟩
  | .error (name,.rejected code) => .ok ⟨1,code,some name⟩
  | .error (name,.usage) => .ok ⟨2,"E-USAGE",some name⟩
  | .error (_,e) => .error e

end Checker

end Spectra
