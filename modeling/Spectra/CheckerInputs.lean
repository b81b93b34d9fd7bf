import Spectra.Horn
import Spectra.Json
import Spectra.Model

/-! `spectra_vs_verify.checker`, its readers: the side files, the strict parse of the
certificate, the preimages written a second time, and the closure. -/
namespace Spectra
namespace Checker

/-- What a JSON reader calls back on: an object's pairs, a float, a named constant. -/
structure Hooks where
  pairs : List (String × Json) → Check Json
  float : String → Check Json
  constant : String → Check Json

/-- The functions of the standard library the checker rests on, left open: the digest, NFC,
the decoders, and what `str` and `int` make of a value they have to convert. -/
structure Library where
  digestHex : String → Bytes → ℕ → String
  normalize : String → String
  decode : Bytes → Option String
  jsonLoads : Hooks → String → Check Json
  tomlLoads : Bytes → Check Json
  format : Json → String
  toInt : Json → Check ℤ

def hashRefPrefix : String := "b2b256:"

def Library.hashRef (lib : Library) (kind : String) (payload : Bytes) : String :=
  hashRefPrefix++lib.digestHex kind payload 32

/-- `str(value)`. -/
def Library.str (lib : Library) : Json → String
  | .str s => s
  | j => lib.format j

/-- `int(value)`. -/
def Library.int (lib : Library) (j : Json) : Check ℤ :=
  match j.number? with
  | some n => .ok n
  | none => lib.toInt j

/-- A side file as the checker finds it. -/
inductive SideFile where
  | absent
  | unreadable
  | octets (content : Bytes)

/-- `_read_octets`; an option that was not supplied is a usage error too. -/
def SideFile.read : SideFile → Check Bytes
  | .octets content => .ok content
  | _ => .error .usage

/-- `CheckerInputs`: one file for each pinned digest, and the run manifest. -/
structure CheckerInputs where
  rules : SideFile
  rulesCae : SideFile
  guards : SideFile
  controlsCae : SideFile
  catalogBits : SideFile
  bundle : SideFile
  liveness : SideFile
  profile : SideFile
  goalCae : SideFile
  er : SideFile
  runManifest : SideFile

def hasPrefix (opening s : String) : Bool := (octets opening).isPrefixOf (octets s)

/-- What follows a prefix of ASCII characters. -/
def removePrefix (opening s : String) : String :=
  if hasPrefix opening s then String.ofList (s.toList.drop opening.length) else s

def fileMagic : Bytes := octets "\x7b\"body\":\x7b"

def compressionMagics : List Bytes :=
  [[0x1f,0x8b],octets "PK",octets "BZ",[0xfd,0x37],[0x28,0xb5]]

def maxDepth : ℕ := 8

def u32Max : ℤ := 2^32-1

/-- `[a-z0-9_]+`. -/
def isKey (s : String) : Bool :=
  let chars := octets s
  !chars.isEmpty && chars.all fun b =>
    (0x61 ≤ b && b ≤ 0x7a) || (0x30 ≤ b && b ≤ 0x39) || b = 0x5f

/-- `_pairs_hook` from the pairs that are left. -/
def pairsFrom (checkKey : Bool) : List (String × Json) → List (String × Json) → Check Json
  | seen, [] => .ok (.obj seen)
  | seen, (key,value)::rest => do
    require ((Dict.get? seen key).isNone) "E-CANON-DUPKEY"
    require (checkKey = true → isKey key) "E-CANON-FORM"
    pairsFrom checkKey (seen++[(key,value)]) rest

/-- The certificate and the bundle; object keys keep the key form. -/
def certificateHooks : Hooks :=
  ⟨pairsFrom true [],fun _ => reject "E-CANON-FLOAT",fun _ => reject "E-CANON-FLOAT"⟩

/-- `_side_pairs_hook`: the key form is not asked of a side artifact. -/
def sideHooks : Hooks :=
  ⟨pairsFrom false [],fun _ => reject "E-CANON-FLOAT",fun _ => reject "E-CANON-FLOAT"⟩

/-- An object, or else a rejection; so is a text that is not JSON. -/
def objectOf (parsed : Check Json) : Check Json :=
  match parsed with
  | .ok (.obj m) => .ok (.obj m)
  | .ok _ => reject "E-CANON-FORM"
  | .error .jsonDecode => reject "E-CANON-FORM"
  | .error e => .error e

def decodeOrReject (lib : Library) (content : Bytes) : Check String :=
  match lib.decode content with
  | some text => .ok text
  | none => reject "E-CANON-FORM"

/-- `_parse_document`. -/
def parseDocument (lib : Library) (content : Bytes) : Check Json := do
  require (content.take 2 ∉ compressionMagics) "E-LIMIT-COMPRESSED"
  require (fileMagic.isPrefixOf content) "E-SCHEMA-MISSING"
  require (content.getLast? = some 0x0a ∧ content.count 0x0a = 1) "E-CANON-TRAILING"
  require (0x0d ∉ content) "E-CANON-FORM"
  let text ← decodeOrReject lib content
  objectOf (lib.jsonLoads certificateHooks text)

/-- `_parse_side_json`. -/
def parseSideJson (lib : Library) (file : SideFile) : Check Json := do
  let text ← decodeOrReject lib (← file.read)
  objectOf (lib.jsonLoads sideHooks text)

/-- `_parse_toml`. -/
def parseToml (lib : Library) (file : SideFile) : Check Json := do
  let content ← file.read
  require (0x0d ∉ content) "E-LEX-001"
  match lib.tomlLoads content with
  | .error .tomlDecode => reject "E-SYN-000"
  | parsed => parsed

/-- `str.splitlines`; a carriage return and a line feed end one line together. -/
def splitLines : List Char → List Char → List String
  | line, [] => if line = [] then [] else [String.ofList line]
  | line, '\r' :: '\n' :: rest => String.ofList line::splitLines [] rest
  | line, c::rest =>
    if c.val ∈ [0x0a,0x0b,0x0c,0x0d,0x1c,0x1d,0x1e,0x85,0x2028,0x2029] then
      String.ofList line::splitLines [] rest
    else splitLines (line++[c]) rest

/-- `_load_bundle`: the records by event id; one under an id that is no text is never read. -/
def loadBundle (lib : Library) (file : SideFile) : Check (List (String × Json)) := do
  let content ← file.read
  require (content.take 2 ∉ compressionMagics) "E-LIMIT-COMPRESSED"
  match lib.decode content with
  | none => .error .unicodeDecode
  | some text =>
    (splitLines [] text.toList).foldlM (fun records line => do
      require (line ≠ "") "E-CANON-FORM"
      let record ← lib.jsonLoads certificateHooks line
      let key ← record.item "event_id"
      key.hash
      match key with
      | .str eventId => pure (Dict.set records eventId record)
      | _ => pure records) []

/-! ### Texts that stand for numbers -/

def hexValue (b : UInt8) : Option ℕ :=
  if 0x30 ≤ b ∧ b ≤ 0x39 then some (b.toNat-0x30)
  else if 0x61 ≤ b ∧ b ≤ 0x66 then some (b.toNat-0x57)
  else none

def hexDigits (l : Bytes) : Option (List ℕ) := l.mapM hexValue

def fromDigits (base : ℕ) (l : List ℕ) : ℕ := l.foldl (fun n d => base*n+d) 0

/-- `_mask_text`: `0x` and sixteen lowercase hexadecimal digits. -/
def maskText (j : Json) : Check Mask :=
  match j with
  | .str s => match octets s with
    | 0x30::0x78::digits => match hexDigits digits with
      | some values =>
        if values.length = 16 then .ok (BitVec.ofNat 64 (fromDigits 16 values))
        else reject "E-CANON-WIDTH"
      | none => reject "E-CANON-WIDTH"
    | _ => reject "E-CANON-WIDTH"
  | _ => reject "E-CANON-WIDTH"

def isDigit (b : UInt8) : Bool := 0x30 ≤ b && b ≤ 0x39

/-- `int` of decimal digits; the interpreter refuses more than 4300 of them. -/
def decimalValue (digits : Bytes) : Check ℕ :=
  if 4300 < digits.length then .error .valueError
  else .ok (fromDigits 10 (digits.map fun b => b.toNat-0x30))

/-- `0|[1-9][0-9]*`. -/
def isNumeral (digits : Bytes) : Bool :=
  digits.all isDigit && match digits with
    | [] => false
    | first::rest => first ≠ 0x30 || rest.isEmpty

/-- `_int_text`. -/
def intText (j : Json) : Check ℤ :=
  match j with
  | .str s => match octets s with
    | 0x2d::digits => do
      require (isNumeral digits) "E-CANON-WIDTH"
      pure (-(← decimalValue digits : ℕ))
    | digits => do
      require (isNumeral digits) "E-CANON-WIDTH"
      pure (← decimalValue digits : ℕ)
  | _ => reject "E-CANON-WIDTH"

/-! ### Preimages -/

def expectedStr {α : Type} (loc : String) : Check α :=
  .error (.canon (ErrorType.canonError.mk (loc++": expected str")))

/-- A field with its octets: `canon.ascii_text`. -/
def asciiField (j : Json) : Check (String × Bytes) :=
  match j.str? with
  | some s => do pure (s,← canonical (asciiText s))
  | none => expectedStr "ascii_text"

/-- `canon.utf8_text`. -/
def Library.utf8Field (lib : Library) (j : Json) : Check (String × Bytes) :=
  match j.str? with
  | some s => do pure (s,← canonical (utf8Text (lib.normalize s)))
  | none => expectedStr "nfc"

/-- `canon.boolean`. -/
def booleanField : Json → Check (Bool × Bytes)
  | .bool b => .ok (b,boolean b)
  | _ => .error (.canon (ErrorType.canonError.mk "boolean: expected bool"))

/-- `canon.u32`. -/
def u32Field (j : Json) : Check (ℤ × Bytes) :=
  match j.int? with
  | some n => do pure (n,← canonical (u32 n))
  | none => .error (.canon (ErrorType.canonError.mk "u32: expected int"))

def i64Field (j : Json) : Check (ℤ × Bytes) := do
  let n ← intText j
  pure (n,← canonical (i64 n))

def maskField (j : Json) : Check (Mask × Bytes) := do
  let mask ← maskText j
  pure (mask,← canonical (u64 mask.toNat))

/-- `canon.ordered_seq` over what a loop over the value visits. -/
def seqField {α : Type} (read : Json → Check (α × Bytes)) (j : Json) : Check (List α × Bytes) := do
  let items ← (← j.iter).mapM read
  pure (items.map (·.1),← canonical (orderedSeq .ok (items.map (·.2))))

/-- An instance as the certificate publishes it. -/
structure Published where
  blockers : List Mask
  body : List FactHash
  evidence : List EvidenceRef
  ghost : Bool
  head : FactHash
  instanceId : InstanceId
  licenseIds : List LicenseId
  observed : String
  ruleId : RuleId
  ruleVersion : String
  tick : ℤ
  deriving DecidableEq

def Library.evidenceField (lib : Library) (j : Json) : Check (EvidenceRef × Bytes) := do
  let (binding,b₁) ← lib.utf8Field (← j.item "binding")
  let (eventId,b₂) ← asciiField (← j.item "event_id")
  let (sourceId,b₃) ← asciiField (← j.item "source_id")
  let (tEvtNs,b₄) ← i64Field (← j.item "t_evt_ns")
  pure (⟨binding,eventId,sourceId,tEvtNs⟩,b₁++b₂++b₃++b₄)

/-- `_instance_canonical`, together with the fields it reads. -/
def Library.instanceCanonical (lib : Library) (j : Json) : Check (Published × Bytes) := do
  let (blockers,b₁) ← seqField maskField (← j.item "blockers")
  let (body,b₂) ← seqField asciiField (← j.item "body")
  let (evidence,b₃) ← seqField lib.evidenceField (← j.item "evidence")
  let (ghost,b₄) ← booleanField (← j.item "ghost")
  let (head,b₅) ← asciiField (← j.item "head")
  let (instanceId,b₆) ← asciiField (← j.item "instance_id")
  let (licenseIds,b₇) ← seqField asciiField (← j.item "license_ids")
  let (observed,b₈) ← asciiField (← j.item "observed")
  let (ruleId,b₉) ← asciiField (← j.item "rule_id")
  let (ruleVersion,b₁₀) ← asciiField (← j.item "rule_version")
  let (tick,b₁₁) ← u32Field (← j.item "tick")
  pure (⟨blockers,body,evidence,ghost,head,instanceId,licenseIds,observed,ruleId,ruleVersion,tick⟩,
    b₁++b₂++b₃++b₄++b₅++b₆++b₇++b₈++b₉++b₁₀++b₁₁)

/-- `_instance_preimage`: body, evidence event ids, head, licence ids, rule id. -/
def instancePreimage (i : Published) : Fallible Bytes := Framing.concat [
  orderedSeq asciiText i.body,orderedSeq asciiText (i.evidence.map (·.eventId)),
  asciiText i.head,orderedSeq asciiText i.licenseIds,asciiText i.ruleId]

/-- A licence as the certificate publishes it, without its witness. -/
structure PublishedLicence where
  licenseId : LicenseId
  basis : String
  reason : String
  sourceId : SourceId
  t0Ns : ℤ
  t1Ns : ℤ
  deriving DecidableEq

/-- `_licence_preimage`, together with the fields it reads. -/
def Library.licencePreimage (lib : Library) (j : Json) :
    Check ((String × String × SourceId × ℤ × ℤ) × Bytes) := do
  let (basis,b₁) ← asciiField (← j.item "basis")
  let (reason,b₂) ← lib.utf8Field (← j.item "reason")
  let (sourceId,b₃) ← asciiField (← j.item "source_id")
  let (t0,b₄) ← i64Field (← j.item "t0_ns")
  let (t1,b₅) ← i64Field (← j.item "t1_ns")
  pure ((basis,reason,sourceId,t0,t1),b₁++b₂++b₃++b₄++b₅)

def sourcePrefix : String := "src:"

/-- `_src`: a name that carries the prefix is left alone. -/
def src (j : Json) : Check SourceId :=
  match j.str? with
  | some name => .ok (if hasPrefix sourcePrefix name then name else sourcePrefix++name)
  | none => .error .attributeError

/-- `canon.pairs` over the members of an object. -/
def Library.pairsField (lib : Library) (members : List (String × Json)) : Check Bytes := do
  let encoded ← members.mapM fun (p : String × Json) => do
    let key ← canonical (if (octets p.1).all (· < 128) then asciiText p.1
      else utf8Text (lib.normalize p.1))
    let (_,value) ← lib.utf8Field p.2
    pure (key,value)
  let encoded := encoded.insertionSort (·.1 ≤ ·.1)
  if (encoded.map (·.1)).IsChain (· ≠ ·) then
    pure ((← canonical (u32 encoded.length))++encoded.flatMap fun p => p.1++p.2)
  else .error (.canon ⟨.canonError,"E-CANON-DUPKEY","pairs: duplicate key"⟩)

/-- `_event_preimage`; the bundle spells a source bare. -/
def Library.eventPreimage (lib : Library) (record : Json) : Check Bytes := do
  let attrs ← record.get "attrs"
  match attrs.getD (.obj []) with
  | .obj members =>
    match ← record.item "source_id" with
    | .str source => do
      require (hasPrefix sourcePrefix source = false) "E-WITNESS-EVENT"
      let b₁ ← lib.pairsField members
      let (_,b₂) ← lib.utf8Field (← record.item "event_type")
      let (_,b₃) ← u32Field (← record.item "seq")
      let b₄ ← canonical (asciiText (sourcePrefix++source))
      let (_,b₅) ← i64Field (← record.item "t_evt_ns")
      pure (b₁++b₂++b₃++b₄++b₅)
    | _ => reject "E-WITNESS-EVENT"
  | _ => reject "E-WITNESS-EVENT"

/-! ### Reachability -/

/-- `_blocked`. -/
def blocked (blockers : List Mask) (cutMask : Mask) : Bool :=
  blockers.any fun term => term &&& cutMask = term

def Published.rule (i : Published) : Horn.Rule FactHash := ⟨i.head,i.body⟩

/-- `_reach`: the closure of the axioms under the instances a cut leaves standing. -/
def reach (instances : List Published) (axioms : List FactHash) (cutMask : Mask) : List FactHash :=
  (Horn.propagate (axioms.insertionSort (· ≤ ·))
    (instances.map fun i => (i.rule,!blocked i.blockers cutMask))).order

/-- `_axioms_of`: what occurs in a body and is the head of no published instance. -/
def axiomsOf (instances : List Published) : List FactHash :=
  ((instances.flatMap (·.body)).dedup.filter (· ∉ instances.map (·.head))).insertionSort (· ≤ ·)

/-- The least fixpoint of the instances over the axioms under a cut. -/
def Derives (instances : List Published) (axioms : List FactHash) (cutMask : Mask) :
    FactHash → Prop :=
  Horn.Derivable {a | a ∈ axioms}
    {r | ∃ i ∈ instances, blocked i.blockers cutMask = false ∧ i.rule = r}

/-- `_reach` computes the least fixpoint. -/
theorem mem_reach {instances : List Published} {axioms : List FactHash} {cutMask : Mask}
    {k : FactHash} : k ∈ reach instances axioms cutMask ↔ Derives instances axioms cutMask k := by
  rw [reach,Horn.mem_propagate,Derives]
  have hax : {a | a ∈ axioms.insertionSort (· ≤ ·)} = {a | a ∈ axioms} := by
    ext a; exact List.mem_insertionSort _
  have hrules : Horn.enabledRules (instances.map fun i => (i.rule,!blocked i.blockers cutMask)) =
      {r | ∃ i ∈ instances, blocked i.blockers cutMask = false ∧ i.rule = r} := by
    ext r; simp [Horn.enabledRules,and_comm]
  rw [hax,hrules]

theorem mem_axiomsOf {instances : List Published} {k : FactHash} :
    k ∈ axiomsOf instances ↔ (∃ i ∈ instances, k ∈ i.body) ∧ ∀ i ∈ instances, i.head ≠ k := by
  simp [axiomsOf]

theorem blocked_mono {blockers : List Mask} {s t : Mask}
    (h : ∀ b, s.getLsbD b = true → t.getLsbD b = true) (hb : blocked blockers s = true) :
    blocked blockers t = true := by
  simp only [blocked,List.any_eq_true,decide_eq_true_eq] at hb ⊢
  obtain ⟨term,ht,he⟩ := hb
  exact ⟨term,ht,and_eq_iff.mpr fun b hm => h b (and_eq_iff.mp he b hm)⟩

/-- A larger cut leaves less standing. -/
theorem reach_antitone {instances : List Published} {axioms : List FactHash} {s t : Mask}
    (h : ∀ b, s.getLsbD b = true → t.getLsbD b = true) :
    reach instances axioms t ⊆ reach instances axioms s := by
  intro k hk
  rw [mem_reach] at hk ⊢
  refine Horn.Derivable.mono (fun _ => .seed) ?_ hk
  rintro r ⟨i,hi,hb,rfl⟩
  refine ⟨i,hi,?_,rfl⟩
  by_contra hs
  have := blocked_mono h (by simpa using hs)
  rw [hb] at this
  cases this

end Checker

end Spectra
