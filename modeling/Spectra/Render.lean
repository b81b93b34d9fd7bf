import Spectra.Records
import Spectra.Standard

/-! Certificates rendered from what they are about, with the side files they pin: the texts
are read back, and the obligations about form, schema, scope and inputs hold of them. -/
namespace Spectra

/-! ### Plain values -/

namespace Json

def printable (s : String) : Bool := (octets s).all fun b => 0x20 ≤ b.toNat && b.toNat < 0x7f

mutual

/-- Printable ASCII texts, `u32` numbers, booleans, and containers down to the depth limit. -/
def plain : ℕ → Json → Bool
  | _, .bool _ => true
  | _, .int n => 0 ≤ n && n ≤ Checker.u32Max
  | _, .str s => printable s
  | depth, .list l => depth ≤ Checker.maxDepth && plainItems (depth+1) l
  | depth, .obj m => depth ≤ Checker.maxDepth && plainMembers (depth+1) m
  | _, _ => false

def plainItems : ℕ → List Json → Bool
  | _, [] => true
  | depth, a::as => a.plain depth && plainItems depth as

def plainMembers : ℕ → List (String × Json) → Bool
  | _, [] => true
  | depth, (k,v)::m => printable k && v.plain depth && plainMembers depth m

end

theorem plainMembers_iff {depth : ℕ} {m : List (String × Json)} : plainMembers depth m = true ↔
    ∀ p ∈ m, printable p.1 = true ∧ p.2.plain depth = true := by
  induction m with
  | nil => simp [plainMembers]
  | cons p m ih => simp [plainMembers,ih,and_assoc]

/-- Every octet is a printable ASCII character. -/
def Readable (l : Bytes) : Prop := ∀ b ∈ l, 0x20 ≤ b.toNat ∧ b.toNat < 0x7f

-- not through `∀ b`, which would enumerate the octets
instance (l : Bytes) : Decidable (Readable l) :=
  decidable_of_iff ((l.all fun b => 0x20 ≤ b.toNat && b.toNat < 0x7f) = true) (by simp [Readable])

theorem Readable.append {l m : Bytes} (hl : Readable l) (hm : Readable m) : Readable (l++m) := by
  intro b hb
  exact (List.mem_append.mp hb).elim (hl b) (hm b)

theorem readable_octets {s : String} (h : printable s = true) : Readable (octets s) := by
  intro b hb
  simpa using List.all_eq_true.mp h b hb

theorem readable_quoted {s : String} (h : printable s = true) : Readable (quoted s) := by
  have hopen : Readable [0x22] := by decide
  have hslash : Readable (octets "\\\"") := by decide
  have hback : Readable (octets "\\\\") := by decide
  refine Readable.append (l := [0x22]) hopen (Readable.append ?_ hopen)
  intro b hb
  obtain ⟨c,hc,hb⟩ := List.mem_flatMap.mp hb
  have hr := readable_octets h c hc
  rw [escape,if_neg (by omega)] at hb
  split at hb
  · exact hslash b hb
  · split at hb
    · exact hback b hb
    · rw [List.mem_singleton.mp hb]; exact hr

theorem readable_commas {l : List Bytes} (h : ∀ p ∈ l, Readable p) : Readable (commas l) := by
  induction l with
  | nil => intro b hb; cases hb
  | cons p l ih =>
    have hp := h p (by simp)
    have hl := ih fun q hq => h q (by simp [hq])
    cases l with
    | nil => exact hp
    | cons q l => exact hp.append (Readable.append (l := [0x2c]) (by decide) hl)

theorem readable_decimal (n : ℤ) : Readable (decimal n) := by
  have hdigits : Readable ((Nat.toDigits 10 n.natAbs).map fun c => UInt8.ofNat c.toNat) := by
    intro b hb
    obtain ⟨c,hc,rfl⟩ := List.mem_map.mp hb
    have hd := Nat.isDigit_of_mem_toDigits (by norm_num) (by norm_num) hc
    simp only [Char.isDigit,Bool.and_eq_true,decide_eq_true_eq,ge_iff_le,UInt32.le_iff_toNat_le] at hd
    have hzero : '0'.val.toNat = 48 := rfl
    have hnine : '9'.val.toNat = 57 := rfl
    have hn : c.toNat = c.val.toNat := rfl
    rw [UInt8.toNat_ofNat',hn]
    omega
  unfold decimal
  split
  · exact Readable.append (l := [0x2d]) (by decide) hdigits
  · exact hdigits

theorem readable_list {l : List Json} (h : Readable (commas (dumpsItems true l))) :
    Readable ((Json.list l).dumps true) :=
  Readable.append (l := [0x5b]) (by decide) (h.append (by decide))

/-- Sorting and framing keep the members readable. -/
theorem readable_obj {m : List (String × Json)}
    (h : ∀ p ∈ dumpsMembers true m, Readable (quoted p.1) ∧ Readable p.2) :
    Readable ((Json.obj m).dumps true) := by
  refine Readable.append (l := [0x7b]) (by decide) (Readable.append ?_ (by decide))
  refine readable_commas fun q hq => ?_
  obtain ⟨p,hp,rfl⟩ := List.mem_map.mp hq
  obtain ⟨hk,hv⟩ := h p ((List.mem_insertionSort _).mp hp)
  exact hk.append (Readable.append (l := [0x3a]) (by decide) hv)

theorem mem_dumpsMembers {sortKeys : Bool} {m : List (String × Json)} {p : String × Bytes}
    (hp : p ∈ dumpsMembers sortKeys m) : ∃ q ∈ m, p = (q.1,q.2.dumps sortKeys) := by
  induction m with
  | nil => simp [dumpsMembers] at hp
  | cons q m ih =>
    rcases List.mem_cons.mp hp with rfl | hp
    · exact ⟨q,by simp,rfl⟩
    · obtain ⟨r,hr,he⟩ := ih hp
      exact ⟨r,by simp [hr],he⟩

theorem readable_members {m : List (String × Json)}
    (h : ∀ p ∈ m, printable p.1 = true ∧ Readable (p.2.dumps true)) :
    Readable ((Json.obj m).dumps true) := by
  refine readable_obj fun p hp => ?_
  obtain ⟨q,hq,rfl⟩ := mem_dumpsMembers hp
  exact ⟨readable_quoted (h q hq).1,(h q hq).2⟩

mutual

theorem readable_dumps {depth : ℕ} : ∀ {j : Json}, j.plain depth = true → Readable (j.dumps true)
  | .bool true, _ => by rw [dumps]; decide +kernel
  | .bool false, _ => by rw [dumps]; decide +kernel
  | .int n, _ => by rw [dumps]; exact readable_decimal n
  | .str s, h => by rw [dumps]; exact readable_quoted (by simpa [plain] using h)
  | .list l, h => by
    simp only [plain,Bool.and_eq_true] at h
    exact readable_list (readable_commas (readable_dumpsItems h.2))
  | .obj m, h => by
    simp only [plain,Bool.and_eq_true] at h
    exact readable_obj (readable_dumpsMembers h.2)
  | .null, h => by simp [plain] at h
  | .scalar s, h => by simp [plain] at h

theorem readable_dumpsItems {depth : ℕ} : ∀ {l : List Json}, plainItems depth l = true →
    ∀ p ∈ dumpsItems true l, Readable p
  | [], _ => by simp [dumpsItems]
  | a::as, h => by
    simp only [plainItems,Bool.and_eq_true] at h
    simp only [dumpsItems,List.mem_cons,forall_eq_or_imp]
    exact ⟨readable_dumps h.1,readable_dumpsItems h.2⟩

theorem readable_dumpsMembers {depth : ℕ} : ∀ {m : List (String × Json)},
    plainMembers depth m = true → ∀ p ∈ dumpsMembers true m, Readable (quoted p.1) ∧ Readable p.2
  | [], _ => by simp [dumpsMembers]
  | (k,v)::m, h => by
    simp only [plainMembers,Bool.and_eq_true] at h
    simp only [dumpsMembers,List.mem_cons,forall_eq_or_imp]
    exact ⟨⟨readable_quoted h.1.1,readable_dumps h.1.2⟩,readable_dumpsMembers h.2⟩

end

end Json

namespace Checker

theorem walkMembers_ok {lib : Library} {path : List String} {depth : ℕ} {m : List (String × Json)} :
    walkMembers lib path depth m = .ok () ↔ ∀ p ∈ m, walk lib (path++[p.1]) depth p.2 = .ok () := by
  induction m with
  | nil => simp [walkMembers]
  | cons p m ih =>
    rw [walkMembers,Runs.bind_ok,List.forall_mem_cons,← ih]
    exact ⟨fun ⟨_,h⟩ => h,fun h => ⟨(),h⟩⟩

mutual

theorem walk_plain {lib : Library} (hn : lib.normalize = id) {path : List String} {depth : ℕ} :
    ∀ {j : Json}, j.plain depth = true → walk lib path depth j = .ok ()
  | .bool _, _ => by simp [walk]
  | .int n, h => by simpa [walk,Json.plain] using h
  | .str s, h => by
    simp only [walk,hn,id,Runs.bind_ok,require_ok,exists_const,true_and,List.any_eq_true,not_exists,
      not_and]
    intro b hb
    have := Json.readable_octets (by simpa [Json.plain] using h) b hb
    simp; omega
  | .list l, h => by
    simp only [Json.plain,Bool.and_eq_true,decide_eq_true_eq] at h
    simp only [walk,Runs.bind_ok,require_ok,exists_const]
    exact ⟨h.1,walkItems_plain hn h.2⟩
  | .obj m, h => by
    simp only [Json.plain,Bool.and_eq_true,decide_eq_true_eq] at h
    simp only [walk,Runs.bind_ok,require_ok,exists_const]
    exact ⟨h.1,walkMembers_plain hn h.2⟩
  | .null, h => by simp [Json.plain] at h
  | .scalar _, h => by simp [Json.plain] at h

theorem walkItems_plain {lib : Library} (hn : lib.normalize = id) {path : List String} {depth index : ℕ} :
    ∀ {l : List Json}, Json.plainItems depth l = true → walkItems lib path depth index l = .ok ()
  | [], _ => by simp [walkItems]
  | a::as, h => by
    simp only [Json.plainItems,Bool.and_eq_true] at h
    simp only [walkItems,Runs.bind_ok]
    exact ⟨(),walk_plain hn h.1,walkItems_plain hn h.2⟩

theorem walkMembers_plain {lib : Library} (hn : lib.normalize = id) {path : List String} {depth : ℕ} :
    ∀ {m : List (String × Json)}, Json.plainMembers depth m = true →
      walkMembers lib path depth m = .ok ()
  | [], _ => by simp [walkMembers]
  | (k,v)::m, h => by
    simp only [Json.plainMembers,Bool.and_eq_true] at h
    simp only [walkMembers,Runs.bind_ok]
    exact ⟨(),walk_plain hn h.1.2,walkMembers_plain hn h.2⟩

end

/-! ### Rendering -/

/-- One row of the bit lock, as TOML. -/
def lockEntry (row : AtomRow) : Bytes :=
  octets "[[bit]]\ncontrol_id = "++Json.quoted (removePrefix "ctl:" row.controlId)++
    octets "\nlevel = "++Json.decimal row.level++octets "\npos = "++Json.decimal row.bit++
    octets "\nstate = \"live\"\n"

def lockValue (rows : List AtomRow) : Json := .obj (if rows = [] then [] else [("bit",
  .list (rows.map fun row => .obj [("control_id",.str (removePrefix "ctl:" row.controlId)),
    ("level",.int row.level),("pos",.int row.bit),("state",.str "live")]))])

/-- One rule with its producing sources, as TOML. -/
def ruleEntry (rule : String × List String) : Bytes :=
  octets "[[rule]]\nid = "++Json.quoted rule.1++octets "\nproducing_sources = "++
    Json.dumps false (.list (rule.2.map .str))++[0x0a]

def rulesValue (rules : List (String × List String)) : Json :=
  .obj (if rules = [] then [] else [("rule",.list (rules.map fun rule => .obj [
    ("id",.str rule.1),("producing_sources",.list (rule.2.map .str))]))])

/-! The members, as `cert` publishes them. -/

def decimalText (n : ℤ) : String := asciiString (Json.decimal n) fun b hb =>
  (Json.readable_decimal n b hb).2.trans (by norm_num)

/-- `canon.mask_hex`. -/
def maskHex (mask : Mask) : String := "0x"++asciiString (Json.hexText 16 mask.toNat) fun b hb => by
  obtain ⟨l,hl⟩ := hexDigits_hexText 16 mask.toNat
  exact (hexDigits_printable hl b hb).2.trans (by norm_num)

theorem maskText_maskHex (mask : Mask) : maskText (.str (maskHex mask)) = .ok mask := by
  obtain ⟨l,hl,hlength,hvalue⟩ := fromDigits_hexText 16 mask.toNat
  have hopen : octets "0x" = [0x30,0x78] := by decide
  have hmask : BitVec.ofNat 64 (fromDigits 16 l) = mask := by
    rw [hvalue,Nat.mod_eq_of_lt (by have := mask.isLt; norm_num at this ⊢; omega)]
    simp
  simp only [maskText,maskHex,octets_append,hopen,octets_asciiString,List.cons_append,
    List.nil_append,hl,hlength,if_true,hmask]

def texts (l : List String) : Json := .list (l.map .str)

def atomsMember (atoms : List AtomRow) : Json := .obj [
  ("assign",.list (atoms.map fun a => .list [.str a.controlId,.int a.level,.int a.bit])),
  ("n",.int atoms.length)]

def cutMember (cut : List (ℕ × AtomRow)) : Json := .list (cut.map fun p => .obj [
  ("bit",.int p.2.bit),("control_id",.str p.2.controlId),("level",.int p.2.level),("rank",.int p.1)])

def goalMember (goal : FactHash × Bool) : Json :=
  .obj [("derivable",.bool goal.2),("goal_key",.str goal.1)]

def evidenceMember (e : EvidenceRef) : Json := .obj [("binding",.str e.binding),
  ("event_id",.str e.eventId),("source_id",.str e.sourceId),("t_evt_ns",.str (decimalText e.tEvtNs))]

def instanceMember (i : Published) : Json := .obj [
  ("blockers",texts (i.blockers.map maskHex)),("body",texts i.body),
  ("evidence",.list (i.evidence.map evidenceMember)),("ghost",.bool i.ghost),("head",.str i.head),
  ("instance_id",.str i.instanceId),("license_ids",texts i.licenseIds),("observed",.str i.observed),
  ("rule_id",.str i.ruleId),("rule_version",.str i.ruleVersion),("tick",.int i.tick)]

/-- A licence without a bracketing witness, which only a SUPPRESSED one carries. -/
def licenceMember (l : PublishedLicence) : Json := .obj [("basis",.str l.basis),
  ("license_id",.str l.licenseId),("reason",.str l.reason),("source_id",.str l.sourceId),
  ("t0_ns",.str (decimalText l.t0Ns)),("t1_ns",.str (decimalText l.t1Ns))]

def silentMember (entry : InstanceId × List LicenseId) : Json :=
  .obj [("instance_id",.str entry.1),("license_ids",texts entry.2)]

def corridorMember (c : PublishedCorridor) : Json := .obj [
  ("atom_ranks",.list (c.ranks.map fun r : ℕ => .int r)),("corridor_id",.str c.corridorId),
  ("mask",.str (maskHex c.mask))]

def psiMember (complete : Bool) (corridors : List PublishedCorridor) : Json := .obj [
  ("complete",.bool complete),("corridors",.list (corridors.map corridorMember)),
  ("program",.str "PMax")]

/-- The identifier that a payload mints. -/
def mintId (kind : String) (payload : Fallible Bytes) (size : ℕ) : String :=
  match payload with
  | .ok content => kind++":"++digestHex kind content size
  | .error _ => ""

/-- A BLIND licence under the id its fields mint. -/
def blindLicence (reason : String) (sourceId : SourceId) (interval : Interval) : PublishedLicence :=
  ⟨mintId "lic" (licencePayload .blind reason sourceId interval) 32,LicenceBasis.text .blind,reason,
    sourceId,interval.t0Ns,interval.t1Ns⟩

/-- An instance under the id its fields mint. -/
def mintInstance (i : Published) : Published :=
  {i with instanceId := mintId "in" (instancePreimage i) 32}

/-- What a certificate and its side files are about; what is left out is empty. `otherRules`
are rule files it can be checked with besides its own. -/
structure Subject where
  atoms : List AtomRow := []
  rules : List (String × List String) := []
  otherRules : List (List (String × List String)) := []
  sources : List Json := []
  budgets : List (String × Json) := [("budget_exhausted",.bool false)]
  cut : List (ℕ × AtomRow) := []
  ghostCount : ℕ := 0
  goals : List (FactHash × Bool) := []
  instances : List Published := []
  invariant : Option (List FactHash) := none
  licenses : List PublishedLicence := []
  observedEventCount : ℕ := 0
  corridors : List PublishedCorridor := []
  silent : List (InstanceId × List LicenseId) := []
  minimality : String := "UNVERIFIED"
  safety : String := "ROBUST"
  witnessClass : Option String := none
  witnesses : List Json := []

def profile : Json := .obj [
  ("calibration_seed_band",.list [.int 1,.int 2]),("degradation_spec_hash",.str "identity"),
  ("excluded_intervals_hash",.str "none"),("generator_config_hash",.str "config"),
  ("reference_bundle_hash",.str "reference"),("scenario_family",.str "family")]

def runManifest : Json := .obj [
  ("excluded_intervals_hash",.str "none"),("generator_config_hash",.str "config"),
  ("identity_spec_hash",.str "identity"),("scenario_family",.str "family")]

theorem readable_profile : Json.Readable (profile.dumps true) :=
  Json.readable_dumps (show Json.plain 1 _ = true by decide)

theorem readable_runManifest : Json.Readable (runManifest.dumps true) :=
  Json.readable_dumps (show Json.plain 1 _ = true by decide)

theorem profile_ne : profile.dumps true ≠ runManifest.dumps true := by decide

def schema : Json := .obj [("hash_algorithm",.str hashAlgorithm),
  ("hash_substitution_note",.str hashSubstitutionNote),("min_checker",.str "1.1"),
  ("profile",.str "eclipse-cert"),("v",.str "1.1")]

/-- The document of a body opens with the magic. -/
theorem dumps_document {m : List (String × Json)} {hash : Json} :
    ∃ rest, (Json.obj [("body",.obj m),("cert_hash",hash)]).dumps true = fileMagic++rest := by
  have hsort : ∀ x y : Bytes, [("body",x),("cert_hash",y)].insertionSort (·.1 ≤ ·.1) =
      [("body",x),("cert_hash",y)] := by
    intro x y
    have : ("body" : String) ≤ "cert_hash" := by decide
    simp [List.insertionSort,this]
  have hmagic : fileMagic = [0x7b]++Json.quoted "body"++[0x3a,0x7b] := by decide
  simp only [Json.dumps,Json.dumpsMembers,if_true,hsort,List.map_cons,List.map_nil,Json.commas]
  rw [hmagic]
  simp only [List.cons_append,List.append_assoc,List.nil_append]
  exact ⟨_,rfl⟩

namespace Subject

variable (subject : Subject)

def liveness : Json := .obj [("sources",.list subject.sources)]

def lockText : Bytes := subject.atoms.flatMap lockEntry

def rulesText : Bytes := subject.rules.flatMap ruleEntry

def tomlTexts : List (Bytes × Json) := (subject.lockText,lockValue subject.atoms)::
  (subject.rules::subject.otherRules).map fun rules => (rules.flatMap ruleEntry,rulesValue rules)

def files : CheckerInputs where
  rules := .octets subject.rulesText
  rulesCae := .octets []
  guards := .octets []
  controlsCae := .octets []
  catalogBits := .octets subject.lockText
  bundle := .octets []
  liveness := .octets (subject.liveness.dumps true)
  profile := .octets (profile.dumps true)
  goalCae := .octets []
  er := .octets []
  runManifest := .octets (runManifest.dumps true)

def hashRef (domain : String) (content : Bytes) : Json := .str ((standard [] []).hashRef domain content)

def instanceList : Json := .list (subject.instances.map instanceMember)

/-- The digest of the published instances. -/
def instancesHash : Json :=
  match seqField (standard [] []).instanceCanonical subject.instanceList with
  | .ok (_,content) => hashRef "instances" content
  | .error _ => .null

def inputs : Json := .obj [
  ("bundle_hash",hashRef "bundle" []),("bundle_provenance",.str "synthetic_generator_no_range"),
  ("catalog_bits_hash",hashRef "catbits" subject.lockText),
  ("controls_hash",hashRef "controls" []),("er_hash",hashRef "er" []),
  ("goal_hash",hashRef "goal" []),("grounding_mode",.str "replayed"),
  ("guard_ast_hash",hashRef "guardast" []),("implementation",.str "python-reference"),
  ("instances_hash",subject.instancesHash),
  ("liveness_hash",hashRef "liveness" (subject.liveness.dumps true)),
  ("profile_hash",hashRef "profile" (profile.dumps true)),("rules_hash",hashRef "rules" []),
  ("rules_text_hash",hashRef "rulestext" subject.rulesText),("seed",.str "0x0000000000000000")]

def scope : Json := .obj [("attacker",.str "non-adaptive"),("bundle",hashRef "bundle" []),
  ("controls",hashRef "controls" []),("er",hashRef "er" []),("goal",hashRef "goal" []),
  ("liveness",hashRef "liveness" (subject.liveness.dumps true)),("rules",hashRef "rules" [])]

def verdict : List (String × Json) := [
  ("derived_suppressed",.list [.str "pareto_frontier",.str "redundancy_index"]),
  ("flags",.list []),("minimality",.str subject.minimality),("realizability",.str "UNCHECKED"),
  ("safety",.str subject.safety),("witness_class",subject.witnessClass.elim .null .str)]

/-- The sections that say what the certificate is about. -/
def sections : List (String × Json) := [
  ("atoms",atomsMember subject.atoms),("budgets",.obj subject.budgets),
  ("cut",cutMember subject.cut),("cut_delta_canonical",.list []),
  ("ghost_count",.int subject.ghostCount),("goals",.list (subject.goals.map goalMember)),
  ("instances",subject.instanceList),
  ("invariant",.obj [("u",texts (subject.invariant.getD []))]),
  ("licenses",.list (subject.licenses.map licenceMember)),
  ("observed_event_count",.int subject.observedEventCount),
  ("premium_suppressed_reason",.str "not_computed"),("psi",psiMember true subject.corridors),
  ("residual",.list []),("silent",.list (subject.silent.map silentMember)),
  ("witnesses",.list subject.witnesses)]

/-- The keys of a body, the invariant among them or not. -/
def bodyKeys (invariant : Option String) : List String :=
  ["atoms","budgets","cut","cut_delta_canonical","ghost_count","goals","inputs","instances"]++
    invariant.toList++["licenses","observed_event_count","premium_suppressed_reason","psi",
      "residual","schema","scope","silent","verdict","witnesses"]

def sectionOf (name : String) : String × Json := (name,(Dict.get? subject.sections name).getD .null)

/-- The members of the body, in the order of their keys. -/
def members : List (String × Json) :=
  ["atoms","budgets","cut","cut_delta_canonical","ghost_count","goals"].map subject.sectionOf++
  ("inputs",subject.inputs)::subject.sectionOf "instances"::
  (if subject.invariant.isSome then [subject.sectionOf "invariant"] else [])++
  ["licenses","observed_event_count","premium_suppressed_reason","psi","residual"].map
    subject.sectionOf++
  ("schema",schema)::("scope",subject.scope)::subject.sectionOf "silent"::
  ("verdict",.obj subject.verdict)::[subject.sectionOf "witnesses"]

def body : Json := .obj subject.members

def certHash : Json := hashRef "cert" (subject.body.dumps true)

def document : Json := .obj [("body",subject.body),("cert_hash",subject.certHash)]

/-- The octets of the certificate. -/
def content : Bytes := subject.document.dumps true++[0x0a]

/-- The JSON texts, with what they spell. -/
def jsonTexts : List (Bytes × Json) := [(profile.dumps true,profile),
  (runManifest.dumps true,runManifest),(subject.liveness.dumps true,subject.liveness),
  (subject.content,subject.document)]

/-- The standard library on the texts of this certificate. -/
def library : Library := standard subject.jsonTexts subject.tomlTexts

theorem get?_inputs : Dict.get? subject.members "inputs" = some subject.inputs := by
  simp [members,sectionOf,Dict.get?]

theorem get?_schema : Dict.get? subject.members "schema" = some schema := by
  unfold members; split <;> simp [sectionOf,Dict.get?]

theorem get?_scope : Dict.get? subject.members "scope" = some subject.scope := by
  unfold members; split <;> simp [sectionOf,Dict.get?]

theorem get?_instances : Dict.get? subject.members "instances" = some subject.instanceList := by
  simp [members,sectionOf,sections,Dict.get?]

variable {subject}

theorem member_body {name : String} {v : Json} (h : Dict.get? subject.members name = some v) :
    subject.body.member name = .ok v := Json.member_ok.mpr (Json.item_ok.mpr ⟨_,rfl,h⟩)

/-- The keys of the body, in order. -/
theorem keys_members : subject.members.map (·.1) = if subject.invariant.isSome
    then bodyKeys (some "invariant") else bodyKeys none := by
  unfold members; split <;> rfl

theorem contains_body (name : String) :
    subject.body.contains name = .ok (decide (name ∈ subject.members.map (·.1))) := by
  rw [body,Json.contains,Dict.isSome_get?]

theorem contains_required : requiredBodyMembers.mapM subject.body.contains =
    .ok (requiredBodyMembers.map fun _ => true) := by
  refine mapM_ok.mpr (List.forall₂_map_right_iff.mpr (List.forall₂_same.mpr fun name hn => ?_))
  have hnone : ∀ name ∈ requiredBodyMembers, name ∈ bodyKeys none := by decide
  have hsome : ∀ name ∈ requiredBodyMembers, name ∈ bodyKeys (some "invariant") := by decide
  rw [contains_body,keys_members]
  split
  · simp [hsome _ hn]
  · simp [hnone _ hn]

theorem o2Schema_body : o2Schema subject.body = .ok () := by
  have hversion : version (.str "1.1") = .ok [1,1] := by decide
  simp only [o2Schema,Runs.bind_ok,require_ok]
  refine ⟨schema,member_body subject.get?_schema,.str "1.1",rfl,(),by simp [Json.eq],
    .str "1.1",rfl,_,hversion,(),by decide,.str "eclipse-cert",rfl,(),by simp [Json.eq],
    .str hashAlgorithm,rfl,(),by simp [Json.eq],.str hashSubstitutionNote,rfl,(),by simp [Json.eq],
    _,rfl,(),?_,_,contains_required,(),by simp,_,contains_body _,_,contains_body _,?_⟩
  · intro key hk
    obtain ⟨p,hp,rfl⟩ := List.mem_map.mp hk
    have hkey : p.1 ∈ subject.members.map (·.1) := List.mem_map_of_mem hp
    have hnone : ∀ name ∈ bodyKeys none, name ∈ bodyMembers := by decide
    have hsome : ∀ name ∈ bodyKeys (some "invariant"), name ∈ bodyMembers := by decide
    simp only [Json.eq,List.any_eq_true,decide_eq_true_eq,exists_eq_right']
    rw [keys_members] at hkey
    split at hkey
    · exact hsome _ hkey
    · exact hnone _ hkey
  · rw [keys_members]
    split <;> decide

theorem o3Scope_body : o3Scope subject.body = .ok () := by
  have hrefs : ∀ domain content, hashRefText (hashRef domain content) =
      some ((standard [] []).hashRef domain content) := fun _ _ => hashRefText_hashRef ..
  have hscope : ∀ p ∈ scopeToInput, ∃ domain content, subject.scope.item p.1 =
      .ok (hashRef domain content) ∧ subject.inputs.member p.2 = .ok (hashRef domain content) := by
    simp only [scopeToInput,List.forall_mem_cons,List.not_mem_nil,IsEmpty.forall_iff,implies_true,
      and_true]
    exact ⟨⟨_,_,rfl,rfl⟩,⟨_,_,rfl,rfl⟩,⟨_,_,rfl,rfl⟩,⟨_,_,rfl,rfl⟩,⟨_,_,rfl,rfl⟩,⟨_,_,rfl,rfl⟩⟩
  simp only [o3Scope,Runs.bind_ok]
  refine ⟨_,member_body subject.get?_scope,_,member_body subject.get?_inputs,_,rfl,(),?_,(),?_,_,rfl,
    (),by simp [Json.eq],?_⟩
  · simp [Json.hash,Json.hashable]
  · simp [scopeMembers,Json.eq]
  · refine forEach_ok.mpr fun p hp => ?_
    obtain ⟨domain,content,hs,hi⟩ := hscope p hp
    refine Runs.bind_ok.mpr ⟨_,hs,Runs.bind_ok.mpr ⟨(),?_,?_⟩⟩
    · simp [hashRef,Json.truthy,hashRef_ne]
    · rw [hrefs]
      exact Runs.bind_ok.mpr ⟨_,hi,by simp [hashRef,Json.eq]⟩

theorem o1CertHash_body {lib : Library} (h : lib.digestHex = digestHex) :
    o1CertHash lib subject.document subject.body = .ok () := by
  simp only [o1CertHash,Runs.bind_ok]
  refine ⟨_,rfl,?_⟩
  simp [certHash,hashRef,Library.hashRef,h,Json.eq,standard]

/-- The sections, and the members that are the same for every subject but for their digests. -/
theorem mem_members {p : String × Json} (hp : p ∈ subject.members) :
    p ∈ subject.sections ∨ p ∈ [("inputs",subject.inputs),("schema",schema),("scope",subject.scope),
      ("verdict",.obj subject.verdict)] := by
  have hsection : ∀ name ∈ subject.sections.map (·.1), subject.sectionOf name ∈ subject.sections := by
    intro name hn
    obtain ⟨v,hv⟩ := Option.isSome_iff_exists.mp
      ((Dict.isSome_get? subject.sections name).trans (decide_eq_true hn))
    rw [sectionOf,hv]
    exact Dict.get?_mem hv
  simp only [members,List.mem_append,List.mem_cons,List.mem_map,List.mem_ite_nil_right,
    List.not_mem_nil,or_false] at hp
  rcases hp with ((⟨name,hn,rfl⟩ | rfl | rfl | ⟨-,rfl⟩) | ⟨name,hn,rfl⟩) | rfl | rfl | rfl | rfl | rfl
  · exact .inl (hsection _ (by simp only [sections,List.map_cons,List.mem_cons]; tauto))
  · exact .inr (by simp)
  · exact .inl (hsection _ (by simp [sections]))
  · exact .inl (hsection _ (by simp [sections]))
  · exact .inl (hsection _ (by simp only [sections,List.map_cons,List.mem_cons]; tauto))
  · exact .inr (by simp)
  · exact .inr (by simp)
  · exact .inl (hsection _ (by simp [sections]))
  · exact .inr (by simp)
  · exact .inl (hsection _ (by simp [sections]))

variable (subject) in
/-- What is written can be read: texts are printable, numbers and depths within their bounds,
and the instances are read back. -/
def renders : Bool :=
  Json.plainMembers 3 subject.sections && subject.liveness.plain 1 &&
    Json.printable subject.minimality && Json.printable subject.safety &&
    subject.witnessClass.all Json.printable &&
    (seqField (standard [] []).instanceCanonical subject.instanceList).toOption.map (·.1) =
      some subject.instances

theorem parseSideJson_standard {json toml : List (Bytes × Json)} {m : List (String × Json)}
    (hr : Json.Readable ((Json.obj m).dumps true))
    (hg : Dict.get? json ((Json.obj m).dumps true) = some (.obj m)) :
    parseSideJson (standard json toml) (.octets ((Json.obj m).dumps true)) = .ok (.obj m) := by
  have hascii : ∀ b ∈ (Json.obj m).dumps true, b.toNat < 128 := fun b hb =>
    (hr b hb).2.trans (by norm_num)
  simp only [parseSideJson,SideFile.read,Runs.bind_ok]
  refine ⟨_,rfl,asciiString _ hascii,?_,?_⟩
  · simp only [decodeOrReject,standard]; rw [dif_pos hascii]
  · simp [standard,hg,objectOf]

theorem parseDocument_standard {toml : List (Bytes × Json)} {json : List (Bytes × Json)}
    (hr : Json.Readable (subject.document.dumps true))
    (hg : Dict.get? json subject.content = some subject.document) :
    parseDocument (standard json toml) subject.content = .ok subject.document := by
  obtain ⟨rest,hrest⟩ : ∃ rest, subject.document.dumps true = fileMagic++rest := dumps_document
  have hascii : ∀ b ∈ subject.content, b.toNat < 128 := by
    intro b hb
    rcases List.mem_append.mp hb with hb | hb
    · exact (hr b hb).2.trans (by norm_num)
    · rw [List.mem_singleton.mp hb]; decide
  have hcount : (subject.document.dumps true).count 0x0a = 0 := List.count_eq_zero.mpr
    fun hb => absurd (hr _ hb).1 (by decide)
  have hcarriage : 0x0d ∉ subject.content := by
    intro hb
    rcases List.mem_append.mp hb with hb | hb
    · exact absurd (hr _ hb).1 (by decide)
    · simp at hb
  have hopen : ∃ tail, fileMagic = 0x7b::0x22::tail := ⟨_,rfl⟩
  obtain ⟨tail,htail⟩ := hopen
  simp only [parseDocument,Runs.bind_ok,require_ok]
  refine ⟨(),?_,(),?_,(),?_,(),hcarriage,asciiString _ hascii,?_,?_⟩
  · have : subject.content.take 2 = [0x7b,0x22] := by simp [content,hrest,htail]
    rw [this]; decide
  · simp [content,hrest]
  · simp [content,List.count_append,hcount]
  · simp only [decodeOrReject,standard]; rw [dif_pos hascii]
  · simp only [standard,octets_asciiString,hg,Option.elim,document,objectOf]

theorem o4bProfile_body : o4bProfile subject.library subject.body subject.files = .ok () := by
  have hprofile : parseSideJson subject.library (.octets (profile.dumps true)) = .ok profile :=
    parseSideJson_standard readable_profile (if_pos rfl)
  have hmanifest : parseSideJson subject.library (.octets (runManifest.dumps true)) =
      .ok runManifest := by
    refine parseSideJson_standard readable_runManifest ?_
    simp only [jsonTexts,Dict.get?]
    exact (if_neg profile_ne).trans (if_pos rfl)
  have hseed : maskText (.str "0x0000000000000000") = .ok 0 := by decide
  simp only [o4bProfile,files,Runs.bind_ok,require_ok]
  refine ⟨_,member_body subject.get?_inputs,_,hprofile,_,hmanifest,_,rfl,_,rfl,(),
    by decide,_,rfl,_,rfl,(),by simp [Json.eq],_,rfl,?_⟩
  simp only [Runs.bind_ok,require_ok]
  exact ⟨_,rfl,_,hseed,_,rfl,(),rfl,_,rfl,_,rfl,(),by simp [Json.eq],_,rfl,_,rfl,(),
    by simp [Json.eq],_,rfl,_,rfl,by simp [Json.eq]⟩

theorem printable_hashRef (json toml : List (Bytes × Json)) (kind : String) (payload : Bytes) :
    Json.printable ((standard json toml).hashRef kind payload) = true := by
  have hopen : Json.Readable (octets hashRefPrefix) := by decide
  have hall : ∀ b ∈ octets ((standard json toml).hashRef kind payload),
      0x20 ≤ b.toNat ∧ b.toNat < 0x7f := by
    intro b hb
    rw [Library.hashRef,octets_append,List.mem_append] at hb
    exact hb.elim (hopen b) (hexOctets_printable _ b)
  simpa [Json.printable] using hall

@[simp] theorem plain_hashRef (depth : ℕ) (kind : String) (payload : Bytes) :
    (hashRef kind payload).plain depth = true := printable_hashRef ..

section Rendered

variable (h : subject.renders = true)
include h

theorem instancesHash_eq : ∃ content,
    seqField (standard [] []).instanceCanonical subject.instanceList =
      .ok (subject.instances,content) ∧ subject.instancesHash = hashRef "instances" content := by
  simp only [renders,Bool.and_eq_true,decide_eq_true_eq] at h
  have hread := h.2
  match hs : seqField (standard [] []).instanceCanonical subject.instanceList with
  | .error e => rw [hs] at hread; cases hread
  | .ok (listed,content) =>
    rw [hs] at hread
    simp only [Except.toOption,Option.map_some,Option.some.injEq] at hread
    subst hread
    exact ⟨content,rfl,by rw [instancesHash,hs]⟩

theorem plain_members : ∀ p ∈ subject.members, p = ("verdict",.obj subject.verdict) ∨
    Json.printable p.1 = true ∧ p.2.plain 3 = true := by
  obtain ⟨content,-,hinstances⟩ := instancesHash_eq h
  simp only [renders,Bool.and_eq_true] at h
  intro p hp
  rcases mem_members hp with hp | hp
  · exact .inr (Json.plainMembers_iff.mp h.1.1.1.1.1 p hp)
  · simp only [List.mem_cons,List.not_mem_nil,or_false] at hp
    rcases hp with rfl | rfl | rfl | rfl
    · refine .inr ⟨show Json.printable "inputs" = true by decide,?_⟩
      simp only [inputs,hinstances,Json.plain,Json.plainMembers,plain_hashRef,Bool.and_true]
      decide
    · exact .inr (by decide +kernel)
    · refine .inr ⟨show Json.printable "scope" = true by decide,?_⟩
      simp only [scope,Json.plain,Json.plainMembers,plain_hashRef,Bool.and_true]
      decide
    · exact .inl rfl

theorem printable_verdict : Json.printable subject.minimality = true ∧
    Json.printable subject.safety = true ∧ ∀ s ∈ subject.witnessClass, Json.printable s = true := by
  simp only [renders,Bool.and_eq_true,Option.all_eq_true] at h
  exact ⟨h.1.1.1.2,h.1.1.2,h.1.2⟩

theorem walk_document {lib : Library} (hn : lib.normalize = id) :
    walk lib [] 1 subject.document = .ok () := by
  have hbody : walkMembers lib ["body"] 3 subject.members = .ok () := by
    refine walkMembers_ok.mpr fun p hp => ?_
    rcases plain_members h p hp with rfl | hp
    · obtain ⟨hm,hs,hw⟩ := printable_verdict h
      simp only [walk,Runs.bind_ok,require_ok,exists_const]
      refine ⟨by decide,walkMembers_ok.mpr ?_⟩
      simp only [verdict,List.forall_mem_cons,List.not_mem_nil,IsEmpty.forall_iff,implies_true,
        and_true]
      refine ⟨walk_plain hn (by decide),walk_plain hn (by decide),walk_plain hn hm,
        walk_plain hn (by decide),walk_plain hn hs,?_⟩
      match hc : subject.witnessClass with
      | none => simp [walk]
      | some s => exact walk_plain hn (hw s hc)
    · exact walk_plain hn hp.2
  simp only [document,body,walk,walkMembers,Runs.bind_ok,require_ok,exists_const]
  refine ⟨by decide,(),⟨by decide,hbody⟩,?_⟩
  exact ⟨(),walk_plain hn (plain_hashRef 2 _ _),trivial⟩

theorem readable_document : Json.Readable (subject.document.dumps true) := by
  obtain ⟨hm,hs,hw⟩ := printable_verdict h
  have hverdict : Json.Readable ((Json.obj subject.verdict).dumps true) := by
    refine Json.readable_members ?_
    simp only [verdict,List.forall_mem_cons,List.not_mem_nil,IsEmpty.forall_iff,implies_true,
      and_true]
    refine ⟨⟨by decide,by decide⟩,⟨by decide,by decide⟩,
      ⟨by decide,Json.readable_quoted hm⟩,⟨by decide,by decide⟩,
      ⟨by decide,Json.readable_quoted hs⟩,by decide,?_⟩
    match hc : subject.witnessClass with
    | none => exact Json.readable_octets (s := "null") (by decide)
    | some s => exact Json.readable_quoted (hw s hc)
  refine Json.readable_members ?_
  simp only [List.forall_mem_cons,List.not_mem_nil,IsEmpty.forall_iff,implies_true,and_true]
  refine ⟨⟨by decide,Json.readable_members fun p hp => ?_⟩,by decide,
    Json.readable_dumps (plain_hashRef 2 _ _)⟩
  rcases plain_members h p hp with rfl | hp
  · exact ⟨show Json.printable "verdict" = true by decide,hverdict⟩
  · exact ⟨hp.1,Json.readable_dumps hp.2⟩

theorem o0Canonicity_document {lib : Library} (hn : lib.normalize = id) :
    o0Canonicity lib subject.content subject.document = .ok () := by
  simp only [o0Canonicity,Runs.bind_ok,forEach_ok]
  refine ⟨(),walk_document h hn,_,rfl,(),by simp [Json.eq],?_⟩
  rw [content,if_pos rfl]; rfl

theorem o4Inputs_body : o4Inputs subject.library subject.body subject.files = .ok subject.instances := by
  obtain ⟨content,hread,hinstances⟩ := instancesHash_eq h
  have hseed : maskText (.str "0x0000000000000000") = .ok 0 := by decide
  have hcoverage : ∀ c ∈ inputCoverage,
      checkCoverage subject.library subject.inputs subject.files c = .ok () := by
    have hone : ∀ c content, (c.file subject.files).read = .ok content →
        subject.inputs.member c.name = .ok (hashRef c.domain content) →
        checkCoverage subject.library subject.inputs subject.files c = .ok () := by
      intro c content hf hm
      simp only [checkCoverage,Runs.bind_ok,require_ok]
      exact ⟨_,hm,_,hf,.inl (by simp [hashRef,Json.eq,library,standard,Library.hashRef])⟩
    simp only [inputCoverage,List.forall_mem_cons,List.not_mem_nil,IsEmpty.forall_iff,implies_true,
      and_true]
    exact ⟨hone _ _ rfl rfl,hone _ _ rfl rfl,hone _ _ rfl rfl,hone _ _ rfl rfl,hone _ _ rfl rfl,
      hone _ _ rfl rfl,hone _ _ rfl rfl,hone _ _ rfl rfl,hone _ _ rfl rfl,hone _ _ rfl rfl⟩
  simp only [o4Inputs,Runs.bind_ok,Runs.pure_ok,require_ok,forEach_ok]
  refine ⟨_,member_body subject.get?_inputs,_,rfl,(),by simp [Json.eq],_,rfl,(),by simp [Json.eq],
    _,rfl,(),by simp [Json.eq],_,rfl,_,hseed,(),hcoverage,_,member_body subject.get?_instances,
    (subject.instances,content),hread,subject.instancesHash,rfl,(),?_,rfl⟩
  simp [hinstances,hashRef,Json.eq,library,standard,Library.hashRef]

theorem get?_content : Dict.get? subject.jsonTexts subject.content = some subject.document := by
  have hne : ∀ l, Json.Readable l → l ≠ subject.content := by
    rintro l hl rfl
    exact absurd (hl 0x0a (by simp [content])).1 (by decide)
  simp only [renders,Bool.and_eq_true] at h
  simp only [jsonTexts,Dict.get?,if_neg (hne _ readable_profile),if_neg (hne _ readable_runManifest),
    if_neg (hne _ (Json.readable_dumps h.1.1.1.1.2)),if_true]

/-- The certificate is read back, and it passes the obligations before O5. -/
theorem obligations_rendered : obligations subject.library subject.content subject.files =
    obligationsFrom subject.library subject.body subject.files subject.instances := by
  have hbody : bodyOf subject.document = .ok subject.body := rfl
  have hparse : parseDocument subject.library subject.content = .ok subject.document :=
    parseDocument_standard (readable_document h) (get?_content h)
  have h0 : o0Canonicity subject.library subject.content subject.document = .ok () :=
    o0Canonicity_document h rfl
  have h1 : o1CertHash subject.library subject.document subject.body = .ok () := o1CertHash_body rfl
  rw [obligations,obligation_bind hparse,obligation_bind hbody,obligation_bind h0,obligation_bind h1,
    obligation_bind o2Schema_body,obligation_bind o3Scope_body,obligation_bind (o4Inputs_body h),
    obligation_bind o4bProfile_body]

end Rendered

/-- A certificate that was accepted, with what was asked of the state. -/
structure Passed (subject : Subject) (p : State → Bool) where
  state : State
  accepts : Accepts subject.library subject.content subject.files state
  holds : p state = true

/-- Acceptance is decided by the obligations that remain. -/
def pass (subject : Subject) (p : State → Bool) (h : subject.renders = true)
    (hp : (obligationsFrom subject.library subject.body subject.files subject.instances).toOption.any p =
      true) : subject.Passed p :=
  let st := returned _ p hp
  ⟨st.1,accepts_iff.mpr ((obligations_rendered h).trans st.2.1),st.2.2⟩

end Subject

end Checker

end Spectra
