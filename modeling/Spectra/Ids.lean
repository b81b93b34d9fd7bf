import Spectra.EventWidths

/-! `spectra_core.ids`: the identifier types and their wire grammar. The grammar is read two ways: by the
check of each type, as the constructors run it, and as the parts an identifier is spelled from. -/
namespace Spectra
namespace Ids

/-! ### The primitives -/

/-- `str.partition`: what stands before the first separator and, where there is one, what follows it. -/
def partition (sep : Char) : List Char → List Char × Option (List Char)
  | [] => ([],none)
  | c::cs => if c = sep then ([],some cs) else (c::(partition sep cs).1,(partition sep cs).2)

theorem partition_append {sep : Char} {a : List Char} (h : sep ∉ a) (b : List Char) :
    partition sep (a++sep::b) = (a,some b) := by
  induction a with
  | nil => simp [partition]
  | cons c a ih =>
    have hc : c ≠ sep := fun heq => h (by simp [heq])
    simp [partition,hc,ih fun hm => h (List.mem_cons_of_mem _ hm)]

theorem partition_some {sep : Char} {cs a b : List Char} :
    partition sep cs = (a,some b) ↔ sep ∉ a ∧ cs = a++sep::b := by
  refine ⟨fun h => ?_,fun h => h.2 ▸ partition_append h.1 b⟩
  induction cs generalizing a with
  | nil => cases h
  | cons c cs ih =>
    simp only [partition] at h
    split at h
    · rename_i hc
      obtain ⟨rfl,hb⟩ := Prod.mk.inj h
      exact ⟨by simp,by rw [hc,Option.some.inj hb]; rfl⟩
    · rename_i hc
      obtain ⟨rfl,hb⟩ := Prod.mk.inj h
      obtain ⟨hn,hcs⟩ := ih (Prod.ext rfl hb)
      refine ⟨fun hm => ?_,by rw [List.cons_append,← hcs]⟩
      rcases List.mem_cons.mp hm with heq | hm
      · exact hc heq.symm
      · exact hn hm

def isHex (c : Char) : Bool := ('0' ≤ c && c ≤ '9') || ('a' ≤ c && c ≤ 'f')

/-- `_H256` and `_H128`: two lowercase hexadecimal digits for each octet. -/
def isHexBody (octets : ℕ) (body : List Char) : Bool := body.all isHex && body.length = 2*octets

/-- `_U16` and `_LEVEL`: zero, or at most so many digits of which the first is not zero. -/
def isNumeral (width : ℕ) : List Char → Bool
  | [] => false
  | c::cs => (c = '0' && cs = []) || ('1' ≤ c && c ≤ '9' && cs.all Char.isDigit && cs.length < width)

/-- `int` of the digits of a numeral. -/
def numeralValue (digits : List Char) : ℕ := Nat.ofDigitChars 10 digits 0

theorem digitChar_of_isDigit {c : Char} (h : c.isDigit = true) :
    c.toNat-48 < 10 ∧ Nat.digitChar (c.toNat-48) = c := by
  simp only [Char.isDigit,Bool.and_eq_true,decide_eq_true_eq,ge_iff_le,UInt32.le_iff_toNat_le] at h
  have hlow : 48 ≤ c.toNat := h.1
  have hhigh : c.toNat ≤ 57 := h.2
  refine ⟨by omega,?_⟩
  obtain ⟨d,hd⟩ : ∃ d, c.toNat = 48+d := ⟨c.toNat-48,by omega⟩
  have hc : c = Char.ofNat (48+d) := by rw [← hd,Char.ofNat_toNat]
  have hlt : d < 10 := by omega
  rw [hd,Nat.add_sub_cancel_left,hc]
  interval_cases d <;> decide

theorem numeralValue_append (ds : List Char) (c : Char) :
    numeralValue (ds++[c]) = 10*numeralValue ds+(c.toNat-48) := by
  rw [numeralValue,Nat.ofDigitChars_append,Nat.ofDigitChars_cons,Nat.ofDigitChars_nil]
  rfl

/-- Digits that do not open with zero spell their value. -/
theorem toDigits_numeralValue {c : Char} (hc : '1' ≤ c ∧ c ≤ '9') {cs : List Char}
    (hcs : cs.all Char.isDigit = true) :
    0 < numeralValue (c::cs) ∧ Nat.toDigits 10 (numeralValue (c::cs)) = c::cs := by
  induction cs using List.reverseRecOn with
  | nil =>
    have hdigit : c.isDigit = true := by
      simp only [Char.isDigit,Bool.and_eq_true,decide_eq_true_eq]
      exact ⟨le_trans (by decide : '0' ≤ '1') hc.1,hc.2⟩
    obtain ⟨hlt,hd⟩ := digitChar_of_isDigit hdigit
    have hpos : 49 ≤ c.toNat := hc.1
    have hval : numeralValue [c] = c.toNat-48 := by
      rw [numeralValue,Nat.ofDigitChars_cons,Nat.ofDigitChars_nil,Nat.mul_zero,Nat.zero_add]
      rfl
    rw [hval,Nat.toDigits_of_lt_base hlt,hd]
    exact ⟨by omega,rfl⟩
  | append_singleton cs d ih =>
    rw [List.all_append,Bool.and_eq_true] at hcs
    obtain ⟨hpos,ih⟩ := ih hcs.1
    obtain ⟨hlt,hd⟩ := digitChar_of_isDigit (by simpa using hcs.2)
    have hval := numeralValue_append (c::cs) d
    rw [List.cons_append] at hval
    rw [hval,← Nat.toDigits_append_toDigits (by decide) hpos hlt,ih,Nat.toDigits_of_lt_base hlt,hd]
    exact ⟨by omega,rfl⟩

/-- A number that is not zero is spelled from a digit that is not zero on. -/
theorem toDigits_opens (n : ℕ) (hn : 0 < n) : ∃ c cs, Nat.toDigits 10 n = c::cs ∧ '1' ≤ c ∧ c ≤ '9' := by
  induction n using Nat.strong_induction_on with
  | h n ih =>
    by_cases h : n < 10
    · refine ⟨n.digitChar,[],Nat.toDigits_of_lt_base h,?_⟩
      interval_cases n <;> decide
    · obtain ⟨c,cs,hd,hc⟩ := ih (n/10) (by omega) (by omega)
      exact ⟨c,cs++[(n%10).digitChar],by rw [Nat.toDigits_of_base_le (by decide) (by omega),hd]; rfl,hc⟩

/-- The numerals of a width are the numbers of so many digits. -/
theorem isNumeral_iff {width : ℕ} (hw : 0 < width) {cs : List Char} :
    isNumeral width cs = true ↔ ∃ n < 10^width, cs = Nat.toDigits 10 n := by
  constructor
  · intro h
    cases cs with
    | nil => cases h
    | cons c cs =>
      simp only [isNumeral,Bool.or_eq_true,Bool.and_eq_true,decide_eq_true_eq] at h
      rcases h with ⟨rfl,rfl⟩ | ⟨⟨hc,hcs⟩,hlen⟩
      · exact ⟨0,by positivity,by simp⟩
      · obtain ⟨-,hd⟩ := toDigits_numeralValue hc hcs
        refine ⟨_,?_,hd.symm⟩
        rw [← Nat.length_toDigits_le_iff (by decide) hw,hd]
        simpa using hlen
  · rintro ⟨n,hn,rfl⟩
    have hlen := (Nat.length_toDigits_le_iff (by decide) hw).mpr hn
    have hdigits : ∀ c ∈ Nat.toDigits 10 n, c.isDigit = true := fun c hc =>
      Nat.isDigit_of_mem_toDigits (by decide) (by decide) hc
    rcases Nat.eq_zero_or_pos n with rfl | hpos
    · simp [isNumeral]
    · obtain ⟨c,cs,hd,hc⟩ := toDigits_opens n hpos
      rw [hd] at hlen hdigits ⊢
      simp only [isNumeral,Bool.or_eq_true,Bool.and_eq_true,decide_eq_true_eq,List.all_eq_true]
      exact Or.inr ⟨⟨hc,fun d h => hdigits d (List.mem_cons_of_mem _ h)⟩,by simpa using hlen⟩

/-! ### The types -/

/-- The digest-bodied types: those of 32 octets, and the five of 16 that stay within a run. -/
inductive HashType where
  | record | bundle | fact | ruleInstance | license | cut | corridor | hypothesis | hypergraph | run | cert
  | event | transition | window | assignment | degradation
  deriving DecidableEq, Repr

/-- `OCTETS`. -/
def HashType.octets : HashType → ℕ
  | .event | .transition | .window | .assignment | .degradation => 16
  | _ => 32

/-- The authored types. -/
inductive SnakeType where
  | source | control | rule | dimension | flag | operator | oracle
  deriving DecidableEq, Repr

/-- The types of a snake and a version. -/
inductive VersionedType where
  | collector | scenario
  deriving DecidableEq, Repr

inductive IdType where
  | hash (t : HashType) | snake (t : SnakeType) | versioned (t : VersionedType) | entity | literal | state
  deriving DecidableEq, Repr

/-- `digest_kind`: the wire prefix of the type without its colon. -/
def IdType.digestKind : IdType → List Char
  | .hash .record => ['r','c']
  | .hash .bundle => ['b','n']
  | .hash .fact => ['f','h']
  | .hash .ruleInstance => ['i','n']
  | .hash .license => ['l','i','c']
  | .hash .cut => ['c','u','t']
  | .hash .corridor => ['c','o','r']
  | .hash .hypothesis => ['h','y']
  | .hash .hypergraph => ['h','g']
  | .hash .run => ['r','u','n']
  | .hash .cert => ['c','e','r','t']
  | .hash .event => ['e','v']
  | .hash .transition => ['t','r']
  | .hash .window => ['b','w']
  | .hash .assignment => ['a','s','g']
  | .hash .degradation => ['d','e','g']
  | .snake .source => ['s','r','c']
  | .snake .control => ['c','t','l']
  | .snake .rule => ['r','l']
  | .snake .dimension => ['d','i','m']
  | .snake .flag => ['f','l','a','g']
  | .snake .operator => ['o','p']
  | .snake .oracle => ['o','r','c']
  | .versioned .collector => ['c','o','l']
  | .versioned .scenario => ['s','c']
  | .entity => ['e','n']
  | .literal => ['l','i','t']
  | .state => ['s','t']

/-- `PREFIX`. -/
def IdType.wire (t : IdType) : List Char := t.digestKind++[':']

/-- `CERTIFIABLE`. -/
def IdType.certifiable : IdType → Bool
  | .hash t => t.octets = 32
  | .entity => false
  | _ => true

/-- `_ID_TYPES`. -/
def idTypes : List IdType := [.hash .assignment,.hash .bundle,.hash .cert,.versioned .collector,
  .snake .control,.hash .corridor,.hash .cut,.hash .degradation,.snake .dimension,.entity,.hash .event,
  .hash .fact,.snake .flag,.hash .hypergraph,.hash .hypothesis,.hash .ruleInstance,.hash .license,.literal,
  .snake .operator,.snake .oracle,.hash .record,.snake .rule,.hash .run,.versioned .scenario,
  .snake .source,.state,.hash .transition,.hash .window]

theorem mem_idTypes (t : IdType) : t ∈ idTypes := by
  rcases t with (_ | _) | (_ | _) | (_ | _) | _ | _ | _ <;> decide

/-- `_assert_prefix_uniqueness`, as the import runs it. -/
theorem digestKind_inj {t u : IdType} (h : t.digestKind = u.digestKind) : t = u := by
  have hall : ∀ t ∈ idTypes, ∀ u ∈ idTypes, t.digestKind = u.digestKind → t = u := by decide
  exact hall t (mem_idTypes t) u (mem_idTypes u) h

theorem digestKind_colon (t : IdType) : ':' ∉ t.digestKind := by
  have hall : ∀ t ∈ idTypes, ':' ∉ t.digestKind := by decide
  exact hall t (mem_idTypes t)

/-! ### What a type accepts -/

def idError (detail : String) : SpectraError := ErrorType.identifierError.mk detail

/-- The class of the type, as its errors name it. -/
def IdType.name : IdType → String
  | .hash .record => "RecordId"
  | .hash .bundle => "BundleId"
  | .hash .fact => "FactHash"
  | .hash .ruleInstance => "InstanceId"
  | .hash .license => "LicenseId"
  | .hash .cut => "CutId"
  | .hash .corridor => "CorridorId"
  | .hash .hypothesis => "HypothesisId"
  | .hash .hypergraph => "HypergraphId"
  | .hash .run => "RunId"
  | .hash .cert => "CertId"
  | .hash .event => "EventId"
  | .hash .transition => "TransitionId"
  | .hash .window => "WindowId"
  | .hash .assignment => "AssignmentId"
  | .hash .degradation => "DegradationId"
  | .snake .source => "SourceId"
  | .snake .control => "ControlId"
  | .snake .rule => "RuleId"
  | .snake .dimension => "DimensionId"
  | .snake .flag => "FlagId"
  | .snake .operator => "OperatorId"
  | .snake .oracle => "OracleId"
  | .versioned .collector => "CollectorId"
  | .versioned .scenario => "ScenarioId"
  | .entity => "EntityId"
  | .literal => "LiteralId"
  | .state => "StateId"

/-- `_SNAKE`. -/
def isSnakeText (value : List Char) : Bool := snakeChars value && value.length ≤ 48

def checkSnake (loc : String) (value : List Char) : Fallible Unit :=
  ensure (isSnakeText value) (idError (loc++": not a section 57.2 snake (lowercase ASCII, <= 48 octets)"))

/-- `_check_u16`. -/
def checkU16 (loc : String) (value : List Char) : Fallible Unit :=
  ensure (isNumeral 5 value ∧ numeralValue value ≤ 65535) (idError (loc++": not a section 57.2 u16"))

/-- `_check` of the type, behind its prefix. -/
def IdType.checkBody (t : IdType) (body : List Char) : Fallible Unit :=
  match t with
  | .hash h => ensure (isHexBody h.octets body)
    (idError (t.name++": body is not "++toString (h.octets*2)++" lowercase hex digits"))
  | .snake _ => checkSnake t.name body
  | .versioned _ => match partition '@' body with
    | (_,none) => .error (idError (t.name++": missing '@' version suffix"))
    | (name,some version) => checks [checkSnake t.name name,checkU16 t.name version]
  | .entity => match partition ':' body with
    | (_,none) => .error (idError "EntityId: missing kind separator")
    | (kind,some digits) => checks [
      ensure (String.ofList kind ∈ entityKinds) (idError "EntityId: kind is not one of the closed twelve"),
      ensure (isHexBody 16 digits) (idError "EntityId: body is not 32 lowercase hex digits")]
  | .literal => match partition '@' body with
    | (_,none) => .error (idError "LiteralId: missing '@' level suffix")
    | (name,some level) => checks [checkSnake t.name name,
      ensure (isNumeral 2 level) (idError "LiteralId: not a section 57.2 level")]
  | .state => match partition ':' body with
    | (_,none) => .error (idError "StateId: missing dimension/state separator")
    | (dimension,some name) => checks [checkSnake "StateId dimension" dimension,checkSnake "StateId state" name]

/-- `_check` of the type. -/
def IdType.check (t : IdType) (value : String) : Fallible Unit :=
  if t.wire.isPrefixOf value.toList then t.checkBody (value.toList.drop t.wire.length)
  else .error (idError (t.name++": missing prefix "++String.ofList t.wire))

/-- An identifier of a type, as its constructor accepted it. -/
structure SpectraId where
  type : IdType
  text : String
  valid : type.check text = .ok ()

/-- `__new__` of the type. -/
def IdType.construct (t : IdType) (value : String) : Fallible SpectraId :=
  validated (t.check value) fun h => ⟨t,value,h⟩

/-- The type is chosen by the prefix, and then reads the whole text. -/
def parseId (value : String) : Fallible SpectraId :=
  match partition ':' value.toList with
  | (_,none) => .error (idError "parse_id: no prefix separator")
  | (kind,some _) => match idTypes.find? (·.digestKind = kind) with
    | none => .error (idError ("parse_id: unknown identifier prefix "++String.ofList kind++":"))
    | some t => t.construct value

/-! ### The parts of an identifier -/

/-- What an identifier of each kind is put together from. -/
inductive Parts where
  | hash (t : HashType) (digits : List Char)
  | snake (t : SnakeType) (name : List Char)
  | versioned (t : VersionedType) (name : List Char) (version : ℕ)
  | entity (kind : String) (digits : List Char)
  | literal (name : List Char) (level : ℕ)
  | state (dimension name : List Char)
  deriving DecidableEq

namespace Parts

def type : Parts → IdType
  | .hash t _ => .hash t
  | .snake t _ => .snake t
  | .versioned t _ _ => .versioned t
  | .entity _ _ => .entity
  | .literal _ _ => .literal
  | .state _ _ => .state

/-- The ranges of section 57.2. -/
def Lawful : Parts → Prop
  | .hash t digits => isHexBody t.octets digits = true
  | .snake _ name => isSnakeText name = true
  | .versioned _ name version => isSnakeText name = true ∧ version ≤ 65535
  | .entity kind digits => kind ∈ entityKinds ∧ isHexBody 16 digits = true
  | .literal name level => isSnakeText name = true ∧ level ≤ 99
  | .state dimension name => isSnakeText dimension = true ∧ isSnakeText name = true

instance : DecidablePred Lawful := fun p => by cases p <;> unfold Lawful <;> infer_instance

/-- What stands behind the prefix. -/
def body : Parts → List Char
  | .hash _ digits => digits
  | .snake _ name => name
  | .versioned _ name version => name++ '@'::Nat.toDigits 10 version
  | .entity kind digits => kind.toList++ ':'::digits
  | .literal name level => name++ '@'::Nat.toDigits 10 level
  | .state dimension name => dimension++ ':'::name

def spell (p : Parts) : List Char := p.type.wire++p.body

end Parts

theorem snakeText_marks {name : List Char} (h : isSnakeText name = true) : '@' ∉ name ∧ ':' ∉ name := by
  have htail : ∀ c ∈ name, isSnakeTail c = true := by
    rw [isSnakeText,Bool.and_eq_true] at h
    cases name with
    | nil => simp
    | cons c cs =>
      simp only [snakeChars,Bool.and_eq_true,List.all_eq_true] at h
      exact List.forall_mem_cons.mpr ⟨by simp [isSnakeTail,h.1.1],h.1.2⟩
  exact ⟨fun hm => absurd (htail _ hm) (by decide),fun hm => absurd (htail _ hm) (by decide)⟩

theorem entityKind_colon {kind : String} (h : kind ∈ entityKinds) : ':' ∉ kind.toList := by
  have hall : ∀ kind ∈ entityKinds, ':' ∉ kind.toList := by decide
  exact hall kind h

theorem toDigits_inj {m n : ℕ} (h : Nat.toDigits 10 m = Nat.toDigits 10 n) : m = n := by
  have := congrArg (Nat.ofDigitChars 10 · 0) h
  simpa using this

theorem u16_iff {value : List Char} : (isNumeral 5 value = true ∧ numeralValue value ≤ 65535) ↔
    ∃ n ≤ 65535, value = Nat.toDigits 10 n := by
  rw [isNumeral_iff (by decide)]
  constructor
  · rintro ⟨⟨n,-,rfl⟩,hn⟩
    rw [numeralValue,Nat.ofDigitChars_ten_toDigits] at hn
    exact ⟨n,hn,rfl⟩
  · rintro ⟨n,hn,rfl⟩
    rw [numeralValue,Nat.ofDigitChars_ten_toDigits]
    exact ⟨⟨n,by omega,rfl⟩,hn⟩

theorem level_iff {value : List Char} : isNumeral 2 value = true ↔ ∃ n ≤ 99, value = Nat.toDigits 10 n := by
  rw [isNumeral_iff (by decide)]
  constructor
  · rintro ⟨n,hn,rfl⟩
    exact ⟨n,by omega,rfl⟩
  · rintro ⟨n,hn,rfl⟩
    exact ⟨n,by omega,rfl⟩

namespace Parts

variable {p q : Parts}

/-- Lawful parts are accepted behind the prefix of their type. -/
theorem checkBody_body (h : p.Lawful) : p.type.checkBody p.body = .ok () := by
  cases p with
  | hash t digits => exact ensure_ok.mpr h
  | snake t name => exact ensure_ok.mpr h
  | versioned t name version =>
    simp only [type,body,IdType.checkBody,partition_append (snakeText_marks h.1).1,checks_cons,checks_nil,
      checkSnake,checkU16,ensure_ok,and_true]
    exact ⟨h.1,u16_iff.mpr ⟨version,h.2,rfl⟩⟩
  | entity kind digits =>
    simp only [type,body,IdType.checkBody,partition_append (entityKind_colon h.1),checks_cons,checks_nil,
      ensure_ok,and_true,String.ofList_toList]
    exact h
  | literal name level =>
    simp only [type,body,IdType.checkBody,partition_append (snakeText_marks h.1).1,checks_cons,checks_nil,
      checkSnake,ensure_ok,and_true]
    exact ⟨h.1,level_iff.mpr ⟨level,h.2,rfl⟩⟩
  | state dimension name =>
    simp only [type,body,IdType.checkBody,partition_append (snakeText_marks h.1).2,checks_cons,checks_nil,
      checkSnake,ensure_ok,and_true]
    exact h

/-- What a type accepts behind its prefix is spelled from parts of that type. -/
theorem exists_of_checkBody {t : IdType} {rest : List Char} (h : t.checkBody rest = .ok ()) :
    ∃ p : Parts, p.Lawful ∧ p.type = t ∧ p.body = rest := by
  cases t with
  | hash t => exact ⟨.hash t rest,ensure_ok.mp h,rfl,rfl⟩
  | snake t => exact ⟨.snake t rest,ensure_ok.mp h,rfl,rfl⟩
  | versioned t =>
    simp only [IdType.checkBody] at h
    split at h
    · cases h
    · rename_i name version hp
      simp only [checks_cons,checks_nil,checkSnake,checkU16,ensure_ok,and_true] at h
      obtain ⟨n,hn,rfl⟩ := u16_iff.mp h.2
      exact ⟨.versioned t name n,⟨h.1,hn⟩,rfl,(partition_some.mp hp).2.symm⟩
  | entity =>
    simp only [IdType.checkBody] at h
    split at h
    · cases h
    · rename_i kind digits hp
      simp only [checks_cons,checks_nil,ensure_ok,and_true] at h
      refine ⟨.entity (String.ofList kind) digits,h,rfl,?_⟩
      rw [body,String.toList_ofList]
      exact (partition_some.mp hp).2.symm
  | literal =>
    simp only [IdType.checkBody] at h
    split at h
    · cases h
    · rename_i name level hp
      simp only [checks_cons,checks_nil,checkSnake,ensure_ok,and_true] at h
      obtain ⟨n,hn,rfl⟩ := level_iff.mp h.2
      exact ⟨.literal name n,⟨h.1,hn⟩,rfl,(partition_some.mp hp).2.symm⟩
  | state =>
    simp only [IdType.checkBody] at h
    split at h
    · cases h
    · rename_i dimension name hp
      simp only [checks_cons,checks_nil,checkSnake,ensure_ok,and_true] at h
      exact ⟨.state dimension name,h,rfl,(partition_some.mp hp).2.symm⟩

/-- The text behind a prefix is read in one way. -/
theorem body_inj (hp : p.Lawful) (hq : q.Lawful) (ht : p.type = q.type) (h : p.body = q.body) : p = q := by
  have hsplit : ∀ {sep : Char} {a b c d : List Char}, sep ∉ a → sep ∉ c → a++sep::b = c++sep::d →
      a = c ∧ b = d := by
    intro sep a b c d ha hc heq
    have := (partition_append ha b).symm.trans (heq ▸ partition_append hc d)
    exact ⟨(Prod.mk.inj this).1,Option.some.inj (Prod.mk.inj this).2⟩
  cases p <;> cases q <;> simp only [type,reduceCtorEq,IdType.hash.injEq,IdType.snake.injEq,
    IdType.versioned.injEq] at ht
  case hash.hash => exact congrArg₂ Parts.hash ht h
  case snake.snake => exact congrArg₂ Parts.snake ht h
  case versioned.versioned =>
    obtain ⟨hname,hversion⟩ := hsplit (snakeText_marks hp.1).1 (snakeText_marks hq.1).1 h
    rw [ht,hname,toDigits_inj hversion]
  case entity.entity =>
    obtain ⟨hkind,hdigits⟩ := hsplit (entityKind_colon hp.1) (entityKind_colon hq.1) h
    rw [String.toList_inj.mp hkind,hdigits]
  case literal.literal =>
    obtain ⟨hname,hlevel⟩ := hsplit (snakeText_marks hp.1).1 (snakeText_marks hq.1).1 h
    rw [hname,toDigits_inj hlevel]
  case state.state =>
    obtain ⟨hdimension,hname⟩ := hsplit (snakeText_marks hp.1).2 (snakeText_marks hq.1).2 h
    rw [hdimension,hname]

end Parts

/-! ### Every identifier is read back -/

theorem IdType.check_iff {t : IdType} {value : String} : t.check value = .ok () ↔
    ∃ p : Parts, p.Lawful ∧ p.type = t ∧ p.spell = value.toList := by
  unfold IdType.check
  constructor
  · intro h
    split at h
    · rename_i hopens
      obtain ⟨rest,hrest⟩ := List.isPrefixOf_iff_prefix.mp hopens
      rw [← hrest,List.drop_left] at h
      obtain ⟨p,hp,ht,hbody⟩ := Parts.exists_of_checkBody h
      exact ⟨p,hp,ht,by rw [Parts.spell,ht,hbody,hrest]⟩
    · cases h
  · rintro ⟨p,hp,rfl,hspell⟩
    rw [← hspell,Parts.spell,if_pos (List.isPrefixOf_iff_prefix.mpr ⟨p.body,rfl⟩),List.drop_left]
    exact Parts.checkBody_body hp

/-- The prefix of a spelling stands before its first colon. -/
theorem Parts.partition_spell (p : Parts) : partition ':' p.spell = (p.type.digestKind,some p.body) := by
  rw [Parts.spell,IdType.wire,List.append_assoc,List.singleton_append]
  exact partition_append (digestKind_colon _) _

theorem Parts.spell_inj {p q : Parts} (hp : p.Lawful) (hq : q.Lawful) (h : p.spell = q.spell) : p = q := by
  have hsplit := p.partition_spell.symm.trans (h ▸ q.partition_spell)
  obtain ⟨hkind,hbody⟩ := Prod.mk.inj hsplit
  exact Parts.body_inj hp hq (digestKind_inj hkind) (Option.some.inj hbody)

theorem SpectraId.exists_parts (id : SpectraId) :
    ∃ p : Parts, p.Lawful ∧ p.type = id.type ∧ p.spell = id.text.toList := IdType.check_iff.mp id.valid

theorem construct_ok {t : IdType} {value : String} {id : SpectraId} :
    t.construct value = .ok id ↔ id.type = t ∧ id.text = value := by
  rw [IdType.construct,validated_ok]
  constructor
  · rintro ⟨_,rfl⟩
    exact ⟨rfl,rfl⟩
  · rintro ⟨rfl,rfl⟩
    exact ⟨id.valid,rfl⟩

theorem find_digestKind (t : IdType) : idTypes.find? (·.digestKind = t.digestKind) = some t := by
  cases hfind : idTypes.find? (·.digestKind = t.digestKind) with
  | none => simpa using List.find?_eq_none.mp hfind t (mem_idTypes t)
  | some u =>
    have hu := List.find?_some hfind
    rw [decide_eq_true_eq] at hu
    rw [digestKind_inj hu]

theorem parseId_ok {value : String} {id : SpectraId} : parseId value = .ok id ↔ id.text = value := by
  unfold parseId
  constructor
  · intro h
    split at h
    · cases h
    · split at h
      · cases h
      · exact (construct_ok.mp h).2
  · rintro rfl
    obtain ⟨p,-,ht,hspell⟩ := id.exists_parts
    rw [← hspell,p.partition_spell,ht]
    simp only [find_digestKind]
    exact construct_ok.mpr ⟨rfl,rfl⟩

/-- The texts that are read are those spelled from lawful parts, from one choice of parts each; the type
read is the only one that accepts the text, and every identifier is read back from its own text. -/
theorem parse_id_exact (value : String) :
    ((∃ id, parseId value = .ok id) ↔ ∃ p : Parts, p.Lawful ∧ p.spell = value.toList) ∧
    (∀ p q : Parts, p.Lawful → q.Lawful → p.spell = value.toList → q.spell = value.toList → p = q) ∧
    (∀ t : IdType, t.check value = .ok () ↔ ∃ id, parseId value = .ok id ∧ id.type = t) ∧
    ∀ id : SpectraId, parseId value = .ok id ↔ id.text = value := by
  refine ⟨?_,?_,?_,fun id => parseId_ok⟩
  · constructor
    · rintro ⟨id,h⟩
      obtain ⟨p,hp,-,hspell⟩ := id.exists_parts
      exact ⟨p,hp,parseId_ok.mp h ▸ hspell⟩
    · rintro ⟨p,hp,hspell⟩
      exact ⟨⟨p.type,value,IdType.check_iff.mpr ⟨p,hp,rfl,hspell⟩⟩,parseId_ok.mpr rfl⟩
  · exact fun p q hp hq h h' => Parts.spell_inj hp hq (h.trans h'.symm)
  · intro t
    constructor
    · exact fun h => ⟨⟨t,value,h⟩,parseId_ok.mpr rfl,rfl⟩
    · rintro ⟨id,h,rfl⟩
      exact parseId_ok.mp h ▸ id.valid

/-! ### The constructors and what they are read back with -/

/-- `_SnakeId.of`. -/
def SnakeType.of (t : SnakeType) (name : String) : Fallible SpectraId := do
  checkSnake (IdType.snake t).name name.toList
  (IdType.snake t).construct (String.ofList ((IdType.snake t).wire++name.toList))

/-- `_SnakeId.snake`. -/
def SpectraId.snake (id : SpectraId) : String := String.ofList (id.text.toList.drop id.type.wire.length)

/-- `CollectorId.of` and `ScenarioId.of`. -/
def VersionedType.of (t : VersionedType) (name : String) (version : ℤ) : Fallible SpectraId := do
  checkSnake (IdType.versioned t).name name.toList
  ensure (0 ≤ version ∧ version ≤ 65535)
    (idError ((IdType.versioned t).name++": version out of u16 range: "++toString version))
  (IdType.versioned t).construct
    (String.ofList ((IdType.versioned t).wire++name.toList++ '@'::Nat.toDigits 10 version.toNat))

/-- `StateId.of`. -/
def stateIdOf (dimension name : String) : Fallible SpectraId := do
  checkSnake "StateId dimension" dimension.toList
  checkSnake "StateId state" name.toList
  IdType.state.construct (String.ofList (IdType.state.wire++dimension.toList++ ':'::name.toList))

def requireId (loc : String) (id : SpectraId) (expected : IdType) : Fallible Unit :=
  ensure (id.type = expected) ⟨.identifierError,"E-ID-TYPE",loc++": expected "++expected.name++", got "++id.type.name⟩

def checkLevel (loc : String) (level : ℤ) : Fallible Unit :=
  ensure (0 ≤ level ∧ level ≤ 99) (idError (loc++": level out of range 0..99: "++toString level))

/-- `LiteralId.of`. -/
def literalOf (control : SpectraId) (level : ℤ) : Fallible SpectraId := do
  requireId "LiteralId.of" control (.snake .control)
  checkLevel "LiteralId.of" level
  IdType.literal.construct
    (String.ofList (IdType.literal.wire++control.snake.toList++ '@'::Nat.toDigits 10 level.toNat))

/-- `LiteralId.control`: what stands before the first mark. -/
def SpectraId.control (id : SpectraId) : Fallible SpectraId :=
  (IdType.snake .control).construct (String.ofList ((IdType.snake .control).wire++
    (partition '@' (id.text.toList.drop IdType.literal.wire.length)).1))

/-- `LiteralId.level`: what stands behind the last mark. -/
def SpectraId.level (id : SpectraId) : ℕ := numeralValue (partition '@' id.text.toList.reverse).1.reverse

/-- `EntityId.mint`. -/
def mintEntity (digestHex : String → Bytes → ℕ → String) (kind : String) (payload : Bytes) :
    Fallible SpectraId := do
  ensure (kind ∈ entityKinds) (idError "EntityId.mint: unknown entity kind")
  IdType.entity.construct (String.ofList (IdType.entity.wire++kind.toList++ ':'::
    (digestHex (String.ofList IdType.entity.digestKind) payload 16).toList))

/-- `EntityId.kind`: what stands between the first two colons. -/
def SpectraId.entityKind (id : SpectraId) : String :=
  String.ofList (partition ':' ((partition ':' id.text.toList).2.getD [])).1

/-- `_HashId.mint`. -/
def HashType.mint (t : HashType) (digestHex : String → Bytes → ℕ → String) (payload : Bytes) :
    Fallible SpectraId :=
  (IdType.hash t).construct (String.ofList ((IdType.hash t).wire++
    (digestHex (String.ofList (IdType.hash t).digestKind) payload t.octets).toList))

/-- `reject_run_local_in_certificate`. -/
def rejectRunLocal (loc : String) (id : SpectraId) : Fallible SpectraId :=
  if id.type.certifiable then .ok id
  else .error ⟨.identifierError,"E-ID-WIDTH",loc++": "++id.type.name++" is run-local and may not appear in a certificate"⟩

variable {id control : SpectraId}

theorem construct_spell {t : IdType} {text : List Char} :
    t.construct (String.ofList text) = .ok id ↔ id.type = t ∧ id.text.toList = text := by
  rw [construct_ok,← String.toList_inj,String.toList_ofList]

theorem snake_ok {t : SnakeType} {name : String} :
    t.of name = .ok id ↔ id.type = .snake t ∧ id.snake = name := by
  have hspell : (IdType.snake t).wire++name.toList = (Parts.snake t name.toList).spell := rfl
  constructor
  · intro h
    obtain ⟨_,-,h⟩ := Runs.bind_ok.mp h
    obtain ⟨ht,htext⟩ := construct_spell.mp h
    exact ⟨ht,by rw [SpectraId.snake,ht,htext,List.drop_left,String.ofList_toList]⟩
  · rintro ⟨ht,rfl⟩
    obtain ⟨p,hp,hpt,htext⟩ := id.exists_parts
    rw [ht] at hpt
    cases p <;> simp only [Parts.type,reduceCtorEq,IdType.snake.injEq] at hpt
    subst hpt
    rename_i u name
    have hname : id.snake = String.ofList name := by
      rw [SpectraId.snake,ht,← htext]
      exact congrArg String.ofList List.drop_left
    rw [hname]
    refine Runs.bind_ok.mpr ⟨(),ensure_ok.mpr (by rw [String.toList_ofList]; exact hp),?_⟩
    exact construct_spell.mpr ⟨ht,by rw [String.toList_ofList,← htext]; rfl⟩

/-- What the accessors of a literal read off its text. -/
theorem literal_parts {name : List Char} {level : ℕ} (hp : (Parts.literal name level).Lawful)
    (htext : (Parts.literal name level).spell = id.text.toList) :
    id.control = (IdType.snake .control).construct (String.ofList ((IdType.snake .control).wire++name)) ∧
      id.level = level := by
  have hdrop : id.text.toList.drop IdType.literal.wire.length = name++ '@'::Nat.toDigits 10 level := by
    rw [← htext]
    exact List.drop_left
  refine ⟨by rw [SpectraId.control,hdrop,partition_append (snakeText_marks hp.1).1],?_⟩
  have hmark : '@' ∉ (Nat.toDigits 10 level).reverse := by
    intro hm
    have := Nat.isDigit_of_mem_toDigits (by decide) (by decide) (List.mem_reverse.mp hm)
    exact absurd this (by decide)
  have hrev : id.text.toList.reverse =
      (Nat.toDigits 10 level).reverse++ '@'::(IdType.literal.wire++name).reverse := by
    rw [← htext,Parts.spell,Parts.body]
    simp [Parts.type]
  rw [SpectraId.level,hrev,partition_append hmark,List.reverse_reverse,numeralValue,
    Nat.ofDigitChars_ten_toDigits]

theorem literal_ok {level : ℤ} : literalOf control level = .ok id ↔
    id.type = .literal ∧ id.control = .ok control ∧ (id.level : ℤ) = level := by
  constructor
  · intro h
    obtain ⟨_,hc,h⟩ := Runs.bind_ok.mp h
    obtain ⟨_,hl,h⟩ := Runs.bind_ok.mp h
    have hc := ensure_ok.mp hc
    have hl := ensure_ok.mp hl
    obtain ⟨ht,htext⟩ := construct_spell.mp h
    obtain ⟨n,rfl⟩ := Int.eq_ofNat_of_zero_le hl.1
    have hof := snake_ok.mpr ⟨hc,rfl⟩
    obtain ⟨_,hsnake,hof⟩ := Runs.bind_ok.mp hof
    have hp : (Parts.literal control.snake.toList n).Lawful := ⟨ensure_ok.mp hsnake,by omega⟩
    obtain ⟨hcontrol,hlevel⟩ := @literal_parts id _ _ hp (by rw [htext,List.append_assoc]; rfl)
    exact ⟨ht,by rw [hcontrol,hof],by rw [hlevel]⟩
  · rintro ⟨ht,hc,rfl⟩
    obtain ⟨p,hp,hpt,htext⟩ := id.exists_parts
    rw [ht] at hpt
    cases p <;> simp only [Parts.type,reduceCtorEq] at hpt
    rename_i name level
    obtain ⟨hcontrol,hlevel⟩ := literal_parts hp htext
    have hct := construct_spell.mp (hcontrol.symm.trans hc)
    have hsnake : control.snake.toList = name := by
      rw [SpectraId.snake,hct.1,hct.2,List.drop_left,String.toList_ofList]
    refine Runs.bind_ok.mpr ⟨(),ensure_ok.mpr hct.1,Runs.bind_ok.mpr ⟨(),ensure_ok.mpr ?_,?_⟩⟩
    · rw [hlevel]
      have := hp.2
      omega
    · refine construct_spell.mpr ⟨ht,?_⟩
      rw [hsnake,hlevel,Int.toNat_natCast,← htext,List.append_assoc]
      rfl

theorem versioned_ok {t : VersionedType} {name : String} {version : ℤ} : t.of name version = .ok id ↔
    id.type = .versioned t ∧ ∃ n : ℕ, version = n ∧ (Parts.versioned t name.toList n).Lawful ∧
      id.text.toList = (Parts.versioned t name.toList n).spell := by
  constructor
  · intro h
    obtain ⟨_,hs,h⟩ := Runs.bind_ok.mp h
    obtain ⟨_,hv,h⟩ := Runs.bind_ok.mp h
    have hv := ensure_ok.mp hv
    obtain ⟨ht,htext⟩ := construct_spell.mp h
    obtain ⟨n,rfl⟩ := Int.eq_ofNat_of_zero_le hv.1
    refine ⟨ht,n,rfl,⟨ensure_ok.mp hs,by omega⟩,?_⟩
    rw [htext,List.append_assoc]
    rfl
  · rintro ⟨ht,n,rfl,hp,htext⟩
    refine Runs.bind_ok.mpr ⟨(),ensure_ok.mpr hp.1,Runs.bind_ok.mpr ⟨(),ensure_ok.mpr ?_,?_⟩⟩
    · have := hp.2
      omega
    · refine construct_spell.mpr ⟨ht,?_⟩
      rw [htext,List.append_assoc]
      rfl

theorem state_ok {dimension name : String} : stateIdOf dimension name = .ok id ↔
    id.type = .state ∧ (Parts.state dimension.toList name.toList).Lawful ∧
      id.text.toList = (Parts.state dimension.toList name.toList).spell := by
  constructor
  · intro h
    obtain ⟨_,hd,h⟩ := Runs.bind_ok.mp h
    obtain ⟨_,hs,h⟩ := Runs.bind_ok.mp h
    obtain ⟨ht,htext⟩ := construct_spell.mp h
    refine ⟨ht,⟨ensure_ok.mp hd,ensure_ok.mp hs⟩,?_⟩
    rw [htext,List.append_assoc]
    rfl
  · rintro ⟨ht,hp,htext⟩
    refine Runs.bind_ok.mpr ⟨(),ensure_ok.mpr hp.1,Runs.bind_ok.mpr ⟨(),ensure_ok.mpr hp.2,?_⟩⟩
    refine construct_spell.mpr ⟨ht,?_⟩
    rw [htext,List.append_assoc]
    rfl

theorem entityKind_spell {kind : String} {digits : List Char} (hk : kind ∈ entityKinds)
    (htext : (Parts.entity kind digits).spell = id.text.toList) : id.entityKind = kind := by
  have hsplit := (Parts.entity kind digits).partition_spell
  rw [htext] at hsplit
  rw [SpectraId.entityKind,hsplit,Option.getD_some,Parts.body,partition_append (entityKind_colon hk),
    String.ofList_toList]

theorem entity_ok {digestHex : String → Bytes → ℕ → String} {kind : String} {payload : Bytes} :
    mintEntity digestHex kind payload = .ok id ↔ id.type = .entity ∧ id.entityKind = kind ∧
      id.text.toList = (Parts.entity kind (digestHex "en" payload 16).toList).spell := by
  constructor
  · intro h
    obtain ⟨_,hk,h⟩ := Runs.bind_ok.mp h
    obtain ⟨ht,htext⟩ := construct_spell.mp h
    rw [List.append_assoc] at htext
    exact ⟨ht,entityKind_spell (ensure_ok.mp hk) htext.symm,htext⟩
  · rintro ⟨ht,hkind,htext⟩
    obtain ⟨p,hp,hpt,hspell⟩ := id.exists_parts
    rw [ht] at hpt
    cases p <;> simp only [Parts.type,reduceCtorEq] at hpt
    have hk : kind ∈ entityKinds := by
      rw [← hkind,entityKind_spell hp.1 hspell]
      exact hp.1
    refine Runs.bind_ok.mpr ⟨(),ensure_ok.mpr hk,construct_spell.mpr ⟨ht,?_⟩⟩
    rw [htext,List.append_assoc]
    rfl

/-- Each constructor returns the identifier of its type whose accessors, or whose parts, are what the
constructor was given, and returns nothing else. -/
theorem constructors_exact (digestHex : String → Bytes → ℕ → String) (id : SpectraId) :
    (∀ t name, SnakeType.of t name = .ok id ↔ id.type = .snake t ∧ id.snake = name) ∧
    (∀ control level, literalOf control level = .ok id ↔
      id.type = .literal ∧ id.control = .ok control ∧ (id.level : ℤ) = level) ∧
    (∀ t name version, VersionedType.of t name version = .ok id ↔ id.type = .versioned t ∧
      ∃ n : ℕ, version = n ∧ (Parts.versioned t name.toList n).Lawful ∧
        id.text.toList = (Parts.versioned t name.toList n).spell) ∧
    (∀ dimension name, stateIdOf dimension name = .ok id ↔ id.type = .state ∧
      (Parts.state dimension.toList name.toList).Lawful ∧
        id.text.toList = (Parts.state dimension.toList name.toList).spell) ∧
    ∀ kind payload, mintEntity digestHex kind payload = .ok id ↔ id.type = .entity ∧ id.entityKind = kind ∧
      id.text.toList = (Parts.entity kind (digestHex "en" payload 16).toList).spell :=
  ⟨fun _ _ => snake_ok,fun _ _ => literal_ok,fun _ _ _ => versioned_ok,fun _ _ => state_ok,
    fun _ _ => entity_ok⟩

/-- `lit:mfa@1` under both readings. -/
example : (parseId "lit:mfa@1").isOk = true ∧ (parseId "lit:mfa@01").isOk = false ∧
    (parseId "mfa@1").isOk = false := by decide

end Ids
end Spectra
