import Spectra.Scf

/-! `spectra_vs.cert.certificate_bytes`: the file a body is written as, the checks made before it
is written, and what the checker reads of it. -/
namespace Spectra

open Checker (Library maxDepth)

/-- What a certificate body can be built from; a float is its text and whether it is finite. -/
inductive PyValue where
  | none
  | bool (value : Bool)
  | int (value : ℤ)
  | float (text : String) (finite : Bool)
  | str (value : String)
  | list (items : List PyValue)
  | tuple (items : List PyValue)
  | dict (members : List (String × PyValue))
  | other

namespace PyValue

/-! ### Writing -/

mutual

/-- What `json.dumps` writes; a tuple is written as a list. -/
def toJson : PyValue → Check Json
  | .none => .ok .null
  | .bool b => .ok (.bool b)
  | .int n => if n.natAbs < 10^4300 then .ok (.int n) else .error .valueError
  | .float text finite => if finite then .ok (.scalar text) else .error .valueError
  | .str s => .ok (.str s)
  | .list l => do pure (.list (← toJsonItems l))
  | .tuple l => do pure (.list (← toJsonItems l))
  | .dict m => do pure (.obj (← toJsonMembers m))
  | .other => .error .typeError

def toJsonItems : List PyValue → Check (List Json)
  | [] => .ok []
  | a::as => do
    let a ← a.toJson
    pure (a::(← toJsonItems as))

def toJsonMembers : List (String × PyValue) → Check (List (String × Json))
  | [] => .ok []
  | (k,v)::m => do
    let v ← v.toJson
    pure ((k,v)::(← toJsonMembers m))

end

mutual

/-- `_check_depth`; a tuple is not looked into. -/
def checkDepth (depth : ℕ) (loc : String) : PyValue → Fallible Unit
  | .list l => do
    ensure (depth ≤ maxDepth) ⟨.schemaError,"E-LIMIT-DEPTH",
      loc++": nesting deeper than "++toString maxDepth++" containers"⟩
    checkDepthItems (depth+1) loc 0 l
  | .dict m => do
    ensure (depth ≤ maxDepth) ⟨.schemaError,"E-LIMIT-DEPTH",
      loc++": nesting deeper than "++toString maxDepth++" containers"⟩
    checkDepthMembers (depth+1) loc m
  | _ => .ok ()

def checkDepthItems (depth : ℕ) (loc : String) : ℕ → List PyValue → Fallible Unit
  | _, [] => .ok ()
  | index, a::as => do
    checkDepth depth (loc++"["++toString index++"]") a
    checkDepthItems depth loc (index+1) as

def checkDepthMembers (depth : ℕ) (loc : String) : List (String × PyValue) → Fallible Unit
  | [] => .ok ()
  | (key,v)::m => do
    checkDepth depth (loc++"."++key) v
    checkDepthMembers depth loc m

end

/-- The text law of the certificate, on one text. -/
def checkString (lib : Library) (loc s : String) : Fallible Unit := do
  ensure (lib.normalize s = s) ⟨.schemaError,"E-CANON-NFC",loc++": text is not NFC"⟩
  ensure (¬(octets s).any fun b => b.toNat < 0x20 || b.toNat = 0x7f)
    ⟨.schemaError,"E-CANON-NFC",loc++": control character"⟩

mutual

/-- `_check_text`; a tuple is not looked into. -/
def checkText (lib : Library) (loc : String) : PyValue → Fallible Unit
  | .str s => checkString lib loc s
  | .list l => checkTextItems lib loc 0 l
  | .dict m => checkTextMembers lib loc m
  | _ => .ok ()

def checkTextItems (lib : Library) (loc : String) : ℕ → List PyValue → Fallible Unit
  | _, [] => .ok ()
  | index, a::as => do
    checkText lib (loc++"["++toString index++"]") a
    checkTextItems lib loc (index+1) as

def checkTextMembers (lib : Library) (loc : String) : List (String × PyValue) → Fallible Unit
  | [] => .ok ()
  | (key,v)::m => do
    checkString lib (loc++".<key>") key
    checkText lib (loc++"."++key) v
    checkTextMembers lib loc m

end

end PyValue

namespace Json

def isNull : Json → Bool
  | .null => true
  | _ => false

/-- `del` of the member a path leads to. -/
def delItem : List String → Json → Json
  | [], j => j
  | [key], .obj m => .obj (m.filter (·.1 ≠ key))
  | key::rest, .obj m => .obj (m.map fun p => if p.1 = key then (p.1,delItem rest p.2) else p)
  | _, j => j

end Json

/-- The one member that may hold `null`. -/
def nullMemberPath : List String := ["body","verdict","witness_class"]

/-- `_validate_certificate_document`. -/
def validateCertificateDocument (lib : Library) (document : PyValue) : Check Unit := do
  let stripped ← document.toJson
  let verdict ← (← stripped.item "body").item "verdict"
  if ← verdict.contains "witness_class" then
    let value ← verdict.item "witness_class"
    let stripped := if value.isNull then stripped.delItem nullMemberPath else stripped
    canonical (stripped.validateScf "cert")
    canonical (document.checkDepth 1 "cert")
    canonical (document.checkText lib "cert")
  else .error (.canon (ErrorType.schemaError.mk
    "verdict.witness_class is present on every verdict, and null on non-UNSAFE"))

/-- The document of a body, with the digest of the body's octets beside it. -/
def certificateDocument (lib : Library) (members : List (String × PyValue)) (bodyOctets : Bytes) :
    PyValue :=
  .dict [("body",.dict members),("cert_hash",.str (lib.hashRef "cert" bodyOctets))]

/-- `certificate_bytes`. -/
def certificateBytes (lib : Library) (members : List (String × PyValue)) : Check Bytes := do
  let body ← (PyValue.dict members).toJson
  let document := certificateDocument lib members (body.dumps true)
  validateCertificateDocument lib document
  let content := (← document.toJson).dumps true++[0x0a]
  if Checker.fileMagic.isPrefixOf content then pure content
  else .error (.canon ⟨.schemaError,"E-CANON-FORM","cert: the file does not open with the magic"⟩)

/-! ### Values -/

namespace PyValue

mutual

/-- No dictionary holds a key twice. -/
def distinct : PyValue → Bool
  | .list l => distinctItems l
  | .tuple l => distinctItems l
  | .dict m => decide (m.map (·.1)).Nodup && distinctMembers m
  | _ => true

def distinctItems : List PyValue → Bool
  | [] => true
  | a::as => a.distinct && distinctItems as

def distinctMembers : List (String × PyValue) → Bool
  | [] => true
  | (_,v)::m => v.distinct && distinctMembers m

end

mutual

/-- No tuple occurs. -/
def tupleFree : PyValue → Bool
  | .list l => tupleFreeItems l
  | .tuple _ => false
  | .dict m => tupleFreeMembers m
  | _ => true

def tupleFreeItems : List PyValue → Bool
  | [] => true
  | a::as => a.tupleFree && tupleFreeItems as

def tupleFreeMembers : List (String × PyValue) → Bool
  | [] => true
  | (_,v)::m => v.tupleFree && tupleFreeMembers m

end

/-- A bool is an int. -/
def number? : PyValue → Option ℤ
  | .bool b => some (if b then 1 else 0)
  | .int n => some n
  | _ => Option.none

mutual

/-- `==` with a value that was read; a tuple equals no list. -/
def eqJson : PyValue → Json → Bool
  | .none, .null => true
  | .str s, .str t => s = t
  | .list l, .list m => eqJsonItems l m
  | .dict l, .obj m => l.length = m.length && eqJsonMembers l m
  | v, j => match v.number?, j.number? with
    | some m, some n => m = n
    | _, _ => false

def eqJsonItems : List PyValue → List Json → Bool
  | [], [] => true
  | a::as, b::bs => a.eqJson b && eqJsonItems as bs
  | _, _ => false

def eqJsonMembers : List (String × PyValue) → List (String × Json) → Bool
  | [], _ => true
  | (k,v)::l, m => (match Dict.get? m k with
    | some w => v.eqJson w
    | Option.none => false) && eqJsonMembers l m

end

/-- Induction on a value, through the items of its sequences and the members of its dictionaries. -/
@[elab_as_elim]
theorem nestedInduction {P : PyValue → Prop} (none : P .none) (bool : ∀ b, P (.bool b))
    (int : ∀ n, P (.int n)) (float : ∀ s b, P (.float s b)) (str : ∀ s, P (.str s))
    (list : ∀ l, (∀ a ∈ l, P a) → P (.list l)) (tuple : ∀ l, (∀ a ∈ l, P a) → P (.tuple l))
    (dict : ∀ m, (∀ p ∈ m, P p.2) → P (.dict m)) (other : P .other) (v : PyValue) : P v :=
  PyValue.rec (motive_1 := P) (motive_2 := fun l => ∀ a ∈ l, P a)
    (motive_3 := fun m => ∀ p ∈ m, P p.2) (motive_4 := fun p => P p.2)
    none bool int float str list tuple dict other (by simp)
    (fun _ _ ha hl => List.forall_mem_cons.mpr ⟨ha,hl⟩) (by simp)
    (fun _ _ hp hm => List.forall_mem_cons.mpr ⟨hp,hm⟩) (fun _ _ h => h) v

theorem toJsonItems_ok {l : List PyValue} {r : List Json} :
    toJsonItems l = .ok r ↔ List.Forall₂ (fun a b => a.toJson = .ok b) l r := by
  induction l generalizing r with
  | nil => cases r <;> simp [toJsonItems]
  | cons a l ih =>
    simp only [toJsonItems,Runs.bind_ok,Runs.pure_ok]
    constructor
    · rintro ⟨b,hb,bs,hbs,rfl⟩
      exact .cons hb (ih.mp hbs)
    · rintro (_ | ⟨hb,hbs⟩)
      exact ⟨_,hb,_,ih.mpr hbs,rfl⟩

theorem toJsonMembers_ok {m : List (String × PyValue)} {r : List (String × Json)} :
    toJsonMembers m = .ok r ↔ List.Forall₂ (fun p q => p.1 = q.1 ∧ p.2.toJson = .ok q.2) m r := by
  induction m generalizing r with
  | nil => cases r <;> simp [toJsonMembers]
  | cons p m ih =>
    obtain ⟨k,v⟩ := p
    simp only [toJsonMembers,Runs.bind_ok,Runs.pure_ok]
    constructor
    · rintro ⟨w,hw,ws,hws,rfl⟩
      exact .cons ⟨rfl,hw⟩ (ih.mp hws)
    · rintro (_ | @⟨_,⟨k',w⟩,_,_,⟨rfl,hw⟩,hws⟩)
      exact ⟨w,hw,_,ih.mpr hws,rfl⟩

theorem toJson_list {l : List PyValue} {j : Json} (h : (PyValue.list l).toJson = .ok j) :
    ∃ r, List.Forall₂ (fun a b => a.toJson = .ok b) l r ∧ j = .list r := by
  obtain ⟨r,hr,h⟩ := Runs.bind_ok.mp h
  exact ⟨r,toJsonItems_ok.mp hr,(Runs.pure_ok.mp h).symm⟩

theorem toJson_tuple {l : List PyValue} {j : Json} (h : (PyValue.tuple l).toJson = .ok j) :
    ∃ r, List.Forall₂ (fun a b => a.toJson = .ok b) l r ∧ j = .list r := by
  obtain ⟨r,hr,h⟩ := Runs.bind_ok.mp h
  exact ⟨r,toJsonItems_ok.mp hr,(Runs.pure_ok.mp h).symm⟩

theorem toJson_dict {m : List (String × PyValue)} {j : Json} (h : (PyValue.dict m).toJson = .ok j) :
    ∃ r, List.Forall₂ (fun p q => p.1 = q.1 ∧ p.2.toJson = .ok q.2) m r ∧ j = .obj r := by
  obtain ⟨r,hr,h⟩ := Runs.bind_ok.mp h
  exact ⟨r,toJsonMembers_ok.mp hr,(Runs.pure_ok.mp h).symm⟩

theorem keys_eq {m : List (String × PyValue)} {r : List (String × Json)}
    (h : List.Forall₂ (fun p q => p.1 = q.1 ∧ p.2.toJson = .ok q.2) m r) :
    m.map (·.1) = r.map (·.1) := by
  induction h with
  | nil => rfl
  | cons hpq _ ih => rw [List.map_cons,List.map_cons,hpq.1,ih]

theorem distinctItems_iff {l : List PyValue} :
    distinctItems l = true ↔ ∀ a ∈ l, a.distinct = true := by
  induction l with
  | nil => simp [distinctItems]
  | cons a l ih => simp [distinctItems,ih]

theorem distinctMembers_iff {m : List (String × PyValue)} :
    distinctMembers m = true ↔ ∀ p ∈ m, p.2.distinct = true := by
  induction m with
  | nil => simp [distinctMembers]
  | cons p m ih => simp [distinctMembers,ih]

theorem tupleFreeItems_iff {l : List PyValue} :
    tupleFreeItems l = true ↔ ∀ a ∈ l, a.tupleFree = true := by
  induction l with
  | nil => simp [tupleFreeItems]
  | cons a l ih => simp [tupleFreeItems,ih]

theorem tupleFreeMembers_iff {m : List (String × PyValue)} :
    tupleFreeMembers m = true ↔ ∀ p ∈ m, p.2.tupleFree = true := by
  induction m with
  | nil => simp [tupleFreeMembers]
  | cons p m ih => simp [tupleFreeMembers,ih]

theorem eqJsonItems_iff {l : List PyValue} {m : List Json} :
    eqJsonItems l m = true ↔ List.Forall₂ (fun a b => a.eqJson b = true) l m := by
  induction l generalizing m with
  | nil => cases m <;> simp [eqJsonItems]
  | cons a l ih => cases m <;> simp [eqJsonItems,ih]

theorem eqJsonMembers_iff {l : List (String × PyValue)} {m : List (String × Json)} :
    eqJsonMembers l m = true ↔ ∀ p ∈ l, ∃ w, Dict.get? m p.1 = some w ∧ p.2.eqJson w = true := by
  induction l with
  | nil => simp [eqJsonMembers]
  | cons p l ih =>
    rw [eqJsonMembers,Bool.and_eq_true,ih,List.forall_mem_cons]
    cases hw : Dict.get? m p.1 <;> simp

/-- Corresponding elements satisfy `P` exactly when those on the left satisfy `Q`. -/
theorem forall₂_iff {α β : Type} {R P : α → β → Prop} {Q : α → Prop} {l : List α} {r : List β}
    (h : List.Forall₂ R l r) (hpq : ∀ a ∈ l, ∀ b ∈ r, R a b → (P a b ↔ Q a)) :
    List.Forall₂ P l r ↔ ∀ a ∈ l, Q a := by
  induction h with
  | nil => simp
  | cons hab _ ih =>
    rw [List.forall₂_cons,List.forall_mem_cons,hpq _ (by simp) _ (by simp) hab,
      ih fun a ha b hb => hpq a (by simp [ha]) b (by simp [hb])]

theorem distinct_toJson {v : PyValue} {j : Json} (hd : v.distinct = true) (h : v.toJson = .ok j) :
    j.distinct = true := by
  induction v using nestedInduction generalizing j with
  | none => cases h; rfl
  | bool b => cases h; rfl
  | int n =>
    rw [toJson] at h
    split at h <;> cases h
    rfl
  | float s b =>
    rw [toJson] at h
    split at h <;> cases h
    rfl
  | str s => cases h; rfl
  | list l ih =>
    obtain ⟨r,hr,rfl⟩ := toJson_list h
    rw [Json.distinct_list]
    intro b hb
    obtain ⟨a,ha,hab⟩ := (forall₂_mem hr).2 b hb
    exact ih a ha (distinctItems_iff.mp hd a ha) hab
  | tuple l ih =>
    obtain ⟨r,hr,rfl⟩ := toJson_tuple h
    rw [Json.distinct_list]
    intro b hb
    obtain ⟨a,ha,hab⟩ := (forall₂_mem hr).2 b hb
    exact ih a ha (distinctItems_iff.mp hd a ha) hab
  | dict m ih =>
    obtain ⟨r,hr,rfl⟩ := toJson_dict h
    rw [distinct,Bool.and_eq_true,decide_eq_true_eq,distinctMembers_iff] at hd
    rw [Json.distinct_obj,← keys_eq hr]
    refine ⟨hd.1,fun q hq => ?_⟩
    obtain ⟨p,hp,-,hpq⟩ := (forall₂_mem hr).2 q hq
    exact ih p hp (hd.2 p hp) hpq
  | other => cases h

/-- A value equals what is read back of it exactly when it has no tuple in it. -/
theorem eqJson_readBack {v : PyValue} {j : Json} (hd : v.distinct = true) (h : v.toJson = .ok j)
    (hk : j.keyed = true) : v.eqJson j.readBack = true ↔ v.tupleFree = true := by
  induction v using nestedInduction generalizing j with
  | none => cases h; simp [Json.readBack,eqJson,tupleFree]
  | bool b => cases h; simp [Json.readBack,eqJson,tupleFree,number?,Json.number?]
  | int n =>
    rw [toJson] at h
    split at h <;> cases h
    simp [Json.readBack,eqJson,tupleFree,number?,Json.number?]
  | float s b =>
    rw [toJson] at h
    split at h <;> cases h
    cases hk
  | str s => cases h; simp [Json.readBack,eqJson,tupleFree]
  | list l ih =>
    obtain ⟨r,hr,rfl⟩ := toJson_list h
    rw [Json.keyed,Json.keyedItems_iff] at hk
    rw [Json.readBack_list,eqJson,eqJsonItems_iff,List.forall₂_map_right_iff,tupleFree,
      tupleFreeItems_iff]
    exact forall₂_iff hr fun a ha b hb hab => ih a ha (distinctItems_iff.mp hd a ha) hab (hk b hb)
  | tuple l ih =>
    obtain ⟨r,hr,rfl⟩ := toJson_tuple h
    simp [Json.readBack_list,eqJson,tupleFree,number?]
  | dict m ih =>
    obtain ⟨r,hr,rfl⟩ := toJson_dict h
    rw [Json.keyed,Json.keyedMembers_iff] at hk
    rw [distinct,Bool.and_eq_true,decide_eq_true_eq,distinctMembers_iff] at hd
    have hn : (r.map (·.1)).Nodup := keys_eq hr ▸ hd.1
    rw [Json.readBack_obj,eqJson,Bool.and_eq_true,eqJsonMembers_iff,tupleFree,tupleFreeMembers_iff]
    have hlength : decide (m.length = ((r.map fun p => (p.1,p.2.readBack)).insertionSort
        (·.1 ≤ ·.1)).length) = true := by
      simp [hr.length_eq]
    rw [hlength]
    simp only [true_and]
    refine forall₂_congr fun p hp => ?_
    obtain ⟨q,hq,hpq,hj⟩ := (forall₂_mem hr).1 p hp
    rw [Json.get?_readBack hn,hpq,Dict.get?_of_mem hn hq,← ih p hp (hd.2 p hp) hj (hk q hq).2]
    simp
  | other => cases h

end PyValue

/-! ### The laws of the checker -/

/-- A text in normal form with no control character. -/
def lawfulText (lib : Library) (s : String) : Bool :=
  lib.normalize s = s && !(octets s).any fun b => b.toNat < 0x20 || b.toNat = 0x7f

namespace Json

mutual

/-- The containers stay within the depth limit, and the texts are lawful. -/
def fits (lib : Library) (depth : ℕ) : Json → Bool
  | .str s => lawfulText lib s
  | .list l => depth ≤ maxDepth && fitsItems lib (depth+1) l
  | .obj m => depth ≤ maxDepth && fitsMembers lib (depth+1) m
  | _ => true

def fitsItems (lib : Library) (depth : ℕ) : List Json → Bool
  | [] => true
  | a::as => a.fits lib depth && fitsItems lib depth as

def fitsMembers (lib : Library) (depth : ℕ) : List (String × Json) → Bool
  | [] => true
  | (_,v)::m => v.fits lib depth && fitsMembers lib depth m

end

theorem fitsItems_iff {lib : Library} {depth : ℕ} {l : List Json} :
    fitsItems lib depth l = true ↔ ∀ a ∈ l, a.fits lib depth = true := by
  induction l with
  | nil => simp [fitsItems]
  | cons a l ih => simp [fitsItems,ih]

theorem fitsMembers_iff {lib : Library} {depth : ℕ} {m : List (String × Json)} :
    fitsMembers lib depth m = true ↔ ∀ p ∈ m, p.2.fits lib depth = true := by
  induction m with
  | nil => simp [fitsMembers]
  | cons p m ih => simp [fitsMembers,ih]

theorem fits_list {lib : Library} {depth : ℕ} {l : List Json} :
    (Json.list l).fits lib depth = true ↔ depth ≤ maxDepth ∧ ∀ a ∈ l, a.fits lib (depth+1) = true := by
  rw [fits,Bool.and_eq_true,decide_eq_true_eq,fitsItems_iff]

theorem fits_obj {lib : Library} {depth : ℕ} {m : List (String × Json)} :
    (Json.obj m).fits lib depth = true ↔
      depth ≤ maxDepth ∧ ∀ p ∈ m, p.2.fits lib (depth+1) = true := by
  rw [fits,Bool.and_eq_true,decide_eq_true_eq,fitsMembers_iff]

end Json

namespace Checker

variable {lib : Library}

theorem walkItems_ok {path : List String} {depth index : ℕ} {l : List Json} :
    walkItems lib path depth index l = .ok () ↔
      ∀ i a, l[i]? = some a → walk lib (path++[toString (index+i)]) depth a = .ok () := by
  induction l generalizing index with
  | nil => simp [walkItems]
  | cons a l ih =>
    rw [walkItems,Runs.bind_ok]
    constructor
    · rintro ⟨_,ha,hl⟩ i b hb
      cases i with
      | zero => cases hb; exact ha
      | succ i => exact Nat.add_right_comm index 1 i ▸ ih.mp hl i b hb
    · intro h
      refine ⟨(),h 0 a rfl,ih.mpr fun i b hb => ?_⟩
      exact Nat.add_right_comm index 1 i ▸ h (i+1) b hb

theorem walk_list {path : List String} {depth : ℕ} {l : List Json} :
    walk lib path depth (.list l) = .ok () ↔ depth ≤ maxDepth ∧
      ∀ i a, l[i]? = some a → walk lib (path++[toString (0+i)]) (depth+1) a = .ok () := by
  rw [walk,Runs.bind_ok,← walkItems_ok]
  exact ⟨fun ⟨_,hd,h⟩ => ⟨require_ok.mp hd,h⟩,fun ⟨hd,h⟩ => ⟨(),require_ok.mpr hd,h⟩⟩

theorem walk_obj {path : List String} {depth : ℕ} {m : List (String × Json)} :
    walk lib path depth (.obj m) = .ok () ↔ depth ≤ maxDepth ∧
      ∀ p ∈ m, walk lib (path++[p.1]) (depth+1) p.2 = .ok () := by
  rw [walk,Runs.bind_ok,← walkMembers_ok]
  exact ⟨fun ⟨_,hd,h⟩ => ⟨require_ok.mp hd,h⟩,fun ⟨hd,h⟩ => ⟨(),require_ok.mpr hd,h⟩⟩

theorem walk_str {path : List String} {depth : ℕ} {s : String} :
    walk lib path depth (.str s) = .ok () ↔ lawfulText lib s = true := by
  simp [walk,lawfulText,Runs.bind_ok]

/-- The scan does not depend on the order of the members. -/
theorem walk_readBack {path : List String} {depth : ℕ} {j : Json} :
    walk lib path depth j.readBack = .ok () ↔ walk lib path depth j = .ok () := by
  induction j using Json.nestedInduction generalizing path depth with
  | list l ih =>
    rw [Json.readBack_list,walk_list,walk_list]
    refine and_congr_right fun _ => forall_congr' fun i => ?_
    simp only [List.getElem?_map,Option.map_eq_some_iff,forall_exists_index,and_imp]
    constructor
    · intro h a ha
      exact (ih a (List.mem_of_getElem? ha)).mp (h _ a ha rfl)
    · rintro h _ a ha rfl
      exact (ih a (List.mem_of_getElem? ha)).mpr (h a ha)
  | obj m ih =>
    rw [Json.readBack_obj,walk_obj,walk_obj]
    simp only [List.mem_insertionSort,List.forall_mem_map]
    exact and_congr_right fun _ => forall₂_congr fun p hp => ih p hp
  | _ => rfl

/-- Where no null occurs the scan asks for depth and texts. -/
theorem walk_scf {path : List String} {depth : ℕ} {j : Json} (h : j.scf = true) :
    walk lib path depth j = .ok () ↔ j.fits lib depth = true := by
  induction j using Json.nestedInduction generalizing path depth with
  | null => cases h
  | bool b => simp [walk,Json.fits]
  | int n => simpa [walk,Json.fits,Json.scf] using h
  | scalar s => cases h
  | str s => rw [walk_str,Json.fits]
  | list l ih =>
    rw [Json.scf,Json.scfItems_iff] at h
    rw [walk_list,Json.fits_list]
    refine and_congr_right fun _ => ⟨fun hw a ha => ?_,fun hf i a ha => ?_⟩
    · obtain ⟨i,hi,rfl⟩ := List.mem_iff_getElem.mp ha
      exact (ih _ ha (h _ ha)).mp (hw i _ (List.getElem?_eq_getElem hi))
    · have ha := List.mem_of_getElem? ha
      exact (ih a ha (h a ha)).mpr (hf a ha)
  | obj m ih =>
    rw [Json.scf,Json.scfMembers_iff] at h
    rw [walk_obj,Json.fits_obj]
    exact and_congr_right fun _ => forall₂_congr fun p hp => ih p hp (h p hp).2

end Checker

namespace Json

/-- The member a path leads to. -/
def lookup : List String → Json → Option Json
  | [], j => some j
  | key::rest, .obj m => (Dict.get? m key).bind (lookup rest)
  | _, _ => none

theorem lookup_item {j v : Json} {key : String} {rest : List String} (h : j.item key = .ok v) :
    j.lookup (key::rest) = v.lookup rest := by
  obtain ⟨m,rfl,hm⟩ := item_ok.mp h
  rw [lookup,hm]
  rfl

/-- The members of an object that is lawful but for the null a path leads to. -/
theorem delItem_members {key : String} {rest : List String} {m : List (String × Json)}
    (hn : (m.map (·.1)).Nodup) (hnull : (Json.obj m).lookup (key::rest) = some .null)
    (hs : ((Json.obj m).delItem (key::rest)).scf = true) : ∀ p ∈ m,
      Checker.isKey p.1 = true ∧ p.2.scf = true ∨ p.1 = key ∧ (rest = [] ∧ p.2 = .null ∨
        rest ≠ [] ∧ Checker.isKey p.1 = true ∧ p.2.lookup rest = some .null ∧
          (p.2.delItem rest).scf = true) := by
  intro p hp
  obtain ⟨v,hv,hnull⟩ := Option.bind_eq_some_iff.mp hnull
  have hvalue : p.1 = key → p.2 = v := by
    intro hk
    rw [← hk,Dict.get?_of_mem hn hp] at hv
    exact Option.some.inj hv
  cases rest with
  | nil =>
    obtain rfl := Option.some.inj hnull
    rw [delItem,scf,scfMembers_iff] at hs
    by_cases hk : p.1 = key
    · exact .inr ⟨hk,.inl ⟨rfl,hvalue hk⟩⟩
    · exact .inl (hs p (List.mem_filter.mpr ⟨hp,by simpa using hk⟩))
  | cons next rest =>
    have hdel : (Json.obj m).delItem (key::next::rest) = .obj (m.map fun p =>
      if p.1 = key then (p.1,p.2.delItem (next::rest)) else p) := rfl
    rw [hdel,scf,scfMembers_iff] at hs
    have hs := hs _ (List.mem_map_of_mem hp)
    by_cases hk : p.1 = key
    · rw [if_pos hk] at hs
      exact .inr ⟨hk,.inr ⟨by simp,hs.1,by rw [hvalue hk]; exact hnull,hs.2⟩⟩
    · rw [if_neg hk] at hs
      exact .inl hs

theorem keyed_of_delItem {path : List String} {j : Json} (hpath : ∀ key ∈ path, Checker.isKey key = true)
    (hd : j.distinct = true) (hnull : j.lookup path = some .null)
    (hs : (j.delItem path).scf = true) : j.keyed = true := by
  induction path generalizing j with
  | nil => obtain rfl := Option.some.inj hnull; rfl
  | cons key rest ih =>
    cases j with
    | obj m =>
      obtain ⟨hn,hm⟩ := distinct_obj.mp hd
      rw [keyed,keyedMembers_iff]
      intro p hp
      rcases delItem_members hn hnull hs p hp with ⟨hk,hv⟩ | ⟨rfl,⟨-,hv⟩ | ⟨-,hk,hv,hrest⟩⟩
      · exact ⟨hk,keyed_of_scf hv⟩
      · exact ⟨hpath _ (by simp),by rw [hv]; rfl⟩
      · exact ⟨hk,ih (fun key hkey => hpath key (by simp [hkey])) (hm p hp) hv hrest⟩
    | _ => cases hnull

end Json

namespace Checker

/-- The null at the one path that may hold it leaves the scan to ask for depth and texts. -/
theorem walk_delItem {rest path : List String} {depth : ℕ} {j : Json}
    (hp : path++rest = nullMemberPath) (hd : j.distinct = true)
    (hnull : j.lookup rest = some .null) (hs : (j.delItem rest).scf = true) :
    walk lib path depth j = .ok () ↔ j.fits lib depth = true := by
  induction rest generalizing path depth j with
  | nil =>
    obtain rfl := Option.some.inj hnull
    rw [List.append_nil] at hp
    subst hp
    simp [walk,Json.fits,nullMemberPath]
  | cons key rest ih =>
    cases j with
    | obj m =>
      obtain ⟨hn,hm⟩ := Json.distinct_obj.mp hd
      rw [walk_obj,Json.fits_obj]
      refine and_congr_right fun _ => forall₂_congr fun p hpm => ?_
      rcases Json.delItem_members hn hnull hs p hpm with ⟨-,hv⟩ | ⟨rfl,⟨rfl,hv⟩ | ⟨-,-,hv,hrest⟩⟩
      · exact walk_scf hv
      · rw [hv,walk,hp]
        simp [Json.fits,nullMemberPath]
      · exact ih (by simpa using hp) (hm p hpm) hv hrest
    | _ => cases hnull

end Checker

/-! ### What the emitter's checks leave -/

namespace PyValue

variable {lib : Library}

theorem checkDepthItems_ok {depth index : ℕ} {loc : String} {l : List PyValue}
    (h : checkDepthItems depth loc index l = .ok ()) :
    ∀ a ∈ l, ∃ loc, checkDepth depth loc a = .ok () := by
  induction l generalizing index with
  | nil => simp
  | cons a l ih =>
    obtain ⟨_,ha,hl⟩ := Runs.bind_ok.mp h
    exact List.forall_mem_cons.mpr ⟨⟨_,ha⟩,ih hl⟩

theorem checkDepthMembers_ok {depth : ℕ} {loc : String} {m : List (String × PyValue)}
    (h : checkDepthMembers depth loc m = .ok ()) :
    ∀ p ∈ m, ∃ loc, checkDepth depth loc p.2 = .ok () := by
  induction m with
  | nil => simp
  | cons p m ih =>
    obtain ⟨_,hp,hm⟩ := Runs.bind_ok.mp h
    exact List.forall_mem_cons.mpr ⟨⟨_,hp⟩,ih hm⟩

theorem checkString_ok {loc s : String} (h : checkString lib loc s = .ok ()) :
    lawfulText lib s = true := by
  obtain ⟨_,hn,hc⟩ := Runs.bind_ok.mp h
  simpa [lawfulText] using And.intro (ensure_ok.mp hn) (ensure_ok.mp hc)

theorem checkTextItems_ok {index : ℕ} {loc : String} {l : List PyValue}
    (h : checkTextItems lib loc index l = .ok ()) : ∀ a ∈ l, ∃ loc, checkText lib loc a = .ok () := by
  induction l generalizing index with
  | nil => simp
  | cons a l ih =>
    obtain ⟨_,ha,hl⟩ := Runs.bind_ok.mp h
    exact List.forall_mem_cons.mpr ⟨⟨_,ha⟩,ih hl⟩

theorem checkTextMembers_ok {loc : String} {m : List (String × PyValue)}
    (h : checkTextMembers lib loc m = .ok ()) : ∀ p ∈ m, ∃ loc, checkText lib loc p.2 = .ok () := by
  induction m with
  | nil => simp
  | cons p m ih =>
    obtain ⟨_,-,h⟩ := Runs.bind_ok.mp h
    obtain ⟨_,hp,hm⟩ := Runs.bind_ok.mp h
    exact List.forall_mem_cons.mpr ⟨⟨_,hp⟩,ih hm⟩

/-- Where there is no tuple to skip, the checks look at every container and text. -/
theorem fits_of_checks {v : PyValue} {j : Json} {depth : ℕ} {loc loc' : String}
    (h : v.toJson = .ok j) (ht : v.tupleFree = true) (hd : v.checkDepth depth loc = .ok ())
    (hx : v.checkText lib loc' = .ok ()) : j.fits lib depth = true := by
  induction v using nestedInduction generalizing j depth loc loc' with
  | none => cases h; rfl
  | bool b => cases h; rfl
  | int n =>
    rw [toJson] at h
    split at h <;> cases h
    rfl
  | float s b =>
    rw [toJson] at h
    split at h <;> cases h
    rfl
  | str s => cases h; exact checkString_ok hx
  | list l ih =>
    obtain ⟨r,hr,rfl⟩ := toJson_list h
    obtain ⟨_,hlimit,hd⟩ := Runs.bind_ok.mp hd
    refine Json.fits_list.mpr ⟨ensure_ok.mp hlimit,fun b hb => ?_⟩
    obtain ⟨a,ha,hab⟩ := (forall₂_mem hr).2 b hb
    obtain ⟨_,hda⟩ := checkDepthItems_ok hd a ha
    obtain ⟨_,hxa⟩ := checkTextItems_ok hx a ha
    exact ih a ha hab (tupleFreeItems_iff.mp ht a ha) hda hxa
  | tuple l ih => cases ht
  | dict m ih =>
    obtain ⟨r,hr,rfl⟩ := toJson_dict h
    obtain ⟨_,hlimit,hd⟩ := Runs.bind_ok.mp hd
    refine Json.fits_obj.mpr ⟨ensure_ok.mp hlimit,fun q hq => ?_⟩
    obtain ⟨p,hp,-,hpq⟩ := (forall₂_mem hr).2 q hq
    obtain ⟨_,hdp⟩ := checkDepthMembers_ok hd p hp
    obtain ⟨_,hxp⟩ := checkTextMembers_ok hx p hp
    exact ih p hp hpq (tupleFreeMembers_iff.mp ht p hp) hdp hxp
  | other => cases h

end PyValue

/-! ### The file -/

/-- The document of a body as it is written. -/
def documentOf (lib : Library) (body : Json) : Json :=
  .obj [("body",body),("cert_hash",.str (lib.hashRef "cert" (body.dumps true)))]

theorem documentOf_readBack (lib : Library) (body : Json) : (documentOf lib body).readBack =
    .obj [("body",body.readBack),("cert_hash",.str (lib.hashRef "cert" (body.dumps true)))] := by
  have hle : "body" ≤ "cert_hash" := by decide
  rw [documentOf,Json.readBack_obj]
  simp [Json.readBack,hle]

/-- What a body passed for its file to be written. -/
structure Written (lib : Library) (members : List (String × PyValue)) (content : Bytes)
    (body : Json) : Prop where
  json : (PyValue.dict members).toJson = .ok body
  octets : content = (documentOf lib body).dumps true++[0x0a]
  magic : Checker.fileMagic.isPrefixOf content = true
  keyed : (documentOf lib body).keyed = true
  distinct : (documentOf lib body).distinct = true
  walk : Checker.walk lib [] 1 (documentOf lib body) = .ok () ↔ (documentOf lib body).fits lib 1 = true
  depth : (certificateDocument lib members (body.dumps true)).checkDepth 1 "cert" = .ok ()
  text : (certificateDocument lib members (body.dumps true)).checkText lib "cert" = .ok ()

theorem certificateBytes_ok {lib : Library} {members : List (String × PyValue)} {content : Bytes}
    (hd : (PyValue.dict members).distinct = true) (h : certificateBytes lib members = .ok content) :
    ∃ body, Written lib members content body := by
  obtain ⟨body,hbody,h⟩ := Runs.bind_ok.mp h
  obtain ⟨_,hvalid,h⟩ := Runs.bind_ok.mp h
  have hdocument : (certificateDocument lib members (body.dumps true)).toJson =
      .ok (documentOf lib body) := by
    refine Runs.bind_ok.mpr ⟨_,PyValue.toJsonMembers_ok.mpr ?_,rfl⟩
    exact .cons ⟨rfl,hbody⟩ (.cons ⟨rfl,rfl⟩ .nil)
  have hdistinct : (documentOf lib body).distinct = true := by
    have hb := PyValue.distinct_toJson hd hbody
    rw [documentOf,Json.distinct_obj]
    simp [hb,Json.distinct]
  obtain ⟨_,hj,h⟩ := Runs.bind_ok.mp h
  obtain rfl := Except.ok.inj (hdocument.symm.trans hj)
  obtain ⟨hmagic,rfl⟩ : Checker.fileMagic.isPrefixOf ((documentOf lib body).dumps true++[0x0a]) = true ∧
      (documentOf lib body).dumps true++[0x0a] = content := by
    dsimp only at h
    split at h
    · rename_i hm; exact ⟨hm,Runs.pure_ok.mp h⟩
    · cases h
  obtain ⟨_,hs,hvalid⟩ := Runs.bind_ok.mp hvalid
  obtain rfl := Except.ok.inj (hdocument.symm.trans hs)
  obtain ⟨_,hbodyItem,hvalid⟩ := Runs.bind_ok.mp hvalid
  obtain ⟨verdict,hverdict,hvalid⟩ := Runs.bind_ok.mp hvalid
  obtain ⟨found,hfound,hvalid⟩ := Runs.bind_ok.mp hvalid
  cases found with
  | false => cases hvalid
  | true =>
    obtain ⟨value,hvalue,hvalid⟩ := Runs.bind_ok.mp hvalid
    obtain ⟨_,hscf,hvalid⟩ := Runs.bind_ok.mp hvalid
    obtain ⟨_,hdepth,htext⟩ := Runs.bind_ok.mp hvalid
    have hscf := Json.validateScf_ok.mp (canonical_ok.mp hscf)
    have hlookup : (documentOf lib body).lookup nullMemberPath = some value := by
      rw [nullMemberPath,Json.lookup_item hbodyItem,Json.lookup_item hverdict,Json.lookup_item hvalue]
      rfl
    have hlaws : (documentOf lib body).keyed = true ∧
        (Checker.walk lib [] 1 (documentOf lib body) = .ok () ↔
          (documentOf lib body).fits lib 1 = true) := by
      by_cases hnull : value.isNull = true
      · have hn : value = .null := by
          cases value <;> simp_all [Json.isNull]
        rw [if_pos hnull] at hscf
        rw [hn] at hlookup
        exact ⟨Json.keyed_of_delItem (by decide) hdistinct hlookup hscf,
          Checker.walk_delItem rfl hdistinct hlookup hscf⟩
      · rw [if_neg hnull] at hscf
        exact ⟨Json.keyed_of_scf hscf,Checker.walk_scf hscf⟩
    exact ⟨body,hbody,rfl,hmagic,hlaws.1,hdistinct,hlaws.2,canonical_ok.mp hdepth,canonical_ok.mp htext⟩

/-- The file is read, and O0 and O1 hold of the body in it. -/
structure Checks (lib : Library) (content : Bytes) (document parsed : Json) : Prop where
  parse : Checker.parseDocument lib content = .ok document
  body : Checker.bodyOf document = .ok parsed
  o0 : Checker.o0Canonicity lib content document = .ok ()
  o1 : Checker.o1CertHash lib document parsed = .ok ()

/-- The file is read, O0 and O1 hold, and the body read equals the one that was written. -/
def ReadsBack (lib : Library) (members : List (String × PyValue)) (content : Bytes) : Prop :=
  ∃ document parsed, Checks lib content document parsed ∧
    (PyValue.dict members).eqJson parsed = true

section

variable {lib : Library} {members : List (String × PyValue)} {content : Bytes} {body : Json}

theorem octets_line (j : Json) :
    octets (String.ofList (j.text++['\n'])) = j.dumps true++[0x0a] := by
  have hlf : String.utf8EncodeChar '\n' = [0x0a] := by decide
  rw [octets_ofList,List.flatMap_append,← octets_ofList,Json.octets_text]
  simp [hlf]

theorem parseDocument_written (h : Written lib members content body) (hdecode : lib.DecodesText)
    (hreads : lib.Reads Checker.certificateHooks (documentOf lib body)) :
    Checker.parseDocument lib content = .ok (documentOf lib body).readBack := by
  have hprinted := Json.dumps_printed h.keyed
  have hmagic := h.magic
  have htake : content.take 2 ∉ Checker.compressionMagics := by
    obtain ⟨rest,rfl⟩ := List.isPrefixOf_iff_prefix.mp hmagic
    have hopen : (Checker.fileMagic++rest).take 2 = [0x7b,0x22] := by
      have hm : Checker.fileMagic = [0x7b,0x22]++octets "body\":\x7b" := by decide
      rw [hm]; rfl
    rw [hopen]
    decide
  have hcount : ∀ b : UInt8, b.toNat < 0x20 → ((documentOf lib body).dumps true).count b = 0 := by
    intro b hb
    refine List.count_eq_zero.mpr fun hmem => ?_
    have := hprinted b hmem
    omega
  have hlast : content.getLast? = some 0x0a ∧ content.count 0x0a = 1 := by
    rw [h.octets]
    refine ⟨by simp,?_⟩
    rw [List.count_append,hcount 0x0a (by decide)]
    rfl
  have hreturn : (0x0d : UInt8) ∉ content := by
    rw [h.octets]
    intro hmem
    rcases List.mem_append.mp hmem with hmem | hmem
    · have := hprinted 0x0d hmem
      exact absurd this (by decide)
    · exact absurd (List.mem_singleton.mp hmem) (by decide)
  have htext : lib.decode content = some (String.ofList ((documentOf lib body).text++['\n'])) := by
    rw [h.octets,← octets_line]
    exact hdecode _
  have hvalue := hreads.value h.keyed h.distinct (.inr (octets_line (documentOf lib body)))
  refine Runs.bind_ok.mpr ⟨(),require_ok.mpr htake,Runs.bind_ok.mpr ⟨(),require_ok.mpr hmagic,?_⟩⟩
  refine Runs.bind_ok.mpr ⟨(),require_ok.mpr hlast,Runs.bind_ok.mpr ⟨(),require_ok.mpr hreturn,?_⟩⟩
  refine Runs.bind_ok.mpr ⟨_,by rw [Checker.decodeOrReject,htext],?_⟩
  rw [hvalue,documentOf_readBack]
  rfl

theorem fits_documentOf (h : Written lib members content body) :
    (documentOf lib body).fits lib 1 = true ↔ body.fits lib 2 = true := by
  have htext : lawfulText lib (lib.hashRef "cert" (body.dumps true)) = true := by
    have ht := PyValue.checkTextMembers_ok h.text
      ("cert_hash",.str (lib.hashRef "cert" (body.dumps true))) (by simp)
    obtain ⟨_,ht⟩ := ht
    exact PyValue.checkString_ok ht
  rw [documentOf,Json.fits_obj]
  simp [Json.fits,htext,maxDepth]

/-- The file passes exactly when the body as it is read keeps the depth and the text laws. -/
theorem checks_iff (h : Written lib members content body) (hdecode : lib.DecodesText)
    (hreads : lib.Reads Checker.certificateHooks (documentOf lib body)) :
    (∃ document parsed, Checks lib content document parsed) ↔ body.fits lib 2 = true := by
  have hparse := parseDocument_written h hdecode hreads
  have hbodyOf : ∃ m, body = .obj m := by
    obtain ⟨r,-,rfl⟩ := PyValue.toJson_dict h.json
    exact ⟨r,rfl⟩
  constructor
  · rintro ⟨document,parsed,hc⟩
    obtain rfl := Except.ok.inj (hparse.symm.trans hc.parse)
    obtain ⟨_,hwalk,-⟩ := Runs.bind_ok.mp hc.o0
    exact (fits_documentOf h).mp (h.walk.mp (Checker.walk_readBack.mp hwalk))
  · intro hf
    have hwalk := Checker.walk_readBack.mpr (h.walk.mpr ((fits_documentOf h).mpr hf))
    obtain ⟨m,rfl⟩ := hbodyOf
    refine ⟨_,(Json.obj m).readBack,hparse,?_,?_,?_⟩
    · rw [documentOf_readBack,Json.readBack_obj]
      rfl
    · have hkeys : forEach [Json.str "body",.str "cert_hash"] (fun key =>
          require (key.eq (.str "body") ∨ key.eq (.str "cert_hash")) "E-SCHEMA-UNKNOWN") = .ok () := by
        decide
      refine Runs.bind_ok.mpr ⟨(),hwalk,Runs.bind_ok.mpr ⟨[.str "body",.str "cert_hash"],?_,?_⟩⟩
      · rw [documentOf_readBack]
        rfl
      · refine Runs.bind_ok.mpr ⟨(),hkeys,?_⟩
        rw [Json.dumps_readBack,if_pos h.octets.symm]
        rfl
    · have hhash : (documentOf lib (.obj m)).readBack.item "cert_hash" =
          .ok (.str (lib.hashRef "cert" ((Json.obj m).dumps true))) := by
        rw [documentOf_readBack]
        rfl
      refine Runs.bind_ok.mpr ⟨_,Json.member_ok.mpr hhash,require_ok.mpr ?_⟩
      rw [Json.dumps_readBack]
      simp [Json.eq]

theorem checks_parsed (h : Written lib members content body) (hdecode : lib.DecodesText)
    (hreads : lib.Reads Checker.certificateHooks (documentOf lib body)) {document parsed : Json}
    (hc : Checks lib content document parsed) : parsed = body.readBack := by
  obtain rfl := Except.ok.inj ((parseDocument_written h hdecode hreads).symm.trans hc.parse)
  obtain ⟨r,-,rfl⟩ := PyValue.toJson_dict h.json
  have hb := hc.body
  rw [documentOf_readBack,Json.readBack_obj] at hb
  rw [Json.readBack_obj]
  exact (Except.ok.inj hb).symm

theorem tupleFree_fits (h : Written lib members content body)
    (ht : (PyValue.dict members).tupleFree = true) : body.fits lib 2 = true := by
  have hdocument : (certificateDocument lib members (body.dumps true)).toJson =
      .ok (documentOf lib body) := by
    refine Runs.bind_ok.mpr ⟨_,PyValue.toJsonMembers_ok.mpr ?_,rfl⟩
    exact .cons ⟨rfl,h.json⟩ (.cons ⟨rfl,rfl⟩ .nil)
  have hfree : (certificateDocument lib members (body.dumps true)).tupleFree = true := by
    rw [certificateDocument,PyValue.tupleFree,PyValue.tupleFreeMembers_iff]
    simpa [PyValue.tupleFree] using ht
  exact (fits_documentOf h).mp (PyValue.fits_of_checks hdocument hfree h.depth h.text)

theorem readsBack_iff (h : Written lib members content body)
    (hd : (PyValue.dict members).distinct = true) (hdecode : lib.DecodesText)
    (hreads : lib.Reads Checker.certificateHooks (documentOf lib body)) :
    ReadsBack lib members content ↔ (PyValue.dict members).tupleFree = true := by
  have hkeyed : body.keyed = true := by
    have hk := h.keyed
    rw [documentOf,Json.keyed,Json.keyedMembers_iff] at hk
    exact (hk ("body",body) (by simp)).2
  have heq := PyValue.eqJson_readBack hd h.json hkeyed
  constructor
  · rintro ⟨document,parsed,hc,he⟩
    rw [checks_parsed h hdecode hreads hc] at he
    exact heq.mp he
  · intro ht
    obtain ⟨document,parsed,hc⟩ := (checks_iff h hdecode hreads).mpr (tupleFree_fits h ht)
    exact ⟨document,parsed,hc,by rw [checks_parsed h hdecode hreads hc]; exact heq.mpr ht⟩

/-- The checker reads the body that was written exactly when no tuple occurs in it; it accepts
the file exactly when what is inside the tuples keeps the depth and the text laws too. -/
theorem certificate_reads_back_iff (hd : (PyValue.dict members).distinct = true)
    (hdecode : lib.DecodesText)
    (hreads : ∀ body, (PyValue.dict members).toJson = .ok body →
      lib.Reads Checker.certificateHooks (documentOf lib body))
    (h : certificateBytes lib members = .ok content) :
    (ReadsBack lib members content ↔ (PyValue.dict members).tupleFree = true) ∧
      ∀ body, (PyValue.dict members).toJson = .ok body →
        ((∃ document parsed, Checks lib content document parsed) ↔ body.fits lib 2 = true) := by
  obtain ⟨body,hw⟩ := certificateBytes_ok hd h
  refine ⟨readsBack_iff hw hd hdecode (hreads body hw.json),fun body' hbody => ?_⟩
  obtain rfl := Except.ok.inj (hw.json.symm.trans hbody)
  exact checks_iff hw hdecode (hreads body hw.json)

end

/-! A body with nothing but its verdict, and one that hides a deep list in a tuple. -/

def verdictMembers : List (String × PyValue) := [("verdict",.dict [("witness_class",.none)])]

def verdictBody : Json := .obj [("verdict",.obj [("witness_class",.null)])]

def deepMembers : List (String × PyValue) :=
  ("deep",.tuple [.list [.list [.list [.list [.list [.list []]]]]]])::verdictMembers

def deepBody : Json := .obj [
  ("deep",.list [.list [.list [.list [.list [.list [.list []]]]]]]),
  ("verdict",.obj [("witness_class",.null)])]

/-- The library that reads the document of one body. -/
def bodyReader (body : Json) : Library :=
  Checker.readerOf [documentOf (Checker.standard [] []) body]

theorem bodyReader_reads {body : Json} (hk : (documentOf (Checker.standard [] []) body).keyed = true)
    (hd : (documentOf (Checker.standard [] []) body).distinct = true) :
    (bodyReader body).Reads Checker.certificateHooks (documentOf (bodyReader body) body) := by
  refine Checker.readerOf_reads (j := documentOf (Checker.standard [] []) body) (by simp) ?_ hk hd
  simp

def verdictFile := returned (certificateBytes (bodyReader verdictBody) verdictMembers) (fun _ => true)
  (by decide +kernel)

def deepFile := returned (certificateBytes (bodyReader deepBody) deepMembers) (fun _ => true) (by decide +kernel)

theorem certificate_reads_back_iff_verdict : ∃ content,
    certificateBytes (bodyReader verdictBody) verdictMembers = .ok content ∧
      (ReadsBack (bodyReader verdictBody) verdictMembers content ↔
        (PyValue.dict verdictMembers).tupleFree = true) := by
  obtain ⟨content,h,-⟩ := verdictFile
  refine ⟨content,h,(certificate_reads_back_iff (by decide) (Checker.readerOf_decodes _)
    (fun body hbody => ?_) h).1⟩
  have hjson : (PyValue.dict verdictMembers).toJson = .ok verdictBody := rfl
  obtain rfl := Except.ok.inj (hjson.symm.trans hbody)
  exact bodyReader_reads (by decide) (by decide)

/-- A file that is written and then refused. -/
theorem certificate_not_read_back : ¬∀ lib members content, (PyValue.dict members).distinct = true →
    lib.DecodesText → (∀ body, (PyValue.dict members).toJson = .ok body →
      lib.Reads Checker.certificateHooks (documentOf lib body)) →
    certificateBytes lib members = .ok content → ReadsBack lib members content := by
  intro hall
  obtain ⟨content,h,-⟩ := deepFile
  have hjson : (PyValue.dict deepMembers).toJson = .ok deepBody := rfl
  have hreads := @bodyReader_reads deepBody (by decide) (by decide)
  obtain ⟨document,parsed,hc,-⟩ := hall (bodyReader deepBody) deepMembers content (by decide)
    (Checker.readerOf_decodes _) (fun body hbody => by
      obtain rfl := Except.ok.inj (hjson.symm.trans hbody)
      exact hreads) h
  obtain ⟨body,hw⟩ := certificateBytes_ok (by decide) h
  obtain rfl := Except.ok.inj (hjson.symm.trans hw.json)
  have hfits := (checks_iff hw (Checker.readerOf_decodes _) hreads).mp ⟨document,parsed,hc⟩
  exact absurd hfits (by decide)

end Spectra
