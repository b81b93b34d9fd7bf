import Spectra.IngestRuns
import Spectra.JsonGrammar
import Spectra.Preimages

/-! Contaminated lines: the JSON objects that carry an oracle-channel key, as the grammar lays them
out, and which of them end a call of ingest. -/
namespace Spectra

open JsonGrammar

/-! ### The writer keeps to the grammar -/

namespace Json

mutual

/-- What the sorted text of a value lays out. -/
def tree : Json → Tree
  | .null => .literal "null".toList
  | .bool b => .literal (if b then "true" else "false").toList
  | .int n => .literal (asciiChars (decimal n))
  | .scalar s => .literal s.toList
  | .str s => .string (units s)
  | .list l => .array (treeItems l)
  | .obj m => .object (((treeMembers m).insertionSort (·.1 ≤ ·.1)).map fun p => (units p.1,p.2))

def treeItems : List Json → List Tree
  | [] => []
  | a::as => a.tree::treeItems as

def treeMembers : List (String × Json) → List (String × Tree)
  | [] => []
  | (k,v)::m => (k,v.tree)::treeMembers m

end

theorem treeItems_eq (l : List Json) : treeItems l = l.map tree := by
  induction l with
  | nil => rfl
  | cons a l ih => rw [treeItems,ih]; rfl

theorem treeMembers_eq (m : List (String × Json)) : treeMembers m = m.map fun p => (p.1,p.2.tree) := by
  induction m with
  | nil => rfl
  | cons p m ih => rw [treeMembers,ih]; rfl

/-- The hexadecimal digit of a value. -/
def hexChar (n : ℕ) : Char := ("0123456789abcdef".toList[n]?).getD '0'

theorem hexChar_hex {n : ℕ} (h : n < 16) : Hex (hexChar n) n := by
  interval_cases n <;> exact .inl rfl

/-- An ASCII character stands for itself, or it is escaped by name or by number. -/
def Escaped (n : ℕ) (l : List Char) : Prop :=
  (l = [Char.ofNat n] ∧ n ≠ 0x22 ∧ n ≠ 0x5c ∧ 0x20 ≤ n) ∨ (∃ p ∈ escapes, l = ['\\',p.1] ∧ p.2 = n) ∨
    l = ['\\','u','0','0',hexChar (n/16),hexChar (n%16)]

instance (n : ℕ) (l : List Char) : Decidable (Escaped n l) :=
  inferInstanceAs (Decidable (_ ∨ _ ∨ _))

theorem escape_escaped {n : ℕ} (h : n < 128) : Escaped n (asciiChars (escape (UInt8.ofNat n))) := by
  have hall : ∀ k : Fin 128, Escaped k (asciiChars (escape (UInt8.ofNat k))) := by decide +kernel
  exact hall ⟨n,h⟩

theorem escaped_body {n : ℕ} (hn : n < 128) {l : List Char} (h : Escaped n l) : Body l [n] := by
  rcases h with ⟨rfl,hquote,hslash,hlow⟩ | ⟨p,hp,rfl,rfl⟩ | rfl
  · have hc : (Char.ofNat n).toNat = n := toNat_ofNat_ascii hn
    have hutf : utf16 (Char.ofNat n) = [n] := by rw [utf16,if_pos (by omega),hc]
    have hplain : Body [Char.ofNat n] (utf16 (Char.ofNat n)++[]) := by
      refine .plain ⟨?_,?_,hc.symm ▸ hlow⟩ .nil
      · rintro he
        exact hquote (by rw [← hc,he]; rfl)
      · rintro he
        exact hslash (by rw [← hc,he]; rfl)
    rwa [hutf] at hplain
  · exact .escape hp .nil
  · have hsum : 0x1000*0+0x100*0+0x10*(n/16)+n%16 = n := by omega
    have hzero : Hex '0' 0 := .inl rfl
    have hhigh : Hex (hexChar (n/16)) (n/16) := hexChar_hex (by omega)
    have hlow : Hex (hexChar (n%16)) (n%16) := hexChar_hex (by omega)
    have hunit := Body.unit ⟨hzero,hzero,hhigh,hlow⟩ .nil
    rwa [hsum] at hunit

theorem escapeChar_body (c : Char) : Body (escapeChar c) (utf16 c) := by
  unfold escapeChar
  split
  · rename_i hc
    have hutf : utf16 c = [c.toNat] := by rw [utf16,if_pos (by omega)]
    exact hutf ▸ escaped_body hc (escape_escaped hc)
  · rename_i hc
    refine List.append_nil (utf16 c) ▸ .plain ⟨?_,?_,by omega⟩ .nil
    · rintro rfl
      exact hc (by decide)
    · rintro rfl
      exact hc (by decide)

/-- The characters of a text between its quotes. -/
def escaped (s : String) : List Char := s.toList.flatMap escapeChar

theorem quotedText_member (s : String) (l : List Char) :
    quotedText s++ ':' :: l = memberText (escaped s) l := by simp [quotedText,memberText,escaped]

theorem escaped_spelled (s : String) : Body (escaped s) (units s) := by
  unfold escaped units
  induction s.toList with
  | nil => exact .nil
  | cons c l ih =>
    rw [List.flatMap_cons,List.flatMap_cons]
    exact (escapeChar_body c).append ih

theorem items_commaText {l : List (List Char × Tree)} (hl : l ≠ []) (h : ∀ p ∈ l, Spells p.1 p.2) :
    Items (commaText (l.map (·.1))) (l.map (·.2)) := by
  induction l with
  | nil => exact absurd rfl hl
  | cons p l ih =>
    obtain ⟨hp,hrest⟩ := List.forall_mem_cons.mp h
    cases l with
    | nil => exact hp.text
    | cons q l => exact item_cons hp (ih (by simp) hrest)

theorem members_commaText {l : List (String × List Char × Tree)} (hl : l ≠ [])
    (h : ∀ p ∈ l, Spells p.2.1 p.2.2) :
    Members (commaText (l.map fun p => memberText (escaped p.1) p.2.1)) (l.map fun p => (units p.1,p.2.2)) := by
  induction l with
  | nil => exact absurd rfl hl
  | cons p l ih =>
    obtain ⟨hp,hrest⟩ := List.forall_mem_cons.mp h
    cases l with
    | nil => exact member_spelled (escaped_spelled p.1) hp
    | cons q l => exact member_cons (escaped_spelled p.1) hp (ih (by simp) hrest)

theorem isDigit_ascii {b : UInt8} (h : Checker.isDigit b = true) : (Char.ofNat b.toNat).isDigit = true := by
  have hall : ∀ k : Fin 10, (Char.ofNat (48+k)).isDigit = true := by decide
  simp only [Checker.isDigit,Bool.and_eq_true,decide_eq_true_eq,UInt8.le_iff_toNat_le] at h
  have hzero : (0x30 : UInt8).toNat = 48 := rfl
  have hnine : (0x39 : UInt8).toNat = 57 := rfl
  have hb := hall ⟨b.toNat-48,by omega⟩
  rwa [Nat.add_sub_cancel' (by omega)] at hb

theorem digits_whole (n : ℕ) : Whole (asciiChars (digitOctets n)) := by
  have hall := List.all_eq_true.mp (digitOctets_digits n)
  have hascii : ∀ c ∈ asciiChars (digitOctets n), c.isDigit = true := by
    intro c hc
    obtain ⟨b,hb,rfl⟩ := List.mem_map.mp hc
    exact isDigit_ascii (hall b hb)
  by_cases hn : n = 0
  · subst hn
    exact ⟨⟨by decide,hascii⟩,fun _ => rfl⟩
  obtain ⟨first,rest,hdigits,hfirst⟩ := digitOctets_head hn
  refine ⟨⟨by rw [hdigits]; simp [asciiChars],hascii⟩,fun hzero => ?_⟩
  rw [hdigits,asciiChars,List.map_cons,List.head?_cons,Option.some.injEq] at hzero
  have hlow : first.toNat < 128 := by
    have h := hall first (by rw [hdigits]; simp)
    simp only [Checker.isDigit,Bool.and_eq_true,decide_eq_true_eq,UInt8.le_iff_toNat_le] at h
    have hnine : (0x39 : UInt8).toNat = 57 := rfl
    omega
  have hsame := congrArg Char.toNat hzero
  rw [toNat_ofNat_ascii hlow] at hsame
  exact absurd (UInt8.toNat_inj.mp hsame) hfirst

theorem decimal_number (n : ℤ) : Number (asciiChars (decimal n)) := by
  have hw := digits_whole n.natAbs
  unfold decimal
  dsimp only
  split
  · exact @number_whole ['-'] _ (by simp) hw
  · exact @number_whole [] _ (by simp) hw

/-- The members of an object in the order of the text, laid out. -/
def laidOut (m : List (String × Json)) : List (String × List Char × Tree) :=
  (m.map fun p => (p.1,p.2.text,p.2.tree)).insertionSort (·.1 ≤ ·.1)

theorem laidOut_texts (m : List (String × Json)) : (laidOut m).map (fun p => (p.1,p.2.1)) =
    (m.map fun p => (p.1,p.2.text)).insertionSort (·.1 ≤ ·.1) :=
  (map_sortKeys (fun q : List Char × Tree => q.1) _).trans (by rw [List.map_map]; rfl)

theorem laidOut_trees (m : List (String × Json)) : (laidOut m).map (fun p => (p.1,p.2.2)) =
    (m.map fun p => (p.1,p.2.tree)).insertionSort (·.1 ≤ ·.1) :=
  (map_sortKeys (fun q : List Char × Tree => q.2) _).trans (by rw [List.map_map]; rfl)

theorem text_obj (m : List (String × Json)) : (Json.obj m).text =
    '{' :: commaText ((laidOut m).map fun p => memberText (escaped p.1) p.2.1)++['}'] := by
  rw [text,textMembers_eq,← laidOut_texts,List.map_map]
  simp only [Function.comp_def,quotedText_member]

theorem tree_obj (m : List (String × Json)) :
    (Json.obj m).tree = .object ((laidOut m).map fun p => (units p.1,p.2.2)) := by
  rw [tree,treeMembers_eq,← laidOut_trees,List.map_map]
  rfl

/-- What the canonical writer writes of a value is a JSON text of it. -/
theorem text_spelled {j : Json} (h : j.scf = true) : Spells j.text j.tree := by
  induction j using nestedInduction with
  | null => cases h
  | bool b => cases b <;> exact .literal (by simp [text])
  | int n => exact .number (decimal_number n)
  | scalar s => cases h
  | str s => exact .string (escaped_spelled s)
  | list l ih =>
    rw [scf,scfItems_iff] at h
    rw [text,tree,textItems_eq,treeItems_eq]
    cases hl : l with
    | nil => exact .emptyArray blank_nil
    | cons a rest =>
      rw [← hl]
      have hitems := @items_commaText (l.map fun a => (a.text,a.tree)) (by simp [hl])
        (by simpa using fun a ha => ih a ha (h a ha))
      rw [List.map_map,List.map_map] at hitems
      exact .array hitems
  | obj m ih =>
    rw [scf,scfMembers_iff] at h
    have hall : ∀ p ∈ laidOut m, Spells p.2.1 p.2.2 := by
      intro p hp
      obtain ⟨q,hq,rfl⟩ := List.mem_map.mp ((List.mem_insertionSort _).mp hp)
      exact ih q hq (h q hq).2
    rw [text_obj,tree_obj]
    cases hm : laidOut m with
    | nil => exact .emptyObject blank_nil
    | cons p rest =>
      rw [← hm]
      exact .object (members_commaText (by simp [hm]) hall)

end Json

/-! ### Contaminated lines -/

/-- The units of an oracle-channel key. -/
def OracleKey (u : List ℕ) : Prop := u ∈ forbiddenKeys.map units ∨ units forbiddenKeyPrefix <+: u

/-- An oracle-channel key among the members, or directly inside an `attrs` object. -/
def Carries (members : List (List ℕ × Tree)) : Prop := (∃ p ∈ members, OracleKey p.1) ∨
  ∃ attrs, (units "attrs",.object attrs) ∈ members ∧ ∃ p ∈ attrs, OracleKey p.1

/-- A line of at most the bound that is the text of an object with such a key. -/
structure Contaminated (limits : IngestLimits) (line : Bytes) : Prop where
  short : line.length ≤ limits.maxLineBytes
  carries : ∃ text members, octets (String.ofList text) = line ∧ Text text (.object members) ∧
    Carries members

/-- The canonical text of a record with such a key. -/
theorem canonical_contaminated {limits : IngestLimits} {parsed : List (String × Json)}
    (hs : (Json.obj parsed).scf = true)
    (hshort : ((Json.obj parsed).dumps true).length ≤ limits.maxLineBytes) {key : String}
    (hk : key ∈ parsed.map (·.1)) (ho : OracleKey (units key)) :
    Contaminated limits ((Json.obj parsed).dumps true) := by
  have htree := Json.tree_obj parsed
  refine ⟨hshort,(Json.obj parsed).text,_,Json.octets_text _,htree ▸ (Json.text_spelled hs).text,.inl ?_⟩
  obtain ⟨p,hp,rfl⟩ := List.mem_map.mp hk
  refine ⟨(units p.1,p.2.tree),List.mem_map.mpr ⟨(p.1,p.2.text,p.2.tree),?_,rfl⟩,ho⟩
  exact (List.mem_insertionSort _).mpr (List.mem_map_of_mem hp)

/-- Ingest aborts on every contaminated line exactly when there is none, or one that the purity check
gets to see comes before every line that raises. -/
theorem contamination_aborts_iff (rt : Runtime) (raw : Bytes) (sources : List DeclaredSource)
    (declared : List (String × DeclaredSource)) (limits : IngestLimits) (time : Option ℤ)
    (hrt : rt.Documented) (hlimits : limits.maxAttrs < 2^32) (hd : declaredSources sources = .ok declared)
    (ht : ∀ t ∈ time, IsNanos t) :
    ((∃ l ∈ splitOctets raw, Contaminated limits l.1) →
      ∃ key, ingestBytes rt raw sources limits time = .error (.labelPurity key)) ↔
    (∀ l ∈ splitOctets raw, ¬Contaminated limits l.1) ∨
      ¬TooMany raw limits ∧ ∃ before line after key, splitOctets raw = before++(line,true)::after ∧
        LineAborts rt limits line key ∧
        ∀ l ∈ before, l.2 = true → ∀ e, ¬LineRaises rt limits declared l.1 e := by
  have haborts : (∃ key, ingestBytes rt raw sources limits time = .error (.labelPurity key)) ↔ _ :=
    aborts_iff hrt hlimits hd ht
  rw [haborts,imp_iff_not_or]
  refine or_congr_left ?_
  push Not
  rfl

/-- `{"label":1}`. -/
def labelRecord : Json := .obj [("label",.int 1)]

def labelLine : Bytes := labelRecord.dumps true

def labelRuntime : Runtime := tableRuntime [(labelLine,labelRecord)] fun _ => true

theorem labelRuntime_documented : labelRuntime.Documented :=
  tableRuntime_documented (fun p hp => by rw [List.mem_singleton.mp hp]; decide) _

theorem labelLine_contaminated : Contaminated {} labelLine :=
  canonical_contaminated (by decide) (by decide) (show "label" ∈ ["label"] by simp) (.inl (by decide))

theorem contamination_aborts_iff_label : ∃ declared, declaredSources loginSources = .ok declared ∧
    (((∃ l ∈ splitOctets labelLine, Contaminated {} l.1) →
      ∃ key, ingestBytes labelRuntime labelLine loginSources {} none = .error (.labelPurity key)) ↔
    (∀ l ∈ splitOctets labelLine, ¬Contaminated {} l.1) ∨
      ¬TooMany labelLine {} ∧ ∃ before line after key, splitOctets labelLine = before++(line,true)::after ∧
        LineAborts labelRuntime {} line key ∧
        ∀ l ∈ before, l.2 = true → ∀ e, ¬LineRaises labelRuntime {} declared l.1 e) :=
  ⟨_,rfl,contamination_aborts_iff labelRuntime _ _ _ _ _ labelRuntime_documented (by decide) rfl (by simp)⟩

/-- A contaminated line without a line feed is quarantined. -/
theorem contamination_quarantined : ¬∀ (rt : Runtime) (raw : Bytes) (sources : List DeclaredSource)
    (declared : List (String × DeclaredSource)) (limits : IngestLimits) (time : Option ℤ),
    rt.Documented → limits.maxAttrs < 2^32 → declaredSources sources = .ok declared →
    (∀ t ∈ time, IsNanos t) → (∃ l ∈ splitOctets raw, Contaminated limits l.1) →
    ∃ key, ingestBytes rt raw sources limits time = .error (.labelPurity key) := by
  intro hall
  have hsplit : splitOctets labelLine = [(labelLine,false)] := by decide
  have h := hall labelRuntime labelLine loginSources _ {} none labelRuntime_documented (by decide) rfl
    (by simp) ⟨(labelLine,false),hsplit ▸ List.mem_singleton_self _,labelLine_contaminated⟩
  obtain ⟨-,before,line,after,key,hl,-⟩ := (aborts_iff labelRuntime_documented (by decide) rfl (by simp)).mp h
  have hmem : (line,true) ∈ [(labelLine,false)] := by
    rw [← hsplit,hl]
    simp
  cases List.mem_singleton.mp hmem

end Spectra
