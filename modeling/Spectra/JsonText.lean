import Spectra.CheckerInputs

/-! The text the JSON writer spells a value with, character by character, and the value a
JSON reader makes of that text. -/
namespace Spectra

/-! ### Characters -/

/-- The characters of ASCII octets. -/
def asciiChars (l : Bytes) : List Char := l.map fun b => Char.ofNat b.toNat

theorem octets_ofList (l : List Char) : octets (String.ofList l) = l.flatMap String.utf8EncodeChar := by
  simp [octets,List.utf8Encode]

theorem octets_eq (s : String) : octets s = s.toList.flatMap String.utf8EncodeChar := by
  rw [← octets_ofList,String.ofList_toList]

/-- A character outside ASCII is spelled by octets of 128 or more. -/
theorem utf8EncodeChar_high {c : Char} (h : 128 ≤ c.toNat) :
    ∀ b ∈ String.utf8EncodeChar c, 128 ≤ b.toNat := by
  intro b hb
  have hc : c.val.toNat = c.toNat := rfl
  unfold String.utf8EncodeChar at hb
  simp only [hc,if_neg (show ¬c.toNat ≤ 0x7f by omega)] at hb
  split at hb
  · simp only [List.mem_cons,List.not_mem_nil,or_false] at hb
    rcases hb with rfl | rfl <;> simp only [UInt8.toNat_ofNat'] <;> omega
  · split at hb
    all_goals
      simp only [List.mem_cons,List.not_mem_nil,or_false] at hb
      rcases hb with rfl | rfl | rfl | rfl <;> simp only [UInt8.toNat_ofNat'] <;> omega

theorem utf8EncodeChar_ascii {c : Char} (h : c.toNat < 128) :
    String.utf8EncodeChar c = [UInt8.ofNat c.toNat] := by
  have hc : c.val.toNat = c.toNat := rfl
  unfold String.utf8EncodeChar
  simp only [hc,if_pos (show c.toNat ≤ 0x7f by omega)]

theorem toNat_ofNat_ascii {n : ℕ} (h : n < 128) : (Char.ofNat n).toNat = n := by
  have hc : ∀ k : Fin 128, (Char.ofNat k).toNat = k := by decide
  exact hc ⟨n,h⟩

theorem octets_asciiChars {l : Bytes} (h : ∀ b ∈ l, b.toNat < 128) :
    (asciiChars l).flatMap String.utf8EncodeChar = l := by
  induction l with
  | nil => rfl
  | cons b l ih =>
    have hb : b.toNat < 128 := h b (by simp)
    have hc : (Char.ofNat b.toNat).toNat = b.toNat := toNat_ofNat_ascii hb
    rw [asciiChars,List.map_cons,List.flatMap_cons,utf8EncodeChar_ascii (by omega),hc]
    rw [show (l.map fun b => Char.ofNat b.toNat) = asciiChars l from rfl,
      ih fun x hx => h x (by simp [hx])]
    simp

namespace Json

/-- A character inside a JSON string. -/
def escapeChar (c : Char) : List Char :=
  if c.toNat < 128 then asciiChars (escape (UInt8.ofNat c.toNat)) else [c]

theorem escape_ascii {b : UInt8} (h : b.toNat < 128) : ∀ x ∈ escape b, x.toNat < 128 := by
  have hall : ∀ k : Fin 128, (escape (UInt8.ofNat k)).all (·.toNat < 128) = true := by decide
  intro x hx
  have hb : UInt8.ofNat b.toNat = b := by simp
  have := List.all_eq_true.mp (hall ⟨b.toNat,h⟩) x (by rw [hb]; exact hx)
  simpa using this

theorem flatMap_escape_high {l : Bytes} (h : ∀ b ∈ l, 128 ≤ b.toNat) : l.flatMap escape = l := by
  induction l with
  | nil => rfl
  | cons b l ih =>
    have hb : 128 ≤ b.toNat := h b (by simp)
    have he : escape b = [b] := by
      rw [escape,if_neg (by omega),if_neg (by omega),if_neg (by omega)]
    rw [List.flatMap_cons,he,ih fun x hx => h x (by simp [hx])]
    rfl

theorem octets_escapeChar (c : Char) :
    (escapeChar c).flatMap String.utf8EncodeChar = (String.utf8EncodeChar c).flatMap escape := by
  unfold escapeChar
  split
  · rename_i h
    have hn : (UInt8.ofNat c.toNat).toNat = c.toNat := by
      rw [UInt8.toNat_ofNat']; omega
    rw [octets_asciiChars (escape_ascii (by omega)),utf8EncodeChar_ascii h]
    simp
  · rename_i h
    rw [flatMap_escape_high (utf8EncodeChar_high (by omega))]
    simp

/-- The characters of `quoted`. -/
def quotedText (s : String) : List Char := '"'::s.toList.flatMap escapeChar++['"']

theorem octets_quotedText (s : String) :
    (quotedText s).flatMap String.utf8EncodeChar = quoted s := by
  have hq : String.utf8EncodeChar '"' = [0x22] := by decide
  have hmid : (s.toList.flatMap escapeChar).flatMap String.utf8EncodeChar =
      (octets s).flatMap escape := by
    rw [octets_eq,List.flatMap_assoc,List.flatMap_assoc]
    exact List.flatMap_congr fun c _ => octets_escapeChar c
  simp [quotedText,quoted,hq,hmid]

/-- The parts with a comma between each two. -/
def commaText : List (List Char) → List Char
  | [] => []
  | [p] => p
  | p::rest => p++ ',' :: commaText rest

theorem octets_commaText (l : List (List Char)) : (commaText l).flatMap String.utf8EncodeChar =
    commas (l.map fun p => p.flatMap String.utf8EncodeChar) := by
  have hc : String.utf8EncodeChar ',' = [0x2c] := by decide
  induction l with
  | nil => rfl
  | cons p l ih =>
    cases l with
    | nil => rfl
    | cons q l => simp only [commaText,List.flatMap_append,List.flatMap_cons,hc,ih]; rfl

mutual

/-- The text of `_dumps` with `sort_keys`. -/
def text : Json → List Char
  | .null => "null".toList
  | .bool b => (if b then "true" else "false").toList
  | .int n => asciiChars (decimal n)
  | .scalar s => s.toList
  | .str s => quotedText s
  | .list l => '['::commaText (textItems l)++[']']
  | .obj m => '{' :: commaText (((textMembers m).insertionSort (·.1 ≤ ·.1)).map fun p =>
      quotedText p.1++ ':' :: p.2)++['}']

def textItems : List Json → List (List Char)
  | [] => []
  | a::as => a.text::textItems as

def textMembers : List (String × Json) → List (String × List Char)
  | [] => []
  | (k,v)::m => (k,v.text)::textMembers m

end

theorem textItems_eq (l : List Json) : textItems l = l.map text := by
  induction l with
  | nil => rfl
  | cons a l ih => rw [textItems,ih]; rfl

theorem textMembers_eq (m : List (String × Json)) : textMembers m = m.map fun p => (p.1,p.2.text) := by
  induction m with
  | nil => rfl
  | cons p m ih => rw [textMembers,ih]; rfl

theorem dumpsItems_eq (sortKeys : Bool) (l : List Json) :
    dumpsItems sortKeys l = l.map (dumps sortKeys) := by
  induction l with
  | nil => rfl
  | cons a l ih => rw [dumpsItems,ih]; rfl

theorem dumpsMembers_eq (sortKeys : Bool) (m : List (String × Json)) :
    dumpsMembers sortKeys m = m.map fun p => (p.1,p.2.dumps sortKeys) := by
  induction m with
  | nil => rfl
  | cons p m ih => rw [dumpsMembers,ih]; rfl

/-- Induction on a value, through the items of its lists and the members of its objects. -/
@[elab_as_elim]
theorem nestedInduction {P : Json → Prop} (null : P .null) (bool : ∀ b, P (.bool b))
    (int : ∀ n, P (.int n)) (scalar : ∀ s, P (.scalar s)) (str : ∀ s, P (.str s))
    (list : ∀ l, (∀ a ∈ l, P a) → P (.list l))
    (obj : ∀ m, (∀ p ∈ m, P p.2) → P (.obj m)) (j : Json) : P j :=
  Json.rec (motive_1 := P) (motive_2 := fun l => ∀ a ∈ l, P a)
    (motive_3 := fun m => ∀ p ∈ m, P p.2) (motive_4 := fun p => P p.2)
    null bool int scalar str list obj (by simp)
    (fun _ _ ha hl => List.forall_mem_cons.mpr ⟨ha,hl⟩) (by simp)
    (fun _ _ hp hm => List.forall_mem_cons.mpr ⟨hp,hm⟩) (fun _ _ h => h) j

/-- Sorting by key commutes with a change of the values. -/
theorem map_sortKeys {α β : Type} (f : α → β) (m : List (String × α)) :
    (m.insertionSort (·.1 ≤ ·.1)).map (fun p => (p.1,f p.2)) =
      (m.map fun p => (p.1,f p.2)).insertionSort (·.1 ≤ ·.1) :=
  List.map_insertionSort _ _ _ _ fun _ _ _ _ => Iff.rfl

theorem octets_printed {s : String} {l : Bytes} (h : octets s = l) :
    s.toList.flatMap String.utf8EncodeChar = l := by
  rw [← octets_eq,h]

/-- The octets of the text are those of `_dumps`. -/
theorem octets_text (j : Json) : octets (String.ofList j.text) = j.dumps true := by
  have hopen : String.utf8EncodeChar '[' = [0x5b] := by decide
  have hclose : String.utf8EncodeChar ']' = [0x5d] := by decide
  have hbrace : String.utf8EncodeChar '{' = [0x7b] := by decide
  have hend : String.utf8EncodeChar '}' = [0x7d] := by decide
  have hcolon : String.utf8EncodeChar ':' = [0x3a] := by decide
  rw [octets_ofList]
  induction j using nestedInduction with
  | null => exact octets_printed rfl
  | bool b => exact octets_printed rfl
  | int n =>
    refine octets_asciiChars fun b hb => ?_
    have hdigit : ∀ c ∈ Nat.toDigits 10 n.natAbs, (UInt8.ofNat c.toNat).toNat < 128 := by
      intro c hc
      have hd := Nat.isDigit_of_mem_toDigits (by norm_num) (by norm_num) hc
      simp only [Char.isDigit,Bool.and_eq_true,decide_eq_true_eq,ge_iff_le,
        UInt32.le_iff_toNat_le] at hd
      have hnine : '9'.val.toNat = 57 := rfl
      have hn : c.toNat = c.val.toNat := rfl
      rw [UInt8.toNat_ofNat',hn]
      omega
    unfold decimal at hb
    split at hb
    · rcases List.mem_cons.mp hb with rfl | hb
      · decide
      · obtain ⟨c,hc,rfl⟩ := List.mem_map.mp hb
        exact hdigit c hc
    · obtain ⟨c,hc,rfl⟩ := List.mem_map.mp hb
      exact hdigit c hc
  | scalar s => exact octets_printed rfl
  | str s => exact octets_quotedText s
  | list l ih =>
    have hitems : (l.map text).map (fun p => p.flatMap String.utf8EncodeChar) = l.map (dumps true) := by
      rw [List.map_map]
      exact List.map_congr_left ih
    rw [text,dumps,textItems_eq,dumpsItems_eq,← hitems,← octets_commaText]
    simp [hopen,hclose]
  | obj m ih =>
    have hmembers : (m.map fun p => (p.1,p.2.dumps true)) =
        (m.map fun p => (p.1,p.2.text)).map fun p => (p.1,p.2.flatMap String.utf8EncodeChar) := by
      rw [List.map_map]
      exact List.map_congr_left fun p hp => by rw [← ih p hp]; rfl
    have hsort := map_sortKeys (fun l : List Char => l.flatMap String.utf8EncodeChar)
      (m.map fun p => (p.1,p.2.text))
    have hpart : ∀ p : String × List Char,
        (quotedText p.1++ ':' :: p.2).flatMap String.utf8EncodeChar =
          quoted p.1++0x3a::p.2.flatMap String.utf8EncodeChar := by
      intro p
      simp [hcolon,octets_quotedText]
    rw [text,dumps,textMembers_eq,dumpsMembers_eq,if_pos rfl,hmembers,← hsort,List.map_map]
    simp only [List.flatMap_append,List.flatMap_cons,octets_commaText,List.map_map,hbrace,hend,
      Function.comp_def,hpart]
    simp

/-! ### Reading back -/

mutual

/-- The value the sorted text of a value spells: the members of an object by key. -/
def readBack : Json → Json
  | .list l => .list (readBackItems l)
  | .obj m => .obj ((readBackMembers m).insertionSort (·.1 ≤ ·.1))
  | j => j

def readBackItems : List Json → List Json
  | [] => []
  | a::as => a.readBack::readBackItems as

def readBackMembers : List (String × Json) → List (String × Json)
  | [] => []
  | (k,v)::m => (k,v.readBack)::readBackMembers m

end

theorem readBackItems_eq (l : List Json) : readBackItems l = l.map readBack := by
  induction l with
  | nil => rfl
  | cons a l ih => rw [readBackItems,ih]; rfl

theorem readBackMembers_eq (m : List (String × Json)) :
    readBackMembers m = m.map fun p => (p.1,p.2.readBack) := by
  induction m with
  | nil => rfl
  | cons p m ih => rw [readBackMembers,ih]; rfl

theorem readBack_list (l : List Json) : (Json.list l).readBack = .list (l.map readBack) := by
  rw [readBack,readBackItems_eq]

theorem readBack_obj (m : List (String × Json)) : (Json.obj m).readBack =
    .obj ((m.map fun p => (p.1,p.2.readBack)).insertionSort (·.1 ≤ ·.1)) := by
  rw [readBack,readBackMembers_eq]

theorem sortKeys_sortKeys {α : Type} (m : List (String × α)) :
    (m.insertionSort (·.1 ≤ ·.1)).insertionSort (·.1 ≤ ·.1) = m.insertionSort (·.1 ≤ ·.1) :=
  (List.pairwise_insertionSort _ m).insertionSort_eq

/-- What is read back is written again with the same octets. -/
theorem dumps_readBack (j : Json) : j.readBack.dumps true = j.dumps true := by
  induction j using nestedInduction with
  | list l ih =>
    have hitems : (l.map readBack).map (dumps true) = l.map (dumps true) := by
      rw [List.map_map]
      exact List.map_congr_left ih
    rw [readBack_list,dumps,dumps,dumpsItems_eq,dumpsItems_eq,hitems]
  | obj m ih =>
    have hmembers : (m.map fun p => (p.1,p.2.readBack.dumps true)) =
        m.map fun p => (p.1,p.2.dumps true) :=
      List.map_congr_left fun p hp => by rw [ih p hp]
    have hsort := map_sortKeys (dumps true) (m.map fun p => (p.1,p.2.readBack))
    rw [readBack_obj,dumps,dumps,dumpsMembers_eq,dumpsMembers_eq,if_pos rfl,if_pos rfl,hsort,
      sortKeys_sortKeys,List.map_map]
    simp only [Function.comp_def,hmembers]
  | _ => rfl

mutual

/-- No object writes a key twice. -/
def distinct : Json → Bool
  | .list l => distinctItems l
  | .obj m => decide (m.map (·.1)).Nodup && distinctMembers m
  | _ => true

def distinctItems : List Json → Bool
  | [] => true
  | a::as => a.distinct && distinctItems as

def distinctMembers : List (String × Json) → Bool
  | [] => true
  | (_,v)::m => v.distinct && distinctMembers m

end

theorem distinctItems_iff {l : List Json} :
    distinctItems l = true ↔ ∀ a ∈ l, a.distinct = true := by
  induction l with
  | nil => simp [distinctItems]
  | cons a l ih => simp [distinctItems,ih]

theorem distinctMembers_iff {m : List (String × Json)} :
    distinctMembers m = true ↔ ∀ p ∈ m, p.2.distinct = true := by
  induction m with
  | nil => simp [distinctMembers]
  | cons p m ih => simp [distinctMembers,ih]

theorem distinct_list {l : List Json} :
    (Json.list l).distinct = true ↔ ∀ a ∈ l, a.distinct = true := by
  rw [distinct,distinctItems_iff]

theorem distinct_obj {m : List (String × Json)} : (Json.obj m).distinct = true ↔
    (m.map (·.1)).Nodup ∧ ∀ p ∈ m, p.2.distinct = true := by
  rw [distinct,Bool.and_eq_true,distinctMembers_iff,decide_eq_true_eq]

/-- A lookup does not depend on the order of the members. -/
theorem get?_sortKeys {α : Type} {m : List (String × α)} (h : (m.map (·.1)).Nodup) (key : String) :
    Dict.get? (m.insertionSort (·.1 ≤ ·.1)) key = Dict.get? m key := by
  have hperm : (m.insertionSort (·.1 ≤ ·.1)).Perm m := List.perm_insertionSort _ m
  cases hk : Dict.get? m key with
  | some a =>
    exact Dict.get?_of_mem ((hperm.map _).nodup_iff.mpr h) (hperm.mem_iff.mpr (Dict.get?_mem hk))
  | none =>
    cases hs : Dict.get? (m.insertionSort (·.1 ≤ ·.1)) key with
    | none => rfl
    | some a =>
      rw [Dict.get?_of_mem h (hperm.mem_iff.mp (Dict.get?_mem hs))] at hk
      cases hk

theorem get?_readBack {m : List (String × Json)} (h : (m.map (·.1)).Nodup) (key : String) :
    Dict.get? ((m.map fun p => (p.1,p.2.readBack)).insertionSort (·.1 ≤ ·.1)) key =
      (Dict.get? m key).map readBack := by
  rw [get?_sortKeys (by rwa [List.map_map]),Dict.get?_map]

theorem item_readBack {m : List (String × Json)} (h : (m.map (·.1)).Nodup) {key : String} {v : Json}
    (hv : Dict.get? m key = some v) : (Json.obj m).readBack.item key = .ok v.readBack := by
  rw [readBack_obj,item,get?_readBack h,hv]
  rfl

theorem eqItems_iff {l m : List Json} : eqItems l m = true ↔ List.Forall₂ (fun a b => a.eq b = true) l m := by
  induction l generalizing m with
  | nil => cases m <;> simp [eqItems]
  | cons a l ih => cases m <;> simp [eqItems,ih]

theorem eqMembers_iff {l m : List (String × Json)} : eqMembers l m = true ↔
    ∀ p ∈ l, ∃ w, Dict.get? m p.1 = some w ∧ p.2.eq w = true := by
  induction l with
  | nil => simp [eqMembers]
  | cons p l ih =>
    rw [eqMembers,Bool.and_eq_true,ih,List.forall_mem_cons]
    cases hw : Dict.get? m p.1 <;> simp

/-- What is read back equals what was written. -/
theorem eq_readBack {j : Json} (h : j.distinct = true) : j.readBack.eq j = true := by
  induction j using nestedInduction with
  | list l ih =>
    rw [readBack_list,eq,eqItems_iff,List.forall₂_map_left_iff]
    exact List.forall₂_same.mpr fun a ha => ih a ha (distinct_list.mp h a ha)
  | obj m ih =>
    obtain ⟨hn,hm⟩ := distinct_obj.mp h
    rw [readBack_obj,eq,Bool.and_eq_true,eqMembers_iff]
    refine ⟨by simp,fun p hp => ?_⟩
    obtain ⟨q,hq,rfl⟩ := List.mem_map.mp ((List.mem_insertionSort _).mp hp)
    exact ⟨q.2,Dict.get?_of_mem hn hq,ih q hq (hm q hq)⟩
  | _ => simp [readBack,eq,number?]

end Json

namespace Checker

mutual

/-- What a reader makes of a value: the hooks are called inside out, as the text is read. -/
def Hooks.revive (hooks : Hooks) : Json → Check Json
  | .list l => do pure (.list (← hooks.reviveItems l))
  | .obj m => do hooks.pairs (← hooks.reviveMembers m)
  | .scalar s => hooks.float s
  | j => .ok j

def Hooks.reviveItems (hooks : Hooks) : List Json → Check (List Json)
  | [] => .ok []
  | a::as => do
    let a ← hooks.revive a
    pure (a::(← hooks.reviveItems as))

def Hooks.reviveMembers (hooks : Hooks) : List (String × Json) → Check (List (String × Json))
  | [] => .ok []
  | (k,v)::m => do
    let v ← hooks.revive v
    pure ((k,v)::(← hooks.reviveMembers m))

end

/-- The reader gives back what the writer wrote, with or without a line feed behind it. -/
def Library.Reads (lib : Library) (hooks : Hooks) (j : Json) : Prop :=
  ∀ text : String, octets text = j.dumps true ∨ octets text = j.dumps true++[0x0a] →
    lib.jsonLoads hooks text = hooks.revive j.readBack

/-- No text, and no part of one that ends early, is a value. -/
def Library.RefusesParts (lib : Library) (hooks : Hooks) (j : Json) : Prop :=
  ∀ part rest : List Char, j.text = part++rest → rest ≠ [] →
    lib.jsonLoads hooks (String.ofList part) = .error .jsonDecode

theorem pairsFrom_ok {checkKey : Bool} {seen m : List (String × Json)}
    (hn : ((seen++m).map (·.1)).Nodup) (hk : ∀ p ∈ m, isKey p.1 = true) :
    pairsFrom checkKey seen m = .ok (.obj (seen++m)) := by
  induction m generalizing seen with
  | nil => simp [pairsFrom]
  | cons p m ih =>
    obtain ⟨key,value⟩ := p
    have hfresh : Dict.get? seen key = none := by
      have hnot : key ∉ seen.map (·.1) := by
        intro hmem
        rw [List.map_append,List.nodup_append] at hn
        exact hn.2.2 key hmem key (by simp) rfl
      by_contra hsome
      exact hnot (Dict.isSome_get?_iff.mp (Option.isSome_iff_ne_none.mpr hsome))
    rw [pairsFrom,hfresh]
    have hrest := @ih (seen++[(key,value)]) (by simpa using hn) fun q hq => hk q (by simp [hq])
    rw [List.append_assoc] at hrest
    exact Runs.bind_ok.mpr ⟨(),by simp,Runs.bind_ok.mpr ⟨(),by simp [hk (key,value) (by simp)],hrest⟩⟩

end Checker

namespace Json

mutual

/-- The keys are of the key form, and there is no float. -/
def keyed : Json → Bool
  | .scalar _ => false
  | .list l => keyedItems l
  | .obj m => keyedMembers m
  | _ => true

def keyedItems : List Json → Bool
  | [] => true
  | a::as => a.keyed && keyedItems as

def keyedMembers : List (String × Json) → Bool
  | [] => true
  | (k,v)::m => Checker.isKey k && v.keyed && keyedMembers m

end

theorem keyedItems_iff {l : List Json} : keyedItems l = true ↔ ∀ a ∈ l, a.keyed = true := by
  induction l with
  | nil => simp [keyedItems]
  | cons a l ih => simp [keyedItems,ih]

theorem keyedMembers_iff {m : List (String × Json)} : keyedMembers m = true ↔
    ∀ p ∈ m, Checker.isKey p.1 = true ∧ p.2.keyed = true := by
  induction m with
  | nil => simp [keyedMembers]
  | cons p m ih => simp [keyedMembers,ih,and_assoc]

theorem distinct_readBack {j : Json} (h : j.distinct = true) : j.readBack.distinct = true := by
  induction j using nestedInduction with
  | list l ih =>
    rw [readBack_list,distinct_list]
    intro b hb
    obtain ⟨a,ha,rfl⟩ := List.mem_map.mp hb
    exact ih a ha (distinct_list.mp h a ha)
  | obj m ih =>
    obtain ⟨hn,hm⟩ := distinct_obj.mp h
    rw [readBack_obj,distinct_obj]
    refine ⟨((List.perm_insertionSort _ _).map _).nodup_iff.mpr (by rwa [List.map_map]),?_⟩
    intro p hp
    obtain ⟨q,hq,rfl⟩ := List.mem_map.mp ((List.mem_insertionSort _).mp hp)
    exact ih q hq (hm q hq)
  | _ => rfl

theorem keyed_readBack {j : Json} (h : j.keyed = true) : j.readBack.keyed = true := by
  induction j using nestedInduction with
  | list l ih =>
    rw [keyed,keyedItems_iff] at h
    rw [readBack_list,keyed,keyedItems_iff]
    intro b hb
    obtain ⟨a,ha,rfl⟩ := List.mem_map.mp hb
    exact ih a ha (h a ha)
  | obj m ih =>
    rw [keyed,keyedMembers_iff] at h
    rw [readBack_obj,keyed,keyedMembers_iff]
    intro p hp
    obtain ⟨q,hq,rfl⟩ := List.mem_map.mp ((List.mem_insertionSort _).mp hp)
    exact ⟨(h q hq).1,ih q hq (h q hq).2⟩
  | _ => exact h

end Json

namespace Checker

theorem reviveItems_ok {hooks : Hooks} {l : List Json} (h : ∀ a ∈ l, hooks.revive a = .ok a) :
    hooks.reviveItems l = .ok l := by
  induction l with
  | nil => rfl
  | cons a l ih =>
    rw [Hooks.reviveItems,h a (by simp),ih fun b hb => h b (by simp [hb])]
    rfl

theorem reviveMembers_ok {hooks : Hooks} {m : List (String × Json)}
    (h : ∀ p ∈ m, hooks.revive p.2 = .ok p.2) : hooks.reviveMembers m = .ok m := by
  induction m with
  | nil => rfl
  | cons p m ih =>
    rw [Hooks.reviveMembers,h p (by simp),ih fun q hq => h q (by simp [hq])]
    rfl

/-- The hooks of the certificate let such a value through as it is. -/
theorem revive_certificateHooks {j : Json} (hk : j.keyed = true) (hd : j.distinct = true) :
    certificateHooks.revive j = .ok j := by
  induction j using Json.nestedInduction with
  | list l ih =>
    rw [Json.keyed,Json.keyedItems_iff] at hk
    rw [Hooks.revive,reviveItems_ok fun a ha => ih a ha (hk a ha) (Json.distinct_list.mp hd a ha)]
    rfl
  | obj m ih =>
    rw [Json.keyed,Json.keyedMembers_iff] at hk
    obtain ⟨hn,hm⟩ := Json.distinct_obj.mp hd
    rw [Hooks.revive,reviveMembers_ok fun p hp => ih p hp (hk p hp).2 (hm p hp)]
    exact pairsFrom_ok hn fun p hp => (hk p hp).1
  | scalar s => cases hk
  | _ => rfl

theorem Library.Reads.value {lib : Library} {j : Json} (h : lib.Reads certificateHooks j)
    (hk : j.keyed = true) (hd : j.distinct = true) {text : String}
    (ht : octets text = j.dumps true ∨ octets text = j.dumps true++[0x0a]) :
    lib.jsonLoads certificateHooks text = .ok j.readBack := by
  rw [h text ht,revive_certificateHooks (Json.keyed_readBack hk) (Json.distinct_readBack hd)]

end Checker

end Spectra
