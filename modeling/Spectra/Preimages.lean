import Spectra.Agreement
import Spectra.Bundle

/-! The two encoders of the identifiers: the octets the emitter hashes for an event, a rule
instance and a licence, and those the checker rebuilds from what was published of them. -/
namespace Spectra

open Checker (Library sourcePrefix)

/-! ### Decimal texts -/

namespace Json

/-- The digits of a natural number as octets. -/
def digitOctets (n : ℕ) : Bytes := (Nat.toDigits 10 n).map fun c => UInt8.ofNat c.toNat

theorem digitOctets_step {n : ℕ} (h : 10 ≤ n) :
    digitOctets n = digitOctets (n/10)++digitOctets (n%10) := by
  have hd : Nat.toDigits 10 (n%10) = [(n%10).digitChar] :=
    Nat.toDigits_of_lt_base (Nat.mod_lt _ (by norm_num))
  simp only [digitOctets]
  rw [Nat.toDigits_of_base_le (by norm_num) h,hd,List.map_append]

/-- A small number is one digit. -/
theorem digitOctets_small {n : ℕ} (h : n < 10) : digitOctets n = [UInt8.ofNat (48+n)] := by
  interval_cases n <;> decide

theorem digitOctets_digits (n : ℕ) : (digitOctets n).all Checker.isDigit = true := by
  induction n using Nat.strong_induction_on with
  | _ n ih =>
    by_cases h : n < 10
    · rw [digitOctets_small h]
      interval_cases n <;> decide
    · rw [digitOctets_step (by omega),List.all_append,ih _ (by omega),ih _ (by omega)]
      rfl

theorem fromDigits_digitOctets (n : ℕ) :
    Checker.fromDigits 10 ((digitOctets n).map fun b => b.toNat-0x30) = n := by
  induction n using Nat.strong_induction_on with
  | _ n ih =>
    by_cases h : n < 10
    · rw [digitOctets_small h]
      interval_cases n <;> decide
    · have hq := ih (n/10) (by omega)
      rw [digitOctets_step (by omega),digitOctets_small (Nat.mod_lt n (by norm_num))]
      have hr : (UInt8.ofNat (48+n%10)).toNat-0x30 = n%10 := by
        rw [UInt8.toNat_ofNat']; omega
      simp only [Checker.fromDigits,List.map_append,List.foldl_append] at hq ⊢
      rw [hq,List.map_cons,List.map_nil,List.foldl_cons,List.foldl_nil,hr]
      omega

/-- No number but zero opens with the digit zero. -/
theorem digitOctets_head {n : ℕ} (h : n ≠ 0) :
    ∃ first rest, digitOctets n = first::rest ∧ first ≠ 0x30 := by
  induction n using Nat.strong_induction_on with
  | _ n ih =>
    by_cases hn : n < 10
    · rw [digitOctets_small hn]
      refine ⟨_,[],rfl,?_⟩
      interval_cases n <;> first | exact absurd rfl h | decide
    · obtain ⟨first,rest,hq,hne⟩ := ih (n/10) (by omega) (by omega)
      exact ⟨first,rest++digitOctets (n%10),by rw [digitOctets_step (by omega),hq]; rfl,hne⟩

theorem isNumeral_digitOctets (n : ℕ) : Checker.isNumeral (digitOctets n) = true := by
  have hd := digitOctets_digits n
  by_cases h : n = 0
  · subst h; decide
  · obtain ⟨first,rest,he,hne⟩ := digitOctets_head h
    rw [he] at hd ⊢
    simp [Checker.isNumeral,hd,hne]

theorem length_digitOctets {n : ℕ} (h : n < 10^20) : (digitOctets n).length ≤ 20 := by
  rw [digitOctets,List.length_map]
  exact (Nat.length_toDigits_le_iff (by norm_num) (by norm_num)).mpr h

end Json

namespace Checker

theorem decimalValue_digitOctets {n : ℕ} (h : n < 10^20) :
    decimalValue (Json.digitOctets n) = .ok n := by
  rw [decimalValue,if_neg (by have := Json.length_digitOctets h; omega),Json.fromDigits_digitOctets]

/-- The text of an integer reads back as the integer. -/
theorem intText_decimalText {n : ℤ} (h : n.natAbs < 10^20) :
    intText (.str (decimalText n)) = .ok n := by
  have hdigits : octets (decimalText n) = Json.decimal n := octets_asciiString _
  have hvalue := decimalValue_digitOctets h
  have hnum := Json.isNumeral_digitOctets n.natAbs
  have hne : ∀ rest, Json.digitOctets n.natAbs ≠ 0x2d::rest := by
    intro rest he
    have := Json.digitOctets_digits n.natAbs
    rw [he] at this
    cases this
  by_cases hn : n < 0
  · have hdec : Json.decimal n = 0x2d::Json.digitOctets n.natAbs := if_pos hn
    simp only [intText,hdigits,hdec]
    refine Runs.bind_ok.mpr ⟨(),require_ok.mpr hnum,Runs.bind_ok.mpr ⟨_,hvalue,?_⟩⟩
    exact congrArg _ (by omega)
  · have hdec : Json.decimal n = Json.digitOctets n.natAbs := if_neg hn
    simp only [intText,hdigits,hdec]
    refine Runs.bind_ok.mpr ⟨(),require_ok.mpr hnum,Runs.bind_ok.mpr ⟨_,hvalue,?_⟩⟩
    exact congrArg _ (by omega)

/-! ### Fields -/

theorem asciiField_str {s : String} {b : Bytes} (h : asciiText s = .ok b) :
    asciiField (.str s) = .ok (s,b) := by
  simp [asciiField,Json.str?,h,canonical,Except.mapError]

theorem utf8Field_str {lib : Library} {s : String} {b : Bytes} (h : lib.utf8Text s = .ok b) :
    lib.utf8Field (.str s) = .ok (s,b) := by
  unfold Library.utf8Text at h
  simp [Library.utf8Field,Json.str?,h,canonical,Except.mapError]

theorem i64Field_decimalText {n : ℤ} {b : Bytes} (h : i64 n = .ok b) :
    i64Field (.str (decimalText n)) = .ok (n,b) := by
  have hrange : n.natAbs < 10^20 := by
    unfold i64 at h
    split at h
    · norm_num at *; omega
    · cases h
  rw [i64Field,intText_decimalText hrange]
  simp [h,canonical,Except.mapError]

theorem u32Field_int {n : ℤ} {b : Bytes} (h : u32 n = .ok b) : u32Field (.int n) = .ok (n,b) := by
  simp [u32Field,Json.int?,h,canonical,Except.mapError]

theorem maskField_maskHex {mask : Mask} {b : Bytes} (h : u64 mask.toNat = .ok b) :
    maskField (.str (maskHex mask)) = .ok (mask,b) := by
  rw [maskField,maskText_maskHex]
  exact Runs.bind_ok.mpr ⟨mask,rfl,Runs.bind_ok.mpr ⟨b,canonical_ok.mpr h,rfl⟩⟩

end Checker

/-! ### Events -/

/-- Neighbours that differ make an ascending list strict. -/
theorem nodup_of_ascending {l : List Bytes} (hs : l.Pairwise (· ≤ ·)) (hn : l.IsChain (· ≠ ·)) :
    l.Nodup := by
  suffices l.Pairwise (· < ·) from this.imp fun {a b} h => fun he => List.lt_irrefl a (he ▸ h)
  induction l with
  | nil => exact .nil
  | cons a l ih =>
    rw [List.pairwise_cons] at hs
    refine List.pairwise_cons.mpr ⟨fun x hx => ?_,ih hs.2 hn.tail⟩
    cases l with
    | nil => cases hx
    | cons b l =>
      have hab : a < b := Std.lt_of_le_of_ne (hs.1 b (by simp)) (List.isChain_cons_cons.mp hn).1
      rcases List.mem_cons.mp hx with rfl | hx
      · exact hab
      · exact Std.lt_of_lt_of_le hab ((List.pairwise_cons.mp hs.2).1 x hx)

/-- Pairs sorted by keys that differ are the same list in whatever order they came. -/
theorem sortPairs_perm {l m : List (Bytes × Bytes)} (h : l.Perm m)
    (hn : ((l.insertionSort (·.1 ≤ ·.1)).map (·.1)).IsChain (· ≠ ·)) :
    m.insertionSort (·.1 ≤ ·.1) = l.insertionSort (·.1 ≤ ·.1) := by
  have hl := List.perm_insertionSort (·.1 ≤ ·.1 : Bytes × Bytes → Bytes × Bytes → Prop) l
  have hm := List.perm_insertionSort (·.1 ≤ ·.1 : Bytes × Bytes → Bytes × Bytes → Prop) m
  have hsl := List.pairwise_insertionSort (·.1 ≤ ·.1 : Bytes × Bytes → Bytes × Bytes → Prop) l
  have hsm := List.pairwise_insertionSort (·.1 ≤ ·.1 : Bytes × Bytes → Bytes × Bytes → Prop) m
  have hkeys := nodup_of_ascending (List.pairwise_map.mpr hsl) hn
  have hperm := hm.trans (h.symm.trans hl.symm)
  refine hperm.eq_of_pairwise ?_ hsm hsl
  intro p q hp hq hpq hqp
  exact List.inj_on_of_nodup_map hkeys (hperm.mem_iff.mp hp) hq (Std.le_antisymm hpq hqp)

namespace Checker

/-- The attributes encode to the same octets from an object, in whatever order it lists them. -/
theorem pairsField_perm {lib : Library} {attrs attrs' : List (String × String)} {b : Bytes}
    (hp : attrs'.Perm attrs) (h : lib.pairs attrs = .ok b) :
    lib.pairsField (attrs'.map fun p => (p.1,.str p.2)) = .ok b := by
  obtain ⟨encoded,he,h⟩ := Runs.bind_ok.mp h
  obtain ⟨_,hn,h⟩ := Runs.bind_ok.mp h
  obtain ⟨count,hcount,h⟩ := Runs.bind_ok.mp h
  have hn := ensure_ok.mp hn
  obtain ⟨encoded',he',hperm⟩ := List.perm_comp_forall₂ hp (mapM_ok.mp he)
  have hsort := sortPairs_perm hperm.symm hn
  refine Runs.bind_ok.mpr ⟨encoded',?_,?_⟩
  · rw [mapM_ok,List.forall₂_map_left_iff]
    refine he'.imp fun p q hq => ?_
    obtain ⟨key,hkey,hq⟩ := Runs.bind_ok.mp hq
    obtain ⟨value,hvalue,hq⟩ := Runs.bind_ok.mp hq
    refine Runs.bind_ok.mpr ⟨key,canonical_ok.mpr hkey,Runs.bind_ok.mpr ⟨(p.2,value),?_,?_⟩⟩
    · exact utf8Field_str hvalue
    · rw [← Runs.pure_ok.mp hq]; rfl
  · rw [hsort,if_pos hn]
    exact Runs.bind_ok.mpr ⟨count,canonical_ok.mpr hcount,by rw [Runs.pure_ok.mp h]; rfl⟩

end Checker

namespace BundleFields

/-- The members of a record's object. -/
def members (e : BundleFields) : List (String × Json) := [
  ("attrs",.obj (e.attrs.map fun p => (p.1,.str p.2))),("event_id",.str e.eventId),
  ("event_type",.str e.eventType),("seq",.int e.seq),("source_id",.str e.source),
  ("t_evt_ns",.str (Checker.decimalText e.tEvtNs)),("t_ing_ns",.str (Checker.decimalText e.tIngNs))]++
  match e.chainHash, e.chainPrev with
  | some hash, some prev => [("chain_hash",.str hash),("chain_prev",.str prev)]
  | _, _ => []

theorem bundleObj_eq (e : BundleFields) : e.bundleObj = .obj e.members := rfl

theorem nodup_members (e : BundleFields) : (e.members.map (·.1)).Nodup := by
  unfold members
  split <;> simp

theorem attrs_readBack (attrs : List (String × String)) :
    (Json.obj (attrs.map fun p => (p.1,.str p.2))).readBack =
      .obj ((attrs.insertionSort (·.1 ≤ ·.1)).map fun p => (p.1,.str p.2)) := by
  rw [Json.readBack_obj,List.map_map]
  exact congrArg Json.obj (Json.map_sortKeys Json.str attrs).symm

end BundleFields

theorem eventPreimage_bundleObj {lib : Library} {e : BundleRecord lib} {b : Bytes}
    (h : e.identityBytes lib = .ok b) : lib.eventPreimage e.bundleObj.readBack = .ok b := by
  simp only [BundleFields.identityBytes,Framing.concat_cons] at h
  obtain ⟨b₁,_,h₁,⟨b₂,_,h₂,⟨b₃,_,h₃,⟨b₄,_,h₄,⟨b₅,_,h₅,hnil,rfl⟩,rfl⟩,rfl⟩,rfl⟩,rfl⟩ := h
  obtain rfl := Except.ok.inj hnil
  have hitem : ∀ {k v}, Dict.get? e.members k = some v →
      e.bundleObj.readBack.item k = .ok v.readBack :=
    fun hv => Json.item_readBack e.nodup_members hv
  have hattrs : e.bundleObj.readBack.get "attrs" =
      .ok (some (.obj ((e.attrs.insertionSort (·.1 ≤ ·.1)).map fun p => (p.1,.str p.2)))) := by
    rw [BundleFields.bundleObj_eq,Json.readBack_obj,Json.get,Json.get?_readBack e.nodup_members,
      ← BundleFields.attrs_readBack]
    rfl
  have hsource := hitem (k := "source_id") (v := .str e.source) (by simp [BundleFields.members,Dict.get?])
  have htype := hitem (k := "event_type") (v := .str e.eventType)
    (by simp [BundleFields.members,Dict.get?])
  have hseq := hitem (k := "seq") (v := .int e.seq) (by simp [BundleFields.members,Dict.get?])
  have htime := hitem (k := "t_evt_ns") (v := .str (Checker.decimalText e.tEvtNs))
    (by simp [BundleFields.members,Dict.get?])
  have hpairs := Checker.pairsField_perm (List.perm_insertionSort (·.1 ≤ ·.1) e.attrs) h₁
  have hname : Checker.hasPrefix sourcePrefix e.source = false := isSnake_not_prefixed e.snake
  refine Runs.bind_ok.mpr ⟨_,hattrs,?_⟩
  refine Runs.bind_ok.mpr ⟨_,hsource,?_⟩
  refine Runs.bind_ok.mpr ⟨(),require_ok.mpr hname,?_⟩
  refine Runs.bind_ok.mpr ⟨_,hpairs,?_⟩
  refine Runs.bind_ok.mpr ⟨_,htype,Runs.bind_ok.mpr ⟨_,Checker.utf8Field_str h₂,?_⟩⟩
  refine Runs.bind_ok.mpr ⟨_,hseq,Runs.bind_ok.mpr ⟨_,Checker.u32Field_int h₃,?_⟩⟩
  refine Runs.bind_ok.mpr ⟨b₄,canonical_ok.mpr h₄,?_⟩
  refine Runs.bind_ok.mpr ⟨_,htime,Runs.bind_ok.mpr ⟨_,Checker.i64Field_decimalText h₅,?_⟩⟩
  simp

/-! ### Instances -/

/-- `EvidenceRef.canonical_bytes`. -/
def EvidenceRef.canonicalBytes (lib : Library) (e : EvidenceRef) : Fallible Bytes := Framing.concat [
  lib.utf8Text e.binding,asciiText e.eventId,asciiText e.sourceId,i64 e.tEvtNs]

namespace InstanceFields

variable (lib : Library) (i : InstanceFields)

/-- `RuleInstance.canonical_bytes`. -/
def canonicalBytes : Fallible Bytes := Framing.concat [
  orderedSeq (fun mask : Mask => u64 mask.toNat) i.blockers,orderedSeq asciiText i.body,
  orderedSeq (EvidenceRef.canonicalBytes lib) i.evidence,.ok (boolean i.ghost),asciiText i.head,
  asciiText i.instanceId,orderedSeq asciiText i.licenseIds,asciiText i.observed.text,
  asciiText i.ruleId,asciiText i.ruleVersion,u32 i.tick]

/-- `RuleInstance.identity_bytes`. -/
def identityBytes : Fallible Bytes := instancePayload i.ruleId i.head i.body i.evidence i.licenseIds

/-- `_instance_member`. -/
def member : Json := Checker.instanceMember i.published

end InstanceFields

theorem concat_ok {es : List (Fallible Bytes)} {r : Bytes} : Framing.concat es = .ok r ↔
    ∃ ps, List.Forall₂ (fun e p => e = .ok p) es ps ∧ r = ps.flatten := by
  induction es generalizing r with
  | nil =>
    constructor
    · intro h; exact ⟨[],.nil,(Except.ok.inj h).symm⟩
    · rintro ⟨_,(_ | _),rfl⟩; rfl
  | cons e es ih =>
    rw [Framing.concat_cons]
    constructor
    · rintro ⟨p,q,hp,hq,rfl⟩
      obtain ⟨ps,hps,rfl⟩ := ih.mp hq
      exact ⟨p::ps,.cons hp hps,rfl⟩
    · rintro ⟨_,(_ | ⟨hp,hps⟩),rfl⟩
      exact ⟨_,_,hp,ih.mpr ⟨_,hps,rfl⟩,rfl⟩

namespace Checker

/-- A sequence whose elements read back reads back. -/
theorem seqField_list {α : Type} {read : Json → Check (α × Bytes)} {encode : α → Fallible Bytes}
    {f : α → Json} {l : List α} (hread : ∀ a b, encode a = .ok b → read (f a) = .ok (a,b)) {b : Bytes}
    (h : orderedSeq encode l = .ok b) : seqField read (.list (l.map f)) = .ok (l,b) := by
  obtain ⟨ps,hps,rfl⟩ := concat_ok.mp h
  obtain ⟨count,parts,hcount,hmapped,rfl⟩ := List.forall₂_cons_left_iff.mp hps
  have hparts := List.forall₂_map_left_iff.mp hmapped
  have hitems : (l.map f).mapM read = .ok (l.zip parts) := by
    rw [mapM_ok,List.forall₂_map_left_iff]
    clear hps hcount h hmapped
    induction hparts with
    | nil => exact .nil
    | cons hab _ ih => exact .cons (hread _ _ hab) ih
  have hlength := hparts.length_eq
  have hfst : (l.zip parts).map (·.1) = l := List.map_fst_zip (by omega)
  have hsnd : (l.zip parts).map (·.2) = parts := List.map_snd_zip (by omega)
  have hbytes : orderedSeq (α := Bytes) .ok parts = .ok (count::parts).flatten := by
    refine concat_ok.mpr ⟨count::parts,.cons (by rw [← hlength]; exact hcount) ?_,rfl⟩
    exact List.forall₂_map_left_iff.mpr (List.forall₂_same.mpr fun _ _ => rfl)
  refine Runs.bind_ok.mpr ⟨l.map f,rfl,Runs.bind_ok.mpr ⟨l.zip parts,hitems,?_⟩⟩
  rw [hsnd,hfst]
  exact Runs.bind_ok.mpr ⟨_,canonical_ok.mpr hbytes,rfl⟩

theorem texts_readBack (l : List String) : (texts l).readBack = texts l := by
  rw [texts,Json.readBack_list,List.map_map]
  rfl

theorem evidenceField_member {lib : Library} {e : EvidenceRef} {b : Bytes}
    (h : e.canonicalBytes lib = .ok b) :
    lib.evidenceField (evidenceMember e).readBack = .ok (e,b) := by
  simp only [EvidenceRef.canonicalBytes,Framing.concat_cons] at h
  obtain ⟨b₁,_,h₁,⟨b₂,_,h₂,⟨b₃,_,h₃,⟨b₄,_,h₄,hnil,rfl⟩,rfl⟩,rfl⟩,rfl⟩ := h
  obtain rfl := Except.ok.inj hnil
  have hitem : ∀ {key v}, (evidenceMember e).item key = .ok v →
      (evidenceMember e).readBack.item key = .ok v.readBack := by
    intro key v hv
    obtain ⟨m,hm,hv⟩ := Json.item_ok.mp hv
    cases hm
    exact Json.item_readBack (by simp) hv
  refine Runs.bind_ok.mpr ⟨_,hitem (v := .str e.binding) (by rfl),?_⟩
  refine Runs.bind_ok.mpr ⟨_,utf8Field_str h₁,?_⟩
  refine Runs.bind_ok.mpr ⟨_,hitem (v := .str e.eventId) (by rfl),?_⟩
  refine Runs.bind_ok.mpr ⟨_,asciiField_str h₂,?_⟩
  refine Runs.bind_ok.mpr ⟨_,hitem (v := .str e.sourceId) (by rfl),?_⟩
  refine Runs.bind_ok.mpr ⟨_,asciiField_str h₃,?_⟩
  refine Runs.bind_ok.mpr ⟨_,hitem (v := .str (decimalText e.tEvtNs)) (by rfl),?_⟩
  refine Runs.bind_ok.mpr ⟨_,i64Field_decimalText h₄,?_⟩
  simp

end Checker

theorem instanceCanonical_member {lib : Library} {i : InstanceFields} {b : Bytes}
    (h : i.canonicalBytes lib = .ok b) :
    lib.instanceCanonical i.member.readBack = .ok (i.published,b) := by
  simp only [InstanceFields.canonicalBytes,Framing.concat_cons] at h
  obtain ⟨b₁,_,h₁,⟨b₂,_,h₂,⟨b₃,_,h₃,⟨b₄,_,h₄,⟨b₅,_,h₅,⟨b₆,_,h₆,⟨b₇,_,h₇,⟨b₈,_,h₈,⟨b₉,_,h₉,
    ⟨b₁₀,_,h₁₀,⟨b₁₁,_,h₁₁,hnil,rfl⟩,rfl⟩,rfl⟩,rfl⟩,rfl⟩,rfl⟩,rfl⟩,rfl⟩,rfl⟩,rfl⟩,rfl⟩ := h
  obtain rfl := Except.ok.inj hnil
  obtain rfl := Except.ok.inj h₄
  have hitem : ∀ {key v}, i.member.item key = .ok v → i.member.readBack.item key = .ok v.readBack := by
    intro key v hv
    obtain ⟨m,hm,hv⟩ := Json.item_ok.mp hv
    cases hm
    exact Json.item_readBack (by simp) hv
  have htexts : ∀ {key l}, i.member.item key = .ok (Checker.texts l) →
      i.member.readBack.item key = .ok (Checker.texts l) := by
    intro key l hl
    rw [hitem hl,Checker.texts_readBack]
  have hevidence : i.member.readBack.item "evidence" =
      .ok (.list (i.evidence.map fun e => (Checker.evidenceMember e).readBack)) := by
    rw [hitem (v := .list (i.evidence.map Checker.evidenceMember)) rfl,Json.readBack_list,List.map_map]
    rfl
  have hmasks : Checker.seqField Checker.maskField (Checker.texts (i.blockers.map Checker.maskHex)) =
      .ok (i.blockers,b₁) := by
    rw [Checker.texts,List.map_map]
    exact Checker.seqField_list (fun _ _ => Checker.maskField_maskHex) h₁
  refine Runs.bind_ok.mpr ⟨_,htexts (l := i.blockers.map Checker.maskHex) rfl,?_⟩
  refine Runs.bind_ok.mpr ⟨_,hmasks,?_⟩
  refine Runs.bind_ok.mpr ⟨_,htexts (l := i.body) rfl,?_⟩
  refine Runs.bind_ok.mpr ⟨_,Checker.seqField_list (fun _ _ => Checker.asciiField_str) h₂,?_⟩
  refine Runs.bind_ok.mpr ⟨_,hevidence,?_⟩
  refine Runs.bind_ok.mpr ⟨_,Checker.seqField_list (fun _ _ => Checker.evidenceField_member) h₃,?_⟩
  refine Runs.bind_ok.mpr ⟨_,hitem (v := .bool i.ghost) rfl,Runs.bind_ok.mpr ⟨_,rfl,?_⟩⟩
  refine Runs.bind_ok.mpr ⟨_,hitem (v := .str i.head) rfl,?_⟩
  refine Runs.bind_ok.mpr ⟨_,Checker.asciiField_str h₅,?_⟩
  refine Runs.bind_ok.mpr ⟨_,hitem (v := .str i.instanceId) rfl,?_⟩
  refine Runs.bind_ok.mpr ⟨_,Checker.asciiField_str h₆,?_⟩
  refine Runs.bind_ok.mpr ⟨_,htexts (l := i.licenseIds) rfl,?_⟩
  refine Runs.bind_ok.mpr ⟨_,Checker.seqField_list (fun _ _ => Checker.asciiField_str) h₇,?_⟩
  refine Runs.bind_ok.mpr ⟨_,hitem (v := .str i.observed.text) rfl,?_⟩
  refine Runs.bind_ok.mpr ⟨_,Checker.asciiField_str h₈,?_⟩
  refine Runs.bind_ok.mpr ⟨_,hitem (v := .str i.ruleId) rfl,?_⟩
  refine Runs.bind_ok.mpr ⟨_,Checker.asciiField_str h₉,?_⟩
  refine Runs.bind_ok.mpr ⟨_,hitem (v := .str i.ruleVersion) rfl,?_⟩
  refine Runs.bind_ok.mpr ⟨_,Checker.asciiField_str h₁₀,?_⟩
  refine Runs.bind_ok.mpr ⟨_,hitem (v := .int i.tick) rfl,?_⟩
  refine Runs.bind_ok.mpr ⟨_,Checker.u32Field_int h₁₁,?_⟩
  simp [InstanceFields.published]

/-- The identifier's octets are rebuilt from the published fields. -/
theorem instancePreimage_published (i : InstanceFields) :
    Checker.instancePreimage i.published = i.identityBytes := rfl

/-! ### Licences -/

namespace LicenceFields

variable (lib : Library) (l : LicenceFields)

/-- `Licence.identity_bytes`. -/
def identityBytes : Fallible Bytes := Framing.concat [
  asciiText l.basis.text,lib.utf8Text l.reason,asciiText l.sourceId,i64 l.t0Ns,i64 l.t1Ns]

/-- `_licence_member`: the witness is left out when it is empty. -/
def member : Json := .obj ([("basis",.str l.basis.text),("license_id",.str l.licenseId),
  ("reason",.str l.reason),("source_id",.str l.sourceId),("t0_ns",.str (Checker.decimalText l.t0Ns)),
  ("t1_ns",.str (Checker.decimalText l.t1Ns))]++
    if l.witness = [] then [] else [("witness",Checker.texts l.witness)])

end LicenceFields

theorem licencePreimage_member {lib : Library} {l : LicenceFields} {b : Bytes}
    (h : l.identityBytes lib = .ok b) : lib.licencePreimage l.member.readBack =
      .ok ((l.basis.text,l.reason,l.sourceId,l.t0Ns,l.t1Ns),b) := by
  simp only [LicenceFields.identityBytes,Framing.concat_cons] at h
  obtain ⟨b₁,_,h₁,⟨b₂,_,h₂,⟨b₃,_,h₃,⟨b₄,_,h₄,⟨b₅,_,h₅,hnil,rfl⟩,rfl⟩,rfl⟩,rfl⟩,rfl⟩ := h
  obtain rfl := Except.ok.inj hnil
  have hitem : ∀ {key v}, l.member.item key = .ok v → l.member.readBack.item key = .ok v.readBack := by
    intro key v hv
    obtain ⟨m,hm,hv⟩ := Json.item_ok.mp hv
    cases hm
    refine Json.item_readBack ?_ hv
    split <;> simp
  refine Runs.bind_ok.mpr ⟨_,hitem (v := .str l.basis.text) rfl,?_⟩
  refine Runs.bind_ok.mpr ⟨_,Checker.asciiField_str h₁,?_⟩
  refine Runs.bind_ok.mpr ⟨_,hitem (v := .str l.reason) rfl,?_⟩
  refine Runs.bind_ok.mpr ⟨_,Checker.utf8Field_str h₂,?_⟩
  refine Runs.bind_ok.mpr ⟨_,hitem (v := .str l.sourceId) rfl,?_⟩
  refine Runs.bind_ok.mpr ⟨_,Checker.asciiField_str h₃,?_⟩
  refine Runs.bind_ok.mpr ⟨_,hitem (v := .str (Checker.decimalText l.t0Ns)) rfl,?_⟩
  refine Runs.bind_ok.mpr ⟨_,Checker.i64Field_decimalText h₄,?_⟩
  refine Runs.bind_ok.mpr ⟨_,hitem (v := .str (Checker.decimalText l.t1Ns)) rfl,?_⟩
  refine Runs.bind_ok.mpr ⟨_,Checker.i64Field_decimalText h₅,?_⟩
  simp

/-- On a reason in normal form, these are the octets a licence is minted from. -/
theorem LicenceFields.identityBytes_eq {lib : Library} {l : LicenceFields}
    (hn : lib.normalize l.reason = l.reason) {interval : Interval} (h₀ : interval.t0Ns = l.t0Ns)
    (h₁ : interval.t1Ns = l.t1Ns) :
    l.identityBytes lib = licencePayload l.basis l.reason l.sourceId interval := by
  rw [identityBytes,Library.utf8Text,hn,licencePayload,h₀,h₁]

/-! ### Agreement -/

/-- From what was published of an event, an instance or a licence and read back, the checker
rebuilds the octets the emitter took its digests of. -/
theorem preimages_agree (lib : Library) :
    (∀ (e : BundleRecord lib) b, e.identityBytes lib = .ok b →
      lib.eventPreimage e.bundleObj.readBack = .ok b) ∧
    (∀ (i : RuleInstance) b, i.canonicalBytes lib = .ok b →
      lib.instanceCanonical i.member.readBack = .ok (i.published,b) ∧
        Checker.instancePreimage i.published = i.identityBytes) ∧
    (∀ (l : Licence) b, l.identityBytes lib = .ok b →
      ∃ fields, lib.licencePreimage l.member.readBack = .ok (fields,b)) :=
  ⟨fun _ _ h => eventPreimage_bundleObj h,
    fun i _ h => ⟨instanceCanonical_member h,instancePreimage_published i.toInstanceFields⟩,
    fun _ _ h => ⟨_,licencePreimage_member h⟩⟩

def sentRecord : BundleRecord (Checker.standard [] []) :=
  ⟨⟨"ev:1","rc:1","iam_audit",3,"login",5,5,[("host","web"),("user","ada")],none,none⟩,
    by decide⟩

def sentInstance : RuleInstance :=
  ⟨⟨"in:1","rl:login","1","fh:a",["fh:b"],[4],.observed,0,[⟨"login","ev:1","src:iam_audit",5⟩],[],
    false⟩,by decide⟩

def sentLicence : Licence :=
  ⟨⟨"lic:1","src:iam_audit",-5,5,.suppressed,"a gap",["ev:1","ev:2"]⟩,by decide⟩

theorem preimages_agree_sent : (∃ b, sentRecord.identityBytes (Checker.standard [] []) = .ok b ∧
      (Checker.standard [] []).eventPreimage sentRecord.bundleObj.readBack = .ok b) ∧
    (∃ b, sentInstance.canonicalBytes (Checker.standard [] []) = .ok b ∧
      (Checker.standard [] []).instanceCanonical sentInstance.member.readBack =
        .ok (sentInstance.published,b)) ∧
    (∃ b, sentLicence.identityBytes (Checker.standard [] []) = .ok b ∧
      ∃ fields, (Checker.standard [] []).licencePreimage sentLicence.member.readBack = .ok (fields,b)) := by
  have hrecord := valueOf_ok (sentRecord.identityBytes (Checker.standard [] [])) (by decide)
  have hinstance := valueOf_ok (sentInstance.canonicalBytes (Checker.standard [] [])) (by decide)
  have hlicence := valueOf_ok (sentLicence.identityBytes (Checker.standard [] [])) (by decide)
  exact ⟨⟨_,hrecord,(preimages_agree _).1 _ _ hrecord⟩,
    ⟨_,hinstance,((preimages_agree _).2.1 _ _ hinstance).1⟩,
    ⟨_,hlicence,(preimages_agree _).2.2 _ _ hlicence⟩⟩

end Spectra
