import Spectra.Candidates
import Spectra.EventWidths
import Spectra.IdentityBytes

/-! Sealing goes through: what a line was admitted as is encoded, chained and written, unless one of
its fields is longer than a length prefix counts, which is a `LimitError`. -/
namespace Spectra

open Checker (Library sourcePrefix)

/-! ### Limits -/

/-- Nothing is raised but for a limit. -/
abbrev AtMostLimit {α : Type} (x : Fallible α) : Prop := Runs.OnlyRaises (·.type = .limitError) x

theorem concat_atMostLimit {es : List (Fallible Bytes)} (h : ∀ x ∈ es, AtMostLimit x) :
    AtMostLimit (Framing.concat es) := by
  induction es with
  | nil => exact .ok _
  | cons x es ih =>
    intro e he
    simp only [Framing.concat] at he
    split at he
    · exact h _ List.mem_cons_self e he
    · split at he
      · rename_i err hrest
        exact ih (fun y hy => h y (by simp [hy])) e (by rw [hrest,Except.error.inj he])
      · cases he

theorem blob_atMostLimit (value : Bytes) : AtMostLimit (blob value) := by
  refine concat_atMostLimit fun x hx => ?_
  simp only [List.mem_cons,List.not_mem_nil,or_false] at hx
  rcases hx with rfl | rfl
  · intro e he
    unfold lengthCode at he
    split at he
    · rw [← Except.error.inj he]
      rfl
    · rename_i hshort
      have hcode : AtMostLimit (u32 value.length) := .of_exists (uint_returns (by norm_num; omega))
      exact hcode e he
  · exact .of_ok rfl

theorem asciiText_atMostLimit {s : String} (h : (octets s).all (· < 128) = true) :
    AtMostLimit (asciiText s) := by
  rw [asciiText,if_pos h]
  exact blob_atMostLimit _

theorem utf8Text_atMostLimit {lib : Library} {s : String} (h : lib.Normal s) :
    AtMostLimit (lib.utf8Text s) := by
  rw [Library.utf8Text,h.eq,utf8Text,h.nfc]
  exact blob_atMostLimit _

/-! ### Keys -/

/-- A text of printable ASCII octets. -/
def Printed (s : String) : Prop := (octets s).all (· < 128) = true ∧
  ¬(octets s).any (fun b => b < 0x20 || b = 0x7f) = true

theorem printed_of {s : String} (h : ∀ b ∈ octets s, 0x20 ≤ b.toNat ∧ b.toNat < 0x7f) : Printed s := by
  constructor
  · refine List.all_eq_true.mpr fun b hb => decide_eq_true (UInt8.lt_iff_toNat_lt.mpr ?_)
    exact (h b hb).2.trans (by decide)
  · intro hany
    obtain ⟨b,hb,hbad⟩ := List.any_eq_true.mp hany
    obtain ⟨hlow,hhigh⟩ := h b hb
    rcases Bool.or_eq_true_iff.mp hbad with hbad | hbad
    · have hlt : b.toNat < 32 := UInt8.lt_iff_toNat_lt.mp (of_decide_eq_true hbad)
      omega
    · rw [of_decide_eq_true hbad] at hhigh
      exact absurd hhigh (by decide)

theorem printed_isKey {s : String} (h : Checker.isKey s = true) : Printed s := by
  unfold Checker.isKey at h
  simp only [Bool.and_eq_true,List.all_eq_true] at h
  refine printed_of fun b hb => ?_
  have hkey := h.2 b hb
  simp only [Bool.or_eq_true,Bool.and_eq_true,decide_eq_true_eq] at hkey
  rcases hkey with (⟨h₁,h₂⟩ | ⟨h₁,h₂⟩) | rfl
  · rw [UInt8.le_iff_toNat_le] at h₁ h₂
    change 97 ≤ _ at h₁; change _ ≤ 122 at h₂
    omega
  · rw [UInt8.le_iff_toNat_le] at h₁ h₂
    change 48 ≤ _ at h₁; change _ ≤ 57 at h₂
    omega
  · decide

theorem map_lt_map {α β : Type} [LT α] [LT β] {f : α → β} {l m : List α}
    (h : ∀ a ∈ l, ∀ b ∈ m, a < b → f a < f b) (hlt : l < m) : l.map f < m.map f := by
  induction hlt with
  | nil => exact .nil
  | cons _ ih => exact .cons (ih fun a ha b hb => h a (by simp [ha]) b (by simp [hb]))
  | rel hab => exact .rel (h _ (by simp) _ (by simp) hab)

theorem chars_ascii {s : String} (h : (octets s).all (· < 128) = true) : ∀ c ∈ s.toList, c.toNat < 128 := by
  intro c hc
  by_contra hn
  obtain ⟨b,rest,hb⟩ := List.exists_cons_of_ne_nil (String.utf8EncodeChar_ne_nil (c := c))
  have hm : b ∈ String.utf8EncodeChar c := by rw [hb]; exact List.mem_cons_self
  have hlow : b < 128 := by
    rw [octets_eq] at h
    simpa using List.all_eq_true.mp h b (List.mem_flatMap.mpr ⟨c,hc,hm⟩)
  have hhigh := utf8EncodeChar_high (not_lt.mp hn) b hm
  exact absurd (UInt8.lt_iff_toNat_lt.mp hlow) (not_lt.mpr hhigh)

/-- The octets of ASCII texts are in the order of the texts. -/
theorem octets_lt {s t : String} (hs : (octets s).all (· < 128) = true) (ht : (octets t).all (· < 128) = true)
    (h : s < t) : octets s < octets t := by
  rw [octets_ascii (chars_ascii hs),octets_ascii (chars_ascii ht)]
  refine map_lt_map (fun a ha b hb hab => ?_) (String.lt_iff_toList_lt.mp h)
  have hlt : a.toNat < b.toNat := hab
  have := chars_ascii hs a ha
  have := chars_ascii ht b hb
  rw [UInt8.lt_iff_toNat_lt,UInt8.toNat_ofNat',UInt8.toNat_ofNat']
  omega

/-! ### Candidates -/

/-- What sealing asks of a candidate. -/
structure Candidate.Sealable (lib : Library) (declared : List (String × DeclaredSource)) (c : Candidate) :
    Prop where
  source : isSnake c.source = true
  declared : (Dict.get? declared c.source).isSome
  seq : 0 ≤ c.seq ∧ c.seq < 2^32
  tEvtNs : IsNanos c.tEvtNs
  eventType : lib.Normal c.eventType
  few : c.attrs.length < 2^32
  keys : ∀ p ∈ c.attrs, Checker.isKey p.1 = true
  values : ∀ p ∈ c.attrs, lib.Normal p.2
  ascending : (c.attrs.map (·.1)).Pairwise (· < ·)

/-- The library as ingest relies on it: NFC leaves ASCII alone, a digest is written in lowercase
hexadecimal, two digits for an octet, and the hook sees every object that is read. -/
structure Runtime.Documented (rt : Runtime) : Prop where
  ascii : rt.KeepsAscii
  hex : ∀ kind payload, ∀ n ∈ [16,32], ∃ digits,
    Checker.hexDigits (octets (rt.digestHex kind payload n)) = some digits ∧ digits.length = 2*n
  hooked : ∀ text j, rt.jsonLoads ingestHooks text = .ok j → j.distinct = true

theorem declaredSources_keys {sources : List DeclaredSource} {declared : List (String × DeclaredSource)}
    (h : declaredSources sources = .ok declared) : ∀ p ∈ declared, p.1 = p.2.source := by
  refine Runs.foldlM_inv (P := fun table : List (String × DeclaredSource) => ∀ p ∈ table, p.1 = p.2.source)
    (fun table source next _ htable hstep => ?_) (by simp) h
  split at hstep
  · cases hstep
  · rw [← Except.ok.inj hstep]
    intro p hp
    rcases List.mem_append.mp hp with hp | hp
    · exact htable p hp
    · rw [List.mem_singleton.mp hp]

section

variable {rt : Runtime} {limits : IngestLimits} {declared : List (String × DeclaredSource)}

/-- Admitted attributes are all texts. -/
theorem attrTexts_admitted {attrs : List (String × Json)} (h : ∀ p ∈ attrs, AttrAdmitted rt limits p) :
    (attrTexts attrs).map (·.1) = attrs.map (·.1) ∧
      ∀ q ∈ attrTexts attrs, Checker.isKey q.1 = true ∧ rt.Normal q.2 := by
  induction attrs with
  | nil => simp [attrTexts]
  | cons p attrs ih =>
    obtain ⟨hp,h⟩ := List.forall_mem_cons.mp h
    obtain ⟨hkeys,hall⟩ := ih h
    obtain ⟨value,hvalue,-,-,hnormal⟩ := hp.value
    have hcons : attrTexts (p::attrs) = (p.1,value)::attrTexts attrs := by
      simp [attrTexts,hvalue,Json.str?]
    rw [hcons]
    exact ⟨by rw [List.map_cons,List.map_cons,hkeys],List.forall_mem_cons.mpr ⟨⟨hp.key,hnormal⟩,hall⟩⟩

theorem LineAdmitted.sealable (hrt : rt.Documented) (hlimits : limits.maxAttrs < 2^32)
    (hdeclared : ∀ p ∈ declared, p.1 = p.2.source) {line : Bytes} {c : Candidate}
    (h : LineAdmitted rt limits declared line c) : c.Sealable rt.toLibrary declared := by
  obtain ⟨parsed,source,hloaded,hof,hadmitted⟩ := h
  obtain ⟨name,-,hsnake,hsource⟩ := hof.named
  have hname : c.source = name := hadmitted.sourceName.trans (hdeclared _ (Dict.get?_mem hsource)).symm
  obtain ⟨attrs,hattributed,hattrs,hsorted⟩ := hadmitted.attrs
  obtain ⟨hkeys,htexts⟩ := attrTexts_admitted hattrs
  have hperm : c.attrs.Perm (attrTexts attrs) := hsorted ▸ List.perm_insertionSort _ _
  obtain ⟨text,-,hparsed⟩ := hloaded.spells
  have hdistinct : (attrs.map (·.1)).Nodup := by
    have hobj := (Json.distinct_obj.mp (hrt.hooked _ _ hparsed)).2 _ (Dict.get?_mem hattributed.member)
    exact (Json.distinct_obj.mp hobj).1
  refine ⟨hname ▸ hsnake,?_,hadmitted.sequenced.range,hadmitted.timed.range,hadmitted.typed.normal,?_,
    fun p hp => (htexts p (hperm.mem_iff.mp hp)).1,fun p hp => (htexts p (hperm.mem_iff.mp hp)).2,?_⟩
  · rw [hname,hsource]
    rfl
  · have hlength := congrArg List.length hkeys
    rw [List.length_map,List.length_map] at hlength
    rw [hperm.length_eq,hlength]
    exact lt_of_le_of_lt hattributed.few hlimits
  · have hle : c.attrs.Pairwise (·.1 ≤ ·.1) := hsorted ▸ List.pairwise_insertionSort _ _
    have hn : (c.attrs.map (·.1)).Nodup := (hperm.map _).nodup_iff.mpr (hkeys ▸ hdistinct)
    exact (List.pairwise_map.mpr hle).imp₂ (fun _ _ h hne => lt_of_le_of_ne h hne) hn

end

/-! ### Records -/

section

variable {lib : Library} {declared : List (String × DeclaredSource)}

theorem Printed.byteOrderKey (ha : lib.KeepsAscii) {key : String} (h : Printed key) :
    lib.byteOrderKey key = .ok (octets key) := by
  refine Runs.bind_ok.mpr ⟨key,?_,rfl⟩
  rw [ha key h.1,nfc,if_neg h.2]

theorem checkKeys_returns (ha : lib.KeepsAscii) {loc : String} {index : ℕ} {previous : Option Bytes}
    {keys : List String} (hk : ∀ key ∈ keys, Printed key) (hp : keys.Pairwise (· < ·))
    (hprevious : ∀ p ∈ previous, ∀ key ∈ keys, p < octets key) :
    lib.checkKeys loc index previous keys = .ok () := by
  induction keys generalizing index previous with
  | nil => rfl
  | cons key keys ih =>
    obtain ⟨hkey,hk⟩ := List.forall_mem_cons.mp hk
    obtain ⟨hfirst,hp⟩ := List.pairwise_cons.mp hp
    refine Runs.bind_ok.mpr ⟨octets key,hkey.byteOrderKey ha,Runs.bind_ok.mpr ⟨(),ensure_ok.mpr ?_,?_⟩⟩
    · cases previous with
      | none => rfl
      | some p => simpa using hprevious p rfl key (by simp)
    · refine ih hk hp fun p hpk other hother => ?_
      obtain rfl := Option.some.inj hpk
      exact octets_lt hkey.1 (hk other hother).1 (hfirst other hother)

/-- The fields of a sealable candidate are a record's. -/
theorem postInit_sealable (ha : lib.KeepsAscii) {e : BundleFields} (h : e.candidate.Sealable lib declared)
    (hing : IsNanos e.tIngNs) (hpair : e.chainHash.isSome = e.chainPrev.isSome)
    (hrefs : ∀ v ∈ e.chainHash.toList++e.chainPrev.toList, ∃ b, parseHashRef v = .ok b) :
    e.postInit lib = .ok () := by
  have hkeys : lib.checkKeys "CanonicalEvent.attrs" 0 none (e.attrs.map (·.1)) = .ok () := by
    refine checkKeys_returns ha (fun key hkey => ?_) h.ascending (by simp)
    obtain ⟨p,hp,rfl⟩ := List.mem_map.mp hkey
    exact printed_isKey (h.keys p hp)
  have hchain : checks ((e.chainHash.toList++e.chainPrev.toList).map fun value =>
      (parseHashRef value).map fun _ => ()) = .ok () := by
    refine checks_map.mpr fun v hv => ?_
    obtain ⟨b,hb⟩ := hrefs v hv
    rw [hb]
    rfl
  simp only [BundleFields.postInit,checks_cons,ensure_ok,checks_nil,and_true]
  exact ⟨h.source,h.seq,ensure_ok.mpr h.tEvtNs,ensure_ok.mpr hing,hkeys,hpair,hchain⟩

theorem encodePair_atMostLimit {p : String × String} (hk : Checker.isKey p.1 = true) (hv : lib.Normal p.2) :
    AtMostLimit (lib.encodePair p) := by
  refine .bind ?_ fun _ _ => (utf8Text_atMostLimit hv).bind fun _ _ => .of_ok rfl
  rw [Library.encodeKey,if_pos (printed_isKey hk).1]
  exact asciiText_atMostLimit (printed_isKey hk).1

theorem encodePair_key {p : String × String} {q : Bytes × Bytes} (hk : Checker.isKey p.1 = true)
    (h : lib.encodePair p = .ok q) : asciiText p.1 = .ok q.1 := by
  obtain ⟨key,hkey,h⟩ := Runs.bind_ok.mp h
  obtain ⟨_,-,h⟩ := Runs.bind_ok.mp h
  rw [Library.encodeKey,if_pos (printed_isKey hk).1] at hkey
  rw [← Runs.pure_ok.mp h]
  exact hkey

/-- Different keys are encoded to different octets. -/
theorem encodedKeys_nodup {attrs : List (String × String)} {encoded : List (Bytes × Bytes)}
    (hf : List.Forall₂ (fun p q => lib.encodePair p = .ok q) attrs encoded)
    (hk : ∀ p ∈ attrs, Checker.isKey p.1 = true) (hn : (attrs.map (·.1)).Nodup) :
    (encoded.map (·.1)).Nodup := by
  induction hf with
  | nil => exact .nil
  | @cons p q attrs encoded hpq hf ih =>
    obtain ⟨hp,hk⟩ := List.forall_mem_cons.mp hk
    obtain ⟨hfresh,hn⟩ := List.nodup_cons.mp hn
    refine List.nodup_cons.mpr ⟨fun hmem => ?_,ih hk hn⟩
    obtain ⟨q',hq',heq⟩ := List.mem_map.mp hmem
    obtain ⟨p',hp',hpq'⟩ := (forall₂_mem hf).2 q' hq'
    have hkey := encodePair_key (hk p' hp') hpq'
    rw [heq] at hkey
    have hsame : p'.1 = p.1 := asciiText_selfDelimiting.eq hkey (encodePair_key hp hpq)
    exact hfresh (List.mem_map.mpr ⟨p',hp',hsame⟩)

theorem pairs_atMostLimit {attrs : List (String × String)}
    (hk : ∀ p ∈ attrs, Checker.isKey p.1 = true) (hv : ∀ p ∈ attrs, lib.Normal p.2)
    (hn : (attrs.map (·.1)).Nodup) (hfew : attrs.length < 2^32) : AtMostLimit (lib.pairs attrs) := by
  refine .bind (.mapM fun p hp => encodePair_atMostLimit (hk p hp) (hv p hp)) fun encoded he => ?_
  have hf := mapM_ok.mp he
  have hdistinct : ((sortedPairs encoded).map (·.1)).Nodup :=
    ((List.perm_insertionSort _ _).map _).nodup_iff.mpr (encodedKeys_nodup hf hk hn)
  refine .bind (.of_ok (ensure_ok.mpr ?_)) fun _ _ => .bind (.of_exists (uint_returns ?_)) fun _ _ => .of_ok rfl
  · exact List.Pairwise.isChain hdistinct
  · have hlength : (sortedPairs encoded).length = attrs.length :=
      (List.perm_insertionSort _ _).length_eq.trans hf.length_eq.symm
    change 0 ≤ ((sortedPairs encoded).length : ℤ) ∧ ((sortedPairs encoded).length : ℤ) < 256^4
    rw [hlength]
    norm_num
    omega

theorem identityBytes_atMostLimit {e : BundleFields}
    (h : e.candidate.Sealable lib declared) : AtMostLimit (e.identityBytes lib) := by
  refine concat_atMostLimit fun x hx => ?_
  simp only [List.mem_cons,List.not_mem_nil,or_false] at hx
  rcases hx with rfl | rfl | rfl | rfl | rfl
  · exact pairs_atMostLimit h.keys h.values (h.ascending.imp ne_of_lt) h.few
  · exact utf8Text_atMostLimit h.eventType
  · exact .of_exists (uint_returns (by have := h.seq; norm_num at this ⊢; exact this))
  · exact .of_exists (sourceId_encodes h.source)
  · exact .of_exists (i64_returns h.tEvtNs)

/-! ### Hashes -/

variable {rt : Runtime}

theorem hashRef_parses (hrt : rt.Documented) (kind : String) (payload : Bytes) :
    ∃ b, parseHashRef (rt.hashRef kind payload) = .ok b := by
  obtain ⟨digits,hdigits,hlength⟩ := hrt.hex kind payload 32 (by simp)
  have hopen : Checker.hashRefPrefix.length = (octets Checker.hashRefPrefix).length := by decide
  have hhead : Checker.hasPrefix Checker.hashRefPrefix (rt.hashRef kind payload) = true := by
    rw [Checker.hasPrefix,Library.hashRef,Checker.octets_append]
    exact List.isPrefixOf_iff_prefix.mpr (List.prefix_append _ _)
  refine ⟨fromHex digits,?_⟩
  rw [parseHashRef,if_pos hhead,Library.hashRef,Checker.octets_append,hopen,List.drop_left,hdigits]
  simp [hlength]

theorem eventId_encodes (hrt : rt.Documented) (payload : Bytes) :
    ∃ b, asciiText ("ev:"++rt.digestHex "ev" payload 16) = .ok b := by
  obtain ⟨digits,hdigits,hlength⟩ := hrt.hex "ev" payload 16 (by simp)
  have hopen : octets "ev:" = [0x65,0x76,0x3a] := by decide
  refine asciiText_returns (fun b hb => ?_) ?_
  · rw [Checker.octets_append,hopen,List.mem_append] at hb
    rcases hb with hb | hb
    · simp only [List.mem_cons,List.not_mem_nil,or_false] at hb
      rcases hb with rfl | rfl | rfl <;> decide
    · have hb := (Checker.hexDigits_printable hdigits b hb).2
      exact UInt8.lt_iff_toNat_lt.mpr (lt_trans hb (by decide))
  · rw [Checker.octets_append,List.length_append,hopen,hexDigits_length hdigits,hlength]
    decide

end

/-! ### Sealing -/

/-- Ingest raises nothing but for a limit. -/
abbrev SealsWithin {α : Type} (x : Ingested α) : Prop :=
  Runs.OnlyRaises (fun e => ∃ s : SpectraError, e = .spectra s ∧ s.type = .limitError) x

theorem AtMostLimit.ingested {α : Type} {x : Fallible α} (h : AtMostLimit x) : SealsWithin (ingested x) := by
  intro e he
  cases hx : x with
  | error s =>
    rw [hx] at he
    exact ⟨s,(Except.error.inj he).symm,h s hx⟩
  | ok a =>
    rw [hx] at he
    cases he

section

variable {rt : Runtime} {declared : List (String × DeclaredSource)} {time : Option ℤ}

theorem construct_returns {lib : Library} {e : BundleFields} (h : e.postInit lib = .ok ()) :
    ∃ r, e.construct lib = .ok r := ⟨_,validated_ok.mpr ⟨h,rfl⟩⟩

theorem unsealedEvent_atMostLimit (hrt : rt.Documented) (ht : ∀ t ∈ time, IsNanos t) {c : Candidate}
    (h : c.Sealable rt.toLibrary declared) : AtMostLimit (unsealedEvent rt.toLibrary time c) := by
  have hing : IsNanos (time.getD c.tEvtNs) := by
    cases time with
    | none => exact h.tEvtNs
    | some t => exact ht t rfl
  refine .bind (@identityBytes_atMostLimit rt.toLibrary declared _ h) fun payload _ => ?_
  exact .of_exists (construct_returns (postInit_sealable hrt.ascii h hing rfl (by simp)))

/-- An event that can be chained: the record of a sealable candidate under an id of its own. -/
structure BundleRecord.Chainable (rt : Runtime) (declared : List (String × DeclaredSource))
    (e : BundleRecord rt.toLibrary) : Prop where
  candidate : e.candidate.Sealable rt.toLibrary declared
  ingested : IsNanos e.tIngNs
  eventId : ∃ b, asciiText e.eventId = .ok b

theorem unsealedEvent_chainable (hrt : rt.Documented) {c : Candidate} {e : BundleRecord rt.toLibrary}
    (hc : c.Sealable rt.toLibrary declared) (h : unsealedEvent rt.toLibrary time c = .ok e) :
    e.Chainable rt declared := by
  refine ⟨unsealedEvent_candidate h ▸ hc,?_,?_⟩
  · have hvalid := e.valid
    simp only [BundleFields.postInit,checks_cons] at hvalid
    exact checkNanos_range hvalid.2.2.2.1
  · obtain ⟨payload,-,hid⟩ := unsealedEvent_minted h
    rw [hid]
    exact eventId_encodes hrt payload

/-- Every hash a chain goes on from is one. -/
def Chains (chains : List (String × String)) : Prop := ∀ p ∈ chains, ∃ b, parseHashRef p.2 = .ok b

theorem lastHash_parses (hrt : rt.Documented) {chains : List (String × String)} (hc : Chains chains)
    {e : BundleRecord rt.toLibrary} (he : e.Chainable rt declared) :
    ∃ last, lastHash rt.toLibrary chains e.toBundleFields = .ok last ∧ ∃ b, parseHashRef last = .ok b := by
  unfold lastHash
  split
  · rename_i last hlast
    exact ⟨last,rfl,hc _ (Dict.get?_mem hlast)⟩
  · obtain ⟨b,hb⟩ := sourceId_encodes he.candidate.source
    have hgenesis : chainGenesis rt.toLibrary e.sourceId = .ok (rt.hashRef "chain" b) :=
      Runs.bind_ok.mpr ⟨b,hb,rfl⟩
    exact ⟨_,ingested_ok.mpr hgenesis,hashRef_parses hrt _ _⟩

theorem sealNext_within (hrt : rt.Documented) {st : List (String × String) × List (BundleRecord rt.toLibrary)}
    (hst : Chains st.1) {e : BundleRecord rt.toLibrary} (he : e.Chainable rt declared) :
    SealsWithin (sealNext rt.toLibrary declared st e) ∧
      ∀ t, sealNext rt.toLibrary declared st e = .ok t → Chains t.1 := by
  obtain ⟨source,hsource⟩ := Option.isSome_iff_exists.mp he.candidate.declared
  obtain ⟨last,hlast,hparse⟩ := lastHash_parses hrt hst he
  have hsource : Dict.get? declared e.source = some source := hsource
  rw [sealNext,hsource]
  dsimp only
  split
  · exact ⟨.ok _,fun t ht => Except.ok.inj ht ▸ hst⟩
  have hseal : AtMostLimit (chainSeal rt.toLibrary e.toBundleFields last) := by
    refine .bind (concat_atMostLimit fun x hx => ?_) fun payload _ => .ok _
    simp only [List.mem_cons,List.not_mem_nil,or_false] at hx
    rcases hx with rfl | rfl | rfl | rfl
    · exact .of_exists hparse
    · exact .of_exists he.eventId
    · exact identityBytes_atMostLimit he.candidate
    · exact .of_exists (i64_returns he.ingested)
  have hhash : ∀ hash, chainSeal rt.toLibrary e.toBundleFields last = .ok hash →
      ∃ b, parseHashRef hash = .ok b := by
    intro hash hh
    obtain ⟨payload,-,hh⟩ := Runs.bind_ok.mp hh
    rw [← Runs.pure_ok.mp hh]
    exact hashRef_parses hrt _ _
  rw [hlast,Runs.ok_bind]
  constructor
  · refine .bind (AtMostLimit.ingested hseal) fun hash hh => ?_
    have hinit : ({e.toBundleFields with chainHash := some hash,chainPrev := some last} : BundleFields).postInit
        rt.toLibrary = .ok () := by
      refine postInit_sealable hrt.ascii he.candidate he.ingested rfl fun v hv => ?_
      simp only [Option.toList_some,List.mem_append,List.mem_singleton] at hv
      rcases hv with rfl | rfl
      · exact hhash v (ingested_ok.mp hh)
      · exact hparse
    obtain ⟨linked,hlinked⟩ := construct_returns hinit
    exact .bind (.of_ok (ingested_ok.mpr hlinked)) fun _ _ => .ok _
  · intro t ht
    obtain ⟨hash,hh,ht⟩ := Runs.bind_ok.mp ht
    obtain ⟨linked,-,ht⟩ := Runs.bind_ok.mp ht
    rw [← Runs.pure_ok.mp ht]
    intro p hp
    rcases Dict.mem_of_mem_set hp with hp | rfl
    · exact hst p hp
    · exact hhash hash (ingested_ok.mp hh)

theorem sealNext_sortKey {st t : List (String × String) × List (BundleRecord rt.toLibrary)}
    {e : BundleRecord rt.toLibrary} (h : sealNext rt.toLibrary declared st e = .ok t) :
    t.2.map (·.sortKey) = st.2.map (·.sortKey)++[e.sortKey] := by
  obtain ⟨linked,hash,prev,hl,hfields⟩ := sealNext_ok h
  rw [hl,List.map_append,List.map_singleton,hfields]
  rfl

theorem sealed_sortKeys {todo : List (BundleRecord rt.toLibrary)}
    {st t : List (String × String) × List (BundleRecord rt.toLibrary)}
    (h : todo.foldlM (sealNext rt.toLibrary declared) st = .ok t) :
    t.2.map (·.sortKey) = st.2.map (·.sortKey)++todo.map (·.sortKey) := by
  induction todo generalizing st with
  | nil => rw [Runs.foldlM_nil_ok.mp h,List.map_nil,List.append_nil]
  | cons e todo ih =>
    obtain ⟨next,hnext,h⟩ := Runs.foldlM_cons_ok.mp h
    rw [ih h,sealNext_sortKey hnext,List.append_assoc,List.map_cons,List.singleton_append]

/-- Events of different numbers have different places in the bundle. -/
theorem ordered_ascending {unsealed : List (BundleRecord rt.toLibrary)}
    (hn : (unsealed.map fun e => (e.source,e.seq)).Nodup) :
    ((unsealed.insertionSort (·.sortKey ≤ ·.sortKey)).map (·.sortKey)).Pairwise (· < ·) := by
  have hperm := List.perm_insertionSort (fun e e' : BundleRecord rt.toLibrary => e.sortKey ≤ e'.sortKey) unsealed
  have hle := List.pairwise_insertionSort (fun e e' : BundleRecord rt.toLibrary => e.sortKey ≤ e'.sortKey)
    unsealed
  have hne := List.pairwise_map.mp ((hperm.map fun e => (e.source,e.seq)).nodup_iff.mpr hn)
  refine List.pairwise_map.mpr (hle.imp₂ (fun e e' h hdiff => lt_of_le_of_ne h fun hkey => hdiff ?_) hne)
  simp only [BundleFields.sortKey,BundleFields.sourceId,toLex_inj,Prod.mk.injEq,String.append_right_inj] at hkey
  rw [hkey.2.1,hkey.2.2.1]

/-- Candidates of different numbers are sealed. -/
theorem sealEvents_within (hrt : rt.Documented) (ht : ∀ t ∈ time, IsNanos t) {candidates : List Candidate}
    (hc : ∀ c ∈ candidates, c.Sealable rt.toLibrary declared)
    (hn : (candidates.map fun c => (c.source,c.seq)).Nodup) :
    SealsWithin (sealEvents rt.toLibrary declared time candidates) := by
  refine .bind (.mapM fun c hcm => (unsealedEvent_atMostLimit hrt ht (hc c hcm)).ingested) fun unsealed hu => ?_
  have hf := mapM_ok.mp hu
  have hchainable : ∀ e ∈ unsealed.insertionSort (·.sortKey ≤ ·.sortKey), e.Chainable rt declared := by
    intro e he
    obtain ⟨c,hcm,h⟩ := (forall₂_mem hf).2 e ((List.mem_insertionSort _).mp he)
    exact unsealedEvent_chainable hrt (hc c hcm) (ingested_ok.mp h)
  have hnumbers : (unsealed.map fun e => (e.source,e.seq)).Nodup := by
    rw [← unsealed_candidates hf,List.map_map] at hn
    exact hn
  refine .bind (.foldlM (I := fun st => Chains st.1) (fun st e he hst => sealNext_within hrt hst (hchainable e he))
    (by simp [Chains])) fun t hrun => ?_
  have hkeys := sealed_sortKeys hrun
  rw [List.map_nil,List.nil_append] at hkeys
  have hascending : checkStrictlyAscending "ingest: bundle order" (t.2.map (·.sortKey)) = .ok () :=
    checkStrictlyAscending_ok.mpr (hkeys ▸ ordered_ascending hnumbers)
  exact .bind (.of_ok (ingested_ok.mpr hascending)) fun _ _ => .ok _

/-- The record of a sealable candidate has a line. -/
theorem bundleObj_returns {e : BundleFields} (h : e.candidate.Sealable rt.toLibrary declared) :
    ∃ line, e.bundleObj.scfLine = .ok line := by
  refine ⟨_,Json.scfLine_ok.mpr ⟨?_,rfl⟩⟩
  have hattrs : (Json.obj (e.attrs.map fun p => (p.1,.str p.2))).scf = true := by
    rw [Json.scf,Json.scfMembers_iff]
    intro q hq
    obtain ⟨p,hp,rfl⟩ := List.mem_map.mp hq
    exact ⟨h.keys p hp,rfl⟩
  have hseq : (Json.int e.seq).scf = true := by
    have hrange : 0 ≤ e.seq ∧ e.seq < 2^32 := h.seq
    have hmax : (Checker.u32Max : ℤ) = 2^32-1 := by decide
    simp only [Json.scf,Bool.and_eq_true,decide_eq_true_eq,hmax]
    exact ⟨hrange.1,by have := hrange.2; omega⟩
  rw [BundleFields.bundleObj,Json.scf,Json.scfMembers_iff]
  intro q hq
  rcases List.mem_append.mp hq with hq | hq
  · simp only [List.mem_cons,List.not_mem_nil,or_false] at hq
    rcases hq with rfl | rfl | rfl | rfl | rfl | rfl | rfl
    · exact ⟨(by decide : Checker.isKey "attrs" = true),hattrs⟩
    · exact ⟨(by decide : Checker.isKey "event_id" = true),rfl⟩
    · exact ⟨(by decide : Checker.isKey "event_type" = true),rfl⟩
    · exact ⟨(by decide : Checker.isKey "seq" = true),hseq⟩
    · exact ⟨(by decide : Checker.isKey "source_id" = true),rfl⟩
    · exact ⟨(by decide : Checker.isKey "t_evt_ns" = true),rfl⟩
    · exact ⟨(by decide : Checker.isKey "t_ing_ns" = true),rfl⟩
  · split at hq
    · simp only [List.mem_cons,List.not_mem_nil,or_false] at hq
      rcases hq with rfl | rfl
      · exact ⟨(by decide : Checker.isKey "chain_hash" = true),rfl⟩
      · exact ⟨(by decide : Checker.isKey "chain_prev" = true),rfl⟩
    · cases hq

/-- Sealing the candidates of a run raises nothing but for a limit. -/
theorem sealBundle_within (hrt : rt.Documented) (ht : ∀ t ∈ time, IsNanos t) {n : ℕ}
    {candidates : List Candidate} {dropped : List QuarantineRecord}
    (hc : ∀ c ∈ candidates, c.Sealable rt.toLibrary declared) :
    SealsWithin (sealBundle rt declared time n candidates dropped) := by
  have hkept : ∀ c ∈ (dropCrossRecordCollisions candidates).1, c.Sealable rt.toLibrary declared :=
    fun c h => hc c (mem_kept h)
  have hnumbers : ((dropCrossRecordCollisions candidates).1.map fun c => (c.source,c.seq)).Nodup :=
    kept_ascending.imp ne_of_lt
  refine .bind (sealEvents_within hrt ht hkept hnumbers) fun events hseal => ?_
  refine .bind (.mapM fun e he => ?_) fun lines _ => .ok _
  have hmem := (sealEvents_perm hseal).mem_iff.mp
    (List.mem_map_of_mem (f := fun e : BundleRecord rt.toLibrary => e.candidate) he)
  obtain ⟨line,hline⟩ := bundleObj_returns (hkept _ hmem)
  exact .of_ok (ingested_ok.mpr hline)

end

end Spectra
