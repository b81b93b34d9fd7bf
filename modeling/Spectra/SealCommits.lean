import Spectra.HashChain
import Spectra.ReadBundle

/-! What the last seal of a source says: `verify_chain` accepts one list of sealed records for it, or
two texts have one digest. -/
namespace Spectra

open Checker (Library)
open Liveness (ownRecords)

variable {lib : Library}

/-! ### Hash references -/

theorem hexValue_toNat {b : UInt8} {d : ℕ} (h : Checker.hexValue b = some d) :
    b.toNat = (if d < 10 then 0x30+d else 0x57+d) ∧ d < 16 := by
  unfold Checker.hexValue at h
  simp only [UInt8.le_iff_toNat_le,UInt8.reduceToNat] at h
  split at h
  · rename_i hrange
    have hd := Option.some.inj h
    rw [if_pos (by omega)]
    omega
  · split at h
    · have hd := Option.some.inj h
      rw [if_neg (by omega)]
      omega
    · cases h

/-- The digits of a lowercase text tell it. -/
theorem hexDigits_inj {l m : Bytes} {digits : List ℕ} (hl : Checker.hexDigits l = some digits)
    (hm : Checker.hexDigits m = some digits) : l = m ∧ ∀ d ∈ digits, d < 16 := by
  unfold Checker.hexDigits at hl hm
  induction l generalizing m digits with
  | nil =>
    cases hl
    have hlength := hexDigits_length hm
    exact ⟨(List.length_eq_zero_iff.mp hlength).symm,by simp⟩
  | cons b l ih =>
    rw [List.mapM_cons] at hl
    obtain ⟨d,hd,hl⟩ := Option.bind_eq_some_iff.mp hl
    obtain ⟨rest,hrest,hl⟩ := Option.bind_eq_some_iff.mp hl
    obtain rfl := Option.some.inj hl
    cases m with
    | nil => cases hm
    | cons c m =>
      rw [List.mapM_cons] at hm
      obtain ⟨d',hd',hm⟩ := Option.bind_eq_some_iff.mp hm
      obtain ⟨rest',hrest',hm⟩ := Option.bind_eq_some_iff.mp hm
      obtain ⟨rfl,rfl⟩ := List.cons.inj (Option.some.inj hm)
      obtain ⟨rfl,hsmall⟩ := ih hrest hrest'
      have hbc : b = c := UInt8.toNat_inj.mp ((hexValue_toNat hd).1.trans (hexValue_toNat hd').1.symm)
      exact ⟨by rw [hbc],List.forall_mem_cons.mpr ⟨(hexValue_toNat hd).2,hsmall⟩⟩

theorem exists_pair {n : ℕ} {l : List ℕ} (h : l.length = 2*(n+1)) :
    ∃ a b t, l = a::b::t ∧ t.length = 2*n := by
  obtain ⟨a,t,rfl⟩ := List.exists_cons_of_length_eq_add_one (show l.length = (2*n+1)+1 by omega)
  rw [List.length_cons] at h
  obtain ⟨b,t,rfl⟩ := List.exists_cons_of_length_eq_add_one (show t.length = 2*n+1 by omega)
  rw [List.length_cons] at h
  exact ⟨a,b,t,rfl,by omega⟩

theorem fromHex_length {n : ℕ} {l : List ℕ} (hl : l.length = 2*n) : (fromHex l).length = n := by
  induction n generalizing l with
  | zero => rw [List.length_eq_zero_iff.mp hl]; rfl
  | succ n ih =>
    obtain ⟨a,b,l,rfl,hlength⟩ := exists_pair hl
    rw [fromHex,List.length_cons,ih hlength]

theorem fromHex_inj {n : ℕ} {l m : List ℕ} (hl : l.length = 2*n) (hm : m.length = 2*n) (hls : ∀ d ∈ l, d < 16)
    (hms : ∀ d ∈ m, d < 16) (h : fromHex l = fromHex m) : l = m := by
  induction n generalizing l m with
  | zero => rw [List.length_eq_zero_iff.mp hl,List.length_eq_zero_iff.mp hm]
  | succ n ih =>
    obtain ⟨a,b,l,rfl,hl'⟩ := exists_pair hl
    obtain ⟨c,d,m,rfl,hm'⟩ := exists_pair hm
    rw [fromHex,fromHex] at h
    obtain ⟨hfirst,hrest⟩ := List.cons.inj h
    simp only [List.forall_mem_cons] at hls hms
    have hpair := congrArg UInt8.toNat hfirst
    simp only [UInt8.toNat_ofNat'] at hpair
    obtain rfl := ih hl' hm' hls.2.2 hms.2.2 hrest
    have hac : a = c := by omega
    have hbd : b = d := by omega
    rw [hac,hbd]

theorem parseHashRef_ok {s : String} {b : Bytes} (h : parseHashRef s = .ok b) :
    ∃ digits, octets s = octets Checker.hashRefPrefix++(octets s).drop Checker.hashRefPrefix.length ∧
      Checker.hexDigits ((octets s).drop Checker.hashRefPrefix.length) = some digits ∧ digits.length = 2*32 ∧
      b = fromHex digits := by
  unfold parseHashRef at h
  split at h
  · rename_i hopen
    split at h
    · rename_i digits hdigits
      split at h
      · rename_i hlength
        have hprefix := List.isPrefixOf_iff_prefix.mp hopen
        have hsize : (octets Checker.hashRefPrefix).length = Checker.hashRefPrefix.length := by decide
        refine ⟨digits,?_,hdigits,hlength,(Except.ok.inj h).symm⟩
        obtain ⟨rest,hrest⟩ := hprefix
        rw [← hrest,← hsize,List.drop_left]
      · cases h
    · cases h
  · cases h

/-- A reference is the text of its digest. -/
theorem parseHashRef_inj {s t : String} {b : Bytes} (hs : parseHashRef s = .ok b) (ht : parseHashRef t = .ok b) :
    s = t := by
  obtain ⟨digits,hopen,hdigits,hlength,hb⟩ := parseHashRef_ok hs
  obtain ⟨digits',hopen',hdigits',hlength',hb'⟩ := parseHashRef_ok ht
  obtain rfl := fromHex_inj hlength hlength' (hexDigits_inj hdigits hdigits).2 (hexDigits_inj hdigits' hdigits').2
    (hb.symm.trans hb')
  exact octets_injective (by rw [hopen,hopen',(hexDigits_inj hdigits hdigits').1])

theorem parseHashRef_length {s : String} {b : Bytes} (h : parseHashRef s = .ok b) : b.length = 32 := by
  obtain ⟨digits,-,-,hlength,rfl⟩ := parseHashRef_ok h
  exact fromHex_length hlength

/-! ### What a seal tells -/

/-- What a genesis is the digest of. -/
def Starts (e : BundleRecord lib) (p : Bytes) : Prop := asciiText e.sourceId = .ok p

/-- What the seal of a record is the digest of; the record names the seal and the one before it. -/
def Seals (previous : String) (e : BundleRecord lib) (p : Bytes) : Prop :=
  Framing.concat [parseHashRef previous,asciiText e.eventId,e.identityBytes lib,i64 e.tIngNs] = .ok p ∧
    e.chainPrev = some previous ∧ e.chainHash = some (lib.hashRef "chain" p)

/-- The sealed fields of two records agree. -/
structure SameSealed (lib : Library) (e e' : BundleRecord lib) : Prop where
  eventId : e.eventId = e'.eventId
  event : SameEvent lib e.toBundleFields e'.toBundleFields
  tIngNs : e.tIngNs = e'.tIngNs
  chain : e.chainPrev = e'.chainPrev ∧ e.chainHash = e'.chainHash

theorem identityBytes_peel (ha : lib.KeepsAscii) {e e' : BundleFields} {b b' x y : Bytes}
    (h : e.identityBytes lib = .ok b) (h' : e'.identityBytes lib = .ok b') (hxy : b++x = b'++y) :
    SameEvent lib e e' ∧ x = y := by
  obtain ⟨p,q,hattrs,hq,hb⟩ := Framing.concat_cons.mp h
  obtain ⟨p',q',hattrs',hq',hb'⟩ := Framing.concat_cons.mp h'
  rw [hb,hb',List.append_assoc,List.append_assoc] at hxy
  obtain ⟨hp,h₁⟩ := pairs_inj ha hattrs hattrs' hxy
  obtain ⟨htype,_,_,hq,hq',h₂⟩ := utf8Text_selfDelimiting.peel hq hq' h₁
  obtain ⟨hseq,_,_,hq,hq',h₃⟩ := (uint_selfDelimiting "u32" 4).peel hq hq' h₂
  obtain ⟨hsource,_,_,hq,hq',h₄⟩ := asciiText_selfDelimiting.peel hq hq' h₃
  obtain ⟨htime,_,_,hq,hq',h₅⟩ := i64_selfDelimiting.peel hq hq' h₄
  rw [← Except.ok.inj hq,← Except.ok.inj hq'] at h₅
  exact ⟨⟨hp,htype,hseq,hsource,htime⟩,h₅⟩

theorem Seals.inj (ha : lib.KeepsAscii) {h h' : String} {e e' : BundleRecord lib} {p : Bytes} (hs : Seals h e p)
    (hs' : Seals h' e' p) : h = h' ∧ SameSealed lib e e' := by
  obtain ⟨hp,hprev,hhash⟩ := hs
  obtain ⟨hp',hprev',hhash'⟩ := hs'
  obtain ⟨r,p₁,hr,hp₁,heq⟩ := Framing.concat_cons.mp hp
  obtain ⟨r',p₁',hr',hp₁',heq'⟩ := Framing.concat_cons.mp hp'
  obtain ⟨hrr,h₁⟩ := List.append_inj (heq.symm.trans heq')
    ((parseHashRef_length hr).trans (parseHashRef_length hr').symm)
  obtain rfl := parseHashRef_inj hr (hrr ▸ hr')
  obtain ⟨hid,p₂,p₂',hp₂,hp₂',h₂⟩ := asciiText_selfDelimiting.peel hp₁ hp₁' (x := []) (y := []) (by rw [h₁])
  obtain ⟨i,p₃,hi,hp₃,hip⟩ := Framing.concat_cons.mp hp₂
  obtain ⟨i',p₃',hi',hp₃',hip'⟩ := Framing.concat_cons.mp hp₂'
  rw [hip,hip',List.append_assoc,List.append_assoc] at h₂
  obtain ⟨hsame,h₃⟩ := identityBytes_peel ha hi hi' h₂
  obtain ⟨htime,-⟩ := i64_selfDelimiting.peel hp₃ hp₃' h₃
  exact ⟨rfl,hid,hsame,htime,hprev.trans hprev'.symm,hhash.trans hhash'.symm⟩

theorem blob_ok {v p : Bytes} (h : blob v = .ok p) : v.length < 2^32 ∧ p = bigEndian 4 v.length++v := by
  obtain ⟨c,q,hc,hq,rfl⟩ := Framing.concat_cons.mp h
  obtain ⟨v',r,hv,hr,rfl⟩ := Framing.concat_cons.mp hq
  cases hv
  cases hr
  unfold lengthCode u32 uint at hc
  split at hc
  · cases hc
  · split at hc
    · rename_i hlt
      refine ⟨by omega,?_⟩
      rw [← Except.ok.inj hc,List.append_nil,Int.toNat_natCast]
    · cases hc

theorem octets_length_le (s : String) : (octets s).length ≤ 4*s.toList.length := by
  rw [octets_eq]
  induction s.toList with
  | nil => simp
  | cons c cs ih =>
    rw [List.flatMap_cons,List.length_append,List.length_cons,String.length_utf8EncodeChar]
    have := c.utf8Size_le_four
    omega

/-- A genesis is never the body of a seal: where the one still spells the name of the source, the other
spells the length of an event id. -/
theorem Starts.not_seals {e e' : BundleRecord lib} {h : String} {p : Bytes} (hs : Starts e p) : ¬Seals h e' p := by
  rintro ⟨hp,-,-⟩
  obtain ⟨r,p₁,hr,hp₁,heq⟩ := Framing.concat_cons.mp hp
  obtain ⟨q,p₂,hq,-,heq₁⟩ := Framing.concat_cons.mp hp₁
  obtain ⟨-,hsource⟩ := blob_ok (asciiText_blob hs)
  obtain ⟨-,hid⟩ := blob_ok (asciiText_blob hq)
  have hsnake := e.snake
  have hname : octets e.sourceId = octets "src:"++octets e.source := Checker.octets_append ..
  have hopen : octets "src:" = [0x73,0x72,0x63,0x3a] := by decide
  have hshort : e.source.toList.length ≤ 48 := by
    rw [isSnake,Bool.and_eq_true,decide_eq_true_eq] at hsnake
    exact hsnake.2
  have hr32 := parseHashRef_length hr
  have hall : bigEndian 4 (octets e.sourceId).length++octets e.sourceId =
      r++(bigEndian 4 (octets e'.eventId).length++(octets e'.eventId++p₂)) := by
    rw [← hsource,heq,heq₁,hid,List.append_assoc]
  have hlength := congrArg List.length hall
  have hlong := octets_length_le e.source
  simp only [hname,hopen,List.length_append,bigEndian_length,List.length_cons,List.length_nil,hr32] at hlength
  have hbyte := congrArg (·[32]?) hall
  have hsmall : (octets e'.eventId).length/256/256/256 = 0 := by omega
  rw [List.getElem?_append_right (by rw [bigEndian_length]; omega),
    List.getElem?_append_right (by omega),hr32,bigEndian_length] at hbyte
  have hzero : (octets e.sourceId)[32-4]? = some 0 := by
    rw [hbyte]
    simp [bigEndian,hsmall]
  have hmem := List.mem_of_getElem? hzero
  rw [hname,hopen,List.mem_append] at hmem
  rcases hmem with hmem | hmem
  · exact absurd hmem (by decide)
  · exact absurd (octets_snake hsnake 0 hmem).1 (by decide)

/-! ### Slices -/

/-- The records of a slice that carry a seal. -/
def sealedOf (own : List (BundleRecord lib)) : List (BundleRecord lib) := own.filter (·.chainHash.isSome)

/-- The sealed records of a slice that verifies are a chain that ends in its last seal. -/
theorem chained_of_verifies {own : List (BundleRecord lib)} (h : verifyChain lib none own = .ok []) :
    HashChain.Chained (lib.hashRef "chain") Starts Seals (sealedOf own) (lastHashed none own) := by
  induction own using List.reverseRecOn with
  | nil => exact .nil
  | append_singleton own e ih =>
    obtain ⟨hown,he⟩ := verifyChain_append.mp h
    have hchain := ih hown
    have hlast : lastHashed none (own++[e]) = e.chainHash.or (lastHashed none own) := by
      simp [lastHashed,List.foldl_append]
    rw [sealedOf,List.filter_append,← sealedOf,hlast]
    cases hhash : e.chainHash with
    | none =>
      rw [Option.none_or,List.filter_cons_of_neg (by simp [hhash]),List.filter_nil,List.append_nil]
      exact hchain
    | some hash =>
      rw [Option.some_or,List.filter_cons_of_pos (by simp [hhash]),List.filter_nil]
      obtain ⟨expected,hexpected,he⟩ := Runs.bind_ok.mp ((verifyChain_hashed hhash).mp he).1
      split at he
      · rename_i hprev
        obtain ⟨found,hfound,he⟩ := Runs.bind_ok.mp he
        have hsame := of_decide_eq_true (Runs.pure_ok.mp he)
        obtain ⟨payload,hpayload,hfound⟩ := Runs.bind_ok.mp hfound
        have hseals : Seals expected e payload :=
          ⟨hpayload,hprev,by rw [hhash,← hsame,← Runs.pure_ok.mp hfound]⟩
        have hdigest : hash = lib.hashRef "chain" payload := by rw [← hsame,← Runs.pure_ok.mp hfound]
        rw [hdigest]
        cases hprevious : lastHashed none own with
        | none =>
          rw [hprevious] at hexpected hchain
          obtain ⟨p,hp,hexpected⟩ := Runs.bind_ok.mp hexpected
          rw [← Runs.pure_ok.mp hexpected] at hseals
          generalize hl : sealedOf own = l at hchain
          generalize ho : (none : Option String) = o at hchain
          cases hchain with
          | nil => exact .first hp hseals
          | first => cases ho
          | next => cases ho
        | some last =>
          rw [hprevious] at hexpected hchain
          cases hexpected
          exact .next hchain hseals
      · cases he

/-- The last seal of a source commits to every sealed record before it: slices that verify and end in one
seal have the same sealed records, one after the other, or two texts have one digest. -/
theorem chain_commits (ha : lib.KeepsAscii) {own own' : List (BundleRecord lib)}
    (h : verifyChain lib none own = .ok []) (h' : verifyChain lib none own' = .ok [])
    (hlast : lastHashed none own = lastHashed none own') :
    List.Forall₂ (SameSealed lib) (sealedOf own) (sealedOf own') ∨
      ∃ p q, p ≠ q ∧ lib.hashRef "chain" p = lib.hashRef "chain" q := by
  have hchain := chained_of_verifies h
  rw [hlast] at hchain
  exact @HashChain.Chained.commits _ _ _ _ Starts Seals (SameSealed lib) (Seals.inj ha) Starts.not_seals _ _ _
    hchain (chained_of_verifies h')

theorem chain_commits_login : ∃ result,
    ingestBytes (documentRuntime chainedDocuments) (loginBytes "web") chainedSources {} none = .ok result ∧
    result.events.length = 1 ∧
    (List.Forall₂ (SameSealed _) (sealedOf (ownRecords result.events "iam")) (sealedOf (ownRecords result.events "iam")) ∨
      ∃ p q, p ≠ q ∧ (documentRuntime chainedDocuments).toLibrary.hashRef "chain" p =
        (documentRuntime chainedDocuments).toLibrary.hashRef "chain" q) := by
  obtain ⟨result,hresult,hrun⟩ := chainedRun
  obtain ⟨⟨declared,kept,hseal⟩,-⟩ := ingestBytes_ok hresult
  have hverified := sealEvents_verified hseal "iam"
  exact ⟨result,hresult,(of_decide_eq_true hrun).1,
    chain_commits (fun _ _ => rfl) hverified hverified rfl⟩

end Spectra
