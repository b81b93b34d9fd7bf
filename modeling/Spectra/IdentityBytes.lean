import Spectra.Preimages
import Spectra.Sealing

/-! The octets an object's identifier is the digest of: equal octets come from equal identity
fields, and an attribute map has one encoding however its pairs are listed. -/
namespace Spectra

open Checker (Library)

namespace Checker.Library

/-- ASCII texts are in normal form. -/
def KeepsAscii (lib : Library) : Prop :=
  ∀ s, (octets s).all (· < 128) = true → lib.normalize s = s

/-- A pair of texts in normal form. -/
def normalPair (lib : Library) (p : String × String) : String × String :=
  (lib.normalize p.1,lib.normalize p.2)

/-- `Fact.identity_bytes`. -/
def factBytes (lib : Library) (predicate : String) (args : List EntityId) (tick : ℤ) : Fallible Bytes :=
  factPayload (lib.normalize predicate) args tick

end Checker.Library

/-- `Corridor.identity_bytes`. -/
def Corridor.identityBytes (c : Corridor) : Bytes := leb128Seq c.atomRanks

/-! ### Attributes -/

section

variable {lib : Library} {attrs attrs' : List (String × String)}

theorem utf8Text_normal {s : String} {b : Bytes} (h : utf8Text s = .ok b) : blob (octets s) = .ok b := by
  unfold utf8Text nfc at h
  split at h
  · cases h
  · rename_i hs
    split at hs
    · cases hs
    · rwa [← Except.ok.inj hs] at h

theorem encodeKey_normal (ha : lib.KeepsAscii) {key : String} {b : Bytes}
    (h : lib.encodeKey key = .ok b) : blob (octets (lib.normalize key)) = .ok b := by
  unfold Library.encodeKey at h
  split at h
  · rename_i hascii
    rw [ha key hascii]
    exact asciiText_blob h
  · exact utf8Text_normal h

def octetPair (p : String × String) : Bytes × Bytes := (octets p.1,octets p.2)

theorem octetPair_injective : Function.Injective octetPair := fun _ _ h =>
  Prod.ext (octets_injective (congrArg Prod.fst h)) (octets_injective (congrArg Prod.snd h))

theorem encodePair_normal (ha : lib.KeepsAscii) {p : String × String} {q : Bytes × Bytes}
    (h : lib.encodePair p = .ok q) : blobPair (octetPair (lib.normalPair p)) = .ok (q.1++q.2) := by
  obtain ⟨key,hkey,h⟩ := Runs.bind_ok.mp h
  obtain ⟨value,hvalue,h⟩ := Runs.bind_ok.mp h
  obtain rfl := Runs.pure_ok.mp h
  simp [blobPair,Framing.concat,octetPair,Library.normalPair,encodeKey_normal ha hkey,
    utf8Text_normal hvalue]

/-- The encoded pairs in the order of their keys. -/
def sortedPairs (encoded : List (Bytes × Bytes)) : List (Bytes × Bytes) := encoded.insertionSort (·.1 ≤ ·.1)

theorem pairs_ok {b : Bytes} : lib.pairs attrs = .ok b ↔ ∃ encoded count,
    List.Forall₂ (fun p q => lib.encodePair p = .ok q) attrs encoded ∧
    ((sortedPairs encoded).map (·.1)).IsChain (· ≠ ·) ∧ u32 (sortedPairs encoded).length = .ok count ∧
    count++(sortedPairs encoded).flatMap (fun p => p.1++p.2) = b := by
  constructor
  · intro h
    obtain ⟨encoded,he,h⟩ := Runs.bind_ok.mp h
    obtain ⟨_,hc,h⟩ := Runs.bind_ok.mp h
    obtain ⟨count,hcount,h⟩ := Runs.bind_ok.mp h
    exact ⟨encoded,count,mapM_ok.mp he,ensure_ok.mp hc,hcount,Runs.pure_ok.mp h⟩
  · rintro ⟨encoded,count,he,hc,hcount,rfl⟩
    exact Runs.bind_ok.mpr ⟨encoded,mapM_ok.mpr he,Runs.bind_ok.mpr ⟨(),ensure_ok.mpr hc,
      Runs.bind_ok.mpr ⟨count,hcount,rfl⟩⟩⟩

/-- The octets of a map frame its pairs in normal form, in some order. -/
theorem pairs_framed (ha : lib.KeepsAscii) {b : Bytes} (h : lib.pairs attrs = .ok b) :
    ∃ framed : List (String × String), framed.Perm attrs ∧
      blobPairs (framed.map fun p => octetPair (lib.normalPair p)) = .ok b := by
  obtain ⟨encoded,count,he,-,hcount,rfl⟩ := pairs_ok.mp h
  obtain ⟨framed,hf,hp⟩ := List.perm_comp_forall₂ (List.perm_insertionSort (·.1 ≤ ·.1) encoded) he.flip
  refine ⟨framed,hp,concat_ok.mpr ⟨count::(sortedPairs encoded).map fun p => p.1++p.2,.cons ?_ ?_,?_⟩⟩
  · rw [List.length_map,← hf.length_eq]
    exact hcount
  · rw [List.forall₂_map_left_iff,List.forall₂_map_right_iff,List.forall₂_map_left_iff]
    exact hf.flip.imp fun p q hpq => encodePair_normal ha hpq
  · rw [List.flatten_cons,← List.flatMap_def]

/-- Maps of one encoding have the same pairs, up to their order and normal form. -/
theorem pairs_inj (ha : lib.KeepsAscii) {b b' x y : Bytes} (h : lib.pairs attrs = .ok b)
    (h' : lib.pairs attrs' = .ok b') (hxy : b++x = b'++y) :
    (attrs.map lib.normalPair).Perm (attrs'.map lib.normalPair) ∧ x = y := by
  obtain ⟨framed,hp,hf⟩ := pairs_framed ha h
  obtain ⟨framed',hp',hf'⟩ := pairs_framed ha h'
  obtain ⟨heq,hrest⟩ := blobPairs_selfDelimiting _ _ _ _ _ _ hf hf' hxy
  have hsame : framed.map lib.normalPair = framed'.map lib.normalPair := by
    apply List.map_injective_iff.mpr octetPair_injective
    simpa only [List.map_map,Function.comp_def] using heq
  refine ⟨(hp.map _).symm.trans ?_,hrest⟩
  rw [hsame]
  exact hp'.map _

/-- In a sorted list, neighbours that differ leave no two elements alike. -/
theorem nodup_of_sorted {κ : Type} {r : κ → κ → Prop} [Std.Antisymm r] {l : List κ} (h : l.Pairwise r)
    (hc : l.IsChain (· ≠ ·)) : l.Nodup := by
  induction hc with
  | nil => exact .nil
  | singleton a => exact List.nodup_singleton a
  | cons_cons hne _ ih =>
    obtain ⟨hfirst,h⟩ := List.pairwise_cons.mp h
    refine List.nodup_cons.mpr ⟨fun hmem => ?_,ih h⟩
    rcases List.mem_cons.mp hmem with heq | hmem
    · exact hne heq
    · exact hne (Std.Antisymm.antisymm _ _ (hfirst _ (by simp)) ((List.pairwise_cons.mp h).1 _ hmem))

/-- The order of the pairs of a map does not reach its octets. -/
theorem pairs_perm (h : attrs.Perm attrs') {b : Bytes} (hb : lib.pairs attrs = .ok b) :
    lib.pairs attrs' = .ok b := by
  obtain ⟨encoded,count,he,hc,hcount,rfl⟩ := pairs_ok.mp hb
  obtain ⟨encoded',he',hp⟩ := List.perm_comp_forall₂ h.symm he
  have hle : ∀ l : List (Bytes × Bytes), ((sortedPairs l).map (·.1)).Pairwise (· ≤ ·) :=
    fun l => List.pairwise_map.mpr (List.pairwise_insertionSort (fun p q : Bytes × Bytes => p.1 ≤ q.1) l)
  have hkeys : ((sortedPairs encoded).map (·.1)).Nodup := nodup_of_sorted (hle encoded) hc
  have hsorted : sortedPairs encoded = sortedPairs encoded' := by
    have hperm : (sortedPairs encoded).Perm (sortedPairs encoded') :=
      (List.perm_insertionSort _ _).trans (hp.symm.trans (List.perm_insertionSort _ _).symm)
    refine hperm.eq_of_pairwise (fun p q hp hq hpq hqp => ?_) (List.pairwise_map.mp (hle encoded))
      (List.pairwise_map.mp (hle encoded'))
    exact List.inj_on_of_nodup_map hkeys hp (hperm.mem_iff.mpr hq) (Std.Antisymm.antisymm _ _ hpq hqp)
  exact pairs_ok.mpr ⟨encoded',count,he',hsorted ▸ hc,hsorted ▸ hcount,by rw [hsorted]⟩

/-! ### Objects -/

/-- The identity fields of two events agree. -/
structure SameEvent (lib : Library) (e e' : BundleFields) : Prop where
  attrs : (e.attrs.map lib.normalPair).Perm (e'.attrs.map lib.normalPair)
  eventType : lib.normalize e.eventType = lib.normalize e'.eventType
  seq : e.seq = e'.seq
  sourceId : e.sourceId = e'.sourceId
  tEvtNs : e.tEvtNs = e'.tEvtNs

/-- The identity fields of two instances agree. -/
structure SameInstance (i j : InstanceFields) : Prop where
  ruleId : i.ruleId = j.ruleId
  head : i.head = j.head
  body : i.body = j.body
  evidence : i.evidence.map (·.eventId) = j.evidence.map (·.eventId)
  licenseIds : i.licenseIds = j.licenseIds

/-- The identity fields of two licences agree. -/
structure SameLicence (lib : Library) (l m : LicenceFields) : Prop where
  basis : l.basis = m.basis
  reason : lib.normalize l.reason = lib.normalize m.reason
  sourceId : l.sourceId = m.sourceId
  span : l.t0Ns = m.t0Ns ∧ l.t1Ns = m.t1Ns

theorem BundleFields.identityBytes_same (ha : lib.KeepsAscii) {e e' : BundleFields} {b : Bytes}
    (h : e.identityBytes lib = .ok b) (h' : e'.identityBytes lib = .ok b) : SameEvent lib e e' := by
  obtain ⟨_,_,hattrs,h,hb⟩ := Framing.concat_cons.mp h
  obtain ⟨_,_,hattrs',h',hb'⟩ := Framing.concat_cons.mp h'
  obtain ⟨hp,h₁⟩ := pairs_inj ha hattrs hattrs' (hb.symm.trans hb')
  obtain ⟨htype,_,_,h,h',h₂⟩ := utf8Text_selfDelimiting.peel h h' (x := []) (y := []) (by simpa using h₁)
  obtain ⟨hseq,_,_,h,h',h₃⟩ := (uint_selfDelimiting "u32" 4).peel h h' h₂
  obtain ⟨hsource,_,_,h,h',h₄⟩ := asciiText_selfDelimiting.peel h h' h₃
  obtain ⟨htime,-⟩ := i64_selfDelimiting.peel h h' h₄
  exact ⟨hp,htype,hseq,hsource,htime⟩

theorem LicenceFields.identityBytes_same {l m : LicenceFields} {b : Bytes}
    (h : l.identityBytes lib = .ok b) (h' : m.identityBytes lib = .ok b) : SameLicence lib l m := by
  obtain ⟨hbasis,_,_,h,h',h₁⟩ := asciiText_selfDelimiting.peel h h' (x := []) (y := []) rfl
  obtain ⟨hreason,_,_,h,h',h₂⟩ := utf8Text_selfDelimiting.peel h h' h₁
  obtain ⟨hsource,_,_,h,h',h₃⟩ := asciiText_selfDelimiting.peel h h' h₂
  obtain ⟨h0,_,_,h,h',h₄⟩ := i64_selfDelimiting.peel h h' h₃
  obtain ⟨h1,-⟩ := i64_selfDelimiting.peel h h' h₄
  refine ⟨?_,hreason,hsource,h0,h1⟩
  cases hl : l.basis <;> cases hm : m.basis <;> rw [hl,hm] at hbasis <;>
    first | rfl | exact absurd hbasis (by decide)

/-- An event whose pairs are listed in another order has the same octets. -/
theorem BundleFields.identityBytes_perm {e : BundleFields} (h : e.attrs.Perm attrs) {b : Bytes}
    (hb : e.identityBytes lib = .ok b) : {e with attrs := attrs}.identityBytes lib = .ok b := by
  obtain ⟨p,q,hattrs,hrest,rfl⟩ := Framing.concat_cons.mp hb
  exact Framing.concat_cons.mpr ⟨p,q,pairs_perm h hattrs,hrest,rfl⟩

end

/-- Every encoder of an identity tells the identity fields, and only the order of the pairs of a map
is lost. -/
theorem identity_bytes_injective (lib : Library) (ha : lib.KeepsAscii) :
    (∀ (e e' : BundleRecord lib) (b : Bytes), e.identityBytes lib = .ok b → e'.identityBytes lib = .ok b →
      SameEvent lib e.toBundleFields e'.toBundleFields) ∧
    (∀ (p p' : String) (a a' : List EntityId) (t t' : ℤ) (b : Bytes), lib.factBytes p a t = .ok b →
      lib.factBytes p' a' t' = .ok b → lib.normalize p = lib.normalize p' ∧ a = a' ∧ t = t') ∧
    (∀ (i j : RuleInstance) (b : Bytes), i.identityBytes = .ok b → j.identityBytes = .ok b →
      SameInstance i.toInstanceFields j.toInstanceFields) ∧
    (∀ (l m : Licence) (b : Bytes), l.identityBytes lib = .ok b → m.identityBytes lib = .ok b →
      SameLicence lib l.toLicenceFields m.toLicenceFields) ∧
    (∀ c d : Corridor, c.identityBytes = d.identityBytes → c.atomRanks = d.atomRanks) ∧
    (∀ (e : BundleRecord lib) (attrs : List (String × String)) (b : Bytes), e.attrs.Perm attrs →
      e.identityBytes lib = .ok b → {e.toBundleFields with attrs := attrs}.identityBytes lib = .ok b) := by
  refine ⟨fun _ _ _ => BundleFields.identityBytes_same ha,fun _ _ _ _ _ _ _ => factPayload_inj,
    fun i j b hi hj => ?_,fun _ _ _ => LicenceFields.identityBytes_same,
    fun _ _ => @leb128Seq_injective _ _,fun _ _ _ h => BundleFields.identityBytes_perm h⟩
  obtain ⟨hrule,hhead,hbody,hevidence,hlicences⟩ := instancePayload_inj hi hj
  exact ⟨hrule,hhead,hbody,hevidence,hlicences⟩

theorem identity_bytes_injective_sent : ∃ b,
    sentRecord.identityBytes (Checker.standard [] []) = .ok b ∧
    SameEvent (Checker.standard [] []) sentRecord.toBundleFields sentRecord.toBundleFields ∧
    {sentRecord.toBundleFields with attrs := [("user","ada"),("host","web")]}.identityBytes
      (Checker.standard [] []) = .ok b := by
  have hrecord := valueOf_ok (sentRecord.identityBytes (Checker.standard [] [])) (by decide)
  obtain ⟨hsame,-,-,-,-,hperm⟩ := identity_bytes_injective (Checker.standard [] []) fun _ _ => rfl
  exact ⟨_,hrecord,hsame _ _ _ hrecord hrecord,hperm _ _ _ (.swap _ _ _) hrecord⟩

end Spectra
