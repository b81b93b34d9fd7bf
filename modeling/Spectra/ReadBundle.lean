import Spectra.Arrivals
import Spectra.SealedSources

/-! A bundle is verified and read back: every seal recomputes in the order of its source, and the
strict reader makes of the octets the events they were written from. -/
namespace Spectra

open Checker (Library)
open Liveness (ownRecords)

/-! ### Chains -/

section

variable {lib : Library}

def expectedPrev (lib : Library) (sourceId : SourceId) : Option String → Fallible String
  | none => chainGenesis lib sourceId
  | some previous => .ok previous

/-- Whether the hash of a record is the seal of the record over the hash before it. -/
def recomputes (lib : Library) (previous : Option String) (e : BundleFields) (hash : String) :
    Fallible Bool := do
  let expected ← expectedPrev lib e.sourceId previous
  if e.chainPrev = some expected then
    pure (decide ((← chainSeal lib e expected) = hash))
  else pure false

/-- `verify_chain`: the ids of the records whose hash does not recompute. -/
def verifyChain (lib : Library) : Option String → List (BundleRecord lib) → Fallible (List EventId)
  | _, [] => .ok []
  | previous, e::rest => match e.chainHash with
    | none => verifyChain lib previous rest
    | some hash => do
      let holds ← recomputes lib previous e.toBundleFields hash
      let bad ← verifyChain lib (some hash) rest
      pure (if holds then bad else e.eventId::bad)

theorem verifyChain_cons {previous : Option String} {e : BundleRecord lib} {rest : List (BundleRecord lib)} :
    verifyChain lib previous (e::rest) = match e.chainHash with
      | none => verifyChain lib previous rest
      | some hash => (do
        let holds ← recomputes lib previous e.toBundleFields hash
        let bad ← verifyChain lib (some hash) rest
        pure (if holds then bad else e.eventId::bad)) := rfl

theorem verifyChain_hashed {previous : Option String} {e : BundleRecord lib} {rest : List (BundleRecord lib)}
    {hash : String} (hh : e.chainHash = some hash) : verifyChain lib previous (e::rest) = .ok [] ↔
      recomputes lib previous e.toBundleFields hash = .ok true ∧ verifyChain lib (some hash) rest = .ok [] := by
  rw [verifyChain_cons,hh]
  dsimp only
  constructor
  · intro h
    obtain ⟨holds,hholds,h⟩ := Runs.bind_ok.mp h
    obtain ⟨bad,hbad,h⟩ := Runs.bind_ok.mp h
    have h := Runs.pure_ok.mp h
    cases holds with
    | true => exact ⟨hholds,hbad.trans (congrArg _ h)⟩
    | false => cases h
  · rintro ⟨hholds,hbad⟩
    exact Runs.bind_ok.mpr ⟨true,hholds,Runs.bind_ok.mpr ⟨[],hbad,rfl⟩⟩

theorem verifyChain_bare {previous : Option String} {e : BundleRecord lib} {rest : List (BundleRecord lib)}
    (hh : e.chainHash = none) : verifyChain lib previous (e::rest) = verifyChain lib previous rest := by
  rw [verifyChain_cons,hh]

/-- The hash the record after some has to name. -/
def lastHashed (previous : Option String) (own : List (BundleRecord lib)) : Option String :=
  own.foldl (fun previous e => e.chainHash.or previous) previous

theorem verifyChain_append {previous : Option String} {own more : List (BundleRecord lib)} :
    verifyChain lib previous (own++more) = .ok [] ↔
      verifyChain lib previous own = .ok [] ∧ verifyChain lib (lastHashed previous own) more = .ok [] := by
  induction own generalizing previous with
  | nil => simp [verifyChain,lastHashed]
  | cons e own ih =>
    rw [List.cons_append,lastHashed,List.foldl_cons,← lastHashed]
    cases hh : e.chainHash with
    | none => rw [verifyChain_bare hh,verifyChain_bare hh,ih,Option.none_or]
    | some hash => rw [verifyChain_hashed hh,verifyChain_hashed hh,ih,and_assoc,Option.some_or]

variable {declared : List (String × DeclaredSource)} {source : String}

/-- What sealing keeps of every source: its records verify, and the hash noted for it is the last. -/
structure Verified (source : String) (st : List (String × String) × List (BundleRecord lib)) : Prop where
  verifies : verifyChain lib none (ownRecords st.2 source) = .ok []
  last : lastHashed none (ownRecords st.2 source) = Dict.get? st.1 source

theorem Verified.step {st t : List (String × String) × List (BundleRecord lib)} {e : BundleRecord lib}
    (hs : Verified source st) (he : e.chainHash = none) (h : sealNext lib declared st e = .ok t) :
    Verified source t := by
  have hmore : ∀ x : BundleRecord lib, ownRecords (st.2++[x]) source =
      ownRecords st.2 source++if x.source = source then [x] else [] := by
    intro x
    rw [ownRecords,List.filter_append,List.filter_singleton,← ownRecords]
    simp
  have hlast : ∀ x : BundleRecord lib, lastHashed none (ownRecords st.2 source++[x]) =
      x.chainHash.or (lastHashed none (ownRecords st.2 source)) := by
    intro x
    rw [lastHashed,List.foldl_append]
    rfl
  unfold sealNext at h
  split at h
  · cases h
  rename_i d hd
  split at h
  · -- no link is made
    cases h
    refine ⟨?_,?_⟩ <;> rw [hmore e] <;> split
    · exact verifyChain_append.mpr ⟨hs.verifies,by rw [verifyChain_bare he]; rfl⟩
    · rw [List.append_nil]; exact hs.verifies
    · rw [hlast,he,Option.none_or]; exact hs.last
    · rw [List.append_nil]; exact hs.last
  obtain ⟨prev,hprev,h⟩ := Runs.bind_ok.mp h
  obtain ⟨hash,hhash,h⟩ := Runs.bind_ok.mp h
  obtain ⟨linked,hl,h⟩ := Runs.bind_ok.mp h
  obtain rfl := Runs.pure_ok.mp h
  have hfields := construct_ok (ingested_ok.mp hl)
  have hhashed : linked.chainHash = some hash := by rw [hfields]
  have hsource : linked.source = e.source := by rw [hfields]
  refine ⟨?_,?_⟩ <;> rw [hmore linked,hsource] <;> split
  · rename_i hown
    refine verifyChain_append.mpr ⟨hs.verifies,(verifyChain_hashed hhashed).mpr ⟨?_,rfl⟩⟩
    have hexpected : expectedPrev lib linked.sourceId (lastHashed none (ownRecords st.2 source)) = .ok prev := by
      rw [hs.last,← hown]
      unfold lastHash at hprev
      split at hprev
      · rename_i last hget
        rw [hget,Except.ok.inj hprev]
        rfl
      · rename_i hget
        rw [hget,hfields]
        exact ingested_ok.mp hprev
    have hseal : chainSeal lib linked.toBundleFields prev = .ok hash := by
      rw [hfields]
      exact ingested_ok.mp hhash
    refine Runs.bind_ok.mpr ⟨prev,hexpected,?_⟩
    rw [if_pos (by rw [hfields])]
    exact Runs.bind_ok.mpr ⟨hash,hseal,by simp⟩
  · rw [List.append_nil]; exact hs.verifies
  · rename_i hown
    rw [hlast,hhashed,Option.some_or,hown,Dict.get?_set_self]
  · rename_i hother
    rw [List.append_nil,Dict.get?_set,if_neg hother]
    exact hs.last

theorem unsealedEvent_bare {time : Option ℤ} {c : Candidate} {e : BundleRecord lib}
    (h : unsealedEvent lib time c = .ok e) : e.chainHash = none := by
  obtain ⟨payload,-,h⟩ := Runs.bind_ok.mp h
  rw [construct_ok h]

/-- The slice of every source verifies. -/
theorem sealEvents_verified {time : Option ℤ} {candidates : List Candidate} {events : List (BundleRecord lib)}
    (h : sealEvents lib declared time candidates = .ok events) (source : String) :
    verifyChain lib none (ownRecords events source) = .ok [] := by
  obtain ⟨unsealed,hu,h⟩ := Runs.bind_ok.mp h
  obtain ⟨⟨chains,sealed⟩,hs,h⟩ := Runs.bind_ok.mp h
  obtain ⟨_,-,h⟩ := Runs.bind_ok.mp h
  obtain rfl := Runs.pure_ok.mp h
  have hbare : ∀ e ∈ unsealed.insertionSort (·.sortKey ≤ ·.sortKey), e.chainHash = none := by
    intro e he
    obtain ⟨c,-,hc⟩ := (forall₂_mem (mapM_ok.mp hu)).2 e ((List.mem_insertionSort _).mp he)
    exact unsealedEvent_bare (ingested_ok.mp hc)
  have hrun := Runs.foldlM_inv (P := Verified source) (fun st e t he hst ht => hst.step (hbare e he) ht)
    ⟨rfl,rfl⟩ hs
  exact hrun.verifies

end

/-! ### The hooks of ingest -/

namespace Checker

/-- The hooks let a value through as it is that has no float and repeats no key. -/
theorem revive_ingestHooks {j : Json} (hk : j.keyed = true) (hd : j.distinct = true) :
    ingestHooks.revive j = .ok j := by
  induction j using Json.nestedInduction with
  | list l ih =>
    rw [Json.keyed,Json.keyedItems_iff] at hk
    rw [Hooks.revive,reviveItems_ok fun a ha => ih a ha (hk a ha) (Json.distinct_list.mp hd a ha)]
    rfl
  | obj m ih =>
    rw [Json.keyed,Json.keyedMembers_iff] at hk
    obtain ⟨hn,hm⟩ := Json.distinct_obj.mp hd
    rw [Hooks.revive,reviveMembers_ok fun p hp => ih p hp (hk p hp).2 (hm p hp)]
    exact if_pos hn
  | scalar s => cases hk
  | _ => rfl

end Checker

theorem Json.scf_readBack {j : Json} (h : j.scf = true) : j.readBack.scf = true := by
  induction j using nestedInduction with
  | list l ih =>
    rw [scf,scfItems_iff] at h
    rw [readBack_list,scf,scfItems_iff]
    intro b hb
    obtain ⟨a,ha,rfl⟩ := List.mem_map.mp hb
    exact ih a ha (h a ha)
  | obj m ih =>
    rw [scf,scfMembers_iff] at h
    rw [readBack_obj,scf,scfMembers_iff]
    intro p hp
    obtain ⟨q,hq,rfl⟩ := List.mem_map.mp ((List.mem_insertionSort _).mp hp)
    exact ⟨(h q hq).1,ih q hq (h q hq).2⟩
  | _ => exact h

/-! ### The strict reader -/

section

variable (rt : Runtime)

def requiredMembers : List String :=
  ["attrs","event_id","event_type","seq","source_id","t_evt_ns","t_ing_ns"]

def optionalMembers : List String := ["chain_hash","chain_prev"]

/-- A check of the reader. -/
def demand (p : Prop) [Decidable p] (e : SpectraError) : Check Unit := canonical (ensure p e)

def readError (text : String) : SpectraError := ErrorType.schemaError.mk ("read_bundle: "++text)

/-- `EventId`: its prefix and 128 bits. -/
def isEventId (s : String) : Bool := Checker.hasPrefix "ev:" s &&
  match Checker.hexDigits ((octets s).drop 3) with
  | some digits => digits.length = 32
  | none => false

/-- The text of a member that has to be one. -/
def textOf (j : Option Json) (e : SpectraError) : Check String :=
  match j with
  | some (.str s) => .ok s
  | _ => .error (.canon e)

def objectOf (j : Option Json) (e : SpectraError) : Check (List (String × Json)) :=
  match j with
  | some (.obj members) => .ok members
  | _ => .error (.canon e)

def seqOf (j : Option Json) : Check ℤ :=
  match j with
  | some (.int seq) => .ok seq
  | _ => .error (.canon (widthError "u32"))

def attrText (p : String × Json) : Check (String × String) := do
  pure (p.1,← textOf (some p.2) (ErrorType.schemaError.mk
    "CanonicalEvent.attrs: attr keys and values must both be str"))

/-- A hash that may be left out. -/
def optionalText (j : Option Json) : Check (Option String) :=
  match j with
  | none => .ok none
  | some (.str s) => .ok (some s)
  | some _ => .error (.canon (ErrorType.canonError.mk "parse_hash_ref: expected str"))

/-- The pairs in the order of `canon.byte_order_key`. -/
def byteOrdered {α : Type} (lib : Library) (items : List (String × α)) : Check (List (String × α)) := do
  let keyed ← items.mapM fun item => do pure ((← canonical (lib.byteOrderKey item.1)),item)
  pure ((keyed.insertionSort (·.1 ≤ ·.1)).map (·.2))

/-- `CanonicalEvent.verify_id`. -/
def BundleFields.verifyId (lib : Library) (e : BundleFields) : Fallible Bool := do
  pure (decide (e.eventId = "ev:"++lib.digestHex "ev" (← e.identityBytes lib) 16))

/-- `_event_from_obj`. -/
def eventFromObj (obj : List (String × Json)) (line : Bytes) : Check (BundleRecord rt.toLibrary) := do
  demand (requiredMembers ⊆ obj.map (·.1) ∧ obj.map (·.1) ⊆ requiredMembers++optionalMembers)
    (readError "unexpected member set")
  let attrs ← objectOf (Dict.get? obj "attrs") (readError "attrs is not an object")
  let eventId ← textOf (Dict.get? obj "event_id") (ErrorType.identifierError.mk "EventId: expected str")
  demand (isEventId eventId) (ErrorType.identifierError.mk ("EventId: "++eventId))
  let source ← textOf (Dict.get? obj "source_id") (ErrorType.identifierError.mk "SourceId")
  demand (isSnake source) (ErrorType.identifierError.mk ("SourceId: "++source))
  let tEvtNs ← rt.int ((Dict.get? obj "t_evt_ns").getD .null)
  let tIngNs ← rt.int ((Dict.get? obj "t_ing_ns").getD .null)
  let ordered ← byteOrdered rt.toLibrary attrs
  let seq ← seqOf (Dict.get? obj "seq")
  let texts ← ordered.mapM attrText
  let chainHash ← optionalText (Dict.get? obj "chain_hash")
  let chainPrev ← optionalText (Dict.get? obj "chain_prev")
  let eventType ← textOf (Dict.get? obj "event_type") (ErrorType.canonError.mk "nfc: expected str")
  let event ← canonical ((⟨eventId,rt.recordId line,source,seq,eventType,tEvtNs,tIngNs,texts,chainHash,
    chainPrev⟩ : BundleFields).construct rt.toLibrary)
  demand ((← canonical (event.verifyId rt.toLibrary)) = true)
    (readError ("event_id does not recompute for "++eventId))
  pure event

/-- One line of `read_bundle`. -/
def readLine (line : Bytes) (hasNewline : Bool) : Check (BundleRecord rt.toLibrary) := do
  demand (hasNewline = true) ⟨.canonError,"E-CANON-TRAILING","read_bundle: final line has no LF"⟩
  match rt.decode line with
  | none => .error .unicodeDecode
  | some text => match ← rt.jsonLoads ingestHooks text with
    | .obj obj => do
      demand ((← canonical (Json.obj obj).scfDumps) = line)
        ⟨.canonError,"E-CANON-FORM","read_bundle: a line is not canonical"⟩
      eventFromObj rt obj line
    | _ => .error (.canon (readError "a line is not a JSON object"))

/-- `read_bundle`. -/
def readBundle (raw : Bytes) : Check (List (BundleRecord rt.toLibrary)) := do
  let events ← (splitOctets raw).mapM fun line => readLine rt line.1 line.2
  canonical (checkStrictlyAscending "read_bundle: bundle order" (events.map (·.sortKey)))
  pure events

end

/-! ### The lines of a bundle -/

section

variable {lib : Library}

theorem byteOrderKey_checked {loc : String} {index : ℕ} {previous : Option Bytes} {keys : List String}
    (h : lib.checkKeys loc index previous keys = .ok ()) :
    ∀ key ∈ keys, lib.byteOrderKey key = .ok (octets (lib.normalize key)) := by
  induction keys generalizing index previous with
  | nil => simp
  | cons key keys ih =>
    obtain ⟨current,hc,h⟩ := Runs.bind_ok.mp h
    obtain ⟨_,-,h⟩ := Runs.bind_ok.mp h
    refine List.forall_mem_cons.mpr ⟨?_,ih h⟩
    rw [hc,byteOrderKey_ok hc]

/-- Checked keys come in the order the reader sorts them into. -/
theorem byteOrdered_checked {α : Type} {items items' : List (String × α)} (hp : items.Perm items')
    {loc : String} (h : lib.checkKeys loc 0 none (items'.map (·.1)) = .ok ()) :
    byteOrdered lib items = .ok items' := by
  let key (item : String × α) : Bytes × String × α := (octets (lib.normalize item.1),item)
  have hkeys : (items'.map fun item => (key item).1).Pairwise (· < ·) := by
    have hchain := checkKeys_ascending h
    rw [List.map_map] at hchain
    exact List.isChain_iff_pairwise.mp hchain
  have hmap : items.mapM (fun item => do pure ((← canonical (lib.byteOrderKey item.1)),item)) =
      .ok (items.map key) := by
    refine mapM_ok.mpr (List.forall₂_map_right_iff.mpr (List.forall₂_same.mpr fun item hi => ?_))
    have hkey := byteOrderKey_checked h item.1 (List.mem_map_of_mem (hp.mem_iff.mp hi))
    exact Runs.bind_ok.mpr ⟨_,canonical_ok.mpr hkey,rfl⟩
  have hsorted : (items.map key).insertionSort (·.1 ≤ ·.1) = items'.map key := by
    have hperm : ((items.map key).insertionSort (·.1 ≤ ·.1)).Perm (items'.map key) :=
      (List.perm_insertionSort _ _).trans (hp.map key)
    have hne : ((items'.map key).map (·.1)).Nodup := by
      rw [List.map_map]
      exact hkeys.imp fun {a b} hlt => show a ≠ b from fun he => List.lt_irrefl a (he ▸ hlt)
    refine hperm.eq_of_pairwise (fun p q hp hq hpq hqp => ?_) (List.pairwise_insertionSort _ _) ?_
    · exact List.inj_on_of_nodup_map hne (hperm.mem_iff.mp hp) hq (Std.Antisymm.antisymm _ _ hpq hqp)
    · exact List.pairwise_map.mpr ((List.pairwise_map.mp hkeys).imp fun hlt => List.le_of_lt hlt)
  refine Runs.bind_ok.mpr ⟨_,hmap,?_⟩
  rw [hsorted,List.map_map]
  exact congrArg Except.ok (List.map_id _)

variable {rt : Runtime}

theorem isEventId_minted (hrt : rt.Documented) (payload : Bytes) :
    isEventId ("ev:"++rt.digestHex "ev" payload 16) = true := by
  obtain ⟨digits,hdigits,hlength⟩ := hrt.hex "ev" payload 16 (by simp)
  have hopen : octets "ev:" = [0x65,0x76,0x3a] := by decide
  have hdrop : (octets ("ev:"++rt.digestHex "ev" payload 16)).drop 3 =
      octets (rt.digestHex "ev" payload 16) := by
    rw [Checker.octets_append,hopen]
    rfl
  rw [isEventId,hdrop,hdigits,Checker.hasPrefix,Checker.octets_append,Bool.and_eq_true]
  exact ⟨List.isPrefixOf_iff_prefix.mpr (List.prefix_append _ _),by simpa using hlength⟩

/-- `int` of the text of an instant is the instant. -/
def Runtime.ReadsInstants (rt : Runtime) : Prop :=
  ∀ n, IsNanos n → rt.toInt (.str (Checker.decimalText n)) = .ok n

/-- The fields of an event but for the line it came from. -/
def BundleFields.withRecord (e : BundleFields) (recordId : String) : BundleFields :=
  {e with recordId := recordId}

theorem get?_members (e : BundleRecord lib) :
    Dict.get? e.members "chain_hash" = e.chainHash.map .str ∧
      Dict.get? e.members "chain_prev" = e.chainPrev.map .str := by
  have h := e.valid
  simp only [BundleFields.postInit,checks_cons,ensure_ok] at h
  have hboth := h.2.2.2.2.2.1
  unfold BundleFields.members
  cases hh : e.chainHash <;> cases hp : e.chainPrev <;> simp_all [Dict.get?]

theorem BundleFields.members_keys (e : BundleFields) : e.members.map (·.1) = requiredMembers++optionalMembers ∨
    e.members.map (·.1) = requiredMembers := by
  unfold members
  split
  · exact .inl rfl
  · exact .inr rfl

theorem demand_ok {p : Prop} [Decidable p] {e : SpectraError} {u : Unit} : demand p e = .ok u ↔ p := by
  rw [demand,canonical_ok,ensure_ok]

/-- The object of a record makes the record again, under the id of its line. -/
theorem eventFromObj_bundleObj (hrt : rt.Documented) (hint : rt.ReadsInstants)
    {e : BundleRecord rt.toLibrary} (hm : e.Minted rt.toLibrary) (line : Bytes)
    {obj : List (String × Json)} (ho : e.bundleObj.readBack = .obj obj) : ∃ event,
    eventFromObj rt obj line = .ok event ∧ event.toBundleFields = e.withRecord (rt.recordId line) := by
  rw [BundleFields.bundleObj_eq,Json.readBack_obj,Json.obj.injEq] at ho
  have hget : ∀ key, Dict.get? obj key = (Dict.get? e.members key).map Json.readBack :=
    fun key => ho ▸ Json.get?_readBack e.nodup_members key
  have hread : ∀ key v, Dict.get? e.members key = some v → Dict.get? obj key = some v.readBack :=
    fun key v h => by rw [hget,h]; rfl
  have hkeys : (obj.map (·.1)).Perm (e.members.map (·.1)) := by
    rw [← ho]
    refine ((List.perm_insertionSort _ _).map _).trans ?_
    rw [List.map_map]
    rfl
  have hmembers : requiredMembers ⊆ e.members.map (·.1) ∧
      e.members.map (·.1) ⊆ requiredMembers++optionalMembers := by
    rcases e.members_keys with h | h <;> rw [h]
    · exact ⟨List.subset_append_left _ _,List.Subset.refl _⟩
    · exact ⟨List.Subset.refl _,List.subset_append_left _ _⟩
  have hid := hread "event_id" (.str e.eventId) (by simp [BundleFields.members,Dict.get?])
  have hsource := hread "source_id" (.str e.source) (by simp [BundleFields.members,Dict.get?])
  have htype := hread "event_type" (.str e.eventType) (by simp [BundleFields.members,Dict.get?])
  have hseq := hread "seq" (.int e.seq) (by simp [BundleFields.members,Dict.get?])
  have hevt := hread "t_evt_ns" (.str (Checker.decimalText e.tEvtNs)) (by simp [BundleFields.members,Dict.get?])
  have hing := hread "t_ing_ns" (.str (Checker.decimalText e.tIngNs)) (by simp [BundleFields.members,Dict.get?])
  have hattrs : Dict.get? obj "attrs" =
      some (.obj ((e.attrs.insertionSort (·.1 ≤ ·.1)).map fun p => (p.1,.str p.2))) := by
    rw [hget,← BundleFields.attrs_readBack]
    rfl
  obtain ⟨hhash,hprev⟩ := get?_members e
  have hvalid := e.valid
  simp only [BundleFields.postInit,checks_cons] at hvalid
  obtain ⟨-,-,ht,hi,hordered,-⟩ := hvalid
  have hbytes : byteOrdered rt.toLibrary ((e.attrs.insertionSort (·.1 ≤ ·.1)).map fun p => (p.1,Json.str p.2)) =
      .ok (e.attrs.map fun p => (p.1,Json.str p.2)) := by
    have hkeyed : rt.checkKeys "CanonicalEvent.attrs" 0 none
        ((e.attrs.map fun p => (p.1,Json.str p.2)).map (·.1)) = .ok () := by rwa [List.map_map]
    exact byteOrdered_checked ((List.perm_insertionSort _ _).map _) hkeyed
  have htexts : (e.attrs.map fun p => (p.1,Json.str p.2)).mapM attrText = .ok e.attrs := by
    refine mapM_ok.mpr (List.forall₂_map_left_iff.mpr (List.forall₂_same.mpr fun p _ => rfl))
  have hoptional : ∀ t : Option String, optionalText ((t.map Json.str).map Json.readBack) = .ok t := by
    intro t
    cases t <;> rfl
  obtain ⟨payload,hpayload,hminted⟩ := hm
  have hvalid : (e.withRecord (rt.recordId line)).postInit rt.toLibrary = .ok () := e.valid
  have hverify : (e.withRecord (rt.recordId line)).verifyId rt.toLibrary = .ok true :=
    Runs.bind_ok.mpr ⟨payload,hpayload,congrArg Except.ok (decide_eq_true hminted)⟩
  refine ⟨⟨e.withRecord (rt.recordId line),hvalid⟩,?_,rfl⟩
  refine Runs.bind_ok.mpr ⟨(),demand_ok.mpr ⟨fun key hk => hkeys.mem_iff.mpr (hmembers.1 hk),
    fun key hk => hmembers.2 (hkeys.mem_iff.mp hk)⟩,?_⟩
  refine Runs.bind_ok.mpr ⟨_,by rw [hattrs]; rfl,Runs.bind_ok.mpr ⟨e.eventId,by rw [hid]; rfl,?_⟩⟩
  refine Runs.bind_ok.mpr ⟨(),demand_ok.mpr (hminted ▸ isEventId_minted hrt payload),?_⟩
  refine Runs.bind_ok.mpr ⟨e.source,by rw [hsource]; rfl,Runs.bind_ok.mpr ⟨(),demand_ok.mpr e.snake,?_⟩⟩
  refine Runs.bind_ok.mpr ⟨e.tEvtNs,by rw [hevt]; exact hint _ (checkNanos_range ht),?_⟩
  refine Runs.bind_ok.mpr ⟨e.tIngNs,by rw [hing]; exact hint _ (checkNanos_range hi),?_⟩
  refine Runs.bind_ok.mpr ⟨_,hbytes,Runs.bind_ok.mpr ⟨e.seq,by rw [hseq]; rfl,?_⟩⟩
  refine Runs.bind_ok.mpr ⟨_,htexts,Runs.bind_ok.mpr ⟨e.chainHash,by rw [hget,hhash]; exact hoptional _,?_⟩⟩
  refine Runs.bind_ok.mpr ⟨e.chainPrev,by rw [hget,hprev]; exact hoptional _,?_⟩
  refine Runs.bind_ok.mpr ⟨e.eventType,by rw [htype]; rfl,?_⟩
  refine Runs.bind_ok.mpr ⟨_,canonical_ok.mpr (validated_ok.mpr ⟨hvalid,rfl⟩),?_⟩
  exact Runs.bind_ok.mpr ⟨true,canonical_ok.mpr hverify,Runs.bind_ok.mpr ⟨(),demand_ok.mpr rfl,rfl⟩⟩

theorem readLine_bundleObj (hrt : rt.Documented) (hdecode : rt.DecodesText) (hint : rt.ReadsInstants)
    {e : BundleRecord rt.toLibrary} (hm : e.Minted rt.toLibrary) (hs : e.bundleObj.scf = true)
    (hj : rt.Reads ingestHooks e.bundleObj) : ∃ event, readLine rt (e.bundleObj.dumps true) true = .ok event ∧
      event.toBundleFields = e.withRecord (rt.recordId (e.bundleObj.dumps true)) := by
  obtain ⟨obj,hobj⟩ : ∃ obj, e.bundleObj.readBack = .obj obj :=
    ⟨_,by rw [BundleFields.bundleObj_eq,Json.readBack_obj]⟩
  obtain ⟨event,hevent,hfields⟩ := eventFromObj_bundleObj hrt hint hm (e.bundleObj.dumps true) hobj
  refine ⟨event,?_,hfields⟩
  have htext := Json.octets_text e.bundleObj
  have hloads : rt.jsonLoads ingestHooks (String.ofList e.bundleObj.text) = .ok (.obj obj) := by
    rw [hj _ (.inl htext),Checker.revive_ingestHooks (Json.keyed_readBack (Json.keyed_of_scf hs))
      (Json.distinct_readBack e.distinct),hobj]
  have hdumps : (Json.obj obj).scfDumps = .ok (e.bundleObj.dumps true) :=
    Json.scfDumps_ok.mpr (hobj ▸ ⟨Json.scf_readBack hs,Json.dumps_readBack _⟩)
  refine Runs.bind_ok.mpr ⟨(),demand_ok.mpr rfl,?_⟩
  rw [← htext,hdecode]
  refine Runs.bind_ok.mpr ⟨_,hloads,?_⟩
  rw [htext]
  exact Runs.bind_ok.mpr ⟨_,canonical_ok.mpr hdumps,Runs.bind_ok.mpr ⟨(),demand_ok.mpr rfl,hevent⟩⟩

theorem readLines_bundle (hrt : rt.Documented) (hdecode : rt.DecodesText) (hint : rt.ReadsInstants)
    {events : List (BundleRecord rt.toLibrary)} (hm : ∀ e ∈ events, e.Minted rt.toLibrary)
    (hs : ∀ e ∈ events, e.bundleObj.scf = true) (hj : ∀ e ∈ events, rt.Reads ingestHooks e.bundleObj) :
    ∃ read, (events.map fun e => (e.bundleObj.dumps true,true)).mapM (fun line => readLine rt line.1 line.2) =
      .ok read ∧ read.map (·.toBundleFields) =
        events.map fun e => e.withRecord (rt.recordId (e.bundleObj.dumps true)) := by
  induction events with
  | nil => exact ⟨[],rfl,rfl⟩
  | cons e events ih =>
    obtain ⟨hme,hm⟩ := List.forall_mem_cons.mp hm
    obtain ⟨hse,hs⟩ := List.forall_mem_cons.mp hs
    obtain ⟨hje,hj⟩ := List.forall_mem_cons.mp hj
    obtain ⟨event,hevent,hfields⟩ := readLine_bundleObj hrt hdecode hint hme hse hje
    obtain ⟨read,hread,hall⟩ := ih hm hs hj
    refine ⟨event::read,mapM_ok.mpr (.cons hevent (mapM_ok.mp hread)),?_⟩
    rw [List.map_cons,List.map_cons,hfields,hall]

end

/-! ### Sealed bundles -/

/-- A bundle is the feed of the lines of its events. -/
theorem bundleLines_feed {lib : Library} {events : List (BundleRecord lib)} {lines : List Bytes}
    (h : events.mapM (fun e => ingested e.bundleObj.scfLine) = .ok lines) :
    (∀ e ∈ events, e.bundleObj.scf = true) ∧
      lines.flatten = feed (events.map fun e => e.bundleObj.dumps true) := by
  have hf := mapM_ok.mp h
  clear h
  induction hf with
  | nil => simp [feed]
  | @cons e line _ _ he _ ih =>
    obtain ⟨hs,rfl⟩ := Json.scfLine_ok.mp (ingested_ok.mp he)
    refine ⟨List.forall_mem_cons.mpr ⟨hs,ih.1⟩,?_⟩
    rw [List.flatten_cons,ih.2,List.map_cons,feed,feed,List.flatMap_cons]

/-- The link check holds of every record of a slice, at the opening of a span and behind its neighbour. -/
def Continuous {lib : Library} (own : List (BundleRecord lib)) : Prop :=
  (∀ e ∈ own, Liveness.chainLinkContinuityOnly none e = true) ∧
    own.IsChain fun l r => Liveness.chainLinkContinuityOnly (some l) r = true

theorem continuous_of_chained {lib : Library} {own : List (BundleRecord lib)} (h : Liveness.Chained own) :
    Continuous own := by
  have hsome : ∀ e ∈ own, ∃ hash prev, e.chainHash = some hash ∧ e.chainPrev = some prev := by
    intro e he
    obtain ⟨hhash,hprev⟩ := h.hashed e he
    obtain ⟨hash,hhash⟩ := Option.isSome_iff_exists.mp hhash
    obtain ⟨prev,hprev⟩ := Option.isSome_iff_exists.mp hprev
    exact ⟨hash,prev,hhash,hprev⟩
  refine ⟨fun e he => ?_,?_⟩
  · obtain ⟨hash,prev,hhash,hprev⟩ := hsome e he
    simp [Liveness.chainLinkContinuityOnly,hhash,hprev]
  · refine h.linked.imp_of_mem_imp fun l r hl hr hlink => ?_
    obtain ⟨hash,prev,hhash,-⟩ := hsome l hl
    obtain ⟨hash',prev',hhash',hprev'⟩ := hsome r hr
    rw [hhash,hprev'] at hlink
    simp [Liveness.chainLinkContinuityOnly,hhash,hhash',hprev',Option.some.inj hlink]

/-- Every slice of a sealed bundle verifies, the links of a sealed source are continuous in the order
liveness reads them, and the bundle is read back as it is but for the ids of its lines. -/
theorem sealed_bundle_verifies (rt : Runtime) (raw : Bytes) (sources : List DeclaredSource)
    (limits : IngestLimits) (time : Option ℤ) (result : IngestResult rt.toLibrary)
    (h : ingestBytes rt raw sources limits time = .ok result) (hrt : rt.Documented)
    (hdecode : rt.DecodesText) (hint : rt.ReadsInstants)
    (hjson : ∀ e ∈ result.events, rt.Reads ingestHooks e.bundleObj) :
    (∀ source, verifyChain rt.toLibrary none (ownRecords result.events source) = .ok []) ∧
    (∀ d ∈ sources, d.integrityClass ≠ .unlinked →
      Continuous (Liveness.sortedEvents (ownRecords result.events d.source))) ∧
    ∃ read, readBundle rt result.bundleBytes = .ok read ∧
      read.map (·.withRecord "") = result.events.map (·.withRecord "") := by
  obtain ⟨⟨declared,kept,hseal⟩,lines,hlines,hbytes⟩ := ingestBytes_ok h
  have hascending := sealEvents_ascending hseal
  refine ⟨sealEvents_verified hseal,fun d hd hc => ?_,?_⟩
  · rw [Liveness.sortedEvents_own hascending]
    exact continuous_of_chained (Liveness.ingested_chained h hd hc)
  · obtain ⟨hscf,hfeed⟩ := bundleLines_feed hlines
    have hfeedless : ∀ line ∈ result.events.map (fun e => e.bundleObj.dumps true), (0x0a : UInt8) ∉ line := by
      intro line hl hmem
      obtain ⟨e,he,rfl⟩ := List.mem_map.mp hl
      exact absurd (Json.dumps_printed (Json.keyed_of_scf (hscf e he)) _ hmem) (by decide)
    obtain ⟨read,hread,hfields⟩ := readLines_bundle hrt hdecode hint (sealEvents_minted hseal) hscf hjson
    have hkeys : read.map (·.sortKey) = result.events.map (·.sortKey) := by
      have hmap := congrArg (List.map BundleFields.sortKey) hfields
      rw [List.map_map,List.map_map] at hmap
      exact hmap
    refine ⟨read,?_,?_⟩
    · rw [readBundle,hbytes,hfeed,splitOctets_feed hfeedless,List.map_map]
      refine Runs.bind_ok.mpr ⟨read,hread,Runs.bind_ok.mpr ⟨(),?_,rfl⟩⟩
      exact canonical_ok.mpr (checkStrictlyAscending_ok.mpr (hkeys ▸ hascending))
    · have hmap := congrArg (List.map fun e : BundleFields => e.withRecord "") hfields
      rw [List.map_map,List.map_map] at hmap
      exact hmap

/-! ### One login of a source that keeps a chain -/

/-- The runtime that reads these documents. -/
def documentRuntime (documents : List Json) : Runtime :=
  {Checker.readerOf documents with toInt := Checker.intText,encodes := fun _ => true}

/-- The texts it reads, and what they spell. -/
def documentTable (documents : List Json) : List (Bytes × Json) :=
  documents.flatMap fun d => [(d.dumps true,d.readBack),(d.dumps true++[0x0a],d.readBack)]

theorem documentRuntime_loads (documents : List Json) (hooks : Checker.Hooks) (text : String) :
    (documentRuntime documents).jsonLoads hooks text =
      (Dict.get? (documentTable documents) (octets text)).elim (.error .jsonDecode) .ok := rfl

def chainedSources : List DeclaredSource := [⟨"iam",.chained,["login"]⟩]

/-- The events of the login. -/
def chainedEvents (documents : List Json) : List BundleFields :=
  match ingestBytes (documentRuntime documents) (loginBytes "web") chainedSources {} none with
  | .ok result => result.events.map (·.toBundleFields)
  | .error _ => []

/-- The line and the object that is written for it. -/
def chainedDocuments : List Json := loginLine "web"::(chainedEvents [loginLine "web"]).map (·.bundleObj)

/-- The login is sealed alike when its object can be read too. -/
def chainedRun := returned (ingestBytes (documentRuntime chainedDocuments) (loginBytes "web") chainedSources {} none)
  (fun result => decide (result.events.length = 1 ∧
    result.events.map (·.toBundleFields) = chainedEvents [loginLine "web"])) (by decide +kernel)

/-- Documents that their texts tell apart, each of them read back as it is. -/
structure ToldDocuments where
  documents : List Json
  apart : ((documentTable documents).map (·.1)).Nodup
  distinct : ((documentTable documents).all fun p => p.2.distinct) = true
  kept : (documents.all fun j => j.keyed && j.distinct) = true

def chainedTold : ToldDocuments :=
  ⟨chainedDocuments,by decide +kernel,by decide +kernel,by decide +kernel⟩

theorem documentRuntime_documented {documents : List Json}
    (h : ∀ p ∈ documentTable documents, p.2.distinct = true) : (documentRuntime documents).Documented := by
  refine documented_of rfl rfl fun text j hj => ?_
  rw [documentRuntime_loads] at hj
  cases hget : Dict.get? (documentTable documents) (octets text) with
  | none =>
    rw [hget] at hj
    cases hj
  | some v =>
    rw [hget] at hj
    exact Except.ok.inj hj ▸ h _ (Dict.get?_mem hget)

theorem documentRuntime_reads {documents : List Json} {j : Json} (hj : j ∈ documents)
    (hn : ((documentTable documents).map (·.1)).Nodup) (hk : j.keyed = true) (hd : j.distinct = true) :
    (documentRuntime documents).Reads ingestHooks j := by
  intro text ht
  have hget : Dict.get? (documentTable documents) (octets text) = some j.readBack := by
    refine Dict.get?_of_mem hn (List.mem_flatMap.mpr ⟨j,hj,?_⟩)
    rcases ht with ht | ht <;> rw [ht] <;> simp
  rw [Checker.revive_ingestHooks (Json.keyed_readBack hk) (Json.distinct_readBack hd),documentRuntime_loads,hget]
  rfl

theorem sealed_bundle_verifies_login : ∃ result,
    ingestBytes (documentRuntime chainedDocuments) (loginBytes "web") chainedSources {} none = .ok result ∧
    result.events.length = 1 ∧
    (∀ source, verifyChain _ none (ownRecords result.events source) = .ok []) ∧
    (∀ d ∈ chainedSources, d.integrityClass ≠ .unlinked →
      Continuous (Liveness.sortedEvents (ownRecords result.events d.source))) ∧
    ∃ read, readBundle (documentRuntime chainedDocuments) result.bundleBytes = .ok read ∧
      read.map (·.withRecord "") = result.events.map (·.withRecord "") := by
  obtain ⟨result,hresult,hrun⟩ := chainedRun
  obtain ⟨hlength,hsame⟩ := of_decide_eq_true hrun
  refine ⟨result,hresult,hlength,?_⟩
  refine sealed_bundle_verifies _ _ _ _ _ result hresult
    (documentRuntime_documented fun p hp => List.all_eq_true.mp chainedTold.distinct p hp)
    (Checker.readerOf_decodes chainedDocuments) (fun n hn => Checker.intText_decimalText (by unfold IsNanos at hn; omega))
    fun e he => ?_
  have hmem : e.bundleObj ∈ chainedDocuments := by
    refine List.mem_cons_of_mem _ (List.mem_map.mpr ⟨e.toBundleFields,?_,rfl⟩)
    rw [← hsame]
    exact List.mem_map_of_mem he
  have hj := List.all_eq_true.mp chainedTold.kept _ hmem
  rw [Bool.and_eq_true] at hj
  exact documentRuntime_reads hmem chainedTold.apart hj.1 hj.2

end Spectra
