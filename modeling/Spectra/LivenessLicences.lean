import Spectra.Grants
import Spectra.LivenessDocument
import Spectra.LiveMeaning

/-! The licences of stage S7 and those of the envelope: `spectra_vs.liveness` issues one for each
fragment of a timeline, the envelope one for each run of its view. -/
namespace Spectra

open Checker (Library sourcePrefix hasPrefix readerOf)
open Timeline (Covered)

/-- `canon.sorted_unique`. -/
def sortedUnique (values : List String) : Fallible (List String) := do
  let ordered := values.insertionSort (· ≤ ·)
  ensure (ordered.IsChain (· ≠ ·)) ⟨.canonError,"E-CANON-DUPKEY","sorted_unique: duplicate value"⟩
  pure ordered

theorem sortedUnique_ok {values sorted : List String} : sortedUnique values = .ok sorted ↔
    values.Nodup ∧ sorted = values.insertionSort (· ≤ ·) := by
  have hperm := List.perm_insertionSort (· ≤ ·) values
  have hsorted := List.pairwise_insertionSort (· ≤ ·) values
  have hchain : (values.insertionSort (· ≤ ·)).IsChain (· ≠ ·) ↔ values.Nodup := by
    rw [← hperm.nodup_iff]
    constructor
    · intro h
      have hlt : (values.insertionSort (· ≤ ·)).IsChain (· < ·) :=
        List.isChain_iff_getElem.mpr fun i hi => lt_of_le_of_ne
          (List.isChain_iff_getElem.mp hsorted.isChain i hi) (List.isChain_iff_getElem.mp h i hi)
      exact (List.isChain_iff_pairwise.mp hlt).imp ne_of_lt
    · exact List.Pairwise.isChain
  constructor
  · intro h
    obtain ⟨_,hn,h⟩ := Runs.bind_ok.mp h
    exact ⟨hchain.mp (ensure_ok.mp hn),(Runs.pure_ok.mp h).symm⟩
  · rintro ⟨hn,rfl⟩
    exact Runs.bind_ok.mpr ⟨(),ensure_ok.mpr (hchain.mpr hn),rfl⟩

/-- True when the two half-open intervals share an instant. -/
def Interval.overlaps (t0Ns t1Ns : ℤ) (other : Interval) : Bool :=
  t0Ns < other.t1Ns && other.t0Ns < t1Ns

/-- An interval as a message shows it. -/
def Interval.shown (w : Interval) : String :=
  "Interval(t0_ns="++toString w.t0Ns++", t1_ns="++toString w.t1Ns++")"

/-- The loop of `LivenessView.live`. -/
def liveFrom (t1 : ℤ) : List LivenessInterval → ℤ → Bool
  | [], _ => false
  | i::rest, cursor =>
    if i.t1Ns ≤ cursor then liveFrom t1 rest cursor
    else if cursor < i.t0Ns then false
    else if !i.isLive then false
    else if t1 ≤ i.t1Ns then true
    else liveFrom t1 rest i.t1Ns

/-- `LivenessView.live`. -/
def LivenessView.live (view : LivenessView) (sourceId : SourceId) (window : Interval) : Bool :=
  if window.isEmpty then false else liveFrom window.t1Ns (view.timeline sourceId) window.t0Ns

namespace Liveness

/-! ### The licences of the document -/

/-- `_intervals_of`. -/
def intervalsOf (document : LivenessDocument) (sourceId : String) : Fallible (List LivenessInterval) :=
  match document.sourceEntry sourceId with
  | some entry => .ok entry.intervals
  | none => .error (ErrorType.licenceError.mk
      ("source '"++sourceId++"' is absent from the liveness document"))

def LivenessInterval.overlaps (i : LivenessInterval) (window : Interval) : Bool :=
  Interval.overlaps i.t0Ns i.t1Ns window

/-- Every interval that meets the window is LIVE, and the grid reaches over it. -/
def liveOver (intervals : List LivenessInterval) (window : Interval) : Bool :=
  match intervals.head?, intervals.getLast? with
  | some first, some last =>
    if window.isEmpty then false
    else if window.t0Ns < first.t0Ns ∨ last.t1Ns < window.t1Ns then false
    else intervals.all fun entry => !(entry.overlaps window) || entry.verdict = .live
  | _, _ => false

/-- `live`. -/
def live (document : LivenessDocument) (sourceId : String) (window : Interval) : Fallible Bool := do
  pure (liveOver (← intervalsOf document sourceId) window)

/-- The licence of one fragment. -/
def LivenessInterval.licence (D : Digest) (sourceId : String) (fragment : LivenessInterval) :
    Fallible Licence := do
  let interval ← Interval.of fragment.t0Ns fragment.t1Ns
  Licence.mint D (if hasPrefix sourcePrefix sourceId then sourceId else sourcePrefix++sourceId) interval
    (if fragment.verdict = .suppressed then .suppressed else .blind) fragment.reason.text fragment.witness

/-- `licences_for`: one licence for each fragment that meets the window. -/
def licencesFor (D : Digest) (document : LivenessDocument) (sourceId : String) (window : Interval) :
    Fallible (List Licence) := do
  let entries ← intervalsOf document sourceId
  ensure (¬window.isEmpty) (ErrorType.licenceError.mk (sourceId++": an empty interval licenses nothing"))
  let covering := entries.filter (·.overlaps window)
  match covering.head?, covering.getLast? with
  | some first, some last =>
    ensure (¬(window.t0Ns < first.t0Ns ∨ last.t1Ns < window.t1Ns)) (ErrorType.licenceError.mk
      (sourceId++": "++window.shown++" is not fully covered by the liveness grid"))
    ensure (∀ fragment ∈ covering, fragment.verdict ≠ .live) (ErrorType.licenceError.mk
      (sourceId++": "++window.shown++" overlaps LIVE time and is therefore not licensed"))
    let licences ← covering.mapM (·.licence D sourceId)
    pure (licences.insertionSort (·.sortKey ≤ ·.sortKey))
  | _, _ => .error (ErrorType.licenceError.mk
      (sourceId++": "++window.shown++" lies outside the liveness grid"))

/-- A licence that was withheld; its source is bare. -/
structure VoidedLicence where
  licenseId : LicenseId
  source : String
  t0Ns : ℤ
  t1Ns : ℤ
  reason : String
  deriving DecidableEq, Repr

def VoidedLicence.sortKey (v : VoidedLicence) : String ×ₗ ℤ ×ₗ ℤ := toLex (v.source,toLex (v.t0Ns,v.t1Ns))

/-- The answer to a request for permission. -/
structure LicenceIssue where
  granted : Bool
  licences : List Licence
  voided : List VoidedLicence
  blockedSources : List String
  licenseVoidedBySuspectedTampering : Bool
  deriving DecidableEq

/-- One more source is blocked, or its licences are collected. -/
def issueStep (D : Digest) (document : LivenessDocument) (window : Interval)
    (st : List String × List Licence) (sourceId : String) : Fallible (List String × List Licence) := do
  if ← live document sourceId window then pure (st.1++[sourceId],st.2)
  else match licencesFor D document sourceId window with
    | .ok licences => pure (st.1,st.2++licences)
    | .error e => if e.type = .licenceError then pure (st.1++[sourceId],st.2) else .error e

/-- `issue_licences`. -/
def issueLicences (D : Digest) (document : LivenessDocument) (producingSources : List String)
    (window : Interval) (voidedLicenseIds : List LicenseId) : Fallible LicenceIssue :=
  if producingSources = [] then .ok ⟨false,[],[],[],false⟩
  else do
    let (blocked,collected) ← (← sortedUnique producingSources).foldlM (issueStep D document window) ([],[])
    if blocked ≠ [] then pure ⟨false,[],[],blocked,false⟩
    else
      let voided := (collected.filter (·.licenseId ∈ voidedLicenseIds)).map fun l =>
        (⟨l.licenseId,Checker.removePrefix sourcePrefix l.sourceId,l.t0Ns,l.t1Ns,l.reason⟩ : VoidedLicence)
      if voided ≠ [] then pure ⟨false,[],voided.insertionSort (·.sortKey ≤ ·.sortKey),[],true⟩
      else pure ⟨true,collected.insertionSort (·.sortKey ≤ ·.sortKey),[],[],false⟩

end Liveness

end Spectra
