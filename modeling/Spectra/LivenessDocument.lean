import Spectra.Blindness
import Spectra.Licences
import Spectra.LivenessArtifact
import Spectra.Preimages

/-! The view the envelope takes of the document of stage S7, and the rows the checker reads back
from it. -/
namespace Spectra

open Checker (Library Row sourcePrefix)

namespace Liveness

/-! ### The view of the envelope -/

def LivenessInterval.view (i : LivenessInterval) : Fallible Spectra.LivenessInterval :=
  validated _ fun h => ⟨i.t0Ns,i.t1Ns,i.verdict,i.reason.text,i.witness,h⟩

def SourceLiveness.view (entry : SourceLiveness) : Fallible Spectra.SourceLiveness := do
  let intervals ← entry.intervals.mapM (·.view)
  validated _ fun h => ⟨entry.sourceId,intervals,h⟩

/-- `_liveness_view`: the document's sources, sorted again. -/
def livenessView (document : LivenessDocument) : Fallible LivenessView := do
  let sources ← document.sources.mapM (·.view)
  validated _ fun h => ⟨sources.insertionSort (·.sourceId ≤ ·.sourceId),h⟩

/-- The interval of the view that stands for one of the document. -/
structure Viewed (i : LivenessInterval) (j : Spectra.LivenessInterval) : Prop where
  start : j.t0Ns = i.t0Ns
  stop : j.t1Ns = i.t1Ns
  verdict : j.verdict = i.verdict
  reason : j.reason = i.reason.text

/-- The timeline of the view that stands for one of the document. -/
structure SourceViewed (entry : SourceLiveness) (s : Spectra.SourceLiveness) : Prop where
  named : s.sourceId = entry.sourceId
  intervals : List.Forall₂ Viewed entry.intervals s.intervals

theorem view_viewed {i : LivenessInterval} {j : Spectra.LivenessInterval} (h : i.view = .ok j) :
    Viewed i j := by
  obtain ⟨_,rfl⟩ := validated_ok.mp h
  exact ⟨rfl,rfl,rfl,rfl⟩

theorem view_sourceViewed {entry : SourceLiveness} {s : Spectra.SourceLiveness}
    (h : entry.view = .ok s) : SourceViewed entry s := by
  obtain ⟨intervals,hi,h⟩ := Runs.bind_ok.mp h
  obtain ⟨_,rfl⟩ := validated_ok.mp h
  exact ⟨rfl,(mapM_ok.mp hi).imp fun _ _ => view_viewed⟩

theorem LivenessDocument.ascending (document : LivenessDocument) :
    (document.sources.map (·.sourceId)).Pairwise (· < ·) := by
  have h := document.valid
  simp only [DocumentFields.postInit,checks_cons] at h
  exact checkStrictlyAscending_ok.mp h.2.2.2.1

theorem sourceIds_eq {entries : List SourceLiveness} {sources : List Spectra.SourceLiveness}
    (h : List.Forall₂ SourceViewed entries sources) :
    sources.map (·.sourceId) = entries.map (·.sourceId) := by
  induction h with
  | nil => rfl
  | cons hab _ ih => rw [List.map_cons,List.map_cons,hab.named,ih]

/-- The view has the document's sources, in their order. -/
theorem livenessView_ok {document : LivenessDocument} {view : LivenessView}
    (h : livenessView document = .ok view) :
    List.Forall₂ SourceViewed document.sources view.sources := by
  obtain ⟨sources,hs,h⟩ := Runs.bind_ok.mp h
  obtain ⟨_,rfl⟩ := validated_ok.mp h
  have hviewed : List.Forall₂ SourceViewed document.sources sources :=
    (mapM_ok.mp hs).imp fun _ _ => view_sourceViewed
  have hsorted : sources.Pairwise (·.sourceId ≤ ·.sourceId) := by
    have := document.ascending
    rw [← sourceIds_eq hviewed,List.pairwise_map] at this
    exact this.imp le_of_lt
  simp only
  rwa [hsorted.insertionSort_eq]

theorem viewed_isChain {l : List LivenessInterval} {m : List Spectra.LivenessInterval}
    (h : List.Forall₂ Viewed l m) (hc : l.IsChain fun i j => i.t1Ns = j.t0Ns) :
    m.IsChain fun i j => i.t1Ns = j.t0Ns := by
  induction h with
  | nil => exact .nil
  | cons hij hrest ih =>
    cases hrest with
    | nil => exact .singleton _
    | cons hij' hrest =>
      rw [List.isChain_cons_cons] at hc ⊢
      exact ⟨by rw [hij.stop,hij'.start,hc.1],ih hc.2⟩

theorem SourceLiveness.checked (entry : SourceLiveness) : isSnake entry.source = true ∧
    entry.intervals.IsChain fun i j => i.t1Ns = j.t0Ns := by
  have h := entry.valid
  simp only [TimelineFields.postInit,checks_cons,ensure_ok] at h
  exact ⟨h.1,h.2.2.1⟩

theorem livenessView_contiguous {document : LivenessDocument} {view : LivenessView}
    (h : livenessView document = .ok view) : view.Contiguous := by
  intro source
  rw [LivenessView.timeline]
  cases hf : view.sources.find? (·.sourceId = source) with
  | none => exact .nil
  | some s =>
    obtain ⟨entry,-,hentry⟩ := (forall₂_mem (livenessView_ok h)).2 s (List.mem_of_find?_eq_some hf)
    exact viewed_isChain hentry.intervals entry.checked.2

/-! ### The rows of the checker -/

/-- The source as the document is written: its timeline, among members nothing here reads. -/
structure SourceLiveness.WrittenAs (entry : SourceLiveness) (written : Json) : Prop where
  source : written.item "source_id" = .ok (.str entry.source)
  intervals : written.get "intervals" =
    .ok (some (.list (entry.intervals.map fun i => i.toScf.readBack)))

/-- The parsed file lists the sources of the document. -/
def LivenessDocument.WrittenAs (document : LivenessDocument) (written : Json) : Prop :=
  ∃ listed, written.get "sources" = .ok (some (.list listed)) ∧
    List.Forall₂ SourceLiveness.WrittenAs document.sources listed

end Liveness

/-- The row of an interval. -/
def LivenessInterval.row (i : LivenessInterval) : Row :=
  ⟨i.t0Ns,i.t1Ns,.str i.verdict.text,.str i.reason⟩

def SourceLiveness.rows (s : SourceLiveness) : List Row := s.intervals.map (·.row)

namespace Liveness

theorem intText_nanos {loc : String} {n : ℤ} (h : checkNanos loc n = .ok ()) :
    Checker.intText (.str (Checker.decimalText n)) = .ok n := by
  have := ensure_ok.mp h
  exact Checker.intText_decimalText (by norm_num at *; omega)

theorem readRow_toScf {i : LivenessInterval} {j : Spectra.LivenessInterval} (h : Viewed i j) :
    Checker.readRow i.toScf.readBack = .ok j.row := by
  have hvalid := i.valid
  simp only [IntervalFields.postInit,Interval.postInit,checks_cons] at hvalid
  obtain ⟨⟨h0,h1,-⟩,-⟩ := hvalid
  have hitem : ∀ {key v}, i.toScf.item key = .ok v → i.toScf.readBack.item key = .ok v.readBack := by
    intro key v hv
    obtain ⟨m,hm,hv⟩ := Json.item_ok.mp hv
    cases hm
    refine Json.item_readBack ?_ hv
    cases i.missingSeq <;> split <;> simp
  refine Runs.bind_ok.mpr ⟨_,hitem (v := .str (Checker.decimalText i.t0Ns)) rfl,?_⟩
  refine Runs.bind_ok.mpr ⟨_,intText_nanos h0,?_⟩
  refine Runs.bind_ok.mpr ⟨_,hitem (v := .str (Checker.decimalText i.t1Ns)) rfl,?_⟩
  refine Runs.bind_ok.mpr ⟨_,intText_nanos h1,?_⟩
  refine Runs.bind_ok.mpr ⟨_,hitem (v := .str i.verdict.text) rfl,?_⟩
  refine Runs.bind_ok.mpr ⟨_,hitem (v := .str i.reason.text) rfl,?_⟩
  rw [LivenessInterval.row,h.start,h.stop,h.verdict,h.reason]
  rfl

theorem readRows {l : List LivenessInterval} {m : List Spectra.LivenessInterval}
    (h : List.Forall₂ Viewed l m) :
    (l.map fun i => i.toScf.readBack).mapM Checker.readRow = .ok (m.map (·.row)) := by
  rw [mapM_ok,List.forall₂_map_left_iff,List.forall₂_map_right_iff]
  exact h.imp fun _ _ => readRow_toScf

/-- The rows of a timeline come sorted. -/
theorem rows_sorted (s : Spectra.SourceLiveness) :
    (s.rows.insertionSort fun a b => toLex (a.t0Ns,a.t1Ns) ≤ toLex (b.t0Ns,b.t1Ns)) = s.rows := by
  refine List.Pairwise.insertionSort_eq ?_
  have h := checkStrictlyAscending_ok.mp s.valid
  rw [List.pairwise_map] at h
  rw [SourceLiveness.rows,List.pairwise_map]
  exact h.imp fun hij => (Prod.Lex.toLex_lt_toLex.mpr (.inl hij)).le

theorem src_snake {name : String} (h : isSnake name = true) :
    Checker.src (.str name) = .ok (sourcePrefix++name) := by
  simp [Checker.src,Json.str?,isSnake_not_prefixed h]

theorem readSource_written {entry : SourceLiveness} {s : Spectra.SourceLiveness} {written : Json}
    (h : SourceViewed entry s) (hw : entry.WrittenAs written) (d : List (SourceId × List Row)) :
    Checker.readSource d written = .ok (Dict.set d s.sourceId s.rows) := by
  refine Runs.bind_ok.mpr ⟨_,hw.intervals,Runs.bind_ok.mpr ⟨_,rfl,?_⟩⟩
  refine Runs.bind_ok.mpr ⟨_,readRows h.intervals,Runs.bind_ok.mpr ⟨_,hw.source,?_⟩⟩
  refine Runs.bind_ok.mpr ⟨_,src_snake entry.checked.1,?_⟩
  rw [h.named]
  exact congrArg (fun rows => Except.ok (Dict.set d entry.sourceId rows)) (rows_sorted s)

theorem readSources_written {entries : List SourceLiveness} {sources : List Spectra.SourceLiveness}
    {listed : List Json} (h : List.Forall₂ SourceViewed entries sources)
    (hw : List.Forall₂ SourceLiveness.WrittenAs entries listed) (d : List (SourceId × List Row)) :
    listed.foldlM Checker.readSource d =
      .ok (sources.foldl (fun d s => Dict.set d s.sourceId s.rows) d) := by
  induction h generalizing listed d with
  | nil => cases hw; rfl
  | cons hab _ ih =>
    cases hw with
    | cons hwritten hw =>
      exact Runs.foldlM_cons_ok.mpr ⟨_,readSource_written hab hwritten d,ih hw _⟩

/-- From the file the checker reads the rows of the view. -/
theorem readIntervals_written {document : LivenessDocument} {view : LivenessView} {written : Json}
    (h : livenessView document = .ok view) (hw : document.WrittenAs written) :
    Checker.readIntervals written = .ok (view.sources.map fun s => (s.sourceId,s.rows)) := by
  obtain ⟨listed,hl,hw⟩ := hw
  refine Runs.bind_ok.mpr ⟨_,hl,Runs.bind_ok.mpr ⟨listed,rfl,?_⟩⟩
  rw [readSources_written (livenessView_ok h) hw,Dict.foldl_set_fresh ?_]
  · rfl
  · exact (checkStrictlyAscending_ok.mp view.valid).imp ne_of_lt

end Liveness

/-! ### Blindness by the rows -/

theorem rows_timeline {view : LivenessView} {source : SourceId} {rows : List Row}
    (h : Dict.get? (view.sources.map fun s => (s.sourceId,s.rows)) source = some rows) :
    rows = (view.timeline source).map (·.row) := by
  rw [LivenessView.timeline]
  revert h
  induction view.sources with
  | nil => intro h; cases h
  | cons s l ih =>
    intro h
    by_cases hs : s.sourceId = source
    · rw [List.map_cons,Dict.get?,if_pos hs] at h
      rw [List.find?_cons_of_pos (by simpa using hs),← Option.some.inj h]
      rfl
    · rw [List.map_cons,Dict.get?,if_neg hs] at h
      rw [List.find?_cons_of_neg (by simpa using hs),ih h]

theorem rows_of_timeline {view : LivenessView} {source : SourceId} (h : view.timeline source ≠ []) :
    Dict.get? (view.sources.map fun s => (s.sourceId,s.rows)) source =
      some ((view.timeline source).map (·.row)) := by
  have hs : (Dict.get? (view.sources.map fun s => (s.sourceId,s.rows)) source).isSome := by
    rw [Dict.isSome_get?_iff,List.map_map]
    obtain ⟨i,hi⟩ := List.exists_mem_of_ne_nil _ h
    obtain ⟨entry,hentry,hid,-⟩ := LivenessView.mem_timeline hi
    exact List.mem_map.mpr ⟨entry,hentry,hid⟩
  obtain ⟨rows,hrows⟩ := Option.isSome_iff_exists.mp hs
  rw [hrows,rows_timeline hrows]

theorem text_live {verdict : LivenessVerdict} :
    (Json.str verdict.text).eq (.str "LIVE") = false ↔ verdict ≠ .live := by
  cases verdict <;> decide

namespace Checker

/-- Rows in order that leave no instant out are enough for the loop. -/
theorem nonLiveFrom_of_nonLive {rows : List Row} {cursor t1 : ℤ} (hlt : cursor < t1)
    (hrows : rows.Pairwise fun a b => a.t1Ns ≤ b.t0Ns) (h : NonLive rows cursor t1) :
    nonLiveFrom t1 cursor rows = true := by
  induction rows generalizing cursor with
  | nil =>
    obtain ⟨r,hr,-⟩ := h cursor le_rfl hlt
    cases hr
  | cons r rows ih =>
    rw [List.pairwise_cons] at hrows
    -- past the first row, the instants lie in later ones
    have hlater : ∀ c, r.t1Ns ≤ c → cursor ≤ c → c < t1 → nonLiveFrom t1 c rows = true := by
      intro c hrc hc hlt
      refine ih hlt hrows.2 fun t h0 h1 => ?_
      obtain ⟨q,hq,hq0,hq1,hv⟩ := h t (by omega) h1
      rcases List.mem_cons.mp hq with rfl | hq
      · omega
      · exact ⟨q,hq,hq0,hq1,hv⟩
    rw [nonLiveFrom]
    split_ifs with hend hstart hlive hstop
    · exact hlater cursor hend le_rfl hlt
    · obtain ⟨q,hq,hq0,hq1,-⟩ := h cursor le_rfl hlt
      rcases List.mem_cons.mp hq with rfl | hq
      · omega
      · have := hrows.1 q hq
        omega
    · obtain ⟨q,hq,hq0,hq1,hv⟩ := h cursor le_rfl hlt
      rcases List.mem_cons.mp hq with rfl | hq
      · rw [hlive] at hv; cases hv
      · have := hrows.1 q hq
        omega
    · rfl
    · exact hlater r.t1Ns le_rfl (by omega) (by omega)

end Checker

/-- The checker's loop over the rows of a source decides blindness at every instant. -/
theorem nonLiveOver_iff {view : LivenessView} (hc : view.Contiguous) {source : SourceId} {t0 t1 : ℤ}
    (hlt : t0 < t1) : Checker.nonLiveOver ((view.timeline source).map (·.row)) t0 t1 = true ↔
      ∀ t, t0 ≤ t → t < t1 → view.BlindAt source t := by
  have hrow : ∀ t, (∃ r ∈ (view.timeline source).map (·.row), r.t0Ns ≤ t ∧ t < r.t1Ns ∧
      r.verdict.eq (.str "LIVE") = false) ↔ view.BlindAt source t := by
    intro t
    simp only [List.mem_map,exists_exists_and_eq_and,LivenessInterval.row,text_live]
    constructor
    · rintro ⟨i,hi,h0,h1,hv⟩
      exact ⟨i.verdict,i.reason,hv,i,hi,h0,h1,rfl,rfl⟩
    · rintro ⟨_,_,hv,i,hi,h0,h1,rfl,rfl⟩
      exact ⟨i,hi,h0,h1,hv⟩
  constructor
  · intro h t h0 h1
    exact (hrow t).mp (Checker.nonLive_of_nonLiveFrom h t h0 h1)
  · intro h
    refine Checker.nonLiveFrom_of_nonLive hlt ?_ fun t h0 h1 => (hrow t).mpr (h t h0 h1)
    rw [List.pairwise_map]
    exact (LivenessView.timeline_before hc source).imp fun hij => hij.2

end Spectra
