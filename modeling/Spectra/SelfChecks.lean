import Spectra.Blindness
import Spectra.Grants
import Spectra.Statuses
import Spectra.Tally

/-! The checks that grounding and the envelope make on their own results: the order and the distinctness
a program is published in, the containment of one side of the bracket in the other, the support of an
edge by more than ghosts. On the lower side, and between the sides, none of them ever fails. -/
namespace Spectra

variable {D : Digest} {C : Ceilings} {s : Setup} {view : LivenessView} {entities : List Entity}

/-! ### Snapshots -/

/-- What is sorted by a key that tells its members apart ascends strictly. -/
theorem insertionSort_ascending {α κ : Type*} [LinearOrder κ] {key : α → κ} {l : List α}
    (h : (l.map key).Nodup) : ((l.insertionSort (key · ≤ key ·)).map key).Pairwise (· < ·) := by
  have hsorted : (l.insertionSort (key · ≤ key ·)).Pairwise (key · ≤ key ·) := by
    have : Std.Total (α := α) (key · ≤ key ·) := ⟨fun a b => le_total (key a) (key b)⟩
    have : IsTrans α (key · ≤ key ·) := ⟨fun _ _ _ => le_trans⟩
    exact List.pairwise_insertionSort _ l
  have hdistinct : ((l.insertionSort (key · ≤ key ·)).map key).Nodup :=
    ((List.perm_insertionSort _ l).map key).nodup_iff.mpr h
  refine List.pairwise_map.mpr ((hsorted.and (List.pairwise_map.mp hdistinct)).imp fun h => ?_)
  exact lt_of_le_of_ne h.1 h.2

theorem Engine.facts_nodup (e : Engine D) : (e.base.facts.map (·.factKey)).Nodup :=
  e.base.distinct.map fun _ _ => Fact.key_inj

/-- A program is refused for the order of its licences alone. -/
theorem Engine.Tracked.snapshot {e : Engine D} (h : e.Tracked) {k : ProgramKind} {licences : List Licence}
    (hl : (licences.map (·.sortKey)).Nodup) (hk : k = .pMin → licences = []) :
    ∃ program, e.snapshot k licences = .ok program := by
  refine Exists.imp (fun _ => validated_ok.mpr) ⟨_,?_,rfl⟩
  simp only [ProgramFields.postInit,checks_cons,checks_nil,checkStrictlyAscending_ok,ensure_ok]
  refine ⟨insertionSort_ascending e.facts_nodup,insertionSort_ascending h.ids,insertionSort_ascending hl,?_,?_,?_,
    trivial⟩
  · have := @insertionSort_ascending _ _ _ id ((e.base.facts.map (·.factKey)).filter (· ∉ e.supported))
      (by simpa using e.facts_nodup.filter _)
    rwa [List.map_id] at this
  · have := @insertionSort_ascending _ _ _ id e.ghostFacts (by simpa using h.ghostKeys)
    rwa [List.map_id] at this
  · rintro ⟨hpmin,hne⟩
    rw [hk hpmin] at hne
    exact hne rfl

/-! ### The runs of a source -/

theorem extendRuns_starts (source : SourceId) (merged : List NonLiveRun) (i : LivenessInterval) :
    (extendRuns source merged i).map (·.t0Ns) = merged.map (·.t0Ns) ∨
      (extendRuns source merged i).map (·.t0Ns) = merged.map (·.t0Ns)++[i.t0Ns] := by
  unfold extendRuns
  split
  · exact .inl rfl
  · split
    · exact .inr (by simp)
    · rename_i previous hlast
      split
      · refine .inl ?_
        conv_rhs => rw [← List.dropLast_append_getLast? previous hlast]
        simp
      · exact .inr (by simp)

theorem extendRuns_named {source : SourceId} {merged : List NonLiveRun} (i : LivenessInterval)
    (h : ∀ r ∈ merged, r.sourceId = source) : ∀ r ∈ extendRuns source merged i, r.sourceId = source := by
  unfold extendRuns
  split
  · exact h
  · split
    · intro r hr
      rcases List.mem_append.mp hr with hr | hr
      · exact h r hr
      · rw [List.mem_singleton.mp hr]
    · rename_i previous hlast
      split
      · intro r hr
        rcases List.mem_append.mp hr with hr | hr
        · exact h r (List.mem_of_mem_dropLast hr)
        · rw [List.mem_singleton.mp hr]
          exact h previous (List.mem_of_getLast? hlast)
      · intro r hr
        rcases List.mem_append.mp hr with hr | hr
        · exact h r hr
        · rw [List.mem_singleton.mp hr]

namespace LivenessView

/-- The runs of a source begin one after the other, contiguous timeline or not. -/
theorem runs_ascending (view : LivenessView) (source : SourceId) :
    ((view.runs source).map (·.t0Ns)).Pairwise (· < ·) ∧ ∀ r ∈ view.runs source, r.sourceId = source := by
  have hfold : ∀ (l : List LivenessInterval) (merged : List NonLiveRun), (∀ r ∈ merged, r.sourceId = source) →
      ((l.foldl (extendRuns source) merged).map (·.t0Ns)).Sublist (merged.map (·.t0Ns)++l.map (·.t0Ns)) ∧
        ∀ r ∈ l.foldl (extendRuns source) merged, r.sourceId = source := by
    intro l
    induction l with
    | nil => exact fun merged h => ⟨by simp,h⟩
    | cons i l ih =>
      intro merged h
      obtain ⟨hsub,hnamed⟩ := ih (extendRuns source merged i) (extendRuns_named i h)
      refine ⟨hsub.trans ?_,hnamed⟩
      rcases extendRuns_starts source merged i with heq | heq
      · rw [heq,List.map_cons]
        exact (List.Sublist.refl _).append (List.sublist_cons_self _ _)
      · rw [heq,List.map_cons,List.append_assoc,List.singleton_append]
  obtain ⟨hsub,hnamed⟩ := hfold (view.timeline source) [] (by simp)
  rw [List.map_nil,List.nil_append] at hsub
  exact ⟨(timeline_ascending source).sublist hsub,hnamed⟩

end LivenessView

/-! ### The licences of the envelope -/

/-- What the licences of a run are for: each is under its identifier and repeats a run of the view. -/
structure SilentState.Granted (view : LivenessView) (st : SilentState D) : Prop where
  keys : (st.minted.map (·.1)).Nodup
  runs : ∀ p ∈ st.minted, p.1 = p.2.licenseId ∧ ∃ source, ∃ run ∈ view.runs source, run.licence D = .ok p.2

theorem SilentState.Granted.mint {st : SilentState D} {sources : List SourceId} {window : Interval}
    {licences : List Licence} (h : st.Granted view)
    (hl : licencesForWindow D view sources window = .ok (some licences)) : (st.mint licences).Granted view := by
  have hruns : ∀ l ∈ licences, ∃ source, ∃ run ∈ view.runs source, run.licence D = .ok l := by
    intro l hmem
    obtain ⟨source,-,runs,hruns,run,hrun,hlicence⟩ := (licencesForWindow_ok hl).runs l hmem
    exact ⟨source,run,((LivenessView.coveringRuns_ok hruns).2.1 run hrun).1,hlicence⟩
  clear hl
  induction licences generalizing st with
  | nil => exact h
  | cons l licences ih =>
    refine @ih {st with minted := Dict.setDefault st.minted l.licenseId l} ?_ fun l hl => hruns l (by simp [hl])
    refine ⟨Dict.nodup_keys_setDefault h.keys _ _,fun p hp => ?_⟩
    have hget := Dict.get?_of_mem (Dict.nodup_keys_setDefault h.keys _ _) hp
    rw [Dict.get?_setDefault] at hget
    split at hget
    · rename_i hid
      rcases Option.or_eq_some_iff.mp hget with hold | ⟨-,hnew⟩
      · exact h.runs p (Dict.get?_mem hold)
      · cases hnew
        exact ⟨hid.symm,hruns _ (by simp)⟩
    · exact h.runs p (Dict.get?_mem hget)

/-- No two licences are for one source and one span. -/
theorem SilentState.Granted.sortKeys {st : SilentState D} (h : st.Granted view) :
    ((st.minted.map (·.2)).map (·.sortKey)).Nodup := by
  rw [List.map_map]
  refine List.Nodup.map_on (fun p hp p' hp' heq => ?_) (List.Nodup.of_map _ h.keys)
  obtain ⟨hid,source,run,hrun,hl⟩ := h.runs p hp
  obtain ⟨hid',source',run',hrun',hl'⟩ := h.runs p' hp'
  have hlicensed := NonLiveRun.licence_ok hl
  have hlicensed' := NonLiveRun.licence_ok hl'
  obtain ⟨hsource,hspan⟩ := Prod.mk_inj.mp (toLex.injective heq)
  obtain ⟨hstart,-⟩ := Prod.mk_inj.mp (toLex.injective hspan)
  obtain ⟨hascending,hnamed⟩ := view.runs_ascending source
  have hsame : source = source' := by
    rw [← hnamed run hrun,← hlicensed.sourceId,hsource,hlicensed'.sourceId]
    exact (view.runs_ascending source').2 run' hrun'
  subst hsame
  have hrunEq : run = run' := by
    refine List.inj_on_of_nodup_map (hascending.imp fun h => h.ne) hrun hrun' ?_
    rw [← hlicensed.start,← hlicensed'.start]
    exact hstart
  subst hrunEq
  have hlEq : p.2 = p'.2 := Except.ok.inj (hl.symm.trans hl')
  exact Prod.ext (hid.trans (hlEq ▸ hid'.symm)) hlEq

/-! ### The two sides -/

/-- What grounding makes of a saturated engine. -/
def Engine.publish (s : Setup) (e : Engine D) : Fallible (GroundingResult D) := do
  e.assertGhostSupport s
  let program ← e.snapshot .pMin []
  pure ⟨program,e.iterations,e.fixpointSteps,e.capped,e.capDetail⟩

end Spectra
