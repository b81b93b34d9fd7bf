import Spectra.SealedSources

/-! Records that are missing from a source: what a hole in the numbering leaves in the liveness
document, and what the document says once records have been taken away. -/
namespace Spectra

open Checker (Library readerOf)

namespace Liveness

variable {lib : Library} {inputs : BuildInputs lib}

/-! ### Brackets -/

section

variable {events : List (BundleRecord lib)} {l r : BundleRecord lib} {tNs : ℤ}

theorem Brackets.mem (h : Brackets events l r tNs) : l ∈ events ∧ r ∈ events := by
  obtain ⟨⟨earlier,later,rfl⟩,-,-⟩ := h
  exact ⟨by simp,by simp⟩

/-- No record is between the two that bracket an instant. -/
theorem Brackets.sides {R : BundleRecord lib → BundleRecord lib → Prop} (hrefl : ∀ e, R e e)
    (hs : events.Pairwise R) (h : Brackets events l r tNs) :
    ∀ e ∈ events, R e l ∨ R r e := by
  obtain ⟨⟨earlier,later,rfl⟩,-,-⟩ := h
  intro e he
  obtain ⟨-,hrest,hbefore⟩ := List.pairwise_append.mp hs
  obtain ⟨-,hafter⟩ := List.pairwise_cons.mp hrest
  rcases List.mem_append.mp he with he | he
  · exact .inl (hbefore e he l (by simp))
  rcases List.mem_cons.mp he with rfl | he
  · exact .inl (hrefl e)
  rcases List.mem_cons.mp he with rfl | he
  · exact .inr (hrefl e)
  · exact .inr ((List.pairwise_cons.mp hafter).1 e he)

/-- A record up to an instant and one after it make a pair that brackets it. -/
theorem exists_brackets (hs : events.Pairwise fun e e' => e.tEvtNs ≤ e'.tEvtNs)
    (hl : ∃ e ∈ events, e.tEvtNs ≤ tNs) (hr : ∃ e ∈ events, tNs < e.tEvtNs) :
    ∃ l r, Brackets events l r tNs := by
  obtain ⟨e,he,het⟩ := hl
  obtain ⟨e',he',het'⟩ := hr
  rcases brackets_or hs tNs with h | h | h
  · exact h
  · have hnone := List.countP_eq_zero.mp h e.tEvtNs (List.mem_map_of_mem he)
    simp only [decide_eq_true_eq] at hnone
    exact absurd het hnone
  · have hall : (events.map (·.tEvtNs)).countP (· ≤ tNs) = (events.map (·.tEvtNs)).length :=
      le_antisymm List.countP_le_length (by rw [List.length_map]; exact h)
    have := List.countP_eq_length.mp hall e'.tEvtNs (List.mem_map_of_mem he')
    simp only [decide_eq_true_eq] at this
    omega

end

/-! ### Holes in the numbering -/

/-- A number no record of the source has, with the two records around it. -/
structure Hole (source : SourceInput lib) (s : ℤ) (l r : BundleRecord lib) : Prop where
  left : l ∈ source.events
  right : r ∈ source.events
  below : l.seq < s
  above : s < r.seq
  neighbours : ∀ e ∈ source.events, e.seq ≤ l.seq ∨ r.seq ≤ e.seq

/-- Of two records of a source the later one has the larger number. -/
def Numbered (source : SourceInput lib) : Prop :=
  ∀ e ∈ source.events, ∀ e' ∈ source.events, e.tEvtNs < e'.tEvtNs → e.seq < e'.seq

variable {source : SourceInput lib} {s : ℤ} {l r : BundleRecord lib}

/-- A number that is missing between two others is a hole. -/
theorem exists_hole {e e' : BundleRecord lib} (he : e ∈ source.events) (he' : e' ∈ source.events)
    (hlow : e.seq < s) (hhigh : s < e'.seq) (hs : ∀ x ∈ source.events, x.seq ≠ s) :
    ∃ l r, Hole source s l r := by
  obtain ⟨l,hl,hmax⟩ := (source.events.filter (·.seq < s)).toFinset.exists_max_image (·.seq)
    ⟨e,by simpa using ⟨he,hlow⟩⟩
  obtain ⟨r,hr,hmin⟩ := (source.events.filter (s < ·.seq)).toFinset.exists_min_image (·.seq)
    ⟨e',by simpa using ⟨he',hhigh⟩⟩
  simp only [List.mem_toFinset,List.mem_filter,decide_eq_true_eq] at hl hr hmax hmin
  refine ⟨l,r,hl.1,hr.1,hl.2,hr.2,fun x hx => ?_⟩
  rcases lt_or_gt_of_ne (hs x hx) with h | h
  · exact .inl (hmax x ⟨hx,h⟩)
  · exact .inr (hmin x ⟨hx,h⟩)

/-- From one neighbour of a hole up to the other no instant is vouched for. -/
theorem Hole.not_vouched (hc : source.integrityClass ≠ .unlinked) (hn : Numbered source)
    (h : Hole source s l r) {tNs : ℤ} (hl : l.tEvtNs ≤ tNs) (hr : tNs < r.tEvtNs) :
    ¬Vouched inputs source tNs := by
  rintro ⟨⟨-,-,-,-,-,l',r',hbr,-,hlink⟩,-⟩
  obtain ⟨-,-,hseq⟩ := hlink hc
  have hl' := (List.mem_insertionSort _).mp hbr.mem.1
  have hr' := (List.mem_insertionSort _).mp hbr.mem.2
  -- the bracketing records lie on the two sides of the hole
  have hlow := hn l' hl' r h.right (hbr.left.trans_lt hr)
  have hhigh := hn l h.left r' hr' (hl.trans_lt hbr.right)
  have hlside := h.neighbours l' hl'
  have hrside := h.neighbours r' hr'
  have hbelow := h.below
  have habove := h.above
  omega

variable {sources : List (SourceInput lib)} {queryEndpoints : List ℤ} {document : LivenessDocument}

/-- A hole leaves an instant that is not LIVE exactly when its neighbours have two times, or one at
which nothing is vouched for. -/
theorem hole_seen_iff (h : buildLivenessDocument lib inputs sources queryEndpoints = .ok document)
    (hs : source ∈ sources) (hc : source.integrityClass ≠ .unlinked) (hn : Numbered source)
    (hole : Hole source s l r)
    (hin : inputs.scenarioT0Ns ≤ l.tEvtNs ∧ r.tEvtNs ≤ inputs.scenarioT1Ns) :
    (∃ tNs, l.tEvtNs ≤ tNs ∧ tNs ≤ r.tEvtNs ∧ inputs.scenarioT0Ns ≤ tNs ∧ tNs < inputs.scenarioT1Ns ∧
      ¬document.LiveAt source.source tNs) ↔
    l.tEvtNs < r.tEvtNs ∨ l.tEvtNs < inputs.scenarioT1Ns ∧ ¬Vouched inputs source l.tEvtNs := by
  obtain ⟨profile,phaseBounds,hb⟩ := buildLivenessDocument_ok h
  have hlive := @BuiltFrom.liveAt_iff lib inputs sources queryEndpoints document profile phaseBounds
    source hb hs
  have hle : l.tEvtNs ≤ r.tEvtNs := by
    by_contra hlt
    have := hn r hole.right l hole.left (not_le.mp hlt)
    have hbelow := hole.below
    have habove := hole.above
    omega
  constructor
  · rintro ⟨tNs,hlow,hhigh,h0,h1,hdark⟩
    rcases hle.lt_or_eq with hlt | heq
    · exact .inl hlt
    · obtain rfl : tNs = l.tEvtNs := le_antisymm (heq ▸ hhigh) hlow
      exact .inr ⟨h1,fun hv => hdark (hlive.mpr ⟨⟨h0,h1⟩,hv⟩)⟩
  · rintro (hlt | ⟨h1,hv⟩)
    · exact ⟨l.tEvtNs,le_rfl,hle,hin.1,hlt.trans_le hin.2,fun hl =>
        hole.not_vouched hc hn le_rfl hlt (hlive.mp hl).2⟩
    · exact ⟨l.tEvtNs,le_rfl,hle,hin.1,h1,fun hl => hv (hlive.mp hl).2⟩

/-! ### Records taken away -/

/-- The same record, in whichever bundle it was sealed. -/
structure SameRecord (e e' : BundleFields) : Prop where
  recordId : e.recordId = e'.recordId
  source : e.source = e'.source
  seq : e.seq = e'.seq
  eventType : e.eventType = e'.eventType
  tEvtNs : e.tEvtNs = e'.tEvtNs
  attrs : e.attrs = e'.attrs

/-- Every record of the one bundle is in the other. -/
def RecordsAmong (part whole : List (BundleRecord lib)) : Prop :=
  ∀ e ∈ part, ∃ e' ∈ whole, SameRecord e.toBundleFields e'.toBundleFields

instance (e e' : BundleFields) : Decidable (SameRecord e e') :=
  decidable_of_iff (e.recordId = e'.recordId ∧ e.source = e'.source ∧ e.seq = e'.seq ∧
      e.eventType = e'.eventType ∧ e.tEvtNs = e'.tEvtNs ∧ e.attrs = e'.attrs)
    ⟨fun ⟨h₁,h₂,h₃,h₄,h₅,h₆⟩ => ⟨h₁,h₂,h₃,h₄,h₅,h₆⟩,fun ⟨h₁,h₂,h₃,h₄,h₅,h₆⟩ => ⟨h₁,h₂,h₃,h₄,h₅,h₆⟩⟩

instance (part whole : List (BundleRecord lib)) : Decidable (RecordsAmong part whole) :=
  inferInstanceAs (Decidable (∀ _ ∈ _, _))

theorem RecordsAmong.own {part whole : List (BundleRecord lib)} (h : RecordsAmong part whole)
    {source : String} {e : BundleRecord lib} (he : e ∈ ownRecords part source) :
    ∃ e' ∈ ownRecords whole source, e'.tEvtNs = e.tEvtNs ∧ e'.seq = e.seq := by
  obtain ⟨hmem,hsource⟩ := List.mem_filter.mp he
  obtain ⟨e',he',hsame⟩ := h e hmem
  refine ⟨e',List.mem_filter.mpr ⟨he',?_⟩,hsame.tEvtNs.symm,hsame.seq.symm⟩
  rwa [← hsame.source]

/-- More records bracket an instant at least as closely. -/
theorem Brackets.tighten {part whole : List (BundleRecord lib)} {d : SpecSource}
    (h : RecordsAmong part whole) {l r : BundleRecord lib} {tNs : ℤ}
    (hbr : Brackets (sortedEvents (stageSource part d).events) l r tNs) :
    ∃ l' r', Brackets (sortedEvents (stageSource whole d).events) l' r' tNs ∧
      l.tEvtNs ≤ l'.tEvtNs ∧ r'.tEvtNs ≤ r.tEvtNs := by
  obtain ⟨hl,hr⟩ := hbr.mem
  obtain ⟨el,hel,hlt,-⟩ := h.own ((List.mem_insertionSort _).mp hl)
  obtain ⟨er,her,hrt,-⟩ := h.own ((List.mem_insertionSort _).mp hr)
  have hel : el ∈ sortedEvents (stageSource whole d).events := (List.mem_insertionSort _).mpr hel
  have her : er ∈ sortedEvents (stageSource whole d).events := (List.mem_insertionSort _).mpr her
  have hsorted := sortedEvents_ascending (stageSource whole d).events
  have hleft := hbr.left
  have hright := hbr.right
  obtain ⟨l',r',hbr'⟩ := exists_brackets hsorted ⟨el,hel,hlt.trans_le hleft⟩
    ⟨er,her,hright.trans_eq hrt.symm⟩
  have hleft' := hbr'.left
  have hright' := hbr'.right
  have hsides := hbr'.sides (R := fun e e' => e.tEvtNs ≤ e'.tEvtNs) (fun _ => le_rfl) hsorted
  refine ⟨l',r',hbr',?_,?_⟩
  · rcases hsides el hel with hle | hle <;> omega
  · rcases hsides er her with hle | hle <;> omega

/-- No number is skipped, by the records of a source, at an instant. -/
def Unskipped (bundle : List (BundleRecord lib)) (d : SpecSource) (tNs : ℤ) : Prop :=
  d.integrityClass ≠ .unlinked → ∀ l r,
    Brackets (sortedEvents (stageSource bundle d).events) l r tNs → r.seq ≤ l.seq+1

section

variable {part whole : List (BundleRecord lib)} {d : SpecSource} {tNs : ℤ}

/-- What some records of a sealed bundle vouch for, all of them vouch for, if they skip no number. -/
theorem Vouched.mono (hamong : RecordsAmong part whole)
    (hwhole : (whole.map (·.sortKey)).Pairwise (· < ·))
    (hchained : d.integrityClass ≠ .unlinked → Chained (ownRecords whole d.source))
    (hverifier : inputs.chainVerifier = chainLinkContinuityOnly)
    (h : Vouched inputs (stageSource part d) tNs) (hu : Unskipped whole d tNs) :
    Vouched inputs (stageSource whole d) tNs := by
  obtain ⟨⟨p,hp,hpt,threshold,ht,l,r,hbr,hgap,-⟩,hm⟩ := h
  obtain ⟨l',r',hbr',hl,hr⟩ := hbr.tighten hamong
  refine ⟨⟨p,hp,hpt,threshold,ht,l',r',hbr',by omega,?_⟩,hm⟩
  exact (linked_iff hwhole hchained hverifier hbr').mpr fun hd => hu hd l' r' hbr'

/-- Where something is vouched for, no number is skipped. -/
theorem Vouched.unskipped (h : Vouched inputs (stageSource whole d) tNs) : Unskipped whole d tNs := by
  intro hd l r hbr
  obtain ⟨⟨-,-,-,-,-,l',r',hbr',-,hlink⟩,-⟩ := h
  obtain ⟨rfl,rfl⟩ := hbr'.unique (sortedEvents_ascending _) hbr
  exact (hlink hd).2.2

/-- A source whose numbers never fall over time skips none where some of its records vouch. -/
theorem Vouched.unskipped_of_ordered (hamong : RecordsAmong part whole)
    (hup : (sortedEvents (stageSource whole d).events).Pairwise fun e e' => e.seq ≤ e'.seq)
    (h : Vouched inputs (stageSource part d) tNs) : Unskipped whole d tNs := by
  intro hd l' r' hbr'
  obtain ⟨⟨-,-,-,-,-,l,r,hbr,-,hlink⟩,-⟩ := h
  obtain ⟨hl,hr⟩ := hbr.mem
  obtain ⟨el,hel,hlt,hls⟩ := hamong.own ((List.mem_insertionSort _).mp hl)
  obtain ⟨er,her,hrt,hrs⟩ := hamong.own ((List.mem_insertionSort _).mp hr)
  have hsides := hbr'.sides (R := fun e e' => e.tEvtNs ≤ e'.tEvtNs ∧ e.seq ≤ e'.seq)
    (fun _ => ⟨le_rfl,le_rfl⟩) ((sortedEvents_ascending _).and hup)
  have hleft := hbr.left
  have hright := hbr.right
  have hleft' := hbr'.left
  have hright' := hbr'.right
  obtain ⟨-,-,hseq⟩ := hlink hd
  -- the records of the pair that vouches lie on the two sides of the closer pair
  have hlow : el.seq ≤ l'.seq := by
    rcases hsides el ((List.mem_insertionSort _).mpr hel) with hle | hle
    · exact hle.2
    · omega
  have hhigh : r'.seq ≤ er.seq := by
    rcases hsides er ((List.mem_insertionSort _).mpr her) with hle | hle
    · omega
    · exact hle.2
  omega

end

theorem stageSource_name (bundle : List (BundleRecord lib)) (d : SpecSource) :
    (stageSource bundle d).source = d.source := rfl

/-- LIVE in a document of staged sources is LIVE of a declared source. -/
theorem LivenessDocument.LiveAt.declared {spec : List SpecSource} {bundle : List (BundleRecord lib)}
    {queryEndpoints : List ℤ} {document : LivenessDocument}
    (h : buildLivenessDocument lib inputs (stageSources spec bundle) queryEndpoints = .ok document)
    {source : String} {tNs : ℤ} (hlive : document.LiveAt source tNs) :
    ∃ d ∈ spec, d.source = source := by
  obtain ⟨profile,phaseBounds,hb⟩ := buildLivenessDocument_ok h
  obtain ⟨entry,he,rfl,-⟩ := hlive
  obtain ⟨s,hs,hbuild⟩ := hb.origin he
  obtain ⟨d,hd,rfl⟩ := List.mem_map.mp hs
  exact ⟨d,(List.mem_insertionSort _).mp hd,(buildSource_ok hb.bounds hbuild).1.symm⟩

section

variable {rt : Runtime} {raw : Bytes} {spec : List SpecSource} {limits : IngestLimits}
  {time : Option ℤ} {result : IngestResult rt.toLibrary} {part : List (BundleRecord rt.toLibrary)}
  {inputs : BuildInputs rt.toLibrary} {queryEndpoints queryEndpoints' : List ℤ}
  {document document' : LivenessDocument}

/-- Taking records away, however those left are sealed, makes no source look more alive exactly
when, wherever those left vouch for an instant, all of them skip no number there. -/
theorem blindness_monotone_iff
    (hwhole : ingestBytes rt raw (spec.map (·.toDeclaredSource)) limits time = .ok result)
    (hamong : RecordsAmong part result.events)
    (hverifier : inputs.chainVerifier = chainLinkContinuityOnly)
    (h : buildLivenessDocument rt.toLibrary inputs (stageSources spec result.events) queryEndpoints =
      .ok document)
    (h' : buildLivenessDocument rt.toLibrary inputs (stageSources spec part) queryEndpoints' =
      .ok document') :
    (∀ source tNs, document'.LiveAt source tNs → document.LiveAt source tNs) ↔
    ∀ d ∈ spec, ∀ tNs, inputs.scenarioT0Ns ≤ tNs → tNs < inputs.scenarioT1Ns →
      Vouched inputs (stageSource part d) tNs → Unskipped result.events d tNs := by
  obtain ⟨profile,phaseBounds,hb⟩ := buildLivenessDocument_ok h
  obtain ⟨profile',phaseBounds',hb'⟩ := buildLivenessDocument_ok h'
  constructor
  · intro hmono d hd tNs h0 h1 hv
    have hlive := hmono d.source tNs ((hb'.liveAt_iff (mem_stageSources hd)).mpr ⟨⟨h0,h1⟩,hv⟩)
    exact ((hb.liveAt_iff (mem_stageSources hd)).mp hlive).2.unskipped
  · intro hall source tNs hlive
    obtain ⟨d,hd,rfl⟩ := hlive.declared h'
    obtain ⟨⟨h0,h1⟩,hv⟩ := (hb'.liveAt_iff (mem_stageSources hd)).mp hlive
    refine (hb.liveAt_iff (mem_stageSources hd)).mpr ⟨⟨h0,h1⟩,?_⟩
    exact hv.mono hamong (ingested_ascending hwhole)
      (ingested_chained hwhole (List.mem_map_of_mem hd)) hverifier (hall d hd tNs h0 h1 hv)

/-- Where no source's numbers fall over time, taking records away makes none look more alive. -/
theorem ordered_blindness_monotone
    (hwhole : ingestBytes rt raw (spec.map (·.toDeclaredSource)) limits time = .ok result)
    (hamong : RecordsAmong part result.events)
    (hverifier : inputs.chainVerifier = chainLinkContinuityOnly)
    (h : buildLivenessDocument rt.toLibrary inputs (stageSources spec result.events) queryEndpoints =
      .ok document)
    (h' : buildLivenessDocument rt.toLibrary inputs (stageSources spec part) queryEndpoints' =
      .ok document')
    (hup : ∀ d ∈ spec, (sortedEvents (stageSource result.events d).events).Pairwise
      fun e e' => e.seq ≤ e'.seq) {source : String} {tNs : ℤ} (hlive : document'.LiveAt source tNs) :
    document.LiveAt source tNs := by
  obtain ⟨profile,phaseBounds,hb⟩ := buildLivenessDocument_ok h
  obtain ⟨profile',phaseBounds',hb'⟩ := buildLivenessDocument_ok h'
  obtain ⟨d,hd,rfl⟩ := hlive.declared h'
  obtain ⟨hspan,hv⟩ := (hb'.liveAt_iff (mem_stageSources hd)).mp hlive
  refine (hb.liveAt_iff (mem_stageSources hd)).mpr ⟨hspan,?_⟩
  exact hv.mono hamong (ingested_ascending hwhole)
    (ingested_chained hwhole (List.mem_map_of_mem hd)) hverifier (hv.unskipped_of_ordered hamong (hup d hd))

end

/-! ### Arrivals of one source -/

instance (document : LivenessDocument) (source : String) (tNs : ℤ) :
    Decidable (document.LiveAt source tNs) :=
  inferInstanceAs (Decidable (∃ _ ∈ _, _ ∧ ∃ _ ∈ _, _ ∧ _ ∧ _))

/-- The line a source sends about its record of that number and time. -/
def arrivalLine (arrival : ℤ × ℤ) : Json := .obj [("attrs",.obj []),("event_type",.str "login"),
  ("seq",.int arrival.1),("source_id",.str "iam"),("t_evt_ns",.str (Checker.decimalText arrival.2))]

def arrivalRuntime (arrivals : List (ℤ × ℤ)) : Runtime :=
  {readerOf (arrivals.map arrivalLine) with encodes := fun _ => true}

def arrivalBytes (arrivals : List (ℤ × ℤ)) : Bytes :=
  arrivals.flatMap fun arrival => (arrivalLine arrival).dumps true++[0x0a]

def iamSpec : SpecSource := ⟨⟨"iam",.chained,["login"]⟩,none,by decide⟩

/-- The bundle of some of the arrivals and the document of its day. -/
def arrivalRun (arrivals sent : List (ℤ × ℤ)) :
    Option (List (BundleRecord (arrivalRuntime arrivals).toLibrary) × LivenessDocument) :=
  match ingestBytes (arrivalRuntime arrivals) (arrivalBytes sent) [iamSpec.toDeclaredSource] {} none with
  | .ok result => match buildLivenessDocument _ (dayInputs _) (stageSources [iamSpec] result.events) [] with
    | .ok document => some (result.events,document)
    | .error _ => none
  | .error _ => none

theorem arrivalRun_ok {arrivals sent : List (ℤ × ℤ)}
    {p : List (BundleRecord (arrivalRuntime arrivals).toLibrary) × LivenessDocument}
    (h : arrivalRun arrivals sent = some p) : ∃ result,
    ingestBytes (arrivalRuntime arrivals) (arrivalBytes sent) ([iamSpec].map (·.toDeclaredSource)) {}
      none = .ok result ∧ result.events = p.1 ∧
    buildLivenessDocument _ (dayInputs _) (stageSources [iamSpec] result.events) [] = .ok p.2 := by
  unfold arrivalRun at h
  split at h
  · rename_i result hresult
    split at h
    · rename_i document hdocument
      obtain rfl := Option.some.inj h
      exact ⟨result,hresult,rfl,hdocument⟩
    · cases h
  · cases h

/-- The bundle has exactly these records, all of the one source. -/
def arrived (arrivals : List (ℤ × ℤ)) (events : List (BundleRecord lib)) : Prop :=
  events.map (fun e => (e.source,e.seq,e.tEvtNs)) = arrivals.map fun a => ("iam",a.1,a.2)

instance (arrivals : List (ℤ × ℤ)) (events : List (BundleRecord lib)) :
    Decidable (arrived arrivals events) := inferInstanceAs (Decidable (_ = _))

section

variable {arrivals : List (ℤ × ℤ)} {events : List (BundleRecord lib)}

theorem arrived.own (h : arrived arrivals events) :
    (ownRecords events "iam").map (fun e => (e.seq,e.tEvtNs)) = arrivals := by
  have hall : ∀ e ∈ events, e.source = "iam" := by
    intro e he
    have hmem := List.mem_map_of_mem (f := fun e : BundleRecord lib => (e.source,e.seq,e.tEvtNs)) he
    rw [show events.map _ = _ from h] at hmem
    obtain ⟨a,-,ha⟩ := List.mem_map.mp hmem
    exact (congrArg (·.1) ha).symm
  rw [ownRecords,List.filter_eq_self.mpr fun e he => by simpa using hall e he]
  have hpairs := congrArg (List.map (·.2)) h
  simpa [List.map_map,Function.comp_def] using hpairs

theorem arrived.record (h : arrived arrivals events) {a : ℤ × ℤ} (ha : a ∈ arrivals) :
    ∃ e ∈ ownRecords events "iam", (e.seq,e.tEvtNs) = a := by
  rw [← h.own] at ha
  exact List.mem_map.mp ha

theorem arrived.arrival (h : arrived arrivals events) {e : BundleRecord lib}
    (he : e ∈ ownRecords events "iam") : (e.seq,e.tEvtNs) ∈ arrivals := by
  rw [← h.own]
  exact List.mem_map_of_mem he

/-- Arrivals in which a number is missing between two neighbours. -/
theorem arrived.hole (h : arrived arrivals events) {s : ℤ} {a b : ℤ × ℤ} (ha : a ∈ arrivals)
    (hb : b ∈ arrivals) (hs : a.1 < s ∧ s < b.1) (hn : ∀ c ∈ arrivals, c.1 ≤ a.1 ∨ b.1 ≤ c.1) :
    ∃ l r, Hole (stageSource events iamSpec) s l r ∧ (l.seq,l.tEvtNs) = a ∧ (r.seq,r.tEvtNs) = b := by
  obtain ⟨l,hl,rfl⟩ := h.record ha
  obtain ⟨r,hr,rfl⟩ := h.record hb
  exact ⟨l,r,⟨hl,hr,hs.1,hs.2,fun e he => hn _ (h.arrival he)⟩,rfl,rfl⟩

theorem arrived.numbered (h : arrived arrivals events)
    (hn : ∀ a ∈ arrivals, ∀ b ∈ arrivals, a.2 < b.2 → a.1 < b.1) :
    Numbered (stageSource events iamSpec) :=
  fun _ he _ he' hlt => hn _ (h.arrival he) _ (h.arrival he') hlt

end

def spacedRun := found (arrivalRun [(0,10),(2,20)] [(0,10),(2,20)])
  (fun p => decide (arrived [(0,10),(2,20)] p.1)) (by decide +kernel)

/-- The number 1 is missing between two records ten apart. -/
theorem hole_seen_iff_spaced : ∃ (events : List (BundleRecord (arrivalRuntime [(0,10),(2,20)]).toLibrary))
    (document : LivenessDocument) (l r : BundleRecord (arrivalRuntime [(0,10),(2,20)]).toLibrary),
    arrivalRun [(0,10),(2,20)] [(0,10),(2,20)] = some (events,document) ∧
    Hole (stageSource events iamSpec) 1 l r ∧
    ((∃ tNs, l.tEvtNs ≤ tNs ∧ tNs ≤ r.tEvtNs ∧ 0 ≤ tNs ∧ tNs < 100 ∧ ¬document.LiveAt "iam" tNs) ↔
      l.tEvtNs < r.tEvtNs ∨ l.tEvtNs < 100 ∧ ¬Vouched (dayInputs _) (stageSource events iamSpec) l.tEvtNs) := by
  obtain ⟨⟨events,document⟩,hp,hcheck⟩ := spacedRun
  have harrived := of_decide_eq_true hcheck
  obtain ⟨result,-,rfl,hd⟩ := arrivalRun_ok hp
  obtain ⟨l,r,hole,hl,hr⟩ := @arrived.hole _ _ _ harrived 1 (0,10) (2,20) (by decide) (by decide)
    (by decide) (by decide)
  refine ⟨result.events,document,l,r,hp,hole,?_⟩
  refine hole_seen_iff hd (mem_stageSources (List.mem_singleton_self _))
    (show iamSpec.integrityClass ≠ .unlinked by decide) (harrived.numbered (by decide)) hole ⟨?_,?_⟩
  · rw [(Prod.mk.inj hl).2]
    decide
  · rw [(Prod.mk.inj hr).2]
    decide

def instantRun := found (arrivalRun [(0,10),(2,10),(3,20)] [(0,10),(2,10),(3,20)])
  (fun p => decide (arrived [(0,10),(2,10),(3,20)] p.1 ∧ p.2.LiveAt "iam" 10)) (by decide +kernel)

/-- The number 1 is missing between two records of one time, and the next record vouches for it. -/
theorem hole_unseen : ¬∀ (rt : Runtime) (raw : Bytes) (spec : List SpecSource) (limits : IngestLimits)
    (time : Option ℤ) (result : IngestResult rt.toLibrary) (inputs : BuildInputs rt.toLibrary)
    (queryEndpoints : List ℤ) (document : LivenessDocument) (d : SpecSource) (s : ℤ)
    (l r : BundleRecord rt.toLibrary),
    ingestBytes rt raw (spec.map (·.toDeclaredSource)) limits time = .ok result →
    inputs.chainVerifier = chainLinkContinuityOnly →
    buildLivenessDocument rt.toLibrary inputs (stageSources spec result.events) queryEndpoints =
      .ok document → d ∈ spec → d.integrityClass ≠ .unlinked → Numbered (stageSource result.events d) →
    Hole (stageSource result.events d) s l r →
    inputs.scenarioT0Ns ≤ l.tEvtNs ∧ r.tEvtNs ≤ inputs.scenarioT1Ns →
    ∃ tNs, l.tEvtNs ≤ tNs ∧ tNs ≤ r.tEvtNs ∧ inputs.scenarioT0Ns ≤ tNs ∧ tNs < inputs.scenarioT1Ns ∧
      ¬document.LiveAt d.source tNs := by
  intro hall
  obtain ⟨⟨events,document⟩,hp,hcheck⟩ := instantRun
  obtain ⟨harrived,hlive⟩ := of_decide_eq_true hcheck
  obtain ⟨result,hr,rfl,hd⟩ := arrivalRun_ok hp
  obtain ⟨l,r,hole,hl,hrec⟩ := @arrived.hole _ _ _ harrived 1 (0,10) (2,10) (by decide) (by decide)
    (by decide) (by decide)
  have hltime : l.tEvtNs = 10 := (Prod.mk.inj hl).2
  have hrtime : r.tEvtNs = 10 := (Prod.mk.inj hrec).2
  obtain ⟨tNs,hlow,hhigh,-,-,hdark⟩ := hall _ _ [iamSpec] _ _ result (dayInputs _) _ document iamSpec 1 l r
    hr rfl hd (List.mem_singleton_self _) (by decide) (harrived.numbered (by decide)) hole
    ⟨by rw [hltime]; decide,by rw [hrtime]; decide⟩
  rw [show tNs = 10 by omega] at hdark
  exact hdark hlive

/-- The record between the two others has a number far from theirs. -/
def strayArrivals : List (ℤ × ℤ) := [(0,10),(5,15),(1,20)]

/-- The run on all the arrivals and the run without the stray record. -/
def strayRun := found (do
    let whole ← arrivalRun strayArrivals strayArrivals
    let part ← arrivalRun strayArrivals [(0,10),(1,20)]
    pure (whole,part))
  (fun r => decide (RecordsAmong r.2.1 r.1.1 ∧ r.2.2.LiveAt "iam" 10 ∧ ¬r.1.2.LiveAt "iam" 10))
  (by decide +kernel)

/-- With the stray record taken away, the other two vouch for an instant that was not LIVE. -/
theorem stray_runs : ∃ whole part, arrivalRun strayArrivals strayArrivals = some whole ∧
    arrivalRun strayArrivals [(0,10),(1,20)] = some part ∧ RecordsAmong part.1 whole.1 ∧
    part.2.LiveAt "iam" 10 ∧ ¬whole.2.LiveAt "iam" 10 := by
  obtain ⟨run,hrun,hcheck⟩ := strayRun
  obtain ⟨whole,hwhole,hrun⟩ := Option.bind_eq_some_iff.mp hrun
  obtain ⟨part,hpart,hrun⟩ := Option.bind_eq_some_iff.mp hrun
  obtain rfl := Option.some.inj hrun
  exact ⟨whole,part,hwhole,hpart,of_decide_eq_true hcheck⟩

theorem blindness_monotone_iff_stray : ∃ whole part,
    arrivalRun strayArrivals strayArrivals = some whole ∧
    arrivalRun strayArrivals [(0,10),(1,20)] = some part ∧
    ((∀ source tNs, part.2.LiveAt source tNs → whole.2.LiveAt source tNs) ↔
      ∀ d ∈ [iamSpec], ∀ tNs, 0 ≤ tNs → tNs < 100 →
        Vouched (dayInputs _) (stageSource part.1 d) tNs → Unskipped whole.1 d tNs) := by
  obtain ⟨whole,part,hwhole,hpart,hamong,-⟩ := stray_runs
  obtain ⟨result,hr,he,hd⟩ := arrivalRun_ok hwhole
  obtain ⟨result',-,he',hd'⟩ := arrivalRun_ok hpart
  refine ⟨whole,part,hwhole,hpart,?_⟩
  rw [← he,← he'] at hamong ⊢
  exact blindness_monotone_iff hr hamong rfl hd hd'

/-- Taking a record away makes an instant LIVE. -/
theorem blindness_not_monotone : ¬∀ (rt : Runtime) (raw raw' : Bytes) (spec : List SpecSource)
    (limits : IngestLimits) (time : Option ℤ) (result result' : IngestResult rt.toLibrary)
    (inputs : BuildInputs rt.toLibrary) (queryEndpoints : List ℤ) (document document' : LivenessDocument),
    ingestBytes rt raw (spec.map (·.toDeclaredSource)) limits time = .ok result →
    ingestBytes rt raw' (spec.map (·.toDeclaredSource)) limits time = .ok result' →
    RecordsAmong result'.events result.events → inputs.chainVerifier = chainLinkContinuityOnly →
    buildLivenessDocument rt.toLibrary inputs (stageSources spec result.events) queryEndpoints =
      .ok document →
    buildLivenessDocument rt.toLibrary inputs (stageSources spec result'.events) queryEndpoints =
      .ok document' →
    ∀ source tNs, document'.LiveAt source tNs → document.LiveAt source tNs := by
  intro hall
  obtain ⟨whole,part,hwhole,hpart,hamong,hlive,hdark⟩ := stray_runs
  obtain ⟨result,hr,he,hd⟩ := arrivalRun_ok hwhole
  obtain ⟨result',hr',he',hd'⟩ := arrivalRun_ok hpart
  rw [← he,← he'] at hamong
  exact hdark (hall _ _ _ [iamSpec] _ _ result result' _ _ _ _ hr hr' hamong rfl hd hd' _ _ hlive)

end Liveness

end Spectra
