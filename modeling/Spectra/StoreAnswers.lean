import Spectra.StoreRuns

/-! What the queries of a store answer: the same whatever order its rows were inserted in, every record of a
window and of the windows that tile it, and gaps that add up to the span of their source. -/
namespace Spectra
namespace Store

/-! ### The order of the rows -/

theorem binary_injective : Function.Injective binary := octets_injective

theorem seqKey_id {row row' : EventColumns} (h : seqKey row = seqKey row') : row.eventId = row'.eventId :=
  binary_injective (congrArg Prod.snd (toLex.injective h))

theorem timeKey_id {row row' : EventColumns} (h : timeKey row = timeKey row') : row.eventId = row'.eventId :=
  seqKey_id (congrArg Prod.snd (toLex.injective h))

/-- A key that tells ids apart tells the rows of a table apart. -/
theorem nodup_key {κ : Type} {key : EventColumns → κ} (hkey : ∀ row row', key row = key row' → row.eventId = row'.eventId)
    {rows : List EventColumns} (hn : (rows.map (·.eventId)).Nodup) : (rows.map key).Nodup := by
  refine List.Nodup.map_on (fun a ha b hb h => ?_) (List.Nodup.of_map _ hn)
  exact List.inj_on_of_nodup_map hn ha hb (hkey a b h)

theorem nodup_filter {rows : List EventColumns} (hn : (rows.map (·.eventId)).Nodup) (p : EventColumns → Bool) :
    ((rows.filter p).map (·.eventId)).Nodup :=
  (List.filter_sublist.map _).nodup hn

theorem nodup_ofSource (table : ProjEvent) (source : String) :
    ((ofSource source table.rows).map (·.eventId)).Nodup := nodup_filter table.keyed _

section

variable {rt : Runtime} {db db' : Database}

theorem statsOf_perm {rows rows' : List EventColumns} (h : rows.Perm rows') (source : String) :
    statsOf rows source = statsOf rows' source := by
  have htimes : ((ofSource source rows).map (·.tEvtNs)).Perm ((ofSource source rows').map (·.tEvtNs)) :=
    (h.filter _).map _
  have hmin : ((ofSource source rows).map (·.tEvtNs)).min? = ((ofSource source rows').map (·.tEvtNs)).min? := by
    refine Option.ext fun t => ?_
    rw [List.min?_eq_some_iff,List.min?_eq_some_iff,htimes.mem_iff]
    simp only [htimes.mem_iff]
  have hmax : ((ofSource source rows).map (·.tEvtNs)).max? = ((ofSource source rows').map (·.tEvtNs)).max? := by
    refine Option.ext fun t => ?_
    rw [List.max?_eq_some_iff,List.max?_eq_some_iff,htimes.mem_iff]
    simp only [htimes.mem_iff]
  simp only [statsOf,hmin,hmax,htimes.length_eq]

/-- Tables of the same rows answer every question alike. -/
theorem answer_perm (h : db.working.rows.Perm db'.working.rows) (question : Question) :
    answer rt db question = answer rt db' question := by
  cases question with
  | sourceStats =>
    have hsources : Query.orderBy binary (db.working.rows.map (·.sourceId)).dedup =
        Query.orderBy binary (db'.working.rows.map (·.sourceId)).dedup :=
      Query.orderBy_congr (h.map _).dedup ((List.nodup_dedup _).map binary_injective)
    simp only [answer,sourceStats,hsources]
    exact congrArg _ (congrArg _ (List.map_congr_left fun source _ => statsOf_perm h source))
  | gaps source =>
    have hrows : Query.orderBy seqKey (ofSource source db.working.rows) =
        Query.orderBy seqKey (ofSource source db'.working.rows) :=
      Query.orderBy_congr (h.filter _) (nodup_key (fun _ _ => seqKey_id) (nodup_ofSource _ _))
    simp only [answer,gaps,hrows]
  | event eventId =>
    have hrows : Query.orderBy (fun row => binary row.eventId) (db.working.rows.filter (·.eventId = eventId)) =
        Query.orderBy (fun row => binary row.eventId) (db'.working.rows.filter (·.eventId = eventId)) :=
      Query.orderBy_congr (h.filter _) (nodup_key (fun _ _ he => binary_injective he) (nodup_filter db'.working.keyed _))
    simp only [answer,event,hrows]
  | window source t0Ns t1Ns =>
    have hrows : Query.orderBy timeKey (Query.between (·.tEvtNs) t0Ns t1Ns (ofSource source db.working.rows)) =
        Query.orderBy timeKey (Query.between (·.tEvtNs) t0Ns t1Ns (ofSource source db'.working.rows)) :=
      Query.orderBy_congr ((h.filter _).filter _)
        (nodup_key (fun _ _ => timeKey_id) (nodup_filter (nodup_ofSource _ _) _))
    simp only [answer,window,hrows]

end

/-- Files are accepted line by line. -/
theorem batches_rows {rt : Runtime} {batches : List (List Bytes)}
    (h : ∀ line ∈ batches.flatten, (0x0a : UInt8) ∉ line) {tables : List (List EventColumns)} :
    List.Forall₂ (fun raw rows => fileRows rt raw = .ok rows) (batches.map feed) tables ↔
      (∀ line ∈ batches.flatten, (0x0d : UInt8) ∉ line) ∧ List.Forall₂ (List.Forall₂ (LineRow rt)) batches tables := by
  induction batches generalizing tables with
  | nil => cases tables <;> simp
  | cons batch batches ih =>
    rw [List.flatten_cons,List.forall_mem_append] at h
    cases tables with
    | nil => simp
    | cons rows tables =>
      rw [List.map_cons,List.forall₂_cons,List.forall₂_cons,ih h.2,fileRows_feed h.1,List.flatten_cons,
        List.forall_mem_append]
      tauto

/-- Whole lines, in whatever order and cut into whatever files: if the loads of one cut are all accepted, so
are those of any other, and every query answers the same. -/
theorem answers_from_lines (rt : Runtime) (batches batches' : List (List Bytes))
    (hp : batches.flatten.Perm batches'.flatten) (hlines : ∀ line ∈ batches.flatten, (0x0a : UInt8) ∉ line)
    (haccepted : ∀ outcome ∈ (loads rt .fresh (batches.map feed)).1, ∃ n, outcome = .ok n) :
    (∀ outcome ∈ (loads rt .fresh (batches'.map feed)).1, ∃ n, outcome = .ok n) ∧
      ∀ question, answer rt (loads rt .fresh (batches'.map feed)).2 question =
        answer rt (loads rt .fresh (batches.map feed)).2 question := by
  have hlines' : ∀ line ∈ batches'.flatten, (0x0a : UInt8) ∉ line := fun line hl => hlines line (hp.mem_iff.mpr hl)
  obtain ⟨tables,htables,hrows⟩ := loads_accepted fresh_settled haccepted
  obtain ⟨hcr,hspelled⟩ := (batches_rows hlines).mp htables
  -- the rows of the lines in the other order, cut as the other files cut them
  obtain ⟨rows',hspelled',hperm⟩ := List.perm_comp_forall₂ hp.symm (List.rel_flatten hspelled)
  obtain ⟨tables',htables',rfl⟩ := forall₂_split hspelled'
  have hfiles' := (batches_rows hlines').mpr ⟨fun line hl => hcr line (hp.mem_iff.mpr hl),htables'⟩
  have hkeyed := (loads rt .fresh (batches.map feed)).2.committed.keyed
  rw [hrows] at hkeyed
  have haccept := loads_accept hfiles' fresh_settled (((hperm.append_left _).map _).nodup_iff.mpr hkeyed)
  obtain ⟨read,hread,hrows'⟩ := loads_accepted fresh_settled haccept
  have hunique : Relator.RightUnique fun raw rows => fileRows rt raw = .ok rows :=
    fun _ _ _ h h' => Except.ok.inj (h.symm.trans h')
  obtain rfl : read = tables' := hunique.forall₂ hread hfiles'
  refine ⟨haccept,answer_perm ?_⟩
  rw [loads_settled,loads_settled,hrows,hrows']
  exact hperm.append_left _

/-! ### Two logins -/

/-- The line of a login, and the object it spells. -/
def storedText (eventId seq time : String) : String :=
  "\x7b\"attrs\":\x7b\"host\":\"web\"\x7d,\"event_id\":\""++eventId++"\",\"event_type\":\"login\",\"seq\":"++seq++
    ",\"source_id\":\"iam\",\"t_evt_ns\":\""++time++"\",\"t_ing_ns\":\""++time++"\"\x7d"

def storedObject (eventId : String) (seq : ℤ) (time : String) : Json := .obj [("attrs",.obj [("host",.str "web")]),
  ("event_id",.str eventId),("event_type",.str "login"),("seq",.int seq),("source_id",.str "iam"),
  ("t_evt_ns",.str time),("t_ing_ns",.str time)]

/-- The texts the two logins come in, the second one recorded before the first. -/
def storedTexts : List (String × Json) := [(storedText "ev:a" "0" "5",storedObject "ev:a" 0 "5"),
  (storedText "ev:b" "1" "3",storedObject "ev:b" 1 "3"),("\x7b\"host\":\"web\"\x7d",.obj [("host",.str "web")])]

/-- The runtime that reads them. -/
def storedRuntime : Runtime :=
  {Checker.readerOf [] with
    jsonLoads := fun _ text => (Dict.get? storedTexts text).elim (.error .jsonDecode) .ok
    toInt := Checker.intText
    encodes := fun _ => true}

def firstStored : Bytes := octets (storedText "ev:a" "0" "5")

def secondStored : Bytes := octets (storedText "ev:b" "1" "3")

/-- What the load of the two lines reports. -/
def storedOutcomes : {outcomes : List (Check ℕ) // outcomes = [.ok 2]} :=
  ⟨(loads storedRuntime .fresh ([[firstStored,secondStored]].map feed)).1,by decide +kernel⟩

theorem answers_from_lines_logins :
    (∀ outcome ∈ (loads storedRuntime .fresh ([[secondStored],[firstStored]].map feed)).1, ∃ n, outcome = .ok n) ∧
      ∀ question, answer storedRuntime (loads storedRuntime .fresh ([[secondStored],[firstStored]].map feed)).2 question =
        answer storedRuntime (loads storedRuntime .fresh ([[firstStored,secondStored]].map feed)).2 question := by
  refine answers_from_lines storedRuntime _ _ (List.Perm.swap _ _ _) (by decide +kernel) ?_
  intro outcome ho
  have hloaded : (loads storedRuntime .fresh ([[firstStored,secondStored]].map feed)).1 = [.ok 2] := storedOutcomes.2
  rw [hloaded] at ho
  exact ⟨2,List.mem_singleton.mp ho⟩

/-! ### Windows -/

section

variable {rt : Runtime} {db : Database} {source : String}

/-- The rows of a window, in the order of their times. -/
def windowRows (db : Database) (source : String) (t0Ns t1Ns : ℤ) : List EventColumns :=
  Query.orderBy timeKey (Query.between (·.tEvtNs) t0Ns t1Ns (ofSource source db.working.rows))

theorem window_eq (hs : source ≠ "") {t0Ns t1Ns : ℤ} (h0 : 0 ≤ t0Ns) (h : t0Ns < t1Ns) (h1 : t1Ns ≤ int64Max) :
    window rt db source t0Ns t1Ns = (windowRows db source t0Ns t1Ns).mapM (eventFromRow rt) := by
  have hbounds : (forEach [("t0_ns",t0Ns),("t1_ns",t1Ns)] fun bound => demand (0 ≤ bound.2 ∧ bound.2 ≤ int64Max)
      (ErrorType.schemaError.mk ("window: "++bound.1++"="++toString bound.2++" is outside the indexed range"))) =
      .ok () := by
    simp only [forEach_ok,demand_ok,List.forall_mem_cons,List.not_mem_nil,false_implies,implies_true,and_true]
    omega
  have hordered : demand (t0Ns < t1Ns) (ErrorType.schemaError.mk "window: the window must be non-empty and half-open") =
      .ok () := demand_ok.mpr h
  have hnamed : demand (source ≠ "") (ErrorType.schemaError.mk "window: expected a non-empty string") = .ok () :=
    demand_ok.mpr hs
  rw [window,hbounds,hordered,hnamed]
  rfl

theorem nodup_between (t0Ns t1Ns : ℤ) :
    ((Query.between (·.tEvtNs) t0Ns t1Ns (ofSource source db.working.rows)).map (·.eventId)).Nodup :=
  nodup_filter (nodup_ofSource _ _) _

theorem mem_windowRows {t0Ns t1Ns : ℤ} {row : EventColumns} : row ∈ windowRows db source t0Ns t1Ns ↔
    row ∈ db.working.rows ∧ row.sourceId = source ∧ t0Ns ≤ row.tEvtNs ∧ row.tEvtNs < t1Ns := by
  simp [windowRows,ofSource,Query.group,and_assoc]

/-- Adjacent windows tile. -/
theorem windowRows_append {t0Ns t1Ns t2Ns : ℤ} (h : t0Ns ≤ t1Ns) (h' : t1Ns ≤ t2Ns) :
    windowRows db source t0Ns t2Ns = windowRows db source t0Ns t1Ns++windowRows db source t1Ns t2Ns := by
  have hperm := Query.between_perm (f := (·.tEvtNs)) h h' (ofSource source db.working.rows)
  have hn : ((Query.between (·.tEvtNs) t0Ns t1Ns (ofSource source db.working.rows)++
      Query.between (·.tEvtNs) t1Ns t2Ns (ofSource source db.working.rows)).map timeKey).Nodup :=
    nodup_key (fun _ _ => timeKey_id) ((hperm.map _).nodup_iff.mp (nodup_between _ _))
  rw [windowRows,Query.orderBy_congr hperm hn,Query.orderBy_append hn fun a ha b hb => ?_]
  · rfl
  · have hlt : a.tEvtNs < b.tEvtNs := lt_of_lt_of_le (Query.mem_between.mp ha).2.2 (Query.mem_between.mp hb).2.1
    exact Prod.Lex.le_iff.mpr (.inl hlt)

theorem windowRows_empty (t : ℤ) : windowRows db source t t = [] := by
  refine List.eq_nil_iff_forall_not_mem.mpr fun row hr => ?_
  have := (mem_windowRows.mp hr).2.2
  omega

theorem windowRows_tiles {first : ℤ} {cuts : List ℤ} (h : (first::cuts).IsChain (· < ·)) :
    windowRows db source first ((first::cuts).getLast (List.cons_ne_nil _ _)) =
      (Query.neighbours (first::cuts)).flatMap fun p => windowRows db source p.1 p.2 := by
  rw [Query.neighbours_eq,List.tail_cons]
  induction cuts generalizing first with
  | nil => exact windowRows_empty first
  | cons cut cuts ih =>
    obtain ⟨hlt,hrest⟩ := List.isChain_cons_cons.mp h
    have hle : cut ≤ (cut::cuts).getLast (List.cons_ne_nil _ _) := by
      rcases List.mem_cons.mp (List.getLast_mem (List.cons_ne_nil cut cuts)) with he | hm
      · exact he.ge
      · exact ((List.isChain_iff_pairwise.mp hrest).rel_head_tail hm).le
    rw [List.zip_cons_cons,List.flatMap_cons,← ih hrest,List.getLast_cons_cons]
    exact windowRows_append hlt.le hle

theorem mapM_same {α β ε : Type} {f g : α → Except ε β} {l : List α} (h : ∀ a ∈ l, f a = g a) :
    l.mapM f = l.mapM g := by
  induction l with
  | nil => rfl
  | cons a l ih =>
    rw [List.mapM_cons,List.mapM_cons,h a (by simp),ih fun b hb => h b (List.mem_cons_of_mem _ hb)]

theorem mapM_flatMap {α β γ ε : Type} {f : α → List β} {g : β → Except ε γ} {l : List α} :
    (l.flatMap f).mapM g = (l.mapM fun a => (f a).mapM g).map List.flatten := by
  induction l with
  | nil => rfl
  | cons a l ih =>
    rw [List.flatMap_cons,List.mapM_append,List.mapM_cons,ih]
    cases (f a).mapM g with
    | error e => rfl
    | ok b => cases l.mapM fun a => (f a).mapM g <;> rfl

end

/-- A window answers exactly the records of its source whose time lies in it, in the order of time, sequence
number and id, and the windows between ascending cuts answer together what the window over them does. -/
theorem windows_exact (rt : Runtime) (db : Database) (source : String) (first : ℤ) (cuts : List ℤ)
    (hs : source ≠ "") (hcuts : (first::cuts).IsChain (· < ·)) (hne : cuts ≠ [])
    (hrange : ∀ t ∈ first::cuts, 0 ≤ t ∧ t ≤ int64Max) :
    (∃ rows : List EventColumns, window rt db source first ((first::cuts).getLast (List.cons_ne_nil _ _)) = rows.mapM (eventFromRow rt) ∧
      rows.Pairwise (timeKey · < timeKey ·) ∧
      ∀ row, row ∈ rows ↔ row ∈ db.working.rows ∧ row.sourceId = source ∧ first ≤ row.tEvtNs ∧
        row.tEvtNs < (first::cuts).getLast (List.cons_ne_nil _ _)) ∧
    window rt db source first ((first::cuts).getLast (List.cons_ne_nil _ _)) =
      ((Query.neighbours (first::cuts)).mapM fun p => window rt db source p.1 p.2).map List.flatten := by
  have hpairwise := List.isChain_iff_pairwise.mp hcuts
  have hlast : (first::cuts).getLast (List.cons_ne_nil _ _) ∈ cuts := by
    rw [List.getLast_cons hne]
    exact List.getLast_mem hne
  have hwhole := @window_eq rt db _ hs _ _ (hrange first (by simp)).1 (hpairwise.rel_head_tail hlast)
    (hrange _ (List.mem_cons_of_mem _ hlast)).2
  refine ⟨⟨_,hwhole,Query.strict_orderBy (nodup_key (fun _ _ => timeKey_id) (nodup_between _ _)),
    fun row => mem_windowRows⟩,?_⟩
  rw [hwhole,windowRows_tiles hcuts,mapM_flatMap]
  refine congrArg (Except.map List.flatten) (mapM_same fun p hp => (window_eq hs ?_ ?_ ?_).symm)
  · exact (hrange _ (Query.mem_neighbours hp).1).1
  · exact Query.neighbours_related hpairwise p hp
  · exact (hrange _ (Query.mem_neighbours hp).2).2

theorem windows_exact_logins : ∃ rows : List EventColumns,
    window storedRuntime (loads storedRuntime .fresh ([[firstStored,secondStored]].map feed)).2 "iam" 0 6 =
      rows.mapM (eventFromRow storedRuntime) ∧
    window storedRuntime (loads storedRuntime .fresh ([[firstStored,secondStored]].map feed)).2 "iam" 0 6 =
      ((Query.neighbours [0,4,6]).mapM fun p => window storedRuntime
        (loads storedRuntime .fresh ([[firstStored,secondStored]].map feed)).2 "iam" p.1 p.2).map List.flatten := by
  obtain ⟨⟨rows,hrows,-,-⟩,htiles⟩ := windows_exact storedRuntime
    (loads storedRuntime .fresh ([[firstStored,secondStored]].map feed)).2 "iam" 0 [4,6] (by decide) (by decide)
    (by decide) (by decide)
  exact ⟨rows,hrows,htiles⟩

/-! ### Sources -/

/-- A state that loads into a fresh store lead to. -/
def Reached (rt : Runtime) (db : Database) : Prop := ∃ files, db = (loads rt .fresh files).2

section

variable {rt : Runtime} {db : Database}

/-- Every row of a reached store is that of a line. -/
theorem Reached.spelled (h : Reached rt db) : ∀ row ∈ db.working.rows, ∃ line, LineRow rt line row := by
  obtain ⟨files,rfl⟩ := h
  rw [loads_settled]
  refine (loads_inv (P := fun table => ∀ row ∈ table, ∃ line, LineRow rt line row) ?_ fresh_settled
    fun row hr => by cases hr).2
  intro raw _ table rows htable hf _ row hr
  rcases List.mem_append.mp hr with hr | hr
  · exact htable row hr
  · obtain ⟨line,-,hline⟩ := (forall₂_mem (fileRows_ok.mp hf).2.2).2 row hr
    exact ⟨line,hline⟩

theorem Reached.sources_named (h : Reached rt db) : ∀ row ∈ db.working.rows, row.sourceId ≠ "" := by
  intro row hr
  obtain ⟨_,_,_,-,-,hrow⟩ := h.spelled row hr
  exact hrow.sourceId.2

theorem Reached.times (h : Reached rt db) : ∀ row ∈ db.working.rows, 0 ≤ row.tEvtNs ∧ row.tEvtNs ≤ int64Max := by
  intro row hr
  obtain ⟨_,_,_,-,-,hrow⟩ := h.spelled row hr
  exact hrow.tEvtNs.range

theorem mem_ofSource {source : String} {rows : List EventColumns} {row : EventColumns} :
    row ∈ ofSource source rows ↔ row ∈ rows ∧ row.sourceId = source := by
  simp [ofSource,Query.group]

/-- One group: how many rows it has, and the least and the greatest of their times. -/
theorem statsOf_spec {source : String} {rows : List EventColumns} (h : ∃ row ∈ rows, row.sourceId = source) :
    (statsOf rows source).records = (ofSource source rows).length ∧
      (∃ row ∈ ofSource source rows, row.tEvtNs = (statsOf rows source).firstTEvtNs) ∧
      (∃ row ∈ ofSource source rows, row.tEvtNs = (statsOf rows source).lastTEvtNs) ∧
      ∀ row ∈ ofSource source rows,
        (statsOf rows source).firstTEvtNs ≤ row.tEvtNs ∧ row.tEvtNs ≤ (statsOf rows source).lastTEvtNs := by
  obtain ⟨row,hr,he⟩ := h
  have hmem : row.tEvtNs ∈ (ofSource source rows).map (·.tEvtNs) := List.mem_map_of_mem (mem_ofSource.mpr ⟨hr,he⟩)
  obtain ⟨first,hfirst⟩ := Option.ne_none_iff_exists'.mp (mt List.min?_eq_none_iff.mp (List.ne_nil_of_mem hmem))
  obtain ⟨last,hlast⟩ := Option.ne_none_iff_exists'.mp (mt List.max?_eq_none_iff.mp (List.ne_nil_of_mem hmem))
  have hstats : statsOf rows source = ⟨source,(ofSource source rows).length,first,last⟩ := by
    simp only [statsOf,hfirst,hlast,Option.getD_some,List.length_map]
  rw [hstats]
  obtain ⟨hin,hleast⟩ := List.min?_eq_some_iff.mp hfirst
  obtain ⟨hin',hgreatest⟩ := List.max?_eq_some_iff.mp hlast
  refine ⟨rfl,List.mem_map.mp hin,List.mem_map.mp hin',fun row hr => ?_⟩
  exact ⟨hleast _ (List.mem_map_of_mem hr),hgreatest _ (List.mem_map_of_mem hr)⟩

theorem mem_sourceStats {stats : SourceStats} : stats ∈ sourceStats db ↔
    (∃ row ∈ db.working.rows, row.sourceId = stats.sourceId) ∧ stats = statsOf db.working.rows stats.sourceId := by
  simp only [sourceStats,List.mem_map,Query.mem_orderBy,List.mem_dedup]
  constructor
  · rintro ⟨source,⟨row,hr,he⟩,rfl⟩
    exact ⟨⟨row,hr,he⟩,rfl⟩
  · rintro ⟨⟨row,hr,he⟩,hstats⟩
    exact ⟨stats.sourceId,⟨row,hr,he⟩,hstats.symm⟩

theorem sum_records (db : Database) : ((sourceStats db).map (·.records)).sum = db.working.rows.length := by
  have hrecords : (sourceStats db).map (·.records) =
      (Query.orderBy binary (db.working.rows.map (·.sourceId)).dedup).map
        fun source => (Query.group (·.sourceId) source db.working.rows).length := by
    rw [sourceStats,List.map_map]
    exact List.map_congr_left fun source _ => List.length_map _
  rw [hrecords,((Query.orderBy_perm binary _).map _).sum_eq]
  exact Query.sum_group (·.sourceId) db.working.rows

/-- The rows of a source in the order of their sequence numbers. -/
def seqRows (db : Database) (source : String) : List EventColumns :=
  Query.orderBy seqKey (ofSource source db.working.rows)

theorem strict_seqRows (db : Database) (source : String) : (seqRows db source).Pairwise (seqKey · < seqKey ·) :=
  Query.strict_orderBy (nodup_key (fun _ _ => seqKey_id) (nodup_ofSource _ _))

/-- The outer clause finds the deltas in its order. -/
theorem gaps_eq {source : String} (hs : source ≠ "") :
    gaps db source = .ok ((Query.neighbours (seqRows db source)).map gapOf) := by
  have hnamed : demand (source ≠ "") (ErrorType.schemaError.mk "gaps: expected a non-empty string") = .ok () :=
    demand_ok.mpr hs
  have hstrict : ((Query.neighbours (seqRows db source)).map fun p => seqKey p.2).Pairwise (· < ·) := by
    have hseconds : (Query.neighbours (seqRows db source)).map (·.2) = (seqRows db source).tail := by
      rw [Query.neighbours_eq,List.map_snd_zip (by simp)]
    have hmap := List.pairwise_map.mpr ((strict_seqRows db source).tail)
    rw [← hseconds,List.map_map] at hmap
    exact hmap
  have hsorted : Query.neighbours (seqRows db source) =
      Query.orderBy (fun p => seqKey p.2) (Query.neighbours (seqRows db source)) :=
    Query.eq_orderBy (List.Perm.refl _) ((List.pairwise_map.mp hstrict).imp fun h => h.le)
      (hstrict.imp fun h => h.ne)
  rw [gaps,hnamed]
  exact congrArg (fun p => Except.ok (p.map gapOf)) hsorted.symm

end

/-- In every store that loads lead to, the sources with records are summarised once each, in the order of
their ids; their counts add up to the rows, and the gaps of a source with n records are the n-1 links
from its first to its last record in sequence order, within the extremes the summary gives. -/
theorem summaries_agree (rt : Runtime) (db : Database) (h : Reached rt db) :
    (sourceStats db).Pairwise (fun s s' => binary s.sourceId < binary s'.sourceId) ∧
      (∀ source, source ∈ (sourceStats db).map (·.sourceId) ↔ ∃ row ∈ db.working.rows, row.sourceId = source) ∧
      ((sourceStats db).map (·.records)).sum = db.working.rows.length ∧
      ∀ stats ∈ sourceStats db, 0 ≤ stats.firstTEvtNs ∧ stats.lastTEvtNs ≤ int64Max ∧
        ∃ answered low high, gaps db stats.sourceId = .ok answered ∧ answered.length+1 = stats.records ∧
          answered.IsChain (fun g g' => g.nextSeq = g'.prevSeq ∧ g.nextTEvtNs = g'.prevTEvtNs) ∧
          low ∈ ofSource stats.sourceId db.working.rows ∧ high ∈ ofSource stats.sourceId db.working.rows ∧
          (∀ row ∈ ofSource stats.sourceId db.working.rows, seqKey low ≤ seqKey row ∧ seqKey row ≤ seqKey high ∧
            stats.firstTEvtNs ≤ row.tEvtNs ∧ row.tEvtNs ≤ stats.lastTEvtNs) ∧
          (answered.map (·.deltaNs)).sum = high.tEvtNs-low.tEvtNs ∧
          ∀ g ∈ answered, g.sourceId = stats.sourceId ∧ g.prevSeq ≤ g.nextSeq ∧
            g.deltaNs = g.nextTEvtNs-g.prevTEvtNs ∧ |g.deltaNs| ≤ stats.lastTEvtNs-stats.firstTEvtNs := by
  refine ⟨?_,fun source => ?_,sum_records db,fun stats hstats => ?_⟩
  · exact List.pairwise_map.mpr (Query.strict_orderBy ((List.nodup_dedup _).map binary_injective))
  · constructor
    · intro hm
      obtain ⟨stats,hs,rfl⟩ := List.mem_map.mp hm
      exact (mem_sourceStats.mp hs).1
    · exact fun hrow => List.mem_map.mpr ⟨statsOf db.working.rows source,mem_sourceStats.mpr ⟨hrow,rfl⟩,rfl⟩
  obtain ⟨hrow,hof⟩ := mem_sourceStats.mp hstats
  obtain ⟨hcount,⟨first,hf,hfirst⟩,⟨last,hl,hlast⟩,hbounds⟩ := statsOf_spec hrow
  rw [← hof] at hcount hfirst hlast hbounds
  have hnamed : stats.sourceId ≠ "" := by
    obtain ⟨row,hr,he⟩ := hrow
    exact he ▸ h.sources_named row hr
  have hmem : ∀ row, row ∈ seqRows db stats.sourceId ↔ row ∈ ofSource stats.sourceId db.working.rows :=
    fun row => Query.mem_orderBy
  have hlength : (seqRows db stats.sourceId).length = stats.records := by
    rw [hcount]
    exact Query.length_orderBy
  have hstrict := strict_seqRows db stats.sourceId
  refine ⟨hfirst ▸ (h.times first (mem_ofSource.mp hf).1).1,hlast ▸ (h.times last (mem_ofSource.mp hl).1).2,?_⟩
  cases hrows : seqRows db stats.sourceId with
  | nil =>
    have hnot := (hmem first).mpr hf
    rw [hrows] at hnot
    cases hnot
  | cons low rows =>
    rw [hrows] at hmem hlength hstrict
    have hhigh : (low::rows).getLast (List.cons_ne_nil _ _) ∈ low::rows := List.getLast_mem _
    refine ⟨_,low,(low::rows).getLast (List.cons_ne_nil _ _),gaps_eq hnamed,?_,?_,(hmem _).mp (by simp),
      (hmem _).mp hhigh,fun row hr => ?_,?_,?_⟩
    · rw [hrows,List.length_map,Query.length_neighbours,← hlength]
      rfl
    · rw [hrows,List.isChain_map]
      exact (Query.linked_neighbours (low::rows)).imp fun p q hpq => by simp [gapOf,hpq]
    · refine ⟨?_,?_,hbounds row hr⟩
      · rcases List.mem_cons.mp ((hmem row).mpr hr) with rfl | hm
        · exact le_rfl
        · exact ((List.pairwise_cons.mp hstrict).1 row hm).le
      · have hordered : (low::rows).Pairwise (seqKey · ≤ seqKey ·) := hstrict.imp fun hlt => hlt.le
        exact hordered.rel_getLast_of_rel_getLast_getLast ((hmem row).mpr hr) le_rfl
    · rw [hrows,List.map_map]
      exact Query.sum_neighbours (·.tEvtNs) low rows
    · intro g hg
      rw [hrows] at hg
      obtain ⟨p,hp,rfl⟩ := List.mem_map.mp hg
      obtain ⟨hp₁,hp₂⟩ := Query.mem_neighbours hp
      have hlt := Query.neighbours_related hstrict p hp
      have hle : p.1.seq ≤ p.2.seq := by
        rcases Prod.Lex.lt_iff.mp hlt with hlt | ⟨he,-⟩
        · exact le_of_lt hlt
        · exact le_of_eq he
      obtain ⟨h₁,h₁'⟩ := hbounds _ ((hmem _).mp hp₁)
      obtain ⟨h₂,h₂'⟩ := hbounds _ ((hmem _).mp hp₂)
      refine ⟨(mem_ofSource.mp ((hmem _).mp hp₂)).2,hle,rfl,abs_le.mpr ⟨?_,?_⟩⟩
      · simp only [gapOf]; omega
      · simp only [gapOf]; omega

theorem summaries_agree_logins :
    ((sourceStats (loads storedRuntime .fresh ([[firstStored,secondStored]].map feed)).2).map (·.records)).sum =
      (loads storedRuntime .fresh ([[firstStored,secondStored]].map feed)).2.working.rows.length :=
  (summaries_agree storedRuntime _ ⟨_,rfl⟩).2.2.1

end Store
end Spectra
