import Spectra.Consistency

/-! Which timestamps have to be disbelieved: freed timestamps can always be placed, so what is left is
feasible exactly when it does not descend within a source, and a longest such rest leaves the fewest out. -/
namespace Spectra
namespace Temporal

variable {events events' : List Event} {instances : List SeqInstance}
  {ruleSeq : List (String × SeqOperator)} {removed : Finset String}

/-! ### The order of a source -/

/-- An id names one event of the list. -/
def Distinct (events : List Event) : Prop := (events.map (·.eventId)).Nodup

instance (events : List Event) : Decidable (Distinct events) := inferInstanceAs (Decidable (List.Nodup _))

theorem Distinct.eq (h : Distinct events) {d e : Event} (hd : d ∈ events) (he : e ∈ events)
    (heq : d.eventId = e.eventId) : d = e := List.inj_on_of_nodup_map h hd he heq

theorem eventId_of_seqKey {d e : Event} (h : d.seqKey = e.seqKey) : d.eventId = e.eventId :=
  congrArg (fun k => (ofLex k).2) h

theorem seqOrdered_perm (records : List Event) : (seqOrdered records).Perm records :=
  List.perm_insertionSort _ _

theorem seqOrdered_pairwise (records : List Event) :
    (seqOrdered records).Pairwise (·.seqKey ≤ ·.seqKey) := List.pairwise_insertionSort _ _

theorem mem_seqOrdered {records : List Event} {e : Event} : e ∈ seqOrdered records ↔ e ∈ records :=
  List.mem_insertionSort _

/-- The order the records come in does not matter. -/
theorem seqOrdered_congr (hn : Distinct events) (h : events.Perm events') (source : String) :
    seqOrdered (events.filter (·.sourceId = source)) = seqOrdered (events'.filter (·.sourceId = source)) := by
  refine (((seqOrdered_perm _).trans (h.filter _)).trans (seqOrdered_perm _).symm).eq_of_pairwise
    (fun a b ha hb hab hba => ?_) (seqOrdered_pairwise _) (seqOrdered_pairwise _)
  have hmem := (List.mem_filter.mp (mem_seqOrdered.mp ha)).1
  have hmem' := h.mem_iff.mpr (List.mem_filter.mp (mem_seqOrdered.mp hb)).1
  exact hn.eq hmem hmem' (eventId_of_seqKey (le_antisymm hab hba))

/-! ### Freed timestamps -/

/-- The timestamps that are still believed do not descend in the `seq` order of their sources. -/
def InOrder (events : List Event) (removed : Finset String) : Prop :=
  ∀ d ∈ events, ∀ e ∈ events, d.sourceId = e.sourceId → d.seqKey ≤ e.seqKey →
    d.eventId ∉ removed → e.eventId ∉ removed → d.tEvtNs ≤ e.tEvtNs

/-- Neighbours in a list are related along the whole of it, when the relation is transitive. -/
theorem pairwise_of_zip_tail {α : Type} {r : α → α → Prop} (htrans : ∀ a b c, r a b → r b c → r a c)
    {l : List α} (h : ∀ p ∈ l.zip l.tail, r p.1 p.2) : l.Pairwise r := by
  induction l with
  | nil => exact .nil
  | cons a l ih =>
    cases l with
    | nil => simp
    | cons b l =>
      have hrest := ih fun p hp => h p (by simpa using .inr hp)
      have hab : r a b := h (a,b) (by simp)
      refine List.pairwise_cons.mpr ⟨fun c hc => ?_,hrest⟩
      rcases List.mem_cons.mp hc with rfl | hc
      · exact hab
      · exact htrans a b c hab ((List.pairwise_cons.mp hrest).1 c hc)

/-- An assignment that keeps the constraints does not descend along a source. -/
theorem Satisfies.ascends {t : String → ℤ}
    (h : Satisfies t (buildConstraints events instances ruleSeq) removed) (source : String) :
    (seqOrdered (events.filter (·.sourceId = source))).Pairwise fun d e => t d.eventId ≤ t e.eventId := by
  have htrans : ∀ a b c : Event, t a.eventId ≤ t b.eventId → t b.eventId ≤ t c.eventId →
      t a.eventId ≤ t c.eventId := fun _ _ _ => le_trans
  refine pairwise_of_zip_tail htrans fun p hp => ?_
  obtain ⟨previous,following⟩ := p
  have hmem : (previous : Event) ∈ events.filter (·.sourceId = source) :=
    mem_seqOrdered.mp (List.of_mem_zip hp).1
  have hgroup : (source,events.filter (·.sourceId = source)) ∈ Groups.gather (·.sourceId) events := by
    refine Groups.mem_gather.mpr ⟨⟨previous,(List.mem_filter.mp hmem).1,?_⟩,rfl⟩
    simpa using (List.mem_filter.mp hmem).2
  have hc := h _ (mem_buildConstraints.mpr (.inr (.inl ⟨_,hgroup,List.mem_map_of_mem hp⟩))) (by simp)
  dsimp only at hc ⊢
  omega

/-- The highest timestamp that is still believed at or before an event of its source, from `low` on. -/
def reached (events : List Event) (removed : Finset String) (low : ℤ) (e : Event) : ℤ :=
  (events.filter fun d => d.sourceId = e.sourceId ∧ d.seqKey ≤ e.seqKey ∧ d.eventId ∉ removed).foldr
    (fun d highest => max d.tEvtNs highest) low

theorem foldr_max_le {l : List Event} {low x : ℤ} :
    l.foldr (fun d highest => max d.tEvtNs highest) low ≤ x ↔ low ≤ x ∧ ∀ d ∈ l, d.tEvtNs ≤ x := by
  induction l with
  | nil => simp
  | cons d l ih =>
    rw [List.foldr_cons,max_le_iff,ih,List.forall_mem_cons]
    tauto

theorem reached_le {low x : ℤ} {e : Event} : reached events removed low e ≤ x ↔ low ≤ x ∧
    ∀ d ∈ events, d.sourceId = e.sourceId → d.seqKey ≤ e.seqKey → d.eventId ∉ removed → d.tEvtNs ≤ x := by
  unfold reached
  rw [foldr_max_le]
  simp only [List.mem_filter,decide_eq_true_eq,and_imp]

theorem reached_mono {low : ℤ} {d e : Event} (hs : d.sourceId = e.sourceId) (hle : d.seqKey ≤ e.seqKey) :
    reached events removed low d ≤ reached events removed low e := by
  obtain ⟨hlow,hall⟩ := reached_le.mp (le_refl (reached events removed low e))
  exact reached_le.mpr ⟨hlow,fun c hc hcs hck hcr => hall c hc (hcs.trans hs) (hck.trans hle) hcr⟩

/-- Where what is believed does not descend, an event that is believed reaches its own timestamp. -/
theorem reached_eq (h : InOrder events removed) {low : ℤ} (hlow : ∀ e ∈ events, low ≤ e.tEvtNs) {e : Event}
    (he : e ∈ events) (hr : e.eventId ∉ removed) : reached events removed low e = e.tEvtNs := by
  refine le_antisymm (reached_le.mpr ⟨hlow e he,fun d hd hs hk hdr => h d hd e he hs hk hdr hr⟩) ?_
  exact (reached_le.mp (le_refl (reached events removed low e))).2 e he rfl le_rfl hr

/-- Every freed timestamp at what its source has reached, and the zero node at zero. -/
def placed (events : List Event) (removed : Finset String) (low : ℤ) (node : String) : ℤ :=
  match events.find? (·.eventId = node) with
  | some e => reached events removed low e
  | none => 0

theorem placed_event (hn : Distinct events) {low : ℤ} {e : Event} (he : e ∈ events) :
    placed events removed low e.eventId = reached events removed low e := by
  unfold placed
  cases hf : events.find? (·.eventId = e.eventId) with
  | none => exact (List.find?_eq_none.mp hf e he (by simp)).elim
  | some d =>
    have hd : d.eventId = e.eventId := by simpa using List.find?_some hf
    rw [hn.eq (List.mem_of_find?_eq_some hf) he hd]

theorem placed_zeroNode {low : ℤ} : placed events removed low zeroNode = 0 := by
  have hf : events.find? (·.eventId = zeroNode) = none :=
    List.find?_eq_none.mpr fun e _ => by simpa using e.ne_zeroNode
  rw [placed,hf]

theorem exists_low (events : List Event) : ∃ low, ∀ e ∈ events, low ≤ e.tEvtNs := by
  induction events with
  | nil => exact ⟨0,by simp⟩
  | cons e events ih =>
    obtain ⟨low,h⟩ := ih
    refine ⟨min low e.tEvtNs,List.forall_mem_cons.mpr ⟨min_le_right _ _,fun d hd => ?_⟩⟩
    exact (min_le_left _ _).trans (h d hd)

/-- Without rule operators, what is left is feasible exactly when it does not descend within a source. -/
theorem feasible_iff_inOrder (hn : Distinct events) (times : List (String × ℤ)) :
    feasible (buildConstraints events instances []) times removed = true ↔ InOrder events removed := by
  rw [feasible_iff]
  constructor
  · rintro ⟨t,ht⟩ d hd e he hs hk hdr her
    by_cases heq : d = e
    · rw [heq]
    · have hsorted := (ht.ascends e.sourceId).and (seqOrdered_pairwise _)
      have hmem : ∀ c ∈ events, c.sourceId = e.sourceId →
          c ∈ seqOrdered (events.filter (·.sourceId = e.sourceId)) := fun c hc hcs =>
        mem_seqOrdered.mpr (List.mem_filter.mpr ⟨hc,by simpa using hcs⟩)
      have hle : t d.eventId ≤ t e.eventId := by
        obtain ⟨i,hi⟩ := List.mem_iff_getElem.mp (hmem d hd hs)
        obtain ⟨j,hj⟩ := List.mem_iff_getElem.mp (hmem e he rfl)
        obtain ⟨hi,hdi⟩ := hi
        obtain ⟨hj,hej⟩ := hj
        rcases lt_trichotomy i j with hij | rfl | hji
        · have hforth := (List.pairwise_iff_getElem.mp hsorted i j hi hj hij).1
          rwa [hdi,hej] at hforth
        · exact absurd (hdi.symm.trans hej) heq
        · have hback := (List.pairwise_iff_getElem.mp hsorted j i hj hi hji).2
          rw [hdi,hej] at hback
          exact absurd (hn.eq hd he (eventId_of_seqKey (le_antisymm hk hback))) heq
      rw [ht.pinned hd hdr,ht.pinned he her] at hle
      omega
  · intro h
    obtain ⟨low,hlow⟩ := exists_low events
    refine ⟨placed events removed low,fun c hc hkept => ?_⟩
    rcases mem_buildConstraints.mp hc with ⟨e,he,hp⟩ | ⟨⟨source,group⟩,hg,hc⟩ | ⟨i,-,hi⟩
    · have hr : e.eventId ∉ removed := fun hr => hkept (by
        rcases mem_pins.mp hp with rfl | rfl <;> exact ⟨rfl,_,hr,rfl⟩)
      rcases mem_pins.mp hp with rfl | rfl <;> dsimp only <;>
        rw [placed_event hn he,placed_zeroNode,reached_eq h hlow he hr] <;> omega
    · obtain ⟨-,rfl⟩ := Groups.mem_gather.mp hg
      obtain ⟨⟨previous,following⟩,hp,rfl⟩ := List.mem_map.mp hc
      obtain ⟨hprevious,hfollowing⟩ := List.of_mem_zip hp
      obtain ⟨hpe,hps⟩ := List.mem_filter.mp (mem_seqOrdered.mp hprevious)
      obtain ⟨hfe,hfs⟩ := List.mem_filter.mp (mem_seqOrdered.mp (List.mem_of_mem_tail hfollowing))
      have hsame : previous.sourceId = following.sourceId := by simp_all
      have hle : previous.seqKey ≤ following.seqKey := by
        obtain ⟨i,hi⟩ := List.mem_iff_getElem?.mp hp
        rw [List.getElem?_zip_eq_some,List.getElem?_tail] at hi
        obtain ⟨hi',hi₁⟩ := List.getElem?_eq_some_iff.mp hi.1
        obtain ⟨hj',hj₁⟩ := List.getElem?_eq_some_iff.mp hi.2
        have := List.pairwise_iff_getElem.mp (seqOrdered_pairwise _) i (i+1) hi' hj' (Nat.lt_succ_self i)
        rwa [hi₁,hj₁] at this
      have := @reached_mono events removed low _ _ hsame hle
      dsimp only
      rw [placed_event hn hpe,placed_event hn hfe]
      omega
    · exact absurd hi (by simp [ruleBounds])

/-! ### The fewest corrections -/

/-- The timestamps of a source, in `seq` order. -/
def ordinals (records : List Event) : List ℤ := (seqOrdered records).map (·.tEvtNs)

theorem mem_corrected {records : List Event} {id : String} : id ∈ corrected records ↔
    ∃ (i : ℕ) (e : Event), (seqOrdered records)[i]? = some e ∧ i ∉ longestNonDecreasing (ordinals records) ∧
      e.eventId = id := by
  unfold corrected
  dsimp only
  rw [List.mem_filterMap]
  constructor
  · rintro ⟨⟨e,i⟩,hp,h⟩
    dsimp only at h
    split at h
    · cases h
    · rename_i hi
      exact ⟨i,e,List.mem_zipIdx_iff_getElem?.mp hp,hi,Option.some.inj h⟩
  · rintro ⟨i,e,he,hi,rfl⟩
    exact ⟨(e,i),List.mem_zipIdx_iff_getElem?.mpr he,if_neg hi⟩

theorem getD_ordinals {records : List Event} {i : ℕ} {e : Event} (h : (seqOrdered records)[i]? = some e) :
    (ordinals records).getD i 0 = e.tEvtNs := by
  rw [ordinals,List.getD_eq_getElem?_getD,List.getElem?_map,h]
  rfl

theorem longest_ordinals (records : List Event) :
    (longestNonDecreasing (ordinals records)).Pairwise (· < ·) ∧
    (longestNonDecreasing (ordinals records)).Pairwise
      (fun i j => (ordinals records).getD i 0 ≤ (ordinals records).getD j 0) ∧
    (∀ i ∈ longestNonDecreasing (ordinals records), i < (ordinals records).length) ∧
    ∀ m : List ℕ, m.Pairwise (· < ·) →
      m.Pairwise (fun i j => (ordinals records).getD i 0 ≤ (ordinals records).getD j 0) →
      (∀ i ∈ m, i < (ordinals records).length) →
        m.length ≤ (longestNonDecreasing (ordinals records)).length := Patience.longest_spec _

/-- The kept places ascend, the values there do not descend, and no subsequence whose values do not
descend is longer. -/
theorem longestNonDecreasing_spec (values : List ℤ) :
    (longestNonDecreasing values).Pairwise (· < ·) ∧
    (∀ i ∈ longestNonDecreasing values, i < values.length) ∧
    ((longestNonDecreasing values).map (values.getD · 0)).Pairwise (· ≤ ·) ∧
    ∀ run : List ℤ, run.Sublist values → run.Pairwise (· ≤ ·) →
      run.length ≤ (longestNonDecreasing values).length := by
  obtain ⟨hascend,hordered,hbound,hmost⟩ :=
    @Patience.longest_spec ℤ _ (fun i => values.getD i 0) values.length
  refine ⟨hascend,hbound,List.pairwise_map.mpr hordered,fun run hrun hr => ?_⟩
  -- a subsequence stands at ascending places
  obtain ⟨places,rfl,hplaces⟩ := List.sublist_eq_map_getElem hrun
  rw [List.pairwise_map] at hr
  have hlength := hmost (places.map Fin.val) (List.pairwise_map.mpr hplaces)
    (List.pairwise_map.mpr (hr.imp fun {i j} h => by simpa [List.getD_eq_getElem?_getD] using h))
    (fun i hi => by obtain ⟨j,-,rfl⟩ := List.mem_map.mp hi; exact j.isLt)
  rwa [List.length_map] at hlength ⊢

/-- What is not corrected does not descend. -/
theorem corrected_inOrder (hn : Distinct events) {source : String} {removed : Finset String}
    (hr : ∀ id, id ∈ corrected (events.filter (·.sourceId = source)) → id ∈ removed) {d e : Event}
    (hd : d ∈ events) (he : e ∈ events) (hds : d.sourceId = source) (hes : e.sourceId = source)
    (hk : d.seqKey ≤ e.seqKey) (hdr : d.eventId ∉ removed) (her : e.eventId ∉ removed) :
    d.tEvtNs ≤ e.tEvtNs := by
  obtain ⟨-,hordered,-⟩ := longest_ordinals (events.filter (·.sourceId = source))
  obtain ⟨hascend,-⟩ := longest_ordinals (events.filter (·.sourceId = source))
  have hplace : ∀ c ∈ events, c.sourceId = source → c.eventId ∉ removed →
      ∃ i, (seqOrdered (events.filter (·.sourceId = source)))[i]? = some c ∧
        i ∈ longestNonDecreasing (ordinals (events.filter (·.sourceId = source))) := by
    intro c hc hcs hcr
    have hmem : c ∈ events.filter (·.sourceId = source) := List.mem_filter.mpr ⟨hc,decide_eq_true hcs⟩
    obtain ⟨i,hi⟩ := List.mem_iff_getElem?.mp (mem_seqOrdered.mpr hmem)
    refine ⟨i,hi,?_⟩
    by_contra hnot
    exact hcr (hr _ (mem_corrected.mpr ⟨i,c,hi,hnot,rfl⟩))
  obtain ⟨i,hi,hik⟩ := hplace d hd hds hdr
  obtain ⟨j,hj,hjk⟩ := hplace e he hes her
  rcases lt_trichotomy i j with hij | rfl | hji
  · obtain ⟨a,ha⟩ := List.mem_iff_getElem.mp hik
    obtain ⟨b,hb⟩ := List.mem_iff_getElem.mp hjk
    obtain ⟨ha,hai⟩ := ha
    obtain ⟨hb,hbj⟩ := hb
    -- the places of `i` and `j` among the kept indices are in the order of `i` and `j`
    have hab : a < b := by
      rcases lt_trichotomy a b with h | rfl | h
      · exact h
      · exact absurd (hai.symm.trans hbj) hij.ne
      · have := List.pairwise_iff_getElem.mp hascend b a hb ha h
        rw [hai,hbj] at this
        omega
    have := List.pairwise_iff_getElem.mp hordered a b ha hb hab
    rwa [hai,hbj,getD_ordinals hi,getD_ordinals hj] at this
  · rw [hi] at hj
    cases hj
    exact le_rfl
  · obtain ⟨hi',hdi⟩ := List.getElem?_eq_some_iff.mp hi
    obtain ⟨hj',hej⟩ := List.getElem?_eq_some_iff.mp hj
    have hback := List.pairwise_iff_getElem.mp (seqOrdered_pairwise _) j i hj' hi' hji
    rw [hdi,hej] at hback
    rw [hn.eq hd he (eventId_of_seqKey (le_antisymm hk hback))]

/-- A source needs no more corrections than any removal that leaves it in order makes in it. -/
theorem corrected_length_le (h : InOrder events removed) (source : String) :
    (corrected (events.filter (·.sourceId = source))).length ≤
      ((events.filter (·.sourceId = source)).filter (·.eventId ∈ removed)).length := by
  generalize hg : events.filter (·.sourceId = source) = records
  have hin : ∀ e ∈ seqOrdered records, e ∈ events ∧ e.sourceId = source := by
    intro e he
    rw [← hg] at he
    simpa using mem_seqOrdered.mp he
  obtain ⟨hascend,-,hbound,hmost⟩ := longest_ordinals records
  have hcount : (corrected records).length = (seqOrdered records).zipIdx.countP
      fun q => q.2 ∉ longestNonDecreasing (ordinals records) := by
    unfold corrected ordinals
    dsimp only
    rw [List.length_filterMap_eq_countP]
    refine List.countP_congr fun q _ => ?_
    split <;> simp_all
  have hremoved : (records.filter (·.eventId ∈ removed)).length =
      (seqOrdered records).zipIdx.countP fun q => q.1.eventId ∈ removed := by
    rw [← ((seqOrdered_perm records).filter _).length_eq,← List.countP_eq_length_filter]
    conv_lhs => rw [← List.zipIdx_map_fst 0 (seqOrdered records),List.countP_map]
    rfl
  have hindices : (seqOrdered records).zipIdx.map (·.2) = List.range (ordinals records).length := by
    rw [List.zipIdx_map_snd,ordinals,List.length_map,List.range_eq_range']
  -- the indices that are left are such indices as the longest ones are
  have hleft : ((seqOrdered records).zipIdx.countP fun q => q.1.eventId ∉ removed) ≤
      (longestNonDecreasing (ordinals records)).length := by
    rw [List.countP_eq_length_filter,← List.length_map (f := (·.2))]
    have hsub : ((((seqOrdered records).zipIdx.filter fun q => q.1.eventId ∉ removed)).map (·.2)).Sublist
        (List.range (ordinals records).length) := hindices ▸ List.filter_sublist.map _
    refine hmost _ (List.pairwise_lt_range.sublist hsub) ?_ fun i hi => List.mem_range.mp (hsub.subset hi)
    have hsorted : (seqOrdered records).zipIdx.Pairwise fun q q' => q.1.seqKey ≤ q'.1.seqKey := by
      rw [← List.pairwise_map (f := Prod.fst) (R := fun d e : Event => d.seqKey ≤ e.seqKey),
        List.zipIdx_map_fst]
      exact seqOrdered_pairwise records
    refine List.pairwise_map.mpr ((hsorted.filter _).imp_of_mem fun {q q'} hq hq' hle => ?_)
    obtain ⟨hq,hqr⟩ := List.mem_filter.mp hq
    obtain ⟨hq',hqr'⟩ := List.mem_filter.mp hq'
    have hget := List.mem_zipIdx_iff_getElem?.mp hq
    have hget' := List.mem_zipIdx_iff_getElem?.mp hq'
    obtain ⟨he,hes⟩ := hin _ (List.mem_of_getElem? hget)
    obtain ⟨he',hes'⟩ := hin _ (List.mem_of_getElem? hget')
    rw [getD_ordinals hget,getD_ordinals hget']
    exact h _ he _ he' (hes.trans hes'.symm) hle (by simpa using hqr) (by simpa using hqr')
  have hkept : (longestNonDecreasing (ordinals records)).length ≤
      (seqOrdered records).zipIdx.countP fun q => q.2 ∈ longestNonDecreasing (ordinals records) := by
    rw [List.countP_eq_length_filter]
    refine le_of_le_of_eq (List.subperm_of_subset (hascend.imp ne_of_lt) fun i hi => ?_).length_le
      (List.length_map (f := Prod.snd))
    have hmem : i ∈ (seqOrdered records).zipIdx.map (·.2) := hindices ▸ List.mem_range.mpr (hbound i hi)
    obtain ⟨q,hq,rfl⟩ := List.mem_map.mp hmem
    exact List.mem_map_of_mem (List.mem_filter.mpr ⟨hq,by simpa using hi⟩)
  have htotal := fun p => List.length_eq_countP_add_countP p (l := (seqOrdered records).zipIdx)
  have h₁ := htotal fun q => decide (q.2 ∈ longestNonDecreasing (ordinals records))
  have h₂ := htotal fun q => decide (q.1.eventId ∈ removed)
  simp only [decide_eq_true_eq] at h₁ h₂
  rw [hcount,hremoved]
  omega

/-! ### All sources -/

theorem flatMap_length_le {α β γ : Type} {l : List α} {f : α → List β} {g : α → List γ}
    (h : ∀ a ∈ l, (f a).length ≤ (g a).length) : (l.flatMap f).length ≤ (l.flatMap g).length := by
  rw [List.length_flatMap,List.length_flatMap]
  exact List.sum_le_sum h

theorem flatMap_sublist {α β : Type} {l : List α} {f g : α → List β} (h : ∀ a ∈ l, (f a).Sublist (g a)) :
    (l.flatMap f).Sublist (l.flatMap g) := by
  induction l with
  | nil => exact .slnil
  | cons a l ih =>
    rw [List.flatMap_cons,List.flatMap_cons]
    exact (h a (by simp)).append (ih fun b hb => h b (by simp [hb]))

theorem monotonicCorrections_eq : monotonicCorrections events =
    ((Groups.keys (·.sourceId) events).flatMap fun source =>
      corrected (events.filter (·.sourceId = source))).insertionSort (· ≤ ·) := by
  rw [monotonicCorrections,Groups.byKey_eq,List.flatMap_map]

theorem mem_monotonicCorrections {id : String} : id ∈ monotonicCorrections events ↔
    ∃ source, id ∈ corrected (events.filter (·.sourceId = source)) := by
  rw [monotonicCorrections_eq,List.mem_insertionSort,List.mem_flatMap]
  constructor
  · rintro ⟨source,-,h⟩
    exact ⟨source,h⟩
  · rintro ⟨source,h⟩
    obtain ⟨i,e,he,-,-⟩ := mem_corrected.mp h
    obtain ⟨hmem,hs⟩ := List.mem_filter.mp (mem_seqOrdered.mp (List.mem_of_getElem? he))
    exact ⟨source,Groups.mem_keys.mpr ⟨e,hmem,by simpa using hs⟩,h⟩

theorem corrected_sublist (records : List Event) :
    (corrected records).Sublist ((seqOrdered records).map (·.eventId)) := by
  have hid : (seqOrdered records).map (·.eventId) =
      (seqOrdered records).zipIdx.filterMap fun q => some q.1.eventId := by
    rw [List.filterMap_eq_map',← List.zipIdx_map_fst 0 (seqOrdered records),List.map_map]
    simp [Function.comp_def]
  rw [hid]
  unfold corrected
  dsimp only
  generalize (seqOrdered records).zipIdx = l
  induction l with
  | nil => exact .slnil
  | cons q l ih =>
    simp only [List.filterMap_cons]
    split_ifs
    · exact ih.cons _
    · exact ih.cons_cons _

theorem monotonicCorrections_ids : ∃ ids : List String, (monotonicCorrections events).Perm ids ∧
    ids.Sublist ((Groups.keys (·.sourceId) events).flatMap fun source =>
      (seqOrdered (events.filter (·.sourceId = source))).map (·.eventId)) :=
  ⟨_,monotonicCorrections_eq ▸ List.perm_insertionSort _ _,flatMap_sublist fun _ _ => corrected_sublist _⟩

theorem ordered_ids_perm : ((Groups.keys (·.sourceId) events).flatMap fun source =>
    (seqOrdered (events.filter (·.sourceId = source))).map (·.eventId)).Perm (events.map (·.eventId)) := by
  have hgroups : ((Groups.keys (·.sourceId) events).flatMap fun source =>
      events.filter (·.sourceId = source)).Perm events :=
    Groups.filters_perm (Groups.keys_ascending.imp ne_of_lt) fun e he => Groups.mem_keys.mpr ⟨e,he,rfl⟩
  refine List.Perm.trans ?_ (hgroups.map _)
  rw [List.map_flatMap]
  exact List.Perm.flatMap_left _ fun source _ => (seqOrdered_perm _).map _

theorem monotonicCorrections_nodup (hn : Distinct events) : (monotonicCorrections events).Nodup := by
  obtain ⟨ids,hperm,hsub⟩ := @monotonicCorrections_ids events
  exact hperm.nodup_iff.mpr ((ordered_ids_perm.nodup_iff.mpr hn).sublist hsub)

theorem monotonicCorrections_named {id : String} (h : id ∈ monotonicCorrections events) :
    id ∈ events.map (·.eventId) := by
  obtain ⟨ids,hperm,hsub⟩ := @monotonicCorrections_ids events
  exact ordered_ids_perm.mem_iff.mp (hsub.subset (hperm.mem_iff.mp h))

/-- Disbelieving the corrections leaves every source in order. -/
theorem monotonicCorrections_inOrder (hn : Distinct events) :
    InOrder events (monotonicCorrections events).toFinset := by
  intro d hd e he hs hk hdr her
  have hall : ∀ id, id ∈ corrected (events.filter (·.sourceId = e.sourceId)) →
      id ∈ (monotonicCorrections events).toFinset := fun id hid =>
    List.mem_toFinset.mpr (mem_monotonicCorrections.mpr ⟨_,hid⟩)
  exact corrected_inOrder hn hall hd he hs rfl hk hdr her

/-- No removal that leaves every source in order is smaller. -/
theorem monotonicCorrections_least (hn : Distinct events) (h : InOrder events removed) :
    (monotonicCorrections events).length ≤ removed.card := by
  rw [monotonicCorrections_eq,List.length_insertionSort]
  refine (flatMap_length_le fun source _ => corrected_length_le h source).trans ?_
  have hflat : ((Groups.keys (·.sourceId) events).flatMap fun source =>
      (events.filter (·.sourceId = source)).filter (·.eventId ∈ removed)) =
      (((Groups.keys (·.sourceId) events).flatMap fun source =>
        events.filter (·.sourceId = source)).filter (·.eventId ∈ removed)) := List.filter_flatMap.symm
  have hgroups : ((Groups.keys (·.sourceId) events).flatMap fun source =>
      events.filter (·.sourceId = source)).Perm events :=
    Groups.filters_perm (Groups.keys_ascending.imp ne_of_lt) fun e he => Groups.mem_keys.mpr ⟨e,he,rfl⟩
  rw [hflat,(hgroups.filter _).length_eq,← List.length_map (f := Event.eventId)]
  have hids : ((events.filter (·.eventId ∈ removed)).map (·.eventId)).Nodup :=
    List.Nodup.sublist (List.filter_sublist.map _) hn
  rw [← List.toFinset_card_of_nodup hids]
  refine Finset.card_le_card fun id hid => ?_
  obtain ⟨e,he,rfl⟩ := List.mem_map.mp (List.mem_toFinset.mp hid)
  simpa using (List.mem_filter.mp he).2

/-! ### The order of the events -/

theorem keys_congr (h : events.Perm events') :
    Groups.keys (·.sourceId) events = Groups.keys (·.sourceId) events' := by
  have hn : ∀ l : List Event, (Groups.keys (·.sourceId) l).Nodup := fun _ => Groups.keys_ascending.imp ne_of_lt
  have hp : (Groups.keys (·.sourceId) events).Perm (Groups.keys (·.sourceId) events') := by
    refine (List.perm_ext_iff_of_nodup (hn _) (hn _)).mpr fun k => ?_
    simp only [Groups.mem_keys,h.mem_iff]
  exact hp.eq_of_pairwise (fun a b _ _ hab hba => absurd hab hba.asymm) Groups.keys_ascending
    Groups.keys_ascending

theorem Distinct.perm (hn : Distinct events) (h : events.Perm events') : Distinct events' :=
  (h.map _).nodup_iff.mp hn

theorem monotonicCorrections_congr (hn : Distinct events) (h : events.Perm events') :
    monotonicCorrections events = monotonicCorrections events' := by
  rw [monotonicCorrections_eq,monotonicCorrections_eq,keys_congr h]
  refine congrArg (fun l : List String => l.insertionSort (· ≤ ·)) (List.flatMap_congr fun source _ => ?_)
  unfold corrected
  rw [seqOrdered_congr hn h]

theorem ruleBounds_nil (i : SeqInstance) : ruleBounds [] i = [] := rfl

/-- A constraint that relates neighbours names its source and both of its events. -/
theorem mem_neighbours {source : String} {c : Constraint}
    (h : c ∈ neighbours source (events.filter (·.sourceId = source))) : ∃ previous ∈ events, ∃ following ∈ events,
      previous.sourceId = source ∧ c = ⟨⟨following.eventId,previous.eventId,0⟩,.seqMonotonic,
        source++" seq "++toString previous.seq++" -> "++toString following.seq,none⟩ := by
  obtain ⟨⟨previous,following⟩,hp,rfl⟩ := List.mem_map.mp h
  obtain ⟨hprevious,hfollowing⟩ := List.of_mem_zip hp
  obtain ⟨hpe,hps⟩ := List.mem_filter.mp (mem_seqOrdered.mp hprevious)
  obtain ⟨hfe,-⟩ := List.mem_filter.mp (mem_seqOrdered.mp (List.mem_of_mem_tail hfollowing))
  exact ⟨previous,hpe,following,hfe,by simpa using hps,rfl⟩

theorem unruled_cases {c : Constraint} (hc : c ∈ buildConstraints events instances []) :
    (∃ e ∈ events, c ∈ pins e) ∨ ∃ previous ∈ events, ∃ following ∈ events,
      c = ⟨⟨following.eventId,previous.eventId,0⟩,.seqMonotonic,
        previous.sourceId++" seq "++toString previous.seq++" -> "++toString following.seq,none⟩ := by
  rcases mem_buildConstraints.mp hc with h | ⟨⟨source,group⟩,hg,hc⟩ | ⟨i,-,hi⟩
  · exact .inl h
  · obtain ⟨-,rfl⟩ := Groups.mem_gather.mp hg
    obtain ⟨previous,hp,following,hf,rfl,hc⟩ := mem_neighbours hc
    exact .inr ⟨previous,hp,following,hf,hc⟩
  · rw [ruleBounds_nil] at hi
    cases hi

/-- Without rule operators a constraint is told by its key. -/
theorem sortKey_inj (hn : Distinct events) {c c' : Constraint}
    (hc : c ∈ buildConstraints events instances []) (hc' : c' ∈ buildConstraints events instances [])
    (h : c.sortKey = c'.sortKey) : c = c' := by
  have hkind : c.kind.text = c'.kind.text := congrArg (fun k => (ofLex k).1) h
  have hu : c.u = c'.u := congrArg (fun k => (ofLex (ofLex k).2).1) h
  have hv : c.v = c'.v := congrArg (fun k => (ofLex (ofLex (ofLex k).2).2).1) h
  have hne : Kind.pin.text ≠ Kind.seqMonotonic.text := by decide
  rcases unruled_cases hc with ⟨e,he,hp⟩ | ⟨p,hpe,f,hfe,rfl⟩ <;>
    rcases unruled_cases hc' with ⟨e',he',hp'⟩ | ⟨p',hpe',f',hfe',rfl⟩
  · rcases mem_pins.mp hp with rfl | rfl <;> rcases mem_pins.mp hp' with rfl | rfl
    · rw [hn.eq he he' hv]
    · exact absurd hu.symm e'.ne_zeroNode
    · exact absurd hu e.ne_zeroNode
    · rw [hn.eq he he' hu]
  · rcases mem_pins.mp hp with rfl | rfl <;> exact absurd hkind hne
  · rcases mem_pins.mp hp' with rfl | rfl <;> exact absurd hkind.symm hne
  · rw [hn.eq hfe hfe' hu,hn.eq hpe hpe' hv]

theorem nodup_eraseDups {α : Type} [DecidableEq α] (l : List α) : l.eraseDups.Nodup := by
  match l with
  | [] => exact .nil
  | a::l =>
    have : (l.filter fun b => !b == a).length < l.length+1 := Nat.lt_succ_of_le (List.length_filter_le _ _)
    rw [List.eraseDups_cons]
    exact List.nodup_cons.mpr ⟨by simp,nodup_eraseDups _⟩
termination_by l.length

theorem buildConstraints_congr (hn : Distinct events) (h : events.Perm events') :
    buildConstraints events instances [] = buildConstraints events' instances [] := by
  have hsame : ∀ c, c ∈ buildConstraints events instances [] ↔ c ∈ buildConstraints events' instances [] := by
    have hgather : ∀ c, (∃ p ∈ Groups.gather (·.sourceId) events, c ∈ neighbours p.1 p.2) ↔
        ∃ p ∈ Groups.gather (·.sourceId) events', c ∈ neighbours p.1 p.2 := fun c => by
      have hone : ∀ {l l' : List Event}, Distinct l → l.Perm l' →
          (∃ p ∈ Groups.gather (·.sourceId) l, c ∈ neighbours p.1 p.2) →
            ∃ p ∈ Groups.gather (·.sourceId) l', c ∈ neighbours p.1 p.2 := by
        rintro l l' hl hp ⟨⟨source,group⟩,hg,hc⟩
        obtain ⟨⟨e,he,hs⟩,rfl⟩ := Groups.mem_gather.mp hg
        refine ⟨(source,_),Groups.mem_gather.mpr ⟨⟨e,hp.mem_iff.mp he,hs⟩,rfl⟩,?_⟩
        unfold neighbours at hc ⊢
        dsimp only at hc ⊢
        rwa [← seqOrdered_congr hl hp]
      exact ⟨hone hn h,hone (hn.perm h) h.symm⟩
    intro c
    rw [mem_buildConstraints,mem_buildConstraints,hgather c]
    simp only [h.mem_iff]
  have hnodup : ∀ l : List Event, (buildConstraints l instances []).Nodup := fun l =>
    (List.perm_insertionSort _ _).nodup_iff.mpr (nodup_eraseDups _)
  refine ((List.perm_ext_iff_of_nodup (hnodup _) (hnodup _)).mpr hsame).eq_of_pairwise
    (fun a b ha hb hab hba => ?_) (List.pairwise_insertionSort _ _) (List.pairwise_insertionSort _ _)
  exact sortKey_inj hn ha ((hsame b).mpr hb) (le_antisymm hab hba)

/-! ### The pass -/

theorem violationOf_constraint {lower upper : List (String × Constraint)} {times : List (String × ℤ)}
    {c : Constraint} {v : Violation} (h : violationOf lower upper times c = some v) :
    v.constraint = c ∧ c.kind ≠ .pin := by
  unfold violationOf at h
  split at h
  · cases h
  · rename_i hk
    split at h
    · dsimp only at h
      split at h
      · cases h
      · split at h
        · rw [← Option.some.inj h]
          exact ⟨rfl,hk⟩
        · cases h
    · cases h

/-- Without rule operators every violation is one of the order of a source. -/
theorem violation_kind {times : List (String × ℤ)} {v : Violation}
    (h : v ∈ findViolations (buildConstraints events instances []) times) :
    v.constraint.kind = .seqMonotonic := by
  obtain ⟨c,hc,hv⟩ := List.mem_filterMap.mp h
  obtain ⟨rfl,hk⟩ := violationOf_constraint hv
  rcases unruled_cases hc with ⟨e,-,hp⟩ | ⟨p,-,f,-,hc⟩
  · rcases mem_pins.mp hp with hc | hc <;> exact absurd (congrArg Constraint.kind hc) hk
  · exact congrArg Constraint.kind hc

theorem findViolations_congr {constraints : List Constraint} {times times' : List (String × ℤ)}
    (h : ∀ k, Dict.get? times k = Dict.get? times' k) :
    findViolations constraints times = findViolations constraints times' := by
  unfold findViolations violationOf
  simp only [h]

theorem correctionSet_eq (hn : Distinct events) (cap : ℤ) :
    (runPass events instances [] cap).correctionSet = monotonicCorrections events := by
  have hrule : ((findViolations (buildConstraints events instances []) (timesOf events)).filter
      (·.constraint.kind ≠ .seqMonotonic)) = [] :=
    List.filter_eq_nil_iff.mpr fun v hv => by simpa using violation_kind hv
  have hextra : correctionSet ((findViolations (buildConstraints events instances []) (timesOf events)).filter
      (·.constraint.kind ≠ .seqMonotonic)) cap (monotonicCorrections events) = ([],false) := by
    rw [hrule]
    rfl
  unfold runPass
  dsimp only
  rw [hextra]
  dsimp only
  rw [List.append_nil,(monotonicCorrections_nodup hn).dedup]
  exact List.Pairwise.insertionSort_eq (List.pairwise_insertionSort _ _)

/-- What is read under a key of a dictionary with one write for each event does not depend on their order. -/
theorem get?_foldl_congr {α : Type} (hn : Distinct events) (h : events.Perm events') (v : Event → α)
    (k : String) : Dict.get? (events.foldl (fun d e => Dict.set d e.eventId (v e)) []) k =
      Dict.get? (events'.foldl (fun d e => Dict.set d e.eventId (v e)) []) k := by
  have hfresh : ∀ {l : List Event}, Distinct l → l.foldl (fun d e => Dict.set d e.eventId (v e)) [] =
      l.map fun e => (e.eventId,v e) := fun {l} hl => by
    rw [Dict.foldl_set_fresh (f := Event.eventId) (v := v) (by simpa [Distinct] using hl)]
    rfl
  rw [hfresh hn,hfresh (hn.perm h)]
  have hkeys : ∀ {l : List Event}, Distinct l → ((l.map fun e => (e.eventId,v e)).map (·.1)).Nodup :=
    fun {l} hl => by rwa [List.map_map]
  have hone : ∀ {l l' : List Event}, Distinct l' → l.Perm l' → ∀ a,
      Dict.get? (l.map fun e => (e.eventId,v e)) k = some a →
        Dict.get? (l'.map fun e => (e.eventId,v e)) k = some a := fun {l l'} hl hp a ha =>
    Dict.get?_of_mem (hkeys hl) ((hp.map _).mem_iff.mp (Dict.get?_mem ha))
  exact Option.ext fun a => ⟨hone (hn.perm h) h a,hone hn h.symm a⟩

/-- The pass does not depend on the order of the events. -/
theorem runPass_congr (hn : Distinct events) (h : events.Perm events') (cap : ℤ) :
    runPass events instances [] cap = runPass events' instances [] cap := by
  have hviolations : ∀ cs, findViolations cs (timesOf events) = findViolations cs (timesOf events') :=
    fun cs => findViolations_congr (get?_foldl_congr hn h _)
  have hsource : ∀ k, Dict.get? (events.foldl (fun d e => Dict.set d e.eventId e.sourceId) []) k =
      Dict.get? (events'.foldl (fun d e => Dict.set d e.eventId e.sourceId) []) k :=
    get?_foldl_congr hn h _
  have hfeasible : ∀ cs s, feasible cs (timesOf events) s = feasible cs (timesOf events') s := fun _ _ => rfl
  unfold runPass
  simp only [buildConstraints_congr hn h,monotonicCorrections_congr hn h,hviolations,funext hsource,hfeasible]

/-- A smallest set of events to disbelieve, found within the budget, whatever the order of the events. -/
structure MinimumCorrection (events : List Event) (instances : List SeqInstance) (cap : ℤ) : Prop where
  nodup : (runPass events instances [] cap).correctionSet.Nodup
  named : (runPass events instances [] cap).correctionSet ⊆ events.map (·.eventId)
  restores : feasible (runPass events instances [] cap).constraints (timesOf events)
    (runPass events instances [] cap).correctionSet.toFinset = true
  least : ∀ removed, feasible (runPass events instances [] cap).constraints (timesOf events) removed = true →
    (runPass events instances [] cap).correctionSet.length ≤ removed.card
  inBudget : (runPass events instances [] cap).budgetExhausted = false
  order : ∀ events', events.Perm events' → runPass events' instances [] cap = runPass events instances [] cap

theorem run_pass_minimum (hn : Distinct events) (instances : List SeqInstance) (cap : ℤ) :
    MinimumCorrection events instances cap := by
  have hbuilt : (runPass events instances [] cap).constraints = buildConstraints events instances [] := rfl
  have hfeasible : feasible (buildConstraints events instances []) (timesOf events)
      (runPass events instances [] cap).correctionSet.toFinset = true := by
    rw [correctionSet_eq hn,feasible_iff_inOrder hn]
    exact monotonicCorrections_inOrder hn
  refine ⟨?_,?_,hfeasible,fun removed h => ?_,?_,fun events' h => (runPass_congr hn h cap).symm⟩
  · rw [correctionSet_eq hn]
    exact monotonicCorrections_nodup hn
  · rw [correctionSet_eq hn]
    exact fun id hid => monotonicCorrections_named hid
  · rw [correctionSet_eq hn]
    exact monotonicCorrections_least hn ((feasible_iff_inOrder hn _).mp h)
  · have hexhausted : (runPass events instances [] cap).budgetExhausted =
        ((runPass events instances [] cap).correctionSet ≠ [] &&
          !feasible (buildConstraints events instances []) (timesOf events)
            (runPass events instances [] cap).correctionSet.toFinset) := rfl
    rw [hexhausted,hfeasible,Bool.not_true,Bool.and_false]

/-- Four records of one source, the second moved back before the first. -/
def backdated : List Event := [
  ⟨"ev:a","iam",0,10,opens_a⟩,⟨"ev:b","iam",1,5,opens_b⟩,⟨"ev:c","iam",2,20,opens_c⟩,
  ⟨"ev:d","iam",3,30,by decide⟩]

theorem run_pass_minimum_backdated : MinimumCorrection backdated [] 8 :=
  run_pass_minimum (by decide) [] 8

end Temporal
end Spectra
