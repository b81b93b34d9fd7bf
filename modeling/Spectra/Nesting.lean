import Spectra.Degrade
import Spectra.IdentityBytes

/-! Degradation deletes prefixes of one order: what a higher level of completeness removes a lower one
removes too, and each source loses its share whatever becomes of the others. -/
namespace Spectra

open Checker (Library)

namespace Degrade

variable {lib : Library}

/-! ### Completeness -/

namespace Completeness

variable {c c' : Completeness} {n : ℕ}

theorem range (c : Completeness) : 0 ≤ c.num ∧ c.num ≤ c.den ∧ 0 < c.den ∧ c.den < 2^32 := by
  have h := c.valid
  simp only [checks_cons,ensure_ok,u32,uint] at h
  obtain ⟨-,hden,hzero,hnum,-⟩ := h
  split at hden
  · rename_i hd
    norm_num at hd
    omega
  · cases hden

theorem keep_nonneg (c : Completeness) (n : ℕ) : 0 ≤ c.keep n := by
  obtain ⟨hnum,-,hden,-⟩ := c.range
  exact Int.ediv_nonneg (by positivity) hden.le

theorem keep_le (c : Completeness) (n : ℕ) : c.keep n ≤ n := by
  obtain ⟨-,hnum,hden,-⟩ := c.range
  exact Int.ediv_le_of_le_mul hden (by gcongr)

/-- The more complete, the more is kept. -/
theorem keep_mono (h : c < c') : c.keep n ≤ c'.keep n := by
  obtain ⟨-,-,hden,-⟩ := c.range
  obtain ⟨-,-,hden',-⟩ := c'.range
  have hlt : c.num*c'.den < c'.num*c.den := h
  refine (Int.le_ediv_iff_mul_le hden').mpr (le_of_mul_le_mul_right ?_ hden)
  calc c.keep n*c'.den*c.den = c.keep n*c.den*c'.den := by ring
    _ ≤ n*c.num*c'.den := by
      have hfloor : c.keep n*c.den ≤ n*c.num := Int.ediv_mul_le _ hden.ne'
      gcongr
    _ = n*(c.num*c'.den) := by ring
    _ ≤ n*(c'.num*c.den) := by gcongr
    _ = n*c'.num*c.den := by ring

theorem cut_cast (c : Completeness) (n : ℕ) : (c.cut n : ℤ) = n-c.keep n := by
  have := c.keep_le n
  rw [cut]
  omega

theorem cut_le (c : Completeness) (n : ℕ) : c.cut n ≤ n := by
  have hcast := c.cut_cast n
  have hkeep := c.keep_nonneg n
  omega

theorem cut_antitone (h : c < c') (n : ℕ) : c'.cut n ≤ c.cut n := by
  have hkeep := @keep_mono c c' n h
  have hcast := c.cut_cast n
  have hcast' := c'.cut_cast n
  omega

end Completeness

/-! ### One source -/

/-- What the deletion of one source comes to. -/
theorem degradeSource_ok {c : Completeness} {seed : ℤ} {name : String} {records : List (RawEvent lib)}
    {part : List RemovedRef × List (RawEvent lib)} : degradeSource c seed name records = .ok part ↔
      (records.map (·.seq)).Nodup ∧ ∃ order, sortedOn (deletionKey seed) records = .ok order ∧
        (order.take (c.cut records.length)).mapM removedRef = .ok part.1 ∧
        part.2 = order.drop (c.cut records.length) := by
  have hperm := (List.perm_insertionSort (fun r r' : RawEvent lib => r.seq ≤ r'.seq) records).map (·.seq)
  have hsorted : ((records.insertionSort (·.seq ≤ ·.seq)).map (·.seq)).Pairwise (· ≤ ·) :=
    List.pairwise_map.mpr (List.pairwise_insertionSort (fun r r' : RawEvent lib => r.seq ≤ r'.seq) records)
  have hnodup : ((records.insertionSort (·.seq ≤ ·.seq)).map (·.seq)).Pairwise (· < ·) ↔
      (records.map (·.seq)).Nodup := by
    rw [← hperm.nodup_iff]
    exact ⟨fun h => h.imp ne_of_lt,
      fun h => (hsorted.and h).imp fun hab => lt_of_le_of_ne hab.1 hab.2⟩
  simp only [degradeSource,Runs.bind_ok,Runs.pure_ok]
  constructor
  · rintro ⟨_,hcheck,order,horder,removed,hremoved,rfl⟩
    exact ⟨hnodup.mp (checkStrictlyAscending_ok.mp hcheck),order,horder,hremoved,rfl⟩
  · rintro ⟨hn,order,horder,hremoved,hsurvivors⟩
    exact ⟨(),checkStrictlyAscending_ok.mpr (hnodup.mpr hn),order,horder,part.1,hremoved,
      by rw [← hsurvivors]⟩

theorem removedRef_ok {r : RawEvent lib} {ref : RemovedRef} (h : removedRef r = .ok ref) :
    ref.source = r.source ∧ ref.seq = r.seq := by
  obtain ⟨eventId,-,h⟩ := Runs.bind_ok.mp h
  obtain rfl := Runs.pure_ok.mp h
  exact ⟨rfl,rfl⟩

section

variable {c c' : Completeness} {seed : ℤ} {name : String} {records : List (RawEvent lib)}
  {part part' : List RemovedRef × List (RawEvent lib)}

/-- The lower level removes what the higher one removes. -/
theorem degradeSource_nested (hlt : c < c') (h : degradeSource c seed name records = .ok part)
    (h' : degradeSource c' seed name records = .ok part') : ∀ ref ∈ part'.1, ref ∈ part.1 := by
  obtain ⟨-,order,horder,hremoved,-⟩ := degradeSource_ok.mp h
  obtain ⟨-,order',horder',hremoved',-⟩ := degradeSource_ok.mp h'
  obtain rfl := Except.ok.inj (horder.symm.trans horder')
  intro ref href
  obtain ⟨r,hr,hrr⟩ := (forall₂_mem (mapM_ok.mp hremoved')).2 ref href
  have hmem := List.take_subset_take_left order (Completeness.cut_antitone hlt records.length) hr
  obtain ⟨ref',href',hrr'⟩ := (forall₂_mem (mapM_ok.mp hremoved)).1 r hmem
  rwa [Except.ok.inj (hrr.symm.trans hrr')]

/-- Records of one source: what survives, and those that are removed. -/
structure SourceCut (c : Completeness) (records : List (RawEvent lib))
    (part : List RemovedRef × List (RawEvent lib)) : Prop where
  rows : ∃ gone, gone.mapM removedRef = .ok part.1 ∧ (part.2++gone).Perm records
  kept : (part.2.length : ℤ) = c.keep records.length
  removed : (part.1.length : ℤ) = records.length-c.keep records.length

theorem degradeSource_cut (h : degradeSource c seed name records = .ok part) :
    SourceCut c records part := by
  obtain ⟨-,order,horder,hremoved,hsurvivors⟩ := degradeSource_ok.mp h
  have hperm := (sortedOn_ok horder).1
  have hlength := hperm.length_eq
  have hcast := c.cut_cast records.length
  have hcut := c.cut_le records.length
  refine ⟨⟨_,hremoved,?_⟩,?_,?_⟩
  · rw [hsurvivors]
    refine List.perm_append_comm.trans ?_
    rw [List.take_append_drop]
    exact hperm
  · rw [hsurvivors,List.length_drop]
    omega
  · rw [← (mapM_ok.mp hremoved).length_eq,List.length_take]
    omega

end

/-! ### All sources -/

/-- No two records of a source have one number. -/
def UniqueSeqs (raw : List (RawEvent lib)) : Prop :=
  ∀ s, ((raw.filter (·.source = s)).map (·.seq)).Nodup

/-- Elements are ordered as their keys are. -/
theorem pairwise_keys {α κ : Type} {R : α → κ → Prop} {S : κ → κ → Prop} {l : List α} {keys : List κ}
    (h : List.Forall₂ R l keys) (hs : keys.Pairwise S) :
    l.Pairwise fun a b => ∃ j k, R a j ∧ R b k ∧ S j k := by
  induction h with
  | nil => exact .nil
  | cons hr hrest ih =>
    obtain ⟨hk,hs⟩ := List.pairwise_cons.mp hs
    refine List.pairwise_cons.mpr ⟨fun b hb => ?_,ih hs⟩
    obtain ⟨k,hmem,hbk⟩ := (forall₂_mem hrest).1 b hb
    exact ⟨_,k,hr,hbk,hk k hmem⟩

/-- Keys are ordered as their elements are. -/
theorem keys_pairwise {α κ : Type} {key : α → Fallible κ} {S : κ → κ → Prop} {l : List α} {keys : List κ}
    (h : List.Forall₂ (fun a k => key a = .ok k) l keys)
    (hs : l.Pairwise fun a b => ∃ j k, key a = .ok j ∧ key b = .ok k ∧ S j k) : keys.Pairwise S := by
  induction h with
  | nil => exact .nil
  | cons hr hrest ih =>
    obtain ⟨hk,hs⟩ := List.pairwise_cons.mp hs
    refine List.pairwise_cons.mpr ⟨fun k hk' => ?_,ih hs⟩
    obtain ⟨b,hmem,hbk⟩ := (forall₂_mem hrest).2 k hk'
    obtain ⟨j,k',hj,hk'',hjk⟩ := hk b hmem
    obtain rfl := Except.ok.inj (hr.symm.trans hj)
    obtain rfl := Except.ok.inj (hbk.symm.trans hk'')
    exact hjk

/-- Numbers that are unique under each name. -/
theorem nodup_of_sources {α : Type} {source : α → String} {seq : α → ℤ} {l : List α}
    (h : ∀ s, ((l.filter (source · = s)).map seq).Nodup) : (l.map fun a => (source a,seq a)).Nodup := by
  induction l with
  | nil => exact List.nodup_nil
  | cons a l ih =>
    have hrest : ∀ s, ((l.filter (source · = s)).map seq).Nodup := fun s =>
      (h s).sublist (((List.sublist_cons_self a l).filter _).map _)
    refine List.nodup_cons.mpr ⟨fun hmem => ?_,ih hrest⟩
    obtain ⟨b,hb,hba⟩ := List.mem_map.mp hmem
    obtain ⟨hsource,hseq⟩ := Prod.mk.inj hba
    have hown := h (source a)
    rw [List.filter_cons_of_pos (by simp),List.map_cons] at hown
    refine (List.nodup_cons.mp hown).1 (List.mem_map.mpr ⟨b,List.mem_filter.mpr ⟨hb,?_⟩,hseq⟩)
    simpa using hsource

/-- In parts under different names, those of one name are one part. -/
theorem filter_parts {α β γ : Type} {R : α → β → Prop} {l : List α} {parts : List β} {name : α → String}
    {key : γ → String} {f : β → List γ} (h : List.Forall₂ R l parts) (hn : (l.map name).Nodup)
    (hkey : ∀ a b, R a b → ∀ x ∈ f b, key x = name a) {a : α} {b : β} (ha : a ∈ l)
    (hb : ∀ b', R a b' → b' = b) : (parts.flatMap f).filter (key · = name a) = f b := by
  have hnone : ∀ {l : List α} {parts : List β}, List.Forall₂ R l parts → (∀ a' ∈ l, name a' ≠ name a) →
      (parts.flatMap f).filter (key · = name a) = [] := by
    intro l parts h hne
    refine List.filter_eq_nil_iff.mpr fun x hx => ?_
    obtain ⟨b',hb',hxb⟩ := List.mem_flatMap.mp hx
    obtain ⟨a',ha',hr⟩ := (forall₂_mem h).2 b' hb'
    simpa [hkey a' b' hr x hxb] using hne a' ha'
  induction h with
  | nil => cases ha
  | @cons a' b' l parts hr hrest ih =>
    obtain ⟨hfresh,hn⟩ := List.nodup_cons.mp hn
    rw [List.flatMap_cons,List.filter_append]
    rcases List.mem_cons.mp ha with rfl | ha
    · obtain rfl := hb b' hr
      rw [hnone hrest fun a' ha' he => hfresh (he ▸ List.mem_map_of_mem ha'),List.append_nil,
        List.filter_eq_self]
      exact fun x hx => by simpa using hkey a b' hr x hx
    · rw [ih hn ha,List.filter_eq_nil_iff.mpr,List.nil_append]
      intro x hx he
      have hsame : name a' = name a := (hkey a' b' hr x hx).symm.trans (by simpa using he)
      exact hfresh (hsame ▸ List.mem_map_of_mem ha)

section

variable {raw : List (RawEvent lib)} {c c' : Completeness} {seed : ℤ}
  {d d' : List RemovedRef × List (RawEvent lib)}

/-- The part of one source in the deletions of a stream. -/
structure SourcePart (raw : List (RawEvent lib)) (c : Completeness) (seed : ℤ)
    (d : List RemovedRef × List (RawEvent lib)) (s : String)
    (part : List RemovedRef × List (RawEvent lib)) : Prop where
  run : degradeSource c seed s (raw.filter (·.source = s)) = .ok part
  removed : (d.1.filter (·.source = s)).Perm part.1
  survivors : (d.2.filter (·.source = s)).Perm part.2

/-- The records of a source that goes by its name. -/
theorem degradeSource_sources {s : String} {records : List (RawEvent lib)}
    {part : List RemovedRef × List (RawEvent lib)} (h : degradeSource c seed s records = .ok part)
    (hs : ∀ r ∈ records, r.source = s) : (∀ ref ∈ part.1, ref.source = s) ∧ ∀ r ∈ part.2, r.source = s := by
  obtain ⟨gone,hgone,hperm⟩ := (degradeSource_cut h).rows
  refine ⟨fun ref href => ?_,fun r hr => hs r (hperm.mem_iff.mp (by simp [hr]))⟩
  obtain ⟨r,hr,hrr⟩ := (forall₂_mem (mapM_ok.mp hgone)).2 ref href
  rw [(removedRef_ok hrr).1]
  exact hs r (hperm.mem_iff.mp (by simp [hr]))

/-- The deletions have a part for every source. -/
def Parted (raw : List (RawEvent lib)) (c : Completeness) (seed : ℤ)
    (d : List RemovedRef × List (RawEvent lib)) : Prop := ∀ s, ∃ part, SourcePart raw c seed d s part

theorem Parted.perm (h : Parted raw c seed d) (hrows : d'.1.Perm d.1) (hsurvivors : d'.2.Perm d.2) :
    Parted raw c seed d' := by
  intro s
  obtain ⟨part,hrun,hr,hs⟩ := h s
  exact ⟨part,hrun,(hrows.filter _).trans hr,(hsurvivors.filter _).trans hs⟩

/-- The parts of the sources, one after another. -/
theorem parted_flatMap {bySource : List (String × List (RawEvent lib))}
    {parts : List (List RemovedRef × List (RawEvent lib))}
    (hperm : bySource.Perm (Groups.gather (·.source) raw))
    (hparts : bySource.mapM (fun p => degradeSource c seed p.1 p.2) = .ok parts) :
    Parted raw c seed (parts.flatMap (·.1),parts.flatMap (·.2)) := by
  intro s
  have hgroup : ∀ p ∈ bySource, p.2 = raw.filter (·.source = p.1) ∧ ∀ r ∈ p.2, r.source = p.1 := by
    intro p hp
    have hfilter := (Groups.mem_gather.mp (hperm.mem_iff.mp hp)).2
    refine ⟨hfilter.symm,fun r hr => ?_⟩
    rw [← hfilter] at hr
    simpa using (List.mem_filter.mp hr).2
  have hn : (bySource.map (·.1)).Nodup := (hperm.map _).nodup_iff.mpr Groups.gather_nodup
  have hall : List.Forall₂ (fun p part => p ∈ bySource ∧ degradeSource c seed p.1 p.2 = .ok part)
      bySource parts := (List.forall₂_and_left _ _).mpr ⟨fun p hp => hp,mapM_ok.mp hparts⟩
  have hsource : ∀ p part, (p ∈ bySource ∧ degradeSource c seed p.1 p.2 = .ok part) →
      (∀ ref ∈ part.1, ref.source = p.1) ∧ ∀ r ∈ part.2, r.source = p.1 :=
    fun p part h => degradeSource_sources h.2 (hgroup p h.1).2
  by_cases hs : ∃ p ∈ bySource, p.1 = s
  · obtain ⟨p,hp,rfl⟩ := hs
    obtain ⟨part,-,-,hrun⟩ := (forall₂_mem hall).1 p hp
    have hsame : ∀ part', (p ∈ bySource ∧ degradeSource c seed p.1 p.2 = .ok part') → part' = part :=
      fun part' h => Except.ok.inj (h.2.symm.trans hrun)
    exact ⟨part,(hgroup p hp).1 ▸ hrun,
      .of_eq (filter_parts hall hn (fun q b hq => (hsource q b hq).1) hp hsame),
      .of_eq (filter_parts hall hn (fun q b hq => (hsource q b hq).2) hp hsame)⟩
  · -- a source without a record loses none and keeps none
    have hempty : raw.filter (·.source = s) = [] := List.filter_eq_nil_iff.mpr fun r hr he =>
      hs ⟨(s,_),hperm.mem_iff.mpr (Groups.mem_gather.mpr ⟨⟨r,hr,by simpa using he⟩,rfl⟩),rfl⟩
    refine ⟨([],[]),?_,.of_eq (List.filter_eq_nil_iff.mpr fun ref href he => ?_),
      .of_eq (List.filter_eq_nil_iff.mpr fun r hr he => ?_)⟩
    · rw [hempty]
      exact degradeSource_ok.mpr ⟨List.nodup_nil,[],rfl,by simp,by simp⟩
    · obtain ⟨part,hpart,hmem⟩ := List.mem_flatMap.mp href
      obtain ⟨p,-,hp⟩ := (forall₂_mem hall).2 part hpart
      exact hs ⟨p,hp.1,((hsource p part hp).1 ref hmem).symm.trans (by simpa using he)⟩
    · obtain ⟨part,hpart,hmem⟩ := List.mem_flatMap.mp hr
      obtain ⟨p,-,hp⟩ := (forall₂_mem hall).2 part hpart
      exact hs ⟨p,hp.1,((hsource p part hp).2 r hmem).symm.trans (by simpa using he)⟩

/-- What the deletions of a stream come to, source by source. -/
structure Deleted (raw : List (RawEvent lib)) (c : Completeness) (seed : ℤ)
    (d : List RemovedRef × List (RawEvent lib)) : Prop where
  parts : Parted raw c seed d
  rows : d.1.Pairwise fun a b => ∃ j k, a.sortKey lib = .ok j ∧ b.sortKey lib = .ok k ∧ j < k
  ascending : d.2.Pairwise fun a b => a.sortKey < b.sortKey

theorem deletions_ok (h : deletions raw c seed = .ok d) : Deleted raw c seed d := by
  obtain ⟨_,-,h⟩ := Runs.bind_ok.mp h
  obtain ⟨bySource,hby,h⟩ := Runs.bind_ok.mp h
  obtain ⟨parts,hparts,h⟩ := Runs.bind_ok.mp h
  obtain ⟨removed,hremoved,h⟩ := Runs.bind_ok.mp h
  obtain ⟨keys,hkeys,h⟩ := Runs.bind_ok.mp h
  obtain ⟨_,hrows,h⟩ := Runs.bind_ok.mp h
  obtain ⟨_,hascending,h⟩ := Runs.bind_ok.mp h
  obtain rfl := Runs.pure_ok.mp h
  exact ⟨(parted_flatMap (sortedOn_ok hby).1 hparts).perm (sortedOn_ok hremoved).1
    (List.perm_insertionSort _ _),pairwise_keys (mapM_ok.mp hkeys) (checkStrictlyAscending_ok.mp hrows),
    List.pairwise_map.mp (checkStrictlyAscending_ok.mp hascending)⟩

namespace Parted

/-- The numbers are unique where no source was refused. -/
theorem unique (h : Parted raw c seed d) : UniqueSeqs raw := by
  intro s
  obtain ⟨part,hpart⟩ := h s
  exact (degradeSource_ok.mp hpart.run).1

theorem nested (h : Parted raw c seed d) (h' : Parted raw c' seed d') (hlt : c < c') :
    ∀ ref ∈ d'.1, ref ∈ d.1 := by
  intro ref href
  obtain ⟨part,hpart⟩ := h ref.source
  obtain ⟨part',hpart'⟩ := h' ref.source
  have hmem : ref ∈ part'.1 := hpart'.removed.mem_iff.mp (List.mem_filter.mpr ⟨href,by simp⟩)
  have hsub := degradeSource_nested hlt hpart.run hpart'.run ref hmem
  exact (List.mem_filter.mp (hpart.removed.mem_iff.mpr hsub)).1

theorem kept (h : Parted raw c seed d) (s : String) :
    ((d.2.filter (·.source = s)).length : ℤ) = c.keep (raw.filter (·.source = s)).length := by
  obtain ⟨part,hpart⟩ := h s
  rw [hpart.survivors.length_eq]
  exact (degradeSource_cut hpart.run).kept

theorem gone (h : Parted raw c seed d) (s : String) : ((d.1.filter (·.source = s)).length : ℤ) =
    (raw.filter (·.source = s)).length-c.keep (raw.filter (·.source = s)).length := by
  obtain ⟨part,hpart⟩ := h s
  rw [hpart.removed.length_eq]
  exact (degradeSource_cut hpart.run).removed

/-- A row is the row of a record. -/
theorem of_record (h : Parted raw c seed d) {ref : RemovedRef} (href : ref ∈ d.1) :
    ∃ r ∈ raw, removedRef r = .ok ref := by
  obtain ⟨part,hpart⟩ := h ref.source
  obtain ⟨gone,hgone,hperm⟩ := (degradeSource_cut hpart.run).rows
  have hmem : ref ∈ part.1 := hpart.removed.mem_iff.mp (List.mem_filter.mpr ⟨href,by simp⟩)
  obtain ⟨r,hr,hrr⟩ := (forall₂_mem (mapM_ok.mp hgone)).2 ref hmem
  exact ⟨r,(List.mem_filter.mp (hperm.mem_iff.mp (by simp [hr]))).1,hrr⟩

/-- The rows name each record once, and the survivors each another one. -/
theorem numbers (h : Parted raw c seed d) : (d.1.map fun ref => (ref.source,ref.seq)).Nodup ∧
    (d.2.map fun r => (r.source,r.seq)).Nodup := by
  have hpart : ∀ s, ((d.1.filter (·.source = s)).map (·.seq)).Nodup ∧
      ((d.2.filter (·.source = s)).map (·.seq)).Nodup := by
    intro s
    obtain ⟨part,hrun,hrows,hsurvivors⟩ := h s
    obtain ⟨gone,hgone,hperm⟩ := (degradeSource_cut hrun).rows
    have hn := (hperm.map (·.seq)).nodup_iff.mpr (h.unique s)
    rw [List.map_append,List.nodup_append] at hn
    have hsame : List.Forall₂ (· = ·) (part.1.map (·.seq)) (gone.map (·.seq)) :=
      List.forall₂_map_left_iff.mpr (List.forall₂_map_right_iff.mpr
        ((mapM_ok.mp hgone).flip.imp fun _ _ h => (removedRef_ok h).2))
    rw [List.forall₂_eq_eq_eq] at hsame
    rw [(hrows.map _).nodup_iff,(hsurvivors.map _).nodup_iff,hsame]
    exact ⟨hn.2.1,hn.1⟩
  exact ⟨nodup_of_sources fun s => (hpart s).1,nodup_of_sources fun s => (hpart s).2⟩

/-- A record survives when no row names it. -/
theorem survives_iff (h : Parted raw c seed d) {r : RawEvent lib} :
    r ∈ d.2 ↔ r ∈ raw ∧ (r.source,r.seq) ∉ d.1.map fun ref => (ref.source,ref.seq) := by
  obtain ⟨part,hpart⟩ := h r.source
  obtain ⟨gone,hgone,hperm⟩ := (degradeSource_cut hpart.run).rows
  have hsurvives : r ∈ d.2 ↔ r ∈ part.2 := by
    rw [← hpart.survivors.mem_iff,List.mem_filter,decide_eq_true rfl,and_iff_left rfl]
  have hmem : r ∈ raw ↔ r ∈ part.2 ∨ r ∈ gone := by
    rw [← List.mem_append,hperm.mem_iff,List.mem_filter,decide_eq_true rfl,and_iff_left rfl]
  have hrow : (r.source,r.seq) ∈ (d.1.map fun ref => (ref.source,ref.seq)) ↔ ∃ g ∈ gone, g.seq = r.seq := by
    have hrows := forall₂_mem (mapM_ok.mp hgone)
    constructor
    · intro hk
      obtain ⟨ref,href,hk⟩ := List.mem_map.mp hk
      obtain ⟨hsource,hseq⟩ := Prod.mk.inj hk
      obtain ⟨g,hg,hgr⟩ := hrows.2 ref (hpart.removed.mem_iff.mp (List.mem_filter.mpr ⟨href,by simpa using hsource⟩))
      exact ⟨g,hg,(removedRef_ok hgr).2.symm.trans hseq⟩
    · rintro ⟨g,hg,hseq⟩
      obtain ⟨ref,href,hgr⟩ := hrows.1 g hg
      obtain ⟨href,hsource⟩ := List.mem_filter.mp (hpart.removed.mem_iff.mpr href)
      exact List.mem_map.mpr ⟨ref,href,Prod.ext (by simpa using hsource) ((removedRef_ok hgr).2.trans hseq)⟩
  -- a number is on one side only
  have hn := (hperm.map (·.seq)).nodup_iff.mpr (h.unique r.source)
  rw [List.map_append,List.nodup_append] at hn
  rw [hsurvives,hmem,hrow]
  constructor
  · refine fun hr => ⟨.inl hr,?_⟩
    rintro ⟨g,hg,hseq⟩
    exact hn.2.2 _ (List.mem_map_of_mem hr) _ (List.mem_map_of_mem hg) hseq.symm
  · rintro ⟨hr | hr,hno⟩
    · exact hr
    · exact absurd ⟨r,hr,rfl⟩ hno

end Parted

theorem UniqueSeqs.nodup (h : UniqueSeqs raw) : raw.Nodup := (nodup_of_sources h).of_map _

/-- The survivors and the records that rows name are the stream. -/
theorem Deleted.partition (h : Deleted raw c seed d) : (d.2++raw.filter fun r =>
    decide ((r.source,r.seq) ∈ d.1.map fun ref => (ref.source,ref.seq))).Perm raw := by
  have hraw := h.parts.unique.nodup
  have hsurvivors : d.2.Nodup := h.ascending.imp fun hab he => (he ▸ hab).ne rfl
  refine (List.perm_ext_iff_of_nodup ?_ hraw).mpr fun r => ?_
  · refine List.nodup_append.mpr ⟨hsurvivors,hraw.filter _,fun r hr r' hr' he => ?_⟩
    subst he
    exact (h.parts.survives_iff.mp hr).2 (by simpa using (List.mem_filter.mp hr').2)
  · rw [List.mem_append,h.parts.survives_iff,List.mem_filter,decide_eq_true_iff]
    tauto

/-- What becomes of a source depends on its own records. -/
theorem Deleted.independent {raw' : List (RawEvent lib)} {s : String} (h : Deleted raw c seed d)
    (h' : Deleted raw' c seed d') (hs : raw'.filter (·.source = s) = raw.filter (·.source = s)) :
    d'.1.filter (·.source = s) = d.1.filter (·.source = s) ∧
      d'.2.filter (·.source = s) = d.2.filter (·.source = s) := by
  obtain ⟨part,hpart⟩ := h.parts s
  obtain ⟨part',hpart'⟩ := h'.parts s
  obtain rfl := Except.ok.inj (hpart.run.symm.trans (hs ▸ hpart'.run))
  constructor
  · refine List.Perm.eq_of_pairwise ?_ (h'.rows.filter _) (h.rows.filter _)
      (hpart'.removed.trans hpart.removed.symm)
    rintro a b - - ⟨j,k,hj,hk,hjk⟩ ⟨k',j',hk',hj',hkj⟩
    obtain rfl := Except.ok.inj (hj.symm.trans hj')
    obtain rfl := Except.ok.inj (hk.symm.trans hk')
    exact absurd hkj hjk.asymm
  · refine List.Perm.eq_of_pairwise ?_ (h'.ascending.filter _) (h.ascending.filter _)
      (hpart'.survivors.trans hpart.survivors.symm)
    exact fun a b _ _ hab hba => absurd hba hab.asymm

end

/-! ### Results -/

section

variable {raw : List (RawEvent lib)} {c c' : Completeness} {seed : ℤ} {parent : Option (DegradationResult lib)}
  {r r' : DegradationResult lib}

/-- A result is its deletions, under what it was asked for. -/
structure Plain (raw : List (RawEvent lib)) (c : Completeness) (seed : ℤ) (r : DegradationResult lib) : Prop where
  run : deletions raw c seed = .ok (r.removed,r.raw)
  fields : r.toResultFields = {raw := r.raw
                               removed := r.removed
                               completeness := c
                               degradationSeed := seed
                               parentRawHash := r.parentRawHash
                               nestedParentManifestHash := r.nestedParentManifestHash}

theorem degrade_ok : degrade raw c seed parent = .ok r ↔ Plain raw c seed r ∧
    nestedHash c seed r.removed parent = .ok r.nestedParentManifestHash ∧ rawHash raw = .ok r.parentRawHash := by
  constructor
  · intro h
    obtain ⟨⟨removed,survivors⟩,hd,h⟩ := Runs.bind_ok.mp h
    obtain ⟨parentHash,hp,h⟩ := Runs.bind_ok.mp h
    obtain ⟨hash,hh,h⟩ := Runs.bind_ok.mp h
    obtain ⟨_,rfl⟩ := validated_ok.mp h
    exact ⟨⟨hd,rfl⟩,hp,hh⟩
  · rintro ⟨⟨hd,hf⟩,hp,hh⟩
    refine Runs.bind_ok.mpr ⟨_,hd,Runs.bind_ok.mpr ⟨_,hp,Runs.bind_ok.mpr ⟨_,hh,?_⟩⟩⟩
    obtain ⟨fields,hvalid⟩ := r
    refine validated_ok.mpr ⟨hf ▸ hvalid,?_⟩
    congr 1
    exact hf.symm

/-- The result citing the manifest of another. -/
def DegradationResult.citing (r : DegradationResult lib) (hash : String) : DegradationResult lib :=
  ⟨{r.toResultFields with nestedParentManifestHash := some hash},r.valid⟩

theorem scf_u32 {n : ℤ} (h : 0 ≤ n ∧ n < 2^32) : (Json.int n).scf = true := by
  have hmax : Checker.u32Max = 2^32-1 := by decide
  simp only [Json.scf,Bool.and_eq_true,decide_eq_true_eq,hmax]
  exact ⟨h.1,Int.le_sub_one_of_lt h.2⟩

theorem RawEvent.seq_range (e : RawEvent lib) : 0 ≤ e.seq ∧ e.seq < 2^32 := by
  have h := e.valid
  simp only [RawFields.postInit,checks_cons,u32,uint] at h
  obtain ⟨hseq,-⟩ := h
  split at hseq
  · assumption
  · cases hseq

theorem Plain.seed_range (h : Plain raw c seed r) : 0 ≤ seed ∧ seed < 2^64 := by
  obtain ⟨_,hseed,-⟩ := Runs.bind_ok.mp h.run
  unfold u64 uint at hseed
  split at hseed
  · assumption
  · cases hseed

/-- The manifest of a plain result can be written. -/
theorem Plain.manifestHash (h : Plain raw c seed r) : ∃ hash, r.manifestHash = .ok hash := by
  have hseq : ∀ ref ∈ r.removed, ref.toScf.scf = true := by
    intro ref href
    obtain ⟨e,-,he⟩ := (deletions_ok h.run).parts.of_record href
    have hrange := scf_u32 ((removedRef_ok he).2 ▸ RawEvent.seq_range e)
    have hkeys : Checker.isKey "event_id" = true ∧ Checker.isKey "seq" = true ∧
        Checker.isKey "source_id" = true := by decide
    rw [RemovedRef.toScf,Json.scf,Json.scfMembers_iff]
    simp [hkeys,hrange,Json.scf.eq_def (.str _)]
  have hcompleteness : c.toScf.scf = true := by
    obtain ⟨hnum,hle,-,hden⟩ := c.range
    have hkeys : Checker.isKey "num" = true ∧ Checker.isKey "den" = true := by decide
    rw [Completeness.toScf,Json.scf,Json.scfMembers_iff]
    simp [hkeys,@scf_u32 c.num ⟨hnum,by omega⟩,@scf_u32 c.den ⟨by omega,hden⟩]
  have hdocument : ∃ document, r.manifest = .ok document ∧ document.scf = true := by
    have hkeys : ∀ key ∈ ["completeness","degradation_seed","operators","parent_raw_hash","removed",
        "schema","nested_parent_manifest_hash"], Checker.isKey key = true := by decide
    simp only [List.forall_mem_cons] at hkeys
    rw [h.fields]
    refine ⟨_,Runs.bind_ok.mpr ⟨_,if_pos h.seed_range,rfl⟩,?_⟩
    rw [Json.scf,Json.scfMembers_iff]
    have hrows : (Json.list (r.removed.map (·.toScf))).scf = true := by
      rw [Json.scf,Json.scfItems_iff]
      exact List.forall_mem_map.mpr hseq
    cases r.nestedParentManifestHash <;>
      simp [hkeys,hcompleteness,hrows,Json.scf.eq_def (.str _),Json.scf.eq_def (.list [_]),Json.scfItems]
  obtain ⟨document,hmanifest,hscf⟩ := hdocument
  exact ⟨_,Runs.bind_ok.mpr ⟨document,hmanifest,Runs.bind_ok.mpr
    ⟨_,Runs.bind_ok.mpr ⟨(),Json.validateScf_ok.mpr hscf,rfl⟩,rfl⟩⟩⟩

theorem Plain.deleted (h : Plain raw c seed r) : Deleted raw c seed (r.removed,r.raw) := deletions_ok h.run

/-- Against a result of a higher level, only the manifest that is cited is new. -/
theorem degrade_nested (hlt : c < c') (h : Plain raw c' seed r') {hash : String}
    (hhash : r'.manifestHash = .ok hash) :
    degrade raw c seed (some r') = (degrade raw c seed none).map (·.citing hash) := by
  have hcompleteness : r'.completeness = c' := congrArg (·.completeness) h.fields
  have hseed : r'.degradationSeed = seed := congrArg (·.degradationSeed) h.fields
  unfold degrade
  cases hd : deletions raw c seed with
  | error e => rfl
  | ok d =>
    obtain ⟨removed,survivors⟩ := d
    have hnested := (deletions_ok hd).parts.nested h.deleted.parts hlt
    have hsub : r'.removedKeys ⊆ removed.map fun ref => (ref.source,ref.seq) :=
      List.map_subset _ hnested
    have hcheck : nestedHash c seed removed (some r') = .ok (some hash) := by
      rw [nestedHash]
      refine Runs.bind_ok.mpr ⟨(),ensure_ok.mpr (hcompleteness ▸ hlt),Runs.bind_ok.mpr
        ⟨(),ensure_ok.mpr hseed,Runs.bind_ok.mpr ⟨(),ensure_ok.mpr hsub,?_⟩⟩⟩
      exact Runs.bind_ok.mpr ⟨hash,hhash,rfl⟩
    cases hraw : rawHash raw with
    | error e =>
      change (nestedHash c seed removed (some r') >>= fun _ => _) = _
      rw [hcheck]
      rfl
    | ok rawHash =>
      change (nestedHash c seed removed (some r') >>= fun _ => _) = _
      rw [hcheck]
      rfl

/-! ### Streams that can be degraded -/

/-- What degrading asks of a stream and a seed, whatever the level. -/
structure Degradable (raw : List (RawEvent lib)) (seed : ℤ) : Prop where
  seeded : 0 ≤ seed ∧ seed < 2^64
  keyed : ∀ r ∈ raw, ∃ k, deletionKey seed r = .ok k
  named : ∀ r ∈ raw, ∃ k, lib.orderKey r.source = .ok k
  rendered : ∃ hash, rawHash raw = .ok hash

theorem ordinals_injective : Function.Injective ordinals :=
  List.map_injective_iff.mpr fun _ _ h => UInt8.toNat_inj.mp h

/-- A record with a key has a source in ASCII and an id. -/
theorem deletionKey_ok {e : RawEvent lib} {k : List ℕ ×ₗ ℤ ×ₗ List ℕ ×ₗ ℤ}
    (h : deletionKey seed e = .ok k) :
    (octets e.source).all (· < 128) = true ∧ ∃ eventId, e.eventId lib = .ok eventId := by
  obtain ⟨payload,hp,h⟩ := Runs.bind_ok.mp h
  obtain ⟨eventId,he,-⟩ := Runs.bind_ok.mp h
  refine ⟨?_,eventId,he⟩
  obtain ⟨-,rest,-,hrest,-⟩ := Framing.concat_cons.mp hp
  obtain ⟨_,-,hs,-,-⟩ := Framing.concat_cons.mp hrest
  unfold asciiText at hs
  split at hs
  · assumption
  · cases hs

/-- Sources in ASCII that sort alike are the same. -/
theorem orderKey_inj (ha : lib.KeepsAscii) {s t : String} {k : List ℕ} (hs : (octets s).all (· < 128) = true)
    (ht : (octets t).all (· < 128) = true) (hsk : lib.orderKey s = .ok k) (htk : lib.orderKey t = .ok k) :
    s = t := by
  have hread : ∀ {s : String}, (octets s).all (· < 128) = true → lib.orderKey s = .ok k →
      ordinals (octets s) = k := by
    intro s hs h
    obtain ⟨b,hb,h⟩ := Runs.bind_ok.mp h
    obtain ⟨text,htext,hb⟩ := Runs.bind_ok.mp hb
    rw [ha s hs,nfc] at htext
    split at htext
    · cases htext
    · obtain rfl := Except.ok.inj htext
      rw [← Runs.pure_ok.mp h,← Runs.pure_ok.mp hb]
  exact octets_injective (ordinals_injective ((hread hs hsk).trans (hread ht htk).symm))

/-- Rows that are sorted are strictly so. -/
theorem Degradable.rows_ascending (ha : lib.KeepsAscii) (hd : Degradable raw seed) (h : Parted raw c seed d)
    (hs : d.1.Pairwise fun a b => ∃ j k, a.sortKey lib = .ok j ∧ b.sortKey lib = .ok k ∧ j ≤ k) :
    d.1.Pairwise fun a b => ∃ j k, a.sortKey lib = .ok j ∧ b.sortKey lib = .ok k ∧ j < k := by
  refine (hs.and (List.pairwise_map.mp h.numbers.1)).imp_of_mem fun {a b} hmem hmem' hab => ?_
  obtain ⟨⟨j,k,hj,hk,hle⟩,hne⟩ := hab
  refine ⟨j,k,hj,hk,lt_of_le_of_ne hle fun he => hne ?_⟩
  subst he
  obtain ⟨n,hn,hj⟩ := Runs.bind_ok.mp hj
  obtain ⟨m,hm,hk⟩ := Runs.bind_ok.mp hk
  obtain ⟨rfl,hseq⟩ := Prod.mk.inj (toLex.injective ((Runs.pure_ok.mp hj).trans (Runs.pure_ok.mp hk).symm))
  have hascii : ∀ ref ∈ d.1, (octets ref.source).all (· < 128) = true := by
    intro ref href
    obtain ⟨r,hr,hrr⟩ := h.of_record href
    obtain ⟨_,hk⟩ := hd.keyed r hr
    exact (removedRef_ok hrr).1 ▸ (deletionKey_ok hk).1
  exact Prod.ext (orderKey_inj ha (hascii a hmem) (hascii b hmem') hn hm) hseq

theorem Parted.survivors_ascending (h : Parted raw c seed d) (hs : d.2.Pairwise fun a b => a.sortKey ≤ b.sortKey) :
    d.2.Pairwise fun a b => a.sortKey < b.sortKey := by
  refine (hs.and (List.pairwise_map.mp h.numbers.2)).imp fun {a b} hab => lt_of_le_of_ne hab.1 fun he => hab.2 ?_
  exact toLex.injective (Prod.mk.inj (toLex.injective he)).2

theorem Degradable.sources_return (hu : UniqueSeqs raw) (hd : Degradable raw seed) (c : Completeness)
    {bySource : List (String × List (RawEvent lib))} (hperm : bySource.Perm (Groups.gather (·.source) raw)) :
    ∃ parts, bySource.mapM (fun p => degradeSource c seed p.1 p.2) = .ok parts := by
  refine mapM_exists fun p hp => ?_
  have hrecords : raw.filter (·.source = p.1) = p.2 :=
    (Groups.mem_gather.mp (hperm.mem_iff.mp (show (p.1,p.2) ∈ _ from hp))).2
  have hkeyed : ∀ r ∈ p.2, ∃ k, deletionKey seed r = .ok k :=
    fun r hr => hd.keyed r (List.mem_filter.mp (hrecords ▸ hr)).1
  obtain ⟨order,horder⟩ := sortedOn_returns hkeyed
  obtain ⟨removed,hremoved⟩ := @mapM_exists _ _ _ removedRef (order.take (c.cut p.2.length)) fun r hr => by
    obtain ⟨k,hk⟩ := hkeyed r ((sortedOn_ok horder).1.mem_iff.mp (List.take_subset _ _ hr))
    obtain ⟨eventId,he⟩ := (deletionKey_ok hk).2
    exact ⟨_,Runs.bind_ok.mpr ⟨eventId,he,rfl⟩⟩
  exact ⟨(removed,_),degradeSource_ok.mpr ⟨hrecords ▸ hu p.1,order,horder,hremoved,rfl⟩⟩

theorem deletions_returns (ha : lib.KeepsAscii) (hu : UniqueSeqs raw) (hd : Degradable raw seed)
    (c : Completeness) : ∃ d, deletions raw c seed = .ok d := by
  obtain ⟨seedOctets,hseed⟩ : ∃ b, u64 seed = .ok b := ⟨_,if_pos hd.seeded⟩
  obtain ⟨bySource,hby⟩ := @sortedOn_returns _ _ _ (fun p : String × List (RawEvent lib) => lib.orderKey p.1)
    (Groups.gather (·.source) raw) fun p hp => by
      obtain ⟨⟨r,hr,hs⟩,-⟩ := Groups.mem_gather.mp (show (p.1,p.2) ∈ _ from hp)
      exact hs ▸ hd.named r hr
  have hperm := (sortedOn_ok hby).1
  obtain ⟨parts,hparts⟩ := hd.sources_return hu c hperm
  have hparted := parted_flatMap hperm hparts
  obtain ⟨removed,hremoved⟩ := @sortedOn_returns _ _ _ (fun ref : RemovedRef => ref.sortKey lib)
    (parts.flatMap (·.1)) fun ref href => by
      obtain ⟨r,hr,hrr⟩ := hparted.of_record href
      obtain ⟨k,hk⟩ := hd.named r hr
      exact ⟨_,Runs.bind_ok.mpr ⟨k,(removedRef_ok hrr).1 ▸ hk,rfl⟩⟩
  obtain ⟨hrows,hkeyed,hsorted⟩ := sortedOn_ok hremoved
  obtain ⟨keys,hkeys⟩ := @mapM_exists _ _ _ (fun ref : RemovedRef => ref.sortKey lib) removed
    fun ref href => hkeyed ref (hrows.mem_iff.mp href)
  have hresult : Parted raw c seed (removed,(parts.flatMap (·.2)).insertionSort (·.sortKey ≤ ·.sortKey)) :=
    hparted.perm hrows (List.perm_insertionSort _ _)
  have hstrict := hd.rows_ascending ha hresult hsorted
  have hascending := hresult.survivors_ascending (List.pairwise_insertionSort _ _)
  exact ⟨_,Runs.bind_ok.mpr ⟨seedOctets,hseed,Runs.bind_ok.mpr ⟨bySource,hby,Runs.bind_ok.mpr ⟨parts,hparts,
    Runs.bind_ok.mpr ⟨removed,hremoved,Runs.bind_ok.mpr ⟨keys,hkeys,Runs.bind_ok.mpr
      ⟨(),checkStrictlyAscending_ok.mpr (keys_pairwise (mapM_ok.mp hkeys) hstrict),Runs.bind_ok.mpr
        ⟨(),checkStrictlyAscending_ok.mpr (List.pairwise_map.mpr hascending),rfl⟩⟩⟩⟩⟩⟩⟩⟩

/-- A stream that was degraded could be. -/
theorem degradable_of_ok (h : degrade raw c seed parent = .ok r) : Degradable raw seed := by
  obtain ⟨hplain,-,hash⟩ := degrade_ok.mp h
  have hdeleted := hplain.deleted
  refine ⟨hplain.seed_range,fun e he => ?_,fun e he => ?_,_,hash⟩
  · obtain ⟨part,hpart⟩ := hdeleted.parts e.source
    obtain ⟨-,order,horder,-⟩ := degradeSource_ok.mp hpart.run
    exact (sortedOn_ok horder).2.1 e (List.mem_filter.mpr ⟨he,by simp⟩)
  · obtain ⟨_,-,hrun⟩ := Runs.bind_ok.mp hplain.run
    obtain ⟨bySource,hby,-⟩ := Runs.bind_ok.mp hrun
    exact (sortedOn_ok hby).2.1 (e.source,_) (Groups.mem_gather.mpr ⟨⟨e,he,rfl⟩,rfl⟩)

/-- Whether a stream can be degraded does not depend on the level. -/
theorem degrade_returns_iff (ha : lib.KeepsAscii) (hu : UniqueSeqs raw) (c : Completeness) :
    (∃ r, degrade raw c seed none = .ok r) ↔ Degradable raw seed := by
  constructor
  · rintro ⟨r,h⟩
    exact degradable_of_ok h
  · intro hd
    obtain ⟨d,hrun⟩ := deletions_returns ha hu hd c
    obtain ⟨hash,hhash⟩ := hd.rendered
    have hvalid : ResultFields.postInit {raw := d.2
                                         removed := d.1
                                         completeness := c
                                         degradationSeed := seed
                                         parentRawHash := hash} = .ok () := by
      simp [ResultFields.postInit,ResultFields.applied,ResultFields.checkRows]
    exact ⟨⟨_,hvalid⟩,degrade_ok.mpr ⟨⟨hrun,rfl⟩,rfl,hhash⟩⟩

/-- What is left of a stream and what is gone from it. -/
structure Degraded (raw : List (RawEvent lib)) (c : Completeness) (r : DegradationResult lib) : Prop where
  partition : (r.raw++raw.filter fun e => decide ((e.source,e.seq) ∈ r.removedKeys)).Perm raw
  rows : ∀ ref ∈ r.removed, ∃ e ∈ raw, removedRef e = .ok ref
  kept : ∀ s, ((r.raw.filter (·.source = s)).length : ℤ) = c.keep (raw.filter (·.source = s)).length
  gone : ∀ s, ((r.removed.filter (·.source = s)).length : ℤ) =
    (raw.filter (·.source = s)).length-c.keep (raw.filter (·.source = s)).length

end

/-- Of a stream with unique numbers a lower level removes what a higher one does, and never refuses its
result; what survives is unchanged, and how much of a source does depends on that source alone. -/
theorem degradation_nested (ha : lib.KeepsAscii) {raw : List (RawEvent lib)} (hu : UniqueSeqs raw) (seed : ℤ)
    {c c' : Completeness} (hlt : c < c') :
    (∀ level, (∃ r, degrade raw level seed none = .ok r) ↔ Degradable raw seed) ∧
    (∀ parent' r', degrade raw c' seed parent' = .ok r' → (∃ r, degrade raw c seed (some r') = .ok r) ∧
      ∀ parent r, degrade raw c seed parent = .ok r → r'.removed ⊆ r.removed) ∧
    ∀ level parent r, degrade raw level seed parent = .ok r → Degraded raw level r ∧
      ∀ raw' parent' r' s, degrade raw' level seed parent' = .ok r' →
        raw'.filter (·.source = s) = raw.filter (·.source = s) →
        r'.removed.filter (·.source = s) = r.removed.filter (·.source = s) ∧
          r'.raw.filter (·.source = s) = r.raw.filter (·.source = s) := by
  refine ⟨fun level => degrade_returns_iff ha hu level,fun parent' r' h' => ⟨?_,fun parent r h => ?_⟩,
    fun level parent r h => ⟨?_,fun raw' parent' r' s h' hs => ?_⟩⟩
  · obtain ⟨hash,hhash⟩ := (degrade_ok.mp h').1.manifestHash
    obtain ⟨r,hr⟩ := (degrade_returns_iff ha hu c).mpr (degradable_of_ok h')
    refine ⟨r.citing hash,?_⟩
    rw [degrade_nested hlt (degrade_ok.mp h').1 hhash,hr]
    rfl
  · exact (degrade_ok.mp h).1.deleted.parts.nested (degrade_ok.mp h').1.deleted.parts hlt
  · have hd := (degrade_ok.mp h).1.deleted
    exact ⟨hd.partition,fun ref href => hd.parts.of_record href,hd.parts.kept,hd.parts.gone⟩
  · exact (degrade_ok.mp h).1.deleted.independent (degrade_ok.mp h').1.deleted hs

/-! ### Two logins -/

/-- One login of a source, at its number of seconds. -/
def rawLogin (seq : ℕ) (h : (RawFields.mk "src:iam" seq (seq*1000000000) "login" []).postInit
    (Checker.readerOf []) = .ok ()) : RawEvent (Checker.readerOf []) := ⟨_,h⟩

theorem firstLogin_raw : (RawFields.mk "src:iam" (0 : ℕ) ((0 : ℕ)*1000000000) "login" []).postInit
    (Checker.readerOf []) = .ok () := by decide

def twoLogins : List (RawEvent (Checker.readerOf [])) := [rawLogin 0 firstLogin_raw,rawLogin 1 (by decide)]

def noneComplete : Completeness := ⟨0,1,by decide⟩

def halfComplete : Completeness := ⟨1,2,by decide⟩

theorem twoLogins_unique : UniqueSeqs twoLogins := fun _ =>
  List.Nodup.sublist (List.filter_sublist.map _) (show (twoLogins.map (·.seq)).Nodup by decide)

theorem degradation_nested_logins :
    (∀ level, (∃ r, degrade twoLogins level 7 none = .ok r) ↔ Degradable twoLogins 7) ∧
    (∀ parent' r', degrade twoLogins halfComplete 7 parent' = .ok r' →
      (∃ r, degrade twoLogins noneComplete 7 (some r') = .ok r) ∧
      ∀ parent r, degrade twoLogins noneComplete 7 parent = .ok r → r'.removed ⊆ r.removed) ∧
    ∀ level parent r, degrade twoLogins level 7 parent = .ok r → Degraded twoLogins level r ∧
      ∀ raw' parent' r' s, degrade raw' level 7 parent' = .ok r' →
        raw'.filter (·.source = s) = twoLogins.filter (·.source = s) →
        r'.removed.filter (·.source = s) = r.removed.filter (·.source = s) ∧
          r'.raw.filter (·.source = s) = r.raw.filter (·.source = s) :=
  degradation_nested (fun _ _ => rfl) twoLogins_unique 7 (by decide)

end Degrade

end Spectra
