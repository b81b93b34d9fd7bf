import Mathlib.Tactic

/-! Step functions over a linear order: a span cut into contiguous pieces on each of which a
function is constant, and the merge of neighbours with one label. What the merge leaves depends
on the function and the span alone. -/
namespace Timeline

variable {τ β : Type*}

/-- A half-open piece of the order with the value a function takes on it. -/
structure Piece (τ β : Type*) where
  start : τ
  stop : τ
  label : β
  deriving DecidableEq

/-- No piece has the label of the piece before it. -/
def Reduced (l : List (Piece τ β)) : Prop := l.IsChain fun p q => p.label ≠ q.label

theorem Reduced.concat {l : List (Piece τ β)} {q p : Piece τ β} (h : Reduced (l++[q]))
    (hne : q.label ≠ p.label) : Reduced (l++[q,p]) := by
  unfold Reduced at *
  rw [List.isChain_append] at h ⊢
  exact ⟨h.1,by simpa using hne,by simpa using h.2.2⟩

theorem Reduced.relabel {l : List (Piece τ β)} {q p : Piece τ β} (h : Reduced (l++[q]))
    (he : q.label = p.label) : Reduced (l++[p]) := by
  unfold Reduced at *
  rw [List.isChain_append] at h ⊢
  exact ⟨h.1,.singleton p,by simpa [he] using h.2.2⟩

section

variable [LinearOrder τ] {f : τ → β}

/-- The pieces follow one another from one end to the other, none is empty, and the function is
constant on each. -/
inductive Cuts (f : τ → β) : τ → τ → List (Piece τ β) → Prop
  | nil (a : τ) : Cuts f a a []
  | cons {a b c : τ} {label : β} {rest : List (Piece τ β)} (lt : a < b)
      (constant : ∀ t, a ≤ t → t < b → f t = label) (more : Cuts f b c rest) :
      Cuts f a c (⟨a,b,label⟩::rest)

theorem Cuts.le {a c : τ} {l : List (Piece τ β)} (h : Cuts f a c l) : a ≤ c := by
  induction h with
  | nil => exact le_rfl
  | cons lt _ _ ih => exact lt.le.trans ih

/-- The lengths of the pieces add up to the span. -/
theorem Cuts.sum_lengths {f : ℤ → β} {a c : ℤ} {l : List (Piece ℤ β)} (h : Cuts f a c l) :
    (l.map fun p => p.stop-p.start).sum = c-a := by
  induction h with
  | nil => simp
  | cons _ _ _ ih =>
    rw [List.map_cons,List.sum_cons,ih]
    dsimp only
    omega

theorem Cuts.isChain {a c : τ} {l : List (Piece τ β)} (h : Cuts f a c l) :
    l.IsChain fun p q => p.stop = q.start := by
  induction h with
  | nil => exact .nil
  | cons _ _ more ih =>
    cases more with
    | nil => exact .singleton _
    | cons => exact List.isChain_cons_cons.mpr ⟨rfl,ih⟩

/-- The first piece starts the span, unless it is empty. -/
theorem Cuts.head {a c : τ} {l : List (Piece τ β)} (h : Cuts f a c l) (hlt : a < c) :
    l.head?.map (·.start) = some a := by
  cases h with
  | nil => exact absurd hlt (lt_irrefl _)
  | cons => rfl

/-- The last piece ends the span, unless it is empty. -/
theorem Cuts.last {a c : τ} {l : List (Piece τ β)} (h : Cuts f a c l) (hlt : a < c) :
    l.getLast?.map (·.stop) = some c := by
  induction h with
  | nil => exact absurd hlt (lt_irrefl _)
  | cons lt _ more ih =>
    cases more with
    | nil => rfl
    | cons lt' _ more =>
      rw [List.getLast?_cons_cons]
      exact ih (lt'.trans_le more.le)

theorem Cuts.append {a b c : τ} {l m : List (Piece τ β)} (h : Cuts f a b l) (hm : Cuts f b c m) :
    Cuts f a c (l++m) := by
  induction h with
  | nil => exact hm
  | cons lt constant _ ih => exact .cons lt constant (ih hm)

theorem Cuts.singleton {a b : τ} {label : β} (lt : a < b)
    (constant : ∀ t, a ≤ t → t < b → f t = label) : Cuts f a b [⟨a,b,label⟩] :=
  .cons lt constant (.nil b)

/-- The pieces before the last, and the last. -/
theorem Cuts.concat_iff {a c : τ} {l : List (Piece τ β)} {p : Piece τ β} :
    Cuts f a c (l++[p]) ↔ Cuts f a p.start l ∧ p.start < p.stop ∧ p.stop = c ∧
      ∀ t, p.start ≤ t → t < p.stop → f t = p.label := by
  induction l generalizing a with
  | nil =>
    constructor
    · intro h
      obtain _ | ⟨lt,constant,hrest⟩ := h
      cases hrest
      exact ⟨.nil _,lt,rfl,constant⟩
    · rintro ⟨hnil,lt,rfl,constant⟩
      cases hnil
      exact .singleton lt constant
  | cons q l ih =>
    constructor
    · intro h
      obtain _ | ⟨lt,constant,hrest⟩ := h
      obtain ⟨hl,hp⟩ := ih.mp hrest
      exact ⟨.cons lt constant hl,hp⟩
    · rintro ⟨hl,hp⟩
      obtain _ | ⟨lt,constant,hrest⟩ := hl
      exact .cons lt constant (ih.mpr ⟨hrest,hp⟩)

/-- Every piece is inside the span and has an instant. -/
theorem Cuts.inside {a c : τ} {l : List (Piece τ β)} (h : Cuts f a c l) {p : Piece τ β} (hp : p ∈ l) :
    a ≤ p.start ∧ p.start < p.stop ∧ p.stop ≤ c := by
  induction h with
  | nil => cases hp
  | cons lt _ more ih =>
    rcases List.mem_cons.mp hp with rfl | hp
    · exact ⟨le_rfl,lt,more.le⟩
    · exact ⟨lt.le.trans (ih hp).1,(ih hp).2⟩

/-- The pieces come one after another. -/
theorem Cuts.pairwise {a c : τ} {l : List (Piece τ β)} (h : Cuts f a c l) :
    l.Pairwise fun p q => p.stop ≤ q.start := by
  induction h with
  | nil => exact .nil
  | cons _ _ more ih => exact .cons (fun q hq => (more.inside hq).1) ih

/-- An instant is inside a piece with a label when it is in the span and has that value. -/
theorem Cuts.mem_iff {a c : τ} {l : List (Piece τ β)} (h : Cuts f a c l) {t : τ} {label : β} :
    (∃ p ∈ l, p.start ≤ t ∧ t < p.stop ∧ p.label = label) ↔ a ≤ t ∧ t < c ∧ f t = label := by
  induction h with
  | nil a =>
    constructor
    · rintro ⟨p,hp,-⟩
      cases hp
    · rintro ⟨hat,hta,-⟩
      exact absurd (hat.trans_lt hta) (lt_irrefl a)
  | @cons a b c v rest lt constant more ih =>
    have hbc := more.le
    rw [List.exists_mem_cons_iff,ih]
    constructor
    · rintro (⟨hat,htb,rfl⟩ | ⟨hbt,htc,hf⟩)
      · exact ⟨hat,htb.trans_le hbc,constant t hat htb⟩
      · exact ⟨lt.le.trans hbt,htc,hf⟩
    · rintro ⟨hat,htc,hf⟩
      rcases lt_or_ge t b with htb | hbt
      · exact .inl ⟨hat,htb,(constant t hat htb).symm.trans hf⟩
      · exact .inr ⟨hbt,htc,hf⟩

/-- Two reduced cuttings of one span by one function are the same. -/
theorem Cuts.unique {a c : τ} {l m : List (Piece τ β)} (hl : Cuts f a c l) (hm : Cuts f a c m)
    (rl : Reduced l) (rm : Reduced m) : l = m := by
  -- a piece that ends before the other starts the next piece of its own list, with the other's label
  have ends : ∀ {a b b' c : τ} {v v' : β} {rest : List (Piece τ β)}, a < b → b < b' → b' ≤ c →
      (∀ t, a ≤ t → t < b → f t = v) → (∀ t, a ≤ t → t < b' → f t = v') → Cuts f b c rest →
      ¬Reduced (⟨a,b,v⟩::rest) := by
    intro a b b' c v v' rest hab hbb' hbc hv hv' hrest hred
    cases hrest with
    | nil => exact absurd (hbb'.trans_le hbc) (lt_irrefl _)
    | cons hlt hnext _ =>
      refine (List.isChain_cons_cons.mp hred).1 ?_
      rw [← hv a le_rfl hab,← hnext b le_rfl hlt,hv' a le_rfl (hab.trans hbb'),hv' b hab.le hbb']
  induction hl generalizing m with
  | nil a =>
    cases hm with
    | nil => rfl
    | cons lt _ more => exact absurd (lt.trans_le more.le) (lt_irrefl a)
  | @cons a b c v rest lt constant more ih =>
    cases hm with
    | nil => exact absurd (lt.trans_le more.le) (lt_irrefl a)
    | @cons _ b' _ v' rest' lt' constant' more' =>
      rcases lt_trichotomy b b' with hb | rfl | hb
      · exact absurd rl (ends lt hb more'.le constant constant' more)
      · obtain rfl : v = v' := (constant a le_rfl lt).symm.trans (constant' a le_rfl lt')
        rw [ih more' rl.tail rm.tail]
      · exact absurd rm (ends lt' hb more.le constant' constant more')

/-! ### Grids -/

/-- Neighbours of an ascending grid have no point of it between them. -/
theorem neighbours {l : List τ} (h : l.Pairwise (· < ·)) {p : τ × τ} (hp : p ∈ l.zip l.tail) :
    p.1 ∈ l ∧ p.2 ∈ l ∧ p.1 < p.2 ∧ ∀ v ∈ l, v ≤ p.1 ∨ p.2 ≤ v := by
  induction l with
  | nil => cases hp
  | cons a l ih =>
    cases l with
    | nil => cases hp
    | cons b l =>
      obtain ⟨ha,hrest⟩ := List.pairwise_cons.mp h
      rw [List.tail_cons,List.zip_cons_cons,List.mem_cons] at hp
      rcases hp with rfl | hp
      · refine ⟨by simp,by simp,ha b (by simp),fun v hv => ?_⟩
        rcases List.mem_cons.mp hv with rfl | hv
        · exact .inl le_rfl
        · refine .inr ?_
          rcases List.mem_cons.mp hv with rfl | hv
          · exact le_rfl
          · exact ((List.pairwise_cons.mp hrest).1 v hv).le
      · obtain ⟨h₁,h₂,hlt,hgap⟩ := ih hrest hp
        refine ⟨List.mem_cons_of_mem a h₁,List.mem_cons_of_mem a h₂,hlt,fun v hv => ?_⟩
        rcases List.mem_cons.mp hv with rfl | hv
        · exact .inl (ha p.1 h₁).le
        · exact hgap v hv

/-- Sorted points ascend when none of them is repeated. -/
theorem ascending_sort {l : List τ} : (l.insertionSort (· ≤ ·)).Pairwise (· < ·) ↔ l.Nodup := by
  have hperm := @List.perm_insertionSort τ (· ≤ ·) _ l
  constructor
  · exact fun h => hperm.nodup_iff.mp (h.imp ne_of_lt)
  · intro h
    have hle := @List.pairwise_insertionSort τ (· ≤ ·) _ _ _ l
    exact (List.Pairwise.and hle (hperm.nodup_iff.mpr h)).imp fun hab => lt_of_le_of_ne hab.1 hab.2

/-- Sorted without repetitions, the points of a list ascend. -/
theorem ascending_dedup (l : List τ) : (l.dedup.insertionSort (· ≤ ·)).Pairwise (· < ·) :=
  ascending_sort.mpr l.nodup_dedup

/-- An ascending grid between two ends that are points of it starts at one and stops at the other. -/
theorem grid_ends {l : List τ} {a c : τ} (h : l.Pairwise (· < ·)) (ha : a ∈ l) (hc : c ∈ l)
    (hl : ∀ v ∈ l, a ≤ v ∧ v ≤ c) : ∃ rest, l = a::rest ∧ rest.getLast?.getD a = c := by
  cases l with
  | nil => cases ha
  | cons b rest =>
    obtain ⟨hb,hrest⟩ := List.pairwise_cons.mp h
    obtain rfl : b = a := by
      rcases List.mem_cons.mp ha with rfl | hm
      · rfl
      · exact absurd (hb a hm) (not_lt.mpr (hl b (by simp)).1)
    refine ⟨rest,rfl,?_⟩
    rcases List.eq_nil_or_concat rest with rfl | ⟨init,z,rfl⟩
    · exact (List.mem_singleton.mp hc).symm
    · rw [List.concat_eq_append] at *
      rw [List.getLast?_concat,Option.getD_some]
      have hzc : z ≤ c := (hl z (by simp)).2
      rcases List.mem_cons.mp hc with rfl | hm
      · exact le_antisymm hzc (hb z (by simp)).le
      · rcases List.mem_append.mp hm with hm | hm
        · exact le_antisymm hzc ((List.pairwise_append.mp hrest).2.2 c hm z (by simp)).le
        · exact (List.mem_singleton.mp hm).symm

/-- No point of an ascending grid is past the last one. -/
theorem le_last {a v : τ} {grid : List τ} (h : (a::grid).Pairwise (· < ·)) (hv : v ∈ a::grid) :
    v ≤ grid.getLast?.getD a := by
  induction grid generalizing a v with
  | nil => exact (List.mem_singleton.mp hv).le
  | cons b grid ih =>
    obtain ⟨ha,hrest⟩ := List.pairwise_cons.mp h
    rw [List.getLast?_cons,Option.getD_some]
    rcases List.mem_cons.mp hv with rfl | hv
    · exact (ha b (by simp)).le.trans (ih hrest (by simp))
    · exact ih hrest hv

/-- A grid of ascending points cuts the span between its ends where the function is constant
between neighbours. -/
theorem Cuts.of_grid {g : τ → τ → β} : ∀ {a : τ} {grid : List τ}, (a::grid).Pairwise (· < ·) →
    (∀ p ∈ (a::grid).zip grid, ∀ t, p.1 ≤ t → t < p.2 → f t = g p.1 p.2) →
    Cuts f a (grid.getLast?.getD a) (((a::grid).zip grid).map fun p => ⟨p.1,p.2,g p.1 p.2⟩)
  | a, [], _, _ => .nil a
  | a, b::grid, hg, hf => by
    obtain ⟨ha,hrest⟩ := List.pairwise_cons.mp hg
    rw [List.zip_cons_cons,List.map_cons]
    refine .cons (ha b (by simp)) (hf (a,b) (by simp)) ?_
    have hmore := Cuts.of_grid hrest fun p hp => hf p (by rw [List.zip_cons_cons]; simp [hp])
    cases grid with
    | nil => exact hmore
    | cons d grid => exact hmore

end

/-! ### The merge -/

section

variable [DecidableEq τ] [DecidableEq β]

/-- A piece lengthens the last one when it starts where that ends and has its label. -/
def extend (merged : List (Piece τ β)) (p : Piece τ β) : List (Piece τ β) :=
  match merged.getLast? with
  | none => [p]
  | some last =>
    if last.label = p.label ∧ last.stop = p.start then
      merged.dropLast++[⟨last.start,p.stop,last.label⟩]
    else merged++[p]

def merge (l : List (Piece τ β)) : List (Piece τ β) := l.foldl extend []

theorem extend_concat (l : List (Piece τ β)) (q p : Piece τ β) : extend (l++[q]) p =
    if q.label = p.label ∧ q.stop = p.start then l++[⟨q.start,p.stop,q.label⟩] else l++[q,p] := by
  simp [extend]

end

section

variable [LinearOrder τ] [DecidableEq β] {f : τ → β}

/-- A merged cutting takes in the next piece. -/
theorem extend_cuts {a b c : τ} {merged : List (Piece τ β)} {label : β} (h : Cuts f a b merged)
    (hr : Reduced merged) (lt : b < c) (constant : ∀ t, b ≤ t → t < c → f t = label) :
    Cuts f a c (extend merged ⟨b,c,label⟩) ∧ Reduced (extend merged ⟨b,c,label⟩) := by
  rcases List.eq_nil_or_concat merged with rfl | ⟨l,q,rfl⟩
  · cases h
    exact ⟨.singleton lt constant,.singleton _⟩
  · rw [List.concat_eq_append] at h hr ⊢
    obtain ⟨hl,hlt,hstop,hq⟩ := Cuts.concat_iff.mp h
    rw [extend_concat]
    by_cases he : q.label = label
    · rw [if_pos ⟨he,hstop⟩]
      refine ⟨Cuts.concat_iff.mpr ⟨hl,hlt.trans (hstop ▸ lt),rfl,fun t hst htc => ?_⟩,hr.relabel rfl⟩
      rcases lt_or_ge t b with htb | hbt
      · exact hq t hst (hstop ▸ htb)
      · rw [constant t hbt htc,he]
    · rw [if_neg fun hc => he hc.1]
      exact ⟨(by simpa using h.append (.singleton lt constant)),hr.concat he⟩

theorem foldl_extend_cuts {a b c : τ} {merged l : List (Piece τ β)} (h : Cuts f a b merged)
    (hr : Reduced merged) (hl : Cuts f b c l) :
    Cuts f a c (l.foldl extend merged) ∧ Reduced (l.foldl extend merged) := by
  induction hl generalizing merged with
  | nil => exact ⟨h,hr⟩
  | cons lt constant _ ih =>
    obtain ⟨hcuts,hred⟩ := extend_cuts h hr lt constant
    exact ih hcuts hred

/-- The merge of a cutting is the reduced cutting of its span. -/
theorem merge_cuts {a c : τ} {l : List (Piece τ β)} (h : Cuts f a c l) :
    Cuts f a c (merge l) ∧ Reduced (merge l) :=
  foldl_extend_cuts (.nil a) .nil h

/-- However the span was cut, the merge is the same. -/
theorem merge_eq {a c : τ} {l m : List (Piece τ β)} (hl : Cuts f a c l) (hm : Cuts f a c m) :
    merge l = merge m :=
  (merge_cuts hl).1.unique (merge_cuts hm).1 (merge_cuts hl).2 (merge_cuts hm).2

end

/-! ### Covers -/

section

variable {α : Type*} [LinearOrder τ] (start stop : α → τ) {kind : α → Prop} {i : α} {l : List α} {a b : τ}

/-- Every point of `[a,b)` lies in a listed span of the kind. -/
def Covered (kind : α → Prop) (l : List α) (a b : τ) : Prop :=
  ∀ t, a ≤ t → t < b → ∃ i ∈ l, start i ≤ t ∧ t < stop i ∧ kind i

variable {start stop}

theorem not_covered_nil (h : a < b) : ¬Covered start stop kind [] a b := by
  intro hc
  obtain ⟨i,hi,-⟩ := hc a le_rfl h
  cases hi

/-- What a cursor at `a` finds of the first of ascending spans. -/
theorem covered_cons (hb : ∀ j ∈ l, stop i ≤ start j) (hab : a < b) :
    Covered start stop kind (i::l) a b ↔ if stop i ≤ a then Covered start stop kind l a b
      else start i ≤ a ∧ kind i ∧ (b ≤ stop i ∨ Covered start stop kind l (stop i) b) := by
  split
  · rename_i hend
    constructor
    · intro h t h0 h1
      obtain ⟨j,hj,hj0,hj1,hk⟩ := h t h0 h1
      rcases List.mem_cons.mp hj with rfl | hj
      · exact absurd (hj1.trans_le (hend.trans h0)) (lt_irrefl _)
      · exact ⟨j,hj,hj0,hj1,hk⟩
    · intro h t h0 h1
      obtain ⟨j,hj,hrest⟩ := h t h0 h1
      exact ⟨j,List.mem_cons_of_mem _ hj,hrest⟩
  · rename_i hend
    rw [not_le] at hend
    constructor
    · intro h
      -- the later spans begin past the cursor
      obtain ⟨j,hj,hj0,-,hk⟩ := h a le_rfl hab
      obtain rfl : j = i := by
        rcases List.mem_cons.mp hj with rfl | hj
        · rfl
        · exact absurd (hend.trans_le ((hb j hj).trans hj0)) (lt_irrefl _)
      refine ⟨hj0,hk,or_iff_not_imp_left.mpr fun hstop t h0 h1 => ?_⟩
      obtain ⟨q,hq,hq0,hq1,hk⟩ := h t (hend.le.trans h0) h1
      rcases List.mem_cons.mp hq with rfl | hq
      · exact absurd (hq1.trans_le h0) (lt_irrefl _)
      · exact ⟨q,hq,hq0,hq1,hk⟩
    · rintro ⟨hstart,hk,hmore⟩ t h0 h1
      rcases lt_or_ge t (stop i) with hlt | hge
      · exact ⟨i,List.mem_cons_self ..,hstart.trans h0,hlt,hk⟩
      · rcases hmore with hstop | hmore
        · exact absurd (h1.trans_le (hstop.trans hge)) (lt_irrefl _)
        · obtain ⟨j,hj,hrest⟩ := hmore t hge h1
          exact ⟨j,List.mem_cons_of_mem _ hj,hrest⟩

end

end Timeline
