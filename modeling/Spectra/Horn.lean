import Mathlib.Data.List.Nodup
import Mathlib.Data.Set.Basic
import Mathlib.Tactic

/-! AND/OR least fixpoints over an arbitrary type of facts: derivability from a
set of seeds, its closure rule, and unit propagation with one counter a gate. -/
namespace Horn

structure Rule (α : Type*) where
  head : α
  body : List α

/-- The least fixpoint of the rules `rs` over the seeds `ax`. -/
inductive Derivable {α : Type*} (ax : Set α) (rs : Set (Rule α)) : α → Prop
  | seed {a : α} (h : a ∈ ax) : Derivable ax rs a
  | fire {r : Rule α} (h : r ∈ rs) (hb : ∀ b ∈ r.body, Derivable ax rs b) :
      Derivable ax rs r.head

def Closed {α : Type*} (ax : Set α) (rs : Set (Rule α)) (s : Set α) : Prop :=
  ax ⊆ s ∧ ∀ r ∈ rs, (∀ b ∈ r.body, b ∈ s) → r.head ∈ s

theorem Derivable.mem_of_closed {α : Type*} {ax : Set α} {rs : Set (Rule α)} {s : Set α} {a : α}
    (hs : Closed ax rs s) (ha : Derivable ax rs a) : a ∈ s := by
  induction ha with
  | seed h => exact hs.1 h
  | fire h _ ih => exact hs.2 _ h ih

theorem Derivable.mono {α : Type*} {ax ax' : Set α} {rs rs' : Set (Rule α)} {a : α}
    (hax : ∀ b ∈ ax, Derivable ax' rs' b) (hrs : rs ⊆ rs') (ha : Derivable ax rs a) :
    Derivable ax' rs' a := by
  induction ha with
  | seed h => exact hax _ h
  | fire h _ ih => exact .fire (hrs h) ih

/-- On a set that holds every body, only the axioms of that set count. -/
theorem Derivable.on {α : Type*} {ax ax' : Set α} {rs : Set (Rule α)} {S : Set α} {a : α}
    (hbody : ∀ r ∈ rs, ∀ b ∈ r.body, b ∈ S) (hax : ∀ a ∈ ax, a ∈ S → Derivable ax' rs a)
    (ha : Derivable ax rs a) (ho : a ∈ S) : Derivable ax' rs a := by
  induction ha with
  | seed h => exact hax _ h ho
  | fire hr _ ih => exact .fire hr fun b hm => ih b hm (hbody _ hr b hm)

/-- One AND-node as propagation sees it: `body` lists one edge for each occurrence,
`left` counts the edges not yet touched. -/
structure Cell (α : Type*) where
  head : α
  body : List α
  enabled : Bool
  left : ℤ

def Cell.rule {α : Type*} (c : Cell α) : Rule α := ⟨c.head,c.body⟩

variable {α : Type*} [DecidableEq α]

/-- Decrement a counter `k` times; the head is queued by the decrement that reaches zero. -/
def decrement (head : α) : ℕ → ℤ → ℤ × List α
  | 0, left => (left,[])
  | k+1, left =>
    let r := decrement head k (left-1)
    (r.1,if left-1 = 0 then head::r.2 else r.2)

def Cell.touch (f : α) (c : Cell α) : Cell α × List α :=
  if c.enabled then
    let r := decrement c.head (c.body.count f) c.left
    ({c with left := r.1},r.2)
  else (c,[])

def Cell.edges (f : α) (c : Cell α) : ℕ := if c.enabled then c.body.count f else 0

structure State (α : Type*) where
  queue : List α
  order : List α
  cells : List (Cell α)
  steps : ℕ

/-- One turn of the loop: pop a fact, skip it when it was expanded, else touch its edges. -/
def State.turn (st : State α) : State α :=
  match st.queue with
  | [] => st
  | f::q =>
    if f ∈ st.order then {st with queue := q}
    else
      { queue := q++st.cells.flatMap fun c => (c.touch f).2
        order := st.order++[f]
        cells := st.cells.map fun c => (c.touch f).1
        steps := st.steps+(st.cells.map (Cell.edges f)).sum+1 }

def State.run : ℕ → State α → State α
  | 0, st => st
  | n+1, st => State.run n st.turn

/-- Facts first, then the heads of the enabled gates that have no body. -/
def start (seeds : List α) (gates : List (Rule α × Bool)) : State α :=
  let cells := gates.map fun g => Cell.mk g.1.head g.1.body g.2 g.1.body.length
  { queue := seeds++(cells.filter fun c => c.left = 0 && c.enabled).map Cell.head
    order := []
    cells := cells
    steps := 0 }

def propagate (seeds : List α) (gates : List (Rule α × Bool)) : State α :=
  (start seeds gates).run (seeds.length+gates.length)

def enabledRules (gates : List (Rule α × Bool)) : Set (Rule α) := {r | (r,true) ∈ gates}

omit [DecidableEq α] in
theorem decrement_fst (head : α) (k : ℕ) (left : ℤ) :
    (decrement head k left).1 = left-k := by
  induction k generalizing left with
  | zero => simp [decrement]
  | succ k ih => simp only [decrement,ih]; push_cast; ring

omit [DecidableEq α] in
theorem decrement_snd (head : α) (k : ℕ) (left : ℤ) :
    (decrement head k left).2 = if 0 < left ∧ left ≤ k then [head] else [] := by
  induction k generalizing left with
  | zero => rw [if_neg (by push_cast; omega)]; rfl
  | succ k ih =>
    simp only [decrement,ih]
    by_cases h : left-1 = 0
    · rw [if_pos h,if_neg (by omega),if_pos (by push_cast; omega)]
    · rw [if_neg h]
      exact if_congr (by push_cast; omega) rfl rfl

/-- Edges of `body` whose fact is not yet in `order`. -/
def pending (order body : List α) : ℕ := body.countP (· ∉ order)

theorem pending_nil (body : List α) : pending [] body = body.length := by simp [pending]

theorem pending_append {order body : List α} {f : α} (hf : f ∉ order) :
    pending order body = pending (order++[f]) body+body.count f := by
  unfold pending
  induction body with
  | nil => simp
  | cons b bs ih =>
    rw [List.countP_cons,List.countP_cons,List.count_cons,ih]
    by_cases hb : b = f
    · simp [hb,hf]; omega
    · simp [hb]; omega

theorem pending_eq_zero {order body : List α} :
    pending order body = 0 ↔ ∀ b ∈ body, b ∈ order := by
  simp [pending,List.countP_eq_zero]

/-- A fact is supported by `order` when it is a seed or an enabled gate over `order` heads it. -/
def Supported (seeds : List α) (gates : List (Rule α × Bool)) (order : List α) (a : α) : Prop :=
  a ∈ seeds ∨ ∃ r ∈ enabledRules gates, r.head = a ∧ ∀ b ∈ r.body, b ∈ order

omit [DecidableEq α] in
theorem Supported.mono {seeds : List α} {gates : List (Rule α × Bool)} {o o' : List α} {a : α}
    (ho : ∀ b ∈ o, b ∈ o') (h : Supported seeds gates o a) : Supported seeds gates o' a := by
  rcases h with h | ⟨r,hr,he,hb⟩
  · exact .inl h
  · exact .inr ⟨r,hr,he,fun b hm => ho b (hb b hm)⟩

def cellAt (order : List α) (g : Rule α × Bool) : Cell α :=
  ⟨g.1.head,g.1.body,g.2,if g.2 then pending order g.1.body else g.1.body.length⟩

theorem cellAt_touch {order : List α} {f : α} (hf : f ∉ order) (g : Rule α × Bool) :
    ((cellAt order g).touch f).1 = cellAt (order++[f]) g := by
  rcases g with ⟨r,e⟩
  cases e
  · simp [cellAt,Cell.touch]
  · simp only [cellAt,Cell.touch,if_true,decrement_fst,Cell.mk.injEq,true_and]
    have h : pending order r.body = _ := pending_append hf
    omega

theorem cellAt_push {order : List α} {f : α} (hf : f ∉ order) (g : Rule α × Bool) :
    ((cellAt order g).touch f).2 =
      if g.2 ∧ 0 < pending order g.1.body ∧ pending (order++[f]) g.1.body = 0 then [g.1.head]
      else [] := by
  rcases g with ⟨r,e⟩
  cases e
  · simp [cellAt,Cell.touch]
  · simp only [cellAt,Cell.touch,if_true,decrement_snd,true_and]
    have h : pending order r.body = _ := pending_append hf
    exact if_congr (by omega) rfl rfl

/-- What every turn keeps: counters agree with `order`, everything queued or expanded is
supported, and nothing supported is lost. -/
structure Inv (seeds : List α) (gates : List (Rule α × Bool)) (st : State α) : Prop where
  cells : st.cells = gates.map (cellAt st.order)
  nodup : st.order.Nodup
  queued : ∀ a ∈ st.queue, Supported seeds gates st.order a
  ordered : ∀ l₁ a l₂, st.order = l₁++a::l₂ → Supported seeds gates l₁ a
  kept : ∀ a, Supported seeds gates st.order a → a ∈ st.queue ∨ a ∈ st.order

theorem start_inv (seeds : List α) (gates : List (Rule α × Bool)) :
    Inv seeds gates (start seeds gates) where
  cells := by
    apply List.map_congr_left
    rintro ⟨r,e⟩ _
    simp [cellAt,start,pending_nil]
  nodup := by simp [start]
  queued := by
    intro a ha
    simp only [start,List.mem_append,List.mem_map,List.mem_filter] at ha
    rcases ha with ha | ⟨c,⟨⟨g,hg,rfl⟩,hc⟩,rfl⟩
    · exact .inl ha
    · rcases g with ⟨r,e⟩
      simp only [Bool.and_eq_true,decide_eq_true_eq] at hc
      obtain ⟨hl,rfl⟩ := hc
      have hb : r.body = [] := List.length_eq_zero_iff.mp (by exact_mod_cast hl)
      exact .inr ⟨r,hg,rfl,by simp [hb]⟩
  ordered := by intro l₁ a l₂ h; simp [start] at h
  kept := by
    intro a ha
    left
    simp only [start,List.mem_append,List.mem_map,List.mem_filter]
    rcases ha with ha | ⟨r,hr,rfl,hb⟩
    · exact .inl ha
    · have hn : r.body = [] := List.eq_nil_iff_forall_not_mem.mpr fun b hm => by
        simpa [start] using hb b hm
      exact .inr ⟨⟨r.head,r.body,true,r.body.length⟩,⟨⟨(r,true),hr,rfl⟩,by simp [hn]⟩,rfl⟩

theorem turn_inv {seeds : List α} {gates : List (Rule α × Bool)} {st : State α}
    (hi : Inv seeds gates st) : Inv seeds gates st.turn := by
  unfold State.turn
  split
  · exact hi
  · rename_i f q hq
    by_cases hf : f ∈ st.order
    · rw [if_pos hf]
      refine ⟨hi.cells,hi.nodup,fun a ha => hi.queued a (by simp [hq,ha]),hi.ordered,?_⟩
      intro a ha
      have h := hi.kept a ha
      simp only [hq,List.mem_cons] at h
      rcases h with (rfl | h) | h
      · exact .inr hf
      · exact .inl h
      · exact .inr h
    · rw [if_neg hf]
      -- the pushed heads are exactly those of the gates whose last open edge was `f`
      have hpush : ∀ a, a ∈ st.cells.flatMap (fun c => (c.touch f).2) ↔
          ∃ r ∈ enabledRules gates, r.head = a ∧ 0 < pending st.order r.body ∧
            pending (st.order++[f]) r.body = 0 := by
        intro a
        rw [hi.cells,List.mem_flatMap]
        constructor
        · rintro ⟨c,hc,ha⟩
          obtain ⟨⟨r,e⟩,hg,rfl⟩ := List.mem_map.mp hc
          rw [cellAt_push hf] at ha
          split at ha
          · rename_i h
            obtain ⟨he,h⟩ := h
            simp only at he
            subst he
            exact ⟨r,hg,by simpa using (List.mem_singleton.mp ha).symm,h⟩
          · simp at ha
        · rintro ⟨r,hr,rfl,h⟩
          refine ⟨_,List.mem_map.mpr ⟨(r,true),hr,rfl⟩,?_⟩
          rw [cellAt_push hf,if_pos ⟨rfl,h⟩]
          exact List.mem_singleton.mpr rfl
      refine ⟨?_,?_,?_,?_,?_⟩
      · simp only [hi.cells,List.map_map]
        exact List.map_congr_left fun g _ => cellAt_touch hf g
      · exact List.nodup_append.mpr ⟨hi.nodup,by simp,by
          intro a ha b hb hab
          exact hf (by rw [← List.mem_singleton.mp hb,← hab]; exact ha)⟩
      · intro a ha
        rcases List.mem_append.mp ha with ha | ha
        · exact (hi.queued a (by simp [hq,ha])).mono (by intro b hb; simp [hb])
        · obtain ⟨r,hr,rfl,-,h⟩ := (hpush a).mp ha
          exact .inr ⟨r,hr,rfl,pending_eq_zero.mp h⟩
      · intro l₁ a l₂ h
        rcases List.eq_nil_or_concat l₂ with rfl | ⟨l,b,rfl⟩
        · obtain ⟨rfl,hfa⟩ := List.append_inj' h rfl
          obtain rfl := (List.cons.inj hfa).1
          exact hi.queued f (by simp [hq])
        · rw [List.concat_eq_append,← List.cons_append,← List.append_assoc] at h
          exact hi.ordered l₁ a l (List.append_inj' h rfl).1
      · intro a ha
        by_cases hs : Supported seeds gates st.order a
        · have h := hi.kept a hs
          simp only [hq,List.mem_cons] at h
          simp only [List.mem_append,List.mem_singleton]
          rcases h with (rfl | h) | h
          · exact .inr (.inr rfl)
          · exact .inl (.inl h)
          · exact .inr (.inl h)
        · left
          rcases ha with ha | ⟨r,hr,rfl,hb⟩
          · exact absurd (.inl ha) hs
          · refine List.mem_append_right _ ((hpush _).mpr ⟨r,hr,rfl,?_,pending_eq_zero.mpr hb⟩)
            by_contra hp
            exact hs (.inr ⟨r,hr,rfl,pending_eq_zero.mp (by omega)⟩)

theorem run_inv {seeds : List α} {gates : List (Rule α × Bool)} (n : ℕ) {st : State α}
    (hi : Inv seeds gates st) : Inv seeds gates (st.run n) := by
  induction n generalizing st with
  | zero => exact hi
  | succ n ih => exact ih (turn_inv hi)

/-- Queued facts plus open gates: one turn spends at least one. -/
def potential (st : State α) : ℕ := st.queue.length+st.cells.countP (0 < ·.left)

theorem touch_open (f : α) (c : Cell α) :
    (c.touch f).2.length+(if 0 < (c.touch f).1.left then 1 else 0) ≤
      if 0 < c.left then 1 else 0 := by
  unfold Cell.touch
  cases c.enabled
  · simp
  · simp only [if_true,decrement_fst,decrement_snd]
    split <;> split <;> split <;> simp <;> omega

theorem flatMap_open (f : α) (cs : List (Cell α)) :
    (cs.flatMap fun c => (c.touch f).2).length+
        (cs.map fun c => (c.touch f).1).countP (0 < ·.left) ≤ cs.countP (0 < ·.left) := by
  induction cs with
  | nil => simp
  | cons c cs ih =>
    have h := touch_open f c
    simp only [List.flatMap_cons,List.length_append,List.map_cons,List.countP_cons,
      decide_eq_true_eq]
    omega

theorem turn_potential {st : State α} (h : st.queue ≠ []) :
    potential st.turn+1 ≤ potential st := by
  rcases st with ⟨queue,order,cells,steps⟩
  cases queue with
  | nil => simp at h
  | cons f q =>
    by_cases hf : f ∈ order
    · simp [State.turn,potential,hf]
    · have ho := flatMap_open f cells
      simp only [State.turn,potential,hf,if_false,List.length_append,List.length_cons]
      omega

theorem turn_empty {st : State α} (h : st.queue = []) : st.turn = st := by
  unfold State.turn; split <;> simp_all

theorem run_empty (n : ℕ) {st : State α} (h : st.queue = []) : st.run n = st := by
  induction n with
  | zero => rfl
  | succ n ih => rw [State.run,turn_empty h,ih]

theorem run_empties (n : ℕ) {st : State α} (h : potential st ≤ n) : (st.run n).queue = [] := by
  induction n generalizing st with
  | zero =>
    have hq : st.queue.length = 0 := by unfold potential at h; omega
    exact List.length_eq_zero_iff.mp hq
  | succ n ih =>
    by_cases hq : st.queue = []
    · rw [run_empty _ hq,hq]
    · exact ih (by have := turn_potential hq; omega)

omit [DecidableEq α] in
theorem start_potential (seeds : List α) (gates : List (Rule α × Bool)) :
    potential (start seeds gates) ≤ seeds.length+gates.length := by
  have h : ∀ gs : List (Rule α × Bool),
      let cs := gs.map fun g => Cell.mk g.1.head g.1.body g.2 (g.1.body.length : ℤ)
      cs.countP (fun c => c.left = 0 && c.enabled)+cs.countP (0 < ·.left) ≤ gs.length := by
    intro gs
    induction gs with
    | nil => simp
    | cons g gs ih =>
      simp only [List.map_cons,List.countP_cons,List.length_cons,Bool.and_eq_true,
        decide_eq_true_eq] at ih ⊢
      split <;> split <;> omega
  have hg := h gates
  simp only [potential,start,List.length_append,List.length_map,← List.countP_eq_length_filter]
  omega

theorem propagate_queue (seeds : List α) (gates : List (Rule α × Bool)) :
    (propagate seeds gates).queue = [] :=
  run_empties _ (start_potential seeds gates)

theorem propagate_inv (seeds : List α) (gates : List (Rule α × Bool)) :
    Inv seeds gates (propagate seeds gates) :=
  run_inv _ (start_inv seeds gates)

theorem propagate_nodup (seeds : List α) (gates : List (Rule α × Bool)) :
    (propagate seeds gates).order.Nodup := (propagate_inv seeds gates).nodup

/-- A fact enters the order only after the body of one of its supports. -/
theorem propagate_ordered {seeds : List α} {gates : List (Rule α × Bool)} {l₁ l₂ : List α} {a : α}
    (h : (propagate seeds gates).order = l₁++a::l₂) : Supported seeds gates l₁ a :=
  (propagate_inv seeds gates).ordered l₁ a l₂ h

theorem propagate_closed (seeds : List α) (gates : List (Rule α × Bool)) :
    Closed {a | a ∈ seeds} (enabledRules gates) {a | a ∈ (propagate seeds gates).order} := by
  have hi := propagate_inv seeds gates
  have hq := propagate_queue seeds gates
  have hk : ∀ a, Supported seeds gates (propagate seeds gates).order a →
      a ∈ (propagate seeds gates).order := by
    intro a ha
    simpa [hq] using hi.kept a ha
  exact ⟨fun a ha => hk a (.inl ha),fun r hr hb => hk _ (.inr ⟨r,hr,rfl,hb⟩)⟩

/-- Unit propagation computes the least fixpoint. -/
theorem mem_propagate {seeds : List α} {gates : List (Rule α × Bool)} {a : α} :
    a ∈ (propagate seeds gates).order ↔ Derivable {a | a ∈ seeds} (enabledRules gates) a := by
  constructor
  · intro ha
    -- strong induction on the position at which the fact was expanded
    obtain ⟨l₁,l₂,h⟩ := List.append_of_mem ha
    induction hn : l₁.length using Nat.strong_induction_on generalizing l₁ l₂ a with
    | _ n ih =>
      rcases propagate_ordered h with hs | ⟨r,hr,rfl,hb⟩
      · exact .seed hs
      · refine .fire hr fun b hm => ?_
        obtain ⟨m₁,m₂,rfl⟩ := List.append_of_mem (hb b hm)
        refine ih m₁.length (by rw [← hn]; simp) ?_ m₁ (m₂++r.head::l₂) (by simpa using h) rfl
        rw [h]; simp
  · exact Derivable.mem_of_closed (propagate_closed seeds gates)

/-! ### Steps -/

/-- The edges of enabled gates that are still to be touched. -/
def openEdges (gates : List (Rule α × Bool)) (order : List α) : ℕ :=
  (gates.map fun g => if g.2 then pending order g.1.body else 0).sum

theorem openEdges_append {order : List α} {f : α} (hf : f ∉ order) (gates : List (Rule α × Bool)) :
    ((gates.map (cellAt order)).map (Cell.edges f)).sum+openEdges gates (order++[f]) =
      openEdges gates order := by
  induction gates with
  | nil => rfl
  | cons g gates ih =>
    rcases g with ⟨r,e⟩
    have hp : pending order r.body = _ := pending_append hf
    simp only [openEdges,List.map_cons,List.sum_cons] at ih ⊢
    cases e
    · simpa [cellAt,Cell.edges] using ih
    · simp only [cellAt,Cell.edges,if_true] at ih ⊢
      omega

/-- A turn pays one step for the fact it expands and one for each edge it touches. -/
theorem turn_steps {seeds : List α} {gates : List (Rule α × Bool)} {st : State α}
    (hi : Inv seeds gates st)
    (h : st.steps+openEdges gates st.order = st.order.length+openEdges gates []) :
    st.turn.steps+openEdges gates st.turn.order = st.turn.order.length+openEdges gates [] := by
  unfold State.turn
  split
  · exact h
  · rename_i f q hq
    by_cases hf : f ∈ st.order
    · rw [if_pos hf]
      exact h
    · rw [if_neg hf]
      have hedges := openEdges_append hf gates
      simp only [hi.cells,List.length_append,List.length_singleton]
      omega

theorem run_steps {seeds : List α} {gates : List (Rule α × Bool)} (n : ℕ) {st : State α}
    (hi : Inv seeds gates st)
    (h : st.steps+openEdges gates st.order = st.order.length+openEdges gates []) :
    (st.run n).steps+openEdges gates (st.run n).order = (st.run n).order.length+openEdges gates [] := by
  induction n generalizing st with
  | zero => exact h
  | succ n ih => exact ih (turn_inv hi) (turn_steps hi h)

/-- Propagation takes a step for each fact it derives and at most one for each edge. -/
theorem propagate_steps (seeds : List α) (gates : List (Rule α × Bool)) :
    (propagate seeds gates).steps ≤ (propagate seeds gates).order.length+openEdges gates [] := by
  have h := run_steps (seeds.length+gates.length) (start_inv seeds gates)
    (by simp [start])
  exact (Nat.le_add_right _ _).trans h.le

end Horn
