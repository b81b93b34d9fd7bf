import Mathlib.Tactic

/-! Trees written as a table of their distinct subtrees. An entry of the table has a label, and its
children stand at earlier places; what is said of the entries determines the subtrees. -/
namespace SharedTable

variable {α κ ι : Type*}

section

variable (children : α → List α) (key : α → κ) (label : α → ι) (table : List α)

/-- An earlier entry that stands for a child. -/
def StandsFor (place : ℕ) (child : α) (earlier : ℕ) : Prop :=
  earlier < place ∧ ∃ b, table[earlier]? = some b ∧ key b = key child

/-- What is said of an entry: its label, and the places that stand for its children. -/
structure Describes (place : ℕ) (entry : α) (said : ι × List ℕ) : Prop where
  label : label entry = said.1
  children : List.Forall₂ (StandsFor key table place) (children entry) said.2

/-- Every entry is described in turn. -/
def Described (entries : List (ι × List ℕ)) : Prop :=
  List.Forall₂ (fun p said => Describes children key label table p.2 p.1 said) table.zipIdx entries

end

variable {children : α → List α} {key : α → κ} {label : α → ι}

theorem map_eq_of_standsFor {P Q : α → ℕ → Prop} {as bs : List α} {places : List ℕ}
    (ha : List.Forall₂ P as places) (hb : List.Forall₂ Q bs places)
    (h : ∀ a b i, P a i → Q b i → key a = key b) : as.map key = bs.map key := by
  induction ha generalizing bs with
  | nil => cases hb; rfl
  | cons hp _ ih =>
    cases hb with
    | cons hq hb => rw [List.map_cons,List.map_cons,h _ _ _ hp hq,ih hb]

theorem Described.at {table : List α} {entries : List (ι × List ℕ)}
    (h : Described children key label table entries) {place : ℕ} {entry : α}
    (he : table[place]? = some entry) :
    ∃ said, entries[place]? = some said ∧ Describes children key label table place entry said := by
  have hzip : table.zipIdx[place]? = some (entry,place) := by
    rw [List.getElem?_zipIdx,he,Option.map_some,Nat.zero_add]
  obtain ⟨hlt,hget⟩ := List.getElem?_eq_some_iff.mp hzip
  have hle : place < entries.length := h.length_eq ▸ hlt
  refine ⟨entries[place],List.getElem?_eq_getElem hle,?_⟩
  have := h.get hlt hle
  rw [List.get_eq_getElem,hget,List.get_eq_getElem] at this
  exact this

/-- Two tables of which the same is said list the same subtrees, when a subtree is told by its label
and its children. -/
theorem Described.map_key {s t : List α} {entries : List (ι × List ℕ)}
    (hs : Described children key label s entries) (ht : Described children key label t entries)
    (hkey : ∀ a b, label a = label b → (children a).map key = (children b).map key → key a = key b) :
    s.map key = t.map key := by
  have hlength : s.length = t.length := by
    have h₁ := hs.length_eq
    have h₂ := ht.length_eq
    rw [List.length_zipIdx] at h₁ h₂
    omega
  have hat : ∀ (place : ℕ) (a b : α), s[place]? = some a → t[place]? = some b → key a = key b := by
    intro place
    induction place using Nat.strong_induction_on with
    | _ place ih =>
      intro a b ha hb
      obtain ⟨said,hsaid,hda⟩ := hs.at ha
      obtain ⟨said',hsaid',hdb⟩ := ht.at hb
      obtain rfl := Option.some.inj (hsaid.symm.trans hsaid')
      refine hkey a b (hda.label.trans hdb.label.symm) (map_eq_of_standsFor hda.children hdb.children ?_)
      rintro c d i ⟨hi,c',hc',hc⟩ ⟨-,d',hd',hd⟩
      rw [← hc,← hd]
      exact ih i hi c' d' hc' hd'
  refine List.ext_getElem (by simpa using hlength) fun place h₁ h₂ => ?_
  rw [List.getElem_map,List.getElem_map]
  exact hat place _ _ (List.getElem?_eq_getElem _) (List.getElem?_eq_getElem _)

end SharedTable
