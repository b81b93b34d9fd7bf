import Spectra.JsonText
import Spectra.Render

/-! `spectra_vs.scf`: the encoding law every artifact is written under, and its serialiser. -/
namespace Spectra

namespace Json

open Checker (isKey u32Max)

mutual

/-- `validate_scf`. -/
def validateScf (loc : String) : Json → Fallible Unit
  | .null => .error (ErrorType.schemaError.mk
      (loc++": null is never a value; express absence by omitting the member"))
  | .bool _ => .ok ()
  | .scalar _ => .error ⟨.canonError,"E-CANON-FLOAT",loc++": float in a number position"⟩
  | .int n => ensure (0 ≤ n ∧ n ≤ u32Max) ⟨.schemaError,"E-CANON-WIDTH",loc++": "++toString n++
      " is not a bare JSON integer position; i64 nanoseconds, u64 masks and u64 seeds are strings"⟩
  | .str _ => .ok ()
  | .list l => validateScfItems loc 0 l
  | .obj m => validateScfMembers loc m

def validateScfItems (loc : String) : ℕ → List Json → Fallible Unit
  | _, [] => .ok ()
  | index, a::as => do
    validateScf (loc++"["++toString index++"]") a
    validateScfItems loc (index+1) as

def validateScfMembers (loc : String) : List (String × Json) → Fallible Unit
  | [] => .ok ()
  | (key,v)::m => do
    ensure (isKey key) (ErrorType.schemaError.mk
      (loc++": object key "++key++" is not ASCII [a-z0-9_]+"))
    validateScf (loc++"."++key) v
    validateScfMembers loc m

end

/-- `scf_dumps`. -/
def scfDumps (j : Json) : Fallible Bytes := do
  validateScf "scf" j
  pure (j.dumps true)

/-- `scf_line`. -/
def scfLine (j : Json) : Fallible Bytes := do
  pure ((← j.scfDumps)++[0x0a])

mutual

/-- What the encoding law allows. -/
def scf : Json → Bool
  | .null => false
  | .bool _ => true
  | .scalar _ => false
  | .int n => 0 ≤ n && n ≤ u32Max
  | .str _ => true
  | .list l => scfItems l
  | .obj m => scfMembers m

def scfItems : List Json → Bool
  | [] => true
  | a::as => a.scf && scfItems as

def scfMembers : List (String × Json) → Bool
  | [] => true
  | (k,v)::m => isKey k && v.scf && scfMembers m

end

theorem scfItems_iff {l : List Json} : scfItems l = true ↔ ∀ a ∈ l, a.scf = true := by
  induction l with
  | nil => simp [scfItems]
  | cons a l ih => simp [scfItems,ih]

theorem scfMembers_iff {m : List (String × Json)} : scfMembers m = true ↔
    ∀ p ∈ m, isKey p.1 = true ∧ p.2.scf = true := by
  induction m with
  | nil => simp [scfMembers]
  | cons p m ih => simp [scfMembers,ih,and_assoc]

theorem validateScfItems_ok {loc : String} {index : ℕ} {l : List Json}
    (h : ∀ a ∈ l, ∀ loc, validateScf loc a = .ok () ↔ a.scf = true) :
    validateScfItems loc index l = .ok () ↔ ∀ a ∈ l, a.scf = true := by
  induction l generalizing index with
  | nil => simp [validateScfItems]
  | cons a l ih =>
    rw [validateScfItems,Runs.bind_ok,List.forall_mem_cons,← h a (by simp),
      ← ih fun b hb => h b (by simp [hb])]
    exact ⟨fun ⟨_,h⟩ => h,fun h => ⟨(),h⟩⟩

theorem validateScfMembers_ok {loc : String} {m : List (String × Json)}
    (h : ∀ p ∈ m, ∀ loc, validateScf loc p.2 = .ok () ↔ p.2.scf = true) :
    validateScfMembers loc m = .ok () ↔ ∀ p ∈ m, isKey p.1 = true ∧ p.2.scf = true := by
  induction m with
  | nil => simp [validateScfMembers]
  | cons p m ih =>
    obtain ⟨key,v⟩ := p
    rw [validateScfMembers,Runs.bind_ok,List.forall_mem_cons,← h (key,v) (by simp) (loc++"."++key),
      ← ih fun q hq => h q (by simp [hq])]
    simp only [Runs.bind_ok]
    constructor
    · rintro ⟨_,hk,_,hv,hm⟩
      exact ⟨⟨ensure_ok.mp hk,hv⟩,hm⟩
    · rintro ⟨⟨hk,hv⟩,hm⟩
      exact ⟨(),ensure_ok.mpr hk,(),hv,hm⟩

/-- The validator accepts exactly what the law allows. -/
theorem validateScf_ok {loc : String} {j : Json} : validateScf loc j = .ok () ↔ j.scf = true := by
  induction j using nestedInduction generalizing loc with
  | int n => simp [validateScf,scf]
  | list l ih => rw [validateScf,scf,scfItems_iff,validateScfItems_ok fun a ha loc => ih a ha]
  | obj m ih => rw [validateScf,scf,scfMembers_iff,validateScfMembers_ok fun p hp loc => ih p hp]
  | _ => simp [validateScf,scf]

theorem scfDumps_ok {j : Json} {b : Bytes} :
    j.scfDumps = .ok b ↔ j.scf = true ∧ j.dumps true = b := by
  rw [scfDumps,Runs.bind_ok]
  exact ⟨fun ⟨_,hs,h⟩ => ⟨validateScf_ok.mp hs,Runs.pure_ok.mp h⟩,
    fun ⟨hs,h⟩ => ⟨(),validateScf_ok.mpr hs,Runs.pure_ok.mpr h⟩⟩

theorem scfLine_ok {j : Json} {b : Bytes} :
    j.scfLine = .ok b ↔ j.scf = true ∧ j.dumps true++[0x0a] = b := by
  rw [scfLine,Runs.bind_ok]
  simp only [scfDumps_ok,Runs.pure_ok]
  constructor
  · rintro ⟨_,⟨hs,rfl⟩,h⟩
    exact ⟨hs,h⟩
  · rintro ⟨hs,h⟩
    exact ⟨_,⟨hs,rfl⟩,h⟩

theorem keyed_of_scf {j : Json} (h : j.scf = true) : j.keyed = true := by
  induction j using nestedInduction with
  | list l ih =>
    rw [scf,scfItems_iff] at h
    exact keyedItems_iff.mpr fun a ha => ih a ha (h a ha)
  | obj m ih =>
    rw [scf,scfMembers_iff] at h
    exact keyedMembers_iff.mpr fun p hp => ⟨(h p hp).1,ih p hp (h p hp).2⟩
  | scalar s => cases h
  | _ => rfl

/-! ### Octets -/

theorem escape_printed (b : UInt8) : ∀ x ∈ escape b, 0x20 ≤ x.toNat := by
  by_cases h : b.toNat < 128
  · have hall : ∀ k : Fin 128, (escape (UInt8.ofNat k)).all (0x20 ≤ ·.toNat) = true := by
      decide
    have hb : UInt8.ofNat b.toNat = b := by simp
    intro x hx
    simpa using List.all_eq_true.mp (hall ⟨b.toNat,h⟩) x (by rw [hb]; exact hx)
  · intro x hx
    rw [escape,if_neg (by omega),if_neg (by omega),if_neg (by omega)] at hx
    rw [List.mem_singleton.mp hx]
    omega

theorem quoted_printed (s : String) : ∀ b ∈ quoted s, 0x20 ≤ b.toNat := by
  intro b hb
  simp only [quoted,List.cons_append,List.mem_cons,List.mem_append,List.mem_flatMap,
    List.not_mem_nil,or_false] at hb
  rcases hb with rfl | ⟨x,-,hb⟩ | rfl
  · decide
  · exact escape_printed x b hb
  · decide

theorem commas_printed {l : List Bytes} (h : ∀ p ∈ l, ∀ b ∈ p, 0x20 ≤ b.toNat) :
    ∀ b ∈ commas l, 0x20 ≤ b.toNat := by
  induction l with
  | nil => simp [commas]
  | cons p l ih =>
    cases l with
    | nil => exact h p (by simp)
    | cons q l =>
      intro b hb
      rcases List.mem_append.mp hb with hb | hb
      · exact h p (by simp) b hb
      · rcases List.mem_cons.mp hb with rfl | hb
        · decide
        · exact ih (fun r hr => h r (by simp [hr])) b hb

/-- No control character is in the octets of a value, so a line never ends inside one. -/
theorem dumps_printed {j : Json} (h : j.keyed = true) : ∀ b ∈ j.dumps true, 0x20 ≤ b.toNat := by
  induction j using nestedInduction with
  | null => rw [dumps]; decide +kernel
  | bool b => cases b <;> rw [dumps] <;> decide +kernel
  | int n => intro b hb; exact (readable_decimal n b hb).1
  | scalar s => cases h
  | str s => exact quoted_printed s
  | list l ih =>
    rw [keyed,keyedItems_iff] at h
    intro b hb
    rw [dumps,dumpsItems_eq] at hb
    simp only [List.cons_append,List.mem_cons,List.mem_append,List.not_mem_nil,or_false] at hb
    rcases hb with rfl | hb | rfl
    · decide
    · refine commas_printed (fun p hp => ?_) b hb
      obtain ⟨a,ha,rfl⟩ := List.mem_map.mp hp
      exact ih a ha (h a ha)
    · decide
  | obj m ih =>
    rw [keyed,keyedMembers_iff] at h
    intro b hb
    rw [dumps,dumpsMembers_eq,if_pos rfl] at hb
    simp only [List.cons_append,List.mem_cons,List.mem_append,List.not_mem_nil,or_false] at hb
    rcases hb with rfl | hb | rfl
    · decide
    · refine commas_printed (fun p hp => ?_) b hb
      obtain ⟨q,hq,rfl⟩ := List.mem_map.mp hp
      obtain ⟨r,hr,rfl⟩ := List.mem_map.mp ((List.mem_insertionSort _).mp hq)
      intro x hx
      rcases List.mem_append.mp hx with hx | hx
      · exact quoted_printed _ x hx
      · rcases List.mem_cons.mp hx with rfl | hx
        · decide
        · exact ih r hr (h r hr).2 x hx
    · decide

end Json

namespace Checker

/-- The library on UTF-8 texts: the JSON texts it is asked for spell the listed values. -/
def readerOf (documents : List Json) : Library :=
  {standard (documents.flatMap fun j =>
      [(j.dumps true,j.readBack),(j.dumps true++[0x0a],j.readBack)]) [] with
    decode := fun content => String.fromUTF8? ⟨content.toArray⟩}

/-- UTF-8 is decoded to the text it spells. -/
def Library.DecodesText (lib : Library) : Prop := ∀ s, lib.decode (octets s) = some s

theorem readerOf_decodes (documents : List Json) : (readerOf documents).DecodesText := by
  intro s
  have hs : (⟨(octets s).toArray⟩ : ByteArray) = s.toByteArray := by simp [octets]
  simp only [readerOf,hs,String.fromUTF8?,dif_pos s.isValidUTF8]
  rfl

theorem readerOf_reads {documents : List Json} {j : Json} (hj : j ∈ documents)
    (hn : ((documents.flatMap fun j => [(j.dumps true,j.readBack),
      (j.dumps true++[0x0a],j.readBack)]).map (·.1)).Nodup) (hk : j.keyed = true)
    (hd : j.distinct = true) : (readerOf documents).Reads certificateHooks j := by
  intro text ht
  rw [revive_certificateHooks (Json.keyed_readBack hk) (Json.distinct_readBack hd)]
  have hget : Dict.get? (documents.flatMap fun j => [(j.dumps true,j.readBack),
      (j.dumps true++[0x0a],j.readBack)]) (octets text) = some j.readBack := by
    refine Dict.get?_of_mem hn (List.mem_flatMap.mpr ⟨j,hj,?_⟩)
    rcases ht with ht | ht <;> rw [ht] <;> simp
  simp only [readerOf,standard,hget]
  rfl

end Checker

end Spectra
