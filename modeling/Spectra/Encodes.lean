import Spectra.Bundle
import Spectra.Preimages

/-! What the encoders of `spectra_core.canon` accept: the texts and the numbers whose octets are
written. -/
namespace Spectra

theorem mapM_returns {ε α β : Type} {f : α → Except ε β} {l : List α} (h : ∀ a ∈ l, ∃ b, f a = .ok b) :
    ∃ r, l.mapM f = .ok r := by
  induction l with
  | nil => exact ⟨[],rfl⟩
  | cons a l ih =>
    obtain ⟨b,hb⟩ := h a (by simp)
    obtain ⟨r,hr⟩ := ih fun c hc => h c (by simp [hc])
    exact ⟨b::r,mapM_ok.mpr (.cons hb (mapM_ok.mp hr))⟩

theorem concat_returns {es : List (Fallible Bytes)} (h : ∀ e ∈ es, ∃ p, e = .ok p) :
    ∃ r, Framing.concat es = .ok r := by
  induction es with
  | nil => exact ⟨[],rfl⟩
  | cons e es ih =>
    obtain ⟨p,hp⟩ := h e (by simp)
    obtain ⟨q,hq⟩ := ih fun e he => h e (by simp [he])
    exact ⟨p++q,Framing.concat_cons.mpr ⟨p,q,hp,hq,rfl⟩⟩

theorem uint_returns {loc : String} {width : ℕ} {n : ℤ} (h : 0 ≤ n ∧ n < 256^width) :
    ∃ b, uint loc width n = .ok b := ⟨_,if_pos h⟩

theorem i64_returns {n : ℤ} (h : -2^63 ≤ n ∧ n < 2^63) : ∃ b, i64 n = .ok b := ⟨_,if_pos h⟩

theorem lengthCode_returns {n : ℕ} (h : n < 2^32) : ∃ b, lengthCode n = .ok b := by
  rw [lengthCode,if_neg (by omega)]
  exact uint_returns (by norm_num at h ⊢; exact_mod_cast h)

theorem blob_returns {value : Bytes} (h : value.length < 2^32) : ∃ b, blob value = .ok b := by
  obtain ⟨c,hc⟩ := lengthCode_returns h
  exact concat_returns (by simp [hc])

theorem asciiText_returns {s : String} (ha : ∀ b ∈ octets s, b < 128) (hl : (octets s).length < 2^32) :
    ∃ b, asciiText s = .ok b := by
  rw [asciiText,if_pos (List.all_eq_true.mpr fun b hb => by simpa using ha b hb)]
  exact blob_returns hl

theorem utf8Text_returns {s t : String} (hn : nfc s = .ok t) (hl : (octets t).length < 2^32) :
    ∃ b, utf8Text s = .ok b := by
  rw [utf8Text,hn]
  exact blob_returns hl

theorem checkNanos_range {loc : String} {n : ℤ} (h : checkNanos loc n = .ok ()) : -2^63 ≤ n ∧ n < 2^63 :=
  ensure_ok.mp h

/-! ### Snakes -/

theorem isSnakeTail_ascii {c : Char} (h : isSnakeTail c = true) : c.toNat < 128 := by
  have hn : c.toNat = c.val.toNat := rfl
  simp only [isSnakeTail,isLower,Bool.or_eq_true,Bool.and_eq_true,decide_eq_true_eq,Char.le_def,
    UInt32.le_iff_toNat_le] at h
  rw [hn]
  rcases h with (⟨-,h⟩ | ⟨-,h⟩) | rfl
  · change _ ≤ 122 at h; omega
  · change _ ≤ 57 at h; omega
  · decide

/-- Text of ASCII characters has one octet for each. -/
theorem octets_ascii {s : String} (h : ∀ c ∈ s.toList, c.toNat < 128) :
    octets s = s.toList.map fun c => UInt8.ofNat c.toNat := by
  rw [octets_eq]
  generalize s.toList = l at h
  induction l with
  | nil => rfl
  | cons c l ih =>
    rw [List.flatMap_cons,utf8EncodeChar_ascii (h c (by simp)),ih fun d hd => h d (by simp [hd])]
    rfl

theorem octets_ascii_low {s : String} (h : ∀ c ∈ s.toList, c.toNat < 128) : ∀ b ∈ octets s, b < 128 := by
  intro b hb
  rw [octets_ascii h] at hb
  obtain ⟨c,hc,rfl⟩ := List.mem_map.mp hb
  have := h c hc
  rw [UInt8.lt_iff_toNat_lt,UInt8.toNat_ofNat']
  change _ < 128
  omega

/-- The id of a source is encoded. -/
theorem sourceId_encodes {s : String} (h : isSnake s = true) :
    ∃ b, asciiText (Checker.sourcePrefix++s) = .ok b := by
  have hascii : ∀ c ∈ s.toList, c.toNat < 128 := fun c hc => isSnakeTail_ascii (snake_chars h c hc)
  have hlong : s.toList.length ≤ 48 := by
    rw [isSnake,Bool.and_eq_true,decide_eq_true_eq] at h
    exact h.2
  have hlow := octets_ascii_low hascii
  have hopen : octets Checker.sourcePrefix = [0x73,0x72,0x63,0x3a] := by decide
  have hopenLow : ([0x73,0x72,0x63,0x3a] : Bytes).all (· < 128) = true := by decide
  refine asciiText_returns (fun b hb => ?_) ?_
  · rw [Checker.octets_append,List.mem_append,hopen] at hb
    rcases hb with hb | hb
    · simpa using List.all_eq_true.mp hopenLow b hb
    · exact hlow b hb
  · rw [Checker.octets_append,List.length_append,hopen,octets_ascii hascii,List.length_map]
    simp only [List.length_cons,List.length_nil]
    omega

end Spectra
