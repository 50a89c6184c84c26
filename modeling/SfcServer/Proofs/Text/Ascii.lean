import SfcServer.Text.Numeral
import SfcServer.Text.Utf8

/-!
# ASCII text

Text of ASCII characters is its own sequence of bytes, whatever bytes follow it.  Numbers are
written in ASCII digits, and are read back from what is written.
-/

namespace SfcServer

def Text.Ascii (t : Text) : Prop :=
  forall c, c ∈ t -> c.toNat < 128

instance (t : Text) : Decidable t.Ascii :=
  List.decidableBAll (fun c : Char => c.toNat < 128) t

theorem isAlpha_iff (c : Char) :
    c.isAlpha = true ↔
      (65 ≤ c.toNat ∧ c.toNat ≤ 90) ∨ (97 ≤ c.toNat ∧ c.toNat ≤ 122) := by
  have halpha : c.isAlpha = (decide ('A'.val ≤ c.val ∧ c.val ≤ 'Z'.val) ||
      (decide ('a'.val ≤ c.val) && decide (c.val ≤ 'z'.val))) := rfl
  rw [halpha, Bool.or_eq_true, Bool.and_eq_true]
  simp only [decide_eq_true_eq, UInt32.le_iff_toNat_le]
  exact Iff.rfl

namespace Utf8

theorem encode_cons (c : Char) (t : Text) : encode (c :: t) = String.utf8EncodeChar c ++ encode t :=
  rfl

theorem encode_append (t u : Text) : encode (t ++ u) = encode t ++ encode u :=
  List.flatMap_append

theorem utf8EncodeChar_ascii {c : Char} (h : c.toNat < 128) :
    String.utf8EncodeChar c = [UInt8.ofNat c.toNat] := by
  have hsmall : c.val.toNat ≤ 127 := Nat.le_of_lt_succ h
  simp only [String.utf8EncodeChar, hsmall, if_true]
  rfl

theorem toNat_byte {c : Char} (h : c.toNat < 128) : (UInt8.ofNat c.toNat).toNat = c.toNat := by
  rw [UInt8.toNat_ofNat']
  omega

/-- ASCII text at the head of a sequence of bytes is read as it stands there. -/
theorem readFrom_encode_ascii {t : Text} (h : t.Ascii) (rest : Bytes) :
    readFrom none (encode t ++ rest) = t.map some ++ readFrom none rest := by
  induction t with
  | nil =>
      rfl
  | cons c t ih =>
      have hc := h c List.mem_cons_self
      have hlead : lead (UInt8.ofNat c.toNat).toNat = .char c := by
        rw [toNat_byte hc, lead, if_pos hc, Char.ofNat_toNat]
      rw [encode_cons, utf8EncodeChar_ascii hc, List.append_assoc, List.singleton_append, readFrom,
        hlead, ih fun c' hc' => h c' (List.mem_cons_of_mem c hc')]
      rfl

theorem decodeSkipping_encode_ascii {t : Text} (h : t.Ascii) : decodeSkipping (encode t) = t := by
  have hread := readFrom_encode_ascii h []
  rw [List.append_nil] at hread
  rw [decodeSkipping, read, hread, readFrom, List.append_nil, List.filterMap_map]
  exact List.filterMap_some

end Utf8

namespace Text

/-!
# Numbers
-/

theorem isAsciiDigit_of_mem_ofNat {n : Nat} {c : Char} (h : c ∈ ofNat n) :
    isAsciiDigit c = true := by
  have hdigit := Nat.isDigit_of_mem_toDigits (by decide) (by decide) h
  simpa [Char.isDigit, isAsciiDigit, UInt32.le_iff_toNat_le] using hdigit

theorem ofNat_ascii (n : Nat) : (ofNat n).Ascii := by
  intro c hc
  have hdigit := isAsciiDigit_of_mem_ofNat hc
  simp only [isAsciiDigit, Bool.and_eq_true, decide_eq_true_eq] at hdigit
  omega

variable {c : Char}

theorem isBlank_of_isAsciiDigit (h : isAsciiDigit c = true) : isBlank c = false := by
  simp only [isAsciiDigit, Bool.and_eq_true, decide_eq_true_eq] at h
  simp [isBlank]
  omega

theorem asciiDigits_ascii {t : Text} (h : t.Ascii) : asciiDigits t = t := by
  rw [asciiDigits]
  refine (List.map_congr_left fun c hc => ?_).trans (List.map_id t)
  have hsmall := h c hc
  simp only [digitValue?, hsmall, if_true, id_eq]
  by_cases hdigit : 48 ≤ c.toNat ∧ c.toNat ≤ 57
  · have hsum : 48 + (c.toNat - 48) = c.toNat := by omega
    rw [if_pos hdigit]
    simp only [hsum, Char.ofNat_toNat]
  · rw [if_neg hdigit]

theorem trimLeft_cons (h : isBlank c = false) (rest : Text) : trimLeft (c :: rest) = c :: rest :=
  List.dropWhile_cons_of_neg (by simp [h])

theorem trimRight_append {blanks : Text} (t : Text) (h : isBlank c = false)
    (hblanks : blanks.all isBlank = true) :
    trimRight (t ++ c :: blanks) = t ++ [c] := by
  have hdropped : (t ++ c :: blanks).reverse.dropWhile isBlank = c :: t.reverse := by
    rw [List.reverse_append, List.reverse_cons, List.append_assoc, List.singleton_append,
      List.dropWhile_append_of_pos fun b hb =>
        List.all_eq_true.mp hblanks b (List.mem_reverse.mp hb)]
    exact trimLeft_cons h t.reverse
  rw [trimRight, hdropped, List.reverse_cons, List.reverse_reverse]

theorem ofNat_ends (n : Nat) :
    (exists first rest, ofNat n = first :: rest ∧ isAsciiDigit first = true) ∧
      exists front last, ofNat n = front ++ [last] ∧ isAsciiDigit last = true := by
  have hsome : ofNat n ≠ [] := Nat.toDigits_ne_nil
  constructor
  · rcases List.exists_cons_of_ne_nil hsome with ⟨first, rest, heq⟩
    exact ⟨first, rest, heq, isAsciiDigit_of_mem_ofNat (heq ▸ List.mem_cons_self)⟩
  · have heq := (List.dropLast_concat_getLast hsome).symm
    exact ⟨_, _, heq, isAsciiDigit_of_mem_ofNat (List.getLast_mem hsome)⟩

theorem trimRight_ofNat (t : Text) (n : Nat) (blanks : Text)
    (hblanks : blanks.all isBlank = true) :
    trimRight (t ++ ofNat n ++ blanks) = t ++ ofNat n := by
  rcases (ofNat_ends n).2 with ⟨front, last, heq, hlast⟩
  rw [heq, ← List.append_assoc, List.append_assoc, List.singleton_append,
    trimRight_append _ (isBlank_of_isAsciiDigit hlast) hblanks]

theorem trim_ofNat (n : Nat) : trim (' ' :: ofNat n) = ofNat n := by
  rcases (ofNat_ends n).1 with ⟨first, rest, heq, hfirst⟩
  have hleft : trimLeft (' ' :: ofNat n) = ofNat n := by
    rw [trimLeft, List.dropWhile_cons_of_pos rfl, heq]
    exact trimLeft_cons (isBlank_of_isAsciiDigit hfirst) rest
  have hright := trimRight_ofNat [] n [] rfl
  rw [trim, hleft]
  simpa using hright

theorem signOf_ofNat (n : Nat) : signOf (ofNat n) = (false, ofNat n) := by
  rcases (ofNat_ends n).1 with ⟨first, rest, heq, hfirst⟩
  rw [heq]
  unfold signOf
  split
  · next hminus =>
      cases hminus
      cases hfirst
  · next hplus =>
      cases hplus
      cases hfirst
  · rfl

theorem dropDigitGaps_of_forall {t : Text} (h : forall c, c ∈ t -> isAsciiDigit c = true)
    (previous : Option Char) : dropDigitGaps previous t = some t := by
  induction t generalizing previous with
  | nil =>
      rfl
  | cons c rest ih =>
      have hc : c ≠ '_' := by
        rintro rfl
        cases h '_' List.mem_cons_self
      have hrest := ih fun c' hc' => h c' (List.mem_cons_of_mem c hc')
      simp [dropDigitGaps, hc, hrest]

theorem natOfDigits_ofNat (n : Nat) : natOfDigits (ofNat n) = n := by
  have hread : Nat.ofDigitChars 10 (ofNat n) 0 = n := Nat.ofDigitChars_ten_toDigits
  rw [natOfDigits]
  refine Eq.trans ?_ hread
  rw [Nat.ofDigitChars]
  congr
  funext value c
  rw [Nat.mul_comm]
  rfl

theorem integer?_ofNat (n : Nat) : integer? (' ' :: ofNat n) = some (n : Int) := by
  have hdigits : forall c, c ∈ ofNat n -> isAsciiDigit c = true :=
    fun c hc => isAsciiDigit_of_mem_ofNat hc
  have hascii : Ascii (' ' :: ofNat n) := by
    intro c hc
    rcases List.mem_cons.mp hc with rfl | hc
    · decide
    · exact ofNat_ascii n c hc
  have hsome : (ofNat n).isEmpty = false := by
    rcases (ofNat_ends n).1 with ⟨first, rest, heq, _⟩
    rw [heq]
    rfl
  simp only [integer?, asciiDigits_ascii hascii, trim_ofNat, signOf_ofNat,
    dropDigitGaps_of_forall hdigits, hsome, List.all_eq_true.mpr hdigits, natOfDigits_ofNat,
    Bool.not_true, Bool.or_self, Bool.false_eq_true, if_false]

end Text
end SfcServer
