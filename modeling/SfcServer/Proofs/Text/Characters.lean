import SfcServer.Proofs.Text.Ascii
import SfcServer.Proofs.Text.Parts

/-!
# Characters and their bytes

Bytes that were written for a text are read as this text, and so are those of any part of it: the
bytes between two places of the encoding where characters begin are the encoding of what stands
between these characters.  The table of indices leads from each byte back to its character, and
from the end of the bytes to the end of the text.
-/

namespace SfcServer
namespace Utf8

/-!
# Reading what was written
-/

section Reading

variable {value owed low high bits : Nat}

theorem toNat_tail (h : bits < 64) : (UInt8.ofNat (bits + 0x80)).toNat = bits + 0x80 := by
  rw [UInt8.toNat_ofNat']
  omega

/-- A byte that adds its six bits to a character and is not the last one. -/
theorem readFrom_tail (h : bits < 64) (hlow : low ≤ bits + 0x80) (hhigh : bits + 0x80 ≤ high)
    (rest : Bytes) :
    readFrom (some ⟨value, owed + 1, low, high⟩) (UInt8.ofNat (bits + 0x80) :: rest) =
      readFrom (some ⟨value * 64 + bits, owed, 0x80, 0xBF⟩) rest := by
  rw [readFrom, toNat_tail h]
  simp only [hlow, hhigh, and_self, if_true, Nat.add_sub_cancel]

theorem readFrom_last (h : bits < 64) (hlow : low ≤ bits + 0x80) (hhigh : bits + 0x80 ≤ high)
    (rest : Bytes) :
    readFrom (some ⟨value, 0, low, high⟩) (UInt8.ofNat (bits + 0x80) :: rest) =
      some (Char.ofNat (value * 64 + bits)) :: readFrom none rest := by
  rw [readFrom, toNat_tail h]
  simp only [hlow, hhigh, and_self, if_true, Nat.add_sub_cancel]

theorem readFrom_lead {n : Nat} {p : Begun} (hbyte : n < 256) (hlead : lead n = .begun p)
    (rest : Bytes) :
    readFrom none (UInt8.ofNat n :: rest) = readFrom (some p) rest := by
  have hnat : (UInt8.ofNat n).toNat = n := by
    rw [UInt8.toNat_ofNat']
    omega
  rw [readFrom, hnat, hlead]

end Reading

theorem lead_two {n : Nat} (hlow : 2 ≤ n) (hhigh : n < 0x20) :
    lead (n + 0xC0) = .begun ⟨n, 0, 0x80, 0xBF⟩ := by
  rw [lead, if_neg (by omega), if_neg (by omega), if_pos (by omega), Nat.add_sub_cancel]

theorem lead_three {n : Nat} (hhigh : n < 0x10) :
    lead (n + 0xE0) =
      .begun ⟨n, 1, if n = 0 then 0xA0 else 0x80, if n = 13 then 0x9F else 0xBF⟩ := by
  rw [lead, if_neg (by omega), if_neg (by omega), if_neg (by omega), if_pos (by omega),
    Nat.add_sub_cancel]
  simp only [Nat.add_eq_right, Nat.reduceEqDiff]

theorem lead_four {n : Nat} (hhigh : n < 5) :
    lead (n + 0xF0) =
      .begun ⟨n, 2, if n = 0 then 0x90 else 0x80, if n = 4 then 0x8F else 0xBF⟩ := by
  rw [lead, if_neg (by omega), if_neg (by omega), if_neg (by omega), if_neg (by omega),
    if_pos (by omega), Nat.add_sub_cancel]
  simp only [Nat.add_eq_right, Nat.reduceEqDiff]

/-!
## The bytes of a character
-/

variable {c : Char}

theorem utf8EncodeChar_two (hlow : 0x80 ≤ c.toNat) (hhigh : c.toNat < 0x800) :
    String.utf8EncodeChar c =
      [UInt8.ofNat (c.toNat / 64 + 0xC0), UInt8.ofNat (c.toNat % 64 + 0x80)] := by
  change (if c.toNat ≤ 0x7F then _ else if c.toNat ≤ 0x7FF then _ else _) = _
  have hlead : c.toNat / 64 % 0x20 = c.toNat / 64 := Nat.mod_eq_of_lt (by omega)
  rw [if_neg (by omega), if_pos (by omega)]
  change [UInt8.ofNat (c.toNat / 64 % 0x20 + 0xC0), _] = _
  rw [hlead]
  rfl

theorem utf8EncodeChar_three (hlow : 0x800 ≤ c.toNat) (hhigh : c.toNat < 0x10000) :
    String.utf8EncodeChar c =
      [UInt8.ofNat (c.toNat / 4096 + 0xE0), UInt8.ofNat (c.toNat / 64 % 64 + 0x80),
        UInt8.ofNat (c.toNat % 64 + 0x80)] := by
  change (if c.toNat ≤ 0x7F then _ else if c.toNat ≤ 0x7FF then _ else
    if c.toNat ≤ 0xFFFF then _ else _) = _
  have hlead : c.toNat / 4096 % 0x10 = c.toNat / 4096 := Nat.mod_eq_of_lt (by omega)
  rw [if_neg (by omega), if_neg (by omega), if_pos (by omega)]
  change [UInt8.ofNat (c.toNat / 4096 % 0x10 + 0xE0), _, _] = _
  rw [hlead]
  rfl

theorem utf8EncodeChar_four (hlow : 0x10000 ≤ c.toNat) (hhigh : c.toNat < 0x110000) :
    String.utf8EncodeChar c =
      [UInt8.ofNat (c.toNat / 262144 + 0xF0), UInt8.ofNat (c.toNat / 4096 % 64 + 0x80),
        UInt8.ofNat (c.toNat / 64 % 64 + 0x80), UInt8.ofNat (c.toNat % 64 + 0x80)] := by
  change (if c.toNat ≤ 0x7F then _ else if c.toNat ≤ 0x7FF then _ else
    if c.toNat ≤ 0xFFFF then _ else _) = _
  have hlead : c.toNat / 262144 % 0x08 = c.toNat / 262144 := Nat.mod_eq_of_lt (by omega)
  rw [if_neg (by omega), if_neg (by omega), if_neg (by omega)]
  change [UInt8.ofNat (c.toNat / 262144 % 0x08 + 0xF0), _, _, _] = _
  rw [hlead]
  rfl

theorem readFrom_encodeChar (c : Char) (rest : Bytes) :
    readFrom none (String.utf8EncodeChar c ++ rest) = some c :: readFrom none rest := by
  have hvalid : c.toNat < 0xD800 ∨ 0xDFFF < c.toNat ∧ c.toNat < 0x110000 := c.valid
  have hchar (n : Nat) (h : n = c.toNat) : Char.ofNat n = c := by
    rw [h, Char.ofNat_toNat]
  by_cases hone : c.toNat < 0x80
  · have hascii := readFrom_encode_ascii (t := [c]) (by simpa [Text.Ascii] using hone) rest
    simpa [encode] using hascii
  by_cases htwo : c.toNat < 0x800
  · rw [utf8EncodeChar_two (by omega) htwo]
    simp only [List.cons_append, List.nil_append]
    rw [readFrom_lead (by omega) (lead_two (by omega) (by omega)),
      readFrom_last (by omega) (by omega) (by omega), hchar _ (by omega)]
  by_cases hthree : c.toNat < 0x10000
  · rw [utf8EncodeChar_three (by omega) hthree]
    simp only [List.cons_append, List.nil_append]
    rw [readFrom_lead (by omega) (lead_three (by omega)),
      readFrom_tail (by omega) (by split <;> omega) (by split <;> omega),
      readFrom_last (by omega) (by omega) (by omega), hchar _ (by omega)]
  · rw [utf8EncodeChar_four (by omega) (by omega)]
    simp only [List.cons_append, List.nil_append]
    rw [readFrom_lead (by omega) (lead_four (by omega)),
      readFrom_tail (by omega) (by split <;> omega) (by split <;> omega),
      readFrom_tail (by omega) (by omega) (by omega),
      readFrom_last (by omega) (by omega) (by omega), hchar _ (by omega)]

theorem read_encode (t : Text) : read (encode t) = t.map some := by
  unfold read
  induction t with
  | nil =>
      rfl
  | cons c t ih =>
      rw [encode_cons, readFrom_encodeChar, ih]
      rfl

theorem decode?_encode (t : Text) : decode? (encode t) = some t := by
  rw [decode?, read_encode]
  induction t with
  | nil =>
      rfl
  | cons c t ih =>
      rw [List.map_cons, List.mapM_cons, ih]
      rfl

/-!
# Where characters begin
-/

variable {t : Text} {index byte : Nat}

theorem byteAt_zero (t : Text) : byteAt t 0 = 0 :=
  rfl

theorem byteAt_cons (c : Char) (rest : Text) (index : Nat) :
    byteAt (c :: rest) (index + 1) =
      (String.utf8EncodeChar c).length + byteAt rest index := by
  rw [byteAt, List.take_succ_cons, encode_cons, List.length_append, byteAt]

theorem byteAt_length (t : Text) : byteAt t t.length = (encode t).length := by
  rw [byteAt, List.take_length]

/-- The bytes up to a character are those of the text in front of it. -/
theorem take_byteAt (t : Text) (index : Nat) :
    (encode t).take (byteAt t index) = encode (t.take index) := by
  have hsplit : encode t = encode (t.take index) ++ encode (t.drop index) := by
    rw [← encode_append, List.take_append_drop]
  rw [byteAt, hsplit, List.take_left]

theorem encode_slice (t : Text) {start stop : Nat} (h : start ≤ stop) :
    ((encode t).take (byteAt t stop)).drop (byteAt t start) = encode (t.slice start stop) := by
  have hfront : t.take start = (t.take stop).take start := by
    rw [List.take_take, Nat.min_eq_left h]
  have hsplit : encode (t.take stop) = encode (t.take start) ++ encode (t.slice start stop) := by
    rw [hfront, Text.slice, ← encode_append, List.take_append_drop]
  rw [take_byteAt, hsplit, byteAt, List.drop_left]

theorem byteAt_mono (t : Text) {first last : Nat} (h : first ≤ last) :
    byteAt t first ≤ byteAt t last := by
  have hfront : t.take first = (t.take last).take first := by
    rw [List.take_take, Nat.min_eq_left h]
  rw [byteAt, byteAt, hfront]
  have hprefix := take_byteAt (t.take last) first
  rw [← hprefix]
  exact List.length_take_le' _ _

theorem byteAt_lt_succ (h : index < t.length) : byteAt t index < byteAt t (index + 1) := by
  have hpos := t[index].utf8Size_pos
  rw [byteAt, byteAt, List.take_succ_eq_append_getElem h, encode_append, List.length_append,
    encode_cons, List.length_append, String.length_utf8EncodeChar]
  omega

theorem exists_byteAt (h : byte < (encode t).length) :
    exists index, index < t.length ∧ byteAt t index ≤ byte ∧ byte < byteAt t (index + 1) := by
  induction t generalizing byte with
  | nil =>
      cases h
  | cons c rest ih =>
      rw [encode_cons, List.length_append] at h
      by_cases hfirst : byte < (String.utf8EncodeChar c).length
      · refine ⟨0, Nat.zero_lt_succ _, Nat.zero_le _, ?_⟩
        rw [byteAt_cons, byteAt_zero]
        exact hfirst
      · have hrest : byte - (String.utf8EncodeChar c).length < (encode rest).length := by omega
        rcases ih hrest with ⟨index, hindex, hlow, hhigh⟩
        refine ⟨index + 1, Nat.succ_lt_succ hindex, ?_, ?_⟩
        · rw [byteAt_cons]
          omega
        · rw [byteAt_cons]
          omega

/-!
# The table of indices
-/

theorem length_indicesFrom (first : Nat) (t : Text) :
    (indicesFrom first t).length = (encode t).length + 1 := by
  induction t generalizing first with
  | nil =>
      rfl
  | cons c rest ih =>
      rw [indicesFrom, List.length_append, List.length_replicate, ih, encode_cons,
        List.length_append, Nat.add_assoc]

theorem indicesFrom_getElem? (first : Nat) (hindex : index < t.length)
    (hlow : byteAt t index ≤ byte) (hhigh : byte < byteAt t (index + 1)) :
    (indicesFrom first t)[byte]? = some (first + index) := by
  induction t generalizing first index byte with
  | nil =>
      cases hindex
  | cons c rest ih =>
      rw [indicesFrom]
      cases index with
      | zero =>
          rw [byteAt_cons, byteAt_zero, Nat.add_zero] at hhigh
          rw [List.getElem?_append_left (by rw [List.length_replicate]; exact hhigh),
            List.getElem?_replicate_of_lt hhigh]
          rfl
      | succ index =>
          rw [byteAt_cons] at hlow hhigh
          rw [List.getElem?_append_right (by rw [List.length_replicate]; omega),
            List.length_replicate, ih (first + 1) (Nat.lt_of_succ_lt_succ hindex) (by omega)
              (by omega), Nat.add_right_comm, Nat.add_assoc]

theorem indicesFrom_getElem?_length (first : Nat) (t : Text) :
    (indicesFrom first t)[(encode t).length]? = some (first + t.length) := by
  induction t generalizing first with
  | nil =>
      rfl
  | cons c rest ih =>
      rw [indicesFrom, encode_cons, List.length_append,
        List.getElem?_append_right (by rw [List.length_replicate]; omega),
        List.length_replicate, Nat.add_sub_cancel_left, ih, List.length_cons]
      congr 1
      omega

/-!
# Text of one byte a character
-/

theorem length_le_length_encode (t : Text) : t.length ≤ (encode t).length := by
  induction t with
  | nil =>
      exact Nat.le_refl _
  | cons c rest ih =>
      have hpos := c.utf8Size_pos
      rw [encode_cons, List.length_append, String.length_utf8EncodeChar, List.length_cons]
      omega

theorem length_encode_ascii (h : t.Ascii) : (encode t).length = t.length := by
  induction t with
  | nil =>
      rfl
  | cons c rest ih =>
      rw [encode_cons, utf8EncodeChar_ascii (h c List.mem_cons_self), List.length_append,
        ih fun d hd => h d (List.mem_cons_of_mem c hd), List.length_singleton, List.length_cons,
        Nat.add_comm]

/-- There are as many bytes as characters exactly when every character is one byte. -/
theorem length_encode_eq_iff (t : Text) : (encode t).length = t.length ↔ t.Ascii := by
  refine ⟨fun h => ?_, length_encode_ascii⟩
  induction t with
  | nil =>
      intro c hc
      cases hc
  | cons c rest ih =>
      have hpos := c.utf8Size_pos
      have hrest := length_le_length_encode rest
      rw [encode_cons, List.length_append, String.length_utf8EncodeChar, List.length_cons] at h
      have hsmall : c.toNat ≤ 127 := Char.utf8Size_eq_one_iff.mp (by omega)
      intro d hd
      rcases List.mem_cons.mp hd with rfl | hd
      · exact Nat.lt_succ_of_le hsmall
      · exact ih (by omega) d hd

theorem byteAt_ascii (h : t.Ascii) (hindex : index ≤ t.length) : byteAt t index = index := by
  rw [byteAt, length_encode_ascii fun c hc => h c (List.mem_of_mem_take hc), List.length_take,
    Nat.min_eq_left hindex]

/-!
# From bytes to characters
-/

theorem indices_characterAt (h : byte ≤ (encode t).length) :
    (indicesFrom 0 t)[byte]? = some (characterAt t byte) := by
  unfold characterAt
  split
  · next hlength =>
      have hascii := (length_encode_eq_iff t).mp hlength
      rcases Nat.lt_or_eq_of_le h with hlt | heq
      · have hlow := byteAt_ascii hascii (show byte ≤ t.length by omega)
        have hhigh := byteAt_ascii hascii (show byte + 1 ≤ t.length by omega)
        rw [indicesFrom_getElem? 0 (by omega) (Nat.le_of_eq hlow) (by omega), Nat.zero_add]
      · rw [heq, indicesFrom_getElem?_length, Nat.zero_add, hlength]
  · have hmin : min byte ((indicesFrom 0 t).length - 1) = byte := by
      rw [length_indicesFrom]
      omega
    have hlt : byte < (indicesFrom 0 t).length := by
      rw [length_indicesFrom]
      omega
    simp only [hmin, List.getD_eq_getElem?_getD, List.getElem?_eq_getElem hlt, Option.getD_some]

theorem characterAt_of_within (hindex : index < t.length) (hlow : byteAt t index ≤ byte)
    (hhigh : byte < byteAt t (index + 1)) : characterAt t byte = index := by
  have hle := byteAt_mono t (show index + 1 ≤ t.length from hindex)
  rw [byteAt_length] at hle
  have htable := indices_characterAt (show byte ≤ (encode t).length by omega)
  rw [indicesFrom_getElem? 0 hindex hlow hhigh, Nat.zero_add] at htable
  exact (Option.some.inj htable).symm

theorem characterAt_length (t : Text) : characterAt t (encode t).length = t.length := by
  have htable := indices_characterAt (t := t) (Nat.le_refl _)
  rw [indicesFrom_getElem?_length, Nat.zero_add] at htable
  exact (Option.some.inj htable).symm

/-- The table of indices, or what stands in for it, leads from bytes to characters. -/
structure Indexes (t : Text) (indexOf : Nat -> Nat) : Prop where
  begins : forall index, index ≤ t.length -> indexOf (byteAt t index) = index
  inside : forall index byte, index < t.length -> byteAt t index < byte ->
    byte < byteAt t (index + 1) -> indexOf byte = index
  ascends : forall first last, first ≤ last -> last ≤ (encode t).length ->
    indexOf first ≤ indexOf last
  decodes : forall start stop, start ≤ stop -> stop ≤ t.length ->
    decode? (((encode t).take (byteAt t stop)).drop (byteAt t start)) =
      some (t.slice (indexOf (byteAt t start)) (indexOf (byteAt t stop)))
  table : forall byte, byte ≤ (encode t).length ->
    (indicesFrom 0 t)[byte]? = some (indexOf byte)
  /-- The indices of a text in ASCII are the bytes themselves. -/
  ascii : t.Ascii -> forall byte, byte ≤ (encode t).length -> indexOf byte = byte

theorem characterAt_byteAt (h : index ≤ t.length) : characterAt t (byteAt t index) = index := by
  rcases Nat.lt_or_eq_of_le h with hlt | heq
  · exact characterAt_of_within hlt (Nat.le_refl _) (byteAt_lt_succ hlt)
  · rw [heq, byteAt_length, characterAt_length]

theorem characterAt_mono {first last : Nat} (h : first ≤ last) (hlast : last ≤ (encode t).length) :
    characterAt t first ≤ characterAt t last := by
  rcases Nat.lt_or_eq_of_le hlast with hlt | heq
  · rcases exists_byteAt hlt with ⟨later, hlater, hlow, hhigh⟩
    rcases exists_byteAt (Nat.lt_of_le_of_lt h hlt) with ⟨index, hindex, hfrom, hto⟩
    rw [characterAt_of_within hlater hlow hhigh, characterAt_of_within hindex hfrom hto]
    -- A character that comes later begins behind the byte.
    refine Nat.le_of_not_lt fun hbefore => ?_
    have hmono := byteAt_mono t (show later + 1 ≤ index from hbefore)
    omega
  · rcases Nat.lt_or_eq_of_le (Nat.le_trans h hlast) with hlt | hend
    · rcases exists_byteAt hlt with ⟨index, hindex, hfrom, hto⟩
      rw [heq, characterAt_length, characterAt_of_within hindex hfrom hto]
      exact Nat.le_of_lt hindex
    · exact Nat.le_of_eq (congrArg (characterAt t) (hend.trans heq.symm))

/--
A byte of a text leads to its character and the end of the bytes to the end of the text, so that
the bytes between two characters are read as what stands between the characters they lead to.
-/
theorem characterAt_indexes (t : Text) : Indexes t (characterAt t) where
  begins := fun _ => characterAt_byteAt
  inside := fun _ _ hindex hlow hhigh => characterAt_of_within hindex (Nat.le_of_lt hlow) hhigh
  ascends := fun _ _ => characterAt_mono
  decodes := by
    intro start stop h hstop
    rw [encode_slice t h, decode?_encode, characterAt_byteAt hstop,
      characterAt_byteAt (Nat.le_trans h hstop)]
  table := fun _ => indices_characterAt
  ascii := by
    intro hascii byte _
    rw [characterAt, if_pos (length_encode_ascii hascii)]

/-- Characters of one, two, three and four bytes. -/
example : (List.range 11).map (characterAt "aé€😀".toList) = [0, 1, 1, 2, 2, 2, 3, 3, 3, 3, 4] := by
  decide +kernel

end Utf8
end SfcServer
