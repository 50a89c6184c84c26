import SfcServer.Proofs.Offset.Lines

/-!
# Offsets and places lead to each other

The lines of a text are what stands between its line feeds, and a line starts where the lines
before it end, each with its line feed.  A place exists when it is on one of these lines, at most
behind its last character.  Existing places and offsets of the text lead to each other in the same
order.  Any other place, and any other offset, is taken for the nearest that exists: a line that is
missing for an end of the text, a missing column for an end of its line.
-/

namespace SfcServer

namespace Text

def lines (t : Text) : List Text :=
  t.splitOn '\n'

/-- Where a line starts: each line before it takes its characters and a line feed. -/
def lineStart (t : Text) (line : Nat) : Nat :=
  ((t.lines.take line).flatMap fun content => content ++ ['\n']).length

variable {t : Text} {line : Nat} {content : Text}

theorem lines_feed (rest : Text) : lines ('\n' :: rest) = [] :: lines rest := by
  simp [lines, List.splitOn, List.splitOnP_cons_eq_if_modifyHead]

theorem exists_lines_cons {c : Char} (h : c ≠ '\n') (rest : Text) :
    exists first more, lines rest = first :: more ∧ lines (c :: rest) = (c :: first) :: more := by
  have hcons : lines (c :: rest) = (lines rest).modifyHead (List.cons c) := by
    simp [lines, List.splitOn, List.splitOnP_cons_eq_if_modifyHead, h]
  cases hlines : lines rest with
  | nil =>
      exact absurd hlines (List.splitOnP_ne_nil _ rest)
  | cons first more =>
      rw [hlines] at hcons
      exact ⟨first, more, rfl, hcons⟩

theorem lineStart_succ (h : t.lines[line]? = some content) :
    t.lineStart (line + 1) = t.lineStart line + content.length + 1 := by
  rw [lineStart, List.take_add_one, h, List.flatMap_append, List.length_append]
  simp [lineStart, Nat.add_assoc]

theorem lineStart_feed (rest : Text) (line : Nat) :
    lineStart ('\n' :: rest) (line + 1) = rest.lineStart line + 1 := by
  rw [lineStart, lines_feed, List.take_succ_cons, List.flatMap_cons, List.nil_append,
    List.length_append, Nat.add_comm]
  rfl

theorem lineStart_cons {c : Char} (h : c ≠ '\n') (rest : Text) (line : Nat) :
    lineStart (c :: rest) (line + 1) = rest.lineStart (line + 1) + 1 := by
  rcases exists_lines_cons h rest with ⟨first, more, hrest, hcons⟩
  rw [lineStart, lineStart, hrest, hcons, List.take_succ_cons, List.take_succ_cons,
    List.flatMap_cons, List.flatMap_cons, List.cons_append, List.cons_append, List.length_cons]

theorem lineStart_mono (t : Text) {line later : Nat} (h : line ≤ later) :
    t.lineStart line ≤ t.lineStart later := by
  rcases Nat.exists_eq_add_of_le h with ⟨n, rfl⟩
  rw [lineStart, lineStart, List.take_add, List.flatMap_append, List.length_append]
  exact Nat.le_add_right _ _

theorem lineStart_length (t : Text) : t.lineStart t.lines.length = t.length + 1 := by
  rw [lineStart, List.take_length]
  induction t with
  | nil =>
      rfl
  | cons c rest ih =>
      by_cases hc : c = '\n'
      · subst hc
        rw [lines_feed, List.flatMap_cons, List.nil_append, List.length_append, ih,
          List.length_singleton, List.length_cons]
        omega
      · rcases exists_lines_cons hc rest with ⟨first, more, hrest, hcons⟩
        rw [hrest, List.flatMap_cons] at ih
        rw [hcons, List.flatMap_cons, List.cons_append, List.cons_append, List.length_cons, ih,
          List.length_cons]

theorem lineStop_le (h : t.lines[line]? = some content) :
    t.lineStart line + content.length ≤ t.length := by
  have hline := (List.getElem?_eq_some_iff.mp h).1
  have hbound := t.lineStart_mono (Nat.succ_le_of_lt hline)
  rw [lineStart_length, Nat.succ_eq_add_one, lineStart_succ h] at hbound
  omega

theorem lines_length_pos (t : Text) : 0 < t.lines.length :=
  List.length_pos_iff.mpr (List.splitOnP_ne_nil _ t)

end Text

/-- A place on a line of a text, at most behind the last character of the line. -/
inductive Place.ExistsIn (t : Text) : Place -> Prop where
  | intro {line column : Nat} {content : Text} :
      t.lines[line]? = some content ->
      column ≤ content.length ->
      ExistsIn t ⟨line, column⟩

namespace Lines

variable {t : Text} {line column : Nat} {content : Text}

/-!
# The lines of a text
-/

theorem startsFrom_getElem? (offset : Nat) (t : Text) (line : Nat) :
    (offset :: startsFrom offset t)[line]? =
      t.lines[line]?.map fun _ => offset + t.lineStart line := by
  induction t generalizing offset line with
  | nil =>
      cases line with
      | zero =>
          rfl
      | succ line =>
          rfl
  | cons c rest ih =>
      cases line with
      | zero =>
          rw [List.getElem?_eq_getElem (Text.lines_length_pos _)]
          rfl
      | succ line =>
          by_cases hc : c = '\n'
          · subst hc
            rw [List.getElem?_cons_succ, startsFrom, if_pos rfl, ih, Text.lines_feed,
              List.getElem?_cons_succ, Text.lineStart_feed, Nat.add_assoc, Nat.add_comm 1]
          · rcases Text.exists_lines_cons hc rest with ⟨first, more, hrest, hcons⟩
            have hnext := ih (offset + 1) (line + 1)
            rw [List.getElem?_cons_succ] at hnext
            rw [List.getElem?_cons_succ, startsFrom, if_neg hc, hnext, Text.lineStart_cons hc,
              hrest, hcons, List.getElem?_cons_succ, List.getElem?_cons_succ, Nat.add_assoc,
              Nat.add_comm 1]

theorem starts_getElem? (t : Text) (line : Nat) :
    (ofText t).starts[line]? = t.lines[line]?.map fun _ => t.lineStart line := by
  have hstarts := startsFrom_getElem? 0 t line
  simp only [Nat.zero_add] at hstarts
  exact hstarts

theorem stopOf_line (h : t.lines[line]? = some content) :
    (ofText t).stopOf line = t.lineStart line + content.length := by
  have hsucc := Text.lineStart_succ h
  unfold stopOf
  rw [starts_getElem?]
  cases hlater : t.lines[line + 1]? with
  | some later =>
      simp only [Option.map_some]
      omega
  | none =>
      -- The line is the last one, and ends with the text.
      have hline := (List.getElem?_eq_some_iff.mp h).1
      have hcount := List.getElem?_eq_none_iff.mp hlater
      have hlast : line + 1 = t.lines.length := by omega
      have hlength := Text.lineStart_length t
      rw [← hlast, hsucc] at hlength
      simp only [Option.map_none]
      exact (Nat.succ_inj.mp hlength).symm

/-!
# Places that exist
-/

theorem lies_of_column (h : t.lines[line]? = some content) (hcolumn : column ≤ content.length) :
    (ofText t).Lies (t.lineStart line + column) line (t.lineStart line) := by
  constructor
  · rw [starts_getElem?, h]
    rfl
  · exact Nat.le_add_right _ _
  · rw [stopOf_line h]
    exact Nat.add_le_add_left hcolumn _

theorem Lies.placeAt {offset start : Nat} (h : (ofText t).Lies offset line start)
    (hle : offset ≤ t.length) : (ofText t).placeAt offset = ⟨line, offset - start⟩ := by
  rcases exists_lies t hle with ⟨other, begin, hother, hplace⟩
  have hsame : other = line :=
    Nat.le_antisymm (hother.line_le h (Nat.le_refl _)) (h.line_le hother (Nat.le_refl _))
  subst hsame
  cases h.starts.symm.trans hother.starts
  exact hplace

theorem placeAt_column (h : t.lines[line]? = some content) (hcolumn : column ≤ content.length) :
    (ofText t).placeAt (t.lineStart line + column : Nat) = ⟨line, column⟩ := by
  have hstop := Text.lineStop_le h
  rw [(lies_of_column h hcolumn).placeAt (by omega)]
  congr 1
  omega

theorem offsetAt_line (h : t.lines[line]? = some content) (column : Int) :
    ((ofText t).offsetAt ⟨line, column⟩ : Int) =
      t.lineStart line + max 0 (min column content.length) := by
  have hline : ¬ (line : Int) < 0 := by omega
  rw [offsetAt, if_neg hline, Int.toNat_natCast, starts_getElem?, h, Option.map_some, stopOf_line h]
  simp only
  omega

theorem offsetAt_column (h : t.lines[line]? = some content) (hcolumn : column ≤ content.length) :
    (ofText t).offsetAt ⟨line, column⟩ = t.lineStart line + column := by
  have hoffset := offsetAt_line h column
  omega

/-!
# Places that do not exist
-/

theorem offsetAt_before {p : Place} (h : p.line < 0) : (ofText t).offsetAt p = 0 :=
  if_pos h

theorem offsetAt_behind {p : Place} (h : (t.lines.length : Int) ≤ p.line) :
    (ofText t).offsetAt p = t.length := by
  have hline : ¬ p.line < 0 := by omega
  have hnone : t.lines[p.line.toNat]? = none := List.getElem?_eq_none_iff.mpr (by omega)
  rw [offsetAt, if_neg hline, starts_getElem?, hnone]
  rfl

/-- Every place is taken for one that exists, on the line that comes nearest to its own. -/
theorem offsetAt_nearest (t : Text) (p : Place) :
    exists (line column : Nat) (content : Text), t.lines[line]? = some content ∧
      column ≤ content.length ∧ (line : Int) = max 0 (min p.line (t.lines.length - 1)) ∧
      (ofText t).offsetAt p = t.lineStart line + column := by
  have hpos := Text.lines_length_pos t
  by_cases hbefore : p.line < 0
  · refine ⟨0, 0, _, List.getElem?_eq_getElem hpos, Nat.zero_le _, by omega, ?_⟩
    exact offsetAt_before hbefore
  · by_cases hbehind : (t.lines.length : Int) ≤ p.line
    · have hlast := List.getElem?_eq_getElem (show t.lines.length - 1 < t.lines.length by omega)
      refine ⟨t.lines.length - 1, _, _, hlast, Nat.le_refl _, by omega, ?_⟩
      have hlength := Text.lineStart_length t
      have hsucc := Text.lineStart_succ hlast
      rw [Nat.sub_add_cancel hpos] at hsucc
      rw [offsetAt_behind hbehind]
      omega
    · rcases p with ⟨wanted, column⟩
      simp only at hbefore hbehind ⊢
      obtain ⟨line, rfl⟩ : exists line : Nat, wanted = line := ⟨wanted.toNat, by omega⟩
      have hcontent := List.getElem?_eq_getElem (show line < t.lines.length by omega)
      have hoffset := offsetAt_line hcontent column
      exact ⟨line, (max 0 (min column (t.lines[line].length))).toNat, _, hcontent, by omega,
        by omega, by omega⟩

/-!
# Offsets and places
-/

theorem placeAt_clamp (l : Lines) (offset : Int) :
    l.placeAt (l.clamp offset) = l.placeAt offset := by
  have hclamp : l.clamp (l.clamp offset) = l.clamp offset := by
    unfold clamp
    omega
  simp only [placeAt, hclamp]

/-- Places come in the order of their offsets, also where these lie outside of the text. -/
theorem placeAt_ascends (t : Text) {first last : Int} (h : first ≤ last) :
    ((ofText t).placeAt first).NotAfter ((ofText t).placeAt last) := by
  have hsize : (ofText t).size = t.length := rfl
  rw [← placeAt_clamp _ first, ← placeAt_clamp _ last]
  apply placeAt_notAfter t
  · unfold clamp
    omega
  · unfold clamp
    omega

theorem offsetAt_le (t : Text) (p : Place) : (ofText t).offsetAt p ≤ t.length := by
  rcases offsetAt_nearest t p with ⟨line, column, content, hcontent, hcolumn, _, hoffset⟩
  have hstop := Text.lineStop_le hcontent
  omega

theorem offsetAt_ascends (t : Text) {p q : Place} (h : p.NotAfter q) :
    (ofText t).offsetAt p ≤ (ofText t).offsetAt q := by
  by_cases hbefore : p.line < 0
  · rw [offsetAt_before hbefore]
    exact Nat.zero_le _
  · by_cases hbehind : (t.lines.length : Int) ≤ q.line
    · rw [offsetAt_behind hbehind]
      exact offsetAt_le t p
    · -- Both lines exist.
      rcases p with ⟨line, column⟩
      rcases q with ⟨later, other⟩
      simp only [Place.NotAfter] at hbefore hbehind h
      obtain ⟨line, rfl⟩ : exists k : Nat, line = k := ⟨line.toNat, by omega⟩
      obtain ⟨later, rfl⟩ : exists k : Nat, later = k := ⟨later.toNat, by omega⟩
      have hline := List.getElem?_eq_getElem (show line < t.lines.length by omega)
      have hlater := List.getElem?_eq_getElem (show later < t.lines.length by omega)
      have hoffset := offsetAt_line hline column
      have hother := offsetAt_line hlater other
      rcases h with hlt | ⟨hsame, hcolumns⟩
      · have hstart := t.lineStart_mono (show line + 1 ≤ later by omega)
        rw [Text.lineStart_succ hline] at hstart
        omega
      · cases Int.ofNat_inj.mp hsame
        omega

/-- How a text is addressed by offsets and by places. -/
structure Addresses (l : Lines) (t : Text) : Prop where
  offset_place : forall offset : Int, 0 ≤ offset -> offset ≤ t.length ->
    (l.offsetAt (l.placeAt offset) : Int) = offset
  place_before : forall offset : Int, offset ≤ 0 -> l.placeAt offset = l.placeAt 0
  place_behind : forall offset : Int, t.length ≤ offset -> l.placeAt offset = l.placeAt t.length
  offset_le : forall p, l.offsetAt p ≤ t.length
  offset_before : forall p : Place, p.line < 0 -> l.offsetAt p = 0
  offset_behind : forall p : Place, t.lines.length ≤ p.line -> l.offsetAt p = t.length
  offset_line : forall (line : Nat) (content : Text) (column : Int),
    t.lines[line]? = some content ->
    (l.offsetAt ⟨line, column⟩ : Int) = t.lineStart line + max 0 (min column content.length)
  line_nearest : forall p,
    (l.placeAt (l.offsetAt p)).line = max 0 (min p.line (t.lines.length - 1))
  place_offset : forall p, p.ExistsIn t -> l.placeAt (l.offsetAt p) = p
  places_ascend : forall first last : Int, first ≤ last ->
    (l.placeAt first).NotAfter (l.placeAt last)
  offsets_ascend : forall p q : Place, p.NotAfter q -> l.offsetAt p ≤ l.offsetAt q

/--
Whatever a text holds, its offsets and its places lead to each other in the same order, and what
lies outside of it is taken for the nearest that does not.
-/
theorem ofText_addresses (t : Text) : (ofText t).Addresses t := by
  have hsize : (ofText t).size = t.length := rfl
  constructor
  · intro offset hstart hstop
    obtain ⟨k, rfl⟩ : exists k : Nat, offset = k := ⟨offset.toNat, by omega⟩
    rw [offsetAt_placeAt t (Int.ofNat_le.mp hstop)]
  · intro offset hle
    rw [← placeAt_clamp, clamp]
    congr 1
    omega
  · intro offset hle
    rw [← placeAt_clamp, clamp]
    congr 1
    omega
  · exact offsetAt_le t
  · exact fun _ => offsetAt_before
  · exact fun _ => offsetAt_behind
  · exact fun _ _ column hcontent => offsetAt_line hcontent column
  · intro p
    rcases offsetAt_nearest t p with ⟨line, column, content, hcontent, hcolumn, hline, hoffset⟩
    rw [hoffset, placeAt_column hcontent hcolumn, ← hline]
  · intro p hp
    rcases hp with ⟨hcontent, hcolumn⟩
    rw [offsetAt_column hcontent hcolumn, placeAt_column hcontent hcolumn]
  · exact fun _ _ hle => placeAt_ascends t hle
  · exact fun _ _ hle => offsetAt_ascends t hle

/-- A column behind a line is taken for the end of that line, a line behind the text for its end. -/
example : (ofText "a\n\nbc\n".toList).offsetAt ⟨2, 7⟩ = 5 ∧
    (ofText "a\n\nbc\n".toList).offsetAt ⟨4, 0⟩ = 6 ∧
    (ofText "a\n\nbc\n".toList).placeAt 6 = ⟨3, 0⟩ := by
  decide

end Lines
end SfcServer
