import SfcServer.Proofs.Template.Balance
import SfcServer.Proofs.Template.Location

/-!
# Interpolations and braces inside of them

The collector reads an interpolation from its first opening braces to the first closing ones after
them, and takes opening braces in between for a part of it.  The region of an offset goes by the
nearest braces on both sides instead, so that braces which open once more behind an offset leave
it outside.  Here the two are compared at every offset of an interpolation.
-/

namespace SfcServer

variable {t : Text} {offset : Nat}

/-!
# Pairs
-/

namespace Text

theorem PairAt.indexOf?_le {c : Char} {t : Text} {i : Nat} (h : PairAt c t i) :
    exists j, indexOf? [c, c] t = some j ∧ j ≤ i := by
  induction t generalizing i with
  | nil =>
      rcases h with ⟨rest, hdrop⟩
      rw [List.drop_nil] at hdrop
      cases hdrop
  | cons d rest ih =>
      rw [indexOf?]
      split
      · exact ⟨0, rfl, Nat.zero_le _⟩
      · rename_i hlead
        cases i with
        | zero =>
            rcases h with ⟨more, hdrop⟩
            rw [List.drop_zero] at hdrop
            rw [hdrop] at hlead
            simp [List.isPrefixOf] at hlead
        | succ i =>
            rcases ih (pairAt_succ.mp h) with ⟨j, hj, hle⟩
            rw [hj]
            exact ⟨j + 1, rfl, by omega⟩

theorem indexOf?_eq_none {c : Char} {t : Text} :
    indexOf? [c, c] t = none ↔ forall i, ¬ PairAt c t i := by
  constructor
  · intro hnone i hpair
    rcases hpair.indexOf?_le with ⟨j, hj, _⟩
    rw [hnone] at hj
    cases hj
  · intro hno
    cases hindex : indexOf? [c, c] t with
    | none =>
        rfl
    | some i =>
        exact absurd (indexOf?_pair hindex) (hno i)

theorem StandsAt.of_drop {t part : Text} {start : Nat} (h : t.drop start = part)
    (hpart : part ≠ []) : t.StandsAt start part := by
  have hlength := congrArg List.length h
  have hpos := List.length_pos_iff.mpr hpart
  rw [List.length_drop] at hlength
  refine ⟨t.take start, [], ?_, ?_⟩
  · rw [List.append_nil, ← h, List.take_append_drop]
  · rw [List.length_take]
    omega

theorem pairAt_drop {c : Char} {t : Text} {start i : Nat} :
    PairAt c (t.drop start) i ↔ PairAt c t (start + i) := by
  unfold PairAt
  rw [List.drop_drop]

theorem pairAt_slice {c : Char} {t : Text} {start stop i : Nat} :
    PairAt c (t.slice start stop) i ↔ PairAt c t (start + i) ∧ start + i + 2 ≤ stop := by
  unfold slice
  rw [pairAt_drop]
  constructor
  · intro h
    exact h.of_take
  · intro ⟨h, hle⟩
    exact h.take hle

theorem PairAt.getElem? {c : Char} {t : Text} {i : Nat} (h : PairAt c t i) :
    t[i]? = some c ∧ t[i + 1]? = some c := by
  rcases h with ⟨rest, hdrop⟩
  have hfirst := congrArg (fun s : Text => s[0]?) hdrop
  have hsecond := congrArg (fun s : Text => s[1]?) hdrop
  simp only [List.getElem?_drop, Nat.add_zero, List.getElem?_cons_zero,
    List.getElem?_cons_succ] at hfirst hsecond
  exact ⟨hfirst, hsecond⟩

/-- Opening braces, and the first closing ones after them. -/
structure Paired (t : Text) (opened closed : Nat) : Prop where
  opens : PairAt '\x7b' t opened
  closes : PairAt '\x7d' t closed
  le : opened + 2 ≤ closed
  first : forall j, opened < j -> j < closed -> ¬ PairAt '\x7d' t j

namespace Paired

variable {t : Text} {opened closed i : Nat}

theorem closed_ne (h : Paired t opened closed) : t[closed]? ≠ some '\x7b' := by
  rw [h.closes.getElem?.1]
  decide

theorem indexOf?_close (h : Paired t opened closed) (hlow : opened < i) (hhigh : i ≤ closed) :
    indexOf? ['\x7d', '\x7d'] (t.drop i) = some (closed - i) := by
  have hpair : PairAt '\x7d' (t.drop i) (closed - i) := by
    rw [pairAt_drop, Nat.add_sub_cancel' hhigh]
    exact h.closes
  rcases hpair.indexOf?_le with ⟨j, hj, hle⟩
  have hat := pairAt_drop.mp (indexOf?_pair hj)
  have hnot : ¬ i + j < closed := by
    intro hlt
    exact h.first (i + j) (by omega) hlt hat
  rw [hj]
  congr 1
  omega

end Paired

end Text

namespace Region

/-- Braces that open before an index and close behind it hold it, unless others open first. -/
theorem inInterpolation_of_nearest {content : Text} {i opened closed : Nat}
    (hopened : Text.lastIndexOf? "\x7b\x7b".toList (content.take i) = some opened)
    (hclosed : Text.indexOf? "\x7d\x7d".toList (content.drop i) = some closed)
    (hunclosed : forall k, Text.lastIndexOf? "\x7d\x7d".toList (content.take i) = some k ->
      k ≤ opened) :
    inInterpolation content i = true ↔
      forall k, Text.indexOf? "\x7b\x7b".toList (content.drop i) = some k -> closed < k := by
  unfold inInterpolation
  simp only [hopened, hclosed, Bool.and_eq_true, Bool.not_eq_true']
  constructor
  · intro ⟨_, hafter⟩ k hk
    rw [hk] at hafter
    exact Nat.lt_of_not_le (of_decide_eq_false hafter)
  · intro hbehind
    constructor
    · cases hk : Text.lastIndexOf? "\x7d\x7d".toList (content.take i) with
      | none =>
          rfl
      | some k =>
          exact decide_eq_false (Nat.not_lt_of_le (hunclosed k hk))
    · cases hk : Text.indexOf? "\x7b\x7b".toList (content.drop i) with
      | none =>
          rfl
      | some k =>
          exact decide_eq_false (Nat.not_le_of_lt (hbehind k hk))

/-- Between paired braces, an index lies in an interpolation unless braces open behind it. -/
theorem inInterpolation_iff {content : Text} {opened closed i : Nat}
    (h : Text.Paired content opened closed) (hlow : opened + 2 ≤ i) (hhigh : i ≤ closed) :
    inInterpolation content i = true ↔
      forall j, i ≤ j -> j < closed -> ¬ Text.PairAt '\x7b' content j := by
  have hopening : "\x7b\x7b".toList = ['\x7b', '\x7b'] := by decide
  have hclosing : "\x7d\x7d".toList = ['\x7d', '\x7d'] := by decide
  rcases (h.opens.take hlow).le_lastIndexOf? with ⟨last, hlast, hopenedLast⟩
  have hcloses := h.indexOf?_close (i := i) (by omega) hhigh
  have hunclosed : forall k, Text.lastIndexOf? ['\x7d', '\x7d'] (content.take i) = some k ->
      k ≤ last := by
    intro k hk
    have hpair := (Text.lastIndexOf?_pair hk).of_take
    apply Nat.le_of_not_lt
    intro hlt
    exact h.first k (by omega) (by omega) hpair.1
  rw [inInterpolation_of_nearest (by rw [hopening]; exact hlast) (by rw [hclosing]; exact hcloses)
    (by rw [hclosing]; exact hunclosed), hopening]
  constructor
  · intro hbehind j hij hj hpair
    have hdropped : Text.PairAt '\x7b' (content.drop i) (j - i) := by
      rw [Text.pairAt_drop, Nat.add_sub_cancel' hij]
      exact hpair
    rcases hdropped.indexOf?_le with ⟨k, hk, hle⟩
    have hlater := hbehind k hk
    omega
  · intro hno k hk
    have hpair := Text.pairAt_drop.mp (Text.indexOf?_pair hk)
    have hbehind : ¬ i + k < closed := by
      intro hlt
      exact hno (i + k) (by omega) hlt hpair
    have hne : i + k ≠ closed := by
      intro heq
      apply h.closed_ne
      rw [← heq]
      exact hpair.getElem?.1
    omega

end Region

/-!
# The braces of an interpolation
-/

namespace Expression

theorem splitAtClose_first {body inside after : Text}
    (h : splitAtClose body = some (inside, after)) :
    forall j, j < inside.length -> ¬ Text.PairAt '\x7d' body j := by
  fun_induction splitAtClose body generalizing inside after with
  | case1 rest =>
      cases h
      intro j hj
      cases hj
  | case2 c rest hnot ih =>
      rcases Option.map_eq_some_iff.mp h with ⟨⟨before, tail⟩, hsplit, heq⟩
      cases heq
      intro j hj hpair
      cases j with
      | zero =>
          rcases hpair with ⟨more, hdrop⟩
          rw [List.drop_zero] at hdrop
          injection hdrop with hc hrest
          exact hnot more hc hrest
      | succ j =>
          exact ih hsplit j (by simpa using hj) (Text.pairAt_succ.mp hpair)
  | case3 =>
      cases h

/-- An interpolation that is found in a text whose first character stands at `offset`. -/
def FoundIn (offset : Nat) (text : Text) (found : Nat × Text) : Prop :=
  exists start body inside after, text.drop start = '\x7b' :: '\x7b' :: body ∧
    splitAtClose body = some (inside, after) ∧
    found = (offset + start + 2 + (inside.takeWhile Text.isBlank).length, Text.trim inside)

theorem FoundIn.cons {offset : Nat} {rest : Text} {found : Nat × Text}
    (h : FoundIn (offset + 1) rest found) (c : Char) : FoundIn offset (c :: rest) found := by
  rcases h with ⟨start, body, inside, after, hdrop, hsplit, hfound⟩
  refine ⟨start + 1, body, inside, after, hdrop, hsplit, ?_⟩
  rw [hfound, Nat.add_right_comm offset 1 start]
  rfl

theorem interpolationsFrom_foundIn (offset passed : Nat) (text : Text) :
    forall found, found ∈ interpolationsFrom offset passed text -> FoundIn offset text found := by
  fun_induction interpolationsFrom offset passed text with
  | case1 offset passed =>
      intro found hmem
      cases hmem
  | case2 offset passed c rest ih =>
      intro found hmem
      exact (ih found hmem).cons c
  | case3 offset body inside after hsplit ih =>
      intro found hmem
      rcases List.mem_cons.mp hmem with heq | hlater
      · exact ⟨0, body, inside, after, rfl, hsplit, heq⟩
      · exact (ih found hlater).cons '\x7b'
  | case4 offset body hsplit ih =>
      intro found hmem
      exact (ih found hmem).cons '\x7b'
  | case5 offset c rest _ ih =>
      intro found hmem
      exact (ih found hmem).cons c

theorem paired_of_split {text body inside after : Text} {start : Nat}
    (hdrop : text.drop start = '\x7b' :: '\x7b' :: body)
    (hsplit : splitAtClose body = some (inside, after)) :
    Text.Paired text start (start + 2 + inside.length) := by
  rcases splitAtClose_eq hsplit with ⟨run, hbody, _⟩
  have hafter : forall k, text.drop (start + 2 + k) = body.drop k := by
    intro k
    rw [Nat.add_assoc, ← List.drop_drop, hdrop, Nat.add_comm]
    rfl
  have hopen : Text.PairAt '\x7b' text start := ⟨body, hdrop⟩
  refine ⟨hopen, ⟨run ++ after, ?_⟩, by omega, ?_⟩
  · rw [hafter, hbody, List.drop_left]
  · intro j hlow hhigh hpair
    by_cases hsecond : j = start + 1
    · -- The second of the opening braces does not close.
      have hbrace := hpair.getElem?.1
      rw [hsecond, hopen.getElem?.2] at hbrace
      revert hbrace
      decide
    · obtain ⟨k, hk⟩ : exists k, j = start + 2 + k := ⟨j - (start + 2), by omega⟩
      subst hk
      rcases hpair with ⟨rest, hrest⟩
      rw [hafter] at hrest
      exact splitAtClose_first hsplit k (by omega) ⟨rest, hrest⟩

theorem ofContent_paired {token : Token} {x : Expression} (h : x ∈ ofContent token) :
    exists opened closed, Text.Paired token.text opened closed ∧
      token.offset + opened + 2 ≤ x.start ∧ x.start ≤ x.stop ∧ x.stop ≤ token.offset + closed ∧
      forall j, x.stop ≤ token.offset + j -> j < closed ->
        exists c, token.text[j]? = some c ∧ Text.isBlank c = true := by
  rcases List.mem_map.mp h with ⟨found, hmem, hx⟩
  rcases interpolationsFrom_foundIn _ _ _ found hmem with
    ⟨start, body, inside, after, hdrop, hsplit, hfound⟩
  rcases splitAtClose_eq hsplit with ⟨run, hbody, _⟩
  rcases Text.trim_split inside with ⟨blanks, hinside, hblanks⟩
  have hlengths := congrArg List.length hinside
  simp only [List.length_append] at hlengths
  have hstart : x.start = token.offset + start + 2 + (inside.takeWhile Text.isBlank).length := by
    rw [← hx, hfound]
    rfl
  have hstop : x.stop = x.start + (Text.trim inside).length := by
    rw [hstart, ← hx, hfound]
    rfl
  refine ⟨start, start + 2 + inside.length, paired_of_split hdrop hsplit, by omega, by omega,
    by omega, ?_⟩
  intro j hlow hhigh
  have hstands : token.text.StandsAt (start + 2) inside := by
    have hpart : token.text.StandsAt (start + 2) body :=
      (Text.StandsAt.of_drop hdrop (by simp)).tail.tail
    rw [hbody] at hpart
    exact hpart.left
  rw [hinside] at hstands
  obtain ⟨k, hk⟩ : exists k, j = start + 2 + (inside.takeWhile Text.isBlank).length +
      (Text.trim inside).length + k :=
    ⟨j - (start + 2 + (inside.takeWhile Text.isBlank).length + (Text.trim inside).length),
      by omega⟩
  have hlt : k < blanks.length := by omega
  refine ⟨blanks[k], ?_, hblanks _ (List.getElem_mem hlt)⟩
  rw [hk, hstands.right.right.getElem? hlt, List.getElem?_eq_getElem hlt]

/-- Inside of an interpolation of content, an offset is in it unless braces open behind it. -/
theorem ofContent_inside {token : Token} {x : Expression}
    (hat : t.StandsAt token.offset token.text) (hx : x ∈ ofContent token)
    (hstart : x.start ≤ offset) (hstop : offset ≤ x.stop) :
    token.offset < offset ∧ offset < token.stop ∧
      (Region.inInterpolation token.text (offset - token.offset) = true ↔
        Text.indexOf? "\x7b\x7b".toList (t.slice offset x.stop) = none) := by
  rcases ofContent_paired hx with ⟨opened, closed, hpaired, hlow, _, hhigh, hblank⟩
  have hopening : "\x7b\x7b".toList = ['\x7b', '\x7b'] := by decide
  have hle : closed + 2 ≤ token.text.length := by
    rcases hpaired.closes with ⟨rest, hdrop⟩
    have hlength := congrArg List.length hdrop
    simp only [List.length_drop, List.length_cons] at hlength
    omega
  obtain ⟨i, hi⟩ : exists i, offset = token.offset + i := ⟨offset - token.offset, by omega⟩
  subst hi
  have hwithin : forall j, Text.PairAt '\x7b' token.text j ↔
      Text.PairAt '\x7b' t (token.offset + j) ∧ token.offset + j + 2 ≤ token.stop := by
    intro j
    rw [Token.stop, ← Text.pairAt_slice, ← hat.eq_slice]
  refine ⟨by omega, by unfold Token.stop; omega, ?_⟩
  rw [Nat.add_sub_cancel_left, Region.inInterpolation_iff hpaired (by omega) (by omega), hopening,
    Text.indexOf?_eq_none]
  constructor
  · intro hno k hpair
    rw [Text.pairAt_slice, Nat.add_assoc] at hpair
    refine hno (i + k) (by omega) (by omega) ((hwithin _).mpr ⟨hpair.1, ?_⟩)
    unfold Token.stop
    omega
  · intro hno j hij hj hpair
    -- Neither the blanks behind the interpolation nor its closing braces open anything.
    have hbefore : token.offset + j + 2 ≤ x.stop := by
      apply Nat.le_of_not_lt
      intro hlt
      have hbrace := hpair.getElem?.2
      by_cases hlast : j + 1 = closed
      · rw [hlast] at hbrace
        exact hpaired.closed_ne hbrace
      · rcases hblank (j + 1) (by omega) (by omega) with ⟨c, hc, hcblank⟩
        rw [hbrace] at hc
        cases hc
        revert hcblank
        decide
    refine hno (j - i) (Text.pairAt_slice.mpr ?_)
    rw [Nat.add_assoc, Nat.add_sub_cancel' hij]
    exact ⟨((hwithin j).mp hpair).1, hbefore⟩

theorem interpolation_of_content {reading : TagReading} {tokens : List Token} {x : Expression}
    (h : x ∈ readTokens reading tokens) (hkind : x.kind = .interpolation) :
    exists token, token ∈ tokens ∧ token.kind = .content ∧ x ∈ ofContent token := by
  induction tokens generalizing reading with
  | nil =>
      cases h
  | cons token rest ih =>
      rw [readTokens_cons] at h
      rcases List.mem_append.mp h with hfirst | hrest
      · rcases mem_readToken hfirst with ⟨_, hcontent, hx⟩ | ⟨hother, _⟩
        · exact ⟨token, List.mem_cons_self, hcontent, hx⟩
        · exact absurd hkind (readToken_kind hother hfirst)
      · rcases ih hrest with ⟨other, hmem, hcontent, hx⟩
        exact ⟨other, List.mem_cons_of_mem _ hmem, hcontent, hx⟩

end Expression

/-!
# The region of an interpolation
-/

theorem Region.ofTokens_content {front back : List Token} {token : Token}
    (hpassed : forall other, other ∈ front -> Passed offset other)
    (hkind : token.kind = .content) (hlow : token.offset < offset) (hhigh : offset < token.stop)
    (hbehind : forall other, other ∈ back -> offset < other.offset) :
    ofTokens offset Option.none (front ++ token :: back) =
      if inInterpolation token.text (offset - token.offset) then .expression else .markup := by
  rw [ofTokens_append hpassed, ofTokens, if_neg (by omega)]
  simp only [hkind, decide_eq_true (Nat.le_of_lt hhigh), Bool.true_and, ofTokens_behind hbehind]

namespace Document

variable {template e : Element} {x : Expression}

theorem region_of_content (htemplate : (ofText t).template? = some template)
    (he : e ∈ template.preorder) (howns : e.Owns offset) {token : Token}
    (hmem : token ∈ tokensOf t) (hkind : token.kind = .content) (hlow : token.offset < offset)
    (hhigh : offset < token.stop) :
    (ofText t).regionAt t offset =
      if Region.inInterpolation token.text (offset - token.offset) then .expression
      else .markup := by
  rcases recorded_of_preorder htemplate he with ⟨hrecorded, _⟩
  have hreaches := hrecorded.opens.reaches
  have hstart := howns.start_lt
  have hstop := howns.le_contentStop
  have hcontent := hrecorded.content_le
  have hend := hrecorded.stop_le
  have hafter : e.start ≤ token.offset := by
    apply Nat.le_of_not_lt
    intro hlt
    have hbefore := hreaches.stop_le hmem hlt
    omega
  have hscanned : token ∈ scan t e.start e.stop :=
    (hreaches.mem_scan hrecorded.cut_stop).mpr ⟨hmem, hafter, by omega⟩
  rcases List.append_of_mem hscanned with ⟨front, back, hscan⟩
  have htiled := scan_tiled t e.start e.stop
  rw [hscan] at htiled
  rcases htiled.split_at with ⟨first, rest, _, hfront, hoffset, _, hback⟩
  rw [regionAt_of_owns htemplate he howns, hscan]
  refine Region.ofTokens_content ?_ hkind hlow hhigh ?_
  · intro other hother
    have hbounds := hfront.mem_bounds hother
    have hinScan : other ∈ scan t e.start e.stop := by
      rw [hscan]
      exact List.mem_append_left _ hother
    exact Region.passed_of_stop_lt ((hreaches.mem_scan hrecorded.cut_stop).mp hinScan).1
      (by omega) (by omega)
  · intro other hother
    have hbounds := hback.mem_bounds hother
    omega

/--
An expression that no content of the text holds.  It is read off what follows a child whose end
tag is broken off, up to the next child.
-/
structure Misread (t : Text) (template : Element) (x : Expression) : Prop where
  unheld : forall token, token ∈ tokensOf t -> token.kind = .content ->
    x ∉ Expression.ofContent token
  broken : exists e c, e ∈ template.preorder ∧ x ∈ e.ownExpressions t ∧ c ∈ e.children ∧
    c.EndsBroken t ∧ c.stop < x.start ∧
    forall d, d ∈ e.children -> d.stop ≤ c.stop ∨ x.stop ≤ d.start

theorem held_or_misread (htemplate : (ofText t).template? = some template)
    (he : e ∈ template.preorder) (hx : x ∈ e.ownExpressions t) (hkind : x.kind = .interpolation) :
    (exists token, token ∈ tokensOf t ∧ token.kind = .content ∧ x ∈ Expression.ofContent token) ∨
      Misread t template x := by
  rcases recorded_of_preorder htemplate he with ⟨hrecorded, hchildren⟩
  -- From a place that the scan passes outside of tags, the tokens of the text are read.
  have hheld : forall {reading low high}, Reaches t .content low ->
      ReadBetween t e.children e.contentStop reading low high x ->
      exists token, token ∈ tokensOf t ∧ token.kind = .content ∧
        x ∈ Expression.ofContent token := by
    intro reading low high hreaches hbetween
    rcases Expression.interpolation_of_content hbetween.read hkind with
      ⟨token, hmem, hcontent, hfound⟩
    have hcut := (hbetween.cut hrecorded hchildren).1
    exact ⟨token, ((hreaches.mem_scan hcut).mp hmem).1, hcontent, hfound⟩
  rcases Element.own_readBetween hrecorded hchildren hx with ⟨high, hfirst | ⟨c, hc, hlater⟩⟩
  · exact Or.inl (hheld hrecorded.opens.reaches hfirst)
  · rcases (hchildren.mem hc).1.ended with hreaches | hbroken
    · exact Or.inl (hheld hreaches hlater)
    · by_cases hany : exists token, token ∈ tokensOf t ∧ token.kind = .content ∧
          x ∈ Expression.ofContent token
      · exact Or.inl hany
      · refine Or.inr ⟨?_, e, c, he, hx, hc, hbroken, ?_, ?_⟩
        · intro token hmem hcontent hfound
          exact hany ⟨token, hmem, hcontent, hfound⟩
        · exact (hlater.bounds hrecorded hchildren trivial).1
        · intro d hd
          have hend := (hlater.bounds hrecorded hchildren trivial).2.2
          exact (hlater.apart d hd).imp_right (Nat.le_trans hend)

/--
At an offset of an interpolation stands an expression region just when no braces open once more
between the offset and the end of the interpolation, unless the interpolation is misread.
-/
theorem interpolation_regions (htemplate : (ofText t).template? = some template)
    (hx : x ∈ template.expressions t) (hkind : x.kind = .interpolation) :
    Misread t template x ∨
      forall offset, x.start ≤ offset -> offset ≤ x.stop ->
        (ofText t).regionAt t offset =
          if Text.indexOf? "\x7b\x7b".toList (t.slice offset x.stop) = none then .expression
          else .markup := by
  rcases Element.mem_expressions_iff.mp hx with ⟨e, he, hown⟩
  rcases recorded_of_preorder htemplate he with ⟨hrecorded, hchildren⟩
  rcases held_or_misread htemplate he hown hkind with ⟨token, hmem, hcontent, hfound⟩ | hmisread
  · refine Or.inr ?_
    intro offset hstart hstop
    rcases Expression.ofContent_inside (tokensOf_standsAt hmem) hfound hstart hstop with
      ⟨hlow, hhigh, hinside⟩
    have howns := Element.owns_of_own hrecorded hchildren hown hstart hstop
    rw [region_of_content htemplate he howns hmem hcontent hlow hhigh]
    simp only [hinside]
  · exact Or.inl hmisread

end Document

def reopenedText : Text :=
  "<template>\x7b\x7b a \x7b\x7b b \x7d\x7d</template>".toList

theorem interpolation_regions_reopened :
    exists template x, (Document.ofText reopenedText).template? = some template ∧
      x ∈ template.expressions reopenedText ∧ x.kind = .interpolation ∧
      x.start = 13 ∧ x.stop = 19 ∧
      (Document.ofText reopenedText).regionAt reopenedText 15 = .markup ∧
      (Document.ofText reopenedText).regionAt reopenedText 16 = .expression := by
  have hfacts : (Document.ofText reopenedText).template?.any (fun template =>
      (template.expressions reopenedText).any fun x => decide (x.kind = .interpolation ∧
        x.start = 13 ∧ x.stop = 19 ∧ exists token, token ∈ tokensOf reopenedText ∧
        token.kind = .content ∧ x ∈ Expression.ofContent token)) = true := by
    decide +kernel
  rcases (Option.any_eq_true _ _).mp hfacts with ⟨template, htemplate, hinside⟩
  rcases List.any_eq_true.mp hinside with ⟨x, hx, hrest⟩
  rcases of_decide_eq_true hrest with ⟨hkind, hstart, hstop, token, hmem, hcontent, hfound⟩
  refine ⟨template, x, htemplate, hx, hkind, hstart, hstop, ?_⟩
  rcases Document.interpolation_regions htemplate hx hkind with hmisread | hregions
  · exact absurd hfound (hmisread.unheld token hmem hcontent)
  · rw [hstart, hstop] at hregions
    rw [hregions 15 (by decide) (by decide), hregions 16 (by decide) (by decide)]
    decide

/-- Braces that open once more leave what is before them outside of the expression region. -/
theorem reopened_not_expression :
    exists template x, (Document.ofText reopenedText).template? = some template ∧
      x ∈ template.expressions reopenedText ∧ x.kind = .interpolation ∧
      x.start ≤ 13 ∧ 13 ≤ x.stop ∧
      (Document.ofText reopenedText).regionAt reopenedText 13 = .markup := by
  have hfacts : (Document.ofText reopenedText).template?.any (fun template =>
      (template.expressions reopenedText).any fun x => decide (x.kind = .interpolation ∧
        x.start ≤ 13 ∧ 13 ≤ x.stop)) = true := by
    decide +kernel
  rcases (Option.any_eq_true _ _).mp hfacts with ⟨template, htemplate, hinside⟩
  rcases List.any_eq_true.mp hinside with ⟨x, hx, hrest⟩
  rcases of_decide_eq_true hrest with ⟨hkind, hstart, hstop⟩
  exact ⟨template, x, htemplate, hx, hkind, hstart, hstop, by decide +kernel⟩

def brokenEndText : Text :=
  "<template><p></p \"\x7b\x7b x \x7d\x7d</template>".toList

/-- What the scan takes for names of an end tag is collected as an interpolation all the same. -/
theorem misread_not_expression :
    exists template x, (Document.ofText brokenEndText).template? = some template ∧
      x ∈ template.expressions brokenEndText ∧ x.kind = .interpolation ∧
      x.start = 21 ∧ x.stop = 22 ∧
      Text.indexOf? "\x7b\x7b".toList (brokenEndText.slice 21 22) = none ∧
      (Document.ofText brokenEndText).regionAt brokenEndText 21 = .markup := by
  have hfacts : (Document.ofText brokenEndText).template?.any (fun template =>
      (template.expressions brokenEndText).any fun x => decide (x.kind = .interpolation ∧
        x.start = 21 ∧ x.stop = 22)) = true := by
    decide +kernel
  rcases (Option.any_eq_true _ _).mp hfacts with ⟨template, htemplate, hinside⟩
  rcases List.any_eq_true.mp hinside with ⟨x, hx, hrest⟩
  rcases of_decide_eq_true hrest with ⟨hkind, hstart, hstop⟩
  exact ⟨template, x, htemplate, hx, hkind, hstart, hstop, by decide, by decide +kernel⟩

end SfcServer
