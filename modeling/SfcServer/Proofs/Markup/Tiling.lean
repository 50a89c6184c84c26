import SfcServer.Markup.Token

/-!
# Tokens tile the text

Every step of the scanner takes the first character of what is left and no more than
there is, so the tokens of a scan cover the scanned text without gap or overlap.
-/

namespace SfcServer

/-- Tokens that cover a text without gap or overlap, from an offset on. -/
inductive Tiled : Nat -> Text -> List Token -> Prop where
  | done (offset : Nat) : Tiled offset [] []
  | token {kind : TokenKind} {first rest : Text} {offset : Nat} {tokens : List Token} :
      first ≠ [] ->
      Tiled (offset + first.length) rest tokens ->
      Tiled offset (first ++ rest) (⟨kind, first, offset⟩ :: tokens)

/-!
# How far a step reaches
-/

theorem runLength_le (p : Char -> Bool) (t : Text) : runLength p t ≤ t.length :=
  (List.takeWhile_sublist p).length_le

theorem indexOf?_add_length_le {needle : Text} :
    forall {t : Text} {i : Nat}, Text.indexOf? needle t = some i ->
      i + needle.length ≤ t.length := by
  intro t
  induction t with
  | nil =>
      intro i h
      simp only [Text.indexOf?] at h
      split at h
      · rename_i hempty
        have hneedle : needle = [] := List.isEmpty_iff.mp hempty
        cases h
        simp [hneedle]
      · cases h
  | cons c rest ih =>
      intro i h
      simp only [Text.indexOf?] at h
      split at h
      · rename_i hprefix
        cases h
        have hle := (List.isPrefixOf_iff_prefix.mp hprefix).length_le
        omega
      · rcases Option.map_eq_some_iff.mp h with ⟨j, hj, hji⟩
        have hle := ih hj
        simp only [List.length_cons]
        omega

theorem commentLength_le (t : Text) : commentLength t ≤ t.length := by
  unfold commentLength
  cases h : Text.indexOf? "-->".toList t with
  | none =>
      exact Nat.le_refl _
  | some i =>
      have hle := indexOf?_add_length_le h
      simpa using hle

theorem declarationLength_le (t : Text) : declarationLength t ≤ t.length := by
  have hle := runLength_le (· != '>') t
  simp only [declarationLength]
  split <;> omega

theorem quotedLength_le (quote : Char) (t : Text) : quotedLength quote t ≤ t.length := by
  have hle := runLength_le (· != quote) t
  simp only [quotedLength]
  split <;> omega

theorem contentLength_le (inside : Nat) (t : Text) : contentLength inside t ≤ t.length := by
  induction t generalizing inside with
  | nil =>
      cases inside <;> simp [contentLength]
  | cons c rest ih =>
      cases inside with
      | zero =>
          have hle := ih (interpolationExtra (c :: rest))
          simp only [contentLength, List.length_cons]
          split <;> omega
      | succ n =>
          have hle := ih n
          simp only [contentLength, List.length_cons]
          omega

theorem bodyLength_le (e : RawElement) (t : Text) : e.bodyLength t ≤ t.length := by
  induction t with
  | nil =>
      simp [RawElement.bodyLength]
  | cons c rest ih =>
      simp only [RawElement.bodyLength, List.length_cons]
      split <;> omega

namespace ScanStep

theorem content_extra_le (c : Char) (rest : Text) : (content c rest).extra ≤ rest.length := by
  have hcontent := contentLength_le (interpolationExtra (c :: rest)) rest
  unfold content
  split
  · split
    · rename_i body
      have hle := commentLength_le body
      simp only [List.length_cons]
      omega
    · rename_i body _
      have hle := declarationLength_le body
      simp only [List.length_cons]
      omega
    · simp
    · split
      · simp
      · exact hcontent
    · exact hcontent
  · exact hcontent

theorem inTag_extra_le (body : Option RawElement) (c : Char) (rest : Text) :
    (inTag body c rest).extra ≤ rest.length := by
  have hblank := runLength_le Text.isBlank rest
  have hname := runLength_le isAttributeNameChar rest
  unfold inTag
  split
  · exact hblank
  · split
    · rename_i hclose
      cases rest with
      | nil =>
          simp at hclose
      | cons d more =>
          simp
    · split
      · exact Nat.zero_le _
      · split
        · exact content_extra_le c rest
        · split
          · exact hname
          · exact Nat.zero_le _

theorem extra_le (mode : ScanMode) (c : Char) (rest : Text) :
    (next mode c rest).extra ≤ rest.length := by
  have hblank := runLength_le Text.isBlank rest
  have htag := runLength_le isTagNameChar rest
  cases mode with
  | content =>
      exact content_extra_le c rest
  | afterOpen =>
      simp only [next, afterOpen]
      split
      · exact htag
      · exact inTag_extra_le none c rest
  | inTag body =>
      exact inTag_extra_le body c rest
  | afterName body =>
      simp only [next, afterName]
      split
      · exact hblank
      · split
        · exact Nat.zero_le _
        · exact inTag_extra_le body c rest
  | beforeValue body =>
      simp only [next, beforeValue]
      split
      · exact hblank
      · split
        · exact quotedLength_le c rest
        · split
          · exact runLength_le isUnquotedValueChar rest
          · exact inTag_extra_le body c rest
  | inEndTag =>
      simp only [next, inEndTag]
      split
      · exact hblank
      · split
        · exact htag
        · split
          · exact Nat.zero_le _
          · split
            · exact content_extra_le c rest
            · exact Nat.zero_le _
  | rawBody element =>
      simp only [next, rawBody]
      split
      · exact content_extra_le c rest
      · exact bodyLength_le element rest

end ScanStep

/-!
# The tokens of a scan
-/

theorem scanFrom_nil (mode : ScanMode) (offset : Nat) : scanFrom mode offset [] = [] := by
  rw [scanFrom]

/-- The token that a step takes from a text whose first character stands at an offset. -/
def ScanStep.token (step : ScanStep) (c : Char) (rest : Text) (offset : Nat) : Token :=
  ⟨step.kind, c :: rest.take step.extra, offset⟩

@[simp] theorem ScanStep.token_kind (step : ScanStep) (c : Char) (rest : Text) (offset : Nat) :
    (step.token c rest offset).kind = step.kind := rfl

@[simp] theorem ScanStep.token_offset (step : ScanStep) (c : Char) (rest : Text) (offset : Nat) :
    (step.token c rest offset).offset = offset := rfl

theorem ScanStep.token_stop (mode : ScanMode) (c : Char) (rest : Text) (offset : Nat) :
    ((ScanStep.next mode c rest).token c rest offset).stop =
      offset + 1 + (ScanStep.next mode c rest).extra := by
  have hle := ScanStep.extra_le mode c rest
  simp only [Token.stop, ScanStep.token, List.length_cons, List.length_take]
  omega

theorem scanFrom_cons (mode : ScanMode) (offset : Nat) (c : Char) (rest : Text) :
    scanFrom mode offset (c :: rest) =
      (ScanStep.next mode c rest).token c rest offset ::
      scanFrom (ScanStep.next mode c rest).mode
        (offset + 1 + (ScanStep.next mode c rest).extra)
        (rest.drop (ScanStep.next mode c rest).extra) := by
  rw [scanFrom]
  rfl

theorem scanFrom_tiled (mode : ScanMode) (offset : Nat) (t : Text) :
    Tiled offset t (scanFrom mode offset t) := by
  fun_induction scanFrom mode offset t with
  | case1 mode offset =>
      exact Tiled.done offset
  | case2 mode offset c rest step ih =>
      have hle : step.extra ≤ rest.length := ScanStep.extra_le mode c rest
      have htext : c :: rest = (c :: rest.take step.extra) ++ rest.drop step.extra := by
        simp
      have hlength : (c :: rest.take step.extra).length = 1 + step.extra := by
        simp only [List.length_cons, List.length_take]
        omega
      rw [htext]
      refine Tiled.token (by simp) ?_
      rw [hlength, ← Nat.add_assoc]
      exact ih

theorem scan_tiled (t : Text) (start stop : Nat) :
    Tiled start (t.slice start stop) (scan t start stop) :=
  scanFrom_tiled _ _ _

namespace Tiled

theorem split {offset : Nat} {t : Text} {before after : List Token}
    (h : Tiled offset t (before ++ after)) :
    exists first rest, t = first ++ rest ∧ Tiled offset first before ∧
      Tiled (offset + first.length) rest after := by
  induction before generalizing offset t with
  | nil =>
      exact ⟨[], t, rfl, Tiled.done offset, h⟩
  | cons token before ih =>
      cases h with
      | token hfirst hrest =>
          rename_i kind first rest
          rcases ih hrest with ⟨middle, last, hsplit, hbefore, hafter⟩
          refine ⟨first ++ middle, last, ?_, Tiled.token hfirst hbefore, ?_⟩
          · rw [hsplit, List.append_assoc]
          · rw [List.length_append, ← Nat.add_assoc]
            exact hafter

theorem append {offset : Nat} {first rest : Text} {before after : List Token}
    (hbefore : Tiled offset first before)
    (hafter : Tiled (offset + first.length) rest after) :
    Tiled offset (first ++ rest) (before ++ after) := by
  induction hbefore with
  | done offset =>
      simpa using hafter
  | token hfirst htiled ih =>
      rw [List.append_assoc]
      refine Tiled.token hfirst (ih ?_)
      rw [List.length_append, ← Nat.add_assoc] at hafter
      exact hafter

theorem mem {offset : Nat} {t : Text} {tokens : List Token} (h : Tiled offset t tokens)
    {token : Token} (hmem : token ∈ tokens) :
    exists before after, t = before ++ token.text ++ after ∧
      token.offset = offset + before.length ∧ token.text ≠ [] := by
  rcases List.append_of_mem hmem with ⟨front, back, hsplit⟩
  subst hsplit
  rcases h.split with ⟨first, rest, ht, _, hback⟩
  cases hback with
  | token hnonempty htail =>
      rename_i kind text after
      exact ⟨first, after, by rw [ht, List.append_assoc], rfl, hnonempty⟩

theorem mem_bounds {offset : Nat} {t : Text} {tokens : List Token} (h : Tiled offset t tokens)
    {token : Token} (hmem : token ∈ tokens) :
    offset ≤ token.offset ∧ token.offset < token.stop ∧ token.stop ≤ offset + t.length := by
  rcases h.mem hmem with ⟨before, after, ht, hoffset, hnonempty⟩
  have hlength := congrArg List.length ht
  have hpos := List.length_pos_iff.mpr hnonempty
  simp only [List.length_append] at hlength
  unfold Token.stop
  omega

theorem separated {offset : Nat} {t : Text} {tokens : List Token} (h : Tiled offset t tokens)
    {a b : Token} (ha : a ∈ tokens) (hb : b ∈ tokens) :
    a = b ∨ a.stop ≤ b.offset ∨ b.stop ≤ a.offset := by
  rcases List.append_of_mem ha with ⟨front, back, hsplit⟩
  subst hsplit
  rcases h.split with ⟨first, rest, _, hfront, hback⟩
  cases hback with
  | token _ htail =>
      rename_i kind text after
      rcases List.mem_append.mp hb with hbefore | hafter
      · exact Or.inr (Or.inr (hfront.mem_bounds hbefore).2.2)
      · rcases List.mem_cons.mp hafter with heq | hlater
        · exact Or.inl heq.symm
        · exact Or.inr (Or.inl (htail.mem_bounds hlater).1)

end Tiled

end SfcServer
