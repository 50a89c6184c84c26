import SfcServer.Proofs.Markup.Modes

/-!
# Steps on a text that is cut off

A step of the scanner looks ahead, but what it looks at it mostly takes.  So a step that
fits into the front part of a text is the same step when the rest is cut off, unless the
cut falls between the `<` of a start tag and its name, or into the end tag of a raw body.
-/

namespace SfcServer

variable {short more : Text}

theorem runLength_append (p : Char -> Bool) (h : runLength p (short ++ more) ≤ short.length) :
    runLength p short = runLength p (short ++ more) := by
  induction short with
  | nil =>
      simp only [List.nil_append, List.length_nil, Nat.le_zero] at h ⊢
      rw [h]
      rfl
  | cons c rest ih =>
      unfold runLength at h ih ⊢
      rw [List.cons_append] at h ⊢
      cases hc : p c with
      | true =>
          rw [List.takeWhile_cons_of_pos hc] at h ⊢
          rw [List.takeWhile_cons_of_pos hc, List.length_cons, List.length_cons]
          rw [List.length_cons, List.length_cons] at h
          rw [ih (by omega)]
      | false =>
          rw [List.takeWhile_cons_of_neg (by simp [hc]), List.takeWhile_cons_of_neg (by simp [hc])]

theorem indexOf?_append_none {needle : Text} (h : Text.indexOf? needle (short ++ more) = none) :
    Text.indexOf? needle short = none := by
  induction short with
  | nil =>
      cases needle with
      | nil =>
          cases more <;> simp [Text.indexOf?] at h
      | cons c needle =>
          rfl
  | cons c rest ih =>
      rw [List.cons_append, Text.indexOf?] at h
      rw [Text.indexOf?]
      split at h
      · cases h
      · rename_i hnot
        have hshort : ¬ needle.isPrefixOf (c :: rest) = true := by
          intro hlead
          apply hnot
          rw [List.isPrefixOf_iff_prefix] at hlead ⊢
          exact hlead.trans (List.prefix_append (c :: rest) more)
        rw [if_neg hshort, ih (Option.map_eq_none_iff.mp h)]
        rfl

theorem indexOf?_append_some {needle : Text} {i : Nat}
    (h : Text.indexOf? needle (short ++ more) = some i)
    (hle : i + needle.length ≤ short.length) : Text.indexOf? needle short = some i := by
  induction short generalizing i with
  | nil =>
      rw [List.length_nil] at hle
      have hneedle : needle = [] := List.eq_nil_of_length_eq_zero (by omega)
      have hi : i = 0 := by omega
      subst hneedle
      subst hi
      rfl
  | cons c rest ih =>
      rw [List.cons_append, Text.indexOf?] at h
      rw [Text.indexOf?]
      rw [List.length_cons] at hle
      split at h
      · rename_i hlead
        rw [List.isPrefixOf_iff_prefix] at hlead
        have hi : i = 0 := by injection h with h; exact h.symm
        have hshort : needle.isPrefixOf (c :: rest) = true := by
          rw [List.isPrefixOf_iff_prefix]
          exact List.prefix_of_prefix_length_le hlead (List.prefix_append (c :: rest) more)
            (by rw [List.length_cons]; omega)
        rw [if_pos hshort, hi]
      · rename_i hnot
        rcases Option.map_eq_some_iff.mp h with ⟨j, hj, hji⟩
        have hshort : ¬ needle.isPrefixOf (c :: rest) = true := by
          intro hlead
          apply hnot
          rw [List.isPrefixOf_iff_prefix] at hlead ⊢
          exact hlead.trans (List.prefix_append (c :: rest) more)
        rw [if_neg hshort, ih hj (by omega)]
        simp [hji]

theorem commentLength_append (h : commentLength (short ++ more) ≤ short.length) :
    commentLength short = commentLength (short ++ more) := by
  unfold commentLength at h ⊢
  cases hfound : Text.indexOf? "-->".toList (short ++ more) with
  | some i =>
      rw [hfound] at h
      rw [indexOf?_append_some hfound (by simpa using h)]
  | none =>
      rw [hfound] at h
      rw [indexOf?_append_none hfound]
      simp only [List.length_append] at h ⊢
      omega

/-- A run that is followed by one closing character, or by the end of the text. -/
theorem closedRun_append (p : Char -> Bool)
    (h : (if runLength p (short ++ more) < (short ++ more).length then
      runLength p (short ++ more) + 1 else runLength p (short ++ more)) ≤ short.length) :
    (if runLength p short < short.length then runLength p short + 1 else runLength p short) =
      if runLength p (short ++ more) < (short ++ more).length then
        runLength p (short ++ more) + 1 else runLength p (short ++ more) := by
  have hfull := runLength_le p (short ++ more)
  have hrun : runLength p (short ++ more) ≤ short.length := by
    split at h <;> omega
  have hsame := runLength_append p hrun
  rw [hsame]
  rw [List.length_append] at h hfull ⊢
  split at h
  · rw [if_pos (by omega), if_pos (by omega)]
  · rw [if_neg (by omega), if_neg (by omega)]

theorem declarationLength_append (h : declarationLength (short ++ more) ≤ short.length) :
    declarationLength short = declarationLength (short ++ more) :=
  closedRun_append _ h

theorem quotedLength_append (quote : Char)
    (h : quotedLength quote (short ++ more) ≤ short.length) :
    quotedLength quote short = quotedLength quote (short ++ more) :=
  closedRun_append _ h

/-!
# Content
-/

theorem closingLength?_bounds {t : Text} {n : Nat} (h : closingLength? t = some n) :
    2 ≤ n ∧ n ≤ t.length := by
  fun_induction closingLength? t generalizing n with
  | case1 rest =>
      cases h
      simp
  | case2 rest =>
      cases h
  | case3 c rest _ _ ih =>
      rcases Option.map_eq_some_iff.mp h with ⟨m, hm, hmn⟩
      have hbounds := ih hm
      simp only [List.length_cons]
      omega
  | case4 =>
      cases h

theorem closingLength?_cons (c : Char) (rest : Text) :
    closingLength? (c :: rest) =
      if c = '\x7d' ∧ rest.head? = some '\x7d' then some 2
      else if c = '\x7b' ∧ rest.head? = some '\x7b' then none
      else (closingLength? rest).map (· + 1) := by
  rw [closingLength?.eq_def]
  split
  · rename_i heq
    cases heq
    rfl
  · rename_i heq
    cases heq
    rfl
  · rename_i hclose hopen heq
    cases heq
    rw [if_neg, if_neg]
    · intro ⟨hc, hhead⟩
      rcases List.head?_eq_some_iff.mp hhead with ⟨tail, htail⟩
      exact hopen tail hc htail
    · intro ⟨hc, hhead⟩
      rcases List.head?_eq_some_iff.mp hhead with ⟨tail, htail⟩
      exact hclose tail hc htail
  · rename_i heq
    cases heq

theorem closingLength?_append
    (h : forall n, closingLength? (short ++ more) = some n -> n ≤ short.length) :
    closingLength? short = closingLength? (short ++ more) := by
  induction short with
  | nil =>
      cases hfull : closingLength? more with
      | none =>
          rw [List.nil_append, hfull]
          rfl
      | some n =>
          have hbounds := closingLength?_bounds hfull
          have hle := h n hfull
          rw [List.length_nil] at hle
          omega
  | cons c rest ih =>
      rw [List.cons_append, closingLength?_cons] at h
      rw [List.cons_append, closingLength?_cons, closingLength?_cons]
      by_cases hclose : c = '\x7d' ∧ (rest ++ more).head? = some '\x7d'
      · have hle := h 2 (by rw [if_pos hclose])
        cases rest with
        | nil =>
            simp at hle
        | cons d rest =>
            have hshort : c = '\x7d' ∧ (d :: rest).head? = some '\x7d' := hclose
            rw [if_pos hclose, if_pos hshort]
      · by_cases hopen : c = '\x7b' ∧ (rest ++ more).head? = some '\x7b'
        · rw [if_neg hclose, if_pos hopen]
          cases rest with
          | nil =>
              simp [closingLength?]
          | cons d rest =>
              have hnot : ¬ (c = '\x7d' ∧ (d :: rest).head? = some '\x7d') := hclose
              have hshort : c = '\x7b' ∧ (d :: rest).head? = some '\x7b' := hopen
              rw [if_neg hnot, if_pos hshort]
        · have hshort : forall d, ¬ (c = d ∧ (rest ++ more).head? = some d) ->
              ¬ (c = d ∧ rest.head? = some d) := by
            intro d hnot hhead
            apply hnot
            refine ⟨hhead.1, ?_⟩
            rw [List.head?_append, hhead.2]
            rfl
          rw [if_neg (hshort _ hclose), if_neg (hshort _ hopen), if_neg hclose, if_neg hopen,
            ih]
          intro n hn
          have hle := h (n + 1) (by rw [if_neg hclose, if_neg hopen, hn]; rfl)
          rw [List.length_cons] at hle
          omega

theorem interpolationExtra_cons (c : Char) (rest : Text) :
    interpolationExtra (c :: rest) =
      if c = '\x7b' ∧ rest.head? = some '\x7b' then
        match closingLength? rest.tail with
        | some n => n + 1
        | none => 0
      else 0 := by
  unfold interpolationExtra
  split
  · rename_i heq
    cases heq
    rfl
  · rename_i hnot
    rw [if_neg]
    intro ⟨hc, hhead⟩
    rcases List.head?_eq_some_iff.mp hhead with ⟨tail, htail⟩
    exact hnot tail (by rw [hc, htail])

theorem interpolationExtra_le (c : Char) (rest : Text) :
    interpolationExtra (c :: rest) ≤ rest.length := by
  rw [interpolationExtra_cons]
  split
  · rename_i hopen
    rcases List.head?_eq_some_iff.mp hopen.2 with ⟨tail, htail⟩
    rw [htail, List.tail_cons, List.length_cons]
    cases hclosing : closingLength? tail with
    | none =>
        exact Nat.zero_le _
    | some n =>
        exact Nat.succ_le_succ (closingLength?_bounds hclosing).2
  · exact Nat.zero_le _

theorem interpolationExtra_append (c : Char)
    (h : interpolationExtra (c :: (short ++ more)) ≤ short.length) :
    interpolationExtra (c :: short) = interpolationExtra (c :: (short ++ more)) := by
  rw [interpolationExtra_cons] at h
  rw [interpolationExtra_cons, interpolationExtra_cons]
  by_cases hopen : c = '\x7b' ∧ (short ++ more).head? = some '\x7b'
  · rw [if_pos hopen] at h ⊢
    cases short with
    | nil =>
        simp only [List.nil_append, List.length_nil, Nat.le_zero] at h ⊢
        simp [h]
    | cons d rest =>
        have hshort : c = '\x7b' ∧ (d :: rest).head? = some '\x7b' := hopen
        rw [if_pos hshort]
        simp only [List.cons_append, List.tail_cons, List.length_cons] at h ⊢
        rw [closingLength?_append]
        intro n hn
        rw [hn] at h
        simp only at h
        omega
  · have hshort : ¬ (c = '\x7b' ∧ short.head? = some '\x7b') := by
      intro hhead
      apply hopen
      refine ⟨hhead.1, ?_⟩
      rw [List.head?_append, hhead.2]
      rfl
    rw [if_neg hopen, if_neg hshort]

theorem le_contentLength {inside : Nat} {t : Text} (h : inside ≤ t.length) :
    inside ≤ contentLength inside t := by
  induction t generalizing inside with
  | nil =>
      simp only [List.length_nil] at h
      omega
  | cons c rest ih =>
      cases inside with
      | zero =>
          exact Nat.zero_le _
      | succ n =>
          have hbound : n ≤ rest.length := Nat.le_of_succ_le_succ h
          have hrest := ih hbound
          rw [contentLength]
          omega

theorem contentLength_append (inside : Nat)
    (h : contentLength inside (short ++ more) ≤ short.length) :
    contentLength inside short = contentLength inside (short ++ more) := by
  induction short generalizing inside with
  | nil =>
      simp only [List.nil_append, List.length_nil, Nat.le_zero] at h ⊢
      rw [h]
      cases inside <;> rfl
  | cons c rest ih =>
      rw [List.cons_append] at h ⊢
      rw [List.length_cons] at h
      cases inside with
      | succ n =>
          rw [contentLength] at h
          rw [contentLength, contentLength, ih n (by omega)]
      | zero =>
          rw [contentLength] at h
          rw [contentLength, contentLength]
          by_cases hc : c = '<'
          · rw [if_pos hc, if_pos hc]
          · rw [if_neg hc] at h ⊢
            rw [if_neg hc]
            have hle := interpolationExtra_le c (rest ++ more)
            have hinside := le_contentLength hle
            have hextra : interpolationExtra (c :: rest) =
                interpolationExtra (c :: (rest ++ more)) :=
              interpolationExtra_append c (by omega)
            rw [hextra, ih _ (by omega)]

/-!
# Raw bodies
-/

theorem isLetter_of_foldsTo {e : RawElement} {letter c : Char} (hletter : letter ∈ e.name)
    (h : foldsTo letter c = true) : Text.isLetter c = true := by
  have hwide : forall n, n = 0x17F ∨ n = 0x130 ∨ n = 0x131 -> c.toNat = n ->
      Text.isLetter c = true := by
    intro n hn hc
    have heq : c = Char.ofNat n := by rw [← hc, Char.ofNat_toNat]
    rw [heq]
    rcases hn with hn | hn | hn <;> subst hn <;> decide +kernel
  simp only [foldsTo, Bool.or_eq_true, Bool.and_eq_true, beq_iff_eq] at h
  rcases h with (hlower | ⟨_, hc⟩) | ⟨_, hc | hc⟩
  · have hname : e.name.all Text.isLetter = true := by
      cases e <;> decide
    unfold Char.toLower at hlower
    split at hlower
    · rename_i hupper
      have hlow : 65 ≤ c.toNat := UInt32.le_iff_toNat_le.mp hupper.1
      have hhigh : c.toNat ≤ 90 := UInt32.le_iff_toNat_le.mp hupper.2
      rw [Text.isLetter, if_pos (by omega)]
      exact (isAlpha_iff c).mpr (Or.inl ⟨hlow, hhigh⟩)
    · rw [hlower]
      exact List.all_eq_true.mp hname letter hletter
  · exact hwide _ (Or.inl rfl) hc
  · exact hwide _ (Or.inr (Or.inl rfl)) hc
  · exact hwide _ (Or.inr (Or.inr rfl)) hc

theorem dropFolded?_eq_some {name t rest : Text} (h : dropFolded? name t = some rest) :
    exists front, t = front ++ rest ∧ front.length = name.length ∧
      forall c, c ∈ front -> exists letter, letter ∈ name ∧ foldsTo letter c = true := by
  fun_induction dropFolded? name t with
  | case1 t =>
      cases h
      exact ⟨[], rfl, rfl, by intro c hc; cases hc⟩
  | case2 letter name c t hfolds ih =>
      rcases ih h with ⟨front, ht, hlength, hall⟩
      refine ⟨c :: front, by rw [ht]; rfl, by rw [List.length_cons, hlength, List.length_cons], ?_⟩
      intro d hd
      rcases List.mem_cons.mp hd with heq | hrest
      · exact ⟨letter, List.mem_cons_self, by rw [heq]; exact hfolds⟩
      · rcases hall d hrest with ⟨other, hother, hd⟩
        exact ⟨other, List.mem_cons_of_mem _ hother, hd⟩
  | case3 letter name c t hfolds =>
      cases h
  | case4 letter name =>
      cases h

theorem dropFolded?_append {name : Text} (h : name.length ≤ short.length) :
    dropFolded? name (short ++ more) = (dropFolded? name short).map (· ++ more) := by
  induction name generalizing short with
  | nil =>
      cases short <;> simp [dropFolded?]
  | cons letter name ih =>
      cases short with
      | nil =>
          simp at h
      | cons c rest =>
          simp only [List.cons_append, dropFolded?]
          split
          · exact ih (by simpa using h)
          · rfl

namespace RawElement

theorem closesAt_iff (e : RawElement) (t : Text) :
    e.closesAt t = true ↔
      exists body rest, t = '<' :: '/' :: body ∧ dropFolded? e.name body = some rest ∧
        forall c after, rest = c :: after -> Text.isWordChar c = false := by
  constructor
  · intro h
    unfold closesAt at h
    split at h
    · rename_i body
      refine ⟨body, ?_⟩
      split at h
      · rename_i hdrop
        exact ⟨[], rfl, hdrop, by intro c after heq; cases heq⟩
      · rename_i c after hdrop
        refine ⟨c :: after, rfl, hdrop, ?_⟩
        intro d rest heq
        cases heq
        simpa using h
      · cases h
    · cases h
  · intro ⟨body, rest, ht, hdrop, hword⟩
    rw [ht]
    simp only [closesAt, hdrop]
    cases rest with
    | nil =>
        rfl
    | cons c after =>
        simp [hword c after rfl]

/-- An end tag that fits into the front of a text ends its raw body there. -/
theorem closesAt_of_append {e : RawElement} (h : e.closesAt (short ++ more) = true)
    (hlength : 2 + e.name.length ≤ short.length) : e.closesAt short = true := by
  rcases (e.closesAt_iff _).mp h with ⟨body, rest, ht, hdrop, hword⟩
  match short with
  | [] =>
      simp at hlength
  | [c] =>
      simp at hlength
      omega
  | c :: d :: front =>
      injection ht with hc ht
      injection ht with hd ht
      subst hc
      subst hd
      change front ++ more = body at ht
      have hfits : e.name.length ≤ front.length := by
        simp only [List.length_cons] at hlength
        omega
      rw [← ht, dropFolded?_append hfits] at hdrop
      rcases Option.map_eq_some_iff.mp hdrop with ⟨tail, htail, hrest⟩
      refine (e.closesAt_iff _).mpr ⟨front, tail, rfl, htail, ?_⟩
      intro c after heq
      exact hword c (after ++ more) (by rw [← hrest, heq]; rfl)

/-- What ends a raw body in the front of a text but not in the text goes up to the cut. -/
theorem closesAt_cut {e : RawElement} (h : e.closesAt short = true)
    (hnot : e.closesAt (short ++ more) = false) :
    exists front, short = '<' :: '/' :: front ∧
      (forall c, c ∈ front -> Text.isLetter c = true) ∧
      exists c after, more = c :: after ∧ Text.isWordChar c = true := by
  rcases (e.closesAt_iff _).mp h with ⟨body, rest, ht, hdrop, hword⟩
  rcases dropFolded?_eq_some hdrop with ⟨front, hbody, hlength, hall⟩
  have hfull : dropFolded? e.name (body ++ more) = some (rest ++ more) := by
    rw [dropFolded?_append (by rw [hbody, List.length_append]; omega), hdrop]
    rfl
  have hcut : rest = [] ∧ exists c after, more = c :: after ∧ Text.isWordChar c = true := by
    cases rest with
    | cons c after =>
        have hcloses : e.closesAt (short ++ more) = true := by
          refine (e.closesAt_iff _).mpr ⟨body ++ more, _, by rw [ht]; rfl, hfull, ?_⟩
          intro d tail heq
          cases heq
          exact hword c after rfl
        rw [hcloses] at hnot
        cases hnot
    | nil =>
        refine ⟨rfl, ?_⟩
        cases more with
        | nil =>
            rw [List.append_nil, h] at hnot
            cases hnot
        | cons c after =>
            refine ⟨c, after, rfl, ?_⟩
            cases hc : Text.isWordChar c with
            | true =>
                rfl
            | false =>
                have hcloses : e.closesAt (short ++ c :: after) = true := by
                  refine (e.closesAt_iff _).mpr ⟨body ++ c :: after, _, by rw [ht]; rfl, hfull, ?_⟩
                  intro d tail heq
                  cases heq
                  exact hc
                rw [hcloses] at hnot
                cases hnot
  refine ⟨front, by rw [ht, hbody, hcut.1, List.append_nil], ?_, hcut.2⟩
  intro c hc
  rcases hall c hc with ⟨letter, hletter, hfolds⟩
  exact isLetter_of_foldsTo hletter hfolds

/-- A raw body goes up to an end tag or to the end of the text. -/
theorem bodyLength_stop (e : RawElement) (t : Text) :
    t.drop (e.bodyLength t) = [] ∨ e.closesAt (t.drop (e.bodyLength t)) = true := by
  induction t with
  | nil =>
      exact Or.inl rfl
  | cons c rest ih =>
      rw [bodyLength]
      split
      · rename_i hcloses
        exact Or.inr hcloses
      · rw [Nat.add_comm, List.drop_succ_cons]
        exact ih

theorem closesAt_head {e : RawElement} {t : Text} (h : e.closesAt t = true) :
    exists body, t = '<' :: '/' :: body := by
  rcases (e.closesAt_iff t).mp h with ⟨body, _, ht, _⟩
  exact ⟨body, ht⟩

theorem bodyLength_append (e : RawElement)
    (hcut : e.bodyLength (short ++ more) = short.length ∨
      e.closesAt (short.drop (e.bodyLength (short ++ more))) = true) :
    e.bodyLength short = e.bodyLength (short ++ more) := by
  induction short with
  | nil =>
      rcases hcut with hzero | hcloses
      · rw [hzero]
        rfl
      · rw [List.drop_nil] at hcloses
        cases hcloses
  | cons c rest ih =>
      have hstop := bodyLength_stop e (rest ++ more)
      rw [List.cons_append, bodyLength] at hcut ⊢
      rw [bodyLength]
      cases hfull : e.closesAt (c :: (rest ++ more)) with
      | true =>
          simp only [hfull, if_true, List.length_cons, List.drop_zero] at hcut ⊢
          rcases hcut with hzero | hcloses
          · omega
          · rw [if_pos hcloses]
      | false =>
          simp only [hfull, Bool.false_eq_true, if_false, List.length_cons] at hcut ⊢
          rw [Nat.add_comm 1, List.drop_succ_cons] at hcut
          cases hshort : e.closesAt (c :: rest) with
          | false =>
              simp only [Bool.false_eq_true, if_false]
              rw [ih (hcut.imp_left (by omega))]
          | true =>
              exfalso
              rcases closesAt_cut hshort hfull with ⟨front, heq, hletters, d, after, hmore, hword⟩
              injection heq with _ hrest
              rcases hcut with hlength | hcloses
              · -- The cut is where the body ends, but a word character follows it.
                have hdrop : (rest ++ more).drop (e.bodyLength (rest ++ more)) = more :=
                  List.drop_left' (by omega)
                rw [hdrop] at hstop
                rcases hstop with hnil | hcloses
                · rw [hmore] at hnil
                  cases hnil
                · rcases closesAt_head hcloses with ⟨body, hbody⟩
                  rw [hmore] at hbody
                  injection hbody with hd _
                  rw [hd] at hword
                  revert hword
                  decide
              · -- The body would end inside of a name.
                rcases closesAt_head hcloses with ⟨body, hbody⟩
                have hmem : '<' ∈ rest :=
                  List.mem_of_mem_drop (by rw [hbody]; exact List.mem_cons_self)
                rw [hrest] at hmem
                rcases List.mem_cons.mp hmem with hslash | hfront
                · revert hslash
                  decide
                · have hletter := hletters '<' hfront
                  revert hletter
                  decide

end RawElement

/-!
# Steps
-/

namespace ScanStep

def text (c : Char) (rest : Text) : ScanStep :=
  ⟨.content, contentLength (interpolationExtra (c :: rest)) rest, .content⟩

theorem text_append (c : Char) (h : (text c (short ++ more)).extra ≤ short.length) :
    text c short = text c (short ++ more) := by
  have hle := interpolationExtra_le c (short ++ more)
  have hinside := le_contentLength hle
  simp only [text] at h ⊢
  have hextra : interpolationExtra (c :: short) = interpolationExtra (c :: (short ++ more)) :=
    interpolationExtra_append c (by omega)
  rw [hextra, contentLength_append _ h]

theorem content_tag (d : Char) (rest : Text) :
    content '<' (d :: rest) =
      if d = '!' then
        if ['-', '-'].isPrefixOf rest then ⟨.comment, 3 + commentLength (rest.drop 2), .content⟩
        else ⟨.comment, 1 + declarationLength rest, .content⟩
      else if d = '/' then ⟨.endTagOpen, 1, .inEndTag⟩
      else if Text.isLetter d then ⟨.startTagOpen, 0, .afterOpen⟩
      else text '<' (d :: rest) := by
  simp only [content, if_true]
  split
  · rename_i body heq
    cases heq
    rfl
  · rename_i body hnot heq
    cases heq
    rw [if_pos rfl, if_neg]
    intro hlead
    rcases List.isPrefixOf_iff_prefix.mp hlead with ⟨tail, htail⟩
    exact hnot tail (by rw [← htail]; rfl)
  · rename_i tail heq
    cases heq
    rfl
  · rename_i e tail hnot hdeclaration hslash heq
    cases heq
    rw [if_neg hdeclaration, if_neg hslash]
    rfl
  · rename_i heq
    cases heq

theorem content_other {c : Char} (h : c ≠ '<') (rest : Text) : content c rest = text c rest := by
  simp [content, text, h]

theorem content_append (c : Char) (hextra : (content c (short ++ more)).extra ≤ short.length)
    (hopen : (content c (short ++ more)).kind = .startTagOpen -> short ≠ []) :
    content c short = content c (short ++ more) := by
  by_cases hc : c = '<'
  · subst hc
    cases short with
    | nil =>
        cases more with
        | nil =>
            rfl
        | cons d rest =>
            rw [List.nil_append, content_tag] at hextra hopen ⊢
            split at hextra
            · split at hextra <;> simp at hextra
            · rename_i hbang
              split at hextra
              · simp at hextra
              · rename_i hslash
                split at hextra
                · rename_i hletter
                  rw [if_neg hbang, if_neg hslash, if_pos hletter] at hopen
                  exact absurd rfl (hopen rfl)
                · rename_i hletter
                  rw [if_neg hbang, if_neg hslash, if_neg hletter]
                  have hsame : text '<' [] = text '<' ([] ++ d :: rest) := text_append '<' hextra
                  exact hsame
    | cons d rest =>
        rw [List.cons_append, content_tag, List.length_cons] at hextra
        rw [List.cons_append, content_tag, content_tag]
        by_cases hbang : d = '!'
        · rw [if_pos hbang] at hextra ⊢
          rw [if_pos hbang]
          by_cases hcomment : ['-', '-'].isPrefixOf (rest ++ more) = true
          · rw [if_pos hcomment] at hextra ⊢
            simp only at hextra
            have hlength : ['-', '-'].length ≤ rest.length := by
              simp only [List.length_cons, List.length_nil]
              omega
            have hshort : ['-', '-'].isPrefixOf rest = true := by
              rw [List.isPrefixOf_iff_prefix] at hcomment ⊢
              exact List.prefix_of_prefix_length_le hcomment (List.prefix_append rest more) hlength
            have hdrop : (rest ++ more).drop 2 = rest.drop 2 ++ more :=
              List.drop_append_of_le_length hlength
            rw [hdrop] at hextra ⊢
            have hsame : commentLength (rest.drop 2) = commentLength (rest.drop 2 ++ more) :=
              commentLength_append (by rw [List.length_drop]; omega)
            rw [if_pos hshort, hsame]
          · rw [if_neg hcomment] at hextra ⊢
            simp only at hextra
            have hshort : ¬ ['-', '-'].isPrefixOf rest = true := by
              intro hlead
              apply hcomment
              rw [List.isPrefixOf_iff_prefix] at hlead ⊢
              exact hlead.trans (List.prefix_append rest more)
            have hsame : declarationLength rest = declarationLength (rest ++ more) :=
              declarationLength_append (by omega)
            rw [if_neg hshort, hsame]
        · rw [if_neg hbang] at hextra ⊢
          rw [if_neg hbang]
          by_cases hslash : d = '/'
          · rw [if_pos hslash, if_pos hslash]
          · rw [if_neg hslash] at hextra ⊢
            rw [if_neg hslash]
            by_cases hletter : Text.isLetter d = true
            · rw [if_pos hletter, if_pos hletter]
            · rw [if_neg hletter] at hextra ⊢
              rw [if_neg hletter]
              exact text_append '<' hextra
  · rw [content_other hc] at hextra ⊢
    rw [content_other hc]
    exact text_append c hextra

theorem inTag_append (body : Option RawElement) (c : Char)
    (hextra : (inTag body c (short ++ more)).extra ≤ short.length)
    (hopen : (inTag body c (short ++ more)).kind = .startTagOpen -> short ≠ []) :
    inTag body c short = inTag body c (short ++ more) := by
  unfold inTag at hextra hopen ⊢
  by_cases hblank : Text.isBlank c = true
  · rw [if_pos hblank] at hextra ⊢
    rw [if_pos hblank, runLength_append _ hextra]
  · rw [if_neg hblank] at hextra hopen ⊢
    rw [if_neg hblank]
    by_cases hself : c = '/' ∧ (short ++ more).head? = some '>'
    · rw [if_pos hself] at hextra ⊢
      cases short with
      | nil =>
          simp at hextra
      | cons d rest =>
          have hshort : c = '/' ∧ (d :: rest).head? = some '>' := hself
          rw [if_pos hshort]
    · have hshort : ¬ (c = '/' ∧ short.head? = some '>') := by
        intro hhead
        apply hself
        refine ⟨hhead.1, ?_⟩
        rw [List.head?_append, hhead.2]
        rfl
      rw [if_neg hself] at hextra hopen ⊢
      rw [if_neg hshort]
      by_cases hclose : c = '>'
      · rw [if_pos hclose, if_pos hclose]
      · rw [if_neg hclose] at hextra hopen ⊢
        rw [if_neg hclose]
        by_cases hc : c = '<'
        · rw [if_pos hc] at hextra hopen ⊢
          rw [if_pos hc]
          exact content_append c hextra hopen
        · rw [if_neg hc] at hextra ⊢
          rw [if_neg hc]
          by_cases hname : isAttributeNameChar c = true
          · rw [if_pos hname] at hextra ⊢
            rw [if_pos hname, runLength_append _ hextra]
          · rw [if_neg hname, if_neg hname]

theorem afterOpen_append (c : Char)
    (hextra : (afterOpen c (short ++ more)).extra ≤ short.length)
    (hopen : (afterOpen c (short ++ more)).kind = .startTagOpen -> short ≠ []) :
    afterOpen c short = afterOpen c (short ++ more) := by
  unfold afterOpen at hextra hopen ⊢
  by_cases hname : isTagNameChar c = true
  · rw [if_pos hname] at hextra ⊢
    simp only at hextra
    rw [if_pos hname]
    simp only [runLength_append _ hextra, List.take_append_of_le_length hextra]
  · rw [if_neg hname] at hextra hopen ⊢
    rw [if_neg hname]
    exact inTag_append none c hextra hopen

theorem afterName_append (body : Option RawElement) (c : Char)
    (hextra : (afterName body c (short ++ more)).extra ≤ short.length)
    (hopen : (afterName body c (short ++ more)).kind = .startTagOpen -> short ≠ []) :
    afterName body c short = afterName body c (short ++ more) := by
  unfold afterName at hextra hopen ⊢
  by_cases hblank : Text.isBlank c = true
  · rw [if_pos hblank] at hextra ⊢
    rw [if_pos hblank, runLength_append _ hextra]
  · rw [if_neg hblank] at hextra hopen ⊢
    rw [if_neg hblank]
    by_cases hassign : c = '='
    · rw [if_pos hassign, if_pos hassign]
    · rw [if_neg hassign] at hextra hopen ⊢
      rw [if_neg hassign]
      exact inTag_append body c hextra hopen

theorem beforeValue_append (body : Option RawElement) (c : Char)
    (hextra : (beforeValue body c (short ++ more)).extra ≤ short.length)
    (hopen : (beforeValue body c (short ++ more)).kind = .startTagOpen -> short ≠ []) :
    beforeValue body c short = beforeValue body c (short ++ more) := by
  unfold beforeValue at hextra hopen ⊢
  by_cases hblank : Text.isBlank c = true
  · rw [if_pos hblank] at hextra ⊢
    rw [if_pos hblank, runLength_append _ hextra]
  · rw [if_neg hblank] at hextra hopen ⊢
    rw [if_neg hblank]
    by_cases hquote : c = Text.doubleQuote ∨ c = Text.singleQuote
    · rw [if_pos hquote] at hextra ⊢
      rw [if_pos hquote, quotedLength_append _ hextra]
    · rw [if_neg hquote] at hextra hopen ⊢
      rw [if_neg hquote]
      by_cases hvalue : isUnquotedValueChar c = true
      · rw [if_pos hvalue] at hextra ⊢
        rw [if_pos hvalue, runLength_append _ hextra]
      · rw [if_neg hvalue] at hextra hopen ⊢
        rw [if_neg hvalue]
        exact inTag_append body c hextra hopen

theorem inEndTag_append (c : Char) (hextra : (inEndTag c (short ++ more)).extra ≤ short.length)
    (hopen : (inEndTag c (short ++ more)).kind = .startTagOpen -> short ≠ []) :
    inEndTag c short = inEndTag c (short ++ more) := by
  unfold inEndTag at hextra hopen ⊢
  by_cases hblank : Text.isBlank c = true
  · rw [if_pos hblank] at hextra ⊢
    rw [if_pos hblank, runLength_append _ hextra]
  · rw [if_neg hblank] at hextra hopen ⊢
    rw [if_neg hblank]
    by_cases hname : isTagNameChar c = true
    · rw [if_pos hname] at hextra ⊢
      rw [if_pos hname, runLength_append _ hextra]
    · rw [if_neg hname] at hextra hopen ⊢
      rw [if_neg hname]
      by_cases hclose : c = '>'
      · rw [if_pos hclose, if_pos hclose]
      · rw [if_neg hclose] at hextra hopen ⊢
        rw [if_neg hclose]
        by_cases hc : c = '<'
        · rw [if_pos hc] at hextra hopen ⊢
          rw [if_pos hc]
          exact content_append c hextra hopen
        · rw [if_neg hc, if_neg hc]

theorem rawBody_append (e : RawElement) (c : Char)
    (hextra : (rawBody e c (short ++ more)).extra ≤ short.length)
    (hopen : (rawBody e c (short ++ more)).kind = .startTagOpen -> short ≠ [])
    (hcut : e.bodyLength (c :: (short ++ more)) = (c :: short).length ∨
      e.closesAt ((c :: short).drop (e.bodyLength (c :: (short ++ more)))) = true) :
    rawBody e c short = rawBody e c (short ++ more) := by
  have hbody : e.bodyLength (c :: short) = e.bodyLength (c :: short ++ more) :=
    e.bodyLength_append hcut
  rw [List.cons_append] at hbody
  unfold rawBody at hextra hopen ⊢
  rw [RawElement.bodyLength, RawElement.bodyLength] at hbody
  cases hfull : e.closesAt (c :: (short ++ more)) with
  | true =>
      rw [if_pos hfull] at hextra hopen hbody
      have hshort : e.closesAt (c :: short) = true := by
        cases hcloses : e.closesAt (c :: short) with
        | true =>
            rfl
        | false =>
            rw [if_neg (by simp [hcloses])] at hbody
            omega
      rw [if_pos rfl, if_pos hshort]
      exact content_append c hextra hopen
  | false =>
      have hnot : ¬ e.closesAt (c :: (short ++ more)) = true := by simp [hfull]
      have hshort : ¬ e.closesAt (c :: short) = true := by
        intro hcloses
        rw [if_pos hcloses, if_neg hnot] at hbody
        omega
      rw [if_neg hshort, if_neg hnot] at hbody
      rw [if_neg hshort, if_neg (by simp), Nat.add_left_cancel hbody]

/-- A step that fits into the front of a text is the same when the rest is cut off. -/
theorem next_append (mode : ScanMode) (c : Char)
    (hextra : (next mode c (short ++ more)).extra ≤ short.length)
    (hopen : (next mode c (short ++ more)).kind = .startTagOpen -> short ≠ [])
    (hraw : forall e, mode = .rawBody e ->
      e.bodyLength (c :: (short ++ more)) = (c :: short).length ∨
        e.closesAt ((c :: short).drop (e.bodyLength (c :: (short ++ more)))) = true) :
    next mode c short = next mode c (short ++ more) := by
  cases mode with
  | content =>
      exact content_append c hextra hopen
  | afterOpen =>
      exact afterOpen_append c hextra hopen
  | inTag body =>
      exact inTag_append body c hextra hopen
  | afterName body =>
      exact afterName_append body c hextra hopen
  | beforeValue body =>
      exact beforeValue_append body c hextra hopen
  | inEndTag =>
      exact inEndTag_append c hextra hopen
  | rawBody e =>
      exact rawBody_append e c hextra hopen (hraw e rfl)

end ScanStep

end SfcServer
