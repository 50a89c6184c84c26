import SfcServer.Markup.Region
import SfcServer.Proofs.Template.Sequence

/-!
# Offsets between braces

An offset lies in an interpolation when the nearest braces before it open one and the
nearest ones after it close one.  The collector reads content from the left instead, and
pairs the first opening braces with the first closing ones.  What it finds reaches at
least as far: the offset lies in the text of one of the interpolations that it finds, or
next to that text, with nothing but blanks and closing braces between them.
-/

namespace SfcServer

namespace Text

/-- A character stands twice at an index of a text. -/
def PairAt (c : Char) (t : Text) (i : Nat) : Prop :=
  exists rest, t.drop i = c :: c :: rest

theorem pairAt_succ {c d : Char} {t : Text} {i : Nat} :
    PairAt c (d :: t) (i + 1) ↔ PairAt c t i :=
  Iff.rfl

theorem pairAt_of_isPrefixOf {c : Char} {t : Text} (h : [c, c].isPrefixOf t = true) :
    PairAt c t 0 := by
  rcases List.isPrefixOf_iff_prefix.mp h with ⟨rest, heq⟩
  exact ⟨rest, heq.symm⟩

theorem PairAt.of_take {c : Char} {t : Text} {i n : Nat} (h : PairAt c (t.take n) i) :
    PairAt c t i ∧ i + 2 ≤ n := by
  rcases h with ⟨rest, hdrop⟩
  have hlength := congrArg List.length hdrop
  simp only [List.length_drop, List.length_take, List.length_cons] at hlength
  refine ⟨⟨rest ++ t.drop n, ?_⟩, by omega⟩
  rw [← t.slice_append_drop (by omega : i ≤ n), slice, hdrop]
  rfl

theorem PairAt.take {c : Char} {t : Text} {i n : Nat} (h : PairAt c t i) (hn : i + 2 ≤ n) :
    PairAt c (t.take n) i := by
  rcases h with ⟨rest, hdrop⟩
  refine ⟨rest.take (n - i - 2), ?_⟩
  obtain ⟨k, hk⟩ : exists k, n - i = k + 2 := ⟨n - i - 2, by omega⟩
  rw [List.drop_take, hdrop, hk]
  simp

theorem indexOf?_pair {c : Char} {t : Text} {i : Nat} (h : indexOf? [c, c] t = some i) :
    PairAt c t i := by
  induction t generalizing i with
  | nil =>
      cases h
  | cons d rest ih =>
      rw [indexOf?] at h
      split at h
      · rename_i hlead
        cases h
        exact pairAt_of_isPrefixOf hlead
      · rcases Option.map_eq_some_iff.mp h with ⟨j, hj, hji⟩
        subst hji
        exact pairAt_succ.mpr (ih hj)

theorem lastIndexOf?_pair {c : Char} {t : Text} {i : Nat} (h : lastIndexOf? [c, c] t = some i) :
    PairAt c t i := by
  induction t generalizing i with
  | nil =>
      cases h
  | cons d rest ih =>
      rw [lastIndexOf?] at h
      split at h
      · rename_i j hj
        cases h
        exact pairAt_succ.mpr (ih hj)
      · split at h
        · rename_i hlead
          cases h
          exact pairAt_of_isPrefixOf hlead
        · cases h

theorem PairAt.le_lastIndexOf? {c : Char} {t : Text} {i : Nat} (h : PairAt c t i) :
    exists j, lastIndexOf? [c, c] t = some j ∧ i ≤ j := by
  induction t generalizing i with
  | nil =>
      rcases h with ⟨rest, hdrop⟩
      rw [List.drop_nil] at hdrop
      cases hdrop
  | cons d rest ih =>
      rw [lastIndexOf?]
      cases i with
      | zero =>
          cases hlast : lastIndexOf? [c, c] rest with
          | some j =>
              exact ⟨j + 1, rfl, Nat.zero_le _⟩
          | none =>
              rcases h with ⟨more, hdrop⟩
              rw [List.drop_zero] at hdrop
              refine ⟨0, ?_, Nat.le_refl _⟩
              rw [hdrop]
              simp [List.isPrefixOf]
      | succ i =>
          rcases ih (pairAt_succ.mp h) with ⟨j, hj, hle⟩
          rw [hj]
          exact ⟨j + 1, rfl, by omega⟩

end Text

/-- Braces open before an index, are not closed up to it, and are closed after it. -/
structure Text.Enclosed (t : Text) (i opened closed : Nat) : Prop where
  opens : PairAt '\x7b' t opened
  before : opened + 2 ≤ i
  unclosed : forall j, opened < j -> j + 2 ≤ i -> ¬ PairAt '\x7d' t j
  after : i ≤ closed
  closes : PairAt '\x7d' t closed

theorem Region.inInterpolation_enclosed {content : Text} {i : Nat}
    (h : inInterpolation content i = true) :
    exists opened closed, Text.Enclosed content i opened closed := by
  have hopening : "\x7b\x7b".toList = ['\x7b', '\x7b'] := by decide
  have hclosing : "\x7d\x7d".toList = ['\x7d', '\x7d'] := by decide
  unfold inInterpolation at h
  rw [hopening, hclosing] at h
  simp only at h
  split at h
  · rename_i opened closed hopened hclosed
    have hopen := (Text.lastIndexOf?_pair hopened).of_take
    rw [Bool.and_eq_true] at h
    refine ⟨opened, i + closed, hopen.1, hopen.2, ?_, Nat.le_add_right _ _, ?_⟩
    · intro j hj hji hpair
      rcases (hpair.take hji).le_lastIndexOf? with ⟨last, hlast, hle⟩
      have hbefore := h.1
      have hlt : opened < last := by omega
      rw [hlast] at hbefore
      simp [hlt] at hbefore
    · rcases Text.indexOf?_pair hclosed with ⟨rest, hdrop⟩
      exact ⟨rest, by rw [← List.drop_drop, hdrop]⟩
  · cases h

theorem Text.Enclosed.tail {c : Char} {rest : Text} {i opened closed : Nat}
    (h : Enclosed (c :: rest) i (opened + 1) closed) :
    exists index stop, i = index + 1 ∧ Enclosed rest index opened stop := by
  have hbefore := h.before
  have hafter := h.after
  obtain ⟨index, hindex⟩ : exists index, i = index + 1 := ⟨i - 1, by omega⟩
  obtain ⟨stop, hstop⟩ : exists stop, closed = stop + 1 := ⟨closed - 1, by omega⟩
  subst hindex
  subst hstop
  refine ⟨index, stop, rfl, h.opens, by omega, ?_, by omega, h.closes⟩
  intro j hj hji hpair
  exact h.unclosed (j + 1) (by omega) (by omega) hpair

namespace Expression

/-- An interpolation was found whose braces stand around an index, or close right before it. -/
def FoundAround (offset : Nat) (found : List (Nat × Text)) (text : Text) (i : Nat) : Prop :=
  exists start body inside after, text.drop start = '\x7b' :: '\x7b' :: body ∧
    splitAtClose body = some (inside, after) ∧
    (offset + start + 2 + (inside.takeWhile Text.isBlank).length, Text.trim inside) ∈ found ∧
    start + 2 ≤ i ∧ i ≤ start + 2 + inside.length + 1

theorem FoundAround.cons {offset i : Nat} {found more : List (Nat × Text)} {c : Char}
    {rest : Text} (h : FoundAround (offset + 1) found rest i)
    (hmore : forall x, x ∈ found -> x ∈ more) : FoundAround offset more (c :: rest) (i + 1) := by
  rcases h with ⟨start, body, inside, after, hdrop, hsplit, hmem, hlow, hhigh⟩
  refine ⟨start + 1, body, inside, after, hdrop, hsplit, ?_, by omega, by omega⟩
  have hstart : offset + (start + 1) + 2 = offset + 1 + start + 2 := by omega
  rw [hstart]
  exact hmore _ hmem

theorem splitAtClose_of_pair {t : Text} {i : Nat} (h : Text.PairAt '\x7d' t i) :
    splitAtClose t ≠ none := by
  fun_induction splitAtClose t generalizing i with
  | case1 rest =>
      simp
  | case2 c rest hnot ih =>
      cases i with
      | zero =>
          rcases h with ⟨more, hdrop⟩
          rw [List.drop_zero] at hdrop
          injection hdrop with hc hrest
          exact absurd hrest (hnot more hc)
      | succ i =>
          simpa using ih (Text.pairAt_succ.mp h)
  | case3 =>
      rcases h with ⟨more, hdrop⟩
      rw [List.drop_nil] at hdrop
      cases hdrop

theorem pair_after_close {body inside after : Text}
    (hsplit : splitAtClose body = some (inside, after)) {opened : Nat}
    (h : Text.PairAt '\x7b' body opened) (hle : inside.length ≤ opened) :
    body.length - after.length ≤ opened := by
  rcases splitAtClose_eq hsplit with ⟨run, hbody, hrun⟩
  rcases h with ⟨rest, hdrop⟩
  have hlength := congrArg List.length hbody
  simp only [List.length_append, List.length_cons] at hlength
  by_cases hlt : opened < inside.length + (run.length + 2)
  · exfalso
    have hbraces : body.drop inside.length = ('\x7d' :: '\x7d' :: run) ++ after := by
      rw [hbody, List.drop_left]
      rfl
    have hopened : opened = inside.length + (opened - inside.length) := by omega
    rw [hopened, ← List.drop_drop, hbraces] at hdrop
    have hhead := congrArg List.head? hdrop
    rw [List.head?_drop, List.getElem?_append_left
      (by simp only [List.length_cons]; omega)] at hhead
    have hmem : '\x7b' ∈ '\x7d' :: '\x7d' :: run := List.mem_of_getElem? hhead
    simp only [List.mem_cons] at hmem
    rcases hmem with heq | heq | hmem
    · revert heq
      decide
    · revert heq
      decide
    · have heq := hrun _ hmem
      revert heq
      decide
  · omega

theorem interpolationsFrom_around (offset passed : Nat) (text : Text) :
    forall i opened closed, passed ≤ opened -> Text.Enclosed text i opened closed ->
      FoundAround offset (interpolationsFrom offset passed text) text i := by
  fun_induction interpolationsFrom offset passed text with
  | case1 offset passed =>
      intro i opened closed _ h
      rcases h.opens with ⟨rest, hdrop⟩
      rw [List.drop_nil] at hdrop
      cases hdrop
  | case2 offset passed c rest ih =>
      intro i opened closed hpassed h
      cases opened with
      | zero =>
          omega
      | succ opened =>
          rcases h.tail with ⟨index, stop, hindex, henclosed⟩
          rw [hindex]
          exact (ih index opened stop (by omega) henclosed).cons fun _ hx => hx
  | case3 offset body inside after hsplit ih =>
      intro i opened closed _ h
      rcases splitAtClose_eq hsplit with ⟨run, hbody, hrun⟩
      have hbefore := h.before
      -- The braces that open before the index stand in this interpolation or behind it.
      by_cases hinside : opened < inside.length + 2
      · refine ⟨0, body, inside, after, rfl, hsplit, List.mem_cons_self, by omega, ?_⟩
        have hpair : Text.PairAt '\x7d' ('\x7b' :: '\x7b' :: body) (inside.length + 2) := by
          refine ⟨run ++ after, ?_⟩
          rw [List.drop_succ_cons, List.drop_succ_cons, hbody, List.drop_left]
        have hunclosed := h.unclosed _ hinside
        apply Nat.le_of_not_lt
        intro hlt
        exact hunclosed (by omega) hpair
      · obtain ⟨before, hopened⟩ : exists before, opened = before + 2 := ⟨opened - 2, by omega⟩
        subst hopened
        have hafter := pair_after_close hsplit h.opens (by omega)
        rcases h.tail with ⟨index, stop, hindex, henclosed⟩
        rw [hindex]
        refine (ih index (before + 1) stop ?_ henclosed).cons fun _ hx => List.mem_cons_of_mem _ hx
        simp only [List.length_cons]
        omega
  | case4 offset body hsplit ih =>
      intro i opened closed _ h
      cases opened with
      | zero =>
          -- These braces are closed somewhere, for those after the index close them.
          have hclosed : 2 ≤ closed := by
            have hbefore := h.before
            have hafter := h.after
            omega
          obtain ⟨shift, heq⟩ : exists shift, closed = shift + 2 := ⟨closed - 2, by omega⟩
          have hpair := h.closes
          rw [heq] at hpair
          exact absurd hsplit (splitAtClose_of_pair hpair)
      | succ opened =>
          rcases h.tail with ⟨index, stop, hindex, henclosed⟩
          rw [hindex]
          exact (ih index opened stop (Nat.zero_le _) henclosed).cons fun _ hx => hx
  | case5 offset c rest hnot ih =>
      intro i opened closed _ h
      cases opened with
      | zero =>
          rcases h.opens with ⟨body, hdrop⟩
          rw [List.drop_zero] at hdrop
          injection hdrop with hc hrest
          exact absurd hrest (hnot body hc)
      | succ opened =>
          rcases h.tail with ⟨index, stop, hindex, henclosed⟩
          rw [hindex]
          exact (ih index opened stop (Nat.zero_le _) henclosed).cons fun _ hx => hx

/-- Only blanks and closing braces separate an offset from an expression. -/
def Padded (t : Text) (x : Expression) (offset : Nat) : Prop :=
  (offset < x.start ∧ (t.slice offset x.start).all Text.isBlank = true) ∨
    (x.stop < offset ∧
      (t.slice x.stop offset).all (fun c => Text.isBlank c || c == '\x7d') = true)

/-- An offset in an interpolation lies in one that is collected, or beside its trimmed text. -/
theorem ofContent_around {t : Text} {token : Token} {offset : Nat}
    (hat : t.StandsAt token.offset token.text) (hle : token.offset ≤ offset)
    (h : Region.inInterpolation token.text (offset - token.offset) = true) :
    token.offset < offset ∧ offset < token.stop ∧
      exists x, x ∈ ofContent token ∧ x.kind = .interpolation ∧
        ((x.start ≤ offset ∧ offset ≤ x.stop) ∨ x.Padded t offset) := by
  rcases Region.inInterpolation_enclosed h with ⟨opened, closed, henclosed⟩
  rcases interpolationsFrom_around token.offset 0 token.text _ opened closed (Nat.zero_le _)
    henclosed with ⟨start, body, inside, after, hdrop, hsplit, hmem, hlow, hhigh⟩
  rcases splitAtClose_eq hsplit with ⟨run, hbody, _⟩
  rcases Text.trim_split inside with ⟨blanks, hinside, hblanks⟩
  have hdropLength := congrArg List.length hdrop
  have hbodyLength := congrArg List.length hbody
  have hinsideLength := congrArg List.length hinside
  simp only [List.length_drop, List.length_cons] at hdropLength
  simp only [List.length_append, List.length_cons] at hbodyLength hinsideLength
  have hstop : token.stop = token.offset + token.text.length := rfl
  have hstands : t.StandsAt (token.offset + start + 2) body := by
    rw [← List.take_append_drop start token.text, hdrop] at hat
    have hpart := hat.right.tail.tail
    rw [List.length_take, Nat.min_eq_left (by omega)] at hpart
    exact hpart
  rw [hbody, hinside] at hstands
  simp only [List.append_assoc] at hstands
  have hlead := hstands.left
  have hafter := hstands.right.right
  have hbraces : blanks ++ '\x7d' :: '\x7d' :: (run ++ after) =
      (blanks ++ ['\x7d', '\x7d']) ++ (run ++ after) := by simp
  rw [hbraces] at hafter
  refine ⟨by omega, by omega, _, List.mem_map.mpr ⟨_, hmem, rfl⟩, rfl, ?_⟩
  simp only [Padded, ofInterpolation]
  by_cases hbefore : offset < token.offset + start + 2 + (inside.takeWhile Text.isBlank).length
  · refine Or.inr (Or.inl ⟨hbefore, hlead.slice_all ?_ (by omega) (Nat.le_refl _)⟩)
    intro c hc
    exact List.all_eq_true.mp List.all_takeWhile c hc
  · by_cases hbehind : token.offset + start + 2 + (inside.takeWhile Text.isBlank).length +
        (Text.trim inside).length < offset
    · refine Or.inr (Or.inr ⟨hbehind, hafter.left.slice_all ?_ (Nat.le_refl _) ?_⟩)
      · intro c hc
        rcases List.mem_append.mp hc with hblank | hbrace
        · simp [hblanks c hblank]
        · simp only [List.mem_cons, List.not_mem_nil, or_false, or_self] at hbrace
          simp [hbrace]
      · simp only [List.length_append, List.length_cons, List.length_nil]
        omega
    · exact Or.inl ⟨by omega, by omega⟩

end Expression

end SfcServer
