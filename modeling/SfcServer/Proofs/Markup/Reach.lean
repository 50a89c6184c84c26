import SfcServer.Proofs.Markup.Modes
import SfcServer.Proofs.Text.Parts

/-!
# Places that a scan passes

The scan of a whole text passes an offset in a mode when the tokens from there on are
those of a scan that starts there in that mode.  Elements begin and end at such
places, so that what stands between two of them can be scanned on its own.
-/

namespace SfcServer

def tokensOf (t : Text) : List Token :=
  scan t 0 t.length

theorem tokensOf_eq (t : Text) : tokensOf t = scanFrom .content 0 t := by
  simp [tokensOf, scan, Text.slice]

theorem tokensOf_tiled (t : Text) : Tiled 0 t (tokensOf t) := by
  rw [tokensOf_eq]
  exact scanFrom_tiled _ _ _

theorem token_unique {t : Text} {a b : Token} (ha : a ∈ tokensOf t) (hb : b ∈ tokensOf t)
    (h : a.offset = b.offset) : a = b := by
  have habounds := (tokensOf_tiled t).mem_bounds ha
  have hbbounds := (tokensOf_tiled t).mem_bounds hb
  rcases (tokensOf_tiled t).separated ha hb with heq | hle | hle
  · exact heq
  · omega
  · omega

/-- The scan of a text passes an offset in a mode. -/
structure Reaches (t : Text) (mode : ScanMode) (offset : Nat) : Prop where
  le : offset ≤ t.length
  split : exists before, tokensOf t = before ++ scanFrom mode offset (t.drop offset) ∧
    Tiled 0 (t.take offset) before

namespace Reaches

theorem start (t : Text) : Reaches t .content 0 where
  le := Nat.zero_le _
  split := ⟨[], by simp [tokensOf_eq], by simpa using Tiled.done 0⟩

theorem finish (t : Text) (mode : ScanMode) : Reaches t mode t.length where
  le := Nat.le_refl _
  split := ⟨tokensOf t, by simp [scanFrom_nil], by simpa using tokensOf_tiled t⟩

theorem next {t : Text} {mode : ScanMode} {offset : Nat} {c : Char} {rest : Text}
    (h : Reaches t mode offset) (hdrop : t.drop offset = c :: rest) :
    Reaches t (ScanStep.next mode c rest).mode
      (offset + 1 + (ScanStep.next mode c rest).extra) := by
  rcases h.split with ⟨before, htokens, htiled⟩
  have hextra := ScanStep.extra_le mode c rest
  have hlength := congrArg List.length hdrop
  have hle := h.le
  simp only [List.length_drop, List.length_cons] at hlength
  generalize hstep : ScanStep.next mode c rest = step at hextra
  have hrest := Text.drop_step hdrop step.extra
  have htake : t.take (offset + 1 + step.extra) =
      t.take offset ++ (c :: rest.take step.extra) := by
    rw [Nat.add_assoc, List.take_add, hdrop, Nat.add_comm, List.take_succ_cons]
  refine ⟨by omega, before ++ [step.token c rest offset], ?_, ?_⟩
  · rw [htokens, hdrop, scanFrom_cons, hstep, hrest]
    simp
  · rw [htake]
    refine htiled.append ?_
    have hoffset : 0 + (t.take offset).length = offset := by
      simp only [List.length_take]
      omega
    rw [hoffset]
    have htoken : Tiled offset ((c :: rest.take step.extra) ++ [])
        [step.token c rest offset] :=
      Tiled.token (by simp) (Tiled.done _)
    simpa using htoken

theorem fresh {t : Text} {mode : ScanMode} {offset : Nat} {c : Char} {rest : Text}
    (h : Reaches t mode offset) (hdrop : t.drop offset = c :: rest)
    (hfresh : ScanStep.next mode c rest = ScanStep.content c rest) :
    Reaches t .content offset := by
  rcases h.split with ⟨before, htokens, htiled⟩
  refine ⟨h.le, before, ?_, htiled⟩
  rw [htokens, hdrop, scanFrom_cons, scanFrom_cons, hfresh]
  rfl

theorem mem {t : Text} {mode : ScanMode} {offset : Nat} (h : Reaches t mode offset)
    {token : Token} (hmem : token ∈ scanFrom mode offset (t.drop offset)) :
    token ∈ tokensOf t := by
  rcases h.split with ⟨before, htokens, _⟩
  rw [htokens]
  exact List.mem_append_right _ hmem

theorem token_mem {t : Text} {mode : ScanMode} {offset : Nat} {c : Char} {rest : Text}
    (h : Reaches t mode offset) (hdrop : t.drop offset = c :: rest) :
    (ScanStep.next mode c rest).token c rest offset ∈ tokensOf t := by
  apply h.mem
  rw [hdrop, scanFrom_cons]
  exact List.mem_cons_self

theorem mem_of_le {t : Text} {mode : ScanMode} {offset : Nat} (h : Reaches t mode offset)
    {token : Token} (hmem : token ∈ tokensOf t) (hle : offset ≤ token.offset) :
    token ∈ scanFrom mode offset (t.drop offset) := by
  rcases h.split with ⟨before, htokens, htiled⟩
  rw [htokens] at hmem
  rcases List.mem_append.mp hmem with hbefore | hafter
  · have hbounds := htiled.mem_bounds hbefore
    simp only [List.length_take] at hbounds
    omega
  · exact hafter

theorem stop_le {t : Text} {mode : ScanMode} {offset : Nat} (h : Reaches t mode offset)
    {token : Token} (hmem : token ∈ tokensOf t) (hlt : token.offset < offset) :
    token.stop ≤ offset := by
  rcases h.split with ⟨before, htokens, htiled⟩
  rw [htokens] at hmem
  rcases List.mem_append.mp hmem with hbefore | hafter
  · have hbounds := htiled.mem_bounds hbefore
    simp only [List.length_take] at hbounds
    omega
  · have hbounds := (scanFrom_tiled mode offset (t.drop offset)).mem_bounds hafter
    omega

/-- The token at a place that a scan passes is the one its next step takes. -/
theorem token_eq {t : Text} {mode : ScanMode} {offset : Nat} {c : Char} {rest : Text}
    (h : Reaches t mode offset) (hdrop : t.drop offset = c :: rest)
    {token : Token} (hmem : token ∈ tokensOf t) (hle : offset ≤ token.offset)
    (hlt : token.offset < offset + 1 + (ScanStep.next mode c rest).extra) :
    token = (ScanStep.next mode c rest).token c rest offset := by
  have hscan := h.mem_of_le hmem hle
  rw [hdrop, scanFrom_cons] at hscan
  rcases List.mem_cons.mp hscan with heq | hlater
  · exact heq
  · have hbounds := (scanFrom_tiled _ _ _).mem_bounds hlater
    omega

end Reaches

/-!
# Start tags

The head of an element is its start tag up to the `>` or to the `<` that breaks it off.
-/

/-- The kinds of tokens between the `<` of a start tag and its end. -/
def TokenKind.inHead : TokenKind -> Bool
  | .startTag | .attributeName | .delimiterAssign | .attributeValue => true
  | .whitespace | .unknown => true
  | _ => false

/-- The kinds of tokens in an end tag after its `</`. -/
def TokenKind.inEndTag : TokenKind -> Bool
  | .endTag | .endTagClose | .whitespace | .unknown => true
  | _ => false

/-- The tokens of the start tag that opens at an offset, after its `<`. -/
def headTokens (t : Text) (start : Nat) : List Token :=
  (scanFrom .content start (t.drop start)).tail.takeWhile (·.kind.inHead)

/-- The tokens after the start tag that opens at an offset, its `>` included. -/
def afterHead (t : Text) (start : Nat) : List Token :=
  (scanFrom .content start (t.drop start)).tail.dropWhile (·.kind.inHead)

/-- Where the start tag that opens at an offset ends, before its `>`. -/
def headStop (t : Text) (start : Nat) : Nat :=
  match afterHead t start with
  | [] => t.length
  | token :: _ => token.offset

structure Opens (t : Text) (start : Nat) : Prop where
  reaches : Reaches t .content start
  letter : exists d rest, t.drop start = '<' :: d :: rest ∧ Text.isLetter d = true

/-- A start tag has been read up to an offset. -/
structure HeadRead (t : Text) (mode : ScanMode) (offset start : Nat) (read : List Token) :
    Prop where
  tokens : scanFrom .content start (t.drop start) =
    ⟨.startTagOpen, ['<'], start⟩ :: (read ++ scanFrom mode offset (t.drop offset))
  inHead : forall token, token ∈ read -> token.kind.inHead = true

theorem ScanStep.next_letter {d : Char} (rest : Text) (hletter : Text.isLetter d = true) :
    ScanStep.next .content '<' (d :: rest) = ⟨.startTagOpen, 0, .afterOpen⟩ := by
  have hbang : d ≠ '!' := isLetter_ne hletter (by decide)
  have hslash : d ≠ '/' := isLetter_ne hletter (by decide)
  simp only [ScanStep.next, ScanStep.content, if_true]
  split
  · rename_i heq
    injection heq with hd _
    exact absurd hd hbang
  · rename_i heq
    injection heq with hd _
    exact absurd hd hbang
  · rename_i heq
    injection heq with hd _
    exact absurd hd hslash
  · rename_i heq
    injection heq with hd _
    rw [← hd, if_pos hletter]
  · rename_i heq
    cases heq

theorem Opens.scanFrom_eq {t : Text} {start : Nat} (h : Opens t start) :
    scanFrom .content start (t.drop start) =
      ⟨.startTagOpen, ['<'], start⟩ :: scanFrom .afterOpen (start + 1) (t.drop (start + 1)) := by
  rcases h.letter with ⟨d, rest, hdrop, hletter⟩
  have hrest : t.drop (start + 1) = d :: rest := Text.drop_step hdrop 0
  rw [hdrop, scanFrom_cons, ScanStep.next_letter rest hletter, hrest]
  rfl

namespace HeadRead

variable {t : Text} {mode : ScanMode} {offset start : Nat} {read : List Token}

theorem opened (h : Opens t start) : HeadRead t .afterOpen (start + 1) start [] where
  tokens := h.scanFrom_eq
  inHead := by
    intro token hmem
    cases hmem

theorem next (h : HeadRead t mode offset start read) {c : Char} {rest : Text}
    (hdrop : t.drop offset = c :: rest)
    (hkind : (ScanStep.next mode c rest).kind.inHead = true) :
    HeadRead t (ScanStep.next mode c rest).mode
      (offset + 1 + (ScanStep.next mode c rest).extra) start
      (read ++ [(ScanStep.next mode c rest).token c rest offset]) where
  tokens := by
    rw [h.tokens, hdrop, scanFrom_cons, Text.drop_step hdrop]
    simp
  inHead := by
    intro token hmem
    rcases List.mem_append.mp hmem with hread | hlast
    · exact h.inHead token hread
    · rw [List.mem_singleton.mp hlast]
      exact hkind

theorem finished (h : HeadRead t mode offset start read)
    (hover : forall token, (scanFrom mode offset (t.drop offset)).head? = some token ->
      token.kind.inHead = false) :
    headTokens t start = read ∧ afterHead t start = scanFrom mode offset (t.drop offset) := by
  unfold headTokens afterHead
  rw [h.tokens, List.tail_cons, List.takeWhile_append_of_pos h.inHead,
    List.dropWhile_append_of_pos h.inHead]
  cases hafter : scanFrom mode offset (t.drop offset) with
  | nil =>
      simp
  | cons token tokens =>
      have hkind : token.kind.inHead = false := hover token (by rw [hafter]; rfl)
      simp [hkind]

theorem headStop_eq (h : HeadRead t mode offset start read) (hle : offset ≤ t.length)
    (hover : forall token, (scanFrom mode offset (t.drop offset)).head? = some token ->
      token.kind.inHead = false) :
    headStop t start = offset := by
  unfold headStop
  rw [(h.finished hover).right]
  cases hdrop : t.drop offset with
  | nil =>
      have hlength := List.drop_eq_nil_iff.mp hdrop
      simp only [scanFrom_nil]
      omega
  | cons c rest =>
      simp only [scanFrom_cons, ScanStep.token_offset]

end HeadRead

end SfcServer
