import Mathlib.Data.List.Nodup
import SfcServer.Proofs.Template.Location

/-!
# Values of attributes

A value in a start tag is read by two readers that do not know of each other.  One collects the
expressions of an element and pairs every value with the name before it; the other tells the
region of an offset and takes the last name that it passed.  Both come to the same: the value of a
bound attribute is one expression and an expression region, and any other value is plain markup.
-/

namespace SfcServer

variable {t : Text} {offset : Nat}

/-!
# Every value has a name
-/

/-- The scanner has read the name of an attribute, and its value may follow. -/
def ScanMode.AwaitsValue (mode : ScanMode) : Prop :=
  exists body, mode = .afterName body ∨ mode = .beforeValue body

namespace ScanStep

variable {mode : ScanMode} {c : Char} {rest : Text}

theorem Fresh.not_awaitsValue {kind : TokenKind} (h : Fresh kind mode) : ¬ mode.AwaitsValue := by
  cases h <;> simp [ScanMode.AwaitsValue]

theorem InTag.awaitsValue {body : Option RawElement} {kind : TokenKind} (h : InTag body kind mode)
    (hawaits : mode.AwaitsValue) : kind = .attributeName := by
  cases h with
  | close =>
      cases body <;> simp [ScanMode.AwaitsValue, ScanMode.afterClose] at hawaits
  | attributeName =>
      rfl
  | _ =>
      simp [ScanMode.AwaitsValue] at hawaits

/-- A value is awaited after the name of an attribute, and after what may follow that name. -/
theorem next_awaitsValue (h : (next mode c rest).mode.AwaitsValue) :
    (next mode c rest).kind = .attributeName ∨
      (mode.AwaitsValue ∧ (next mode c rest).kind ≠ .attributeName ∧
        (next mode c rest).kind ≠ .attributeValue) := by
  by_cases hmode : mode = .afterOpen
  · subst hmode
    simp only [next, afterOpen] at h ⊢
    split at h
    · simp [ScanMode.AwaitsValue] at h
    · rename_i hname
      rw [if_neg hname]
      cases hblank : Text.isBlank c with
      | true =>
          simp [inTag, hblank, ScanMode.AwaitsValue] at h
      | false =>
          rcases inTag_cases none rest hblank with hfresh | hmove
          · rw [hfresh] at h
            exact absurd h (content_fresh c rest).not_awaitsValue
          · exact Or.inl (hmove.awaitsValue h)
  · rcases next_cases hmode c rest with hfresh | hmove
    · rw [hfresh] at h
      exact absurd h (content_fresh c rest).not_awaitsValue
    · generalize (next mode c rest).kind = kind at hmove ⊢
      generalize (next mode c rest).mode = after at hmove h
      cases hmove with
      | tagBlank =>
          exact Or.inr ⟨h, by simp⟩
      | tag _ hinside =>
          exact Or.inl (hinside.awaitsValue h)
      | assign body =>
          exact Or.inr ⟨⟨body, Or.inl rfl⟩, by simp⟩
      | _ =>
          simp [ScanMode.AwaitsValue] at h

end ScanStep

theorem Region.Named.last (read : List Token) {token : Token}
    (hkind : token.kind = .attributeName) : Named (read ++ [token]) (some token.text) := by
  intro n hn
  injection hn with hn
  exact ⟨read, token, [], rfl, hkind, hn, by intro other hother; cases hother⟩

theorem scanFrom_valueOf (mode : ScanMode) (offset : Nat) (text : Text) :
    forall read, (mode.AwaitsValue -> exists n, Region.Named read (some n)) ->
      forall value, value ∈ (scanFrom mode offset text).takeWhile (·.kind.inHead) ->
        value.kind = .attributeValue ->
        exists name, ValueOf (read ++ (scanFrom mode offset text).takeWhile (·.kind.inHead))
          name value := by
  fun_induction scanFrom mode offset text with
  | case1 mode offset =>
      intro read _ value hmem
      cases hmem
  | case2 mode offset c rest step ih =>
      intro read hnamed value hmem hkind
      rw [List.takeWhile_cons] at hmem ⊢
      split
      · rename_i hhead
        rw [if_pos hhead] at hmem
        rcases List.mem_cons.mp hmem with heq | hlater
        · subst heq
          rcases (ScanStep.next_attributeValue hkind).1 with ⟨body, hmode⟩
          rcases hnamed ⟨body, Or.inr hmode⟩ with ⟨n, hlast⟩
          rcases hlast n rfl with ⟨before, name, middle, hread, hname, _, hmiddle⟩
          generalize List.takeWhile _ _ = later
          refine ⟨name, before, middle, later, ?_, hname, hkind, hmiddle⟩
          rw [hread, List.append_assoc, List.cons_append]
        · rw [List.append_cons]
          refine ih _ ?_ value hlater hkind
          intro hawaits
          rcases ScanStep.next_awaitsValue hawaits with hname | ⟨hearlier, hother⟩
          · exact ⟨_, Region.Named.last read hname⟩
          · rcases hnamed hearlier with ⟨n, hlast⟩
            exact ⟨n, hlast.keep hother⟩
      · rename_i hhead
        rw [if_neg hhead] at hmem
        cases hmem

theorem Opens.exists_valueOf {start : Nat} (h : Opens t start) {value : Token}
    (hmem : value ∈ headTokens t start) (hkind : value.kind = .attributeValue) :
    exists name, ValueOf (headTokens t start) name value := by
  unfold headTokens at hmem ⊢
  rw [h.scanFrom_eq, List.tail_cons] at hmem ⊢
  refine scanFrom_valueOf .afterOpen (start + 1) _ [] ?_ value hmem hkind
  intro hawaits
  simp [ScanMode.AwaitsValue] at hawaits

theorem Opens.mem_of_head {start : Nat} (h : Opens t start) {token : Token}
    (hmem : token ∈ headTokens t start) : token ∈ tokensOf t := by
  apply h.reaches.mem
  rw [h.tokens_eq]
  exact List.mem_append_left _ (List.mem_cons_of_mem _ hmem)

theorem Opens.mem_head_of_lt {start : Nat} (h : Opens t start) {token : Token}
    (hmem : token ∈ tokensOf t) (hstart : start < token.offset)
    (hstop : token.offset < headStop t start) : token ∈ headTokens t start := by
  have hlater := h.reaches.mem_of_le hmem (Nat.le_of_lt hstart)
  rw [h.tokens_eq] at hlater
  rcases List.mem_append.mp hlater with hhead | hafter
  · rcases List.mem_cons.mp hhead with heq | hhead
    · rw [heq] at hstart
      exact absurd hstart (Nat.lt_irrefl _)
    · exact hhead
  · have hbehind := h.headStop_bounds.2 token hafter
    omega

/-!
# What is read around a value
-/

namespace Expression

theorem readTokens_ready {start : Nat} {text : Text} {tokens : List Token}
    (h : Tiled start text tokens) :
    forall low reading, t.StandsAt start text -> low ≤ start -> reading.Ready low start ->
      exists middle, Sequenced t low middle (readTokens reading tokens) ∧
        middle ≤ start + text.length ∧
        (readingAfter reading tokens).Ready middle (start + text.length) := by
  induction h with
  | done start =>
      intro low reading _ hlow hready
      exact ⟨low, Sequenced.nil (Nat.le_refl _), hlow, hready⟩
  | token hfirst htiled ih =>
      rename_i kind first rest start tokens
      intro low reading hat hlow hready
      rcases readToken_sequenced ⟨kind, first, start⟩ hat.left hfirst hlow hready with
        ⟨middle, hfound, hmiddle, hnext⟩
      rcases ih middle _ hat.right hmiddle hnext with ⟨last, hrest, hlast, hafter⟩
      rw [List.length_append, ← Nat.add_assoc]
      exact ⟨last, hfound.append hrest, hlast, hafter⟩

theorem readToken_name_sequenced {low : Nat} {reading : TagReading} {name : Token}
    (hname : name.kind = .attributeName) (hlow : low ≤ name.offset)
    (hready : reading.Ready low name.offset) (hle : name.offset ≤ t.length) :
    Sequenced t low name.offset (readToken reading name).1 := by
  cases reading with
  | plain =>
      exact Sequenced.nil hlow
  | past =>
      simp only [readToken, hname]
      exact Sequenced.nil hlow
  | bound earlier earlierStop =>
      simp only [readToken, hname]
      exact valueless_sequenced hlow hready hle

theorem readTokens_plain {tokens : List Token}
    (h : forall token, token ∈ tokens ->
      token.kind ≠ .startTagClose ∧ token.kind ≠ .startTagSelfClose) :
    readTokens .plain tokens = [] ∧ readingAfter .plain tokens = .plain := by
  induction tokens with
  | nil =>
      exact ⟨rfl, rfl⟩
  | cons token tokens ih =>
      have hkinds := h token List.mem_cons_self
      have hstep : readToken .plain token = ([], .plain) := by
        simp [readToken, hkinds.1, hkinds.2]
      rw [readTokens_cons, readingAfter, List.foldl_cons, hstep]
      exact ih fun other hother => h other (List.mem_cons_of_mem _ hother)

theorem readTokens_kept {tokens : List Token} {name : Option Text} {nameStop : Nat}
    (h : forall token, token ∈ tokens ->
      token.kind.inHead = true ∧ token.kind ≠ .attributeName ∧ token.kind ≠ .attributeValue) :
    readTokens (.bound name nameStop) tokens = [] := by
  induction tokens with
  | nil =>
      rfl
  | cons token tokens ih =>
      have hstep : readToken (.bound name nameStop) token = ([], .bound name nameStop) := by
        have hkinds := h token List.mem_cons_self
        cases hkind : token.kind <;> simp_all [readToken, TokenKind.inHead]
      rw [readTokens_cons, hstep]
      exact ih fun other hother => h other (List.mem_cons_of_mem _ hother)

def forValue (name value : Token) : List Expression :=
  if Directive.isBinding name.text then [ofValue name.text value] else []

section Around

variable {before middle after : List Token} {name value : Token}

theorem readTokens_around_plain (hname : name.kind = .attributeName)
    (hvalue : value.kind = .attributeValue)
    (hbefore : forall token, token ∈ before ->
      token.kind ≠ .startTagClose ∧ token.kind ≠ .startTagSelfClose)
    (hmiddle : forall token, token ∈ middle -> token.kind.inHead = true) :
    readTokens .plain (before ++ name :: (middle ++ value :: after)) =
      readTokens .plain after := by
  have hnot : forall token, token ∈ before ++ name :: (middle ++ [value]) ->
      token.kind ≠ .startTagClose ∧ token.kind ≠ .startTagSelfClose := by
    intro token hmem
    simp only [List.mem_append, List.mem_cons, List.not_mem_nil, or_false] at hmem
    rcases hmem with hin | heq | hin | heq
    · exact hbefore token hin
    · rw [heq, hname]
      simp
    · have hkind := hmiddle token hin
      constructor <;> intro heq <;> rw [heq] at hkind <;> cases hkind
    · rw [heq, hvalue]
      simp
  have hsplit : before ++ name :: (middle ++ value :: after) =
      (before ++ name :: (middle ++ [value])) ++ after := by simp
  rw [hsplit, readTokens_append, (readTokens_plain hnot).1, (readTokens_plain hnot).2,
    List.nil_append]

theorem readTokens_around_bound (hname : name.kind = .attributeName)
    (hvalue : value.kind = .attributeValue)
    (hbefore : forall token, token ∈ before ->
      token.kind ≠ .startTagClose ∧ token.kind ≠ .startTagSelfClose)
    (hmiddle : forall token, token ∈ middle ->
      token.kind.inHead = true ∧ token.kind ≠ .attributeName ∧ token.kind ≠ .attributeValue)
    (helse : ExpressionKind.ofName name.text ≠ .otherwise) (stop : Nat) :
    readTokens (.bound none stop) (before ++ name :: (middle ++ value :: after)) =
      (readTokens (.bound none stop) before ++
        (readToken (readingAfter (.bound none stop) before) name).1) ++
      (forValue name value ++ readTokens (.bound none name.stop) after) := by
  rcases readingAfter_bound hbefore none stop with ⟨other, otherStop, hafter⟩
  have hnamed : (readToken (.bound other otherStop) name).2 =
      .bound (if Directive.isBinding name.text then some name.text else none) name.stop := by
    simp only [readToken, hname]
  have hfound : forall n, (readToken (.bound (if Directive.isBinding name.text
        then some name.text else none) n) value).1 = forValue name value := by
    intro n
    unfold forValue
    split <;> simp [readToken, hvalue, ofAttribute, helse]
  have hnext : forall n m, (readToken (.bound n m) value).2 = .bound none m := by
    intro n m
    simp only [readToken, hvalue]
  rw [readTokens_append, hafter, readTokens_cons, hnamed, readTokens_append,
    readTokens_kept hmiddle, readingAfter_kept hmiddle, readTokens_cons, hfound, hnext,
    List.nil_append, List.append_assoc]

theorem readTokens_around {start : Nat} {text : Text} {reading : TagReading}
    (htiled : Tiled start text (before ++ name :: (middle ++ value :: after)))
    (hat : t.StandsAt start text) (hname : name.kind = .attributeName)
    (hvalue : value.kind = .attributeValue)
    (hbefore : forall token, token ∈ before ->
      token.kind ≠ .startTagClose ∧ token.kind ≠ .startTagSelfClose)
    (hmiddle : forall token, token ∈ middle ->
      token.kind.inHead = true ∧ token.kind ≠ .attributeName ∧ token.kind ≠ .attributeValue)
    (helse : ExpressionKind.ofName name.text ≠ .otherwise)
    (hreading : (reading = .plain ∧ Directive.isBinding name.text = false) ∨
      exists stop, reading = .bound none stop) :
    exists earlier later high,
      readTokens reading (before ++ name :: (middle ++ value :: after)) =
        earlier ++ (forValue name value ++ later) ∧
      Sequenced t start name.offset earlier ∧ Sequenced t value.stop high later := by
  rcases htiled.split_at with ⟨first, rest, htext, hfront, hoffset, _, hback⟩
  rcases hback.split_at with ⟨gap, last, hrest, _, hgap, _, htail⟩
  rw [htext] at hat
  have hlast : t.StandsAt value.stop last := by
    have hright := hat.right.right
    rw [hrest] at hright
    have hend := hright.right.right
    rw [hoffset, ← Token.stop, hgap, ← Token.stop] at hend
    exact hend
  have hfits := hat.left.le
  rcases hreading with ⟨hplain, hstatic⟩ | ⟨stop, hbound⟩
  · subst hplain
    refine ⟨[], readTokens .plain after, _, ?_, Sequenced.nil (by omega),
      readTokens_sequenced htail _ _ hlast (Nat.le_refl _) trivial⟩
    rw [readTokens_around_plain hname hvalue hbefore fun token hmem => (hmiddle token hmem).1,
      forValue, hstatic]
    rfl
  · subst hbound
    rcases readTokens_ready hfront start (.bound none stop) hat.left (Nat.le_refl _) trivial with
      ⟨reached, hread, hreached, hready⟩
    rw [hoffset] at hreached hready
    have hvalueless := readToken_name_sequenced (t := t) hname hreached hready (by omega)
    exact ⟨_, _, _, readTokens_around_bound hname hvalue hbefore hmiddle helse stop,
      hread.append hvalueless, readTokens_sequenced htail _ _ hlast (Nat.le_refl _) trivial⟩

end Around

end Expression

/-!
# The expression for a value
-/

/-- A value stands behind the name it is written for, and the tokens before both are passed. -/
theorem ValueOf.order {start : Nat} {text : Text} {before middle after : List Token}
    {name value : Token} (h : Tiled start text (before ++ name :: (middle ++ value :: after))) :
    (forall token, token ∈ before -> token.stop ≤ name.offset) ∧ name.offset < name.stop ∧
      name.stop ≤ value.offset ∧ forall token, token ∈ middle -> token.stop ≤ value.offset := by
  rcases h.split_at with ⟨first, rest, _, hfront, hname, hnonempty, hback⟩
  rcases hback.split_at with ⟨gap, last, _, hmiddle, hvalue, _, _⟩
  have hpos := List.length_pos_iff.mpr hnonempty
  refine ⟨?_, by unfold Token.stop; omega, by omega, ?_⟩
  · intro token hmem
    have hbounds := hfront.mem_bounds hmem
    omega
  · intro token hmem
    have hbounds := hmiddle.mem_bounds hmem
    omega

namespace Element

variable {e : Element} {name value : Token} {x : Expression}

theorem Writes.name_mem (h : e.Writes t name value) : name ∈ headTokens t e.start := by
  rcases h with ⟨before, middle, after, hhead, _⟩
  rw [hhead]
  simp

theorem Writes.value_mem (h : e.Writes t name value) : value ∈ headTokens t e.start := by
  rcases h with ⟨before, middle, after, hhead, _⟩
  rw [hhead]
  simp

theorem Writes.bounds (h : e.Writes t name value) (hopens : Opens t e.start) :
    e.start < value.offset ∧ value.offset < value.stop ∧ value.stop ≤ headStop t e.start :=
  ⟨hopens.lt_of_mem_head h.value_mem,
    (hopens.headStop_bounds.1 value (List.mem_cons_of_mem _ h.value_mem)).2⟩

/-- A start tag that holds a value is scanned with it, from the start of its element on. -/
theorem Writes.scan_eq (h : e.Writes t name value) (hopens : Opens t e.start) {stop : Nat}
    (hcut : Cut t stop) (hle : headStop t e.start ≤ stop) :
    exists before middle after,
      scan t e.start stop = before ++ name :: (middle ++ value :: after) ∧
      name.kind = .attributeName ∧ value.kind = .attributeValue ∧
      (forall token, token ∈ before -> token.kind.inHead = true ∨ token.kind = .startTagOpen) ∧
      forall token, token ∈ middle ->
        token.kind.inHead = true ∧ token.kind ≠ .attributeName ∧ token.kind ≠ .attributeValue := by
  rcases h with ⟨before, middle, after, hhead, hname, hvalue, hmiddle⟩
  rcases hopens.scan_eq hcut hle with ⟨rest, _, _, hscan⟩
  have hin : forall token, token ∈ before ++ name :: (middle ++ value :: after) ->
      token.kind.inHead = true := by
    intro token hmem
    rw [← hhead] at hmem
    exact headTokens_inHead hmem
  refine ⟨⟨.startTagOpen, ['<'], e.start⟩ :: before, middle, after ++ rest, ?_, hname, hvalue,
    ?_, ?_⟩
  · rw [hscan, hhead]
    simp
  · intro token hmem
    rcases List.mem_cons.mp hmem with heq | hbefore
    · rw [heq]
      exact Or.inr rfl
    · exact Or.inl (hin token (List.mem_append_left _ hbefore))
  · intro token hmem
    exact ⟨hin token (by simp [hmem]), hmiddle token hmem⟩

/-- An element without bound attributes is read as plain, any other one from its start on. -/
theorem startReading_cases (hrecorded : e.Recorded t) (hmem : name ∈ headTokens t e.start)
    (hname : name.kind = .attributeName) :
    (e.startReading = .plain ∧ Directive.isBinding name.text = false) ∨
      exists stop, e.startReading = .bound none stop := by
  unfold startReading
  cases hstatic : e.isStatic with
  | false =>
      exact Or.inr ⟨e.start, rfl⟩
  | true =>
      refine Or.inl ⟨rfl, ?_⟩
      rcases hrecorded.named name hmem hname with ⟨a, ha, haname⟩
      rw [isStatic, Bool.not_eq_true', List.any_eq_false] at hstatic
      rw [← haname]
      exact Bool.eq_false_iff.mpr (hstatic a ha)

theorem owns_of_head (hrecorded : e.Recorded t)
    (hchildren : Laid t (headStop t e.start) e.contentStop e.children) (hstart : e.start < offset)
    (hstop : offset ≤ headStop t e.start) : e.Owns offset := by
  refine ⟨hstart, Nat.le_trans hstop hrecorded.head_le, ?_⟩
  intro c hc
  apply Bool.eq_false_iff.mpr
  intro hcovers
  have hinside := Element.covers_iff.mp hcovers
  have hbehind := hchildren.low_le hc
  omega

theorem own_in_value (hrecorded : e.Recorded t)
    (hchildren : Laid t (headStop t e.start) e.contentStop e.children)
    (hwrites : e.Writes t name value) (helse : ExpressionKind.ofName name.text ≠ .otherwise)
    (hx : x ∈ e.ownExpressions t) (hstart : value.offset ≤ x.start) (hstop : x.stop ≤ value.stop) :
    x ∈ Expression.forValue name value := by
  rcases own_readBetween hrecorded hchildren hx with ⟨high, hfirst | ⟨c, hc, hlater⟩⟩
  · rcases hfirst.cut hrecorded hchildren with ⟨hcut, hle, _⟩
    rcases hwrites.scan_eq hrecorded.opens hcut hle with
      ⟨before, middle, after, hscan, hname, hvalue, hbefore, hmiddle⟩
    have htiled := scan_tiled t e.start high
    have hread := hfirst.read
    rw [hscan] at htiled hread
    have horder := ValueOf.order htiled
    have hopen := hrecorded.opens.lt_headStop
    have hunclosed : forall token, token ∈ before ->
        token.kind ≠ .startTagClose ∧ token.kind ≠ .startTagSelfClose := by
      intro token hmem
      have hkind := hbefore token hmem
      constructor <;> intro heq <;> rw [heq] at hkind <;> simp [TokenKind.inHead] at hkind
    rcases Expression.readTokens_around htiled (Text.StandsAt.slice t (by omega) hcut.le) hname
      hvalue hunclosed hmiddle helse (startReading_cases hrecorded hwrites.name_mem hname) with
      ⟨earlier, later, _, hsplit, hearlier, hlater⟩
    rw [hsplit] at hread
    rcases List.mem_append.mp hread with hin | hread
    · rcases hearlier.mem hin with ⟨_, hend, hwritten⟩
      have hlength := hwritten.stop_eq
      omega
    · rcases List.mem_append.mp hread with hin | hin
      · exact hin
      · rcases hlater.mem hin with ⟨hbegin, _, hwritten⟩
        have hlength := hwritten.stop_eq
        omega
  · exfalso
    rcases hlater.bounds hrecorded hchildren trivial with ⟨hbegin, hlength, _⟩
    have hbounds := hwrites.bounds hrecorded.opens
    have hbehind := hchildren.low_le hc
    have hspan := (hchildren.mem hc).1.start_lt
    have hcontent := (hchildren.mem hc).1.content_le
    omega

end Element

/-!
# The region of a value
-/

namespace Region

theorem nameAfter_kept {tokens : List Token}
    (h : forall token, token ∈ tokens ->
      token.kind.inHead = true ∧ token.kind ≠ .attributeName ∧ token.kind ≠ .attributeValue)
    (name : Option Text) : tokens.foldl nameAfter name = name := by
  induction tokens with
  | nil =>
      rfl
  | cons token tokens ih =>
      have hstep : nameAfter name token = name := by
        have hkinds := h token List.mem_cons_self
        cases hkind : token.kind <;> simp_all [nameAfter, TokenKind.inHead]
      rw [List.foldl_cons, hstep]
      exact ih fun other hother => h other (List.mem_cons_of_mem _ hother)

/-- Inside of its quotes, a value is as it is bound by the name before it. -/
theorem ofTokens_value {before middle after : List Token} {name value : Token}
    (hpassed : forall token, token ∈ before ++ name :: middle -> Passed offset token)
    (hname : name.kind = .attributeName) (hvalue : value.kind = .attributeValue)
    (hmiddle : forall token, token ∈ middle ->
      token.kind.inHead = true ∧ token.kind ≠ .attributeName ∧ token.kind ≠ .attributeValue)
    (hoffset : value.offset ≤ offset) (hinside : inValue value offset = true) :
    ofTokens offset Option.none (before ++ name :: (middle ++ value :: after)) =
      if Directive.isBinding name.text then .expression else .markup := by
  have hsplit : before ++ name :: (middle ++ value :: after) =
      (before ++ name :: middle) ++ value :: after := by simp
  have hlast : (before ++ name :: middle).foldl nameAfter Option.none = some name.text := by
    rw [List.foldl_append, List.foldl_cons, nameAfter_kept hmiddle, nameAfter, hname]
  rw [hsplit, ofTokens_append hpassed, hlast, ofTokens, if_neg (by omega)]
  simp only [hvalue, hinside, if_true, Option.map_some, Option.getD_some]

theorem inValue_of_bounds {value : Token} (hmem : value ∈ tokensOf t) {name : Text}
    (hstart : (Expression.ofValue name value).start ≤ offset)
    (hstop : offset ≤ (Expression.ofValue name value).stop) : inValue value offset = true := by
  rcases (tokensOf_tiled t).mem hmem with ⟨_, _, _, _, hnonempty⟩
  rcases Expression.ofValue_cases name hnonempty with ⟨c, rest, htext, hcases⟩
  have hquoted : Attribute.isQuote c = true ↔ (c = Text.singleQuote ∨ c = Text.doubleQuote) := by
    simp [Attribute.isQuote, or_comm]
  unfold inValue
  rw [htext]
  simp only
  rcases hcases with ⟨hquote, heq⟩ | ⟨hquote, hlast, heq⟩ | ⟨hquote, hlast, heq⟩
  · rw [heq] at hstart hstop
    rw [if_neg (by rw [← hquoted, hquote]; simp)]
    simp only [Bool.and_eq_true, decide_eq_true_eq]
    exact ⟨hstart, hstop⟩
  · have hlength : value.stop = value.offset + (rest.length + 1) := by
      rw [Token.stop, htext, List.length_cons]
    rw [heq] at hstart hstop
    simp only at hstart hstop
    rw [if_pos (hquoted.mp hquote)]
    simp only [Bool.and_eq_true, Bool.or_eq_true, decide_eq_true_eq]
    exact ⟨by omega, Or.inl (by omega)⟩
  · rw [heq] at hstart
    simp only at hstart
    rw [if_pos (hquoted.mp hquote)]
    simp only [Bool.and_eq_true, Bool.or_eq_true, decide_eq_true_eq]
    exact ⟨by omega, Or.inr (by simp [hlast])⟩

end Region

namespace Expression

def liesIn (token : Token) (x : Expression) : Bool :=
  token.offset ≤ x.start && x.stop ≤ token.stop

theorem liesIn_iff {token : Token} {x : Expression} :
    x.liesIn token = true ↔ token.offset ≤ x.start ∧ x.stop ≤ token.stop := by
  simp [liesIn]

theorem ofValue_bounds {value : Token} (hmem : value ∈ tokensOf t) (name : Text) :
    value.offset ≤ (ofValue name value).start ∧ (ofValue name value).stop ≤ value.stop := by
  rcases (tokensOf_tiled t).mem hmem with ⟨_, _, _, _, hnonempty⟩
  exact (ofValue_written name (tokensOf_standsAt hmem) hnonempty).2

end Expression

theorem ExpressionKind.ofName_ne_otherwise {name : Text} (h : name ≠ "v-else".toList) :
    ofName name ≠ .otherwise := by
  unfold ofName
  repeat' split
  all_goals first | contradiction | simp

theorem Sequenced.filter_eq_singleton {low high : Nat} {xs : List Expression} {x : Expression}
    (h : Sequenced t low high xs) (hx : x ∈ xs) {p : Expression -> Bool}
    (hp : forall y, y ∈ xs -> (p y = true ↔ y = x)) : xs.filter p = [x] := by
  have hselected : xs.filter p = xs.filter fun y => decide (y = x) := by
    apply List.filter_congr
    intro y hy
    apply Bool.eq_iff_iff.mpr
    rw [decide_eq_true_eq]
    exact hp y hy
  rw [hselected, List.filter_eq, List.count_eq_one_of_mem h.nodup hx]
  rfl

namespace Document

variable {template e : Element} {name value : Token}

theorem forValue_of_liesIn (htemplate : (ofText t).template? = some template)
    (he : e ∈ template.preorder) (hwrites : e.Writes t name value)
    (helse : ExpressionKind.ofName name.text ≠ .otherwise) {x : Expression}
    (hx : x ∈ template.expressions t) (hlies : x.liesIn value = true) :
    x ∈ Expression.forValue name value := by
  rcases recorded_of_preorder htemplate he with ⟨hrecorded, hchildren⟩
  rcases Element.mem_expressions_iff.mp hx with ⟨owner, howner, hown⟩
  rcases recorded_of_preorder htemplate howner with ⟨hownerRecorded, hownerChildren⟩
  rw [Expression.liesIn_iff] at hlies
  have hlength := ((template_sequenced htemplate).mem hx).2.2.stop_eq
  have hbounds := hwrites.bounds hrecorded.opens
  -- The element that owns the expression and the one that owns the value are the same.
  have hfirst : owner.Owns x.start :=
    Element.owns_of_own hownerRecorded hownerChildren hown (Nat.le_refl _) (by omega)
  have hsecond : e.Owns x.start :=
    Element.owns_of_head hrecorded hchildren (by omega) (by omega)
  rw [owner_unique htemplate he howner hsecond hfirst] at hown
  exact Element.own_in_value hrecorded hchildren hwrites helse hown hlies.1 hlies.2

theorem expressions_in_value (htemplate : (ofText t).template? = some template)
    (he : e ∈ template.preorder) (hwrites : e.Writes t name value)
    (helse : name.text ≠ "v-else".toList) :
    (template.expressions t).filter (Expression.liesIn value) =
      Expression.forValue name value := by
  rcases recorded_of_preorder htemplate he with ⟨hrecorded, hchildren⟩
  have hkind := ExpressionKind.ofName_ne_otherwise helse
  have honly := fun x => forValue_of_liesIn htemplate he hwrites hkind (x := x)
  cases hbinding : Directive.isBinding name.text with
  | false =>
      simp only [Expression.forValue, hbinding, Bool.false_eq_true, if_false] at honly ⊢
      apply List.filter_eq_nil_iff.mpr
      intro x hx hlies
      cases honly x hx hlies
  | true =>
      simp only [Expression.forValue, hbinding, if_true, List.mem_singleton] at honly ⊢
      have hcollected : Expression.ofValue name.text value ∈ template.expressions t := by
        apply Element.expressions_of_preorder template he
        apply Element.value_collected hrecorded hchildren hwrites hbinding
        rw [Expression.ofAttribute, if_neg hkind]
        rfl
      apply (template_sequenced htemplate).filter_eq_singleton hcollected
      intro x hx
      refine ⟨honly x hx, ?_⟩
      intro heq
      rw [heq, Expression.liesIn_iff]
      exact Expression.ofValue_bounds (hrecorded.opens.mem_of_head hwrites.value_mem) name.text

theorem region_of_value (htemplate : (ofText t).template? = some template)
    (he : e ∈ template.preorder) (hwrites : e.Writes t name value)
    (hstart : (Expression.ofValue name.text value).start ≤ offset)
    (hstop : offset ≤ (Expression.ofValue name.text value).stop) :
    (ofText t).regionAt t offset =
      if Directive.isBinding name.text then .expression else .markup := by
  rcases recorded_of_preorder htemplate he with ⟨hrecorded, hchildren⟩
  rcases hwrites.scan_eq hrecorded.opens hrecorded.cut_stop
    (Nat.le_trans hrecorded.head_le hrecorded.content_le) with
    ⟨before, middle, after, hscan, hname, hvalue, hbefore, hmiddle⟩
  have htiled := scan_tiled t e.start e.stop
  rw [hscan] at htiled
  rcases ValueOf.order htiled with ⟨hearlier, hnonempty, hnameStop, hbetween⟩
  have hbounds := hwrites.bounds hrecorded.opens
  have hinText := hrecorded.opens.mem_of_head hwrites.value_mem
  have hlies := Expression.ofValue_bounds hinText name.text
  have hle : offset ≤ t.length := by
    have hend := hrecorded.head_le
    have hcontent := hrecorded.content_le
    have hfits := hrecorded.stop_le
    omega
  rw [regionAt_of_owns htemplate he
    (Element.owns_of_head hrecorded hchildren (by omega) (by omega)), hscan]
  refine Region.ofTokens_value ?_ hname hvalue hmiddle (by omega)
    (Region.inValue_of_bounds hinText hstart hstop)
  intro token htoken
  rcases List.mem_append.mp htoken with hin | hin
  · have hscanned : token ∈ scan t e.start e.stop := by
      rw [hscan]
      exact List.mem_append_left _ hin
    have hstopped := hearlier token hin
    refine Region.passed_of_stop_lt ?_ (by omega) hle
    exact ((hrecorded.opens.reaches.mem_scan hrecorded.cut_stop).mp hscanned).1
  · rcases List.mem_cons.mp hin with heq | hin
    · subst heq
      exact Region.passed_of_kind (by omega) (by simp [hname]) (by simp [hname])
    · have hkinds := hmiddle token hin
      have hstopped := hbetween token hin
      refine Region.passed_of_kind (by unfold Token.stop at hstopped; omega) hkinds.2.2 ?_
      intro heq
      rw [heq] at hkinds
      cases hkinds.1

/--
A value in a start tag of a template is written for some name.  One expression is collected for it
if the name is bound, and none if it is not; and inside of its quotes it is an expression region
or plain markup accordingly.  A `v-else` keeps no value, so nothing is said of what is collected
for one.
-/
theorem values_agree (htemplate : (ofText t).template? = some template)
    (he : e ∈ template.preorder) (hvalue : value ∈ tokensOf t)
    (hkind : value.kind = .attributeValue) (hstart : e.start < value.offset)
    (hstop : value.stop ≤ headStop t e.start) :
    (exists name, e.Writes t name value) ∧
    forall name, e.Writes t name value ->
      (name.text ≠ "v-else".toList ->
        (template.expressions t).filter (Expression.liesIn value) =
          if Directive.isBinding name.text then [Expression.ofValue name.text value] else []) ∧
      forall offset, (Expression.ofValue name.text value).start ≤ offset ->
        offset ≤ (Expression.ofValue name.text value).stop ->
        (ofText t).regionAt t offset =
          if Directive.isBinding name.text then .expression else .markup := by
  have hopens := (recorded_of_preorder htemplate he).1.opens
  have hnonempty := (tokensOf_tiled t).mem_bounds hvalue
  constructor
  · exact hopens.exists_valueOf (hopens.mem_head_of_lt hvalue hstart (by omega)) hkind
  · intro name hwrites
    constructor
    · exact expressions_in_value htemplate he hwrites
    · intro offset
      exact region_of_value htemplate he hwrites

end Document

/-- A value without quotes, and one whose quote is never closed. -/
def openQuoteText : Text :=
  "<template><p id=a/b v-x:y='c d".toList

theorem values_agree_open :
    exists template e name value, (Document.ofText openQuoteText).template? = some template ∧
      e ∈ template.preorder ∧ e.Writes openQuoteText name value ∧ name.text = "v-x:y".toList ∧
      (template.expressions openQuoteText).filter (Expression.liesIn value) =
        [⟨.binding, 27, 30, "c d".toList, "v-x:y".toList⟩] ∧
      (Document.ofText openQuoteText).regionAt openQuoteText 30 = .expression := by
  have hfacts : (Document.ofText openQuoteText).template?.any (fun template =>
      template.preorder.any fun e => decide (e.start = 10)) = true := by
    decide +kernel
  rcases (Option.any_eq_true _ _).mp hfacts with ⟨template, htemplate, hinside⟩
  rcases List.any_eq_true.mp hinside with ⟨e, he, hstart⟩
  have hat : e.start = 10 := of_decide_eq_true hstart
  let name : Token := ⟨.attributeName, "v-x:y".toList, 20⟩
  let value : Token := ⟨.attributeValue, "'c d".toList, 26⟩
  have hwrites : e.Writes openQuoteText name value := by
    refine ⟨(headTokens openQuoteText 10).take 6, [⟨.delimiterAssign, ['='], 25⟩], [], ?_, rfl, rfl,
      by simp⟩
    rw [hat]
    decide +kernel
  have hmem : value ∈ tokensOf openQuoteText := by decide +kernel
  have hagree := (Document.values_agree htemplate he hmem rfl (by rw [hat]; decide)
    (by rw [hat]; decide +kernel)).2 name hwrites
  refine ⟨template, e, name, value, htemplate, he, hwrites, rfl, ?_, ?_⟩
  · rw [hagree.1 (by decide)]
    rfl
  · rw [hagree.2 30 (by decide) (by decide)]
    rfl

end SfcServer
