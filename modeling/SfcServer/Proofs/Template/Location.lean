import SfcServer.Proofs.Markup.Innermost
import SfcServer.Proofs.Template.Owners
import SfcServer.Proofs.Template.Regions

/-!
# Who answers for an offset

Inside of a template, the region of an offset is read off the tokens of the innermost element
there.  That is the element that owns the offset: its content holds it, and none of its children
covers it.  Of its tokens, those that end before the offset are passed over, and the one that
holds it decides.  An expression is owned by the element that owns its offsets.
-/

namespace SfcServer

variable {t : Text} {offset : Nat}

/-!
# The innermost element
-/

/-- An offset lies in the start tag or the content of an element, and in none of its children. -/
structure Element.Owns (e : Element) (offset : Nat) : Prop where
  start_lt : e.start < offset
  le_contentStop : offset ≤ e.contentStop
  uncovered : forall c, c ∈ e.children -> c.covers offset = false

theorem Laid.innermost_of_owns {e : Element} (root : Element) :
    forall {low high : Nat} {es : List Element}, Laid t low high es -> root ∈ es ->
      e ∈ root.preorder -> e.Owns offset ->
      root.covers offset = true ∧ root.innermost offset = e := by
  intro low high es hlaid hroot he howns
  have hstart := howns.start_lt
  have hstop := howns.le_contentStop
  have haround : forall a, a ∈ root.preorder -> e ∈ a.preorder -> a.Spans offset := by
    intro a ha hinside
    rcases Laid.of_preorder root hlaid hroot ha with ⟨_, _, _, hsiblings, hmem⟩
    have hbounds := Laid.preorder_bounds a hsiblings hmem hinside
    have hcontent := (hsiblings.mem hmem).1.content_le
    exact ⟨by omega, by omega⟩
  have hdeepest : forall c, c ∈ e.children -> ¬ c.Spans offset := by
    intro c hc hspans
    have hcovers := howns.uncovered c hc
    rw [Element.covers_iff_spans.mpr hspans] at hcovers
    cases hcovers
  constructor
  · exact Element.covers_iff_spans.mpr (haround root root.self_mem_preorder he)
  · exact Laid.innermost_of_around hdeepest root hlaid hroot he haround

theorem Element.Recorded.start_lt_contentStart {e : Element} (h : e.Recorded t)
    (hclosed : e.startTagEnd.isSome = true) : e.start < e.contentStart := by
  rcases Option.isSome_iff_exists.mp hclosed with ⟨stop, hstop⟩
  rcases h.closes stop hstop with ⟨close, rest, hafter, _, hclose⟩
  have hhead := h.opens.headStop_bounds.2 close (by rw [hafter]; exact List.mem_cons_self)
  have hstart := h.opens.lt_headStop
  unfold contentStart
  rw [hstop, Option.getD_some, ← hclose, Token.stop]
  omega

namespace Document

theorem recorded_of_preorder {template e : Element}
    (htemplate : (ofText t).template? = some template) (he : e ∈ template.preorder) :
    e.Recorded t ∧ Laid t (headStop t e.start) e.contentStop e.children := by
  rcases Laid.of_preorder template (ofText_laid t) (List.mem_of_find?_eq_some htemplate) he with
    ⟨_, _, es, hes, hmem⟩
  exact hes.mem hmem

theorem owner_unique {template e other : Element}
    (htemplate : (ofText t).template? = some template) (he : e ∈ template.preorder)
    (hother : other ∈ template.preorder) (howns : e.Owns offset)
    (hotherOwns : other.Owns offset) : other = e := by
  have hlaid := ofText_laid t
  have hroot : template ∈ (ofText t).roots := List.mem_of_find?_eq_some htemplate
  rw [← (Laid.innermost_of_owns template hlaid hroot hother hotherOwns).2]
  exact (Laid.innermost_of_owns template hlaid hroot he howns).2

theorem not_inScript {template : Element} (htemplate : (ofText t).template? = some template)
    (hstart : template.start < offset) (hstop : offset ≤ template.stop) :
    (ofText t).inScript offset = false := by
  unfold inScript
  cases hscript : (ofText t).script? with
  | none =>
      rfl
  | some script =>
      have hlaid := ofText_laid t
      have htemplateMem : template ∈ (ofText t).roots := List.mem_of_find?_eq_some htemplate
      have hscriptMem : script ∈ (ofText t).roots := List.mem_of_find?_eq_some hscript
      rcases hlaid.mem hscriptMem with ⟨hrecorded, _⟩
      have hcontent := hrecorded.content_le
      have hname := List.find?_some htemplate
      have hother := List.find?_some hscript
      simp only [decide_eq_true_eq] at hname hother
      have hapart : script.stop ≤ template.start ∨ template.stop ≤ script.start := by
        rcases hlaid.siblings hscriptMem htemplateMem with heq | hle | hle
        · rw [heq, hname] at hother
          exact absurd hother (by decide)
        · exact Or.inl hle
        · exact Or.inr hle
      cases hclosed : script.startTagEnd.isSome with
      | false =>
          simp only [hclosed, Bool.false_and]
      | true =>
          have hbegin := hrecorded.start_lt_contentStart hclosed
          simp only [hclosed, Bool.true_and, Bool.and_eq_false_iff, decide_eq_false_iff_not]
          omega

theorem elementAt?_of_owns {template e : Element}
    (htemplate : (ofText t).template? = some template) (he : e ∈ template.preorder)
    (howns : e.Owns offset) :
    template.covers offset = true ∧ (ofText t).elementAt? offset = some e := by
  have hlaid := ofText_laid t
  have hroot : template ∈ (ofText t).roots := List.mem_of_find?_eq_some htemplate
  rcases Laid.innermost_of_owns template hlaid hroot he howns with ⟨hcovers, hinner⟩
  refine ⟨hcovers, ?_⟩
  rw [elementAt?, hlaid.innermostOf_of_covers hroot hcovers, hinner]

/-- The tokens of the element that owns an offset of a template decide about it. -/
theorem regionAt_of_owns {template e : Element} (htemplate : (ofText t).template? = some template)
    (he : e ∈ template.preorder) (howns : e.Owns offset) :
    (ofText t).regionAt t offset = Region.ofTokens offset none (scan t e.start e.stop) := by
  rcases elementAt?_of_owns htemplate he howns with ⟨hcovers, hfound⟩
  have hbounds := Element.covers_iff.mp hcovers
  unfold regionAt
  rw [not_inScript htemplate hbounds.1 hbounds.2, htemplate, hfound]
  simp only [hcovers, if_true]
  rfl

end Document

/-!
# The owner of an expression
-/

/-- An expression is read off the text between siblings, or between them and `limit`. -/
structure ReadBetween (t : Text) (es : List Element) (limit : Nat)
    (reading : Expression.TagReading) (low high : Nat) (x : Expression) : Prop where
  read : x ∈ Expression.readTokens reading (scan t low high)
  ends : high = limit ∨ exists c, c ∈ es ∧ high = c.start
  apart : forall c, c ∈ es -> c.stop ≤ low ∨ high ≤ c.start

theorem ReadBetween.ends_of_rest {es : List Element} {limit : Nat}
    {reading : Expression.TagReading} {low high : Nat} {x : Expression} {e : Element}
    (h : ReadBetween t es limit reading low high x) :
    high = limit ∨ exists c, c ∈ e :: es ∧ high = c.start := by
  rcases h.ends with heq | ⟨c, hc, heq⟩
  · exact Or.inl heq
  · exact Or.inr ⟨c, List.mem_cons_of_mem _ hc, heq⟩

/-- What stands among siblings is read before the first of them, or behind one of them. -/
theorem Laid.readBetween {α : Type} {f : Element -> α} {x : Expression} {low high : Nat}
    {es : List Element} (h : Laid t low high es) :
    forall reading start, start ≤ low ->
      .expression x ∈ Item.among t reading start high (es.map fun c => ⟨c.start, c.stop, f c⟩) ->
      exists stop, ReadBetween t es high reading start stop x ∨
        exists c, c ∈ es ∧ ReadBetween t es high .past c.stop stop x := by
  induction h with
  | nil low high =>
      intro reading start _ hx
      rcases List.mem_map.mp hx with ⟨y, hy, heq⟩
      cases heq
      exact ⟨high, Or.inl ⟨hy, Or.inl rfl, by intro c hc; cases hc⟩⟩
  | @cons low high e rest hlow _ hrecorded _ hrest _ ih =>
      intro reading start hstart hx
      have hspan := hrecorded.start_lt
      have hcontent := hrecorded.content_le
      rw [List.map_cons, Item.among] at hx
      rcases List.mem_append.mp hx with hsegment | hlater
      · rcases List.mem_map.mp hsegment with ⟨y, hy, heq⟩
        cases heq
        refine ⟨e.start, Or.inl ⟨hy, Or.inr ⟨e, List.mem_cons_self, rfl⟩, ?_⟩⟩
        intro c hc
        rcases List.mem_cons.mp hc with heq | hmem
        · rw [heq]
          exact Or.inr (Nat.le_refl _)
        · have hbehind := hrest.low_le hmem
          exact Or.inr (by omega)
      · rcases List.mem_cons.mp hlater with hchild | hmore
        · cases hchild
        · have hmax : max start e.stop = e.stop := by omega
          simp only [hmax] at hmore
          rcases ih .past e.stop (Nat.le_refl _) hmore with ⟨stop, hbetween | ⟨c, hc, hbetween⟩⟩
          · refine ⟨stop, Or.inr ⟨e, List.mem_cons_self, hbetween.read, ?_, ?_⟩⟩
            · exact hbetween.ends_of_rest
            · intro c hc
              rcases List.mem_cons.mp hc with heq | hmem
              · rw [heq]
                exact Or.inl (Nat.le_refl _)
              · exact hbetween.apart c hmem
          · refine ⟨stop, Or.inr ⟨c, List.mem_cons_of_mem _ hc, hbetween.read, ?_, ?_⟩⟩
            · exact hbetween.ends_of_rest
            · intro d hd
              rcases List.mem_cons.mp hd with heq | hmem
              · have hbehind := hrest.low_le hc
                have hcspan := (hrest.mem hc).1.start_lt
                have hccontent := (hrest.mem hc).1.content_le
                rw [heq]
                exact Or.inl (by omega)
              · exact hbetween.apart d hmem

namespace ReadBetween

variable {e : Element} {reading : Expression.TagReading} {low high : Nat} {x : Expression}

theorem cut (h : ReadBetween t e.children e.contentStop reading low high x)
    (hrecorded : e.Recorded t)
    (hchildren : Laid t (headStop t e.start) e.contentStop e.children) :
    Cut t high ∧ headStop t e.start ≤ high ∧ high ≤ e.contentStop := by
  rcases h.ends with heq | ⟨c, hc, heq⟩
  · rw [heq]
    exact ⟨hrecorded.cut_contentStop, hrecorded.head_le, Nat.le_refl _⟩
  · have hspan := (hchildren.mem hc).1.start_lt
    have hbelow := hchildren.le_high hc
    rw [heq]
    exact ⟨(hchildren.mem hc).1.opens.reaches.cut, hchildren.low_le hc, by omega⟩

theorem bounds (h : ReadBetween t e.children e.contentStop reading low high x)
    (hrecorded : e.Recorded t)
    (hchildren : Laid t (headStop t e.start) e.contentStop e.children)
    (hreading : reading.Fresh) : low < x.start ∧ x.start ≤ x.stop ∧ x.stop ≤ high := by
  have hcut := (h.cut hrecorded hchildren).1
  by_cases hle : low ≤ high
  · have hmem := (segment_sequenced hreading hle hcut.le).mem h.read
    have hstop := hmem.2.2.stop_eq
    exact ⟨hmem.1, by omega, hmem.2.1⟩
  · have hread := h.read
    rw [scan, t.slice_of_le (by omega), scanFrom_nil] at hread
    cases hread

theorem owns (h : ReadBetween t e.children e.contentStop reading low high x)
    (hrecorded : e.Recorded t)
    (hchildren : Laid t (headStop t e.start) e.contentStop e.children)
    (hreading : reading.Fresh) (hlow : e.start ≤ low) (hstart : x.start ≤ offset)
    (hstop : offset ≤ x.stop) : e.Owns offset := by
  have hbounds := h.bounds hrecorded hchildren hreading
  have hhigh := (h.cut hrecorded hchildren).2.2
  refine ⟨by omega, by omega, ?_⟩
  intro c hc
  apply Bool.eq_false_iff.mpr
  intro hcovers
  have hinside := Element.covers_iff.mp hcovers
  rcases h.apart c hc with hbefore | hbehind <;> omega

end ReadBetween

namespace Element

variable {e : Element} {x : Expression}

theorem own_readBetween (hrecorded : e.Recorded t)
    (hchildren : Laid t (headStop t e.start) e.contentStop e.children)
    (hx : x ∈ e.ownExpressions t) :
    exists high, ReadBetween t e.children e.contentStop e.startReading e.start high x ∨
      exists c, c ∈ e.children ∧ ReadBetween t e.children e.contentStop .past c.stop high x := by
  have hstart := hrecorded.opens.lt_headStop
  exact hchildren.readBetween e.startReading e.start (by omega) (Item.expression_mem_iff.mp hx)

theorem owns_of_own (hrecorded : e.Recorded t)
    (hchildren : Laid t (headStop t e.start) e.contentStop e.children)
    (hx : x ∈ e.ownExpressions t) (hstart : x.start ≤ offset) (hstop : offset ≤ x.stop) :
    e.Owns offset := by
  rcases own_readBetween hrecorded hchildren hx with ⟨high, hfirst | ⟨c, hc, hlater⟩⟩
  · exact hfirst.owns hrecorded hchildren e.startReading_fresh (Nat.le_refl _) hstart hstop
  · have hopen := hrecorded.opens.lt_headStop
    have hbehind := hchildren.low_le hc
    have hspan := (hchildren.mem hc).1.start_lt
    have hcontent := (hchildren.mem hc).1.content_le
    exact hlater.owns hrecorded hchildren trivial (by omega) hstart hstop

end Element

/-!
# Tokens before an offset
-/

theorem tokensOf_standsAt {token : Token} (h : token ∈ tokensOf t) :
    t.StandsAt token.offset token.text := by
  rcases (tokensOf_tiled t).mem h with ⟨before, after, ht, hoffset, _⟩
  exact ⟨before, after, by rw [← List.append_assoc]; exact ht, by omega⟩

theorem Tiled.split_at {start : Nat} {text : Text} {front back : List Token} {token : Token}
    (h : Tiled start text (front ++ token :: back)) :
    exists first rest, text = first ++ (token.text ++ rest) ∧ Tiled start first front ∧
      start + first.length = token.offset ∧ token.text ≠ [] ∧ Tiled token.stop rest back := by
  rcases h.split with ⟨first, rest, htext, hfront, hback⟩
  cases hback with
  | token hnonempty htail =>
      rename_i kind part after
      exact ⟨first, after, htext, hfront, rfl, hnonempty, htail⟩

namespace Region

/-- A token does not decide about an offset. -/
structure Passed (offset : Nat) (token : Token) : Prop where
  offset_le : token.offset ≤ offset
  value : token.kind = .attributeValue -> inValue token offset = false
  content : token.kind = .content -> offset ≤ token.stop ->
    inInterpolation token.text (offset - token.offset) = false

def nameAfter (name : Option Text) (token : Token) : Option Text :=
  match token.kind with
  | .attributeName => some token.text
  | .attributeValue => Option.none
  | .startTagClose => Option.none
  | .startTagSelfClose => Option.none
  | _ => name

theorem ofTokens_cons {token : Token} (h : Passed offset token) (name : Option Text)
    (rest : List Token) :
    ofTokens offset name (token :: rest) = ofTokens offset (nameAfter name token) rest := by
  have hoffset := h.offset_le
  rw [ofTokens, if_neg (by omega)]
  cases hkind : token.kind with
  | attributeValue =>
      simp only [nameAfter, hkind, h.value hkind, Bool.false_eq_true, if_false]
  | content =>
      have hoff : (decide (offset ≤ token.stop) &&
          inInterpolation token.text (offset - token.offset)) = false := by
        cases hinside : decide (offset ≤ token.stop) with
        | false =>
            rfl
        | true =>
            exact h.content hkind (of_decide_eq_true hinside)
      simp only [nameAfter, hkind, hoff, Bool.false_eq_true, if_false]
  | _ =>
      simp only [nameAfter, hkind]

/-- Tokens that do not decide are passed over, up to the last name among them. -/
theorem ofTokens_append {front : List Token}
    (h : forall token, token ∈ front -> Passed offset token) (name : Option Text)
    (rest : List Token) :
    ofTokens offset name (front ++ rest) = ofTokens offset (front.foldl nameAfter name) rest := by
  induction front generalizing name with
  | nil =>
      rfl
  | cons token front ih =>
      rw [List.cons_append, ofTokens_cons (h token List.mem_cons_self), List.foldl_cons]
      exact ih (fun other hother => h other (List.mem_cons_of_mem _ hother)) _

theorem passed_of_stop_lt {token : Token} (hmem : token ∈ tokensOf t) (hstop : token.stop < offset)
    (hle : offset ≤ t.length) : Passed offset token where
  offset_le := by
    have hbounds := (tokensOf_tiled t).mem_bounds hmem
    omega
  value := by
    intro hkind
    cases hvalue : inValue token offset with
    | false =>
        rfl
    | true =>
        have hbounds := (inValue_bounds hmem hkind hvalue hle []).2.2
        omega
  content := by
    intro _ hinside
    omega

theorem passed_of_kind {token : Token} (hle : token.offset ≤ offset)
    (hvalue : token.kind ≠ .attributeValue) (hcontent : token.kind ≠ .content) :
    Passed offset token where
  offset_le := hle
  value := fun hkind => absurd hkind hvalue
  content := fun hkind => absurd hkind hcontent

theorem ofTokens_behind {tokens : List Token}
    (h : forall token, token ∈ tokens -> offset < token.offset) (name : Option Text) :
    ofTokens offset name tokens = .markup := by
  cases tokens with
  | nil =>
      rfl
  | cons token rest =>
      rw [ofTokens, if_pos (h token List.mem_cons_self)]

end Region

end SfcServer
