import SfcServer.Proofs.Markup.Layout

/-!
# The tree reader keeps elements in order

The reader of a token stream keeps a stack of open elements.  The invariant below says
of every moment of a run where the finished elements lie, that the open ones lie
inside each other after them, and how much of the start tag or end tag at hand
has been read.  It is kept by every step of the scanner, so it holds of the document
that a text is read as.
-/

namespace SfcServer

/-!
# Open elements
-/

/-- What an open element holds of its start tag when that has been read. -/
structure OpenElement.HeadHeld (t : Text) (e : OpenElement) : Prop where
  opens : Opens t e.start
  name : HeadNamed t e.start e.tag
  named : forall token, token ∈ headTokens t e.start -> token.kind = .attributeName ->
    exists a, a ∈ e.attributes ∧ a.name = token.text
  closes : forall stop, e.startTagEnd = some stop ->
    exists token rest, afterHead t e.start = token :: rest ∧
      (token.kind = .startTagClose ∨ token.kind = .startTagSelfClose) ∧ token.stop = stop

/-- What is known of an open element whose start tag has been read and left it open. -/
structure OpenElement.Known (t : Text) (e : OpenElement) : Prop extends e.HeadHeld t where
  notClosed : forall token rest, afterHead t e.start = token :: rest ->
    token.kind ≠ .startTagSelfClose

/-- What is known of an open element whose start tag is being read. -/
structure OpenElement.Pending (t : Text) (mode : ScanMode) (offset : Nat) (e : OpenElement) :
    Prop where
  opens : Opens t e.start
  unnamed : mode = .afterOpen -> offset = e.start + 1
  name : mode ≠ .afterOpen -> HeadNamed t e.start e.tag
  read : exists read, HeadRead t mode offset e.start read ∧
    forall token, token ∈ read -> token.kind = .attributeName ->
      exists a, a ∈ e.attributes ∧ a.name = token.text
  children : e.children = []
  startTagEnd : e.startTagEnd = none
  endTagStart : e.endTagStart = none
  mode : (mode = .afterOpen ∧ exists c rest, t.drop offset = c :: rest ∧ isTagNameChar c = true) ∨
    mode.InTag (RawElement.ofTag? e.tag)

/--
Open elements inside each other, innermost first, none of which has met its end tag.
The contents of what has been finished end by `limit`; the next element may start
at the last index.
-/
inductive Stacked (t : Text) (limit : Nat) (roots : List Element) :
    List OpenElement -> Nat -> Prop where
  | bottom : Laid t 0 limit roots -> Stacked t limit roots [] (frontier 0 roots)
  | push {e : OpenElement} {rest : List OpenElement} {low : Nat} :
      Stacked t limit roots rest low ->
      low ≤ e.start ->
      headStop t e.start ≤ limit ->
      e.Known t ->
      e.endTagStart = none ->
      Laid t (headStop t e.start) limit e.children ->
      Stacked t limit roots (e :: rest) (frontier (headStop t e.start) e.children)

theorem Stacked.mono {t : Text} {limit later : Nat} {roots : List Element}
    {stack : List OpenElement} {low : Nat} (h : Stacked t limit roots stack low)
    (hle : limit ≤ later) : Stacked t later roots stack low := by
  induction h with
  | bottom hroots =>
      exact Stacked.bottom (hroots.mono hle)
  | push _ hlow hhead hknown hnone hchildren ih =>
      exact Stacked.push ih hlow (Nat.le_trans hhead hle) hknown hnone (hchildren.mono hle)

/--
An element that an open one has come to.  Its contents end by `limit`, and the elements inside
of it by `low`.
-/
structure OpenElement.Becomes (t : Text) (limit low : Nat) (e : OpenElement) (done : Element) :
    Prop where
  start : done.start = e.start
  tag : done.tag = e.tag
  startTagEnd : done.startTagEnd = e.startTagEnd
  attributes : done.attributes = e.attributes
  children : done.children = e.children
  content : done.contentStop = limit
  content_le : limit ≤ done.stop
  stop_le : done.stop ≤ t.length
  endTag : forall start, done.endTagStart = some start -> EndTagSpans t start done.stop
  late : forall c : Element, c.Recorded t -> c.contentStop ≤ limit -> c.stop ≤ low ->
    c.stop ≤ done.stop ∨ c.Overhangs t done.stop
  ended : Reaches t .content done.stop ∨ done.EndsBroken t

theorem OpenElement.Becomes.recorded {t : Text} {limit low : Nat} {e : OpenElement}
    {done : Element} (h : e.Becomes t limit low done) (hheld : e.HeadHeld t)
    (hhead : headStop t e.start ≤ limit)
    (hself : forall token rest, afterHead t e.start = token :: rest ->
      token.kind = .startTagSelfClose -> done.stop = token.stop ∧ done.endTagStart = none)
    (hchildren : Laid t (headStop t e.start) limit e.children)
    (hlow : frontier (headStop t e.start) e.children ≤ low) :
    done.Recorded t where
  opens := by
    rw [h.start]
    exact hheld.opens
  name := by
    rw [h.start, h.tag]
    exact hheld.name
  head_le := by
    rw [h.start, h.content]
    exact hhead
  content_le := by
    rw [h.content]
    exact h.content_le
  stop_le := h.stop_le
  named := by
    rw [h.start, h.attributes]
    exact hheld.named
  closes := by
    rw [h.start, h.startTagEnd]
    exact hheld.closes
  endTag := h.endTag
  selfClosed := by
    rw [h.start]
    exact hself
  nested := by
    intro c hc
    rw [h.children] at hc
    have hstop := hchildren.le_frontier.2 c hc
    exact h.late c (hchildren.mem hc).1 (hchildren.le_high hc) (Nat.le_trans hstop hlow)
  ended := h.ended

theorem Stacked.attach_recorded {t : Text} {limit low : Nat} {r : TreeReader} {done : Element}
    (h : Stacked t limit r.roots r.stack low) (hlow : low ≤ done.start)
    (hcontent : done.contentStop ≤ limit) (hrecorded : done.Recorded t)
    (hinside : Laid t (headStop t done.start) done.contentStop done.children) :
    Stacked t limit (r.attach done).roots (r.attach done).stack done.stop := by
  unfold TreeReader.attach
  cases hstack : r.stack with
  | nil =>
      rw [hstack] at h
      cases h with
      | bottom hroots =>
          have hbottom := Stacked.bottom (hroots.snoc hlow hcontent hrecorded hinside)
          rw [frontier_snoc] at hbottom
          simpa [hstack] using hbottom
  | cons next below =>
      rw [hstack] at h
      cases h with
      | push hbelow hnextLow hnextHead hnextKnown hnextNone hnextChildren =>
          have hsnoc := hnextChildren.snoc hlow hcontent hrecorded hinside
          have hknown : OpenElement.Known t { next with children := next.children ++ [done] } :=
            ⟨⟨hnextKnown.opens, hnextKnown.name, hnextKnown.named, hnextKnown.closes⟩,
              hnextKnown.notClosed⟩
          have hpush := Stacked.push (e := { next with children := next.children ++ [done] })
            hbelow hnextLow hnextHead hknown hnextNone hsnoc
          simpa using hpush

theorem Stacked.attach {t : Text} {limit low : Nat} {r : TreeReader} {e : OpenElement}
    {done : Element} (h : Stacked t limit r.roots (e :: r.stack) low)
    (hdone : e.Becomes t limit low done) :
    Stacked t limit (r.attach done).roots (r.attach done).stack done.stop := by
  cases h with
  | push hrest hlow hhead hknown hnone hchildren =>
      have hself : forall token rest, afterHead t e.start = token :: rest ->
          token.kind = .startTagSelfClose ->
          done.stop = token.stop ∧ done.endTagStart = none := by
        intro token rest hafter hkind
        exact absurd hkind (hknown.notClosed token rest hafter)
      have hrecorded := hdone.recorded hknown.toHeadHeld hhead hself hchildren (Nat.le_refl _)
      refine hrest.attach_recorded ?_ (Nat.le_of_eq hdone.content) hrecorded ?_
      · rw [hdone.start]
        exact hlow
      · rw [hdone.start, hdone.content, hdone.children]
        exact hchildren

/-- How it is closed and the end tag aside, what is known of an element stays known. -/
theorem Stacked.congr_top {t : Text} {limit low : Nat} {roots : List Element}
    {e other : OpenElement} {rest : List OpenElement}
    (h : Stacked t limit roots (e :: rest) low)
    (hstart : other.start = e.start) (htag : other.tag = e.tag)
    (hstartTagEnd : other.startTagEnd = e.startTagEnd)
    (hattributes : other.attributes = e.attributes) (hchildren : other.children = e.children)
    (hnone : other.endTagStart = none) :
    Stacked t limit roots (other :: rest) low := by
  cases h with
  | push hrest hlow hhead hknown _ hinside =>
      rw [← hstart, ← hchildren]
      apply Stacked.push hrest
      · rw [hstart]
        exact hlow
      · rw [hstart]
        exact hhead
      · constructor
        · constructor
          · rw [hstart]
            exact hknown.opens
          · rw [hstart, htag]
            exact hknown.name
          · rw [hstart, hattributes]
            exact hknown.named
          · rw [hstart, hstartTagEnd]
            exact hknown.closes
        · rw [hstart]
          exact hknown.notClosed
      · exact hnone
      · rw [hstart, hchildren]
        exact hinside

/-!
# Finishing several elements
-/

namespace TreeReader

@[simp] theorem attach_closing (r : TreeReader) (e : Element) :
    (r.attach e).closing = r.closing := by
  unfold attach
  split <;> rfl

@[simp] theorem attach_endTagStart (r : TreeReader) (e : Element) :
    (r.attach e).endTagStart = r.endTagStart := by
  unfold attach
  split <;> rfl

@[simp] theorem length_attach_stack (r : TreeReader) (e : Element) :
    (r.attach e).stack.length = r.stack.length := by
  unfold attach
  split
  · rfl
  · rename_i hstack
    simp [hstack]

theorem pop_of_stack {r : TreeReader} {top : OpenElement} {rest : List OpenElement}
    (hstack : r.stack = top :: rest) (stop : Nat) :
    r.pop stop = { r with stack := rest }.attach (top.finish stop) := by
  unfold pop
  rw [hstack]

theorem mapTop_of_stack {r : TreeReader} {top : OpenElement} {rest : List OpenElement}
    (hstack : r.stack = top :: rest) (f : OpenElement -> OpenElement) :
    r.mapTop f = { r with stack := f top :: rest } := by
  unfold mapTop
  rw [hstack]

/-- The open elements, of which the innermost may have met its end tag at the limit. -/
def Settling (t : Text) (limit low : Nat) (r : TreeReader) : Prop :=
  Stacked t limit r.roots r.stack low ∨
    exists top rest, r.stack = top :: rest ∧ top.endTagStart = some limit ∧ EndTagOpens t limit ∧
      Stacked t limit r.roots ({ top with endTagStart := none } :: rest) low

theorem Settling.top {t : Text} {limit low : Nat} {r : TreeReader} {top : OpenElement}
    {rest : List OpenElement} (h : r.Settling t limit low) (hstack : r.stack = top :: rest) :
    (top.endTagStart = none ∨ (top.endTagStart = some limit ∧ EndTagOpens t limit)) ∧
      Stacked t limit r.roots ({ top with endTagStart := none } :: rest) low := by
  rcases h with hstacked | ⟨other, below, hother, hlimit, hopens, hstacked⟩
  · rw [hstack] at hstacked
    cases hstacked with
    | push hrest hlow hhead hknown hnone hchildren =>
        refine ⟨Or.inl hnone, ?_⟩
        exact (Stacked.push hrest hlow hhead hknown hnone hchildren).congr_top
          rfl rfl rfl rfl rfl rfl
  · rw [hstack] at hother
    injection hother with htop hbelow
    subst htop
    subst hbelow
    exact ⟨Or.inr ⟨hlimit, hopens⟩, hstacked⟩

/--
Elements that end where the end tag of an outer one begins.  Some elements inside of them may
have ended later, up to `bound`, in the part of that end tag that has been read.
-/
theorem Settling.abandon {t : Text} {limit bound : Nat} (hreaches : Reaches t .content limit)
    (hbound : limit ≤ bound)
    (hlate : forall c : Element, c.Recorded t -> c.contentStop ≤ limit -> c.stop ≤ bound ->
      c.stop ≤ limit ∨ c.Overhangs t limit) :
    forall {n low : Nat} {r : TreeReader}, r.Settling t limit low -> low ≤ bound ->
      n ≤ r.stack.length ->
      exists later, (r.abandon limit n).Settling t limit later ∧ later ≤ bound ∧
        (r.abandon limit n).stack.length = r.stack.length - n ∧
        (r.abandon limit n).closing = r.closing ∧
        (r.abandon limit n).endTagStart = r.endTagStart := by
  intro n
  induction n with
  | zero =>
      intro low r h hlow _
      exact ⟨low, h, hlow, rfl, rfl, rfl⟩
  | succ n ih =>
      intro low r h hlow hn
      cases hstack : r.stack with
      | nil =>
          rw [hstack] at hn
          simp at hn
      | cons top rest =>
          rcases h.top hstack with ⟨hend, hstacked⟩
          have hdone : OpenElement.Becomes t limit low { top with endTagStart := none }
              ({ top with closed := false }.finish limit) := by
            constructor
            · rfl
            · rfl
            · rfl
            · rfl
            · rfl
            · rcases hend with hnone | ⟨hsome, _⟩
              · simp [OpenElement.finish, Element.contentStop, hnone]
              · simp [OpenElement.finish, Element.contentStop, hsome]
            · exact Nat.le_refl _
            · exact hreaches.le
            · intro start hstart
              rcases hend with hnone | ⟨hsome, hopens⟩
              · simp [OpenElement.finish, hnone] at hstart
              · simp only [OpenElement.finish, hsome, Option.some.injEq] at hstart
                subst hstart
                refine ⟨hreaches, hopens, ?_⟩
                intro token _ hlt hstop
                simp only [OpenElement.finish] at hstop
                omega
            · intro c hc hcontent hstop
              exact hlate c hc hcontent (Nat.le_trans hstop hlow)
            · exact Or.inl hreaches
          have hattached := Stacked.attach (r := { r with stack := rest }) hstacked hdone
          have hpop : ((r.mapTop fun e => { e with closed := false }).pop limit) =
              { r with stack := rest }.attach ({ top with closed := false }.finish limit) := by
            rw [mapTop_of_stack hstack, pop_of_stack rfl]
          rw [TreeReader.abandon, hpop]
          have hlength : n ≤ ({ r with stack := rest }.attach
              ({ top with closed := false }.finish limit)).stack.length := by
            rw [length_attach_stack]
            rw [hstack] at hn
            simpa using hn
          rcases ih (Or.inl hattached) hbound hlength with
            ⟨later, hsettling, hlater, hlen, hclosing, hstart⟩
          refine ⟨later, hsettling, hlater, ?_, ?_, ?_⟩
          · rw [hlen, length_attach_stack]
            simp
          · rw [hclosing]
            simp
          · rw [hstart]
            simp

end TreeReader

end SfcServer
