import SfcServer.Proofs.Markup.TreeReader

/-!
# A run of the tree reader

Where the reader stands is told by the mode of the scanner: between tags, in the start
tag of its innermost element, or in an end tag that closes it.  One lemma for each
kind of step shows that the reader stays in one of these situations.
-/

namespace SfcServer

def ScanMode.Between (mode : ScanMode) : Prop :=
  mode = .content ∨ mode = .inEndTag ∨ exists element, mode = .rawBody element

namespace TreeReader

def limit (mode : ScanMode) (offset : Nat) (r : TreeReader) : Nat :=
  if mode = .inEndTag then r.endTagStart else offset

/-- Where the reader of a text stands after the tokens before an offset. -/
inductive Standing (t : Text) (mode : ScanMode) (offset : Nat) (r : TreeReader) : Prop where
  | between {low : Nat} :
      mode.Between ->
      r.closing = false ->
      Stacked t (r.limit mode offset) r.roots r.stack low ->
      low ≤ offset ->
      Standing t mode offset r
  | tag {top : OpenElement} {rest : List OpenElement} {low : Nat} :
      r.stack = top :: rest ->
      r.closing = false ->
      top.Pending t mode offset ->
      Stacked t offset r.roots rest low ->
      low ≤ top.start ->
      Standing t mode offset r
  | closing {top : OpenElement} {rest : List OpenElement} {low : Nat} :
      r.stack = top :: rest ->
      r.closing = true ->
      mode = .inEndTag ->
      top.endTagStart = some r.endTagStart ->
      Stacked t r.endTagStart r.roots ({ top with endTagStart := none } :: rest) low ->
      low ≤ offset ->
      Standing t mode offset r

/-- An end tag has been read up to an offset. -/
structure EndTagRead (t : Text) (start offset : Nat) : Prop extends
    EndTagSpans t start offset where
  lt : start < offset

structure Sound (t : Text) (mode : ScanMode) (offset : Nat) (r : TreeReader) : Prop where
  reaches : Reaches t mode offset
  standing : r.Standing t mode offset
  endTag : mode = .inEndTag -> EndTagRead t r.endTagStart offset

theorem sound_start (t : Text) : Sound t .content 0 {} where
  reaches := Reaches.start t
  standing := by
    refine Standing.between (Or.inl rfl) rfl (Stacked.bottom (Laid.nil 0 _)) ?_
    exact Nat.le_refl _
  endTag := by
    intro h
    cases h

/-!
# Ending elements
-/

theorem settle_of_not_closing {r : TreeReader} (h : r.closing = false) (stop : Nat) :
    r.settle stop = r := by
  simp [settle, h]

theorem settle_of_closing {r : TreeReader} {top : OpenElement} {rest : List OpenElement}
    (hclosing : r.closing = true) (hstack : r.stack = top :: rest) (stop : Nat) :
    r.settle stop =
      { { r with stack := rest }.attach (top.finish stop) with closing := false } := by
  rw [settle, if_pos hclosing, pop_of_stack hstack]

theorem Sound.limit_le {t : Text} {mode : ScanMode} {offset : Nat} {r : TreeReader}
    (h : r.Sound t mode offset) : r.limit mode offset ≤ offset := by
  unfold limit
  split
  · rename_i hmode
    exact Nat.le_of_lt (h.endTag hmode).lt
  · exact Nat.le_refl _

/--
An element whose content ends before an end tag, and that ends while that end tag is read, does
so at a character that breaks the end tag off.
-/
theorem EndTagRead.late {t : Text} {start offset : Nat} (h : EndTagRead t start offset)
    (hle : offset ≤ t.length) {c : Element} (hc : c.Recorded t)
    (hcontent : c.contentStop ≤ start) (hstop : c.stop < offset) :
    c.stop ≤ start ∨ c.Overhangs t start := by
  by_cases hbefore : c.stop ≤ start
  · exact Or.inl hbefore
  · refine Or.inr ?_
    unfold Element.contentStop at hcontent
    cases hend : c.endTagStart with
    | none =>
        rw [hend] at hcontent
        exact absurd hcontent hbefore
    | some first =>
        rw [hend] at hcontent
        change first ≤ start at hcontent
        have hgoesOn := (hc.endTag first hend).goesOn
        have hsame : first = start := by
          rcases Nat.lt_or_eq_of_le hcontent with hlt | heq
          · -- The end tag of the element would go on with another one.
            have hkind := hgoesOn _ h.opens hlt (by simp only; omega)
            cases hkind
          · exact heq
        refine ⟨by rw [hend, hsame], ?_⟩
        rcases hc.ended with hreaches | hbroken
        · exfalso
          have hdrop : t.drop c.stop = t[c.stop] :: t.drop (c.stop + 1) :=
            List.drop_eq_getElem_cons (by omega)
          have hkind := h.goesOn _ (hreaches.token_mem hdrop)
            (by simp only [ScanStep.token_offset]; omega) hstop
          have hfresh := ScanStep.content_fresh t[c.stop] (t.drop (c.stop + 1))
          rw [ScanStep.token_kind, ScanStep.next, hfresh.not_inEndTag] at hkind
          cases hkind
        · exact hbroken

/-- An element that has met its end tag ends at a place up to which that tag has been read. -/
theorem settle_closing {t : Text} {stop low : Nat}
    {r : TreeReader} {top : OpenElement} {rest : List OpenElement}
    (hstack : r.stack = top :: rest) (hclosing : r.closing = true)
    (hend : top.endTagStart = some r.endTagStart)
    (hstacked : Stacked t r.endTagStart r.roots ({ top with endTagStart := none } :: rest) low)
    (hread : EndTagRead t r.endTagStart stop) (hlow : low ≤ stop) (hstop : stop ≤ t.length)
    (hended : Reaches t .content stop ∨ (top.finish stop).EndsBroken t) :
    (r.settle stop).closing = false ∧ (r.settle stop).endTagStart = r.endTagStart ∧
      Stacked t r.endTagStart (r.settle stop).roots (r.settle stop).stack stop := by
  have hdone : OpenElement.Becomes t r.endTagStart low { top with endTagStart := none }
      (top.finish stop) := by
    constructor
    · rfl
    · rfl
    · rfl
    · rfl
    · rfl
    · simp [OpenElement.finish, Element.contentStop, hend]
    · exact Nat.le_of_lt hread.lt
    · exact hstop
    · intro start hstart
      simp only [OpenElement.finish, hend, Option.some.injEq] at hstart
      subst hstart
      exact hread.toEndTagSpans
    · intro c _ _ hlate
      exact Or.inl (Nat.le_trans hlate hlow)
    · exact hended
  have hattached := Stacked.attach (r := { r with stack := rest }) hstacked hdone
  rw [settle_of_closing hclosing hstack]
  exact ⟨rfl, attach_endTagStart _ _, hattached⟩

/-!
# Start tags
-/

theorem pending_over {t : Text} {mode : ScanMode} {offset : Nat} {e : OpenElement}
    (h : e.Pending t mode offset) (hle : offset ≤ t.length)
    (hover : forall token, (scanFrom mode offset (t.drop offset)).head? = some token ->
      token.kind.inHead = false) :
    e.HeadHeld t ∧ headStop t e.start = offset ∧
      afterHead t e.start = scanFrom mode offset (t.drop offset) := by
  rcases h.read with ⟨read, hread, hnamed⟩
  rcases hread.finished hover with ⟨htokens, hafter⟩
  have hmode : mode ≠ .afterOpen := by
    rcases h.mode with ⟨hopen, c, rest, hdrop, hname⟩ | hin
    · -- The name of the tag would be left to read.
      subst hopen
      rw [hdrop, scanFrom_cons, ScanStep.next_afterOpen rest hname] at hover
      cases hover _ rfl
    · exact hin.ne_afterOpen
  refine ⟨⟨h.opens, h.name hmode, ?_, ?_⟩, hread.headStop_eq hle hover, hafter⟩
  · rw [htokens]
    exact hnamed
  · intro stop hstop
    rw [h.startTagEnd] at hstop
    cases hstop

theorem pending_next {t : Text} {mode : ScanMode} {offset : Nat} {e other : OpenElement}
    {c : Char} {rest : Text} (h : e.Pending t mode offset) (hdrop : t.drop offset = c :: rest)
    (hkind : (ScanStep.next mode c rest).kind.inHead = true)
    (hmode : (ScanStep.next mode c rest).mode.InTag (RawElement.ofTag? other.tag))
    (hstart : other.start = e.start) (hname : HeadNamed t other.start other.tag)
    (hchildren : other.children = e.children)
    (hstartTagEnd : other.startTagEnd = e.startTagEnd)
    (hendTagStart : other.endTagStart = e.endTagStart)
    (hkept : forall a, a ∈ e.attributes -> exists b, b ∈ other.attributes ∧ b.name = a.name)
    (hnew : (ScanStep.next mode c rest).kind = .attributeName ->
      exists b, b ∈ other.attributes ∧
        b.name = ((ScanStep.next mode c rest).token c rest offset).text) :
    other.Pending t (ScanStep.next mode c rest).mode
      (offset + 1 + (ScanStep.next mode c rest).extra) := by
  rcases h.read with ⟨read, hread, hnamed⟩
  constructor
  · rw [hstart]
    exact h.opens
  · intro hopen
    exact absurd hopen hmode.ne_afterOpen
  · intro _
    exact hname
  · refine ⟨_, by rw [hstart]; exact hread.next hdrop hkind, ?_⟩
    intro token hmem hname
    rcases List.mem_append.mp hmem with hold | hlast
    · rcases hnamed token hold hname with ⟨a, ha, haname⟩
      rcases hkept a ha with ⟨b, hb, hbname⟩
      exact ⟨b, hb, hbname.trans haname⟩
    · rw [List.mem_singleton.mp hlast] at hname ⊢
      exact hnew hname
  · rw [hchildren]
    exact h.children
  · rw [hstartTagEnd]
    exact h.startTagEnd
  · rw [hendTagStart]
    exact h.endTagStart
  · exact Or.inr hmode

end TreeReader

theorem Attribute.exists_mem_set (name : Text) (value : Option Text) (attributes : List Attribute) :
    exists a, a ∈ Attribute.set name value attributes ∧ a.name = name := by
  induction attributes with
  | nil =>
      exact ⟨⟨name, value⟩, by simp [Attribute.set], rfl⟩
  | cons first rest ih =>
      unfold Attribute.set
      split
      · exact ⟨⟨name, value⟩, List.mem_cons_self, rfl⟩
      · rcases ih with ⟨a, ha, haname⟩
        exact ⟨a, List.mem_cons_of_mem _ ha, haname⟩

theorem Attribute.mem_set_of_mem (name : Text) (value : Option Text)
    {attributes : List Attribute} {a : Attribute} (h : a ∈ attributes) :
    exists b, b ∈ Attribute.set name value attributes ∧ b.name = a.name := by
  induction attributes with
  | nil =>
      cases h
  | cons first rest ih =>
      unfold Attribute.set
      rcases List.mem_cons.mp h with heq | hrest
      · subst heq
        split
        · rename_i hname
          exact ⟨⟨name, value⟩, List.mem_cons_self, hname.symm⟩
        · exact ⟨a, List.mem_cons_self, rfl⟩
      · split
        · exact ⟨a, List.mem_cons_of_mem _ hrest, rfl⟩
        · rcases ih hrest with ⟨b, hb, hbname⟩
          exact ⟨b, List.mem_cons_of_mem _ hb, hbname⟩

end SfcServer
