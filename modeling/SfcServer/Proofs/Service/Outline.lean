import SfcServer.Proofs.Markup.Placement
import SfcServer.Proofs.Offset.Lines
import SfcServer.Proofs.Service.Moves
import SfcServer.Proofs.Store.Coherence

/-!
# The outline of a document

The outline has the shape of the element tree: one symbol for each element, in the same order and
with the same nesting.  An outline leaves out elements without a name, but there are none: an
element begins at a `<` that a name follows.  That name ends before the element does, however the
element ends, so the selection of a symbol lies in its range.
-/

namespace SfcServer

open SfcServer.Action

/-- A range is the one between two offsets of a text. -/
structure Range.Delimits (t : Text) (r : Range) (start stop : Nat) : Prop where
  ordered : start ≤ stop
  inText : stop ≤ t.length
  places : r = ⟨(Lines.ofText t).placeAt start, (Lines.ofText t).placeAt stop⟩
  text : Lines.textIn t r = t.slice start stop

structure Range.Within (inner outer : Range) : Prop where
  start : outer.start.NotAfter inner.start
  ordered : inner.start.NotAfter inner.stop
  stop : inner.stop.NotAfter outer.stop

/-- A symbol shows an element with the name in its start tag. -/
structure Symbol.Shows (t : Text) (e : Element) (s : Symbol) : Prop where
  name : s.name = e.label
  range : s.range.Delimits t e.start e.stop
  written : HeadNamed t e.start e.tag
  selection : s.selection.Delimits t (e.start + 1) (e.start + 1 + e.tag.length)
  selected : Lines.textIn t s.selection = e.tag
  contained : s.selection.Within s.range

/-- A symbol shows an element, and the symbols inside of it show the elements inside, in order. -/
inductive Symbol.Outlines (t : Text) : Element -> Symbol -> Prop where
  | intro {e : Element} {s : Symbol} :
      s.Shows t e ->
      List.Forall₂ (Outlines t) e.children s.children ->
      Outlines t e s

/-!
# Ranges
-/

namespace Lines

variable {t : Text} {start stop : Nat}

theorem rangeOf_delimits (h : start ≤ stop) (hstop : stop ≤ t.length) :
    ((ofText t).rangeOf start stop).Delimits t start stop where
  ordered := h
  inText := hstop
  places := rangeOf_eq t h hstop
  text := textIn_rangeOf t h hstop

end Lines

/-- A range between offsets that lie between those of another range lies inside of it. -/
theorem Range.Delimits.within {t : Text} {inner outer : Range} {start stop first last : Nat}
    (hinner : inner.Delimits t first last) (houter : outer.Delimits t start stop)
    (hstart : start ≤ first) (hstop : last ≤ stop) : inner.Within outer := by
  rw [hinner.places, houter.places]
  constructor
  · exact Lines.placeAt_notAfter t hstart (Nat.le_trans hinner.ordered hinner.inText)
  · exact Lines.placeAt_notAfter t hinner.ordered hinner.inText
  · exact Lines.placeAt_notAfter t hstop houter.inText

namespace Element.Recorded

theorem name_le {t : Text} {e : Element} (h : e.Recorded t) :
    e.start + 1 + e.tag.length ≤ e.stop := by
  have hstart := h.start_lt
  have hcontent := h.content_le
  -- No element stops where a name is read, so this one stops behind the name.
  have hne : e.start + 1 ≠ e.stop := fun heq => (h.cut_stop.kind _ h.name heq).1 rfl
  exact h.cut_stop.stop_le _ h.name (by simp only; omega)

end Element.Recorded

/-!
# Symbols
-/

namespace Service

variable {t : Text}

theorem symbolOf_eq (lines : Lines) (e : Element) :
    symbolOf lines e = ⟨e.label, lines.rangeOf e.start e.stop,
      lines.rangeOf (e.start + 1) (e.start + 1 + e.tag.length), symbolsOf lines e.children⟩ := by
  cases e
  rw [symbolOf]

theorem symbolsOf_forall₂ {lines : Lines} {R : Element -> Symbol -> Prop} {es : List Element}
    (h : forall e, e ∈ es -> e.tag ≠ [] ∧ R e (symbolOf lines e)) :
    List.Forall₂ R es (symbolsOf lines es) := by
  induction es with
  | nil =>
      exact List.Forall₂.nil
  | cons e rest ih =>
      rcases h e List.mem_cons_self with ⟨hnamed, hshown⟩
      have hname : ¬ e.tag.isEmpty = true := by
        rw [List.isEmpty_iff]
        exact hnamed
      rw [symbolsOf, if_neg hname]
      apply List.Forall₂.cons hshown
      apply ih
      intro other hother
      exact h other (List.mem_cons_of_mem _ hother)

theorem symbolOf_shows {e : Element} (h : e.Recorded t) :
    (symbolOf (Lines.ofText t) e).Shows t e := by
  have hname := h.name_le
  have hrange : ((Lines.ofText t).rangeOf e.start e.stop).Delimits t e.start e.stop :=
    Lines.rangeOf_delimits (by omega) h.stop_le
  have hselection :
      ((Lines.ofText t).rangeOf (e.start + 1 : Nat) (e.start + 1 + e.tag.length : Nat)).Delimits t
        (e.start + 1) (e.start + 1 + e.tag.length) :=
    Lines.rangeOf_delimits (Nat.le_add_right _ _) (Nat.le_trans hname h.stop_le)
  rw [symbolOf_eq]
  constructor
  · rfl
  · exact hrange
  · exact h.name
  · exact hselection
  · exact hselection.text.trans h.tagsStand.name
  · exact hselection.within hrange (Nat.le_succ _) hname

theorem symbolOf_outlines (root : Element) :
    forall {low high : Nat} {es : List Element}, Laid t low high es -> root ∈ es ->
      (symbolOf (Lines.ofText t) root).Outlines t root := by
  induction root using Element.induction_on with
  | h root ih =>
      intro low high es hlaid hroot
      rcases hlaid.mem hroot with ⟨hrecorded, hchildren⟩
      refine Symbol.Outlines.intro (symbolOf_shows hrecorded) ?_
      rw [symbolOf_eq]
      apply symbolsOf_forall₂
      intro c hc
      exact ⟨(hchildren.mem hc).1.tagsStand.named, ih c hc hchildren hc⟩

/--
Whatever happened to the documents before, the outline of a document has one symbol for each of
its elements, in the same order and nesting: its range is that of the element, and its selection
is the name in the start tag.
-/
theorem outline_shown [ScriptParser] {s : ServiceState} {uri : Text} {e : Entry}
    (c : Surroundings) (hreached : s.workspace.store.Reached)
    (hentry : s.workspace.store.entryOf? uri = some e) :
    exists outline, (outcome (symbols uri) c s).1 = .ok outline ∧
      List.Forall₂ (Symbol.Outlines e.text) (Document.ofText e.text).roots outline := by
  have hmarkup := hreached.coherent.markup?_value hentry
  have hlaid := Document.ofText_laid e.text
  refine ⟨symbolsOf e.lines (Document.ofText e.text).roots, ?_, ?_⟩
  · exact congrArg Prod.fst (outcome_markupAnswer c _ hentry hmarkup)
  · apply symbolsOf_forall₂
    intro root hroot
    exact ⟨(hlaid.mem hroot).1.tagsStand.named, symbolOf_outlines root hlaid hroot⟩

def overhangUri : Text :=
  "Overhang.vue".toList

/-- The document with an end tag that is broken off, opened in an empty store. -/
def overhangState : ServiceState where
  workspace := { store := Store.openText [] overhangUri overhangText 0 }

/-- The innermost element stops behind the one around it, and is outlined up to its own end. -/
theorem outline_shown_overhang :
    exists e outline, overhangState.workspace.store.Reached ∧
      overhangState.workspace.store.entryOf? overhangUri = some e ∧
      (outcome (symbols overhangUri) ⟨fun _ => .missing, []⟩ overhangState).1 = .ok outline ∧
      List.Forall₂ (Symbol.Outlines e.text) (Document.ofText e.text).roots outline ∧
      outline.map (fun a => a.children.map fun c => c.children.map fun b =>
        (Lines.textIn overhangText b.range, Lines.textIn overhangText b.selection)) =
          [[[("<b></b ".toList, "b".toList)]]] := by
  have hstored : (overhangState.workspace.store.entryOf? overhangUri).isSome = true := by
    decide +kernel
  have hspans : (outcome (symbols overhangUri) ⟨fun _ => .missing, []⟩
      overhangState).1.toOption.any (fun outline =>
        outline.map (fun a => a.children.map fun c => c.children.map fun b =>
          (Lines.textIn overhangText b.range, Lines.textIn overhangText b.selection)) =
            [[[("<b></b ".toList, "b".toList)]]]) = true := by
    decide +kernel
  have hreached : overhangState.workspace.store.Reached :=
    Store.Reached.step Store.Reached.empty (.openText overhangUri overhangText 0)
  rcases Option.isSome_iff_exists.mp hstored with ⟨e, he⟩
  rcases outline_shown ⟨fun _ => .missing, []⟩ hreached he with ⟨outline, houtline, hall⟩
  rw [houtline] at hspans
  exact ⟨e, outline, hreached, he, houtline, hall, of_decide_eq_true hspans⟩

end Service
end SfcServer
