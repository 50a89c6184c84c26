import SfcServer.Proofs.Markup.EndNames
import SfcServer.Proofs.Markup.Innermost
import SfcServer.Proofs.Service.Outline

/-!
# Highlighted names

What is highlighted of an element is the name in its start tag and, when its end tag has closed
it, as many characters behind the `</` of that tag.  These are the name in the end tag when it
stands there and is as long as the other one.  The scanner takes blanks, other names and stray
characters in front of it, and letters may change their number with their case; then something
else is highlighted.
-/

namespace SfcServer

open SfcServer.Action

/-- A name of an element stands at an offset: in its start tag, or in the end tag that closes it. -/
inductive Element.NamedAt (t : Text) (e : Element) (start : Nat) (name : Text) : Prop where
  | startTag :
      HeadNamed t e.start e.tag ->
      start = e.start + 1 ->
      name = e.tag ->
      NamedAt t e start name
  | endTag {first : Nat} :
      e.closed = true ->
      e.endTagStart = some first ->
      EndTagSpans t first e.stop ->
      EndNamed t first e.stop e.tag start name ->
      NamedAt t e start name

/-- A range holds a name of an element, and so the name in its start tag up to case. -/
structure Range.Names (t : Text) (e : Element) (r : Range) : Prop where
  placed : exists start name, e.NamedAt t start name ∧ r.Delimits t start (start + name.length)
  same : Text.lower (Lines.textIn t r) = Text.lower e.tag

/--
When an end tag closes an element, its name stands right behind the `</` and is as long as the
one in the start tag; or it is shorter and the text ends there.
-/
def Element.EndsTight (t : Text) (e : Element) : Prop :=
  e.closed = true -> forall first, e.endTagStart = some first ->
    exists name, EndNamed t first e.stop e.tag (first + 2) name ∧
      first + 2 + name.length = min (first + 2 + e.tag.length) t.length

namespace Lines

variable {t : Text}

/-- The range behind an offset of a text ends with the text at the latest. -/
theorem rangeOf_delimits_min {start stop : Nat} (h : start ≤ stop) (hstart : start ≤ t.length) :
    ((ofText t).rangeOf start stop).Delimits t start (min stop t.length) := by
  have hcut : (ofText t).rangeOf start stop =
      (ofText t).rangeOf start (min stop t.length : Nat) := by
    have hsize : (ofText t).size = t.length := rfl
    have hmin : min ((min stop t.length : Nat) : Int) (ofText t).size =
        min (stop : Int) (ofText t).size := by
      omega
    simp only [rangeOf, hmin]
  rw [hcut]
  exact rangeOf_delimits (by omega) (Nat.min_le_right _ _)

theorem delimits_unique {r : Range} {start stop first last : Nat}
    (h : r.Delimits t start stop) (hother : r.Delimits t first last) :
    start = first ∧ stop = last := by
  have hplaces := h.places.symm.trans hother.places
  injection hplaces with hstart hstop
  have hbegin := congrArg (ofText t).offsetAt hstart
  have hend := congrArg (ofText t).offsetAt hstop
  rw [offsetAt_placeAt t (Nat.le_trans h.ordered h.inText),
    offsetAt_placeAt t (Nat.le_trans hother.ordered hother.inText)] at hbegin
  rw [offsetAt_placeAt t h.inText, offsetAt_placeAt t hother.inText] at hend
  exact ⟨hbegin, hend⟩

end Lines

/-!
# The two names
-/

namespace Element.Recorded

variable {t : Text} {e : Element}

/-- The range behind the `<` of a start tag holds its name. -/
theorem opening_names (h : e.Recorded t) {r : Range}
    (hr : r.Delimits t (e.start + 1) (e.start + 1 + e.tag.length)) : r.Names t e where
  placed := ⟨e.start + 1, e.tag, NamedAt.startTag h.name rfl rfl, hr⟩
  same := by
    rw [hr.text, h.tagsStand.name]

/-- The `</` of an end tag stands behind the `<` of the start tag, and inside of the text. -/
theorem endTag_place (h : e.Recorded t) {first : Nat} (hend : e.endTagStart = some first) :
    e.start ≤ first ∧ first + 2 ≤ t.length := by
  have hopens := (tokensOf_tiled t).mem_bounds (h.endTag first hend).opens
  have hstart := h.start_lt
  rw [contentStop, hend, Option.getD_some] at hstart
  refine ⟨Nat.le_of_lt hstart, ?_⟩
  rw [Nat.zero_add] at hopens
  exact hopens.2.2

/-- What is highlighted of an end tag is its name exactly when the name stands there. -/
theorem closing_names_iff (h : e.Recorded t) (hclosed : e.closed = true) {first : Nat}
    (hend : e.endTagStart = some first) {r : Range}
    (hr : r.Delimits t (first + 2) (min (first + 2 + e.tag.length) t.length)) :
    r.Names t e ↔ e.EndsTight t := by
  have hspans := h.endTag first hend
  constructor
  · intro hnames _ other hother
    rw [hend] at hother
    cases hother
    rcases hnames.placed with ⟨start, name, hnamed, hplaced⟩
    rcases Lines.delimits_unique hr hplaced with ⟨hstart, hstop⟩
    cases hnamed with
    | startTag _ hplace _ =>
        have hbefore := (h.endTag_place hend).1
        omega
    | endTag _ hsame _ hnamed =>
        rw [hend] at hsame
        cases hsame
        rw [← hstart] at hnamed hstop
        exact ⟨name, hnamed, hstop.symm⟩
  · intro htight
    rcases htight hclosed first hend with ⟨name, hnamed, hstop⟩
    rw [← hstop] at hr
    refine ⟨⟨first + 2, name, NamedAt.endTag hclosed hend hspans hnamed, hr⟩, ?_⟩
    have hread : name = t.slice (first + 2) (first + 2 + name.length) :=
      (text_of_mem_scan (Nat.zero_le _) (Nat.le_refl _) hnamed.written).2
    rw [hr.text, ← hread]
    exact hnamed.same

end Element.Recorded

/--
What is highlighted of an element: the name in its start tag, and as many characters behind the
`</` of the end tag that has closed it; or nothing.
-/
structure Element.Highlighted (t : Text) (e : Element) (ranges : List Range) : Prop where
  opening : forall r, ranges.head? = some r ->
    r.Names t e ∧ r.Delimits t (e.start + 1) (e.start + 1 + e.tag.length)
  closing : forall r, r ∈ ranges.tail -> e.closed = true ∧
    exists first, e.endTagStart = some first ∧
      r.Delimits t (first + 2) (min (first + 2 + e.tag.length) t.length)
  complete : ranges ≠ [] -> ranges.length = if e.closed && e.endTagStart.isSome then 2 else 1
  named_iff : (forall r, r ∈ ranges -> r.Names t e) ↔ ranges = [] ∨ e.EndsTight t

namespace Element.Highlighted

variable {t : Text} {e : Element}

theorem nil (t : Text) (e : Element) : e.Highlighted t [] where
  opening := by
    intro r hr
    cases hr
  closing := by
    intro r hr
    cases hr
  complete := fun hne => absurd rfl hne
  named_iff := by simp

/-- An element without an end tag is highlighted in its start tag only. -/
theorem single {r : Range} (h : e.Recorded t)
    (hopen : ¬ (e.closed = true ∧ exists first, e.endTagStart = some first))
    (hr : r.Delimits t (e.start + 1) (e.start + 1 + e.tag.length)) : e.Highlighted t [r] := by
  have hnames := h.opening_names hr
  have htight : e.EndsTight t := by
    intro hclosed first hend
    exact absurd ⟨hclosed, first, hend⟩ hopen
  constructor
  · intro other hother
    cases hother
    exact ⟨hnames, hr⟩
  · intro other hother
    cases hother
  · intro _
    rw [if_neg]
    · rfl
    · rw [Bool.and_eq_true, Option.isSome_iff_exists]
      exact hopen
  · constructor
    · exact fun _ => Or.inr htight
    · intro _ other hother
      rw [List.mem_singleton.mp hother]
      exact hnames

theorem pair {r s : Range} (h : e.Recorded t) (hclosed : e.closed = true) {first : Nat}
    (hend : e.endTagStart = some first)
    (hr : r.Delimits t (e.start + 1) (e.start + 1 + e.tag.length))
    (hs : s.Delimits t (first + 2) (min (first + 2 + e.tag.length) t.length)) :
    e.Highlighted t [r, s] := by
  have hnames := h.opening_names hr
  have hiff := h.closing_names_iff hclosed hend hs
  constructor
  · intro other hother
    cases hother
    exact ⟨hnames, hr⟩
  · intro other hother
    rw [List.mem_singleton.mp hother]
    exact ⟨hclosed, first, hend, hs⟩
  · intro _
    rw [hclosed, hend]
    rfl
  · constructor
    · intro hall
      exact Or.inr (hiff.mp (hall s (List.mem_cons_of_mem r List.mem_cons_self)))
    · rintro (hempty | htight) other hother
      · cases hempty
      · rcases List.mem_cons.mp hother with rfl | hlast
        · exact hnames
        · rw [List.mem_singleton.mp hlast]
          exact hiff.mpr htight

end Element.Highlighted

namespace Service

variable {t : Text}

def rangesAt (lines : Lines) (d : Document) (offset : Nat) : List Range :=
  match d.elementAt? offset with
  | none => []
  | some e =>
      if (tagSpans e).any (fun (start, stop) => start ≤ offset && offset ≤ stop) then
        (tagSpans e).map fun (start, stop) => lines.rangeOf start stop
      else []

theorem outcome_highlights {s : ServiceState} {uri : Text} {entry : Entry} {d : Document}
    (c : Surroundings) (place : Place) (hentry : s.workspace.store.entryOf? uri = some entry)
    (hmarkup : (s.workspace.store.markup? uri).1 = some d) :
    (outcome (highlights uri place) c s).1 =
      .ok (rangesAt entry.lines d (entry.lines.offsetAt place)) := by
  refine (congrArg Prod.fst (outcome_markupAnswer c _ hentry hmarkup)).trans ?_
  unfold rangesAt
  simp only
  cases d.elementAt? (entry.lines.offsetAt place) with
  | none =>
      rfl
  | some e =>
      simp only
      split <;> rfl

theorem tagSpans_of_closed {e : Element} (hclosed : e.closed = true) {first : Nat}
    (hend : e.endTagStart = some first) :
    tagSpans e = [(e.start + 1, e.start + 1 + e.tag.length),
      (first + 2, first + 2 + e.tag.length)] := by
  simp only [tagSpans, hclosed, hend, if_true, Option.map_some, Option.toList_some]

theorem tagSpans_of_open {e : Element}
    (h : ¬ (e.closed = true ∧ exists first, e.endTagStart = some first)) :
    tagSpans e = [(e.start + 1, e.start + 1 + e.tag.length)] := by
  by_cases hclosed : e.closed = true
  · have hnone : e.endTagStart = none :=
      Option.eq_none_iff_forall_ne_some.mpr fun first hend => h ⟨hclosed, first, hend⟩
    simp [tagSpans, hnone]
  · simp [tagSpans, hclosed]

theorem tagSpans_highlighted {e : Element} (h : e.Recorded t) :
    e.Highlighted t
      ((tagSpans e).map fun (start, stop) => (Lines.ofText t).rangeOf start stop) := by
  have hopening := Lines.rangeOf_delimits (Nat.le_add_right (e.start + 1) e.tag.length)
    (Nat.le_trans h.name_le h.stop_le)
  by_cases hcloses : e.closed = true ∧ exists first, e.endTagStart = some first
  · rcases hcloses with ⟨hclosed, first, hend⟩
    rw [tagSpans_of_closed hclosed hend]
    exact Element.Highlighted.pair h hclosed hend hopening
      (Lines.rangeOf_delimits_min (Nat.le_add_right (first + 2) e.tag.length)
        (h.endTag_place hend).2)
  · rw [tagSpans_of_open hcloses]
    exact Element.Highlighted.single h hcloses hopening

theorem rangesAt_highlighted {e : Element} {offset : Nat} (h : e.Recorded t)
    (hfound : (Document.ofText t).elementAt? offset = some e) :
    e.Highlighted t (rangesAt (Lines.ofText t) (Document.ofText t) offset) := by
  simp only [rangesAt, hfound]
  split
  · exact tagSpans_highlighted h
  · exact Element.Highlighted.nil t e

theorem rangesAt_ne_nil {e : Element} {lines : Lines} {d : Document} {offset : Nat}
    (hfound : d.elementAt? offset = some e) (hlow : e.start + 1 ≤ offset)
    (hhigh : offset ≤ e.start + 1 + e.tag.length) : rangesAt lines d offset ≠ [] := by
  have hfirst : (e.start + 1, e.start + 1 + e.tag.length) ∈ tagSpans e := List.mem_cons_self
  simp only [rangesAt, hfound]
  rw [if_pos]
  · exact List.ne_nil_of_mem (List.mem_map_of_mem hfirst)
  · exact List.any_eq_true.mpr ⟨_, hfirst, by simp [hlow, hhigh]⟩

/--
Whatever happened to the documents before, the highlights at a place are about the innermost
element there, which is named in the end tag that has closed it.  All of them hold its names,
unless the name in that end tag does not stand right behind the `</` or is not as long as the
other one.
-/
theorem highlights_named_iff [ScriptParser] {s : ServiceState} {uri : Text} {entry : Entry}
    (c : Surroundings) (place : Place) (hreached : s.workspace.store.Reached)
    (hentry : s.workspace.store.entryOf? uri = some entry) :
    exists ranges, (outcome (highlights uri place) c s).1 = .ok ranges ∧
      ((forall e, ¬ (Document.ofText entry.text).InnermostAt (entry.lines.offsetAt place) e) ->
        ranges = []) ∧
      forall e, (Document.ofText entry.text).InnermostAt (entry.lines.offsetAt place) e ->
        e.CloseNamed entry.text ∧ e.Highlighted entry.text ranges ∧
        (e.start + 1 ≤ entry.lines.offsetAt place ->
          entry.lines.offsetAt place ≤ e.start + 1 + e.tag.length -> ranges ≠ []) := by
  have hmarkup := hreached.coherent.markup?_value hentry
  have hfinds := Document.elementAt?_eq_some_iff entry.text (entry.lines.offsetAt place)
  refine ⟨_, outcome_highlights c place hentry hmarkup, ?_, ?_⟩
  · intro hnone
    rw [rangesAt, Option.eq_none_iff_forall_ne_some.mpr fun e hfound =>
      hnone e ((hfinds e).mp hfound)]
  · intro e hinnermost
    have hfound := (hfinds e).mpr hinnermost
    have hrecorded := (Document.laid_of_mem entry.text hinnermost.inside).1
    exact ⟨Document.ofText_allNamed entry.text e hinnermost.inside,
      rangesAt_highlighted hrecorded hfound, rangesAt_ne_nil hfound⟩

def soleUri : Text :=
  "Sole.vue".toList

def soleState (text : Text) : ServiceState where
  workspace := { store := Store.openText [] soleUri text 0 }

theorem soleState_reached [ScriptParser] (text : Text) : (soleState text).workspace.store.Reached :=
  Store.Reached.step Store.Reached.empty (.openText soleUri text 0)

theorem soleState_entryOf? (text : Text) :
    (soleState text).workspace.store.entryOf? soleUri = some { text := text } := by
  rfl

def casedText : Text :=
  "<a></A x>".toList

/-- The names in both tags of an element are highlighted, though their case is not the same. -/
theorem highlights_named_iff_cased :
    exists ranges e, (soleState casedText).workspace.store.Reached ∧
      (soleState casedText).workspace.store.entryOf? soleUri = some { text := casedText } ∧
      (outcome (highlights soleUri ⟨0, 1⟩) ⟨fun _ => .missing, []⟩ (soleState casedText)).1 =
        .ok ranges ∧
      (Document.ofText casedText).InnermostAt 1 e ∧ ranges ≠ [] ∧
      forall r, r ∈ ranges -> r.Names casedText e := by
  have hfinds : ((Document.ofText casedText).elementAt? 1).any (fun e =>
      e.start = 0 && e.tag = "a".toList && e.endTagStart = some 3 && e.stop = 9) = true := by
    decide +kernel
  have hwritten : (⟨.endTag, "A".toList, 5⟩ : Token) ∈ tokensOf casedText := by
    decide +kernel
  have hreached := soleState_reached casedText
  have hentry := soleState_entryOf? casedText
  rcases (Option.any_eq_true _ _).mp hfinds with ⟨e, hfound, hfields⟩
  simp only [Bool.and_eq_true, decide_eq_true_eq] at hfields
  rcases hfields with ⟨⟨⟨hstart, htag⟩, hend⟩, hstop⟩
  have hinnermost := (Document.elementAt?_eq_some_iff casedText 1 e).mp hfound
  rcases highlights_named_iff ⟨fun _ => .missing, []⟩ ⟨0, 1⟩ hreached hentry with
    ⟨ranges, hranges, -, hall⟩
  rcases hall e hinnermost with ⟨-, hhighlighted, hshown⟩
  refine ⟨ranges, e, hreached, hentry, hranges, hinnermost, ?_, ?_⟩
  · apply hshown
    · rw [hstart]
      exact Nat.le_refl 1
    · rw [hstart]
      exact Nat.le_add_right 1 _
  · apply hhighlighted.named_iff.mpr
    refine Or.inr fun _ first hfirst => ?_
    rw [hend] at hfirst
    cases hfirst
    rw [htag, hstop]
    exact ⟨"A".toList, ⟨hwritten, by decide, by decide, by decide +kernel⟩, by decide⟩

def spacedText : Text :=
  "<a></ a>".toList

/-- A blank in front of the name in an end tag is highlighted instead of it. -/
theorem spaced_name_missed :
    ¬ forall (s : ServiceState) (uri : Text) (entry : Entry) (c : Surroundings) (place : Place)
      (ranges : List Range) (e : Element),
      s.workspace.store.Reached -> s.workspace.store.entryOf? uri = some entry ->
      (outcome (highlights uri place) c s).1 = .ok ranges ->
      (Document.ofText entry.text).InnermostAt (entry.lines.offsetAt place) e ->
      forall r, r ∈ ranges -> Text.lower (Lines.textIn entry.text r) = Text.lower e.tag := by
  intro hall
  have hmissed : ((Document.ofText spacedText).elementAt? 1).any (fun e =>
      !(rangesAt (Lines.ofText spacedText) (Document.ofText spacedText) 1).all fun r =>
        Text.lower (Lines.textIn spacedText r) = Text.lower e.tag) = true := by
    decide +kernel
  have hreached := soleState_reached spacedText
  have hentry := soleState_entryOf? spacedText
  have hmarkup := hreached.coherent.markup?_value hentry
  rcases (Option.any_eq_true _ _).mp hmissed with ⟨e, hfound, hdiffers⟩
  have hsame := hall _ _ _ ⟨fun _ => .missing, []⟩ ⟨0, 1⟩ _ e hreached hentry
    (outcome_highlights _ _ hentry hmarkup)
    ((Document.elementAt?_eq_some_iff spacedText 1 e).mp hfound)
  rw [Bool.not_eq_true', List.all_eq_false] at hdiffers
  rcases hdiffers with ⟨r, hr, hother⟩
  exact hother (decide_eq_true (hsame r hr))

end Service
end SfcServer
