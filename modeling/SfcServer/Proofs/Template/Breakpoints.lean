import Mathlib.Data.List.Forall2
import SfcServer.Proofs.Template.Marks
import SfcServer.Proofs.Template.Nesting

/-!
# Breakpoints and expressions

The breakpoints of a render method are the expressions of its template, `else` apart, in the
order of writing.  Each is tied to the place where its expression can be read, and the places
ascend.  The sources ascend too, as long as no element moves its loop before a condition.
-/

namespace SfcServer

/-!
# How expressions read
-/

theorem Text.separatesFirst_or_none (t : Text) :
    (exists i, t.SeparatesFirstAt i) ∨ forall i, ¬ t.SeparatesAt i := by
  induction t with
  | nil =>
      refine Or.inr ?_
      intro i hseparates
      have hle := hseparates.le
      simp at hle
  | cons c rest ih =>
      by_cases hfirst : SeparatesAt (c :: rest) 0
      · refine Or.inl ⟨0, hfirst, ?_⟩
        intro j hj
        omega
      · rcases ih with ⟨i, hi, hbefore⟩ | hnone
        · refine Or.inl ⟨i + 1, (separatesAt_succ c rest i).mpr hi, ?_⟩
          intro j hj hseparates
          cases j with
          | zero =>
              exact hfirst hseparates
          | succ j =>
              exact hbefore j (by omega) ((separatesAt_succ c rest j).mp hseparates)
        · refine Or.inr ?_
          intro i hseparates
          cases i with
          | zero =>
              exact hfirst hseparates
          | succ i =>
              exact hnone i ((separatesAt_succ c rest i).mp hseparates)

theorem loopHead_eq_self {t : Text} (h : forall i, ¬ t.SeparatesAt i) : loopHead t = t := by
  induction t with
  | nil =>
      rfl
  | cons c rest ih =>
      rw [loopHead_cons (h 0), ih]
      intro i hseparates
      exact h (i + 1) ((Text.separatesAt_succ c rest i).mpr hseparates)

namespace Expression

def isMarked (x : Expression) : Bool :=
  x.kind != .otherwise

/-- How an expression reads in a render method: in a loop the first separator is replaced. -/
inductive ReadsAs (x : Expression) : Text -> Prop where
  | loop {i : Nat} : x.kind = .loop -> x.text.SeparatesFirstAt i ->
      ReadsAs x (x.text.take i ++ (" of ".toList ++ x.text.drop (i + 4)))
  | plain : (x.kind = .loop -> forall i, ¬ x.text.SeparatesAt i) -> ReadsAs x x.text

theorem readsAs_spelled (x : Expression) : x.ReadsAs x.spelled := by
  unfold spelled
  split
  · rename_i hloop
    rcases x.text.separatesFirst_or_none with ⟨i, hfirst⟩ | hnone
    · rw [loopHead_eq hfirst]
      exact ReadsAs.loop hloop hfirst
    · rw [loopHead_eq_self hnone]
      exact ReadsAs.plain fun _ => hnone
  · rename_i hother
    exact ReadsAs.plain fun hloop => absurd hloop hother

end Expression

/--
A breakpoint leads to a place of a text where an expression can be read; the first character
of the text has the given offset.
-/
structure Breakpoint.Leads (text : Text) (offset : Nat) (q : Breakpoint) (x : Expression) :
    Prop where
  source : q.source = x.start
  reads : exists (place : Nat) (written : Text), q.target = (offset + place : Nat) ∧
    x.ReadsAs written ∧ text.StandsAt place (written ++ x.tail)

theorem Breakpoint.Leads.within {text before : Text} {offset : Nat} {q : Breakpoint}
    {x : Expression} (h : q.Leads text (offset + before.length) x) (after : Text) :
    q.Leads (before ++ text ++ after) offset x := by
  rcases h.reads with ⟨place, written, htarget, hreads, hstands⟩
  refine ⟨h.source, before.length + place, written, ?_, hreads, hstands.within before after⟩
  rw [htarget, Nat.add_assoc]

/-!
# Marks of fragments
-/

namespace Fragment

def marked (fragments : List Fragment) : List Expression :=
  (written fragments).filter Expression.isMarked

theorem marked_append (a b : List Fragment) : marked (a ++ b) = marked a ++ marked b := by
  rw [marked, written_append, List.filter_append]
  rfl

/-- A fragment marks the expression that it writes, unless that is an `else`. -/
theorem marked_cases (f : Fragment) :
    (marked [f] = [] ∧ forall offset, Piece.marksFrom offset f.pieces = []) ∨
      exists x, marked [f] = [x] ∧ x.kind ≠ .otherwise ∧ f.pieces = x.pieces := by
  have hwriting : forall x, f.written? = some x -> f.pieces = x.pieces ->
      (marked [f] = [] ∧ forall offset, Piece.marksFrom offset f.pieces = []) ∨
        exists x, marked [f] = [x] ∧ x.kind ≠ .otherwise ∧ f.pieces = x.pieces := by
    intro x hwritten hpieces
    rw [marked, written, List.filterMap_cons_some hwritten, List.filterMap_nil]
    by_cases hkind : x.kind = .otherwise
    · refine Or.inl ⟨by simp [Expression.isMarked, hkind], ?_⟩
      intro offset
      rw [hpieces, Expression.marksFrom_otherwise hkind]
    · exact Or.inr ⟨x, by simp [Expression.isMarked, hkind], hkind, hpieces⟩
  cases f with
  | opening x =>
      exact hwriting x rfl rfl
  | statement x =>
      exact hwriting x rfl rfl
  | closing x =>
      exact Or.inl ⟨rfl, fun _ => rfl⟩

theorem marksFrom_leads (offset : Nat) (fragments : List Fragment) :
    List.Forall₂ (Breakpoint.Leads (spell fragments) offset) (marksFrom offset fragments)
      (marked fragments) := by
  induction fragments generalizing offset with
  | nil =>
      exact List.Forall₂.nil
  | cons f rest ih =>
      have hrest : List.Forall₂ (Breakpoint.Leads (spell (f :: rest)) offset)
          (marksFrom (offset + (Piece.textOf f.pieces).length) rest) (marked rest) := by
        refine (ih _).imp ?_
        intro q x hleads
        rw [spell_cons]
        simpa using hleads.within []
      rw [marksFrom_cons, ← List.singleton_append, marked_append, List.singleton_append]
      rcases marked_cases f with ⟨hnone, hmarks⟩ | ⟨x, hone, hkind, hpieces⟩
      · rw [hnone, hmarks]
        exact hrest
      · rw [hone, hpieces, Expression.marksFrom_pieces hkind]
        rw [hpieces] at hrest
        refine List.Forall₂.cons ⟨rfl, x.lead.length, x.spelled, rfl, x.readsAs_spelled, ?_⟩ hrest
        refine ⟨x.lead, spell rest, ?_, rfl⟩
        rw [spell_cons, hpieces, Expression.textOf_pieces hkind]
        simp only [List.append_assoc]

theorem marksFrom_ascending (offset : Nat) (fragments : List Fragment) :
    (marksFrom offset fragments).Pairwise fun q r => q.target < r.target := by
  induction fragments generalizing offset with
  | nil =>
      exact List.Pairwise.nil
  | cons f rest ih =>
      rw [marksFrom_cons]
      rcases marked_cases f with ⟨_, hmarks⟩ | ⟨x, _, hkind, hpieces⟩
      · rw [hmarks]
        exact ih _
      · rw [hpieces, Expression.marksFrom_pieces hkind]
        refine List.Pairwise.cons ?_ (ih _)
        intro q hq
        have hbounds := (marksFrom_bounds hq).1
        have hpos := x.length_tail_pos
        have hlength := congrArg List.length (Expression.textOf_pieces hkind)
        simp only [List.length_append] at hlength
        simp only
        omega

end Fragment

/-!
# Elements that move no loop
-/

/-- No condition of an element is written before one of its loops. -/
def Element.LoopsFirst (t : Text) (e : Element) : Prop :=
  (e.ownExpressions t).Pairwise fun x y => x.kind = .condition -> y.kind ≠ .loop

instance (t : Text) (e : Element) : Decidable (e.LoopsFirst t) :=
  inferInstanceAs (Decidable (List.Pairwise _ _))

theorem Item.loopFirst_eq_self {α : Type} {items : List (Item α)}
    (h : (items.filterMap expression?).Pairwise fun x y =>
      x.kind = .condition -> y.kind ≠ .loop) : loopFirst items = items := by
  rcases loopFirst_cases items with ⟨hsame, _⟩ |
    ⟨before, c, middle, l, after, hitems, hc, hl, _⟩
  · exact hsame
  · refine absurd hl (List.pairwise_iff_forall_sublist.mp h ?_ hc)
    have hown : items.filterMap expression? = before.filterMap expression? ++
        c :: (middle.filterMap expression? ++ l :: after.filterMap expression?) := by
      rw [hitems]
      simp [expression?]
    rw [hown]
    apply List.Sublist.trans ?_ (List.sublist_append_right _ _)
    exact List.Sublist.cons_cons c (List.singleton_sublist.mpr (by simp))

theorem Item.written_eq_flatten {items : List (Item (List Fragment × List Expression))}
    (h : forall value, .child value ∈ items -> Fragment.written value.1 = value.2) :
    Fragment.written ((items.map (Item.map Prod.fst)).flatMap fragments) =
      Element.flatten (items.map (Item.map Prod.snd)) := by
  induction items with
  | nil =>
      rfl
  | cons i rest ih =>
      have hrest := ih (fun value hmem => h value (List.mem_cons_of_mem _ hmem))
      rw [List.map_cons, List.map_cons, List.flatMap_cons, Fragment.written_append, hrest]
      cases i with
      | expression x =>
          simp [fragments, Fragment.written, Element.flatten]
      | child value =>
          simp [fragments, Element.flatten, h value List.mem_cons_self]

theorem Element.written_fragments_eq {t : Text} (e : Element) :
    (forall n, n ∈ e.preorder -> n.LoopsFirst t) ->
      Fragment.written (e.fragments t) = e.expressions t := by
  induction e using Element.induction_on with
  | h e ih =>
      intro hordered
      let items := e.itemsWith t (e.placed fun c => (c.fragments t, c.expressions t))
      have hfragments : e.fragmentItems t = items.map (Item.map Prod.fst) := by
        rw [itemsWith_map, placed_map]
        rfl
      have hexpressions : e.expressions t = flatten (items.map (Item.map Prod.snd)) := by
        rw [itemsWith_map, placed_map, expressions_eq]
      have hself : Item.loopFirst (e.fragmentItems t) = e.fragmentItems t := by
        have hfirst := hordered e e.self_mem_preorder
        rw [LoopsFirst, ownExpressions_eq t e fun c => c.fragments t] at hfirst
        exact Item.loopFirst_eq_self hfirst
      rw [fragments_eq, Item.blockFragments, hself, Fragment.written_append,
        Item.written_closings, List.append_nil, hfragments, hexpressions]
      apply Item.written_eq_flatten
      intro value hmem
      rcases child_mem_itemsWith hmem with ⟨c, hc, hvalue⟩
      rw [← hvalue]
      apply ih c hc
      intro n hn
      exact hordered n (mem_preorder_of_child hc hn)

/-!
# Siblings
-/

theorem Laid.flatMap_sequenced {t : Text} {low high : Nat} {es : List Element}
    (h : Laid t low high es) : forall floor, floor ≤ low -> floor ≤ high ->
      Sequenced t floor high (es.flatMap fun e => e.expressions t) := by
  induction h with
  | nil low high =>
      intro floor _ hhigh
      exact Sequenced.nil hhigh
  | cons hlow hcontent hrecorded hchildren hrest _ ihrest =>
      rename_i low high e rest _
      intro floor hfloor _
      have hfirst : Sequenced t e.start e.contentStop (e.expressions t) :=
        (Laid.cons hlow hcontent hrecorded hchildren hrest).expressions_sequenced
          List.mem_cons_self
      rw [List.flatMap_cons]
      exact (hfirst.append (ihrest _ hrecorded.content_le hcontent)).lower (by omega)

theorem Laid.singleton {t : Text} {low high : Nat} {es : List Element} (h : Laid t low high es)
    {e : Element} (he : e ∈ es) : Laid t low high [e] := by
  rcases h.mem he with ⟨hrecorded, hchildren⟩
  exact Laid.cons (h.low_le he) (h.le_high he) hrecorded hchildren (Laid.nil _ _)

theorem Render.ofElements_eq (t : Text) (es : List Element) (offset : Nat) (names : List Text) :
    (ofElements t es offset names).text =
        header ++ preamble names ++ Fragment.spell (es.flatMap fun e => e.fragments t) ++ footer ∧
      (ofElements t es offset names).breakpoints =
        Fragment.marksFrom (offset + (header ++ preamble names).length)
          (es.flatMap fun e => e.fragments t) := by
  have hsame : Piece.Same (es.flatMap fun e => e.code t)
      ((es.flatMap fun e => e.fragments t).flatMap Fragment.pieces) := by
    induction es with
    | nil =>
        exact Piece.Same.refl _
    | cons e rest ih =>
        simp only [List.flatMap_cons, List.flatMap_append]
        exact (e.code_same t).append ih
  constructor
  · rw [ofElements, ofPieces, hsame.1]
    rfl
  · rw [ofElements, ofPieces, hsame.2]
    rfl

theorem Element.written_flatMap_perm (t : Text) (es : List Element) :
    (Fragment.written (es.flatMap fun e => e.fragments t)).Perm
      (es.flatMap fun e => e.expressions t) := by
  induction es with
  | nil =>
      exact List.Perm.refl _
  | cons e rest ih =>
      rw [List.flatMap_cons, List.flatMap_cons, Fragment.written_append]
      exact (e.written_fragments t).append ih

theorem Element.written_flatMap_eq {t : Text} {es : List Element}
    (h : forall n, n ∈ es.flatMap preorder -> n.LoopsFirst t) :
    Fragment.written (es.flatMap fun e => e.fragments t) =
      es.flatMap fun e => e.expressions t := by
  induction es with
  | nil =>
      rfl
  | cons e rest ih =>
      rw [List.flatMap_cons] at h
      rw [List.flatMap_cons, List.flatMap_cons, Fragment.written_append,
        e.written_fragments_eq fun n hn => h n (List.mem_append_left _ hn),
        ih fun n hn => h n (List.mem_append_right _ hn)]

/-!
# Render methods
-/

/--
The breakpoints of a render method inserted at an offset: one for each of some expressions
but the `else`, leading to places of the body that ascend.
-/
structure Render.Ties (r : Render) (offset : Nat) (names : List Text) (xs : List Expression) :
    Prop where
  sources : (r.breakpoints.map (·.source)).Perm
    ((xs.filter Expression.isMarked).map fun x => (x.start : Int))
  ascending : (r.breakpoints.map (·.target)).Pairwise (· < ·)
  inBody : forall q, q ∈ r.breakpoints ->
    (offset + (Render.header ++ Render.preamble names).length : Nat) ≤ q.target
  leads : exists ys, ys.Perm (xs.filter Expression.isMarked) ∧
    List.Forall₂ (Breakpoint.Leads r.text offset) r.breakpoints ys

theorem sources_of_leads {text : Text} {offset : Nat} {marks : Breakpoints}
    {xs : List Expression} (h : List.Forall₂ (Breakpoint.Leads text offset) marks xs) :
    marks.map (·.source) = xs.map fun x => (x.start : Int) := by
  induction h with
  | nil =>
      rfl
  | cons hfirst _ ih =>
      rw [List.map_cons, List.map_cons, hfirst.source, ih]

theorem Render.ofElements_ties (t : Text) (es : List Element) (offset : Nat)
    (names : List Text) :
    (ofElements t es offset names).Ties offset names (es.flatMap fun e => e.expressions t) := by
  rcases ofElements_eq t es offset names with ⟨htext, hmarks⟩
  have hleads := Fragment.marksFrom_leads (offset + (header ++ preamble names).length)
    (es.flatMap fun e => e.fragments t)
  have hperm : (Fragment.marked (es.flatMap fun e => e.fragments t)).Perm
      ((es.flatMap fun e => e.expressions t).filter Expression.isMarked) :=
    (Element.written_flatMap_perm t es).filter _
  refine ⟨?_, ?_, ?_, Fragment.marked (es.flatMap fun e => e.fragments t), hperm, ?_⟩
  · rw [hmarks, sources_of_leads hleads]
    exact hperm.map _
  · rw [hmarks]
    exact List.pairwise_map.mpr (Fragment.marksFrom_ascending _ _)
  · intro q hq
    rw [hmarks] at hq
    exact (Fragment.marksFrom_bounds hq).1
  · rw [hmarks, htext]
    refine hleads.imp ?_
    intro q x hleads
    exact hleads.within footer

theorem Render.ofElements_sources {t : Text} {low high : Nat} {es : List Element}
    (hlaid : Laid t low high es) (hbounds : low ≤ high) (offset : Nat) (names : List Text)
    (h : forall n, n ∈ es.flatMap Element.preorder -> n.LoopsFirst t) :
    ((ofElements t es offset names).breakpoints.map (·.source)).Pairwise (· < ·) := by
  rcases ofElements_eq t es offset names with ⟨_, hmarks⟩
  rw [hmarks, sources_of_leads (Fragment.marksFrom_leads _ _), Fragment.marked,
    Element.written_flatMap_eq h]
  have hsequenced := hlaid.flatMap_sequenced low (Nat.le_refl _) hbounds
  refine List.pairwise_map.mpr ((hsequenced.pairwise.filter _).imp_of_mem ?_)
  intro x y hx _ hlt
  have hstop := (hsequenced.mem (List.mem_filter.mp hx).1).2.2.stop_eq
  omega

theorem Render.ofElements_singleton (t : Text) (e : Element) (offset : Nat)
    (names : List Text) : ofElements t [e] offset names = ofTemplate t e offset names := by
  simp [ofElements, ofTemplate]

/--
Whatever is rendered, one element of a document or all of it, each expression but an `else`
leaves one breakpoint, which leads to the place where it reads.  Targets ascend in the order of
writing, and sources do where every element writes its loops before its conditions.
-/
theorem Document.breakpoints_tie_expressions (t : Text) (offset : Nat) (names : List Text) :
    (forall root e, root ∈ (ofText t).roots -> e ∈ root.preorder ->
      (Render.ofTemplate t e offset names).Ties offset names (e.expressions t) ∧
        ((forall n, n ∈ e.preorder -> n.LoopsFirst t) ->
          ((Render.ofTemplate t e offset names).breakpoints.map (·.source)).Pairwise (· < ·))) ∧
    (Render.ofElements t (ofText t).roots offset names).Ties offset names
        ((ofText t).roots.flatMap fun e => e.expressions t) ∧
      ((forall n, n ∈ (ofText t).roots.flatMap Element.preorder -> n.LoopsFirst t) ->
        ((Render.ofElements t (ofText t).roots offset names).breakpoints.map
          (·.source)).Pairwise (· < ·)) := by
  refine ⟨?_, Render.ofElements_ties t _ offset names,
    Render.ofElements_sources (ofText_laid t) (Nat.zero_le _) offset names⟩
  intro root e hroot he
  rcases Laid.of_preorder root (ofText_laid t) hroot he with ⟨low, high, es, hlaid, hmem⟩
  have hbounds : low ≤ high := by
    have hlow := hlaid.low_le hmem
    have hstart := (hlaid.mem hmem).1.start_lt
    have hhigh := hlaid.le_high hmem
    omega
  have hties := Render.ofElements_ties t [e] offset names
  have hsources := Render.ofElements_sources (hlaid.singleton hmem) hbounds offset names
  rw [Render.ofElements_singleton, List.flatMap_singleton] at *
  exact ⟨hties, hsources⟩

/-- A loop before the condition of its element, with a binding and an interpolation. -/
def orderedText : Text :=
  "<template><p v-for=\"a in b\" v-if=\"a\" :c=\"d\">\x7b\x7b e \x7d\x7d</p></template>".toList

theorem breakpoints_tie_expressions_ordered :
    exists template, (Document.ofText orderedText).template? = some template ∧
      (Render.ofTemplate orderedText template 3 ["x".toList]).Ties 3 ["x".toList]
        (template.expressions orderedText) ∧
      ((Render.ofTemplate orderedText template 3 ["x".toList]).breakpoints.map
        (·.source)).Pairwise (· < ·) ∧
      (template.expressions orderedText).length = 4 := by
  have hfacts : (Document.ofText orderedText).template?.any (fun template =>
      (template.preorder.all fun n => n.LoopsFirst orderedText) &&
        (template.expressions orderedText).length = 4) = true := by
    decide +kernel
  rcases (Option.any_eq_true _ _).mp hfacts with ⟨template, htemplate, hboth⟩
  rw [Bool.and_eq_true, List.all_eq_true] at hboth
  have hroot := List.mem_of_find?_eq_some htemplate
  have hself : template ∈ template.preorder := by
    rw [Element.preorder_eq]
    exact List.mem_cons_self
  rcases (Document.breakpoints_tie_expressions orderedText 3 ["x".toList]).1 template template
    hroot hself with ⟨hties, hsources⟩
  exact ⟨template, htemplate, hties, hsources fun n hn => of_decide_eq_true (hboth.1 n hn),
    of_decide_eq_true hboth.2⟩

end SfcServer
