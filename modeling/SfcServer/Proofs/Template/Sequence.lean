import SfcServer.Proofs.Markup.DocumentLayout
import SfcServer.Proofs.Template.Folding
import SfcServer.Proofs.Text.Parts

/-!
# Expressions follow each other

The expressions of a template stand in the text where they say, in the order in which
they are collected, and no two of them touch.  The proof follows the collector: the
interpolations of one content token, the tokens of one segment, and the segments of an
element with its children between them.
-/

namespace SfcServer

/-- An expression stands in a text where it says. -/
structure Expression.Written (t : Text) (x : Expression) : Prop where
  stop_eq : x.stop = x.start + x.text.length
  stands : t.StandsAt x.start x.text

/-- Two expressions do not touch. -/
def Expression.Apart (x y : Expression) : Prop :=
  x.stop < y.start ∨ y.stop < x.start

/-- Expressions after `low` that follow each other, none touching the next, and end by `high`. -/
inductive Sequenced (t : Text) : Nat -> Nat -> List Expression -> Prop where
  | nil {low high : Nat} : low ≤ high -> Sequenced t low high []
  | cons {low high : Nat} {x : Expression} {rest : List Expression} :
      low < x.start ->
      x.Written t ->
      Sequenced t x.stop high rest ->
      Sequenced t low high (x :: rest)

namespace Sequenced

variable {t : Text} {low middle high : Nat} {xs ys : List Expression}

theorem le (h : Sequenced t low high xs) : low ≤ high := by
  induction h with
  | nil hle =>
      exact hle
  | cons hlow hwritten _ ih =>
      have hstop := hwritten.stop_eq
      omega

theorem lower {lower : Nat} (h : Sequenced t low high xs) (hle : lower ≤ low) :
    Sequenced t lower high xs := by
  cases h with
  | nil hnil =>
      exact nil (Nat.le_trans hle hnil)
  | cons hlow hwritten hrest =>
      exact cons (Nat.lt_of_le_of_lt hle hlow) hwritten hrest

theorem append (hxs : Sequenced t low middle xs) (hys : Sequenced t middle high ys) :
    Sequenced t low high (xs ++ ys) := by
  induction hxs with
  | nil hle =>
      exact hys.lower hle
  | cons hlow hwritten _ ih =>
      exact cons hlow hwritten (ih hys)

theorem higher {higher : Nat} (h : Sequenced t low high xs) (hle : high ≤ higher) :
    Sequenced t low higher xs := by
  have happend := h.append (nil (t := t) hle)
  simpa using happend

theorem mem (h : Sequenced t low high xs) {x : Expression} (hx : x ∈ xs) :
    low < x.start ∧ x.stop ≤ high ∧ x.Written t := by
  induction h with
  | nil =>
      cases hx
  | cons hlow hwritten hrest ih =>
      rcases List.mem_cons.mp hx with heq | hmem
      · subst heq
        exact ⟨hlow, hrest.le, hwritten⟩
      · have hbounds := ih hmem
        have hstop := hwritten.stop_eq
        exact ⟨by omega, hbounds.2⟩

theorem pairwise (h : Sequenced t low high xs) :
    xs.Pairwise fun x y => x.stop < y.start := by
  induction h with
  | nil =>
      exact List.Pairwise.nil
  | cons _ _ hrest ih =>
      refine List.Pairwise.cons ?_ ih
      intro y hy
      exact (hrest.mem hy).1

theorem nodup (h : Sequenced t low high xs) : xs.Nodup := by
  refine h.pairwise.imp_of_mem ?_
  intro x y hx _ hlt heq
  have hstop := (h.mem hx).2.2.stop_eq
  rw [← heq] at hlt
  omega

/-- In whatever order they are taken, the others start before one or after its end. -/
theorem apart (h : Sequenced t low high xs) {earlier later : List Expression} {x y : Expression}
    (hperm : (earlier ++ x :: later).Perm xs) (hy : y ∈ earlier ++ later) :
    y.start < x.start ∨ x.stop < y.start := by
  have hfirst : (x :: (earlier ++ later)).Perm xs := List.perm_middle.symm.trans hperm
  have happart : xs.Pairwise Expression.Apart := h.pairwise.imp Or.inl
  have hpairwise := hfirst.symm.pairwise happart Or.symm
  have hmem : y ∈ xs := hfirst.mem_iff.mp (List.mem_cons_of_mem _ hy)
  have hstop := (h.mem hmem).2.2.stop_eq
  rcases List.rel_of_pairwise_cons hpairwise hy with hafter | hbefore
  · exact Or.inr hafter
  · exact Or.inl (by omega)

end Sequenced

/-!
# Interpolations
-/

namespace Expression

theorem splitAtClose_eq {t inside after : Text} (h : splitAtClose t = some (inside, after)) :
    exists run, t = inside ++ ('\x7d' :: '\x7d' :: (run ++ after)) ∧
      forall c, c ∈ run -> c = '\x7d' := by
  fun_induction splitAtClose t generalizing inside after with
  | case1 rest =>
      cases h
      refine ⟨rest.takeWhile (· == '\x7d'), by simp, ?_⟩
      intro c hmem
      have hall := List.all_eq_true.mp List.all_takeWhile c hmem
      simpa using hall
  | case2 c rest _ ih =>
      rcases Option.map_eq_some_iff.mp h with ⟨⟨before, tail⟩, hsplit, heq⟩
      cases heq
      rcases ih hsplit with ⟨run, hrest, hrun⟩
      exact ⟨run, by rw [hrest]; rfl, hrun⟩
  | case3 =>
      cases h

theorem ofInterpolation_written {t body inside after : Text} {offset : Nat}
    (hat : t.StandsAt offset ('\x7b' :: '\x7b' :: body))
    (hsplit : splitAtClose body = some (inside, after)) :
    (ofInterpolation (offset + 2 + (inside.takeWhile Text.isBlank).length,
      Text.trim inside)).Written t := by
  rcases splitAtClose_eq hsplit with ⟨run, hbody, _⟩
  rcases Text.trim_split inside with ⟨blanks, hinside, _⟩
  refine ⟨rfl, ?_⟩
  have hstands : t.StandsAt (offset + 1 + 1) inside := by
    have htail := hat.tail.tail
    rw [hbody] at htail
    exact htail.left
  rw [hinside] at hstands
  exact hstands.right.left

theorem ofInterpolation_stop_le {body inside after : Text} (offset : Nat)
    (hsplit : splitAtClose body = some (inside, after)) :
    (ofInterpolation (offset + 2 + (inside.takeWhile Text.isBlank).length,
      Text.trim inside)).stop + 2 + after.length ≤ offset + 2 + body.length := by
  rcases splitAtClose_eq hsplit with ⟨run, hbody, _⟩
  rcases Text.trim_split inside with ⟨blanks, hinside, _⟩
  have hlength := congrArg List.length hbody
  have htrim := congrArg List.length hinside
  simp only [List.length_append, List.length_cons] at hlength htrim
  simp only [ofInterpolation]
  omega

theorem interpolationsFrom_sequenced {t : Text} (offset passed : Nat) (text : Text) :
    forall low, t.StandsAt offset text -> passed ≤ text.length -> low ≤ offset + passed ->
      Sequenced t low (offset + text.length)
        ((interpolationsFrom offset passed text).map ofInterpolation) := by
  fun_induction interpolationsFrom offset passed text with
  | case1 offset passed =>
      intro low _ hpassed hlow
      simp only [List.length_nil] at hpassed
      exact Sequenced.nil (by simp only [List.length_nil]; omega)
  | case2 offset passed c rest ih =>
      intro low hat hpassed hlow
      simp only [List.length_cons] at hpassed ⊢
      have hrest := ih low hat.tail (by omega) (by omega)
      exact hrest.higher (by omega)
  | case3 offset body inside after hsplit ih =>
      intro low hat _ hlow
      have hstop := ofInterpolation_stop_le offset hsplit
      simp only [List.length_cons] at ih ⊢
      refine Sequenced.cons ?_ (ofInterpolation_written hat hsplit) ?_
      · simp only [ofInterpolation]
        omega
      · exact (ih _ hat.tail (by omega) (by omega)).higher (by omega)
  | case4 offset body hsplit ih =>
      intro low hat _ hlow
      have hrest := ih low hat.tail (Nat.zero_le _) (by omega)
      exact hrest.higher (by simp only [List.length_cons]; omega)
  | case5 offset c rest _ ih =>
      intro low hat _ hlow
      have hrest := ih low hat.tail (Nat.zero_le _) (by omega)
      exact hrest.higher (by simp only [List.length_cons]; omega)

theorem ofContent_sequenced {t : Text} {token : Token} {low : Nat}
    (hat : t.StandsAt token.offset token.text) (hlow : low ≤ token.offset) :
    Sequenced t low token.stop (ofContent token) :=
  interpolationsFrom_sequenced token.offset 0 token.text low hat (Nat.zero_le _) hlow

/-!
# Attributes
-/

/-- A value has no quotes, or its closing quote is there, or it is missing. -/
theorem ofValue_cases (name : Text) {value : Token} (hvalue : value.text ≠ []) :
    exists c rest, value.text = c :: rest ∧
      ((Attribute.isQuote c = false ∧
          ofValue name value =
            ⟨ExpressionKind.ofName name, value.offset, value.stop, value.text, name⟩) ∨
        (Attribute.isQuote c = true ∧ rest.getLast? = some c ∧
          ofValue name value =
            ⟨ExpressionKind.ofName name, value.offset + 1, value.stop - 1, rest.dropLast, name⟩) ∨
        (Attribute.isQuote c = true ∧ rest.getLast? ≠ some c ∧
          ofValue name value =
            ⟨ExpressionKind.ofName name, value.offset + 1, value.stop, rest, name⟩)) := by
  rcases value with ⟨kind, text, offset⟩
  cases text with
  | nil =>
      exact absurd rfl hvalue
  | cons c rest =>
      refine ⟨c, rest, rfl, ?_⟩
      cases hquote : Attribute.isQuote c with
      | false =>
          refine Or.inl ⟨rfl, ?_⟩
          simp [ofValue, Token.stop, hquote, Text.slice]
      | true =>
          refine Or.inr ?_
          cases rest with
          | nil =>
              refine Or.inr ⟨rfl, by simp, ?_⟩
              simp [ofValue, Token.stop, hquote, Text.slice]
          | cons d more =>
              have hlast : (c :: d :: more).getLast? = (d :: more).getLast? := by simp
              by_cases hclosed : (d :: more).getLast? = some c
              · refine Or.inl ⟨rfl, hclosed, ?_⟩
                simp [ofValue, Token.stop, hquote, hlast, hclosed, Text.slice,
                  List.dropLast_eq_take]
              · refine Or.inr ⟨rfl, hclosed, ?_⟩
                simp [ofValue, Token.stop, hquote, hlast, hclosed, Text.slice]

theorem ofValue_written {t : Text} (name : Text) {value : Token}
    (hat : t.StandsAt value.offset value.text) (hvalue : value.text ≠ []) :
    (ofValue name value).Written t ∧ value.offset ≤ (ofValue name value).start ∧
      (ofValue name value).stop ≤ value.stop := by
  rcases ofValue_cases name hvalue with ⟨c, rest, htext, hcases⟩
  have hstop : value.stop = value.offset + (rest.length + 1) := by
    rw [Token.stop, htext, List.length_cons]
  have hbare := hat
  rw [htext] at hat
  rcases hcases with ⟨_, heq⟩ | ⟨_, hlast, heq⟩ | ⟨_, _, heq⟩
  · rw [heq]
    exact ⟨⟨rfl, hbare⟩, Nat.le_refl _, Nat.le_refl _⟩
  · have hrest : rest = rest.dropLast ++ [c] := by
      rcases List.getLast?_eq_some_iff.mp hlast with ⟨front, hfront⟩
      rw [hfront, List.dropLast_concat]
    have hlength := congrArg List.length hrest
    rw [List.length_append, List.length_singleton] at hlength
    rw [hrest] at hat
    rw [heq]
    refine ⟨⟨?_, hat.tail.left⟩, ?_, ?_⟩
    · simp only [hstop]
      omega
    · simp only
      omega
    · simp only
      omega
  · rw [heq]
    refine ⟨⟨?_, hat.tail⟩, ?_, Nat.le_refl _⟩
    · simp only [hstop]
      omega
    · simp only
      omega

/-!
# Segments
-/

theorem ofContent_kind {token : Token} {x : Expression} (h : x ∈ ofContent token) :
    x.kind = .interpolation := by
  rcases List.mem_map.mp h with ⟨found, _, hx⟩
  rw [← hx]
  rfl

theorem mem_readToken {reading : TagReading} {token : Token} {x : Expression}
    (h : x ∈ (readToken reading token).1) :
    (reading = .past ∧ token.kind = .content ∧ x ∈ ofContent token) ∨
      (reading ≠ .past ∧
        exists name value nameStop, ofAttribute name value nameStop = some x) := by
  cases reading with
  | past =>
      simp only [readToken] at h
      split at h
      · rename_i hcontent
        exact Or.inl ⟨rfl, hcontent, h⟩
      · cases h
  | plain =>
      cases h
  | bound name nameStop =>
      have hattribute : forall value : Option Token,
          x ∈ (name.bind fun n => ofAttribute n value nameStop).toList ->
          exists name value nameStop, ofAttribute name value nameStop = some x := by
        intro value hx
        rcases Option.bind_eq_some_iff.mp (Option.mem_toList.mp hx) with ⟨n, _, hn⟩
        exact ⟨n, value, nameStop, hn⟩
      right
      constructor
      · intro heq
        cases heq
      · simp only [readToken] at h
        split at h
        · exact hattribute _ h
        · exact hattribute _ h
        · exact hattribute _ h
        · exact hattribute _ h
        · cases h

/-- A name that may still get a value stands between `low` and `offset`. -/
def TagReading.Ready (low offset : Nat) : TagReading -> Prop
  | .bound (some _) nameStop => low < nameStop ∧ nameStop ≤ offset
  | _ => True

theorem valueless_sequenced {t : Text} {low offset nameStop : Nat} {name : Option Text}
    (hlow : low ≤ offset) (hready : (TagReading.bound name nameStop).Ready low offset)
    (hoffset : offset ≤ t.length) :
    Sequenced t low offset (name.bind fun n => ofAttribute n none nameStop).toList := by
  cases name with
  | none =>
      exact Sequenced.nil hlow
  | some name =>
      simp only [Option.bind_some, ofAttribute]
      split
      · refine Sequenced.cons hready.1 ⟨rfl, ?_⟩ (Sequenced.nil hready.2)
        refine ⟨t.take nameStop, t.drop nameStop, by simp, ?_⟩
        have hle := hready.2
        simp only [List.length_take]
        omega
      · exact Sequenced.nil hlow

theorem valued_sequenced {t : Text} {low nameStop : Nat} {name : Option Text} {value : Token}
    (hat : t.StandsAt value.offset value.text) (hvalue : value.text ≠ [])
    (hlow : low ≤ value.offset)
    (hready : (TagReading.bound name nameStop).Ready low value.offset) :
    Sequenced t low value.stop
      (name.bind fun n => ofAttribute n (some value) nameStop).toList := by
  have hle := hat.le
  have hstop : value.offset ≤ value.stop := Nat.le_add_right _ _
  cases name with
  | none =>
      exact Sequenced.nil (Nat.le_trans hlow hstop)
  | some name =>
      by_cases helse : ExpressionKind.ofName name = .otherwise
      · have hvalueless := valueless_sequenced (t := t) hlow hready (by omega)
        simp only [Option.bind_some, ofAttribute, helse, if_true] at hvalueless ⊢
        exact hvalueless.higher hstop
      · rcases ofValue_written name hat hvalue with ⟨hwritten, hstart, hend⟩
        simp only [Option.bind_some, ofAttribute, helse, if_false, Option.map_some]
        refine Sequenced.cons ?_ hwritten (Sequenced.nil hend)
        have hname := hready
        simp only [TagReading.Ready] at hname
        omega

theorem readToken_sequenced {t : Text} {low : Nat} {reading : TagReading} (token : Token)
    (hat : t.StandsAt token.offset token.text) (htext : token.text ≠ [])
    (hlow : low ≤ token.offset) (hready : reading.Ready low token.offset) :
    exists middle, Sequenced t low middle (readToken reading token).1 ∧ middle ≤ token.stop ∧
      (readToken reading token).2.Ready middle token.stop := by
  have hle := hat.le
  have hpos := List.length_pos_iff.mpr htext
  have hstop : token.offset < token.stop := by
    unfold Token.stop
    omega
  cases reading with
  | plain =>
      refine ⟨low, Sequenced.nil (Nat.le_refl _), by omega, ?_⟩
      simp only [readToken]
      split <;> trivial
  | past =>
      simp only [readToken]
      split
      · exact ⟨token.stop, ofContent_sequenced hat hlow, Nat.le_refl _, trivial⟩
      · exact ⟨low, Sequenced.nil (Nat.le_refl _), by omega, trivial⟩
  | bound name nameStop =>
      have hvalueless := valueless_sequenced (t := t) hlow hready (by omega)
      simp only [readToken]
      split
      · refine ⟨token.offset, hvalueless, by omega, ?_⟩
        split
        · exact ⟨hstop, Nat.le_refl _⟩
        · trivial
      · exact ⟨token.offset, hvalueless, by omega, trivial⟩
      · exact ⟨token.offset, hvalueless, by omega, trivial⟩
      · exact ⟨token.stop, valued_sequenced hat htext hlow hready, Nat.le_refl _, trivial⟩
      · refine ⟨low, Sequenced.nil (Nat.le_refl _), by omega, ?_⟩
        cases name with
        | none =>
            trivial
        | some name =>
            exact ⟨hready.1, Nat.le_trans hready.2 (by omega)⟩

theorem readTokens_sequenced {t : Text} {offset : Nat} {text : Text} {tokens : List Token}
    (h : Tiled offset text tokens) :
    forall low reading, t.StandsAt offset text -> low ≤ offset -> reading.Ready low offset ->
      Sequenced t low (offset + text.length) (readTokens reading tokens) := by
  induction h with
  | done offset =>
      intro low reading _ hlow _
      exact Sequenced.nil hlow
  | token hfirst htiled ih =>
      rename_i kind first rest offset tokens
      intro low reading hat hlow hready
      rcases readToken_sequenced ⟨kind, first, offset⟩ hat.left hfirst hlow hready with
        ⟨middle, hfound, hmiddle, hnext⟩
      have hrest := ih middle _ hat.right hmiddle hnext
      rw [List.length_append, ← Nat.add_assoc]
      exact hfound.append hrest

end Expression

/-!
# Elements
-/

def Expression.TagReading.Fresh : Expression.TagReading -> Prop
  | .bound (some _) _ => False
  | _ => True

theorem Element.startReading_fresh (e : Element) : e.startReading.Fresh := by
  unfold Element.startReading
  split <;> trivial

theorem segment_sequenced {t : Text} {reading : Expression.TagReading} {start stop : Nat}
    (hreading : reading.Fresh) (hstart : start ≤ stop) (hstop : stop ≤ t.length) :
    Sequenced t start stop (Expression.readTokens reading (scan t start stop)) := by
  have hready : reading.Ready start start := by
    cases reading with
    | plain => trivial
    | past => trivial
    | bound name nameStop =>
        cases name with
        | none => trivial
        | some name => exact hreading.elim
  have hsequenced := Expression.readTokens_sequenced (scan_tiled t start stop) start reading
    (Text.StandsAt.slice t hstart hstop) (Nat.le_refl _) hready
  rw [Text.length_slice t start stop hstop] at hsequenced
  exact hsequenced.higher (by omega)

namespace Element

theorem expressions_eq (t : Text) (e : Element) :
    e.expressions t = flatten (e.itemsWith t (e.placed fun c => c.expressions t)) :=
  foldItems_eq t flatten e

@[simp] theorem flatten_append (items more : List (Item (List Expression))) :
    flatten (items ++ more) = flatten items ++ flatten more := by
  simp [flatten]

@[simp] theorem flatten_child (xs : List Expression) (items : List (Item (List Expression))) :
    flatten (.child xs :: items) = xs ++ flatten items := by
  simp [flatten]

@[simp] theorem flatten_ofSegment (t : Text) (reading : Expression.TagReading)
    (start stop : Nat) :
    flatten (Item.ofSegment t reading start stop) =
      Expression.readTokens reading (scan t start stop) := by
  simp [flatten, Item.ofSegment, List.flatMap_map]

end Element

theorem Laid.sequenced {t : Text} {low high : Nat} {es : List Element} (h : Laid t low high es) :
    forall floor start reading, high ≤ t.length -> reading.Fresh -> floor ≤ start ->
      floor ≤ high -> start ≤ low ->
      Sequenced t floor high (Element.flatten (Item.among t reading start high
        (es.map fun c => ⟨c.start, c.stop, c.expressions t⟩))) := by
  induction h with
  | nil low high =>
      intro floor start reading hhigh hreading hfloor hle _
      simp only [List.map_nil, Item.among, Element.flatten_ofSegment]
      by_cases hstart : start ≤ high
      · exact (segment_sequenced hreading hstart hhigh).lower hfloor
      · rw [scan, Text.slice_of_le t (by omega), scanFrom_nil]
        exact Sequenced.nil hle
  | cons hlow hcontent hrecorded hchildren hrest ihchildren ihrest =>
      rename_i low high e rest
      intro floor start reading hhigh hreading hfloor hle hstart
      have hhead := hrecorded.opens.lt_headStop
      have hheadStop := hrecorded.head_le
      have hcontentStop := hrecorded.content_le
      have hstop := hrecorded.stop_le
      have hsegment : Sequenced t start e.start
          (Expression.readTokens reading (scan t start e.start)) :=
        segment_sequenced hreading (by omega) (by omega)
      have hinside : Sequenced t e.start e.contentStop (e.expressions t) := by
        rw [Element.expressions_eq]
        exact ihchildren e.start e.start e.startReading (by omega) e.startReading_fresh
          (Nat.le_refl _) (by omega) (by omega)
      -- The span of a child may end behind its parent, so the rest is bounded by contents.
      have hafter := ihrest e.contentStop (max start e.stop) .past hhigh trivial (by omega)
        hcontent (by omega)
      simp only [List.map_cons, Item.among, Element.flatten_append, Element.flatten_child,
        Element.flatten_ofSegment]
      exact (hsegment.append (hinside.append hafter)).lower hfloor

theorem Laid.expressions_sequenced {t : Text} {low high : Nat} {es : List Element}
    (h : Laid t low high es) {e : Element} (he : e ∈ es) :
    Sequenced t e.start e.contentStop (e.expressions t) := by
  rcases h.mem he with ⟨hrecorded, hchildren⟩
  have hhead := hrecorded.opens.lt_headStop
  have hheadStop := hrecorded.head_le
  have hcontentStop := hrecorded.content_le
  have hstop := hrecorded.stop_le
  rw [Element.expressions_eq]
  exact hchildren.sequenced e.start e.start e.startReading (by omega) e.startReading_fresh
    (Nat.le_refl _) (by omega) (by omega)

theorem Document.template_sequenced {t : Text} {template : Element}
    (h : (Document.ofText t).template? = some template) :
    Sequenced t template.start template.contentStop (template.expressions t) :=
  (Document.ofText_laid t).expressions_sequenced (List.mem_of_find?_eq_some h)

end SfcServer
