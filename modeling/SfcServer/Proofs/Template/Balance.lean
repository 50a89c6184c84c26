import SfcServer.Proofs.Template.Collecting
import SfcServer.Proofs.Template.Owners
import SfcServer.Proofs.Text.Braces

/-!
# Balanced code

The code of an element is its heads, then what stands inside of the element, then one brace for
each block that the heads have opened.  The heads come from the start tag, which is read before
everything else, so the blocks of an element hold all of its content.  When the expressions are
balanced, so is the code of every element, and the render method as a whole.
-/

namespace SfcServer

/-!
# What expressions leave open
-/

theorem Text.LeavesOpen.loopHead {t : Text} {n : Nat} (h : t.LeavesOpen n) :
    (loopHead t).LeavesOpen n := by
  rcases t.separatesFirst_or_none with ⟨i, hfirst⟩ | hnone
  · rcases hfirst.1 with ⟨a, b, after, hdrop, ha, hb⟩
    have hseparator : Text.Braceless [a, 'i', 'n', b] := by
      have hblank : forall c, Text.isBlank c = true -> c ≠ '\x7b' ∧ c ≠ '\x7d' := by
        intro c hc
        constructor <;> intro heq <;> rw [heq] at hc <;> revert hc <;> decide
      intro c hc
      simp only [List.mem_cons, List.not_mem_nil, or_false] at hc
      rcases hc with hc | hc | hc | hc
      · rw [hc]
        exact hblank a ha
      · rw [hc]
        decide
      · rw [hc]
        decide
      · rw [hc]
        exact hblank b hb
    have hafter : t.drop (i + 4) = after := by
      rw [← List.drop_drop, hdrop]
      rfl
    have hwhole : Text.LeavesOpen (t.take i ++ ([a, 'i', 'n', b] ++ after)) n := by
      rw [← List.take_append_drop i t, hdrop] at h
      exact h
    rw [loopHead_eq hfirst, hafter]
    exact hwhole.replace hseparator (by decide)
  · rw [loopHead_eq_self hnone]
    exact h

namespace Expression

def blocks (x : Expression) : Nat :=
  if x.opensBlock then 1 else 0

theorem pieces_leavesOpen {x : Expression} (h : x.text.BraceBalanced) :
    (Piece.textOf x.pieces).LeavesOpen x.blocks := by
  by_cases hkind : x.kind = .otherwise
  · have htext : Piece.textOf x.pieces = "else\x7b".toList := by
      simp [pieces, hkind, Piece.textOf, Piece.text]
    have hblocks : x.blocks = 1 := by
      simp [blocks, opensBlock, hkind]
    rw [htext, hblocks]
    decide
  · have hlead : x.lead.LeavesOpen 0 := by
      unfold lead
      split <;> decide
    have hspelled : x.spelled.LeavesOpen 0 := by
      unfold spelled
      split
      · exact Text.LeavesOpen.loopHead h
      · exact h
    have htail : x.tail.LeavesOpen x.blocks := by
      unfold tail blocks
      split <;> decide
    have hall := hlead.append (hspelled.append htail)
    rw [Nat.zero_add, Nat.zero_add] at hall
    rw [textOf_pieces hkind]
    exact hall

end Expression

namespace Item

variable {items : List (Item (List Piece))}

theorem pieces_leavesOpen
    (hown : forall x, .expression x ∈ items -> x.text.BraceBalanced)
    (hchildren : forall code, .child code ∈ items -> (Piece.textOf code).BraceBalanced) :
    (Piece.textOf (items.flatMap pieces)).LeavesOpen (items.countP opensBlock) := by
  induction items with
  | nil =>
      decide
  | cons i rest ih =>
      have hrest := ih (fun x hx => hown x (List.mem_cons_of_mem _ hx))
        (fun code hcode => hchildren code (List.mem_cons_of_mem _ hcode))
      rw [List.flatMap_cons, Piece.textOf_append, List.countP_cons, Nat.add_comm]
      cases i with
      | expression x =>
          exact (Expression.pieces_leavesOpen (hown x List.mem_cons_self)).append hrest
      | child code =>
          exact Text.LeavesOpen.append (hchildren code List.mem_cons_self) hrest

theorem block_balanced
    (hown : forall x, .expression x ∈ items -> x.text.BraceBalanced)
    (hchildren : forall code, .child code ∈ items -> (Piece.textOf code).BraceBalanced) :
    (Piece.textOf (block items)).BraceBalanced := by
  have hperm := loopFirst_perm items
  have hopen : (Piece.textOf ((loopFirst items).flatMap pieces)).LeavesOpen
      ((loopFirst items).countP opensBlock) :=
    pieces_leavesOpen (fun x hx => hown x (hperm.mem_iff.mp hx))
      (fun code hcode => hchildren code (hperm.mem_iff.mp hcode))
  have hclosed := hopen.close
  rw [block, Piece.textOf_append]
  simpa [Piece.textOf, Piece.text] using hclosed

end Item

namespace Element

theorem code_eq (t : Text) (e : Element) :
    e.code t = Item.block (e.itemsWith t (e.placed fun c => c.code t)) :=
  foldItems_eq t Item.block e

theorem code_balanced {t : Text} (e : Element) :
    (forall x, x ∈ e.expressions t -> x.text.BraceBalanced) ->
      (Piece.textOf (e.code t)).BraceBalanced := by
  induction e using Element.induction_on with
  | h e ih =>
      intro hexpressions
      have hparts : forall x,
          x ∈ e.ownExpressions t ++ e.children.flatMap (fun c => c.expressions t) ->
          x.text.BraceBalanced :=
        fun x hx => hexpressions x ((e.expressions_perm t).mem_iff.mpr hx)
      rw [code_eq]
      apply Item.block_balanced
      · intro x hx
        apply hparts x
        rw [ownExpressions_eq t e fun c => c.code t]
        exact List.mem_append_left _ (Item.expression_mem_iff.mpr hx)
      · intro code hcode
        rcases child_mem_itemsWith hcode with ⟨c, hc, heq⟩
        rw [← heq]
        apply ih c hc
        intro x hx
        exact hparts x (List.mem_append_right _ (List.mem_flatMap.mpr ⟨c, hc, hx⟩))

end Element

/-!
# Heads come first
-/

namespace Expression

theorem ofAttribute_kind {name : Text} {value : Option Token} {nameStop : Nat} {x : Expression}
    (h : ofAttribute name value nameStop = some x) : x.kind ≠ .interpolation := by
  unfold ofAttribute at h
  split at h
  · cases h
    simp
  · rcases Option.map_eq_some_iff.mp h with ⟨token, _, heq⟩
    rw [← heq]
    simp only [ofValue, ExpressionKind.ofName]
    repeat' split
    all_goals simp

theorem readToken_kind {reading : TagReading} (hreading : reading ≠ .past) {token : Token}
    {x : Expression} (h : x ∈ (readToken reading token).1) : x.kind ≠ .interpolation := by
  rcases mem_readToken h with ⟨hpast, _⟩ | ⟨_, name, value, nameStop, hattribute⟩
  · exact absurd hpast hreading
  · exact ofAttribute_kind hattribute

theorem readTokens_past_kind {tokens : List Token} {x : Expression}
    (h : x ∈ readTokens .past tokens) : x.kind = .interpolation := by
  induction tokens with
  | nil =>
      cases h
  | cons token rest ih =>
      rw [readTokens_cons] at h
      rcases List.mem_append.mp h with hfirst | hrest
      · rcases mem_readToken hfirst with ⟨_, _, hcontent⟩ | ⟨hother, _⟩
        · exact ofContent_kind hcontent
        · exact absurd rfl hother
      · exact ih hrest

theorem readTokens_split (reading : TagReading) (tokens : List Token) :
    exists heads inner, readTokens reading tokens = heads ++ inner ∧
      (forall x, x ∈ heads -> x.kind ≠ .interpolation) ∧
      forall x, x ∈ inner -> x.kind = .interpolation := by
  induction tokens generalizing reading with
  | nil =>
      refine ⟨[], [], rfl, ?_, ?_⟩ <;> intro x hx <;> cases hx
  | cons token rest ih =>
      by_cases hreading : reading = .past
      · subst hreading
        refine ⟨[], readTokens .past (token :: rest), rfl, ?_, fun x hx => readTokens_past_kind hx⟩
        intro x hx
        cases hx
      · rcases ih (readToken reading token).2 with ⟨heads, inner, hrest, hheads, hinner⟩
        refine ⟨(readToken reading token).1 ++ heads, inner, ?_, ?_, hinner⟩
        · rw [readTokens_cons, hrest, List.append_assoc]
        · intro x hx
          rcases List.mem_append.mp hx with hfirst | hlater
          · exact readToken_kind hreading hfirst
          · exact hheads x hlater

end Expression

namespace Item

variable {α : Type}

theorem among_past_kind {t : Text} {start stop : Nat} {children : List (Placed α)}
    {x : Expression} (h : .expression x ∈ among t .past start stop children) :
    x.kind = .interpolation := by
  induction children generalizing start with
  | nil =>
      rcases List.mem_map.mp h with ⟨y, hy, heq⟩
      cases heq
      exact Expression.readTokens_past_kind hy
  | cons c rest ih =>
      rcases List.mem_append.mp h with hfirst | hlater
      · rcases List.mem_map.mp hfirst with ⟨y, hy, heq⟩
        cases heq
        exact Expression.readTokens_past_kind hy
      · rcases List.mem_cons.mp hlater with heq | hrest
        · cases heq
        · exact ih hrest

theorem among_split (t : Text) (reading : Expression.TagReading) (start stop : Nat)
    (children : List (Placed α)) :
    exists (heads : List Expression) (inner : List (Item α)),
      among t reading start stop children = heads.map .expression ++ inner ∧
      (forall x, x ∈ heads -> x.kind ≠ .interpolation) ∧
      forall x, .expression x ∈ inner -> x.kind = .interpolation := by
  cases children with
  | nil =>
      rcases Expression.readTokens_split reading (scan t start stop) with
        ⟨heads, inner, hread, hheads, hinner⟩
      refine ⟨heads, inner.map .expression, ?_, hheads, ?_⟩
      · rw [among, ofSegment, hread, List.map_append]
      · intro x hx
        rcases List.mem_map.mp hx with ⟨y, hy, heq⟩
        cases heq
        exact hinner x hy
  | cons c rest =>
      rcases Expression.readTokens_split reading (scan t start c.start) with
        ⟨heads, inner, hread, hheads, hinner⟩
      refine ⟨heads, inner.map .expression ++
        .child c.value :: among t .past (max start c.stop) stop rest, ?_, hheads, ?_⟩
      · rw [among, ofSegment, hread, List.map_append, List.append_assoc]
      · intro x hx
        rcases List.mem_append.mp hx with hfirst | hlater
        · rcases List.mem_map.mp hfirst with ⟨y, hy, heq⟩
          cases heq
          exact hinner x hy
        · rcases List.mem_cons.mp hlater with heq | hrest
          · cases heq
          · exact among_past_kind hrest

/-- Moving a loop does not touch what holds neither loops nor conditions. -/
theorem loopFirst_append {items more : List (Item α)}
    (hcondition : forall i, i ∈ more -> i.hasKind .condition = false)
    (hloop : forall i, i ∈ more -> i.hasKind .loop = false) :
    loopFirst (items ++ more) = loopFirst items ++ more := by
  have hfind : forall kind, (forall i, i ∈ more -> i.hasKind kind = false) ->
      (items ++ more).findIdx? (hasKind kind) = items.findIdx? (hasKind kind) := by
    intro kind hnone
    have hmore : more.findIdx? (hasKind kind) = none :=
      List.findIdx?_eq_none_iff.mpr hnone
    rw [List.findIdx?_append, hmore]
    simp
  unfold loopFirst
  rw [hfind _ hcondition, hfind _ hloop]
  cases hfirst : items.findIdx? (hasKind .condition) with
  | none =>
      rfl
  | some condition =>
      cases hsecond : items.findIdx? (hasKind .loop) with
      | none =>
          rfl
      | some loop =>
          have hlt := (List.findIdx?_eq_some_iff_getElem.mp hsecond).1
          simp only
          split
          · rename_i hbefore
            rw [List.take_append_of_le_length (by omega), List.drop_append_of_le_length (by omega),
              List.drop_append_of_le_length (by omega), List.drop_append_of_le_length (by omega),
              List.take_append_of_le_length (by rw [List.length_drop]; omega),
              List.take_append_of_le_length (by rw [List.length_drop]; omega)]
            simp only [List.append_assoc]
          · rfl

theorem loopFirst_expressions (xs : List Expression) :
    exists ys : List Expression,
      loopFirst (xs.map .expression : List (Item α)) = ys.map .expression ∧
      ys.Perm xs := by
  have hperm := loopFirst_perm (xs.map .expression : List (Item α))
  refine ⟨(loopFirst (xs.map .expression : List (Item α))).filterMap expression?, ?_, ?_⟩
  · have hall : forall i, i ∈ loopFirst (xs.map .expression : List (Item α)) ->
        exists x, i = .expression x := by
      intro i hi
      rcases List.mem_map.mp (hperm.mem_iff.mp hi) with ⟨x, _, hx⟩
      exact ⟨x, hx.symm⟩
    generalize loopFirst (xs.map .expression : List (Item α)) = items at hall
    induction items with
    | nil =>
        rfl
    | cons i rest ih =>
        rcases hall i List.mem_cons_self with ⟨x, hx⟩
        rw [hx, List.filterMap_cons_some (f := expression?) rfl, List.map_cons]
        rw [← ih fun j hj => hall j (List.mem_cons_of_mem _ hj)]
  · have hfilter := hperm.filterMap expression?
    rw [List.filterMap_map] at hfilter
    simpa [Function.comp_def, expression?] using hfilter

end Item

/-!
# Blocks hold the content of their element
-/

/--
The code of an element is its heads, what stands inside, and the braces that close its blocks.
The heads are its attributes; inside stand its interpolations and the code of its children, both
in the order of the document.
-/
structure Element.Nests (t : Text) (e : Element) (heads : List Expression)
    (inner : List (Item (List Piece))) : Prop where
  code_eq : e.code t = heads.flatMap Expression.pieces ++ (inner.flatMap Item.pieces ++
    [.code (List.replicate (heads.countP Expression.opensBlock) '\x7d')])
  heads_perm : heads.Perm ((e.ownExpressions t).filter (·.kind != .interpolation))
  interpolations : inner.filterMap Item.expression? =
    (e.ownExpressions t).filter (·.kind == .interpolation)
  children : inner.filterMap Item.child? = e.children.map fun c => c.code t

namespace Element

/-- Every element has its heads before and its closing braces behind all that is inside. -/
theorem exists_nests (t : Text) (e : Element) : exists heads inner, e.Nests t heads inner := by
  rcases Item.among_split t e.startReading e.start e.contentStop (e.placed fun c => c.code t) with
    ⟨attributes, inner, hitems, hattributes, hinner⟩
  rcases Item.loopFirst_expressions (α := List Piece) attributes with ⟨heads, hordered, hperm⟩
  have hkind : forall kind, kind ≠ .interpolation ->
      forall i, i ∈ inner -> i.hasKind kind = false := by
    intro kind hne i hi
    cases i with
    | child code =>
        rfl
    | expression x =>
        simp only [Item.hasKind, hinner x hi, beq_eq_false_iff_ne]
        exact hne.symm
  have hinside : inner.countP Item.opensBlock = 0 := by
    apply List.countP_eq_zero.mpr
    intro i hi
    cases i with
    | child code =>
        simp [Item.opensBlock]
    | expression x =>
        simp [Item.opensBlock, Expression.opensBlock, hinner x hi]
  have hown : e.ownExpressions t = attributes ++ inner.filterMap Item.expression? := by
    rw [ownExpressions_eq t e fun c => c.code t, itemsWith, hitems, List.filterMap_append,
      List.filterMap_map]
    simp [Function.comp_def, Item.expression?]
  have hinterpolation : forall x, x ∈ inner.filterMap Item.expression? ->
      x.kind = .interpolation :=
    fun x hx => hinner x (Item.expression_mem_iff.mp hx)
  refine ⟨heads, inner, ?_, ?_, ?_, ?_⟩
  · rw [Element.code_eq, itemsWith, hitems, Item.block,
      Item.loopFirst_append (hkind _ (by simp)) (hkind _ (by simp)), hordered]
    simp only [List.flatMap_append, List.countP_append, hinside, List.countP_map,
      List.flatMap_map, List.append_assoc, Nat.add_zero]
    rfl
  · rw [hown, List.filter_append, List.filter_eq_self.mpr (by simpa using hattributes),
      List.filter_eq_nil_iff.mpr (by simpa using hinterpolation), List.append_nil]
    exact hperm
  · rw [hown, List.filter_append, List.filter_eq_nil_iff.mpr (by simpa using hattributes),
      List.filter_eq_self.mpr (by simpa using hinterpolation), List.nil_append]
  · have hchildren := filterMap_child?_itemsWith t e fun c => c.code t
    rw [itemsWith, hitems, List.filterMap_append, List.filterMap_map] at hchildren
    simpa [Function.comp_def, Item.child?] using hchildren

theorem Nests.child_infix {t : Text} {e c : Element} {heads : List Expression}
    {inner : List (Item (List Piece))} (h : e.Nests t heads inner) (hc : c ∈ e.children) :
    c.code t <:+: inner.flatMap Item.pieces := by
  have hmem : c.code t ∈ inner.filterMap Item.child? := by
    rw [h.children]
    exact List.mem_map.mpr ⟨c, hc, rfl⟩
  rcases List.mem_filterMap.mp hmem with ⟨i, hi, hchild⟩
  cases i with
  | expression x =>
      cases hchild
  | child code =>
      cases hchild
      rcases List.append_of_mem hi with ⟨front, back, hsplit⟩
      rw [hsplit, List.flatMap_append, List.flatMap_cons, ← List.append_assoc]
      exact List.infix_append _ _ _

/-- The code of an element stands whole in the code of every element around it. -/
theorem code_infix {t : Text} {e : Element} (root : Element) :
    e ∈ root.preorder -> e.code t <:+: root.code t := by
  induction root using Element.induction_on with
  | h root ih =>
      intro he
      rcases mem_preorder he with heq | ⟨c, hc, hinside⟩
      · subst heq
        exact List.infix_refl _
      · rcases root.exists_nests t with ⟨heads, inner, hnests⟩
        have hinner := (ih c hc hinside).trans (hnests.child_infix hc)
        rw [hnests.code_eq, ← List.append_assoc]
        exact hinner.trans (List.infix_append _ _ _)

end Element

/-!
# Render methods
-/

namespace Render

theorem preamble_balanced {names : List Text}
    (h : forall name, name ∈ names -> name.BraceBalanced) : (preamble names).BraceBalanced := by
  have hcomma : Text.BraceBalanced [','] := by decide
  have hopen : Text.LeavesOpen "const \x7b".toList 1 := by decide
  have hrest : Text.LeavesOpen " = this;".toList 0 := by decide
  have hclosed := (hopen.append (Text.joinWith_balanced hcomma names h)).close
  have hall := Text.LeavesOpen.append hclosed hrest
  rw [List.append_assoc] at hall
  exact hall

theorem ofPieces_balanced {offset : Nat} {names : List Text} {pieces : List Piece}
    (hnames : forall name, name ∈ names -> name.BraceBalanced)
    (hbody : (Piece.textOf pieces).BraceBalanced) :
    (ofPieces offset names pieces).text.BraceBalanced := by
  have hheader : header.LeavesOpen 1 := by decide
  exact ((hheader.append (preamble_balanced hnames)).append hbody).close

/--
The render method of balanced expressions is balanced, and so is the part that each element
writes.  In that part the code of all elements further inside and the own interpolations stand
behind the heads of the blocks that the element opens and before the braces that close them.
-/
theorem blocks_balanced {t : Text} {names : List Text} (offset : Nat)
    (hnames : forall name, name ∈ names -> name.BraceBalanced) :
    (forall template : Element,
      (forall x, x ∈ template.expressions t -> x.text.BraceBalanced) ->
      (ofTemplate t template offset names).text.BraceBalanced ∧
        forall e, e ∈ template.preorder ->
          (Piece.textOf (e.code t)).BraceBalanced ∧ e.code t <:+: template.code t ∧
          exists heads inner, e.Nests t heads inner ∧
            forall d, d ∈ e.children.flatMap Element.preorder ->
              d.code t <:+: inner.flatMap Item.pieces) ∧
    (forall roots : List Element,
      (forall x, x ∈ roots.flatMap (fun e => e.expressions t) -> x.text.BraceBalanced) ->
      (ofElements t roots offset names).text.BraceBalanced) := by
  constructor
  · intro template hexpressions
    refine ⟨ofPieces_balanced hnames (template.code_balanced hexpressions), ?_⟩
    intro e he
    refine ⟨?_, Element.code_infix template he, ?_⟩
    · apply e.code_balanced
      intro x hx
      exact hexpressions x (Element.expressions_of_preorder template he hx)
    · rcases e.exists_nests t with ⟨heads, inner, hnests⟩
      refine ⟨heads, inner, hnests, ?_⟩
      intro d hd
      rcases List.mem_flatMap.mp hd with ⟨c, hc, hinside⟩
      exact (Element.code_infix c hinside).trans (hnests.child_infix hc)
  · intro roots hexpressions
    apply ofPieces_balanced hnames
    induction roots with
    | nil =>
        have hempty : Text.BraceBalanced [] := by decide
        exact hempty
    | cons e rest ih =>
        rw [List.flatMap_cons] at hexpressions ⊢
        rw [Piece.textOf_append]
        have hfirst := e.code_balanced fun x hx => hexpressions x (List.mem_append_left _ hx)
        exact Text.LeavesOpen.append hfirst
          (ih fun x hx => hexpressions x (List.mem_append_right _ hx))

def objectText : Text :=
  "<template><p v-if=\"a\" v-for=\"b in [\x7b c \x7d]\">".toList ++
    "\x7b\x7b b \x7d\x7d<i v-else></i></p></template>".toList

theorem blocks_balanced_object :
    exists template, (Document.ofText objectText).template? = some template ∧
      (template.expressions objectText).length = 4 ∧
      (ofTemplate objectText template 0 ["d".toList]).text.BraceBalanced := by
  have hfacts : (Document.ofText objectText).template?.any (fun template =>
      (template.expressions objectText).length = 4 ∧
        forall x, x ∈ template.expressions objectText -> x.text.BraceBalanced) = true := by
    decide +kernel
  rcases (Option.any_eq_true _ _).mp hfacts with ⟨template, htemplate, hboth⟩
  rcases of_decide_eq_true hboth with ⟨hlength, hbalanced⟩
  refine ⟨template, htemplate, hlength, ?_⟩
  exact ((blocks_balanced 0 (by decide)).1 template hbalanced).1

end Render

end SfcServer
