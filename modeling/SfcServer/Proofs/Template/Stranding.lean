import SfcServer.Proofs.Template.Balance
import SfcServer.Proofs.Template.Chains
import SfcServer.Proofs.Template.Location

/-!
# Why a continuation is stranded

In a template without orphans every element that continues a branch follows one with a `v-if`
or a `v-else-if`.  Its head is stranded all the same when something of its own is written before
it, when an interpolation stands between the two elements, or when the element before it does
not end with the block of a branch: a loop is opened before the condition, or the condition has
no value.  There are no other causes.
-/

namespace SfcServer

variable {t : Text}

/-!
# The attribute of an expression
-/

namespace Expression

theorem ofAttribute_name {name : Text} {value : Option Token} {nameStop : Nat} {x : Expression}
    (h : ofAttribute name value nameStop = some x) :
    x.name = name ∧ x.kind = ExpressionKind.ofName name := by
  unfold ofAttribute at h
  split at h
  · rename_i helse
    cases h
    exact ⟨rfl, helse.symm⟩
  · rcases Option.map_eq_some_iff.mp h with ⟨token, _, heq⟩
    rw [← heq]
    exact ⟨rfl, rfl⟩

theorem readToken_named {reading : TagReading} {token : Token} {x : Expression}
    (h : x ∈ (readToken reading token).1) (hkind : x.kind ≠ .interpolation) :
    (exists stop, reading = .bound (some x.name) stop) ∧ x.kind = ExpressionKind.ofName x.name := by
  cases reading with
  | plain =>
      cases h
  | past =>
      rcases mem_readToken h with ⟨_, _, hcontent⟩ | ⟨hother, _⟩
      · exact absurd (ofContent_kind hcontent) hkind
      · exact absurd rfl hother
  | bound name nameStop =>
      have hattribute : forall value : Option Token,
          x ∈ (name.bind fun n => ofAttribute n value nameStop).toList ->
          (exists stop, TagReading.bound name nameStop = .bound (some x.name) stop) ∧
            x.kind = ExpressionKind.ofName x.name := by
        intro value hx
        rcases Option.bind_eq_some_iff.mp (Option.mem_toList.mp hx) with ⟨n, hname, hn⟩
        rcases ofAttribute_name hn with ⟨hsame, hof⟩
        rw [hsame]
        exact ⟨⟨nameStop, by rw [hname]⟩, hof⟩
      simp only [readToken] at h
      split at h
      · exact hattribute _ h
      · exact hattribute _ h
      · exact hattribute _ h
      · exact hattribute _ h
      · cases h

theorem readToken_bound {reading : TagReading} {token : Token} {name : Text} {nameStop : Nat}
    (h : (readToken reading token).2 = .bound (some name) nameStop) :
    reading = .bound (some name) nameStop ∨
      (token.kind = .attributeName ∧ token.text = name) := by
  cases reading with
  | plain =>
      simp only [readToken] at h
      split at h <;> cases h
  | past =>
      cases h
  | bound earlier earlierStop =>
      simp only [readToken] at h
      split at h
      · rename_i hkind
        injection h with hname _
        split at hname
        · injection hname with hname
          exact Or.inr ⟨hkind, hname⟩
        · cases hname
      · cases h
      · cases h
      · injection h with hname _
        cases hname
      · exact Or.inl h

theorem readTokens_named {reading : TagReading} {tokens : List Token} {x : Expression}
    (h : x ∈ readTokens reading tokens) (hkind : x.kind ≠ .interpolation) :
    ((exists stop, reading = .bound (some x.name) stop) ∨
      exists token, token ∈ tokens ∧ token.kind = .attributeName ∧ token.text = x.name) ∧
      x.kind = ExpressionKind.ofName x.name := by
  induction tokens generalizing reading with
  | nil =>
      cases h
  | cons token rest ih =>
      rw [readTokens_cons] at h
      rcases List.mem_append.mp h with hfirst | hlater
      · rcases readToken_named hfirst hkind with ⟨hreading, hof⟩
        exact ⟨Or.inl hreading, hof⟩
      · rcases ih hlater with ⟨⟨stop, hreading⟩ | ⟨name, hmem, hname⟩, hof⟩
        · refine ⟨?_, hof⟩
          rcases readToken_bound hreading with hsame | ⟨hname, htext⟩
          · exact Or.inl ⟨stop, hsame⟩
          · exact Or.inr ⟨token, List.mem_cons_self, hname, htext⟩
        · exact ⟨Or.inr ⟨name, List.mem_cons_of_mem _ hmem, hname⟩, hof⟩

end Expression

namespace Element

variable {template e : Element} {x : Expression}

/-- A name that is scanned before the first child stands in the start tag of the element. -/
theorem name_in_head (htemplate : (Document.ofText t).template? = some template)
    (he : e ∈ template.preorder) {reading : Expression.TagReading} {high : Nat}
    (hfirst : ReadBetween t e.children e.contentStop reading e.start high x) {name : Token}
    (hscanned : name ∈ scan t e.start high) (hname : name.kind = .attributeName) :
    name ∈ headTokens t e.start := by
  rcases Document.recorded_of_preorder htemplate he with ⟨hrecorded, hchildren⟩
  have hcut := hfirst.cut hrecorded hchildren
  rcases (hrecorded.opens.reaches.mem_scan hcut.1).mp hscanned with ⟨hmem, hlow, hhigh⟩
  have hlt : e.start < name.offset := by
    apply Nat.lt_of_le_of_ne hlow
    intro heq
    rw [token_unique hmem hrecorded.opens.open_mem heq.symm] at hname
    cases hname
  have howns : e.Owns name.offset := by
    refine ⟨hlt, by omega, ?_⟩
    intro c hc
    apply Bool.eq_false_iff.mpr
    intro hcovers
    have hinside := Element.covers_iff.mp hcovers
    have hbehind := hchildren.low_le hc
    have hopen := hrecorded.opens.lt_headStop
    have hspan := (hchildren.mem hc).1.start_lt
    have hcontent := (hchildren.mem hc).1.content_le
    rcases hfirst.apart c hc with hbefore | hafter <;> omega
  -- No start tag begins between the element and a name that the element owns.
  rcases name_mem_headTokens hmem hname with ⟨start, hopens, hhead⟩
  have hbounds := hopens.headStop_bounds.1 name (List.mem_cons_of_mem _ hhead)
  have hat := (Document.elementAt?_of_owns htemplate he howns).2
  have hle := Document.start_le_elementAt hopens (hopens.lt_of_mem_head hhead) (by omega) hat
  rw [hopens.unique hrecorded.opens hhead hle hlt]
  exact hhead

/-- An expression that is no interpolation is read off an attribute of its element. -/
theorem attribute_of_own (htemplate : (Document.ofText t).template? = some template)
    (he : e ∈ template.preorder) (hx : x ∈ e.ownExpressions t) (hkind : x.kind ≠ .interpolation) :
    e.hasAttribute x.name = true ∧ x.kind = ExpressionKind.ofName x.name := by
  rcases Document.recorded_of_preorder htemplate he with ⟨hrecorded, hchildren⟩
  rcases own_readBetween hrecorded hchildren hx with ⟨high, hfirst | ⟨c, hc, hlater⟩⟩
  · rcases Expression.readTokens_named hfirst.read hkind with
      ⟨⟨stop, hreading⟩ | ⟨name, hscanned, hname, htext⟩, hof⟩
    · have hfresh := e.startReading_fresh
      rw [hreading] at hfresh
      cases hfresh
    · have hhead := name_in_head htemplate he hfirst hscanned hname
      rcases hrecorded.named name hhead hname with ⟨a, ha, haname⟩
      refine ⟨List.any_eq_true.mpr ⟨a, ha, ?_⟩, hof⟩
      rw [haname, htext]
      exact decide_eq_true rfl
  · exact absurd (Expression.readTokens_past_kind hlater.read) hkind

end Element

theorem ExpressionKind.name_of_continues {name : Text}
    (h : ofName name = .otherwise ∨ ofName name = .elseCondition) :
    name = "v-else".toList ∨ name = "v-else-if".toList := by
  unfold ofName at h
  split at h
  · simp at h
  · split at h
    · exact Or.inr ‹_›
    · split at h
      · exact Or.inl ‹_›
      · split at h <;> simp at h

/-!
# Orphans among siblings
-/

namespace Element

theorem orphans_eq (t : Text) (e : Element) :
    e.orphans t = orphansAmong t false e.children ++ orphansInside t e.children := by
  cases e
  rw [orphans]

theorem orphans_of_child {e c : Element} (h : e.orphans t = []) (hc : c ∈ e.children) :
    c.orphans t = [] := by
  rw [orphans_eq, List.append_eq_nil_iff] at h
  have hinside := h.2
  generalize e.children = children at hc hinside
  induction children with
  | nil =>
      cases hc
  | cons first rest ih =>
      rw [orphansInside, List.append_eq_nil_iff] at hinside
      rcases List.mem_cons.mp hc with heq | hrest
      · rw [heq]
        exact hinside.1
      · exact ih hrest hinside.2

theorem follows_of_orphansAmong {c : Element} {front rest : List Element} {isOpen : Bool}
    (h : orphansAmong t isOpen (front ++ c :: rest) = []) (hc : c.continuesBranch = true)
    (hwritten : c.continuations t ≠ []) :
    (front = [] ∧ isOpen = true) ∨
      exists s, front.getLast? = some s ∧ s.leavesBranchOpen = true := by
  induction front generalizing isOpen with
  | nil =>
      rw [List.nil_append, orphansAmong, List.append_eq_nil_iff] at h
      refine Or.inl ⟨rfl, ?_⟩
      cases isOpen with
      | true =>
          rfl
      | false =>
          rw [hc] at h
          exact absurd h.1 hwritten
  | cons s front ih =>
      rw [List.cons_append, orphansAmong, List.append_eq_nil_iff] at h
      rcases ih h.2 with ⟨hnone, hopen⟩ | ⟨last, hlast, hleaves⟩
      · rw [hnone]
        exact Or.inr ⟨s, rfl, hopen⟩
      · refine Or.inr ⟨last, ?_, hleaves⟩
        rw [List.getLast?_cons, hlast]
        rfl

end Element

/-!
# What an element writes
-/

namespace Element

/-- What an element holds, in the order in which it is written. -/
def writing (t : Text) (e : Element) : List (Item Element) :=
  Item.loopFirst (e.itemsWith t (e.placed id))

/-- The expression whose block an element opens first. -/
def opener? (t : Text) (e : Element) : Option Expression :=
  (e.writing t).findSome? Item.opened?

def WritesFirst (t : Text) (e : Element) (x : Expression) : Prop :=
  exists rest, e.writing t = .expression x :: rest

/-- A walk over an element, from a place where a branch was closed last or not. -/
def trail (t : Text) (e : Element) (isOpen : Bool) : Trail :=
  e.foldItems t Item.blockWalk isOpen

variable {e : Element} {x : Expression}

theorem writing_map {α : Type} (t : Text) (e : Element) (f : Element -> α) :
    (e.writing t).map (Item.map f) = Item.loopFirst (e.itemsWith t (e.placed f)) := by
  rw [writing, ← Item.loopFirst_map, itemsWith_map, placed_map]
  rfl

theorem trail_eq (t : Text) (e : Element) (isOpen : Bool) :
    e.trail t isOpen =
      ⟨(Item.walk isOpen ((e.writing t).map (Item.map fun c => c.trail t))).stranded,
        match e.opener? t with
        | some x => x.leavesBranchOpen
        | none => (Item.walk isOpen ((e.writing t).map (Item.map fun c => c.trail t))).isOpen⟩ := by
  have hfold := congrFun (foldItems_eq t Item.blockWalk e) isOpen
  rw [trail, hfold, Item.blockWalk, opener?,
    ← Item.findSome?_opened?_map fun c : Element => c.trail t, writing_map]
  rfl

theorem own_of_writing (h : .expression x ∈ e.writing t) : x ∈ e.ownExpressions t := by
  rw [ownExpressions_eq t e id]
  exact Item.expression_mem_iff.mpr ((Item.loopFirst_perm _).mem_iff.mp h)

theorem child_of_writing {c : Element} (h : .child c ∈ e.writing t) : c ∈ e.children := by
  rcases child_mem_itemsWith ((Item.loopFirst_perm _).mem_iff.mp h) with ⟨d, hd, heq⟩
  rw [← heq]
  exact hd

theorem writing_split (t : Text) (e : Element) :
    exists (heads : List Expression) (inner : List (Item Element)),
      e.writing t = heads.map .expression ++ inner ∧
      (forall y, .expression y ∈ inner -> y.kind = .interpolation) ∧
      inner.filterMap Item.child? = e.children := by
  rcases Item.among_split t e.startReading e.start e.contentStop (e.placed id) with
    ⟨attributes, inner, hsplit, _, hinner⟩
  have hkind : forall kind, kind ≠ .interpolation ->
      forall i, i ∈ inner -> i.hasKind kind = false := by
    intro kind hother i hi
    cases i with
    | child value =>
        rfl
    | expression y =>
        rw [Item.hasKind, hinner y hi]
        exact beq_eq_false_iff_ne.mpr (Ne.symm hother)
  rcases Item.loopFirst_expressions (α := Element) attributes with ⟨heads, hheads, _⟩
  have hwriting : e.writing t = heads.map .expression ++ inner := by
    rw [writing, itemsWith, hsplit,
      Item.loopFirst_append (hkind _ (by simp)) (hkind _ (by simp)), hheads]
  refine ⟨heads, inner, hwriting, hinner, ?_⟩
  have hchildren := filterMap_child?_itemsWith t e id
  have hnone : (attributes.map .expression : List (Item Element)).filterMap Item.child? = [] := by
    rw [List.filterMap_map]
    exact List.filterMap_eq_nil_iff.mpr fun _ _ => rfl
  rw [itemsWith, hsplit, List.filterMap_append, hnone, List.nil_append, List.map_id] at hchildren
  exact hchildren

end Element

theorem Item.split_at_child {α : Type} {heads : List Expression}
    {inner before after : List (Item α)} {value : α}
    (h : heads.map .expression ++ inner = before ++ .child value :: after) :
    exists middle, before = heads.map .expression ++ middle ∧
      inner = middle ++ .child value :: after := by
  rcases List.append_eq_append_iff.mp h with ⟨middle, hbefore, hinner⟩ | ⟨more, hheads, hlater⟩
  · exact ⟨middle, hbefore, hinner⟩
  · cases more with
    | nil =>
        refine ⟨[], ?_, hlater.symm⟩
        rw [hheads, List.append_nil, List.append_nil]
    | cons i more =>
        injection hlater with hi _
        have hmem : Item.child value ∈ (heads.map .expression : List (Item α)) := by
          rw [hheads, hi]
          simp
        rcases List.mem_map.mp hmem with ⟨_, _, hx⟩
        cases hx

/-!
# Walks over items
-/

namespace Item

theorem walk_append (isOpen : Bool) (a b : List (Item (Bool -> Trail))) :
    walk isOpen (a ++ b) =
      ⟨(walk isOpen a).stranded ++ (walk (walk isOpen a).isOpen b).stranded,
        (walk (walk isOpen a).isOpen b).isOpen⟩ := by
  induction a generalizing isOpen with
  | nil =>
      rfl
  | cons i rest ih =>
      cases i with
      | expression x =>
          simp only [List.cons_append, walk, ih, List.append_assoc]
      | child inside =>
          simp only [List.cons_append, walk, ih, List.append_assoc]

/-- What is found stranded on a walk is an item, or is found inside of one. -/
theorem mem_walk {isOpen : Bool} {items : List (Item (Bool -> Trail))} {x : Expression}
    (h : x ∈ (walk isOpen items).stranded) :
    exists before i after, items = before ++ i :: after ∧
      ((i = .expression x ∧ x.continuesBranch = true ∧ (walk isOpen before).isOpen = false) ∨
        exists inside, i = .child inside ∧
          x ∈ (inside (walk isOpen before).isOpen).stranded) := by
  induction items generalizing isOpen with
  | nil =>
      cases h
  | cons i rest ih =>
      cases i with
      | expression y =>
          rcases List.mem_append.mp h with hfirst | hlater
          · split at hfirst
            · rename_i hstranded
              rw [Bool.and_eq_true, Bool.not_eq_true'] at hstranded
              rw [List.mem_singleton.mp hfirst]
              exact ⟨[], _, rest, rfl, Or.inl ⟨rfl, hstranded⟩⟩
            · cases hfirst
          · rcases ih hlater with ⟨before, i, after, hrest, hi⟩
            exact ⟨.expression y :: before, i, after, by rw [hrest]; rfl, hi⟩
      | child inside =>
          rcases List.mem_append.mp h with hfirst | hlater
          · exact ⟨[], _, rest, rfl, Or.inr ⟨inside, rfl, hfirst⟩⟩
          · rcases ih hlater with ⟨before, i, after, hrest, hi⟩
            exact ⟨.child inside :: before, i, after, by rw [hrest]; rfl, hi⟩

end Item

/-!
# Causes
-/

namespace Document

/-- The ways in which a template without orphans leaves a continuation after no closed branch. -/
inductive Strands (t : Text) (template : Element) (x : Expression) : Prop where
  /-- Another expression of its element is written before it. -/
  | preceded {e : Element} {y : Expression} {before after : List (Item Element)} :
      e ∈ template.preorder ->
      e.writing t = before ++ .expression y :: .expression x :: after ->
      Strands t template x
  /-- An interpolation stands before its element. -/
  | interpolated {e c : Element} {y : Expression} {before after : List (Item Element)} :
      e ∈ template.preorder ->
      e.writing t = before ++ .expression y :: .child c :: after ->
      y.kind = .interpolation ->
      c.WritesFirst t x ->
      Strands t template x
  /-- The element before opens a loop, or continues a branch itself, before its condition. -/
  | unbranched {e s c : Element} {y : Expression} {before after : List (Item Element)} :
      e ∈ template.preorder ->
      e.writing t = before ++ .child s :: .child c :: after ->
      s.leavesBranchOpen = true ->
      s.opener? t = some y ->
      y.kind = .loop ∨ y.kind = .otherwise ->
      c.WritesFirst t x ->
      Strands t template x

/-- The element before has a `v-if` or a `v-else-if`, and opens no block for it. -/
def FollowsValueless (t : Text) (template : Element) (x : Expression) : Prop :=
  exists (e s c : Element) (before after : List (Item Element)), e ∈ template.preorder ∧
    e.writing t = before ++ .child s :: .child c :: after ∧ s.leavesBranchOpen = true ∧
    s.opener? t = none ∧ c.WritesFirst t x

variable {template e : Element} {x : Expression}

theorem Strands.of_child {c : Element} (h : Strands t c x) (hc : c ∈ e.children) :
    Strands t e x := by
  cases h with
  | preceded hinside hwriting =>
      exact .preceded (Element.mem_preorder_of_child hc hinside) hwriting
  | interpolated hinside hwriting hkind hfirst =>
      exact .interpolated (Element.mem_preorder_of_child hc hinside) hwriting hkind hfirst
  | unbranched hinside hwriting hleaves hopener hkind hfirst =>
      exact .unbranched (Element.mem_preorder_of_child hc hinside) hwriting hleaves hopener hkind
        hfirst

theorem FollowsValueless.of_child {c : Element} (h : FollowsValueless t c x)
    (hc : c ∈ e.children) : FollowsValueless t e x := by
  rcases h with ⟨n, s, d, before, after, hinside, hrest⟩
  exact ⟨n, s, d, before, after, Element.mem_preorder_of_child hc hinside, hrest⟩

end Document

namespace Element

variable {template e : Element} {x : Expression}

theorem continuesBranch_of_stranded {isOpen : Bool} (h : x ∈ (e.trail t isOpen).stranded) :
    x.continuesBranch = true := by
  rw [trail, foldItems_walk] at h
  rcases Fragment.mem_stranded.mp h with ⟨_, _, _, hcontinues, _⟩
  exact hcontinues

theorem kind_of_continues (h : x.continuesBranch = true) : x.kind ≠ .interpolation := by
  intro hkind
  rw [Expression.continuesBranch, hkind] at h
  cases h

theorem continuesBranch_of_writesFirst (htemplate : (Document.ofText t).template? = some template)
    (he : e ∈ template.preorder) (h : e.WritesFirst t x) (hcontinues : x.continuesBranch = true) :
    e.continuesBranch = true ∧ e.continuations t ≠ [] := by
  rcases h with ⟨rest, hwriting⟩
  have hown : x ∈ e.ownExpressions t := own_of_writing (by rw [hwriting]; exact List.mem_cons_self)
  rcases attribute_of_own htemplate he hown (kind_of_continues hcontinues) with ⟨hattribute, hof⟩
  have hkind : x.kind = .otherwise ∨ x.kind = .elseCondition := by
    simpa [Expression.continuesBranch] using hcontinues
  constructor
  · rw [hof] at hkind
    rw [continuesBranch, Bool.or_eq_true]
    rcases ExpressionKind.name_of_continues hkind with hname | hname
    · exact Or.inl (by rw [← hname]; exact hattribute)
    · exact Or.inr (by rw [← hname]; exact hattribute)
  · exact List.ne_nil_of_mem (List.mem_filter.mpr ⟨hown, hcontinues⟩)

theorem opener?_opens {y : Expression} (h : e.opener? t = some y) : y.opensBlock = true := by
  rcases List.exists_of_findSome?_eq_some h with ⟨i, _, hi⟩
  cases i with
  | child value =>
      cases hi
  | expression z =>
      simp only [Item.opened?] at hi
      split at hi
      · cases hi
        assumption
      · cases hi

theorem opener?_kind {y : Expression} (h : e.opener? t = some y)
    (hleaves : y.leavesBranchOpen = false) : y.kind = .loop ∨ y.kind = .otherwise := by
  have hopens := opener?_opens h
  cases hkind : y.kind <;>
    simp_all [Expression.opensBlock, Expression.leavesBranchOpen]

theorem before_child {before after : List (Item Element)} {c : Element}
    (h : e.writing t = before ++ .child c :: after) :
    exists front, e.children = front ++ c :: after.filterMap Item.child? ∧
      (front = [] ∨
        (exists earlier y, before = earlier ++ [.expression y] ∧ y.kind = .interpolation) ∨
        exists earlier s, before = earlier ++ [.child s] ∧ front.getLast? = some s) := by
  rcases e.writing_split t with ⟨heads, inner, hwriting, hinner, hchildren⟩
  rw [hwriting] at h
  rcases Item.split_at_child h with ⟨middle, hbefore, hinside⟩
  rw [hinside, List.filterMap_append, List.filterMap_cons_some (f := Item.child?) rfl] at hchildren
  refine ⟨_, hchildren.symm, ?_⟩
  rcases List.eq_nil_or_concat middle with hnil | ⟨earlier, i, hconcat⟩
  · rw [hnil]
    exact Or.inl rfl
  · refine Or.inr ?_
    rw [hconcat, List.concat_eq_append] at hbefore ⊢
    cases i with
    | expression y =>
        refine Or.inl ⟨heads.map .expression ++ earlier, y, by rw [hbefore, List.append_assoc], ?_⟩
        apply hinner
        rw [hinside, hconcat]
        simp
    | child s =>
        refine Or.inr ⟨heads.map .expression ++ earlier, s, by rw [hbefore, List.append_assoc], ?_⟩
        rw [List.filterMap_append]
        simp [Item.child?]

/-- Before an attribute stands nothing or another attribute. -/
theorem before_own {before after : List (Item Element)}
    (h : e.writing t = before ++ .expression x :: after) (hkind : x.kind ≠ .interpolation) :
    before = [] ∨ exists earlier y, before = earlier ++ [.expression y] := by
  rcases List.eq_nil_or_concat before with hnil | ⟨earlier, i, hconcat⟩
  · exact Or.inl hnil
  · rw [List.concat_eq_append] at hconcat
    cases i with
    | expression y =>
        exact Or.inr ⟨earlier, y, hconcat⟩
    | child c =>
        exfalso
        rcases e.writing_split t with ⟨heads, inner, hparts, hinner, _⟩
        rw [hparts, hconcat, List.append_assoc, List.singleton_append] at h
        rcases Item.split_at_child h with ⟨middle, _, hmiddle⟩
        apply hkind
        apply hinner
        rw [hmiddle]
        simp

/-- What is found stranded on a walk over an element is its own, or is found inside of a child. -/
theorem mem_trail {isOpen : Bool} (h : x ∈ (e.trail t isOpen).stranded) :
    exists before i after, e.writing t = before ++ i :: after ∧
      let closed := (Item.walk isOpen (before.map (Item.map fun c => c.trail t))).isOpen
      ((i = .expression x ∧ closed = false) ∨
        exists c, i = .child c ∧ x ∈ (c.trail t closed).stranded) := by
  rw [trail_eq] at h
  rcases Item.mem_walk h with ⟨walked, i, later, hitems, hi⟩
  rcases List.map_eq_append_iff.mp hitems with ⟨before, others, hwriting, hbefore, hothers⟩
  rcases List.map_eq_cons_iff.mp hothers with ⟨j, after, hsplit, hj, _⟩
  rw [hsplit] at hwriting
  refine ⟨before, j, after, hwriting, ?_⟩
  simp only [hbefore]
  cases j with
  | expression y =>
      rcases hi with ⟨hexpression, _, hclosed⟩ | ⟨inside, hchild, _⟩
      · rw [hexpression] at hj
        cases hj
        exact Or.inl ⟨rfl, hclosed⟩
      · rw [hchild] at hj
        cases hj
  | child c =>
      rcases hi with ⟨hexpression, _⟩ | ⟨inside, hchild, hinside⟩
      · rw [hexpression] at hj
        cases hj
      · rw [hchild] at hj
        cases hj
        exact Or.inr ⟨c, rfl, hinside⟩

/-- A continuation that a child writes first is stranded by what stands directly before the child. -/
theorem strands_before_child (htemplate : (Document.ofText t).template? = some template)
    (he : e ∈ template.preorder) (horphans : e.orphans t = [])
    {before after : List (Item Element)} {c : Element} {isOpen : Bool}
    (hwriting : e.writing t = before ++ .child c :: after) (hfirst : c.WritesFirst t x)
    (hcontinues : x.continuesBranch = true)
    (hclosed : (Item.walk isOpen (before.map (Item.map fun c => c.trail t))).isOpen = false) :
    Document.Strands t e x ∨ Document.FollowsValueless t e x := by
  rcases before_child hwriting with ⟨front, hchildren, hfront⟩
  have hc : c ∈ e.children := child_of_writing (by rw [hwriting]; simp)
  have hinside := preorder_trans template he (mem_preorder_of_child hc c.self_mem_preorder)
  rcases continuesBranch_of_writesFirst htemplate hinside hfirst hcontinues with
    ⟨hcontinuing, hwritten⟩
  rw [orphans_eq, List.append_eq_nil_iff, hchildren] at horphans
  rcases follows_of_orphansAmong horphans.1 hcontinuing hwritten with
    ⟨_, hopen⟩ | ⟨s, hlast, hleaves⟩
  · cases hopen
  · rcases hfront with hnone | ⟨earlier, y, hconcat, hkind⟩ | ⟨earlier, d, hconcat, hd⟩
    · rw [hnone] at hlast
      cases hlast
    · rw [hconcat, List.append_assoc, List.singleton_append] at hwriting
      exact Or.inl (.interpolated e.self_mem_preorder hwriting hkind hfirst)
    · rw [hlast] at hd
      injection hd with hd
      subst hd
      rw [hconcat, List.map_append, Item.walk_append] at hclosed
      rw [hconcat, List.append_assoc, List.singleton_append] at hwriting
      simp only [List.map_cons, List.map_nil, Item.map_child, Item.walk, trail_eq t s] at hclosed
      cases hopener : s.opener? t with
      | none =>
          exact Or.inr ⟨e, s, c, earlier, after, e.self_mem_preorder, hwriting, hleaves, hopener,
            hfirst⟩
      | some y =>
          rw [hopener] at hclosed
          exact Or.inl (.unbranched e.self_mem_preorder hwriting hleaves hopener
            (opener?_kind hopener hclosed) hfirst)

/--
Inside of an element without orphans a continuation is stranded for one of the causes, or it is
what the element itself writes first.
-/
theorem stranded_causes (htemplate : (Document.ofText t).template? = some template) :
    e ∈ template.preorder -> e.orphans t = [] ->
      forall isOpen, x ∈ (e.trail t isOpen).stranded ->
        (isOpen = false ∧ e.WritesFirst t x) ∨ Document.Strands t e x ∨
          Document.FollowsValueless t e x := by
  induction e using Element.induction_on with
  | h e ih =>
      intro he horphans isOpen hx
      have hcontinues := continuesBranch_of_stranded hx
      rcases mem_trail hx with ⟨before, i, after, hwriting, ⟨hi, hclosed⟩ | ⟨c, hi, hinside⟩⟩
      · subst hi
        rcases before_own hwriting (kind_of_continues hcontinues) with hnil | ⟨earlier, y, hconcat⟩
        · subst hnil
          exact Or.inl ⟨hclosed, after, hwriting⟩
        · rw [hconcat, List.append_assoc, List.singleton_append] at hwriting
          exact Or.inr (Or.inl (.preceded e.self_mem_preorder hwriting))
      · subst hi
        have hc : c ∈ e.children := child_of_writing (by rw [hwriting]; simp)
        have hcinside := preorder_trans template he (mem_preorder_of_child hc c.self_mem_preorder)
        rcases ih c hc hcinside (orphans_of_child horphans hc) _ hinside with
          ⟨hclosed, hfirst⟩ | hcause | hcause
        · exact Or.inr
            (strands_before_child htemplate he horphans hwriting hfirst hcontinues hclosed)
        · exact Or.inr (Or.inl (hcause.of_child hc))
        · exact Or.inr (Or.inr (hcause.of_child hc))

/-!
# The causes suffice
-/

theorem fragments_writing (t : Text) (e : Element) :
    e.fragments t = ((e.writing t).map (Item.map fun c => c.fragments t)).flatMap Item.fragments ++
      Item.closings (e.writing t) := by
  have hclosings := Item.closings_map (fun c : Element => c.fragments t) (e.writing t)
  rw [writing_map] at hclosings
  rw [fragments_eq, Item.blockFragments, fragmentItems, hclosings, writing_map]

theorem fragments_of_writesFirst (h : e.WritesFirst t x) (hcontinues : x.continuesBranch = true) :
    exists rest, e.fragments t = .opening x :: rest := by
  rcases h with ⟨rest, hwriting⟩
  have hhead : Fragment.ofExpression x = .opening x :=
    if_pos (Expression.opensBlock_of_continuesBranch hcontinues)
  rw [fragments_writing, hwriting, List.map_cons, List.flatMap_cons, Item.map_expression,
    Item.fragments, hhead]
  exact ⟨_, rfl⟩

theorem mem_stranded_of_part (he : e ∈ template.preorder) {front back : List Fragment}
    (hpart : e.fragments t = front ++ .opening x :: back) (hcontinues : x.continuesBranch = true)
    (hclosed : forall isOpen, (Fragment.walk isOpen front).isOpen = false) :
    x ∈ template.stranded t := by
  rcases fragments_part template he with ⟨before, after, hfragments⟩
  apply mem_stranded.mpr
  refine ⟨before ++ front, back ++ after, ?_, hcontinues, ?_⟩
  · rw [hfragments, hpart]
    simp
  · rw [Fragment.walk_append]
    exact hclosed _

end Element

namespace Fragment

theorem walk_ofExpression (isOpen : Bool) (front : List Fragment) (y : Expression) :
    (walk isOpen (front ++ [ofExpression y])).isOpen = false := by
  rw [walk_append]
  unfold ofExpression
  split <;> rfl

end Fragment

theorem Document.Strands.mem_stranded {template : Element} {x : Expression}
    (h : Strands t template x) (hcontinues : x.continuesBranch = true) :
    x ∈ template.stranded t := by
  have hhead : Fragment.ofExpression x = .opening x :=
    if_pos (Expression.opensBlock_of_continuesBranch hcontinues)
  cases h with
  | @preceded e y before after he hwriting =>
      have hfragments := e.fragments_writing t
      rw [hwriting] at hfragments
      simp only [List.map_append, List.map_cons, Item.map_expression, List.flatMap_append,
        List.flatMap_cons, Item.fragments, hhead, List.singleton_append, List.append_assoc]
        at hfragments
      rw [List.cons_append, List.append_cons] at hfragments
      exact Element.mem_stranded_of_part he hfragments hcontinues
        fun isOpen => Fragment.walk_ofExpression isOpen _ y
  | @interpolated e c y before after he hwriting hkind hfirst =>
      rcases Element.fragments_of_writesFirst hfirst hcontinues with ⟨rest, hrest⟩
      have hfragments := e.fragments_writing t
      rw [hwriting] at hfragments
      simp only [List.map_append, List.map_cons, Item.map_expression, Item.map_child,
        List.flatMap_append, List.flatMap_cons, Item.fragments, hrest, List.singleton_append,
        List.append_assoc] at hfragments
      rw [List.cons_append, List.append_cons] at hfragments
      exact Element.mem_stranded_of_part he hfragments hcontinues
        fun isOpen => Fragment.walk_ofExpression isOpen _ y
  | @unbranched e s c y before after he hwriting hleaves hopener hkind hfirst =>
      rcases Element.fragments_of_writesFirst hfirst hcontinues with ⟨rest, hrest⟩
      have hfragments := e.fragments_writing t
      rw [hwriting] at hfragments
      simp only [List.map_append, List.map_cons, Item.map_child, List.flatMap_append,
        List.flatMap_cons, Item.fragments, hrest, List.append_assoc] at hfragments
      rw [← List.append_assoc] at hfragments
      refine Element.mem_stranded_of_part he hfragments hcontinues ?_
      intro isOpen
      have hlast : y.leavesBranchOpen = false := by
        rcases hkind with hkind | hkind <;> rw [Expression.leavesBranchOpen, hkind] <;> rfl
      rw [Fragment.walk_append, s.fragments_writing, Fragment.walk_append, Item.walk_closings,
        ← Element.opener?, hopener]
      exact hlast

variable {template : Element} {x : Expression}

/--
A continuation of a template without orphans is stranded only if the template itself writes it
first, if something else is written directly before it, or if the element before it does not open
a branch first; and it always is for one of these causes, unless that element opens no block.
-/
theorem Document.stranded_of_unorphaned (htemplate : (ofText t).template? = some template)
    (horphans : template.orphans t = []) :
    (x ∈ template.stranded t ->
      template.WritesFirst t x ∨ Strands t template x ∨ FollowsValueless t template x) ∧
    (x.continuesBranch = true -> template.WritesFirst t x ∨ Strands t template x ->
      x ∈ template.stranded t) := by
  constructor
  · intro hx
    have hcauses := Element.stranded_causes htemplate template.self_mem_preorder horphans false hx
    exact hcauses.imp_left And.right
  · intro hcontinues hcause
    rcases hcause with hfirst | hcause
    · rcases Element.fragments_of_writesFirst hfirst hcontinues with ⟨rest, hrest⟩
      exact Element.mem_stranded.mpr ⟨[], rest, hrest, hcontinues, rfl⟩
    · exact hcause.mem_stranded hcontinues

/-- A loop is opened before the condition that is continued, and an interpolation stands between. -/
example : ["<template><p v-if=\"a\" v-for=\"b in c\"></p><p v-else></p></template>",
    "<template><p v-if=\"a\"></p>\x7b\x7b b \x7d\x7d<p v-else></p></template>"].all (fun text =>
      (Document.ofText text.toList).template?.any fun template =>
        template.orphans text.toList = [] ∧ (template.stranded text.toList).length = 1) = true := by
  decide +kernel

end SfcServer
