import SfcServer.Proofs.Markup.Finding
import SfcServer.Proofs.Markup.Rescan
import SfcServer.Proofs.Template.Sequence

/-!
# What an element collects

The expressions of an element are read off segments: the first one holds its start tag,
and one follows after each child.  A segment is scanned on its own, so it has the tokens
of the whole text only when it begins outside of tags.  The values of bound attributes
are always collected; content is collected unless its segment is read from a wrong place.
-/

namespace SfcServer

/-- Among tokens, a value follows the name of an attribute, with no other one between. -/
def ValueOf (tokens : List Token) (name value : Token) : Prop :=
  exists before middle after, tokens = before ++ name :: (middle ++ value :: after) ∧
    name.kind = .attributeName ∧ value.kind = .attributeValue ∧
    forall token, token ∈ middle -> token.kind ≠ .attributeName ∧ token.kind ≠ .attributeValue

namespace Expression

def readingAfter (reading : TagReading) (tokens : List Token) : TagReading :=
  tokens.foldl (fun reading token => (readToken reading token).2) reading

theorem readTokens_cons (reading : TagReading) (token : Token) (rest : List Token) :
    readTokens reading (token :: rest) =
      (readToken reading token).1 ++ readTokens (readToken reading token).2 rest := rfl

theorem readTokens_append (reading : TagReading) (front back : List Token) :
    readTokens reading (front ++ back) =
      readTokens reading front ++ readTokens (readingAfter reading front) back := by
  induction front generalizing reading with
  | nil =>
      rfl
  | cons token front ih =>
      rw [List.cons_append, readTokens_cons, readTokens_cons, ih, List.append_assoc]
      rfl

theorem readToken_closed (reading : TagReading) {token : Token}
    (h : token.kind = .startTagClose ∨ token.kind = .startTagSelfClose) :
    (readToken reading token).2 = .past := by
  cases reading with
  | plain =>
      rw [readToken, if_pos h]
  | bound name nameStop =>
      rcases h with h | h <;> simp [readToken, h]
  | past =>
      rfl

theorem mem_readTokens_past {tokens : List Token} {token : Token} (hmem : token ∈ tokens)
    (hkind : token.kind = .content) {x : Expression} (hx : x ∈ ofContent token) :
    x ∈ readTokens .past tokens := by
  induction tokens with
  | nil =>
      cases hmem
  | cons first rest ih =>
      rw [readTokens_cons]
      rcases List.mem_cons.mp hmem with heq | hrest
      · subst heq
        apply List.mem_append_left
        simp only [readToken, hkind, if_true]
        exact hx
      · exact List.mem_append_right _ (ih hrest)

theorem readingAfter_bound {tokens : List Token}
    (h : forall token, token ∈ tokens ->
      token.kind ≠ .startTagClose ∧ token.kind ≠ .startTagSelfClose) :
    forall name nameStop, exists later stop,
      readingAfter (.bound name nameStop) tokens = .bound later stop := by
  induction tokens with
  | nil =>
      intro name nameStop
      exact ⟨name, nameStop, rfl⟩
  | cons token tokens ih =>
      intro name nameStop
      have hstep : exists later stop,
          (readToken (.bound name nameStop) token).2 = .bound later stop := by
        have hkinds := h token List.mem_cons_self
        cases hkind : token.kind <;> simp_all [readToken]
      rcases hstep with ⟨later, stop, hstep⟩
      rw [readingAfter, List.foldl_cons, hstep]
      exact ih (fun other hother => h other (List.mem_cons_of_mem _ hother)) later stop

theorem readingAfter_kept {tokens : List Token} {name : Option Text} {nameStop : Nat}
    (h : forall token, token ∈ tokens ->
      token.kind.inHead = true ∧ token.kind ≠ .attributeName ∧ token.kind ≠ .attributeValue) :
    readingAfter (.bound name nameStop) tokens = .bound name nameStop := by
  induction tokens with
  | nil =>
      rfl
  | cons token tokens ih =>
      have hstep : (readToken (.bound name nameStop) token).2 = .bound name nameStop := by
        have hkinds := h token List.mem_cons_self
        cases hkind : token.kind <;> simp_all [readToken, TokenKind.inHead]
      rw [readingAfter, List.foldl_cons, hstep]
      exact ih fun other hother => h other (List.mem_cons_of_mem _ hother)

theorem mem_readTokens_value {before middle after : List Token} {name value : Token}
    (hbefore : forall token, token ∈ before ->
      token.kind ≠ .startTagClose ∧ token.kind ≠ .startTagSelfClose)
    (hname : name.kind = .attributeName) (hbinding : Directive.isBinding name.text = true)
    (hmiddle : forall token, token ∈ middle ->
      token.kind.inHead = true ∧ token.kind ≠ .attributeName ∧ token.kind ≠ .attributeValue)
    (hvalue : value.kind = .attributeValue) {x : Expression}
    (hx : ofAttribute name.text (some value) name.stop = some x)
    (earlier : Option Text) (earlierStop : Nat) :
    x ∈ readTokens (.bound earlier earlierStop) (before ++ name :: (middle ++ value :: after)) := by
  rcases readingAfter_bound hbefore earlier earlierStop with ⟨other, otherStop, hreading⟩
  have hbound : (readToken (.bound other otherStop) name).2 =
      .bound (some name.text) name.stop := by
    simp [readToken, hname, hbinding]
  have hfound : (readToken (.bound (some name.text) name.stop) value).1 = [x] := by
    simp [readToken, hvalue, hx]
  rw [readTokens_append, hreading]
  apply List.mem_append_right
  rw [readTokens_cons, hbound]
  apply List.mem_append_right
  rw [readTokens_append, readingAfter_kept hmiddle]
  apply List.mem_append_right
  rw [readTokens_cons, hfound]
  exact List.mem_append_left _ List.mem_cons_self

end Expression

/-!
# The first segment
-/

theorem headTokens_inHead {t : Text} {start : Nat} {token : Token}
    (h : token ∈ headTokens t start) : token.kind.inHead = true := by
  exact List.all_eq_true.mp List.all_takeWhile token h

theorem Opens.tokens_eq {t : Text} {start : Nat} (h : Opens t start) :
    scanFrom .content start (t.drop start) =
      (⟨.startTagOpen, ['<'], start⟩ :: headTokens t start) ++ afterHead t start := by
  rw [headTokens, afterHead, List.cons_append, List.takeWhile_append_dropWhile, h.scanFrom_eq]
  rfl

theorem Opens.headStop_bounds {t : Text} {start : Nat} (h : Opens t start) :
    (forall token, token ∈ (⟨.startTagOpen, ['<'], start⟩ : Token) :: headTokens t start ->
      start ≤ token.offset ∧ token.offset < token.stop ∧ token.stop ≤ headStop t start) ∧
    forall token, token ∈ afterHead t start -> headStop t start ≤ token.offset := by
  have htiled := scanFrom_tiled .content start (t.drop start)
  rw [h.tokens_eq] at htiled
  rcases htiled.split with ⟨first, rest, hdrop, hhead, hafter⟩
  have hle := h.reaches.le
  have hlength := congrArg List.length hdrop
  rw [List.length_drop, List.length_append] at hlength
  have hstop : headStop t start = start + first.length := by
    unfold headStop
    cases hcase : afterHead t start with
    | nil =>
        rw [hcase] at hafter
        cases hafter
        simp only [List.length_nil] at hlength ⊢
        omega
    | cons next later =>
        rw [hcase] at hafter
        cases hafter
        rfl
  rw [hstop]
  constructor
  · intro token hmem
    exact hhead.mem_bounds hmem
  · intro token hmem
    exact (hafter.mem_bounds hmem).1

theorem Opens.scan_eq {t : Text} {start stop : Nat} (h : Opens t start) (hcut : Cut t stop)
    (hle : headStop t start ≤ stop) :
    exists rest back, afterHead t start = rest ++ back ∧
      scan t start stop = (⟨.startTagOpen, ['<'], start⟩ :: headTokens t start) ++ rest := by
  have hlt := h.lt_headStop
  rcases h.reaches.scanFrom_slice hcut (by omega) with ⟨back, htokens, hback⟩
  rw [h.tokens_eq] at htokens
  rcases List.append_eq_append_iff.mp htokens with ⟨rest, hscan, hafter⟩ | ⟨more, hhead, hlater⟩
  · exact ⟨rest, back, hafter, hscan⟩
  · cases more with
    | nil =>
        refine ⟨[], afterHead t start, rfl, ?_⟩
        rw [hhead, List.append_nil, List.append_nil]
        rfl
    | cons token more =>
        exfalso
        have hmem : token ∈ (⟨.startTagOpen, ['<'], start⟩ : Token) :: headTokens t start := by
          rw [hhead]
          exact List.mem_append_right _ List.mem_cons_self
        have hbounds := h.headStop_bounds.1 token hmem
        have hoffset := hback token (by rw [hlater]; exact List.mem_cons_self)
        omega

namespace Element

def firstStop (e : Element) : Nat :=
  match e.children with
  | [] => e.contentStop
  | c :: _ => c.start

variable {t : Text} {e : Element}

theorem mem_expressions_of_first {x : Expression}
    (h : x ∈ Expression.readTokens e.startReading (scan t e.start e.firstStop)) :
    x ∈ e.expressions t := by
  rw [expressions_eq, itemsWith, placed]
  unfold firstStop at h
  cases hchildren : e.children with
  | nil =>
      rw [hchildren] at h
      simp only [List.map_nil, Item.among, flatten_ofSegment]
      exact h
  | cons c rest =>
      rw [hchildren] at h
      simp only [List.map_cons, Item.among, flatten_append, flatten_ofSegment]
      exact List.mem_append_left _ h

theorem Recorded.first_cut (h : e.Recorded t)
    (hchildren : Laid t (headStop t e.start) e.contentStop e.children) :
    Cut t e.firstStop ∧ headStop t e.start ≤ e.firstStop := by
  unfold firstStop
  cases hcase : e.children with
  | nil =>
      exact ⟨h.cut_contentStop, h.head_le⟩
  | cons c rest =>
      rw [hcase] at hchildren
      exact ⟨(hchildren.mem List.mem_cons_self).1.opens.reaches.cut,
        hchildren.low_le List.mem_cons_self⟩

/-- A value is written for an attribute in the start tag of an element. -/
def Writes (t : Text) (e : Element) (name value : Token) : Prop :=
  ValueOf (headTokens t e.start) name value

theorem value_collected (hrecorded : e.Recorded t)
    (hchildren : Laid t (headStop t e.start) e.contentStop e.children) {name value : Token}
    (h : e.Writes t name value) (hbinding : Directive.isBinding name.text = true)
    {x : Expression} (hx : Expression.ofAttribute name.text (some value) name.stop = some x) :
    x ∈ e.expressions t := by
  rcases h with ⟨before, middle, after, hhead, hname, hvalue, hmiddle⟩
  have hinHead : forall token, token ∈ before ++ name :: (middle ++ value :: after) ->
      token.kind.inHead = true := by
    intro token hmem
    rw [← hhead] at hmem
    exact headTokens_inHead hmem
  have hreading : e.startReading = .bound none e.start := by
    have hmem : name ∈ headTokens t e.start := by
      rw [hhead]
      exact List.mem_append_right _ List.mem_cons_self
    rcases hrecorded.named name hmem hname with ⟨a, ha, haname⟩
    have hstatic : e.isStatic = false := by
      simp only [isStatic, Bool.not_eq_false', List.any_eq_true]
      exact ⟨a, ha, by rw [haname]; exact hbinding⟩
    simp [startReading, hstatic]
  rcases hrecorded.first_cut hchildren with ⟨hcut, hle⟩
  rcases hrecorded.opens.scan_eq hcut hle with ⟨rest, _, _, hscan⟩
  apply mem_expressions_of_first
  have htokens : (⟨.startTagOpen, ['<'], e.start⟩ :: headTokens t e.start) ++ rest =
      (⟨.startTagOpen, ['<'], e.start⟩ :: before) ++
        name :: (middle ++ value :: (after ++ rest)) := by
    rw [hhead]
    simp
  rw [hscan, hreading, htokens]
  refine Expression.mem_readTokens_value ?_ hname hbinding ?_ hvalue hx _ _
  · intro token hmem
    rcases List.mem_cons.mp hmem with heq | hbefore
    · rw [heq]
      simp
    · have hkind := hinHead token (List.mem_append_left _ hbefore)
      constructor <;> intro heq <;> rw [heq] at hkind <;> cases hkind
  · intro token hmem
    refine ⟨hinHead token ?_, hmiddle token hmem⟩
    exact List.mem_append_right _ (List.mem_cons_of_mem _ (List.mem_append_left _ hmem))

theorem content_collected_first (hrecorded : e.Recorded t)
    (hchildren : Laid t (headStop t e.start) e.contentStop e.children)
    (hclosed : e.startTagEnd ≠ none) {token : Token} (hmem : token ∈ tokensOf t)
    (hkind : token.kind = .content) (hlow : e.start ≤ token.offset)
    (hhigh : token.offset < e.firstStop) {x : Expression} (hx : x ∈ Expression.ofContent token) :
    x ∈ e.expressions t := by
  rcases hrecorded.first_cut hchildren with ⟨hcut, hle⟩
  rcases hrecorded.opens.scan_eq hcut hle with ⟨rest, back, hafter, hscan⟩
  rcases Option.ne_none_iff_exists'.mp hclosed with ⟨stop, hstop⟩
  rcases hrecorded.closes stop hstop with ⟨close, later, hclose, hcloseKind, _⟩
  have hpart : token ∈ scan t e.start e.firstStop :=
    (hrecorded.opens.reaches.mem_scan hcut).mpr ⟨hmem, hlow, hhigh⟩
  have hrest : token ∈ rest := by
    rw [hscan] at hpart
    rcases List.mem_append.mp hpart with hhead | hrest
    · rcases List.mem_cons.mp hhead with heq | hhead
      · rw [heq] at hkind
        cases hkind
      · have hin := headTokens_inHead hhead
        rw [hkind] at hin
        cases hin
    · exact hrest
  apply mem_expressions_of_first
  rw [hscan]
  cases rest with
  | nil =>
      cases hrest
  | cons first rest =>
      rw [hclose, List.cons_append] at hafter
      injection hafter with hfirst _
      subst hfirst
      rw [Expression.readTokens_append]
      apply List.mem_append_right
      rw [Expression.readTokens_cons, Expression.readToken_closed _ hcloseKind]
      apply List.mem_append_right
      rcases List.mem_cons.mp hrest with heq | hlater
      · rw [← heq, hkind] at hcloseKind
        rcases hcloseKind with hcase | hcase <;> cases hcase
      · exact Expression.mem_readTokens_past hlater hkind hx

end Element

/-!
# The segments between children
-/

def Mended (t : Text) (es : List Element) (token : Token) : Prop :=
  forall c, c ∈ es -> c.EndsBroken t -> c.stop ≤ token.offset ->
    exists d, d ∈ es ∧ c.stop ≤ d.start ∧ d.stop ≤ token.offset

/-- Content between siblings is collected unless its segment begins in a broken end tag. -/
theorem Laid.content_collected {t : Text} {low high : Nat} {es : List Element}
    (h : Laid t low high es) (hcut : Cut t high) {token : Token} (hmem : token ∈ tokensOf t)
    (hkind : token.kind = .content) (hhigh : token.offset < high) :
    forall reading start, start ≤ low -> start ≤ token.offset ->
      (forall c, c ∈ es -> token.offset < c.start ∨ c.stop ≤ token.offset) ->
      Mended t es token ->
      ((reading = .past ∧ Reaches t .content start) ∨
        exists d, d ∈ es ∧ d.stop ≤ token.offset) ->
      forall x, x ∈ Expression.ofContent token ->
        x ∈ Element.flatten (Item.among t reading start high
          (es.map fun c => ⟨c.start, c.stop, c.expressions t⟩)) := by
  induction h with
  | nil low high =>
      intro reading start _ hstart _ _ hfresh x hx
      simp only [List.map_nil, Item.among, Element.flatten_ofSegment]
      rcases hfresh with ⟨hpast, hreaches⟩ | ⟨d, hd, _⟩
      · subst hpast
        exact Expression.mem_readTokens_past
          ((hreaches.mem_scan hcut).mpr ⟨hmem, hstart, hhigh⟩) hkind hx
      · cases hd
  | @cons low high e rest hlow _ hrecorded _ hrest _ ihrest =>
      intro reading start hbelow hstart houtside hmended hfresh x hx
      have hspan := hrecorded.start_lt
      have hstop := hrecorded.content_le
      simp only [List.map_cons, Item.among, Element.flatten_append, Element.flatten_child,
        Element.flatten_ofSegment]
      rcases houtside e List.mem_cons_self with hbefore | hafter
      · apply List.mem_append_left
        rcases hfresh with ⟨hpast, hreaches⟩ | ⟨d, hd, hdstop⟩
        · subst hpast
          exact Expression.mem_readTokens_past
            ((hreaches.mem_scan hrecorded.opens.reaches.cut).mpr ⟨hmem, hstart, hbefore⟩) hkind hx
        · exfalso
          rcases List.mem_cons.mp hd with heq | hdrest
          · rw [heq] at hdstop
            omega
          · have hdlow := hrest.low_le hdrest
            have hdspan := (hrest.mem hdrest).1.start_lt
            have hdcontent := (hrest.mem hdrest).1.content_le
            omega
      · apply List.mem_append_right
        apply List.mem_append_right
        have hmax : max start e.stop = e.stop := by omega
        rw [hmax]
        -- What mends a break behind `e` stands behind `e` too.
        have hlater : forall d, d ∈ e :: rest -> e.stop ≤ d.start -> d ∈ rest := by
          intro d hd hle
          rcases List.mem_cons.mp hd with heq | hdrest
          · rw [heq] at hle
            omega
          · exact hdrest
        refine ihrest hcut hhigh .past e.stop (Nat.le_refl _) hafter ?_ ?_ ?_ x hx
        · intro c hc
          exact houtside c (List.mem_cons_of_mem _ hc)
        · intro c hc hbroken hcstop
          rcases hmended c (List.mem_cons_of_mem _ hc) hbroken hcstop with ⟨d, hd, hcd, hdstop⟩
          have hcspan := (hrest.mem hc).1.start_lt
          have hccontent := (hrest.mem hc).1.content_le
          have hclow := hrest.low_le hc
          exact ⟨d, hlater d hd (by omega), hcd, hdstop⟩
        · rcases hrecorded.ended with hreaches | hbroken
          · exact Or.inl ⟨rfl, hreaches⟩
          · rcases hmended e List.mem_cons_self hbroken hafter with ⟨d, hd, hed, hdstop⟩
            exact Or.inr ⟨d, hlater d hd hed, hdstop⟩

/-!
# All of the content of an element
-/

namespace Element

/--
An offset that no segment is read at from a good place: behind a start tag that is never
closed, or behind a child whose end tag is broken off.
-/
def Unread (t : Text) (e : Element) (offset : Nat) : Prop :=
  (e.startTagEnd = none ∧ forall c, c ∈ e.children -> offset ≤ c.start) ∨
    exists c, c ∈ e.children ∧ c.EndsBroken t ∧ c.stop ≤ offset ∧
      forall d, d ∈ e.children -> d.start < offset -> d.start ≤ c.start

variable {t : Text} {e : Element}

theorem firstStop_le (hchildren : Laid t (headStop t e.start) e.contentStop e.children)
    {c : Element} (hc : c ∈ e.children) : e.firstStop ≤ c.start := by
  unfold firstStop
  cases hcase : e.children with
  | nil =>
      rw [hcase] at hc
      cases hc
  | cons first rest =>
      rw [hcase] at hc hchildren
      have hfirst : first ∈ first :: rest := List.mem_cons_self
      have hspan := (hchildren.mem hfirst).1.start_lt
      have hstop := (hchildren.mem hfirst).1.content_le
      rcases List.mem_cons.mp hc with heq | hrest
      · exact Nat.le_of_eq (congrArg Element.start heq.symm)
      · cases hchildren with
        | cons _ _ _ _ hlaid =>
            have hlow := hlaid.low_le hrest
            exact Nat.le_trans (Nat.le_of_lt (Nat.lt_of_lt_of_le hspan hstop)) hlow

/-- The content of an element outside of its children is collected, or it is not read well. -/
theorem content_collected (hrecorded : e.Recorded t)
    (hchildren : Laid t (headStop t e.start) e.contentStop e.children) {token : Token}
    (hmem : token ∈ tokensOf t) (hkind : token.kind = .content) (hlow : e.start ≤ token.offset)
    (hhigh : token.offset < e.contentStop)
    (houtside : forall c, c ∈ e.children -> token.offset < c.start ∨ c.stop ≤ token.offset)
    {offset : Nat} (hle : token.offset ≤ offset) (hstop : offset ≤ token.stop) :
    (forall x, x ∈ Expression.ofContent token -> x ∈ e.expressions t) ∨ e.Unread t offset := by
  have hbefore : forall c, c ∈ e.children -> token.offset < c.start -> offset ≤ c.start := by
    intro c hc hlt
    have hcut := (hchildren.mem hc).1.opens.reaches.cut
    exact Nat.le_trans hstop (hcut.stop_le token hmem hlt)
  have hspan : forall c, c ∈ e.children -> c.start < c.stop := by
    intro c hc
    exact Nat.lt_of_lt_of_le (hchildren.mem hc).1.start_lt (hchildren.mem hc).1.content_le
  -- Only the first segment is read from a start tag on; the others are all content.
  by_cases hfirst : token.offset < e.firstStop
  · by_cases hclosed : e.startTagEnd = none
    · refine Or.inr (Or.inl ⟨hclosed, ?_⟩)
      intro c hc
      exact hbefore c hc (Nat.lt_of_lt_of_le hfirst (firstStop_le hchildren hc))
    · refine Or.inl ?_
      intro x hx
      exact content_collected_first hrecorded hchildren hclosed hmem hkind hlow hfirst hx
  · by_cases hmended : Mended t e.children token
    · refine Or.inl ?_
      intro x hx
      have hbehind : exists d, d ∈ e.children ∧ d.stop ≤ token.offset := by
        unfold firstStop at hfirst
        cases hcase : e.children with
        | nil =>
            rw [hcase] at hfirst
            exact absurd hhigh hfirst
        | cons first rest =>
            rw [hcase] at hfirst houtside
            refine ⟨first, List.mem_cons_self, ?_⟩
            exact (houtside first List.mem_cons_self).resolve_left hfirst
      have hstart := hrecorded.opens.lt_headStop
      rw [expressions_eq]
      exact hchildren.content_collected hrecorded.cut_contentStop hmem hkind hhigh e.startReading
        e.start (Nat.le_of_lt hstart) hlow houtside hmended (Or.inr hbehind) x hx
    · refine Or.inr (Or.inr ?_)
      simp only [Mended, Classical.not_forall, not_exists, not_and] at hmended
      rcases hmended with ⟨c, hc, hbroken, hcstop, hnone⟩
      refine ⟨c, hc, hbroken, Nat.le_trans hcstop hle, ?_⟩
      intro d hd hdoffset
      rcases hchildren.siblings hc hd with heq | hcd | hdc
      · exact Nat.le_of_eq (congrArg Element.start heq.symm)
      · exfalso
        rcases houtside d hd with hlt | hge
        · exact Nat.not_le_of_lt hdoffset (hbefore d hd hlt)
        · exact hnone d hd hcd hge
      · exact Nat.le_of_lt (Nat.lt_of_lt_of_le (hspan d hd) hdc)

theorem expressions_of_preorder {x : Expression} (root : Element) :
    e ∈ root.preorder -> x ∈ e.expressions t -> x ∈ root.expressions t := by
  induction root using Element.induction_on with
  | h root ih =>
      intro he hx
      rcases mem_preorder he with heq | ⟨c, hc, hinside⟩
      · rw [← heq]
        exact hx
      · have hchild := mem_itemsWith_of_mem t (fun c => c.expressions t) hc
        rw [expressions_eq, flatten, List.mem_flatMap]
        exact ⟨_, hchild, ih c hc hinside hx⟩

end Element

end SfcServer
