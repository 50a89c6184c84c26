import SfcServer.Proofs.Markup.StartTags
import SfcServer.Proofs.Template.Collecting
import SfcServer.Proofs.Template.Interpolations

/-!
# Expression regions and collected expressions

The region of an offset is decided by the tokens of the innermost element there, while
expressions are collected by segments of all elements.  Both agree: what is called an
expression lies in a collected one, or at one of a few places that are named here.
-/

namespace SfcServer

namespace Region

/-- The name that a value would belong to is the last one that was read. -/
def Named (read : List Token) (name : Option Text) : Prop :=
  forall n, name = some n -> exists before token middle,
    read = before ++ token :: middle ∧ token.kind = .attributeName ∧ token.text = n ∧
      forall other, other ∈ middle -> other.kind ≠ .attributeName ∧ other.kind ≠ .attributeValue

theorem Named.keep {read : List Token} {name : Option Text} (h : Named read name) {token : Token}
    (hkind : token.kind ≠ .attributeName ∧ token.kind ≠ .attributeValue) :
    Named (read ++ [token]) name := by
  intro n hn
  rcases h n hn with ⟨before, first, middle, hread, hfirst, htext, hmiddle⟩
  refine ⟨before, first, middle ++ [token], by rw [hread]; simp, hfirst, htext, ?_⟩
  intro other hother
  rcases List.mem_append.mp hother with hin | hlast
  · exact hmiddle other hin
  · rw [List.mem_singleton.mp hlast]
    exact hkind

/-- A start tag decides by the value of a bound attribute, or leaves it to what follows. -/
theorem ofTokens_head {offset : Nat} {rest : List Token} (head : List Token) :
    forall (read : List Token) (name : Option Text),
      (forall token, token ∈ head -> token.kind.inHead = true) -> Named read name ->
      ofTokens offset name (head ++ rest) = .expression ->
      (exists first value, ValueOf (read ++ head) first value ∧
        Directive.isBinding first.text = true ∧ inValue value offset = true) ∨
      exists later, ofTokens offset later rest = .expression := by
  induction head with
  | nil =>
      intro read name _ _ h
      exact Or.inr ⟨name, h⟩
  | cons token head ih =>
      intro read name hhead hnamed h
      have hkind := hhead token List.mem_cons_self
      have hrest := fun name => ih (read ++ [token]) name
        fun other hother => hhead other (List.mem_cons_of_mem _ hother)
      rw [List.append_cons]
      rw [List.cons_append, ofTokens] at h
      split at h
      · cases h
      · cases hcase : token.kind with
        | attributeName =>
            simp only [hcase] at h
            refine hrest (some token.text) ?_ h
            intro n hn
            injection hn with hn
            exact ⟨read, token, [], rfl, hcase, hn, by intro other hother; cases hother⟩
        | attributeValue =>
            simp only [hcase] at h
            split at h
            · rename_i hvalue
              split at h
              · rename_i hbinding
                cases name with
                | none =>
                    cases hbinding
                | some n =>
                    rcases hnamed n rfl with
                      ⟨before, first, middle, hread, hfirst, htext, hmiddle⟩
                    refine Or.inl ⟨first, token, ⟨before, middle, head, ?_, hfirst, hcase, hmiddle⟩,
                      ?_, hvalue⟩
                    · rw [hread]
                      simp
                    · rw [htext]
                      exact hbinding
              · cases h
            · refine hrest Option.none ?_ h
              intro n hn
              cases hn
        | startTag =>
            simp only [hcase] at h
            exact hrest name (hnamed.keep (by simp [hcase])) h
        | delimiterAssign =>
            simp only [hcase] at h
            exact hrest name (hnamed.keep (by simp [hcase])) h
        | whitespace =>
            simp only [hcase] at h
            exact hrest name (hnamed.keep (by simp [hcase])) h
        | unknown =>
            simp only [hcase] at h
            exact hrest name (hnamed.keep (by simp [hcase])) h
        | _ =>
            rw [hcase] at hkind
            cases hkind

/-- An offset lies in a value or in an interpolation that a token holds. -/
def HeldBy (offset : Nat) (token : Token) : Prop :=
  token.offset ≤ offset ∧
    ((token.kind = .attributeValue ∧ inValue token offset = true) ∨
      (token.kind = .content ∧ offset ≤ token.stop ∧
        inInterpolation token.text (offset - token.offset) = true))

theorem ofTokens_held {offset : Nat} {name : Option Text} {tokens : List Token}
    (h : ofTokens offset name tokens = .expression) :
    exists token, token ∈ tokens ∧ HeldBy offset token := by
  induction tokens generalizing name with
  | nil =>
      cases h
  | cons token rest ih =>
      have hlater : forall name, ofTokens offset name rest = .expression ->
          exists other, other ∈ token :: rest ∧ HeldBy offset other := by
        intro name hrest
        rcases ih hrest with ⟨other, hmem, hheld⟩
        exact ⟨other, List.mem_cons_of_mem _ hmem, hheld⟩
      rw [ofTokens] at h
      split at h
      · cases h
      · rename_i hoffset
        have hle : token.offset ≤ offset := by omega
        split at h
        · exact hlater _ h
        · rename_i hkind
          split at h
          · rename_i hvalue
            exact ⟨token, List.mem_cons_self, hle, Or.inl ⟨hkind, hvalue⟩⟩
          · exact hlater _ h
        · exact hlater _ h
        · exact hlater _ h
        · rename_i hkind
          split at h
          · rename_i hinside
            rw [Bool.and_eq_true, decide_eq_true_eq] at hinside
            exact ⟨token, List.mem_cons_self, hle, Or.inr ⟨hkind, hinside⟩⟩
          · exact hlater _ h
        · exact hlater _ h

theorem inValue_bounds {t : Text} {value : Token} {offset : Nat} (hmem : value ∈ tokensOf t)
    (hkind : value.kind = .attributeValue) (h : inValue value offset = true)
    (hle : offset ≤ t.length) (name : Text) :
    (Expression.ofValue name value).start ≤ offset ∧
      offset ≤ (Expression.ofValue name value).stop ∧ offset ≤ value.stop := by
  rcases (tokensOf_tiled t).mem hmem with ⟨_, _, _, _, hnonempty⟩
  rcases Expression.ofValue_cases name hnonempty with ⟨c, rest, htext, hcases⟩
  have hquoted : Attribute.isQuote c = true ↔ (c = Text.singleQuote ∨ c = Text.doubleQuote) := by
    simp [Attribute.isQuote, or_comm]
  unfold inValue at h
  rw [htext] at h
  simp only at h
  rcases hcases with ⟨hquote, heq⟩ | ⟨hquote, hlast, heq⟩ | ⟨hquote, hlast, heq⟩
  · rw [if_neg (by rw [← hquoted, hquote]; simp)] at h
    simp only [Bool.and_eq_true, decide_eq_true_eq] at h
    rw [heq]
    exact ⟨h.1, h.2, h.2⟩
  · rw [if_pos (hquoted.mp hquote)] at h
    simp only [Bool.and_eq_true, Bool.or_eq_true, decide_eq_true_eq, hlast, decide_true,
      Bool.not_true, Bool.false_eq_true, or_false] at h
    rw [heq]
    simp only
    omega
  · rw [if_pos (hquoted.mp hquote)] at h
    rw [Bool.and_eq_true, decide_eq_true_eq] at h
    have hstop := value_stop_eq hmem hkind htext hquote hlast
    rw [heq]
    simp only
    omega

end Region

theorem Opens.lt_of_mem_head {t : Text} {start : Nat} (h : Opens t start) {token : Token}
    (hmem : token ∈ headTokens t start) : start < token.offset := by
  have hlater : token ∈ scanFrom .afterOpen (start + 1) (t.drop (start + 1)) := by
    have htail := (List.takeWhile_sublist _).subset hmem
    rw [h.scanFrom_eq] at htail
    exact htail
  exact ((scanFrom_tiled _ _ _).mem_bounds hlater).1

theorem Opens.unique {t : Text} {start other : Nat} (h : Opens t start) (hother : Opens t other)
    {token : Token} (hmem : token ∈ headTokens t start) (hle : start ≤ other)
    (hlt : other < token.offset) : other = start := by
  have hopen := h.reaches.mem_of_le hother.open_mem hle
  rw [h.tokens_eq] at hopen
  rcases List.mem_append.mp hopen with hhead | hafter
  · rcases List.mem_cons.mp hhead with heq | hhead
    · injection heq
    · have hkind := headTokens_inHead hhead
      cases hkind
  · have hstop := h.headStop_bounds.2 _ hafter
    have hbounds := h.headStop_bounds.1 token (List.mem_cons_of_mem _ hmem)
    simp only at hstop
    omega

/-- A value at an offset stands in the start tag of the innermost element there. -/
theorem Document.value_in_head {t : Text} {offset : Nat} {e : Element} {token : Token}
    (he : (Document.ofText t).elementAt? offset = some e) (hopens : Opens t e.start)
    (hmem : token ∈ tokensOf t) (hkind : token.kind = .attributeValue)
    (hlow : e.start < token.offset) (hle : token.offset ≤ offset) (hstop : offset ≤ token.stop) :
    token ∈ headTokens t e.start := by
  rcases value_mem_headTokens hmem hkind with ⟨start, hother, hhead⟩
  have hbounds := hother.headStop_bounds.1 token (List.mem_cons_of_mem _ hhead)
  have hlt := hother.lt_of_mem_head hhead
  have hstart := Document.start_le_elementAt hother (by omega) (by omega) he
  rw [hother.unique hopens hhead hstart hlow]
  exact hhead

namespace Document

/-- An offset lies in an expression that is collected and written out. -/
def Written (t : Text) (template : Element) (offset : Nat) : Prop :=
  exists x, x ∈ template.expressions t ∧ x.kind ≠ .otherwise ∧ x.start ≤ offset ∧ offset ≤ x.stop

/-- Offsets in expression regions that lie in no expression that is written out. -/
inductive Stray (t : Text) (offset : Nat) : Prop where
  /-- Between the braces of an interpolation and its trimmed text, or behind the text. -/
  | padding {template : Element} {x : Expression} :
      (Document.ofText t).template? = some template ->
      x ∈ template.expressions t ->
      x.kind = .interpolation ->
      x.Padded t offset ->
      Stray t offset
  /-- In a value that is given to a `v-else`. -/
  | elseValue {e : Element} {name value : Token} :
      (Document.ofText t).elementAt? offset = some e ->
      e.Writes t name value ->
      name.text = "v-else".toList ->
      Region.inValue value offset = true ->
      Stray t offset
  /-- In an interpolation of the text that is not collected, since a tag before it is broken off. -/
  | unread {template e : Element} {token : Token} {x : Expression} :
      (Document.ofText t).template? = some template ->
      (Document.ofText t).elementAt? offset = some e ->
      token ∈ tokensOf t ->
      token.kind = .content ->
      x ∈ Expression.ofContent token ->
      (x.start ≤ offset ∧ offset ≤ x.stop) ∨ x.Padded t offset ->
      x ∉ template.expressions t ->
      ¬ Written t template offset ->
      e.Unread t offset ->
      Stray t offset

variable {t : Text} {template e : Element} {offset : Nat}

theorem value_at (he : (Document.ofText t).elementAt? offset = some e)
    (hinside : e ∈ template.preorder) (hrecorded : e.Recorded t)
    (hchildren : Laid t (headStop t e.start) e.contentStop e.children) {name value : Token}
    (hwrites : e.Writes t name value) (hbinding : Directive.isBinding name.text = true)
    (hvalue : Region.inValue value offset = true) (hle : offset ≤ t.length) :
    Written t template offset ∨ Stray t offset := by
  rcases hwrites with ⟨before, middle, after, hhead, hname, hkind, hmiddle⟩
  have hmem : value ∈ tokensOf t := by
    apply hrecorded.opens.reaches.mem
    rw [hrecorded.opens.tokens_eq, hhead]
    simp
  have hbounds := Region.inValue_bounds hmem hkind hvalue hle name.text
  have hwrites : e.Writes t name value := ⟨before, middle, after, hhead, hname, hkind, hmiddle⟩
  by_cases helse : ExpressionKind.ofName name.text = .otherwise
  · have htext : name.text = "v-else".toList := by
      unfold ExpressionKind.ofName at helse
      repeat' split at helse
      all_goals first | assumption | cases helse
    exact Or.inr (Stray.elseValue he hwrites htext hvalue)
  · have hattribute : Expression.ofAttribute name.text (some value) name.stop =
        some (Expression.ofValue name.text value) := by
      rw [Expression.ofAttribute, if_neg helse]
      rfl
    have hx := Element.value_collected hrecorded hchildren hwrites hbinding hattribute
    exact Or.inl ⟨_, Element.expressions_of_preorder template hinside hx, helse, hbounds.1,
      hbounds.2.1⟩

theorem content_at (htemplate : (Document.ofText t).template? = some template)
    (he : (Document.ofText t).elementAt? offset = some e) (hinside : e ∈ template.preorder)
    (hrecorded : e.Recorded t)
    (hchildren : Laid t (headStop t e.start) e.contentStop e.children)
    (hnone : Element.innermostOf offset e.children = none) {token : Token}
    (hmem : token ∈ tokensOf t) (hlow : e.start ≤ token.offset) (hhigh : token.offset < e.stop)
    (hkind : token.kind = .content) (hle : token.offset ≤ offset)
    (hinterpolation : Region.inInterpolation token.text (offset - token.offset) = true) :
    Written t template offset ∨ Stray t offset := by
  have hstands : t.StandsAt token.offset token.text := by
    rcases (tokensOf_tiled t).mem hmem with ⟨before, after, ht, hoffset, _⟩
    exact ⟨before, after, by rw [← List.append_assoc]; exact ht, by omega⟩
  rcases Expression.ofContent_around hstands hle hinterpolation with
    ⟨_, hstop, x, hx, hxkind, hxcases⟩
  have hcontent : token.offset < e.contentStop := by
    unfold Element.contentStop
    cases hend : e.endTagStart with
    | none =>
        exact hhigh
    | some start =>
        apply Nat.lt_of_not_le
        intro hstart
        exact (hrecorded.endTag start hend).ne_content hmem hstart hhigh hkind
  have houtside : forall c, c ∈ e.children ->
      token.offset < c.start ∨ c.stop ≤ token.offset := by
    intro c hc
    apply Classical.byContradiction
    intro hnot
    have hcstop := (hchildren.mem hc).1.cut_stop.stop_le token hmem (by omega)
    have hcovers : c.covers offset = true := Element.covers_iff.mpr ⟨by omega, by omega⟩
    rw [hchildren.innermostOf_of_covers hc hcovers] at hnone
    cases hnone
  by_cases hexpression : x ∈ template.expressions t
  · rcases hxcases with hcovered | hpadded
    · exact Or.inl ⟨x, hexpression, by rw [hxkind]; simp, hcovered⟩
    · exact Or.inr (Stray.padding htemplate hexpression hxkind hpadded)
  · rcases Element.content_collected hrecorded hchildren hmem hkind hlow hcontent houtside hle
      (Nat.le_of_lt hstop) with hcollected | hunread
    · exact absurd (Element.expressions_of_preorder template hinside (hcollected x hx)) hexpression
    · by_cases hwritten : Written t template offset
      · exact Or.inl hwritten
      · exact Or.inr
          (Stray.unread htemplate he hmem hkind hx hxcases hexpression hwritten hunread)

theorem expression_at (htemplate : (Document.ofText t).template? = some template)
    (h : (Document.ofText t).regionAt t offset = .expression) :
    Written t template offset ∨ Stray t offset := by
  have hlaid := Document.ofText_laid t
  have hroot : template ∈ (Document.ofText t).roots := List.mem_of_find?_eq_some htemplate
  unfold Document.regionAt at h
  rw [htemplate] at h
  simp only at h
  split at h
  · cases h
  · split at h
    · rename_i hcovers
      have he : (Document.ofText t).elementAt? offset = some (template.innermost offset) :=
        hlaid.innermostOf_of_covers hroot hcovers
      rcases Element.innermost_spec template hcovers with ⟨hinside, hinner, hnone⟩
      rw [he] at h
      generalize template.innermost offset = e at he hinside hinner hnone h
      rcases Laid.of_preorder template hlaid hroot hinside with ⟨_, _, es, hes, hmem⟩
      rcases hes.mem hmem with ⟨hrecorded, hchildren⟩
      have hbounds := Element.covers_iff.mp hinner
      have hend := Nat.le_trans hbounds.2 hrecorded.stop_le
      have hopens := hrecorded.opens
      rcases hopens.scan_eq hrecorded.cut_stop
        (Nat.le_trans hrecorded.head_le hrecorded.content_le) with ⟨rest, back, hafter, hscan⟩
      have hfirst : Region.ofTokens offset none (headTokens t e.start ++ rest) = .expression := by
        simp only [hscan, List.cons_append, Region.ofTokens] at h
        rw [if_neg (by omega)] at h
        exact h
      -- A value of the start tag decides, or something behind the start tag does.
      rcases Region.ofTokens_head (headTokens t e.start) [] none
        (fun _ => headTokens_inHead) (by intro n hn; cases hn) hfirst with
        ⟨name, value, hwrites, hbinding, hvalue⟩ | ⟨name, hlater⟩
      · exact value_at he hinside hrecorded hchildren hwrites hbinding hvalue hend
      · rcases Region.ofTokens_held hlater with ⟨token, hrest, hle, hcases⟩
        have hpart : token ∈ scan t e.start e.stop := by
          rw [hscan]
          exact List.mem_append_right _ hrest
        have hbehind := hopens.headStop_bounds.2 token (by
          rw [hafter]
          exact List.mem_append_left _ hrest)
        rcases (hopens.reaches.mem_scan hrecorded.cut_stop).mp hpart with ⟨htoken, hlow, hhigh⟩
        rcases hcases with ⟨hkind, hvalue⟩ | ⟨hkind, _, hinterpolation⟩
        · -- A value behind the start tag would belong to an element further inside.
          exfalso
          have hvalueStop := (Region.inValue_bounds htoken hkind hvalue hend []).2.2
          have hstart := hopens.lt_headStop
          have hhead := value_in_head he hopens htoken hkind (by omega) hle hvalueStop
          have hheadBounds := hopens.headStop_bounds.1 token (List.mem_cons_of_mem _ hhead)
          omega
        · exact content_at htemplate he hinside hrecorded hchildren hnone htoken hlow hhigh hkind
            hle hinterpolation
    · cases h

end Document

end SfcServer
