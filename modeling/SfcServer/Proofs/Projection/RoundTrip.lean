import SfcServer.Projection
import SfcServer.Proofs.Offset.Nearest
import SfcServer.Proofs.Template.Marks
import SfcServer.Proofs.Template.Sequence

/-!
# Offsets of expressions survive a projection

An expression of the template is written once into the render method of a projection.
Every offset in it is moved to the character that stands for it there, and back.
-/

namespace SfcServer
namespace Projection

theorem build?_inverts {uri text : Text} {markup : Document} {component : Option Component}
    {version : Nat} {p : Projection}
    (h : build? uri text markup component version = some p) :
    exists template script found, markup.template? = some template ∧
      markup.script? = some script ∧ component = some found ∧
      found.insertion = some p.insertion ∧
      p.scriptStart = script.contentStart ∧ p.scriptStop = script.contentStop ∧
      p.text = (text.slice p.scriptStart p.scriptStop).take p.insertion ++ p.render ++
        (text.slice p.scriptStart p.scriptStop).drop p.insertion ∧
      p.render = (Render.ofTemplate text template p.insertion p.names).text ∧
      p.breakpoints = (Render.ofTemplate text template p.insertion p.names).breakpoints := by
  unfold build? at h
  rcases Option.bind_eq_some_iff.mp h with ⟨template, htemplate, h⟩
  rcases Option.bind_eq_some_iff.mp h with ⟨script, hscript, h⟩
  rcases Option.bind_eq_some_iff.mp h with ⟨_, _, h⟩
  rcases Option.bind_eq_some_iff.mp h with ⟨found, hfound, h⟩
  rcases Option.bind_eq_some_iff.mp h with ⟨insertion, hinsertion, h⟩
  cases h
  exact ⟨template, script, found, htemplate, hscript, hfound, hinsertion, rfl, rfl, rfl, rfl, rfl⟩

theorem build?_eq_some {uri text : Text} {markup : Document} {component : Option Component}
    {version : Nat} {p : Projection}
    (h : build? uri text markup component version = some p) :
    exists template script, markup.template? = some template ∧ markup.script? = some script ∧
      p.scriptStart = script.contentStart ∧ p.scriptStop = script.contentStop ∧
      p.text = (text.slice p.scriptStart p.scriptStop).take p.insertion ++ p.render ++
        (text.slice p.scriptStart p.scriptStop).drop p.insertion ∧
      p.render = (Render.ofTemplate text template p.insertion p.names).text ∧
      p.breakpoints = (Render.ofTemplate text template p.insertion p.names).breakpoints := by
  rcases build?_inverts h with ⟨template, script, _, htemplate, hscript, _, _, hparts⟩
  exact ⟨template, script, htemplate, hscript, hparts⟩

/-- What a projection makes of the template of its document. -/
structure Renders (p : Projection) (text : Text) (template : Element) : Prop where
  render : p.render = Render.header ++ Render.preamble p.names ++
    Fragment.spell (template.fragments text) ++ Render.footer
  breakpoints : p.breakpoints = Fragment.marksFrom p.bodyStart (template.fragments text)
  whole : p.text = (text.slice p.scriptStart p.scriptStop).take p.insertion ++ p.render ++
    (text.slice p.scriptStart p.scriptStop).drop p.insertion

theorem build?_renders {uri text : Text} {markup : Document} {component : Option Component}
    {version : Nat} {p : Projection} {template : Element}
    (h : build? uri text markup component version = some p)
    (htemplate : markup.template? = some template) : p.Renders text template := by
  rcases build?_eq_some h with ⟨other, script, hother, _, _, _, hwhole, hrender, hbreakpoints⟩
  rw [htemplate] at hother
  cases hother
  refine ⟨?_, ?_, hwhole⟩
  · rw [hrender, Render.ofTemplate_text]
  · have hstart : p.bodyStart =
        p.insertion + (Render.header ++ Render.preamble p.names).length := by
      rw [bodyStart, List.length_append, Nat.add_assoc]
    rw [hbreakpoints, hstart]
    exact (template.code_same text).2 _

theorem Renders.renderStop_eq {p : Projection} {text : Text} {template : Element}
    (h : p.Renders text template) :
    p.renderStop = p.bodyStart + (Fragment.spell (template.fragments text)).length + 1 := by
  have hlength := congrArg List.length h.render
  have hfooter : Render.footer.length = 1 := rfl
  simp only [List.length_append] at hlength
  rw [renderStop, bodyStart, hlength]
  omega

/--
An expression is spelled out at one place of the body.  Its offsets are moved there,
and those of that place are moved back.
-/
theorem Renders.spelled_upTo {p : Projection} {text : Text} {template : Element}
    (h : p.Renders text template) {low high : Nat}
    (hsequenced : Sequenced text low high (template.expressions text)) {x : Expression}
    {before : Text} (hx : x ∈ template.expressions text) (hkind : x.kind ≠ .otherwise)
    (hbefore : Fragment.upTo x (template.fragments text) = before) :
    exists after,
      Fragment.spell (template.fragments text) = before ++ (x.spelled ++ (x.tail ++ after)) ∧
      forall k, k ≤ x.text.length ->
        p.ofTemplate ((x.start + k : Nat) : Int) = (p.bodyStart + before.length + k : Nat) ∧
        p.bodyStart + before.length + k < p.renderStop ∧
        p.toDocument (p.bodyStart + before.length + k : Nat) = (x.start + k : Nat) := by
  have hperm := template.written_fragments text
  rcases Fragment.mark_of_written p.bodyStart (hperm.mem_iff.mpr hx) hkind with
    ⟨after, earlier, later, hspell, hwritten, hmark, hothers⟩
  rw [hbefore] at hspell hmark hothers
  have hlength := x.length_spelled
  have hpos := x.length_tail_pos
  have hstop := h.renderStop_eq
  rw [hspell] at hstop
  simp only [List.length_append] at hstop
  rw [← h.breakpoints] at hmark hothers
  rw [hwritten] at hperm
  have hxstop := (hsequenced.mem hx).2.2.stop_eq
  refine ⟨after, hspell, ?_⟩
  intro k hk
  have hlow : p.insertion ≤ p.bodyStart := by
    rw [bodyStart]
    omega
  have htarget : p.ofTemplate ((x.start + k : Nat) : Int) =
      (p.bodyStart + before.length + k : Nat) := by
    rw [ofTemplate, Breakpoints.toTarget_of_isolated hmark (by simp only; omega)]
    · simp only
      omega
    · intro q hq hne
      rcases (hothers q hq hne).2 with ⟨y, hy, hsource⟩
      have happart := hsequenced.apart hperm hy
      simp only
      omega
  have hsource : p.breakpoints.toSource (p.bodyStart + before.length + k : Nat) =
      (x.start + k : Nat) := by
    rw [Breakpoints.toSource_of_isolated hmark (by simp only; omega)]
    · simp only
      omega
    · intro q hq hne
      have hcases := (hothers q hq hne).1
      simp only
      omega
  have hinside : p.bodyStart + before.length + k < p.renderStop := by omega
  refine ⟨htarget, hinside, ?_⟩
  have hnonempty : p.breakpoints.isEmpty = false := by
    rw [List.isEmpty_eq_false_iff_exists_mem]
    exact ⟨_, hmark⟩
  have hrender : p.inRender (p.bodyStart + before.length + k : Nat) = true := by
    simp only [inRender, Bool.and_eq_true, decide_eq_true_eq]
    omega
  rw [toDocument, if_neg (by omega), if_pos hrender, hnonempty]
  exact hsource

theorem Renders.spelled_at {p : Projection} {text : Text} {template : Element}
    (h : p.Renders text template) {low high : Nat}
    (hsequenced : Sequenced text low high (template.expressions text)) {x : Expression}
    (hx : x ∈ template.expressions text) (hkind : x.kind ≠ .otherwise) :
    exists before after,
      Fragment.spell (template.fragments text) = before ++ (x.spelled ++ (x.tail ++ after)) ∧
      forall k, k ≤ x.text.length ->
        p.ofTemplate ((x.start + k : Nat) : Int) = (p.bodyStart + before.length + k : Nat) ∧
        p.bodyStart + before.length + k < p.renderStop ∧
        p.toDocument (p.bodyStart + before.length + k : Nat) = (x.start + k : Nat) :=
  ⟨_, h.spelled_upTo hsequenced hx hkind rfl⟩

theorem Renders.stands {p : Projection} {text : Text} {template : Element}
    (h : p.Renders text template)
    (hinsertion : p.insertion ≤ (text.slice p.scriptStart p.scriptStop).length)
    {before part after : Text}
    (hspell : Fragment.spell (template.fragments text) = before ++ (part ++ after)) :
    p.text.StandsAt (p.bodyStart + before.length) part := by
  refine ⟨(text.slice p.scriptStart p.scriptStop).take p.insertion ++ Render.header ++
    Render.preamble p.names ++ before, after ++ Render.footer ++
    (text.slice p.scriptStart p.scriptStop).drop p.insertion, ?_, ?_⟩
  · rw [h.whole, h.render, hspell]
    simp only [List.append_assoc]
  · simp only [List.length_append, List.length_take, bodyStart]
    omega

/-- The character at an index of the text of an expression in the render method. -/
theorem spelled_getElem? {x : Expression} {k : Nat}
    (h : forall i, x.kind = .loop -> x.text.SeparatesFirstAt i -> ¬ (i ≤ k ∧ k < i + 4)) :
    x.spelled[k]? = x.text[k]? := by
  unfold Expression.spelled
  split
  · rename_i hloop
    exact loopHead_getElem? (fun i hi => h i hloop hi)
  · rfl

/--
Every offset of an expression is moved into the body of the render method, to the
same character unless it belongs to the separator of a loop, and back.
-/
theorem expression_offsets_round_trip {uri text : Text} {component : Option Component}
    {version : Nat} {p : Projection} {template : Element} {x : Expression} {k : Nat}
    (hbuild : build? uri text (Document.ofText text) component version = some p)
    (htemplate : (Document.ofText text).template? = some template)
    (hinsertion : p.insertion ≤ (text.slice p.scriptStart p.scriptStop).length)
    (hx : x ∈ template.expressions text) (hkind : x.kind ≠ .otherwise)
    (hk : k ≤ x.text.length) :
    exists s : Nat, p.ofTemplate (x.start + k) = s ∧ p.bodyStart ≤ s ∧ s < p.renderStop ∧
      p.toDocument s = x.start + k ∧
      (k < x.text.length ->
        ((forall i, x.kind = .loop -> x.text.SeparatesFirstAt i -> ¬ (i ≤ k ∧ k < i + 4)) ->
          exists c, text[x.start + k]? = some c ∧ p.text[s]? = some c) ∧
        (forall i, x.kind = .loop -> x.text.SeparatesFirstAt i -> i ≤ k -> k < i + 4 ->
          p.text[s]? = " of ".toList[k - i]?)) := by
  have hrenders := build?_renders hbuild htemplate
  have hsequenced := Document.template_sequenced htemplate
  rcases hrenders.spelled_at hsequenced hx hkind with ⟨before, after, hspell, hoffsets⟩
  rcases hoffsets k hk with ⟨htarget, hinside, hsource⟩
  refine ⟨p.bodyStart + before.length + k, htarget, by omega, hinside, hsource, ?_⟩
  intro hlt
  have hlength := x.length_spelled
  have hchar : p.text[p.bodyStart + before.length + k]? = x.spelled[k]? :=
    (hrenders.stands hinsertion hspell).getElem? (by omega)
  rw [hchar]
  constructor
  · intro houtside
    have hwritten := (hsequenced.mem hx).2.2
    rw [hwritten.stands.getElem? hlt, spelled_getElem? houtside]
    exact ⟨x.text[k], List.getElem?_eq_getElem hlt, List.getElem?_eq_getElem hlt⟩
  · intro i hloop hfirst hle hafter
    rw [Expression.spelled, if_pos hloop]
    exact loopHead_getElem?_separator hfirst hle hafter

def loopText : Text :=
  "<template><p v-for=\"a in b\">\x7b\x7b a \x7d\x7d</p></template>".toList ++
    "<script>class A \x7b \x7d</script>".toList

def loopClass : Component :=
  ⟨[], "A".toList, [], [], [], some 9⟩

theorem expression_offsets_round_trip_loop :
    exists p template x,
      build? [] loopText (Document.ofText loopText) (some loopClass) 0 = some p ∧
      (Document.ofText loopText).template? = some template ∧
      x ∈ template.expressions loopText ∧ x.kind = .loop ∧
      exists s : Nat, p.ofTemplate (x.start + 2) = s ∧ p.bodyStart ≤ s ∧ s < p.renderStop ∧
        p.toDocument s = x.start + 2 ∧ p.text[s]? = some 'o' := by
  let x : Expression := ⟨.loop, 20, 26, "a in b".toList, "v-for".toList⟩
  have hfacts : (build? [] loopText (Document.ofText loopText) (some loopClass) 0).any
        (fun p => p.insertion ≤ (loopText.slice p.scriptStart p.scriptStop).length) = true ∧
      (Document.ofText loopText).template?.any
        (fun template => x ∈ template.expressions loopText) = true := by
    decide +kernel
  rcases (Option.any_eq_true _ _).mp hfacts.1 with ⟨p, hbuild, hinsertion⟩
  rcases (Option.any_eq_true _ _).mp hfacts.2 with ⟨template, htemplate, hx⟩
  have hfirst : x.text.SeparatesFirstAt 1 := by
    refine ⟨⟨' ', ' ', ['b'], rfl, rfl, rfl⟩, ?_⟩
    intro j hj hseparates
    have hzero : j = 0 := by omega
    subst hzero
    rcases hseparates with ⟨a, b, after, hdrop, _, _⟩
    cases hdrop
  rcases expression_offsets_round_trip (k := 2) hbuild htemplate (of_decide_eq_true hinsertion)
    (of_decide_eq_true hx) (by decide) (by decide) with ⟨s, htarget, hlow, hhigh, hsource, hchars⟩
  refine ⟨p, template, x, hbuild, htemplate, of_decide_eq_true hx, rfl, s, htarget, hlow, hhigh,
    hsource, ?_⟩
  exact (hchars (by decide)).2 1 rfl hfirst (by decide) (by decide)

end Projection
end SfcServer
