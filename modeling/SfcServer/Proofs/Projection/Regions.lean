import SfcServer.Proofs.Projection.RoundTrip
import SfcServer.Proofs.Template.Regions

/-!
# Expression regions survive a projection

Questions about an expression region are asked in the body of the render method.  That is
well-defined where the region lies in an expression that is written out there.  The other
places of expression regions are the strays: padding around interpolations, the value of
a `v-else`, and content behind tags that are broken off.
-/

namespace SfcServer
namespace Projection

/-- An offset of the template is moved into the body of the render method, and back. -/
def RoundTrips (p : Projection) (offset : Int) : Prop :=
  p.bodyStart ≤ p.ofTemplate offset ∧ p.ofTemplate offset < p.renderStop ∧
    p.toDocument (p.ofTemplate offset) = offset

instance (p : Projection) (offset : Int) : Decidable (p.RoundTrips offset) :=
  inferInstanceAs (Decidable (_ ∧ _ ∧ _))

/-- Every offset of an expression that is written out is moved into the body, and back. -/
theorem Renders.roundTrips {p : Projection} {text : Text} {template : Element} {low high : Nat}
    (h : p.Renders text template)
    (hsequenced : Sequenced text low high (template.expressions text)) {offset : Nat}
    (hwritten : Document.Written text template offset) : p.RoundTrips offset := by
  rcases hwritten with ⟨x, hx, hkind, hstart, hstop⟩
  have hlength := (hsequenced.mem hx).2.2.stop_eq
  rcases h.spelled_at hsequenced hx hkind with ⟨before, _, _, hoffsets⟩
  rcases hoffsets (offset - x.start) (by omega) with ⟨htarget, hinside, hsource⟩
  rw [Nat.add_sub_cancel' hstart] at htarget hsource
  unfold RoundTrips
  rw [htarget]
  exact ⟨by omega, by omega, hsource⟩

/-- Every offset of an expression region is moved into the body, and back, or is a stray. -/
theorem expression_region_round_trips {uri text : Text} {component : Option Component}
    {version : Nat} {p : Projection} {offset : Nat}
    (hbuild : build? uri text (Document.ofText text) component version = some p)
    (hregion : (Document.ofText text).regionAt text offset = .expression) :
    p.RoundTrips offset ∨ Document.Stray text offset := by
  rcases build?_eq_some hbuild with ⟨template, _, htemplate, _⟩
  rcases Document.expression_at htemplate hregion with hwritten | hstray
  · have hrenders := build?_renders hbuild htemplate
    exact Or.inl (hrenders.roundTrips (Document.template_sequenced htemplate) hwritten)
  · exact Or.inr hstray

def paddedText : Text :=
  "<template><p>\x7b\x7b a \x7d\x7d</p></template>".toList ++
    "<script>export default class A \x7b \x7d</script>".toList

def paddedClass : Component :=
  ⟨[], "A".toList, [], [], [], some 24⟩

theorem expression_region_round_trips_name :
    exists p, build? [] paddedText (Document.ofText paddedText) (some paddedClass) 0 = some p ∧
      (Document.ofText paddedText).regionAt paddedText 16 = .expression ∧ p.RoundTrips 16 := by
  have hfacts : (build? [] paddedText (Document.ofText paddedText) (some paddedClass) 0).isSome
        = true ∧
      (Document.ofText paddedText).regionAt paddedText 16 = .expression ∧
      (Document.ofText paddedText).template?.all (fun template =>
        (template.expressions paddedText).all fun x => x.start ≤ 16 && 16 ≤ x.stop) = true ∧
      ((Document.ofText paddedText).elementAt? (16 : Nat)).all (fun e =>
        (headTokens paddedText e.start).all (fun name => name.text ≠ "v-else".toList) &&
          (e.startTagEnd.isSome && e.children.isEmpty)) = true := by
    decide +kernel
  rcases hfacts with ⟨hbuild, hregion, htemplate, helement⟩
  rcases Option.isSome_iff_exists.mp hbuild with ⟨p, hp⟩
  refine ⟨p, hp, hregion, ?_⟩
  rcases expression_region_round_trips hp hregion with htrips | hstray
  · exact htrips
  · exfalso
    cases hstray with
    | padding hfound hx _ hpadded =>
        rw [hfound, Option.all_some, List.all_eq_true] at htemplate
        have hbounds := htemplate _ hx
        simp only [Bool.and_eq_true, decide_eq_true_eq] at hbounds
        rcases hpadded with ⟨hbefore, _⟩ | ⟨hbehind, _⟩ <;> omega
    | elseValue hfound hwrites hname _ =>
        rw [hfound, Option.all_some, Bool.and_eq_true, List.all_eq_true] at helement
        rcases hwrites with ⟨before, middle, after, hhead, _⟩
        have hother := helement.1 _ (by
          rw [hhead]
          exact List.mem_append_right _ List.mem_cons_self)
        exact of_decide_eq_true hother hname
    | unread _ hfound _ _ _ _ _ _ hunread =>
        rw [hfound, Option.all_some, Bool.and_eq_true, Bool.and_eq_true,
          List.isEmpty_iff] at helement
        rcases helement.2 with ⟨hclosed, hchildren⟩
        rcases hunread with ⟨hopen, _⟩ | ⟨c, hc, _⟩
        · rw [hopen] at hclosed
          cases hclosed
        · rw [hchildren] at hc
          cases hc

/-- The blank before the name is moved to a place before the body. -/
theorem padding_before_body :
    exists p, build? [] paddedText (Document.ofText paddedText) (some paddedClass) 0 = some p ∧
      (Document.ofText paddedText).regionAt paddedText 15 = .expression ∧ ¬ p.RoundTrips 15 := by
  have hfacts : (build? [] paddedText (Document.ofText paddedText) (some paddedClass) 0).any
        (fun p => ¬ p.RoundTrips 15) = true ∧
      (Document.ofText paddedText).regionAt paddedText 15 = .expression := by
    decide +kernel
  rcases (Option.any_eq_true _ _).mp hfacts.1 with ⟨p, hp, hfails⟩
  exact ⟨p, hp, hfacts.2, of_decide_eq_true hfails⟩

/-- One text for every other kind of stray, and an offset in it. -/
def strayTexts : List (String × Nat) :=
  [("<template>\x7b\x7b a    \x7d\x7d</template>", 16),
    ("<template><p v-else=\"x y\">z</p></template>", 21),
    ("<template><p <\x7b\x7b a \x7d\x7d</template>", 16),
    ("<template><p></p \"\x7b\x7b > <!-- \x7d\x7d <!-->\x7b\x7b y \x7d\x7d--></template>", 38)]

/-- Blanks behind a name, the value of a `v-else` and content behind broken tags leave the body. -/
theorem strays_leave_body :
    forall markup offset, (markup, offset) ∈ strayTexts ->
      exists text p, text = markup.toList ++
          "<script>export default class A \x7b \x7d</script>".toList ∧
        build? [] text (Document.ofText text) (some paddedClass) 0 = some p ∧
        (Document.ofText text).regionAt text offset = .expression ∧ ¬ p.RoundTrips offset := by
  have hfacts : strayTexts.all (fun s =>
      let text := s.1.toList ++ "<script>export default class A \x7b \x7d</script>".toList
      (build? [] text (Document.ofText text) (some paddedClass) 0).any
          (fun p => ¬ p.RoundTrips s.2) &&
        decide ((Document.ofText text).regionAt text s.2 = .expression)) = true := by
    decide +kernel
  intro markup offset hmem
  have hfact := List.all_eq_true.mp hfacts (markup, offset) hmem
  rw [Bool.and_eq_true, decide_eq_true_eq] at hfact
  rcases (Option.any_eq_true _ _).mp hfact.1 with ⟨p, hp, hfails⟩
  exact ⟨_, p, rfl, hp, hfact.2, of_decide_eq_true hfails⟩

end Projection
end SfcServer
