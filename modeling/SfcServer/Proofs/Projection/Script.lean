import SfcServer.Proofs.Component.Insertion
import SfcServer.Proofs.Projection.RoundTrip
import SfcServer.Proofs.Template.Breakpoints

/-!
# Offsets of the script survive a projection, one apart

The script section stands in the projected script in two parts, with the render method
between them.  Offsets of both parts are moved to the same character and back.  The one
offset where the method was inserted is moved to the first character of the method, which
belongs to the template on the way back.
-/

namespace SfcServer
namespace Projection

/-- By chance the start of the added method is moved back to where it was inserted. -/
def Coincides (p : Projection) : Prop :=
  match p.breakpoints.head? with
  | some q => q.source = p.scriptStart + q.target
  | none => p.templateStart = p.scriptStart + p.insertion

/-!
# The parts of the projected script
-/

theorem build?_breakpoints {uri text : Text} {markup : Document} {component : Option Component}
    {version : Nat} {p : Projection}
    (h : build? uri text markup component version = some p) :
    0 < p.render.length ∧ p.breakpoints.Pairwise (fun q r => q.target < r.target) ∧
      forall q, q ∈ p.breakpoints -> (p.insertion : Int) < q.target := by
  rcases build?_eq_some h with ⟨template, _, htemplate, _⟩
  have hrenders := build?_renders h htemplate
  have hheader : 0 < Render.header.length := by decide
  refine ⟨?_, ?_, ?_⟩
  · rw [hrenders.render]
    simp only [List.length_append]
    omega
  · rw [hrenders.breakpoints]
    exact Fragment.marksFrom_ascending _ _
  · intro q hq
    rw [hrenders.breakpoints] at hq
    have hbody := (Fragment.marksFrom_bounds hq).1
    rw [bodyStart] at hbody
    omega

theorem toDocument_insertion {uri text : Text} {markup : Document}
    {component : Option Component} {version : Nat} {p : Projection}
    (h : build? uri text markup component version = some p) :
    p.toDocument p.insertion = p.scriptStart + p.insertion ↔ p.Coincides := by
  rcases build?_breakpoints h with ⟨hpos, hsorted, hbefore⟩
  have hrenderStop : p.renderStop = p.insertion + p.render.length := rfl
  have hrender : p.inRender p.insertion = true := by
    simp only [inRender, Bool.and_eq_true, decide_eq_true_eq]
    omega
  rw [toDocument, if_neg (by omega), if_pos hrender, Coincides,
    Breakpoints.toSource_of_before hsorted hbefore]
  cases hbreakpoints : p.breakpoints with
  | nil =>
      simp only [List.isEmpty_nil, if_true, List.head?_nil]
      omega
  | cons q rest =>
      simp only [List.isEmpty_cons, Bool.false_eq_true, if_false, List.head?_cons]
      omega

theorem getElem?_before {content inserted : Text} {insertion k : Nat} (hk : k < insertion)
    (hlength : k < content.length) :
    (content.take insertion ++ inserted ++ content.drop insertion)[k]? = content[k]? := by
  rw [List.append_assoc, List.getElem?_append_left (by rw [List.length_take]; omega),
    List.getElem?_take, if_pos hk]

theorem getElem?_behind {content inserted : Text} {insertion k : Nat} (hk : insertion ≤ k)
    (hlength : insertion ≤ content.length) :
    (content.take insertion ++ inserted ++ content.drop insertion)[k + inserted.length]? =
      content[k]? := by
  have hfront : (content.take insertion ++ inserted).length = insertion + inserted.length := by
    rw [List.length_append, List.length_take, Nat.min_eq_left hlength]
  rw [List.getElem?_append_right (by omega), hfront, List.getElem?_drop]
  congr 1
  omega

/-!
# The way there and back
-/

theorem ofScript?_eq {p : Projection} {k : Nat} (h : p.scriptStart + k ≤ p.scriptStop) :
    p.ofScript? (p.scriptStart + k : Nat) =
      some ((if k ≤ p.insertion then k else k + p.render.length : Nat) : Int) := by
  rw [ofScript?, if_pos ⟨by omega, by omega⟩]
  simp only
  split
  · rw [if_pos (by omega)]
    congr 1
    omega
  · rw [if_neg (by omega)]
    congr 1
    omega

theorem toDocument_behind {p : Projection} {k : Nat} (h : p.insertion ≤ k) :
    p.toDocument (k + p.render.length : Nat) = (p.scriptStart + k : Nat) := by
  have hstop : p.renderStop = p.insertion + p.render.length := rfl
  have hrender : p.inRender (k + p.render.length : Nat) = false := by
    simp only [inRender, Bool.and_eq_false_iff, decide_eq_false_iff_not]
    omega
  rw [toDocument, if_neg (by omega), hrender, if_neg (by decide)]
  omega

/--
An offset of the script section is moved to the same character of the projected script and
back, unless it is the offset at which the method was inserted; that one comes back by chance
only.
-/
theorem script_offset_round_trips_iff {uri text : Text} {component : Option Component}
    {version : Nat} {p : Projection} {offset : Nat}
    (hbuild : build? uri text (Document.ofText text) component version = some p)
    (hstart : p.scriptStart ≤ offset) (hstop : offset ≤ p.scriptStop) :
    exists s : Nat, p.ofScript? offset = some (s : Int) ∧
      (p.toDocument s = offset ↔ offset ≠ p.scriptStart + p.insertion ∨ p.Coincides) ∧
      (offset ≠ p.scriptStart + p.insertion -> offset < p.scriptStop ->
        p.text[s]? = text[offset]?) := by
  rcases build?_eq_some hbuild with ⟨_, script, _, hscript, _, hlast, hwhole, _⟩
  obtain ⟨k, hk⟩ : exists k, offset = p.scriptStart + k := ⟨offset - p.scriptStart, by omega⟩
  subst hk
  have hrecorded := ((Document.ofText_laid text).mem (List.mem_of_find?_eq_some hscript)).1
  have hcontent := hrecorded.content_le
  have htext := hrecorded.stop_le
  have hlength := text.length_slice p.scriptStart p.scriptStop (by omega)
  refine ⟨_, ofScript?_eq hstop, ?_⟩
  rcases Nat.lt_trichotomy k p.insertion with hbefore | hat | hbehind
  · rw [if_pos (Nat.le_of_lt hbefore)]
    refine ⟨?_, ?_⟩
    · rw [toDocument, if_pos (by omega)]
      exact iff_of_true (by omega) (Or.inl (by omega))
    · intro _ hlt
      rw [hwhole, getElem?_before hbefore (by omega), text.slice_getElem? hlt]
  · subst hat
    rw [if_pos (Nat.le_refl _)]
    refine ⟨?_, fun hne => absurd rfl hne⟩
    rw [Int.natCast_add, toDocument_insertion hbuild]
    simp
  · rw [if_neg (by omega)]
    refine ⟨?_, ?_⟩
    · rw [toDocument_behind (Nat.le_of_lt hbehind)]
      exact iff_of_true rfl (Or.inl (by omega))
    · intro _ hlt
      rw [hwhole, getElem?_behind (by omega) (by omega), text.slice_getElem? hlt]

def memberScript : Text :=
  "export default class A \x7b a; \x7d".toList

def memberTree : SyntaxNode :=
  Component.classTree [
    { kind := "public_field_definition", start := 25, stop := 26, children := [
      { kind := "property_identifier", field := some "name", start := 25, stop := 26 }] },
    .token ";" 26 27] 28 29

@[reducible]
def memberParser : ScriptParser :=
  ⟨fun _ => memberTree⟩

def memberText : Text :=
  "<template>\x7b\x7b a \x7d\x7d</template><script>".toList ++ memberScript ++
    "</script>".toList

def memberProjection? : Option Projection :=
  build? [] memberText (Document.ofText memberText)
    (Component.ofTree memberScript [] memberTree).toOption.join 1

/-- The brace of the class comes after the method, and is moved there and back. -/
theorem script_offset_round_trips_brace :
    exists p, memberProjection? = some p ∧ p.scriptStart ≤ 64 ∧ 64 ≤ p.scriptStop ∧
      exists s : Nat, p.ofScript? 64 = some (s : Int) ∧ p.toDocument s = 64 ∧
        p.text[s]? = some '\x7d' := by
  have hfacts : memberProjection?.any (fun p =>
        p.scriptStart = 36 ∧ p.scriptStop = 65 ∧ p.insertion = 27) = true ∧
      memberText[64]? = some '\x7d' := by
    decide +kernel
  rcases (Option.any_eq_true _ _).mp hfacts.1 with ⟨p, hp, hplaces⟩
  rcases of_decide_eq_true hplaces with ⟨hstart, hstop, hinsertion⟩
  have hlow : p.scriptStart ≤ 64 := by omega
  have hhigh : 64 ≤ p.scriptStop := by omega
  rcases script_offset_round_trips_iff hp hlow hhigh with ⟨s, hs, hback, hchar⟩
  refine ⟨p, hp, hlow, hhigh, s, hs, hback.mpr (Or.inl (by omega)), ?_⟩
  rw [hchar (by omega) (by omega), hfacts.2]

/-- The offset at which the method is inserted is moved into the template. -/
theorem insertion_not_moved_back :
    exists p, memberProjection? = some p ∧ p.scriptStart ≤ 63 ∧ 63 ≤ p.scriptStop ∧
      exists s : Int, p.ofScript? 63 = some s ∧ p.toDocument s ≠ 63 := by
  have hfacts : memberProjection?.any (fun p =>
      p.scriptStart = 36 ∧ p.scriptStop = 65 ∧ p.ofScript? 63 = some 27 ∧
        p.toDocument 27 ≠ 63) = true := by
    decide +kernel
  rcases (Option.any_eq_true _ _).mp hfacts with ⟨p, hp, hplaces⟩
  rcases of_decide_eq_true hplaces with ⟨hstart, hstop, hs, hback⟩
  exact ⟨p, hp, by omega, by omega, 27, hs, hback⟩

end Projection
end SfcServer
