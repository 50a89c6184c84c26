import SfcServer.Proofs.Component.Names
import SfcServer.Proofs.Service.Findings
import SfcServer.Proofs.Store.Dependents

/-!
# Declarations lead to members

The added method starts with a declaration that binds members of the component to plain names.
When the engine finds that a name is defined there, the editor is led to the member in the script
section that has the name.
-/

namespace SfcServer

open SfcServer.Action

/-- The name of a member stands in a script, and an element of the exported class declares it. -/
structure Member.StandsIn (m : Member) (source : Text) (root : SyntaxNode) : Prop where
  stands : source.StandsAt m.nameStart m.name
  declared : exists found body e n, DefaultClass.ofTree? root = some found ∧
    found.body? = some body ∧ e ∈ body.children ∧ e.Declares source n m

theorem Component.member_standsIn {source uri : Text} {root : SyntaxNode} {c : Component}
    {m : Member} (h : ofTree source uri root = .ok (some c)) (hm : m ∈ c.members) :
    m.StandsIn source root := by
  rcases member_declared h hm with ⟨found, body, e, n, hfound, hbody, he, hdeclares⟩
  exact ⟨hdeclares.standsAt, found, body, e, n, hfound, hbody, he, hdeclares⟩

/-- The document of a component is found by the name that the engine knows it under. -/
theorem documentOf_fileNameOf {uri : Text} (h : documentSuffix.isSuffixOf uri = true) :
    documentOf (fileNameOf uri) = uri ∧ fileNameOf uri ≠ uri := by
  rcases List.isSuffixOf_iff_suffix.mp h with ⟨stem, rfl⟩
  have hname : fileNameOf (stem ++ documentSuffix) = stem ++ documentSuffix ++ scriptSuffix :=
    if_pos h
  have hsuffix : (documentSuffix ++ scriptSuffix).isSuffixOf
      (stem ++ documentSuffix ++ scriptSuffix) = true := by
    rw [List.append_assoc]
    exact List.isSuffixOf_iff_suffix.mpr (List.suffix_append _ _)
  rw [hname]
  constructor
  · rw [documentOf, if_pos hsuffix, List.length_append, Nat.add_sub_cancel]
    exact List.take_left
  · intro hsame
    have hlength := congrArg List.length hsame
    rw [List.length_append, Nat.add_eq_left] at hlength
    cases hlength

namespace Projection

variable {uri text name : Text} {component : Option Component} {version i : Nat} {p : Projection}

def declaredAt (p : Projection) (i : Nat) : Nat :=
  p.insertion + "render()\x7bconst \x7b".length + (p.names.take i).flatten.length + i

theorem build?_component {markup : Document}
    (h : build? uri text markup component version = some p) :
    p.uri = uri ∧ component = some p.component ∧ p.names = p.component.names := by
  unfold build? at h
  rcases Option.bind_eq_some_iff.mp h with ⟨template, _, h⟩
  rcases Option.bind_eq_some_iff.mp h with ⟨script, _, h⟩
  rcases Option.bind_eq_some_iff.mp h with ⟨_, _, h⟩
  rcases Option.bind_eq_some_iff.mp h with ⟨found, hfound, h⟩
  rcases Option.bind_eq_some_iff.mp h with ⟨insertion, _, h⟩
  cases h
  exact ⟨rfl, hfound, rfl⟩

theorem declaredAt_eq (p : Projection) (i : Nat) :
    p.declaredAt i = p.insertion + (Render.header.length + ("const \x7b".toList.length +
      ((p.names.take i).flatten.length + i * [','].length))) := by
  have hlead : "render()\x7bconst \x7b".length =
      Render.header.length + "const \x7b".toList.length := rfl
  rw [declaredAt, hlead, List.length_singleton]
  omega

theorem preamble_standsAt (hname : p.names[i]? = some name) :
    (Render.preamble p.names).StandsAt ("const \x7b".toList.length +
      ((p.names.take i).flatten.length + i * [','].length)) name :=
  (Text.joinWith_standsAt hname).within _ _

variable (hbuild : build? uri text (Document.ofText text) component version = some p)
  (hinsertion : p.insertion ≤ (text.slice p.scriptStart p.scriptStop).length)
  (hname : p.names[i]? = some name)

include hname

theorem inPreamble_declaredAt : p.inPreamble (p.declaredAt i) = true := by
  have hstands : (Text.joinWith [','] p.names).StandsAt _ name := Text.joinWith_standsAt hname
  have hle := hstands.le
  have hparts (a b c : Text) : (a ++ b ++ c).length = a.length + b.length + c.length := by
    rw [List.length_append, List.length_append]
  have hlength : (Render.preamble p.names).length = "const \x7b".toList.length +
      (Text.joinWith [','] p.names).length + "\x7d = this;".toList.length := hparts _ _ _
  have hclosing : 0 < "\x7d = this;".toList.length := by
    decide
  have hplace := p.declaredAt_eq i
  have hstart : p.bodyStart =
      p.insertion + Render.header.length + (Render.preamble p.names).length := rfl
  rw [inPreamble, Bool.and_eq_true, decide_eq_true_eq, decide_eq_true_eq]
  generalize "const \x7b".toList.length = opening at hplace hlength
  generalize "\x7d = this;".toList.length = closing at hclosing hlength
  omega

include hbuild hinsertion

theorem declared_standsAt : p.text.StandsAt (p.declaredAt i) name := by
  rcases build?_eq_some hbuild with ⟨template, _, htemplate, _⟩
  have hrenders := build?_renders hbuild htemplate
  have hrender : p.render.StandsAt Render.header.length (Render.preamble p.names) := by
    rw [hrenders.render, List.append_assoc (Render.header ++ _)]
    exact (Text.StandsAt.whole _).within _ _
  have hscript : p.text.StandsAt p.insertion p.render := by
    have hwithin := (Text.StandsAt.whole p.render).within
      ((text.slice p.scriptStart p.scriptStop).take p.insertion)
      ((text.slice p.scriptStart p.scriptStop).drop p.insertion)
    rw [List.length_take, Nat.min_eq_left hinsertion] at hwithin
    rw [hrenders.whole]
    exact hwithin
  rw [declaredAt_eq]
  exact hscript.trans (hrender.trans (preamble_standsAt hname))

end Projection

namespace Service

/-!
# Where a declaration leads
-/

/-- A definition in the declarations of the added method is the member of that name. -/
theorem documentRange_declared {e : Entry} {p : Projection} {start length : Nat} {m : Member}
    (hpreamble : p.inPreamble start = true)
    (hfound : p.component.find? (p.text.slice start (start + length)) = some m) :
    documentRange e p start length = e.lines.rangeOf (p.scriptStart + m.nameStart : Nat)
      (p.scriptStart + m.nameStart + m.name.length : Nat) := by
  rw [documentRange, declaredMember?, if_pos hpreamble, hfound]
  rfl

/-- A place in the projection of a stored document is carried over to the document. -/
theorem outcome_mapTarget [ScriptParser] {s : ServiceState} {uri : Text} {e : Entry}
    {p : Projection} (c : Surroundings) (range : Json)
    (hentry : s.workspace.store.entryOf? uri = some e)
    (hprojection : (s.workspace.store.projection uri).value = some p)
    (hsuffix : documentSuffix.isSuffixOf uri = true) (start length : Nat) :
    exists after : Entry, after.text = e.text ∧
      (outcome (mapTarget ⟨.str (String.ofList (fileNameOf uri)), range, some (start, length)⟩)
        c s).1 = .ok (some ⟨uri, documentRange after p start length⟩) := by
  rcases documentOf_fileNameOf hsuffix with ⟨hdocument, hdiffers⟩
  rcases (s.workspace.store.projection_enriches uri) uri e hentry with ⟨after, hafter, henriched⟩
  refine ⟨after, henriched.text, ?_⟩
  have hload : outcome (load fun store => store.projection uri) c s =
      (.ok (some p), s.andLoad (s.workspace.store.projection uri)) := by
    rw [← hprojection]
    rfl
  have hfound : outcome ( entry? uri) c (s.andLoad (s.workspace.store.projection uri)) =
      (.ok (some after), s.andLoad (s.workspace.store.projection uri)) := by
    rw [← hafter]
    rfl
  unfold mapTarget
  simp only [String.toList_ofList, hdocument]
  rw [if_neg (Ne.symm hdiffers), outcome_bind, hload]
  simp only
  rw [outcome_bind, hfound]
  rfl

/--
Whatever happened to the documents before, the declaration of a name at the start of the added
method stands where the names before it end, and leads to a member of that name: to the text of
the name in the script section, at an element of the class.
-/
theorem declarations_located [ScriptParser] {s : ServiceState} {uri : Text} {e : Entry}
    {p : Projection} {i : Nat} {name : Text} (c : Surroundings) (range : Json)
    (hreached : s.workspace.store.Reached)
    (hentry : s.workspace.store.entryOf? uri = some e)
    (hprojection : (s.workspace.store.projection uri).value = some p)
    (hinsertion : p.insertion ≤ (e.text.slice p.scriptStart p.scriptStop).length)
    (hsuffix : documentSuffix.isSuffixOf uri = true) (hname : p.names[i]? = some name) :
    p.inPreamble (p.declaredAt i) = true ∧
      p.text.slice (p.declaredAt i) (p.declaredAt i + name.length) = name ∧
      exists m r, m ∈ p.component.members ∧ m.name = name ∧
        m.StandsIn (e.text.slice p.scriptStart p.scriptStop)
          (ScriptParser.tree (e.text.slice p.scriptStart p.scriptStop)) ∧
        p.scriptStart + m.nameStart + name.length ≤ p.scriptStop ∧
        (outcome (mapTarget ⟨.str (String.ofList p.fileName), range,
          some (p.declaredAt i, name.length)⟩) c s).1 = .ok (some ⟨uri, r⟩) ∧
        r = e.lines.rangeOf (p.scriptStart + m.nameStart : Nat)
          (p.scriptStart + m.nameStart + name.length : Nat) ∧
        Lines.textIn e.text r = name := by
  rcases hreached.coherent.projection_value hentry with ⟨version, hvalue⟩
  have hbuild := hvalue.symm.trans hprojection
  have hpreamble := Projection.inPreamble_declaredAt (p := p) hname
  have hslice := (Projection.declared_standsAt hbuild hinsertion hname).eq_slice.symm
  rcases Projection.build?_inverts hbuild with ⟨_, script, _, _, hscript, _, _, hstart, hstop, _⟩
  rcases Projection.build?_component hbuild with ⟨huri, hcomponent, hnames⟩
  have hread := componentOf_eq_some hcomponent hscript
  rw [← hstart, ← hstop] at hread
  rw [hnames] at hname
  rcases Component.find?_of_mem_names (List.mem_of_getElem? hname) with ⟨m, hfound, hm, rfl⟩
  have hstands := Component.member_standsIn hread hm
  have hinside := hstands.stands.le
  have hnonempty : 0 < m.name.length := by
    rcases hstands.declared with ⟨_, _, _, _, _, _, _, hdeclares⟩
    exact List.length_pos_iff.mpr hdeclares.nonempty
  have hsection := Projection.content_standsAt hbuild (by omega)
  have hwhole := hsection.trans hstands.stands
  have hlength : (e.text.slice p.scriptStart p.scriptStop).length ≤
      p.scriptStop - p.scriptStart := by
    rw [Text.slice, List.length_drop, List.length_take]
    omega
  have hend := hwhole.le
  rcases outcome_mapTarget c range hentry hprojection hsuffix (p.declaredAt i) m.name.length
    with ⟨after, hafter, houtcome⟩
  have hlines : after.lines = e.lines := by
    rw [Entry.lines, hafter]
    rfl
  rw [documentRange_declared hpreamble (by rw [hslice]; exact hfound), hlines, ← huri] at houtcome
  rw [← huri]
  refine ⟨hpreamble, hslice, m, _, hm, rfl, hstands, by omega, houtcome, rfl, ?_⟩
  rw [Entry.lines, Lines.textIn_rangeOf e.text (Nat.le_add_right _ _) hend]
  exact hwhole.eq_slice.symm

local instance : ScriptParser :=
  Projection.memberParser

theorem declarations_located_member :
    exists e p m r, memberState.workspace.store.Reached ∧
      memberState.workspace.store.entryOf? memberUri = some e ∧
      (memberState.workspace.store.projection memberUri).value = some p ∧
      p.insertion ≤ (e.text.slice p.scriptStart p.scriptStop).length ∧
      documentSuffix.isSuffixOf memberUri = true ∧ p.names[0]? = some "a".toList ∧
      m ∈ p.component.members ∧
      (outcome (mapTarget ⟨.str (String.ofList p.fileName), .null, some (p.declaredAt 0, 1)⟩)
        noFiles memberState).1 = .ok (some ⟨memberUri, r⟩) ∧
      Lines.textIn e.text r = "a".toList := by
  have hstored : (memberState.workspace.store.entryOf? memberUri).any
      (fun e => e.text = Projection.memberText) = true := by
    decide +kernel
  have hfacts : (memberState.workspace.store.projection memberUri).value.any (fun p =>
      p.insertion ≤ (Projection.memberText.slice p.scriptStart p.scriptStop).length ∧
        p.names[0]? = some "a".toList) = true := by
    decide +kernel
  rcases (Option.any_eq_true _ _).mp hstored with ⟨e, he, htext⟩
  rcases (Option.any_eq_true _ _).mp hfacts with ⟨p, hp, hfacts⟩
  rcases of_decide_eq_true hfacts with ⟨hinsertion, hname⟩
  rw [← of_decide_eq_true htext] at hinsertion
  have hreached : memberState.workspace.store.Reached :=
    Store.Reached.step Store.Reached.empty (.openText memberUri Projection.memberText 0)
  have hsuffix : documentSuffix.isSuffixOf memberUri = true := by
    decide
  rcases declarations_located noFiles .null hreached he hp hinsertion hsuffix hname with
    ⟨_, _, m, r, hm, _, _, _, houtcome, _, htext⟩
  exact ⟨e, p, m, r, hreached, he, hp, hinsertion, hsuffix, hname, hm, houtcome, htext⟩

end Service
end SfcServer
