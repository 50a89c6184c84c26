import SfcServer.Proofs.Projection.Spans
import SfcServer.Proofs.Service.Moves
import SfcServer.Proofs.Store.Coherence

/-!
# Findings are shown where they belong

The engine reports findings in a projected script, and each is shown as one diagnostic of the
document.  Its range lies in the document whatever span the engine gave.  A span in one part of
the projected script is shown at the text that it was made from.
-/

namespace SfcServer

open SfcServer.Action

/-- The message of a finding is a text, and so is its source, if it names one. -/
structure Finding.Worded (f : Finding) : Prop where
  message : exists m, f.message = .str m
  source : f.source.isTruthy = true -> exists m, f.source = .str m

/-- What a finding in a projected script is shown as in its document. -/
structure Finding.ShownAs (f : Finding) (e : Entry) (p : Projection) (d : Diagnostic) : Prop where
  message : f.message.textOf = .ok d.message
  places : exists first last : Nat, first ≤ e.text.length ∧ last ≤ e.text.length ∧
    d.range = ⟨e.lines.placeAt first, e.lines.placeAt last⟩
  ordered : d.range.start.NotAfter d.range.stop
  delimits : forall start length : Nat, f.start = start -> f.length = length ->
    p.Delimits e.text start length d.range

/-!
# Lists of results
-/

/-- Pure steps over a list give their results in order, and leave the state alone. -/
theorem Action.outcome_mapM {ρ σ α β : Type} {step : α -> Except Fault β} {R : α -> β -> Prop}
    {items : List α} (h : forall x, x ∈ items -> exists y, step x = .ok y ∧ R x y) (c : ρ) (s : σ) :
    exists ys, outcome (items.mapM fun x => (liftM (step x) : Action ρ σ β)) c s = (.ok ys, s) ∧
      List.Forall₂ R items ys := by
  induction items with
  | nil =>
      exact ⟨[], rfl, List.Forall₂.nil⟩
  | cons x rest ih =>
      rcases h x List.mem_cons_self with ⟨y, hy, hfirst⟩
      rcases ih fun z hz => h z (List.mem_cons_of_mem _ hz) with ⟨ys, hys, hrest⟩
      refine ⟨y :: ys, ?_, List.Forall₂.cons hfirst hrest⟩
      have hstep : outcome (liftM (step x) : Action ρ σ β) c s = (.ok y, s) := by
        rw [hy]
        rfl
      rw [List.mapM_cons, outcome_bind, hstep]
      simp only
      rw [outcome_bind, hys]
      rfl

namespace Service

/-!
# One finding
-/

theorem mapFinding_shown {uri : Text} {e : Entry} {component : Option Component} {version : Nat}
    {p : Projection} {f : Finding}
    (hbuild : Projection.build? uri e.text (Document.ofText e.text) component version = some p)
    (hinsertion : p.insertion ≤ (e.text.slice p.scriptStart p.scriptStop).length)
    (hworded : f.Worded) : exists d, mapFinding e p f = .ok d ∧ f.ShownAs e p d := by
  rcases hworded.message with ⟨m, hm⟩
  have hmessage : f.message.textOf = .ok m.toList := by
    rw [hm]
    rfl
  have hmapped : exists source, mapFinding e p f =
      .ok ⟨p.rangeOf e.text f.start f.length, m.toList, severityOf? f.severity, f.code,
        source⟩ := by
    unfold mapFinding
    rw [hmessage]
    dsimp only
    split
    · rename_i htruthy
      rcases hworded.source htruthy with ⟨text, htext⟩
      rw [htext]
      exact ⟨text.toList, rfl⟩
    · exact ⟨"ts".toList, rfl⟩
  rcases hmapped with ⟨source, hmapped⟩
  refine ⟨_, hmapped, ?_⟩
  rcases Lines.rangeOf_places e.text (p.toDocument f.start)
    (p.toDocument f.start + f.length) with ⟨first, last, hle, hlast, hrange⟩
  constructor
  · exact hmessage
  · exact ⟨first, last, Nat.le_trans hle hlast, hlast, hrange⟩
  · show (p.rangeOf e.text f.start f.length).start.NotAfter (p.rangeOf e.text f.start f.length).stop
    rw [Projection.rangeOf, hrange]
    exact Lines.placeAt_notAfter e.text hle hlast
  · intro start length hstart hlength
    rw [hstart, hlength]
    exact Projection.rangeOf_delimits hbuild hinsertion start length

/-!
# All findings of a document
-/

/--
Whatever happened to the documents before, all findings in the projected script of a document are
shown, in their order: each at a range of the document that delimits what the finding is about.
-/
theorem findings_shown [ScriptParser] {s : ServiceState} {uri : Text} {e : Entry} {p : Projection}
    {findings : List Finding} (c : Surroundings) (hreached : s.workspace.store.Reached)
    (hentry : s.workspace.store.entryOf? uri = some e)
    (hprojection : (s.workspace.store.projection uri).value = some p)
    (hinsertion : p.insertion ≤ (e.text.slice p.scriptStart p.scriptStop).length)
    (hworded : forall f, f ∈ findings -> f.Worded) :
    exists shown, (outcome (mapFindings uri findings) c s).1 = .ok shown ∧
      List.Forall₂ (fun f d => f.ShownAs e p d) findings shown := by
  rcases hreached.coherent.projection_value hentry with ⟨version, hvalue⟩
  have hbuild := hvalue.symm.trans hprojection
  have heach : forall f, f ∈ findings -> exists d, mapFinding e p f = .ok d ∧ f.ShownAs e p d := by
    intro f hf
    exact mapFinding_shown hbuild hinsertion (hworded f hf)
  rcases outcome_mapM heach c (s.andLoad (s.workspace.store.projection uri)) with
    ⟨shown, hshown, hall⟩
  have hfound : outcome ( entry? uri) c s = (.ok (some e), s) := by
    rw [← hentry]
    rfl
  have hload : outcome (load fun store => store.projection uri) c s =
      (.ok (some p), s.andLoad (s.workspace.store.projection uri)) := by
    rw [← hprojection]
    rfl
  refine ⟨shown, ?_, hall⟩
  unfold mapFindings
  rw [outcome_bind, hfound]
  simp only
  rw [outcome_bind, hload]
  simp only
  rw [hshown]

def memberUri : Text :=
  "Member.vue".toList

def memberState : ServiceState where
  workspace := { store := Store.openText [] memberUri Projection.memberText 0 }

local instance : ScriptParser :=
  Projection.memberParser

def noFiles : Surroundings :=
  ⟨fun _ => .missing, []⟩

/-- One finding before the added method, one in an expression, and one behind the method. -/
def memberFindings : List Finding :=
  [⟨0, 6, .str "m", .null, .null, .null⟩, ⟨53, 1, .str "m", .null, .null, .str "x"⟩,
    ⟨57, 1, .str "m", .null, .null, .null⟩]

theorem memberFindings_worded {f : Finding} (h : f ∈ memberFindings) : f.Worded := by
  have hcases : f.message = .str "m" ∧ (f.source = .null ∨ f.source = .str "x") := by
    simp only [memberFindings, List.mem_cons, List.not_mem_nil, or_false] at h
    rcases h with rfl | rfl | rfl
    · exact ⟨rfl, Or.inl rfl⟩
    · exact ⟨rfl, Or.inr rfl⟩
    · exact ⟨rfl, Or.inl rfl⟩
  constructor
  · exact ⟨"m", hcases.1⟩
  · intro htruthy
    rcases hcases.2 with hnone | hsome
    · rw [hnone] at htruthy
      cases htruthy
    · exact ⟨"x", hsome⟩

theorem findings_shown_member :
    exists e p shown, memberState.workspace.store.Reached ∧
      memberState.workspace.store.entryOf? memberUri = some e ∧
      (memberState.workspace.store.projection memberUri).value = some p ∧
      p.insertion ≤ (e.text.slice p.scriptStart p.scriptStop).length ∧
      (outcome (mapFindings memberUri memberFindings) noFiles memberState).1 = .ok shown ∧
      shown.map (fun d => Lines.textIn e.text d.range) =
        ["export".toList, "a".toList, "\x7d".toList] := by
  let x : Expression := ⟨.interpolation, 13, 14, "a".toList, []⟩
  have hstored : (memberState.workspace.store.entryOf? memberUri).any
      (fun e => e.text = Projection.memberText) = true := by
    decide +kernel
  have hfacts : (memberState.workspace.store.projection memberUri).value.any (fun p =>
      p.insertion = 27 ∧ p.renderStop = 56 ∧
        p.text.slice 0 6 = "export".toList ∧ p.text.slice 57 58 = "\x7d".toList ∧
        p.text.length = 58 ∧
        p.insertion ≤ (Projection.memberText.slice p.scriptStart p.scriptStop).length ∧
        (Document.ofText Projection.memberText).template?.any (fun template =>
          x ∈ template.expressions Projection.memberText ∧
            p.placeOf Projection.memberText template x = 53) = true) = true := by
    decide +kernel
  rcases (Option.any_eq_true _ _).mp hstored with ⟨e, he, htext⟩
  rcases (Option.any_eq_true _ _).mp hfacts with ⟨p, hp, hplaces⟩
  rcases of_decide_eq_true hplaces with
    ⟨hinsertion, hstop, hfirst, hlast, hlength, hinside, htemplate⟩
  rcases (Option.any_eq_true _ _).mp htemplate with ⟨template, htemplate, hexpression⟩
  rcases of_decide_eq_true hexpression with ⟨hx, hplace⟩
  rw [← of_decide_eq_true htext] at hinside htemplate hx hplace
  have hreached : memberState.workspace.store.Reached :=
    Store.Reached.step Store.Reached.empty (.openText memberUri Projection.memberText 0)
  rcases findings_shown noFiles hreached he hp hinside (fun _ hf => memberFindings_worded hf) with
    ⟨shown, hshown, hall⟩
  refine ⟨e, p, shown, hreached, he, hp, hinside, hshown, ?_⟩
  rcases hall with _ | ⟨hbefore, _ | ⟨hamid, _ | ⟨hbehind, _ | _⟩⟩⟩
  have htextBefore := (hbefore.delimits 0 6 rfl rfl).before (by omega) (by omega)
  have htextInside := ((hamid.delimits 53 1 rfl rfl).expression template x 0 htemplate hx
    (by rw [hplace]) (by decide)).1
  have htextBehind := (hbehind.delimits 57 1 rfl rfl).behind (by omega) (by omega)
  simp only [List.map_cons, List.map_nil, htextBefore, htextInside, htextBehind, hfirst, hlast]
  rfl

/-- A span before the script is shown where no text of it stands, and a source has to be a text. -/
theorem finding_before_script :
    exists p shown, (memberState.workspace.store.projection memberUri).value = some p ∧
      (-1 : Int) < p.insertion ∧ (-1 + 1 : Int) ≤ p.insertion ∧
      (outcome (mapFindings memberUri [⟨-1, 1, .str "m", .null, .null, .null⟩]) noFiles
        memberState).1 = .ok shown ∧
      shown.map (fun d => Lines.textIn Projection.memberText d.range) = [">".toList] ∧
      '>' ∉ p.text ∧
      (outcome (mapFindings memberUri [⟨0, 1, .str "m", .null, .null, .int 5⟩]) noFiles
        memberState).1.toOption.isNone = true := by
  have hfacts : (memberState.workspace.store.projection memberUri).value.any (fun p =>
      p.insertion = 27 ∧ '>' ∉ p.text) = true ∧
      (outcome (mapFindings memberUri [⟨-1, 1, .str "m", .null, .null, .null⟩]) noFiles
        memberState).1.toOption.any (fun shown =>
          shown.map (fun d => Lines.textIn Projection.memberText d.range) = [">".toList]) = true ∧
      (outcome (mapFindings memberUri [⟨0, 1, .str "m", .null, .null, .int 5⟩]) noFiles
        memberState).1.toOption.isNone = true := by
    decide +kernel
  rcases hfacts with ⟨hprojection, hshown, hsource⟩
  rcases (Option.any_eq_true _ _).mp hprojection with ⟨p, hp, hplaces⟩
  rcases of_decide_eq_true hplaces with ⟨hinsertion, habsent⟩
  cases hresult : (outcome (mapFindings memberUri [⟨-1, 1, .str "m", .null, .null, .null⟩]) noFiles
      memberState).1 with
  | error f =>
      rw [hresult] at hshown
      cases hshown
  | ok shown =>
      rw [hresult] at hshown
      exact ⟨p, shown, hp, by omega, by omega, rfl, of_decide_eq_true hshown, habsent, hsource⟩

end Service
end SfcServer
