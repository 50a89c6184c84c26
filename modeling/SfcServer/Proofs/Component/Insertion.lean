import SfcServer.Component.Extract
import SfcServer.Proofs.Text.Characters

/-!
# Where a method is added to a class

A component names the offset at which a method can be added to its class.  All that is assumed of
the parser is that the body of the class is a row of nodes inside of the script, with a brace at
each end, and that signs are nodes of one character.  Then the offset lies between the braces:
elements and separators end there, and a body without elements begins right after its brace.

A method that follows a field on the same line is no member of its own.  Whether something stands
between the two is decided by what follows the field: a separator behind nothing but comments and
decorators, or a line feed behind nothing but blanks.  A comment before the line feed is not looked
past.
-/

namespace SfcServer

variable {source : Text}

/-!
# Ends of lines
-/

/-- From an offset on there is nothing but blanks up to some line feed. -/
def LineEnds (source : Text) (stop : Nat) : Prop :=
  exists i, stop ≤ i ∧ source[i]? = some '\n' ∧ (source.slice stop i).all Text.isBlank = true

namespace Text

theorem indexOf?_singleton (c : Char) (t : Text) : indexOf? [c] t = t.findIdx? (· == c) := by
  induction t with
  | nil =>
      rfl
  | cons d rest ih =>
      rw [indexOf?, ih, List.findIdx?_cons]
      have hhead : [c].isPrefixOf (d :: rest) = (d == c) := by
        rw [List.isPrefixOf, List.isPrefixOf, Bool.and_true, Bool.beq_comm]
      rw [hhead]

theorem indexOfFrom?_singleton {c : Char} {t : Text} {start i : Nat}
    (h : indexOfFrom? [c] t start = some i) :
    start ≤ i ∧ t[i]? = some c ∧ forall j, start ≤ j -> t[j]? = some c -> i ≤ j := by
  rw [indexOfFrom?, indexOf?_singleton] at h
  rcases Option.map_eq_some_iff.mp h with ⟨k, hk, rfl⟩
  rcases List.findIdx?_eq_some_iff_getElem.mp hk with ⟨hlength, hsame, hfirst⟩
  have hat : t[k + start]? = some c := by
    rw [Nat.add_comm, ← List.getElem?_drop, List.getElem?_eq_getElem hlength, beq_iff_eq.mp hsame]
  refine ⟨Nat.le_add_left _ _, hat, ?_⟩
  intro j hj hfound
  rcases Nat.lt_or_ge j (k + start) with hless | hge
  · obtain ⟨m, rfl⟩ : exists m, j = start + m := ⟨j - start, by omega⟩
    have hm : m < k := by omega
    rw [← List.getElem?_drop, List.getElem?_eq_getElem (Nat.lt_trans hm hlength),
      Option.some.injEq] at hfound
    exact absurd (beq_iff_eq.mpr hfound) (hfirst m hm)
  · exact hge

theorem indexOfFrom?_singleton_none {c : Char} {t : Text} {start i : Nat}
    (h : indexOfFrom? [c] t start = none) (hi : start ≤ i) : t[i]? ≠ some c := by
  rw [indexOfFrom?, indexOf?_singleton, Option.map_eq_none_iff, List.findIdx?_eq_none_iff] at h
  intro hfound
  obtain ⟨m, rfl⟩ : exists m, i = start + m := ⟨i - start, by omega⟩
  rw [← List.getElem?_drop] at hfound
  have hdiffers := h c (List.mem_of_getElem? hfound)
  rw [beq_self_eq_true] at hdiffers
  cases hdiffers

theorem slice_all_getElem? {p : Char -> Bool} {t : Text} {start stop k : Nat} {c : Char}
    (h : (t.slice start stop).all p = true) (hstart : start ≤ k) (hstop : k < stop)
    (hc : t[k]? = some c) : p c = true := by
  obtain ⟨m, rfl⟩ : exists m, k = start + m := ⟨k - start, by omega⟩
  rw [← slice_getElem? t hstop] at hc
  exact List.all_eq_true.mp h c (List.mem_of_getElem? hc)

end Text

namespace BodyReader

theorem afterLine_cases (source : Text) (stop : Nat) :
    (exists i, stop ≤ i ∧ source[i]? = some '\n' ∧ (source.slice stop i).all Text.isBlank = true ∧
      afterLine source stop = i + 1) ∨
    (¬ LineEnds source stop ∧ afterLine source stop = stop) := by
  unfold afterLine
  cases hfound : Text.indexOfFrom? ['\n'] source stop with
  | none =>
      exact Or.inr ⟨fun ⟨i, hi, hfeed, _⟩ =>
        Text.indexOfFrom?_singleton_none hfound hi hfeed, rfl⟩
  | some i =>
      rcases Text.indexOfFrom?_singleton hfound with ⟨hi, hfeed, hfirst⟩
      by_cases hblank : (source.slice stop i).all Text.isBlank = true
      · exact Or.inl ⟨i, hi, hfeed, hblank, if_pos hblank⟩
      · refine Or.inr ⟨?_, if_neg hblank⟩
        rintro ⟨j, hj, hlater, hblanks⟩
        have hlength : j < source.length := (List.getElem?_eq_some_iff.mp hlater).1
        refine hblank ((Text.StandsAt.slice source hj (Nat.le_of_lt hlength)).slice_all
          (List.all_eq_true.mp hblanks) (Nat.le_refl _) ?_)
        rw [Text.length_slice source stop j (Nat.le_of_lt hlength)]
        have hij := hfirst j hj hlater
        omega

theorem afterLine_le {stop k : Nat} {c : Char} (hstop : stop ≤ k) (hc : source[k]? = some c)
    (hblank : Text.isBlank c = false) : afterLine source stop ≤ k := by
  rcases afterLine_cases source stop with ⟨i, hi, hfeed, hblanks, hplace⟩ | ⟨_, hplace⟩
  · rw [hplace]
    rcases Nat.lt_trichotomy k i with hless | rfl | hmore
    · rw [Text.slice_all_getElem? hblanks hstop hless hc] at hblank
      cases hblank
    · rw [hfeed] at hc
      cases hc
      cases hblank
    · exact hmore
  · rw [hplace]
    exact hstop

/-!
# Steps of a reader
-/

def passedKinds : List String :=
  ["comment", "decorator"]

def separatorKinds : List String :=
  [";", ","]

variable {r : BodyReader} {n e : SyntaxNode} {nodes rest after : List SyntaxNode}
  {start stop place low high : Nat}

theorem step_cases (source : Text) (r : BodyReader) (n : SyntaxNode) :
    (n.kind ∈ passedKinds ∧ exists documentation pending,
      r.step source n = { r with documentation := documentation, pending := pending }) ∨
    (n.kind ∉ passedKinds ∧ n.kind ∈ separatorKinds ∧ r.step source n =
      if r.afterElement then { r with last := some (n.stopIn source), unended := false } else r) ∨
    (n.kind ∈ elementKinds ∧ r.step source n = r.addElement source n) ∨
    (n.kind ∉ passedKinds ∧ n.kind ∉ separatorKinds ∧ n.kind ∉ elementKinds ∧
      r.step source n = { r with afterElement := false }) := by
  unfold step
  simp only [passedKinds, separatorKinds, List.mem_cons, List.not_mem_nil, or_false]
  by_cases hcomment : n.kind = "comment"
  · exact Or.inl ⟨Or.inl hcomment, _, r.pending, if_pos hcomment⟩
  rw [if_neg hcomment]
  by_cases hdecorator : n.kind = "decorator"
  · exact Or.inl ⟨Or.inr hdecorator, r.documentation, _, if_pos hdecorator⟩
  rw [if_neg hdecorator]
  have hpassed : ¬ (n.kind = "comment" ∨ n.kind = "decorator") :=
    not_or.mpr ⟨hcomment, hdecorator⟩
  by_cases hsign : n.kind = ";" ∨ n.kind = ","
  · exact Or.inr (Or.inl ⟨hpassed, hsign, if_pos hsign⟩)
  rw [if_neg hsign]
  by_cases helement : n.kind ∈ elementKinds
  · exact Or.inr (Or.inr (Or.inl ⟨helement, if_pos helement⟩))
  · exact Or.inr (Or.inr (Or.inr ⟨hpassed, hsign, helement, if_neg helement⟩))

theorem elementKinds_apart : forall kind, kind ∈ elementKinds ->
    kind ∉ passedKinds ∧ kind ∉ separatorKinds := by
  decide

theorem step_of_element (source : Text) (r : BodyReader) (h : n.kind ∈ elementKinds) :
    r.step source n = r.addElement source n := by
  rcases step_cases source r n with ⟨hpassed, _⟩ | ⟨_, hsign, _⟩ | ⟨_, hstep⟩ | ⟨_, _, hother, _⟩
  · exact absurd hpassed (elementKinds_apart _ h).1
  · exact absurd hsign (elementKinds_apart _ h).2
  · exact hstep
  · exact absurd h hother

theorem foldl_idle (source : Text) (hnone : forall n, n ∈ nodes -> n.kind ∉ elementKinds)
    (hidle : r.afterElement = false) :
    (nodes.foldl (step source) r).last = r.last ∧
      (nodes.foldl (step source) r).unended = r.unended := by
  induction nodes generalizing r with
  | nil =>
      exact ⟨rfl, rfl⟩
  | cons n rest ih =>
      have hrest : forall other, other ∈ rest -> other.kind ∉ elementKinds :=
        fun other hother => hnone other (List.mem_cons_of_mem _ hother)
      rw [List.foldl_cons]
      rcases step_cases source r n with
        ⟨_, documentation, pending, hstep⟩ | ⟨_, _, hstep⟩ | ⟨helement, _⟩ | ⟨_, _, _, hstep⟩
      · rw [hstep]
        exact ih hrest hidle
      · rw [hstep, hidle]
        exact ih hrest hidle
      · exact absurd helement (hnone n List.mem_cons_self)
      · rw [hstep]
        exact ih hrest rfl

/-- A separator follows behind nothing but what is passed over. -/
def closesNext : List SyntaxNode -> Bool
  | [] => false
  | n :: rest => if n.kind ∈ passedKinds then closesNext rest else n.kind ∈ separatorKinds

theorem foldl_open (source : Text) (hnone : forall n, n ∈ nodes -> n.kind ∉ elementKinds)
    (hcloses : closesNext nodes = false) :
    (nodes.foldl (step source) r).last = r.last ∧
      (nodes.foldl (step source) r).unended = r.unended := by
  induction nodes generalizing r with
  | nil =>
      exact ⟨rfl, rfl⟩
  | cons n rest ih =>
      have hrest : forall other, other ∈ rest -> other.kind ∉ elementKinds :=
        fun other hother => hnone other (List.mem_cons_of_mem _ hother)
      rw [List.foldl_cons]
      rw [closesNext] at hcloses
      rcases step_cases source r n with
        ⟨hpassed, documentation, pending, hstep⟩ | ⟨hpassed, hsign, _⟩ | ⟨helement, _⟩ |
          ⟨_, _, _, hstep⟩
      · rw [if_pos hpassed] at hcloses
        rw [hstep]
        exact ih hrest hcloses
      · rw [if_neg hpassed, decide_eq_true hsign] at hcloses
        cases hcloses
      · exact absurd helement (hnone n List.mem_cons_self)
      · rw [hstep]
        exact foldl_idle source hrest rfl

end BodyReader

/-!
# Nodes in a row
-/

namespace SyntaxNode

/-- Nodes that stand one behind another between two bytes. -/
inductive Row : Nat -> List SyntaxNode -> Nat -> Prop where
  | nil {low high : Nat} (h : low ≤ high) : Row low [] high
  | cons {low high : Nat} {n : SyntaxNode} {rest : List SyntaxNode} (hlow : low ≤ n.start)
      (hspan : n.start ≤ n.stop) (hrest : Row n.stop rest high) : Row low (n :: rest) high

variable {n e : SyntaxNode} {nodes before rest : List SyntaxNode} {low high : Nat} {c : Char}

theorem Row.le (h : Row low nodes high) : low ≤ high := by
  induction h with
  | nil h =>
      exact h
  | cons hlow hspan _ ih =>
      exact Nat.le_trans hlow (Nat.le_trans hspan ih)

theorem Row.split (h : Row low (before ++ n :: rest) high) :
    Row low before n.start ∧ n.start ≤ n.stop ∧ Row n.stop rest high := by
  induction before generalizing low with
  | nil =>
      cases h with
      | cons hlow hspan hrest =>
          exact ⟨.nil hlow, hspan, hrest⟩
  | cons first before ih =>
      cases h with
      | cons hlow hspan hrest =>
          rcases ih hrest with ⟨hbefore, hrest⟩
          exact ⟨.cons hlow hspan hbefore, hrest⟩

/-- A node of a single character is a sign of this kind. -/
structure IsSign (source : Text) (c : Char) (n : SyntaxNode) : Prop where
  kind : n.kind = String.singleton c
  text : n.textIn source = [c]

/-- What the grammar of classes says of a class body: it is a row of nodes with braces at its ends,
which lies inside of the script, and separators in it are signs. -/
structure IsClassBody (source : Text) (body : SyntaxNode) : Prop where
  inside : body.stop ≤ (Utf8.encode source).length
  row : Row body.start body.children body.stop
  braces : exists opening inner closing, body.children = opening :: (inner ++ [closing]) ∧
    opening.IsSign source '\x7b' ∧ opening.start = body.start ∧
    closing.IsSign source '\x7d' ∧ closing.stop = body.stop
  separators : forall n, n ∈ body.children -> n.kind ∈ BodyReader.separatorKinds ->
    n.IsSign source ';' ∨ n.IsSign source ','

theorem characterAt_le (h : high ≤ (Utf8.encode source).length) :
    Utf8.characterAt source high ≤ source.length := by
  rw [← Utf8.characterAt_length source]
  exact Utf8.characterAt_mono h (Nat.le_refl _)

theorem IsSign.stands (h : n.IsSign source c) (hstop : n.stop ≤ (Utf8.encode source).length) :
    source[n.startIn source]? = some c ∧ n.stopIn source = n.startIn source + 1 := by
  have hlength := Text.length_slice source (n.startIn source) (n.stopIn source)
    (characterAt_le hstop)
  have htext : source.slice (n.startIn source) (n.stopIn source) = [c] := h.text
  rw [htext, List.length_singleton] at hlength
  refine ⟨?_, by omega⟩
  have hfirst : (source.slice (n.startIn source) (n.stopIn source))[0]? = some c := by
    rw [htext, List.getElem?_cons_zero]
  rwa [Text.slice_getElem? source (by omega), Nat.add_zero] at hfirst

/-- The class that a script exports was read with its body. -/
def ReadsBody (source : Text) (root : SyntaxNode) : Prop :=
  forall found, DefaultClass.ofTree? root = some found ->
    exists body, found.body? = some body ∧ body.IsClassBody source

end SyntaxNode

namespace BodyReader

open SyntaxNode

variable {r : BodyReader} {n : SyntaxNode} {nodes : List SyntaxNode}
  {stop bound low high : Nat}

def LastWithin (r : BodyReader) (low high : Nat) : Prop :=
  forall stop, r.last = some stop -> low ≤ stop ∧ stop ≤ high

theorem LastWithin.step (hspan : n.start ≤ n.stop) (hstop : n.stop ≤ (Utf8.encode source).length)
    (hr : r.LastWithin bound (n.startIn source)) (hbound : bound ≤ n.startIn source) :
    (r.step source n).LastWithin bound (n.stopIn source) := by
  have hwidth : n.startIn source ≤ n.stopIn source := Utf8.characterAt_mono hspan hstop
  have hsame : r.LastWithin bound (n.stopIn source) := fun stop hlast =>
    ⟨(hr stop hlast).1, Nat.le_trans (hr stop hlast).2 hwidth⟩
  have hend : forall stop, some (n.stopIn source) = some stop ->
      bound ≤ stop ∧ stop ≤ n.stopIn source := by
    rintro _ ⟨⟩
    exact ⟨Nat.le_trans hbound hwidth, Nat.le_refl _⟩
  rcases step_cases source r n with
    ⟨_, documentation, pending, hstep⟩ | ⟨_, _, hstep⟩ | ⟨_, hstep⟩ | ⟨_, _, _, hstep⟩
  · rw [hstep]
    exact hsame
  · rw [hstep]
    split
    · exact hend
    · exact hsame
  · rw [hstep]
    exact hend
  · rw [hstep]
    exact hsame

theorem LastWithin.foldl (h : Row low nodes high) (hinside : high ≤ (Utf8.encode source).length)
    (hr : r.LastWithin bound (Utf8.characterAt source low))
    (hbound : bound ≤ Utf8.characterAt source low) :
    (nodes.foldl (BodyReader.step source) r).LastWithin bound (Utf8.characterAt source high) := by
  induction h generalizing r with
  | nil h =>
      exact fun stop hlast => ⟨(hr stop hlast).1,
        Nat.le_trans (hr stop hlast).2 (Utf8.characterAt_mono h hinside)⟩
  | @cons low high n rest hlow hspan hrest ih =>
      have hstop : n.stop ≤ (Utf8.encode source).length := Nat.le_trans hrest.le hinside
      have hgap : Utf8.characterAt source low ≤ n.startIn source :=
        Utf8.characterAt_mono hlow (Nat.le_trans hspan hstop)
      have hwidth : n.startIn source ≤ n.stopIn source := Utf8.characterAt_mono hspan hstop
      have hstart : bound ≤ n.startIn source := Nat.le_trans hbound hgap
      refine ih hinside ?_ (Nat.le_trans hstart hwidth)
      refine LastWithin.step hspan hstop (fun stop hlast => ?_) hstart
      exact ⟨(hr stop hlast).1, Nat.le_trans (hr stop hlast).2 hgap⟩

/-- An element that a separator has ended stays ended, and further separators only add to it. -/
theorem foldl_ended (h : Row low nodes high) (hinside : high ≤ (Utf8.encode source).length)
    (hnone : forall n, n ∈ nodes -> n.kind ∉ elementKinds) (hlast : r.last = some stop)
    (hstop : stop ≤ Utf8.characterAt source low) (hended : r.unended = false) :
    (nodes.foldl (step source) r).unended = false ∧
      exists place, (nodes.foldl (step source) r).last = some place ∧ stop ≤ place := by
  induction h generalizing r stop with
  | nil h =>
      exact ⟨hended, stop, hlast, Nat.le_refl _⟩
  | @cons low high n rest hlow hspan hrest ih =>
      have hothers : forall other, other ∈ rest -> other.kind ∉ elementKinds :=
        fun other hother => hnone other (List.mem_cons_of_mem _ hother)
      have hnext : stop ≤ n.stopIn source :=
        Nat.le_trans hstop (Utf8.characterAt_mono (Nat.le_trans hlow hspan)
          (Nat.le_trans hrest.le hinside))
      rw [List.foldl_cons]
      rcases step_cases source r n with
        ⟨_, documentation, pending, hstep⟩ | ⟨_, _, hstep⟩ | ⟨helement, _⟩ | ⟨_, _, _, hstep⟩
      · rw [hstep]
        exact ih hinside hothers hlast hnext hended
      · rw [hstep]
        split
        · rcases ih hinside hothers
              (r := { r with last := some (n.stopIn source), unended := false })
              rfl (Nat.le_refl _) rfl with ⟨hunended, place, hplace, hle⟩
          exact ⟨hunended, place, hplace, Nat.le_trans hnext hle⟩
        · exact ih hinside hothers hlast hnext hended
      · exact absurd helement (hnone n List.mem_cons_self)
      · rw [hstep]
        exact ih hinside hothers hlast hnext hended

theorem foldl_closed (h : Row low nodes high) (hinside : high ≤ (Utf8.encode source).length)
    (hsigns : forall n, n ∈ nodes -> n.kind ∈ separatorKinds ->
      n.IsSign source ';' ∨ n.IsSign source ',')
    (hnone : forall n, n ∈ nodes -> n.kind ∉ elementKinds) (hlast : r.last = some stop)
    (hstop : stop ≤ Utf8.characterAt source low) (hwaits : r.afterElement = true)
    (hcloses : closesNext nodes = true) :
    (nodes.foldl (step source) r).unended = false ∧
      exists place, (nodes.foldl (step source) r).last = some place ∧ stop ≤ place ∧
        exists i c, stop ≤ i ∧ i < place ∧ source[i]? = some c ∧ (c = ';' ∨ c = ',') := by
  induction h generalizing r with
  | nil h =>
      cases hcloses
  | @cons low high n rest hlow hspan hrest ih =>
      have hothers : forall other, other ∈ rest -> other.kind ∉ elementKinds :=
        fun other hother => hnone other (List.mem_cons_of_mem _ hother)
      have hend : n.stop ≤ (Utf8.encode source).length := Nat.le_trans hrest.le hinside
      have hstart : stop ≤ n.startIn source :=
        Nat.le_trans hstop (Utf8.characterAt_mono hlow (Nat.le_trans hspan hend))
      rw [List.foldl_cons]
      rw [closesNext] at hcloses
      rcases step_cases source r n with
        ⟨hpassed, documentation, pending, hstep⟩ | ⟨hpassed, hsign, hstep⟩ | ⟨helement, _⟩ |
          ⟨hpassed, hsign, _, _⟩
      · rw [if_pos hpassed] at hcloses
        rw [hstep]
        exact ih hinside (fun other hother => hsigns other (List.mem_cons_of_mem _ hother)) hothers
          hlast (Nat.le_trans hstart (Utf8.characterAt_mono hspan hend)) hwaits hcloses
      · rw [hstep, if_pos hwaits]
        rcases foldl_ended (r := { r with last := some (n.stopIn source), unended := false })
          hrest hinside hothers rfl (Nat.le_refl _) rfl with ⟨hunended, place, hplace, hle⟩
        rcases hsigns n List.mem_cons_self hsign with hsemicolon | hcomma
        · rcases hsemicolon.stands hend with ⟨hat, hone⟩
          exact ⟨hunended, place, hplace, by omega, _, ';', hstart, by omega, hat, Or.inl rfl⟩
        · rcases hcomma.stands hend with ⟨hat, hone⟩
          exact ⟨hunended, place, hplace, by omega, _, ',', hstart, by omega, hat, Or.inr rfl⟩
      · exact absurd helement (hnone n List.mem_cons_self)
      · rw [if_neg hpassed, decide_eq_false hsign] at hcloses
        cases hcloses

end BodyReader

/-!
# The place for a method
-/

def Separated (source : Text) (start stop : Nat) : Prop :=
  exists i c, start ≤ i ∧ i < stop ∧ source[i]? = some c ∧ c ∈ [';', ',', '\n']

namespace SyntaxNode

open BodyReader

variable {body e : SyntaxNode} {after : List SyntaxNode}

/-- An offset lies after the opening brace and not after the closing one. -/
structure Encloses (source : Text) (body : SyntaxNode) (offset : Nat) : Prop where
  opening : source[body.startIn source]? = some '\x7b'
  after : body.startIn source < offset
  before : offset < body.stopIn source
  closing : source[body.stopIn source - 1]? = some '\x7d'

/-- The last element of a class body, and the nodes after it. -/
structure EndsWith (body e : SyntaxNode) (after : List SyntaxNode) : Prop where
  split : exists before, body.children = before ++ e :: after
  element : e.kind ∈ elementKinds
  last : forall n, n ∈ after -> n.kind ∉ elementKinds

def methodPlace (source : Text) (body : SyntaxNode) : Nat :=
  (BodyReader.ofBody source body).insertion source (body.startIn source)

theorem IsClassBody.encloses (h : body.IsClassBody source) :
    body.Encloses source (body.methodPlace source) := by
  rcases h.braces with ⟨opening, inner, closing, hchildren, hopening, hstart, hclosing, hstop⟩
  have hrow := h.row
  rw [hchildren] at hrow
  cases hrow with
  | cons hlow hspan hrow =>
      rcases hrow.split with ⟨hinner, hend, hlast⟩
      have hclosingStop : closing.stop ≤ (Utf8.encode source).length :=
        hstop ▸ h.inside
      have hclosingStart := Nat.le_trans hend hclosingStop
      have hopeningStop := Nat.le_trans hinner.le hclosingStart
      rcases hopening.stands hopeningStop with ⟨hbrace, hone⟩
      rcases hclosing.stands hclosingStop with ⟨hbrace', hone'⟩
      have hfirst : opening.startIn source = body.startIn source := by
        rw [startIn, hstart, startIn]
      have hfinal : closing.stopIn source = body.stopIn source := by
        rw [stopIn, hstop, stopIn]
      have hempty : ({} : BodyReader).step source opening = { afterElement := false } := by
        rw [step, hopening.kind]
        rfl
      have hbefore (r : BodyReader) :
          (r.step source closing).last = r.last ∧ (r.step source closing).unended = r.unended := by
        rw [step, hclosing.kind]
        exact ⟨rfl, rfl⟩
      have hwithin : LastWithin (inner.foldl (step source) { afterElement := false })
          (opening.stopIn source) (closing.startIn source) :=
        LastWithin.foldl hinner hclosingStart (fun stop hstop => nomatch hstop) (Nat.le_refl _)
      have hgap : opening.stopIn source ≤ closing.startIn source :=
        Utf8.characterAt_mono hinner.le hclosingStart
      have hread : (BodyReader.ofBody source body).last =
          (inner.foldl (step source) { afterElement := false }).last := by
        rw [ofBody, hchildren, List.foldl_cons, List.foldl_append, hempty, List.foldl_cons,
          List.foldl_nil, (hbefore _).1]
      rw [hfirst] at hbrace hone
      rw [hfinal] at hone'
      have hclosingAt : closing.startIn source = body.stopIn source - 1 := by omega
      rw [hclosingAt] at hbrace'
      refine ⟨hbrace, ?_, ?_, hbrace'⟩
      · unfold methodPlace BodyReader.insertion
        split
        · exact Nat.lt_succ_self _
        · next stop hlast =>
            have hlow := (hwithin stop (hread ▸ hlast)).1
            split
            · rcases afterLine_cases source stop with ⟨i, hi, _, _, hplace⟩ | ⟨_, hplace⟩
              · omega
              · omega
            · omega
      · unfold methodPlace BodyReader.insertion
        split
        · omega
        · next stop hlast =>
            have hhigh := (hwithin stop (hread ▸ hlast)).2
            split
            · have hbefore := afterLine_le (show stop ≤ _ by omega) hbrace' (by decide)
              omega
            · omega

theorem IsClassBody.methodPlace_cases (h : body.IsClassBody source)
    (hlast : body.EndsWith e after) :
    (closesNext after = true ∧ e.stopIn source ≤ body.methodPlace source ∧
      exists i c, e.stopIn source ≤ i ∧ i < body.methodPlace source ∧ source[i]? = some c ∧
        (c = ';' ∨ c = ',')) ∨
    (closesNext after = false ∧ body.methodPlace source =
      if needsSeparator e.kind then afterLine source (e.stopIn source) else e.stopIn source) := by
  rcases hlast.split with ⟨before, hsplit⟩
  have hrow := h.row
  rw [hsplit] at hrow
  rcases hrow.split with ⟨_, _, hafter⟩
  have hsigns : forall n, n ∈ after -> n.kind ∈ separatorKinds ->
      n.IsSign source ';' ∨ n.IsSign source ',' := fun n hn => h.separators n
    (hsplit ▸ List.mem_append_right _ (List.mem_cons_of_mem _ hn))
  unfold methodPlace BodyReader.ofBody
  rw [hsplit, List.foldl_append, List.foldl_cons, step_of_element source _ hlast.element]
  generalize hwaits : (before.foldl (step source) {}).addElement source e = r
  have hr : r.last = some (e.stopIn source) ∧ r.unended = needsSeparator e.kind ∧
      r.afterElement = true := by
    rw [← hwaits]
    exact ⟨rfl, rfl, rfl⟩
  cases hcloses : closesNext after with
  | true =>
      rcases foldl_closed hafter h.inside hsigns hlast.last hr.1 (Nat.le_refl _) hr.2.2 hcloses with
        ⟨hended, place, hplace, hle, hsign⟩
      left
      rw [BodyReader.insertion, hplace]
      dsimp only
      rw [hended, if_neg Bool.false_ne_true]
      exact ⟨rfl, hle, hsign⟩
  | false =>
      have hopen := foldl_open (r := r) source hlast.last hcloses
      right
      rw [BodyReader.insertion, hopen.1, hopen.2, hr.1, hr.2.1]
      exact ⟨rfl, rfl⟩

/-- A method added after a member that needs a separator is separated from it exactly when a
separator follows behind nothing but comments and decorators, or a line feed behind nothing but
blanks. -/
theorem IsClassBody.separated_iff (h : body.IsClassBody source) (hlast : body.EndsWith e after)
    (hneeds : needsSeparator e.kind = true) :
    Separated source (e.stopIn source) (body.methodPlace source) ↔
      closesNext after = true ∨ LineEnds source (e.stopIn source) := by
  rcases h.methodPlace_cases hlast with ⟨hcloses, _, i, c, hi, hbelow, hat, hsign⟩ |
    ⟨hcloses, hplace⟩
  · refine ⟨fun _ => Or.inl hcloses, fun _ => ⟨i, c, hi, hbelow, hat, ?_⟩⟩
    rcases hsign with rfl | rfl
    · exact List.mem_cons_self
    · exact List.mem_cons_of_mem _ List.mem_cons_self
  · rw [hplace, if_pos hneeds, hcloses]
    rcases afterLine_cases source (e.stopIn source) with
      ⟨i, hi, hfeed, hblanks, hline⟩ | ⟨hnone, hline⟩
    · refine ⟨fun _ => Or.inr ⟨i, hi, hfeed, hblanks⟩, fun _ => ⟨i, '\n', hi, ?_, hfeed, ?_⟩⟩
      · rw [hline]
        exact Nat.lt_succ_self _
      · exact List.mem_cons_of_mem _ (List.mem_cons_of_mem _ List.mem_cons_self)
    · rw [hline]
      refine ⟨fun ⟨i, _, hi, hbelow, _⟩ => absurd hbelow (Nat.not_lt_of_le hi), ?_⟩
      rintro (hfalse | hends)
      · cases hfalse
      · exact absurd hends hnone

theorem IsClassBody.le_methodPlace (h : body.IsClassBody source) (hlast : body.EndsWith e after) :
    e.stopIn source ≤ body.methodPlace source := by
  rcases h.methodPlace_cases hlast with ⟨_, hle, _⟩ | ⟨_, hplace⟩
  · exact hle
  · rw [hplace]
    split
    · rcases afterLine_cases source (e.stopIn source) with ⟨i, hi, _, _, hline⟩ | ⟨_, hline⟩
      · omega
      · omega
    · exact Nat.le_refl _

end SyntaxNode

namespace Component

theorem ofTree_any {source uri : Text} {root : SyntaxNode} {p : Component -> Bool}
    (h : (ofTree source uri root).toOption.any (fun found => found.any p) = true) :
    exists c, ofTree source uri root = .ok (some c) ∧ p c = true := by
  cases hresult : ofTree source uri root with
  | error f =>
      rw [hresult] at h
      cases h
  | ok found =>
      rw [hresult] at h
      rcases (Option.any_eq_true p found).mp h with ⟨c, rfl, hc⟩
      exact ⟨c, rfl, hc⟩

theorem ofTree_eq_some {source uri : Text} {root : SyntaxNode} {c : Component}
    (h : ofTree source uri root = .ok (some c)) :
    exists found, DefaultClass.ofTree? root = some found ∧
      ((found.body? = none ∧ c.members = [] ∧ c.insertion = none) ∨
        exists body, found.body? = some body ∧
          c.members = (BodyReader.ofBody source body).members ∧
          c.insertion = some (body.methodPlace source)) := by
  unfold ofTree at h
  split at h
  · cases h
  · next found hfound =>
      refine ⟨found, hfound, ?_⟩
      split at h
      · next hbody =>
          cases h
          exact Or.inl ⟨hbody, rfl, rfl⟩
      · next body hbody =>
          refine Or.inr ⟨body, hbody, ?_⟩
          dsimp only at h
          split at h
          · generalize registrations _ _ _ _ = registered at h
            cases registered with
            | error f =>
                cases h
            | ok rows =>
                cases h
                exact ⟨rfl, rfl⟩
          · cases h
            exact ⟨rfl, rfl⟩

/-- The place for a method lies between the braces of the class and not before the end of its last
element.  It is separated from a last element that needs it exactly when a separator follows that
element behind nothing but comments and decorators, or a line feed behind nothing but blanks. -/
theorem insertion_separated_iff {source uri : Text} {root : SyntaxNode} {c : Component}
    (h : ofTree source uri root = .ok (some c))
    (hbody : root.ReadsBody source) :
    exists found body insertion, DefaultClass.ofTree? root = some found ∧
      found.body? = some body ∧ c.insertion = some insertion ∧ body.Encloses source insertion ∧
      forall e after, body.EndsWith e after ->
        e.stopIn source ≤ insertion ∧
        (BodyReader.needsSeparator e.kind = true ->
          (Separated source (e.stopIn source) insertion ↔
            BodyReader.closesNext after = true ∨ LineEnds source (e.stopIn source))) := by
  rcases ofTree_eq_some h with ⟨found, hfound, hread⟩
  rcases hbody found hfound with ⟨body, hhas, hgrammar⟩
  rcases hread with ⟨hnone, _⟩ | ⟨other, hother, _, hinsertion⟩
  · rw [hnone] at hhas
    cases hhas
  · rw [hhas] at hother
    cases hother
    exact ⟨found, body, _, hfound, hhas, hinsertion, hgrammar.encloses, fun e after hlast =>
      ⟨hgrammar.le_methodPlace hlast, hgrammar.separated_iff hlast⟩⟩

/-- The tree of a script that exports the class `A`, with the nodes between its braces. -/
def classTree (items : List SyntaxNode) (brace stop : Nat) : SyntaxNode where
  kind := "program"
  start := 0
  stop := stop
  children := [{ kind := "export_statement", start := 0, stop := brace + 1, children := [
    .token "export" 0 6, .token "default" 7 14,
    { kind := "class_declaration", field := some "declaration", start := 15, stop := brace + 1,
      children := [.token "class" 15 20,
        { kind := "type_identifier", field := some "name", start := 21, stop := 22 },
        { kind := "class_body", field := some "body", start := 23, stop := brace + 1,
          children := .token "\x7b" 23 24 ::
            (items ++ [.token "\x7d" brace (brace + 1)]) }] }] }]

/-- A field with a number of one digit, given the kind and the parts of its name. -/
def fieldNode (kind : String) (start nameStop : Nat) (parts : List SyntaxNode) : SyntaxNode where
  kind := "public_field_definition"
  start := start
  stop := nameStop + 4
  children := [
    { kind := kind, field := some "name", start := start, stop := nameStop, children := parts },
    .token "=" (nameStop + 1) (nameStop + 2),
    { kind := "number", field := some "value", start := nameStop + 3, stop := nameStop + 4 }]

def fieldText (ending : String) : Text :=
  "export default class A \x7b\n  a = 1".toList ++ ending.toList ++ "\n\x7d\n".toList

/-- The tree of that class, with the comments on the line of the field. -/
def fieldTree (comments : List SyntaxNode) (brace : Nat) : SyntaxNode :=
  classTree (fieldNode "property_identifier" 27 28 [] :: comments) brace (brace + 2)

def lineComment : SyntaxNode where
  kind := "comment"
  start := 33
  stop := 39

theorem fieldTree_readsBody {source : Text} {comments : List SyntaxNode} {brace : Nat}
    (hinside : brace + 1 ≤ (Utf8.encode source).length)
    (hrow : SyntaxNode.Row 32 (comments ++ [.token "\x7d" brace (brace + 1)]) (brace + 1))
    (hcomments : forall n, n ∈ comments -> n.kind = "comment")
    (hopening : (SyntaxNode.token "\x7b" 23 24).textIn source = ['\x7b'])
    (hclosing : (SyntaxNode.token "\x7d" brace (brace + 1)).textIn source = ['\x7d']) :
    (fieldTree comments brace).ReadsBody source := by
  rintro found ⟨⟩
  refine ⟨_, rfl, hinside, ?_, ?_, ?_⟩
  · exact .cons (Nat.le_refl 23) (by decide) (.cons (by decide) (by decide) hrow)
  · exact ⟨_, _ :: comments, _, rfl, ⟨rfl, hopening⟩, rfl, ⟨rfl, hclosing⟩, rfl⟩
  · intro n hn hkind
    have hnone : n.kind ∉ BodyReader.separatorKinds := by
      rcases List.mem_cons.mp hn with rfl | hn
      · decide
      rcases List.mem_cons.mp hn with rfl | hn
      · decide
      rcases List.mem_append.mp hn with hcomment | hbrace
      · rw [hcomments n hcomment]
        decide
      · rw [List.mem_singleton.mp hbrace]
        exact (by decide : "\x7d" ∉ BodyReader.separatorKinds)
    exact absurd hkind hnone

theorem fieldTree_endsWith (comments : List SyntaxNode) (brace : Nat)
    (hcomments : forall n, n ∈ comments -> n.kind = "comment") :
    exists found body after, DefaultClass.ofTree? (fieldTree comments brace) = some found ∧
      found.body? = some body ∧
      body.EndsWith (fieldNode "property_identifier" 27 28 []) after := by
  refine ⟨_, _, _, rfl, rfl, ⟨[_], rfl⟩, by decide, ?_⟩
  intro n hn
  rcases List.mem_append.mp hn with hcomment | hbrace
  · rw [hcomments n hcomment]
    decide
  · rw [List.mem_singleton.mp hbrace]
    exact (by decide : "\x7d" ∉ BodyReader.elementKinds)

theorem insertion_separated_iff_line :
    exists (c : Component) (found : DefaultClass) (body e : SyntaxNode) (after : List SyntaxNode)
      (insertion : Nat),
      ofTree (fieldText "") [] (fieldTree [] 33) = .ok (some c) ∧
      (fieldTree [] 33).ReadsBody (fieldText "") ∧
      DefaultClass.ofTree? (fieldTree [] 33) = some found ∧ found.body? = some body ∧
      body.EndsWith e after ∧ BodyReader.needsSeparator e.kind = true ∧
      c.insertion = some insertion ∧
      Separated (fieldText "") (e.stopIn (fieldText "")) insertion := by
  have hread : (ofTree (fieldText "") [] (fieldTree [] 33)).toOption.any
      (fun found => found.any fun c => c.insertion.isSome) = true := by
    decide +kernel
  have hbody : (fieldTree [] 33).ReadsBody (fieldText "") :=
    fieldTree_readsBody (by decide +kernel) (.cons (by decide) (by decide) (.nil (Nat.le_refl _)))
      (fun n hn => nomatch hn) (by decide +kernel) (by decide +kernel)
  have hline : LineEnds (fieldText "")
      ((fieldNode "property_identifier" 27 28 []).stopIn (fieldText "")) := by
    have hend : (fieldNode "property_identifier" 27 28 []).stopIn (fieldText "") = 32 := by
      decide +kernel
    rw [hend]
    exact ⟨32, Nat.le_refl _, rfl, rfl⟩
  rcases ofTree_any hread with ⟨c, hc, _⟩
  rcases insertion_separated_iff hc hbody with
    ⟨found, body, insertion, hfound, hhas, hplace, _, hlast⟩
  rcases fieldTree_endsWith [] 33 (fun n hn => nomatch hn) with
    ⟨same, own, after, hsame, hown, hends⟩
  rw [hfound, Option.some.injEq] at hsame
  rw [← hsame, hhas, Option.some.injEq] at hown
  rw [← hown] at hends
  exact ⟨c, found, body, _, after, insertion, hc, hbody, hfound, hhas, hends, rfl, hplace,
    ((hlast _ after hends).2 rfl).mpr (Or.inr hline)⟩

/-- A comment between a field and its line feed leaves the method right behind the field. -/
theorem field_unseparated :
    exists (c : Component) (found : DefaultClass) (body e : SyntaxNode) (after : List SyntaxNode),
      ofTree (fieldText " // one") [] (fieldTree [lineComment] 40) = .ok (some c) ∧
      (fieldTree [lineComment] 40).ReadsBody (fieldText " // one") ∧
      DefaultClass.ofTree? (fieldTree [lineComment] 40) = some found ∧ found.body? = some body ∧
      body.EndsWith e after ∧ BodyReader.needsSeparator e.kind = true ∧
      c.insertion = some (e.stopIn (fieldText " // one")) ∧
      ¬ Separated (fieldText " // one") (e.stopIn (fieldText " // one"))
        (e.stopIn (fieldText " // one")) := by
  have hread : (ofTree (fieldText " // one") [] (fieldTree [lineComment] 40)).toOption.any
      (fun found => found.any fun c => c.insertion = some 32) = true := by
    decide +kernel
  have hcomments : forall n, n ∈ [lineComment] -> n.kind = "comment" := by
    decide
  have hend : (fieldNode "property_identifier" 27 28 []).stopIn (fieldText " // one") = 32 := by
    decide +kernel
  rcases ofTree_any hread with ⟨c, hc, hplace⟩
  rcases fieldTree_endsWith [lineComment] 40 hcomments with
    ⟨found, body, after, hfound, hhas, hends⟩
  refine ⟨c, found, body, _, after, hc, ?_, hfound, hhas, hends, rfl, ?_, ?_⟩
  · exact fieldTree_readsBody (by decide +kernel)
      (.cons (by decide) (by decide) (.cons (by decide) (by decide) (.nil (Nat.le_refl _))))
      hcomments (by decide +kernel) (by decide +kernel)
  · rw [hend]
    exact of_decide_eq_true hplace
  · exact fun ⟨i, _, hi, hbelow, _⟩ => absurd hbelow (Nat.not_lt_of_le hi)

end Component
end SfcServer
