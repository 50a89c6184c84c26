import Mathlib.Data.Option.Basic
import SfcServer.Proofs.Component.Insertion
import SfcServer.Uri.Percent

/-!
# Names of members

A member of a component is an element of the class body that is not static and whose name is not
computed.  It is known by that name as it is written, but without quotes, and the offset of the
name is where that text stands.

The names that a template can use are declared at the start of the added method.  Such a name can
be bound exactly when it was written as a word or in quotes, is a word, and is not reserved.  Which
characters words are made of is left open; what counts is the name that a word spells, with its
escapes resolved.
-/

namespace SfcServer

/-!
# Names of bindings
-/

/-- The characters of words.  No number and no private name begins like a word. -/
structure Letters where
  starts : Char -> Bool
  continues : Char -> Bool
  starts_plain : forall c, starts c = true -> Text.isAsciiDigit c = false ∧ c ≠ '.' ∧ c ≠ '#'

def Letters.ascii : Letters where
  starts c := c.isAlpha || c == '_' || c == '$'
  continues c := c.isAlphanum || c == '_' || c == '$'
  starts_plain := by
    intro c hstarts
    have hdigit : Text.isAsciiDigit c = false := by
      cases hdigit : Text.isAsciiDigit c with
      | false =>
          rfl
      | true =>
          simp only [Text.isAsciiDigit, Bool.and_eq_true, decide_eq_true_eq] at hdigit
          simp only [Bool.or_eq_true, beq_iff_eq, isAlpha_iff] at hstarts
          rcases hstarts with ((hupper | hlower) | rfl) | rfl
          · omega
          · omega
          · revert hdigit
            decide
          · revert hdigit
            decide
    refine ⟨hdigit, ?_, ?_⟩
    · rintro rfl
      cases hstarts
    · rintro rfl
      cases hstarts

/-- The words that cannot name a binding in a method of an exported class: those that are reserved
everywhere, in a module, or in strict code, and those that strict code lets nobody bind. -/
def reservedWords : List String :=
  ["break", "case", "catch", "class", "const", "continue", "debugger", "default", "delete", "do",
    "else", "enum", "export", "extends", "false", "finally", "for", "function", "if", "import",
    "in", "instanceof", "new", "null", "return", "super", "switch", "this", "throw", "true", "try",
    "typeof", "var", "void", "while", "with", "await", "implements", "interface", "let", "package",
    "private", "protected", "public", "static", "yield", "arguments", "eval"]

def escaped? (digits : Text) : Option Char := do
  guard (!digits.isEmpty)
  let value ← digits.foldlM (fun value c => (Percent.hexValue? c).map (value * 16 + ·)) 0
  guard value.isValidChar
  return Char.ofNat value

/-- What a text spells when its escapes are resolved, none if one of them is broken; inside an
escape in braces, its digits so far are kept. -/
def spelledFrom? : Option Text -> Text -> Option Text
  | some _, [] => none
  | some digits, '\x7d' :: rest => return (← escaped? digits) :: (← spelledFrom? none rest)
  | some digits, c :: rest => spelledFrom? (some (digits ++ [c])) rest
  | none, [] => some []
  | none, '\\' :: 'u' :: '\x7b' :: rest => spelledFrom? (some []) rest
  | none, '\\' :: 'u' :: a :: b :: c :: d :: rest =>
    return (← escaped? [a, b, c, d]) :: (← spelledFrom? none rest)
  | none, '\\' :: _ => none
  | none, c :: rest => return c :: (← spelledFrom? none rest)

namespace Text

def spelled? (t : Text) : Option Text :=
  spelledFrom? none t

def isWord (letters : Letters) (t : Text) : Bool :=
  match t.spelled? with
  | some (c :: rest) => letters.starts c && rest.all letters.continues
  | _ => false

def isReserved (t : Text) : Bool :=
  t.spelled?.any fun name => reservedWords.contains (String.ofList name)

end Text

/-- A name that a binding can have. -/
structure Bindable (letters : Letters) (name : Text) : Prop where
  word : name.isWord letters = true
  free : name.isReserved = false

instance (letters : Letters) (name : Text) : Decidable (Bindable letters name) :=
  decidable_of_iff (name.isWord letters = true ∧ name.isReserved = false)
    ⟨fun h => ⟨h.1, h.2⟩, fun h => ⟨h.word, h.free⟩⟩

variable {letters : Letters} {source uri : Text} {root body e n : SyntaxNode} {m : Member}

theorem Text.isWord_cons_false {c : Char} (hstart : letters.starts c = false) (hplain : c ≠ '\\')
    (rest : Text) : Text.isWord letters (c :: rest) = false := by
  have hspelled : spelled? (c :: rest) = (spelledFrom? none rest).map (c :: ·) := by
    rw [spelled?, spelledFrom?]
    · cases spelledFrom? none rest <;> rfl
    · exact fun _ hescape => absurd hescape hplain
    · exact fun _ _ _ _ _ hescape => absurd hescape hplain
    · exact hplain
  rw [isWord, hspelled]
  cases spelledFrom? none rest with
  | none =>
      rfl
  | some name =>
      simp only [Option.map_some, hstart, Bool.false_and]

/-!
# Members of a class body
-/

namespace SyntaxNode

def memberKinds : List String :=
  ["method_definition", "public_field_definition"]

/-- An element of a class declares a member under the name in one of its nodes. -/
structure Declares (source : Text) (e n : SyntaxNode) (m : Member) : Prop where
  kind : e.kind ∈ memberKinds
  bound : forall x, x ∈ e.children -> x.kind ≠ "static" ∧ x.kind ≠ "static get"
  node : e.childOf? "name" = some n
  name : n.memberName source = (m.name, m.nameStart)
  nonempty : m.name ≠ []

theorem declares_of_member? {frame : ElementFrame} (h : e.member? source frame = some m) :
    exists n, Declares source e n m := by
  unfold member? at h
  rcases Option.bind_eq_some_iff.mp h with ⟨_, hbound, h⟩
  rcases Option.bind_eq_some_iff.mp h with ⟨n, hnode, h⟩
  rcases Option.bind_eq_some_iff.mp h with ⟨_, hnonempty, h⟩
  have hbound : forall x, x ∈ e.children -> x.kind ≠ "static" ∧ x.kind ≠ "static get" :=
    fun x hx => of_decide_eq_true (List.all_eq_true.mp ((Option.guard_eq_some' _).mp hbound) x hx)
  have hnonempty : (n.memberName source).1 ≠ [] := by
    have hfull := (Option.guard_eq_some' _).mp hnonempty
    rintro hempty
    rw [hempty] at hfull
    cases hfull
  have hdeclares (hkind : e.kind ∈ memberKinds)
      (hname : m.name = (n.memberName source).1 ∧ m.nameStart = (n.memberName source).2) :
      exists n, Declares source e n m := by
    refine ⟨n, hkind, hbound, hnode, ?_, ?_⟩
    · rw [hname.1, hname.2]
    · rw [hname.1]
      exact hnonempty
  split at h
  · next hmethod =>
      have hkind : e.kind ∈ memberKinds := hmethod ▸ List.mem_cons_self
      split at h
      · split at h
        · cases h
          exact hdeclares hkind ⟨rfl, rfl⟩
        · cases h
      · rcases Option.bind_eq_some_iff.mp h with ⟨_, _, h⟩
        cases h
        exact hdeclares hkind ⟨rfl, rfl⟩
  · split at h
    · next hfield =>
        cases h
        exact hdeclares (hfield ▸ List.mem_cons_of_mem _ List.mem_cons_self) ⟨rfl, rfl⟩
    · cases h

/-- The text of a name stands in the script, inside of its quotes if it has some. -/
theorem Declares.standsAt (h : e.Declares source n m) : source.StandsAt m.nameStart m.name := by
  have hname := h.name
  have hfull := h.nonempty
  rw [memberName] at hname
  split at hname
  · rcases Prod.mk.inj hname with ⟨htext, hstart⟩
    rw [← htext] at hfull
    rw [← htext, ← hstart]
    cases hquoted : n.textIn source with
    | nil =>
        rw [hquoted] at hfull
        exact absurd rfl hfull
    | cons quote rest =>
        have hwhole : source.StandsAt (n.startIn source) (n.textIn source) :=
          Text.StandsAt.slice_of_ne_nil fun hempty => nomatch hquoted.symm.trans hempty
        rw [hquoted] at hwhole hfull
        have hinner : rest.dropLast ≠ [] := hfull
        have hrest : rest ≠ [] := fun hempty => hinner (by rw [hempty]; rfl)
        have htail := hwhole.tail
        rw [← List.dropLast_concat_getLast hrest] at htail
        exact htail.left
  · split at hname
    · rcases Prod.mk.inj hname with ⟨htext, _⟩
      exact absurd htext.symm hfull
    · rcases Prod.mk.inj hname with ⟨htext, hstart⟩
      rw [← htext] at hfull
      rw [← htext, ← hstart]
      exact Text.StandsAt.slice_of_ne_nil hfull

/-- What the grammar of classes says of the name of an element: it is of one of five kinds, of which
numbers begin with a digit or a point and private names with their sign. -/
structure IsPropertyName (source : Text) (n : SyntaxNode) : Prop where
  kind : n.kind ∈ ["property_identifier", "private_property_identifier", "string", "number",
    "computed_property_name"]
  number : n.kind = "number" -> exists c rest,
    n.textIn source = c :: rest ∧ (Text.isAsciiDigit c = true ∨ c = '.')
  privateName : n.kind = "private_property_identifier" -> exists rest,
    n.textIn source = '#' :: rest

/-- The elements of the class that a script exports were read with their names. -/
def ReadsNames (source : Text) (root : SyntaxNode) : Prop :=
  forall found body e n, DefaultClass.ofTree? root = some found -> found.body? = some body ->
    e ∈ body.children -> e.kind ∈ memberKinds -> e.childOf? "name" = some n ->
      n.IsPropertyName source

theorem Declares.bindable_iff (h : e.Declares source n m) (hname : n.IsPropertyName source) :
    Bindable letters m.name ↔ (n.kind = "property_identifier" ∨ n.kind = "string") ∧
      m.name.isWord letters = true ∧ m.name.isReserved = false := by
  refine ⟨fun hbindable => ⟨?_, hbindable.word, hbindable.free⟩, fun ⟨_, hword, hfree⟩ =>
    ⟨hword, hfree⟩⟩
  have hplain {c : Char} {rest : Text} (htext : m.name = c :: rest) (hc : c ≠ '\\') :
      Text.isAsciiDigit c = false ∧ c ≠ '.' ∧ c ≠ '#' := by
    cases hstarts : letters.starts c with
    | true =>
        exact letters.starts_plain c hstarts
    | false =>
        have hword := hbindable.word
        rw [htext, Text.isWord_cons_false hstarts hc] at hword
        cases hword
  have hwritten (hstring : n.kind ≠ "string") (hcomputed : n.kind ≠ "computed_property_name") :
      m.name = n.textIn source := by
    have hpair := h.name
    rw [memberName, if_neg hstring, if_neg hcomputed] at hpair
    exact (congrArg Prod.fst hpair).symm
  have hkinds := hname.kind
  simp only [List.mem_cons, List.not_mem_nil, or_false] at hkinds
  rcases hkinds with hkind | hkind | hkind | hkind | hkind
  · exact Or.inl hkind
  · rcases hname.privateName hkind with ⟨rest, htext⟩
    rw [← hwritten (by rw [hkind]; decide) (by rw [hkind]; decide)] at htext
    exact absurd rfl (hplain htext (by decide)).2.2
  · exact Or.inr hkind
  · rcases hname.number hkind with ⟨c, rest, htext, hhead⟩
    rw [← hwritten (by rw [hkind]; decide) (by rw [hkind]; decide)] at htext
    rcases hhead with hdigit | rfl
    · have hc : c ≠ '\\' := by
        rintro rfl
        revert hdigit
        decide
      rw [(hplain htext hc).1] at hdigit
      cases hdigit
    · exact absurd rfl (hplain htext (by decide)).2.1
  · have hpair := h.name
    rw [memberName, hkind] at hpair
    exact absurd (congrArg Prod.fst hpair).symm h.nonempty

end SyntaxNode

theorem BodyReader.mem_members_foldl {nodes : List SyntaxNode} {r : BodyReader}
    (h : m ∈ (nodes.foldl (step source) r).members) :
    m ∈ r.members ∨ exists e n, e ∈ nodes ∧ e.Declares source n m := by
  induction nodes generalizing r with
  | nil =>
      exact Or.inl h
  | cons first rest ih =>
      rcases ih h with hstep | ⟨e, n, he, hdeclares⟩
      · rcases step_cases source r first with
          ⟨_, documentation, pending, hread⟩ | ⟨_, _, hread⟩ | ⟨_, hread⟩ | ⟨_, _, _, hread⟩
        · rw [hread] at hstep
          exact Or.inl hstep
        · rw [hread] at hstep
          split at hstep
          · exact Or.inl hstep
          · exact Or.inl hstep
        · rw [hread] at hstep
          rcases List.mem_append.mp hstep with hbefore | hnow
          · exact Or.inl hbefore
          · rcases SyntaxNode.declares_of_member? (Option.mem_toList.mp hnow) with ⟨n, hdeclares⟩
            exact Or.inr ⟨first, n, List.mem_cons_self, hdeclares⟩
        · rw [hread] at hstep
          exact Or.inl hstep
      · exact Or.inr ⟨e, n, List.mem_cons_of_mem _ he, hdeclares⟩

/-!
# Members of a component
-/

namespace Component

theorem member_declared {c : Component} (h : ofTree source uri root = .ok (some c))
    (hm : m ∈ c.members) :
    exists found body e n, DefaultClass.ofTree? root = some found ∧ found.body? = some body ∧
      e ∈ body.children ∧ e.Declares source n m := by
  rcases ofTree_eq_some h with ⟨found, hfound, ⟨_, hnone, _⟩ | ⟨body, hbody, hmembers, _⟩⟩
  · rw [hnone] at hm
    cases hm
  · rw [hmembers] at hm
    rcases BodyReader.mem_members_foldl hm with hnone | ⟨e, n, he, hdeclares⟩
    · cases hnone
    · exact ⟨found, body, e, n, hfound, hbody, he, hdeclares⟩

theorem mem_all_ofKind {c : Component} {m : Member} :
    m ∈ MemberKind.all.flatMap c.ofKind ↔ m ∈ c.members := by
  simp only [List.mem_flatMap, ofKind, List.mem_filter, decide_eq_true_eq]
  refine ⟨fun ⟨_, _, hm, _⟩ => hm, fun hm => ⟨m.kind, ?_, hm, rfl⟩⟩
  cases m.kind <;> decide

theorem exists_member_of_mem_names {c : Component} {name : Text} (h : name ∈ c.names) :
    exists m, m ∈ c.members ∧ m.name = name := by
  rcases List.mem_map.mp h with ⟨m, hm, hname⟩
  refine ⟨m, mem_all_ofKind.mp ?_, hname⟩
  rcases List.mem_append.mp hm with hmodel | hother
  · exact List.mem_flatMap.mpr
      ⟨.model, List.mem_cons_self, List.mem_of_mem_head? (Option.mem_toList.mp hmodel)⟩
  · rcases List.mem_flatMap.mp hother with ⟨kind, hkind, hmember⟩
    exact List.mem_flatMap.mpr ⟨kind, List.mem_of_mem_tail hkind, hmember⟩

theorem find?_of_mem_names {c : Component} {name : Text} (h : name ∈ c.names) :
    exists m, c.find? name = some m ∧ m ∈ c.members ∧ m.name = name := by
  rcases exists_member_of_mem_names h with ⟨m, hm, hname⟩
  cases hfound : c.find? name with
  | none =>
      have hdiffers := List.find?_eq_none.mp hfound m (mem_all_ofKind.mpr hm)
      exact absurd (decide_eq_true hname) hdiffers
  | some found =>
      have hsame := List.find?_some (p := fun m : Member => m.name = name) hfound
      exact ⟨found, rfl, mem_all_ofKind.mp (List.mem_of_find?_eq_some hfound),
        of_decide_eq_true hsame⟩

/-- A declared name can be bound exactly when it was written as a word or in quotes, is a word, and
is not reserved. -/
theorem names_bindable_iff (letters : Letters) {c : Component} {name : Text}
    (h : ofTree source uri root = .ok (some c)) (hnames : root.ReadsNames source)
    (hname : name ∈ c.names) :
    exists found body e n m, DefaultClass.ofTree? root = some found ∧ found.body? = some body ∧
      e ∈ body.children ∧ e.Declares source n m ∧ m.name = name ∧
      (Bindable letters name ↔ (n.kind = "property_identifier" ∨ n.kind = "string") ∧
        name.isWord letters = true ∧ name.isReserved = false) := by
  rcases exists_member_of_mem_names hname with ⟨m, hm, rfl⟩
  rcases member_declared h hm with ⟨found, body, e, n, hfound, hbody, he, hdeclares⟩
  have hproperty := hnames found body e n hfound hbody he hdeclares.kind hdeclares.node
  exact ⟨found, body, e, n, m, hfound, hbody, he, hdeclares, rfl, hdeclares.bindable_iff hproperty⟩

theorem fieldTree_readsNames :
    (fieldTree [] 33).ReadsNames (fieldText "") := by
  rintro found body e n ⟨⟩ ⟨⟩ he hkind hnode
  have hfield : e = fieldNode "property_identifier" 27 28 [] := by
    rcases List.mem_cons.mp he with rfl | he
    · exact absurd hkind (by decide)
    rcases List.mem_cons.mp he with rfl | he
    · rfl
    · rw [List.mem_singleton.mp he] at hkind
      exact absurd hkind (by decide)
  rw [hfield] at hnode
  cases hnode
  exact ⟨List.mem_cons_self, fun h => absurd h (by decide), fun h => absurd h (by decide)⟩

theorem names_bindable_iff_field :
    exists (c : Component) (found : DefaultClass) (body e n : SyntaxNode) (m : Member),
      ofTree (fieldText "") [] (fieldTree [] 33) = .ok (some c) ∧ "a".toList ∈ c.names ∧
      (fieldTree [] 33).ReadsNames (fieldText "") ∧
      DefaultClass.ofTree? (fieldTree [] 33) = some found ∧ found.body? = some body ∧
      e ∈ body.children ∧ e.Declares (fieldText "") n m ∧ m.name = "a".toList ∧
      Bindable .ascii "a".toList ∧
      (n.kind = "property_identifier" ∨ n.kind = "string") := by
  have hread : (ofTree (fieldText "") [] (fieldTree [] 33)).toOption.any
      (fun found => found.any fun c => "a".toList ∈ c.names) = true := by
    decide +kernel
  rcases ofTree_any hread with ⟨c, hc, hname⟩
  have hname := of_decide_eq_true hname
  rcases names_bindable_iff .ascii hc fieldTree_readsNames hname with
    ⟨found, body, e, n, m, hfound, hbody, he, hdeclares, hm, hiff⟩
  have hbindable : Bindable .ascii "a".toList := by
    decide
  exact ⟨c, found, body, e, n, m, hc, hname, fieldTree_readsNames, hfound, hbody, he, hdeclares, hm,
    hbindable, (hiff.mp hbindable).1⟩

/-- Members that are private, quoted, numbers or called by a reserved word, and one more. -/
def namesText : Text :=
  "export default class A \x7b #a = 1; 'b-c' = 2; 12 = 3; delete = 4; e = 5; \x7d".toList

def namesTree : SyntaxNode :=
  classTree [
    fieldNode "private_property_identifier" 25 27 [], .token ";" 31 32,
    fieldNode "string" 33 38 [.token "'" 33 34,
      { kind := "string_fragment", start := 34, stop := 37 }, .token "'" 37 38], .token ";" 42 43,
    fieldNode "number" 44 46 [], .token ";" 50 51,
    fieldNode "property_identifier" 52 58 [], .token ";" 62 63,
    fieldNode "property_identifier" 64 65 [], .token ";" 69 70] 71 72

/-- Of the five names that such a class declares, only one can be bound. -/
theorem names_unbindable :
    exists c, ofTree namesText [] namesTree = .ok (some c) ∧
      c.names = ["#a", "b-c", "12", "delete", "e"].map String.toList ∧
      forall name, name ∈ c.names -> (Bindable .ascii name ↔ name = "e".toList) := by
  have hread : (ofTree namesText [] namesTree).toOption.any (fun found => found.any fun c =>
      c.names = ["#a", "b-c", "12", "delete", "e"].map String.toList) = true := by
    decide +kernel
  have honly : forall name, name ∈ ["#a", "b-c", "12", "delete", "e"].map String.toList ->
      (Bindable .ascii name ↔ name = "e".toList) := by
    decide +kernel
  rcases ofTree_any hread with ⟨c, hc, hnames⟩
  have hnames := of_decide_eq_true hnames
  refine ⟨c, hc, hnames, ?_⟩
  rw [hnames]
  exact honly

end Component
end SfcServer
