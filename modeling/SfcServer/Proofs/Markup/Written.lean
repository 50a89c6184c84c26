import SfcServer.Proofs.Markup.Cutting
import SfcServer.Proofs.Markup.TreeSteps
import SfcServer.Proofs.Text.Braces

/-!
# Written markup

A forest is markup in a form that is well-formed by its type: every element has its end tag,
is ended by `/>`, or needs none.  A forest is written as a text, and each of its elements has
its offsets there.  Reading the text gives these elements back.

The reader is followed from place to place: what it makes of a text that starts with one
written piece is what it makes of the rest, once it has taken the piece.
-/

namespace SfcServer

inductive Passage where
  | char (c : Char) (plain : c ≠ '<' ∧ c ≠ '\x7b' ∧ c ≠ '\x7d')
  | interpolation (body : Text) (braceless : body.Braceless)

def Passage.print : Passage -> Text
  | char c _ => [c]
  | interpolation body _ => '\x7b' :: '\x7b' :: (body ++ ['\x7d', '\x7d'])

/-- An attribute with the text between its quotes, if it has a value. -/
structure WrittenAttribute where
  name : Text
  value : Option Text
  named : name ≠ []
  nameChars : forall c, c ∈ name -> isAttributeNameChar c = true
  notOpening : name.head? ≠ some '<'
  unquoted : forall v, v ∈ value -> Text.doubleQuote ∉ v

namespace WrittenAttribute

def quoted (value : Text) : Text :=
  Text.doubleQuote :: (value ++ [Text.doubleQuote])

def print (a : WrittenAttribute) : Text :=
  ' ' :: (a.name ++
    match a.value with
    | none => []
    | some v => '=' :: quoted v)

def recorded (a : WrittenAttribute) : Attribute :=
  ⟨a.name, a.value.map quoted⟩

end WrittenAttribute

/-- The name and the attributes of a start tag. -/
structure WrittenTag where
  name : Text
  attributes : List WrittenAttribute
  initial : exists c rest, name = c :: rest ∧ Text.isLetter c = true
  nameChars : forall c, c ∈ name -> isTagNameChar c = true
  notRaw : RawElement.ofTag? name = none
  distinct : (attributes.map (·.name)).Nodup

namespace WrittenTag

def head (tag : WrittenTag) : Text :=
  '<' :: (tag.name ++ tag.attributes.flatMap WrittenAttribute.print)

def startTag (tag : WrittenTag) : Text :=
  tag.head ++ ['>']

def selfClosing (tag : WrittenTag) : Text :=
  tag.head ++ ['/', '>']

def endTag (tag : WrittenTag) : Text :=
  '<' :: '/' :: (tag.name ++ ['>'])

def isVoid (tag : WrittenTag) : Bool :=
  voidElements.contains (Text.lower tag.name)

/-- The element of a tag whose `>` or `/>` is still to come. -/
def opened (tag : WrittenTag) (start : Nat) : OpenElement where
  start := start
  tag := tag.name
  attributes := tag.attributes.map WrittenAttribute.recorded

def element (tag : WrittenTag) (start inside : Nat) (endTag : Option Nat) (stop : Nat)
    (children : List Element) : Element where
  tag := tag.name
  start := start
  stop := stop
  startTagEnd := some inside
  endTagStart := endTag
  closed := true
  attributes := tag.attributes.map WrittenAttribute.recorded
  children := children

end WrittenTag

/-- Elements and the text between them, each followed by its next sibling. -/
inductive Forest where
  | nil
  | text (passage : Passage) (rest : Forest)
  | void (tag : WrittenTag) (void : tag.isVoid = true) (rest : Forest)
  | selfClosed (tag : WrittenTag) (solid : tag.isVoid = false) (rest : Forest)
  | element (tag : WrittenTag) (solid : tag.isVoid = false) (children rest : Forest)

namespace Forest

def print : Forest -> Text
  | nil => []
  | text passage rest => passage.print ++ rest.print
  | void tag _ rest => tag.startTag ++ rest.print
  | selfClosed tag _ rest => tag.selfClosing ++ rest.print
  | element tag _ children rest =>
    tag.startTag ++ children.print ++ tag.endTag ++ rest.print

def elementsAt (offset : Nat) : Forest -> List Element
  | nil => []
  | text passage rest => rest.elementsAt (offset + passage.print.length)
  | void tag _ rest =>
    let stop := offset + tag.startTag.length
    tag.element offset stop none stop [] :: rest.elementsAt stop
  | selfClosed tag _ rest =>
    let stop := offset + tag.selfClosing.length
    tag.element offset stop none stop [] :: rest.elementsAt stop
  | element tag _ children rest =>
    let inside := offset + tag.startTag.length
    let endTag := inside + children.print.length
    let stop := endTag + tag.endTag.length
    tag.element offset inside (some endTag) stop (children.elementsAt inside) ::
      rest.elementsAt stop

end Forest

/-!
# Following the reader
-/

theorem runLength_eq {p : Char -> Bool} {front rest : Text}
    (hfront : forall c, c ∈ front -> p c = true)
    (hrest : forall c, rest.head? = some c -> p c = false) :
    runLength p (front ++ rest) = front.length := by
  unfold runLength
  rw [List.takeWhile_append_of_pos hfront, List.length_append]
  cases rest with
  | nil =>
      rfl
  | cons c rest =>
      rw [List.takeWhile_cons_of_neg (by simp [hrest c rfl])]
      rfl

namespace TreeReader

variable {r : TreeReader} {offset : Nat} {mode after : ScanMode} {kind : TokenKind} {c : Char}
  {front more : Text}

def read (r : TreeReader) (mode : ScanMode) (offset : Nat) (t : Text) : TreeReader :=
  (scanFrom mode offset t).foldl step r

theorem read_nil : r.read mode offset [] = r := by
  rw [read, scanFrom_nil]
  rfl

theorem read_token (h : ScanStep.next mode c (front ++ more) = ⟨kind, front.length, after⟩) :
    r.read mode offset (c :: (front ++ more)) =
      (r.step ⟨kind, c :: front, offset⟩).read after (offset + 1 + front.length) more := by
  unfold read
  rw [scanFrom_cons, h, List.foldl_cons, ScanStep.token, List.take_left, List.drop_left]

theorem read_char (h : ScanStep.next mode c more = ⟨kind, 0, after⟩) :
    r.read mode offset (c :: more) =
      (r.step ⟨kind, [c], offset⟩).read after (offset + 1) more := by
  have hfront : ScanStep.next mode c ([] ++ more) = ⟨kind, ([] : Text).length, after⟩ := h
  exact read_token hfront

/-!
# Text
-/

theorem contentLength_inside (front more : Text) :
    contentLength front.length (front ++ more) = front.length + contentLength 0 more := by
  induction front with
  | nil =>
      rw [List.nil_append, List.length_nil, Nat.zero_add]
  | cons c rest ih =>
      rw [List.cons_append, List.length_cons, contentLength, ih]
      omega

theorem read_content (hclosing : r.closing = false) (offset : Nat) (t : Text) :
    r.read .content offset t =
      r.read .content (offset + contentLength 0 t) (t.drop (contentLength 0 t)) := by
  cases t with
  | nil =>
      rfl
  | cons c rest =>
      by_cases hopen : c = '<'
      · rw [contentLength, if_pos hopen]
        rfl
      · have hnext : ScanStep.next .content c rest =
            ⟨.content, contentLength (interpolationExtra (c :: rest)) rest, .content⟩ :=
          ScanStep.content_other hopen rest
        have hskip : contentLength 0 (c :: rest) =
            contentLength (interpolationExtra (c :: rest)) rest + 1 := by
          rw [contentLength, if_neg hopen, Nat.add_comm]
        rw [hskip, List.drop_succ_cons]
        unfold read
        rw [scanFrom_cons, hnext, List.foldl_cons,
          step_aside r (Or.inr (Or.inl rfl)), settle_of_not_closing hclosing]
        rw [Nat.add_assoc offset 1, Nat.add_comm 1]

/-- A character that opens no tag, with the rest of its interpolation if it begins one. -/
theorem read_stretch (hclosing : r.closing = false) (hopen : c ≠ '<')
    (hextra : interpolationExtra (c :: (front ++ more)) = front.length) :
    r.read .content offset (c :: (front ++ more)) =
      r.read .content (offset + 1 + front.length) more := by
  have hoffset : offset + (front.length + contentLength 0 more + 1) =
      offset + 1 + front.length + contentLength 0 more := by
    omega
  rw [read_content hclosing, contentLength, if_neg hopen, hextra, contentLength_inside,
    read_content hclosing (offset + 1 + front.length) more, Nat.add_comm 1,
    List.drop_succ_cons, List.drop_length_add_append, hoffset]

theorem closingLength?_braceless {body : Text} (h : body.Braceless) (more : Text) :
    closingLength? (body ++ '\x7d' :: '\x7d' :: more) = some (body.length + 2) := by
  induction body with
  | nil =>
      rfl
  | cons c rest ih =>
      have hc := h c List.mem_cons_self
      have hrest := ih fun d hd => h d (List.mem_cons_of_mem c hd)
      rw [List.cons_append, closingLength?_cons, if_neg (fun hclose => hc.2 hclose.1),
        if_neg (fun hopen => hc.1 hopen.1), hrest]
      rfl

theorem read_passage (hclosing : r.closing = false) (passage : Passage) :
    r.read .content offset (passage.print ++ more) =
      r.read .content (offset + passage.print.length) more := by
  cases passage with
  | char c plain =>
      have hextra : interpolationExtra (c :: ([] ++ more)) = 0 := by
        rw [interpolationExtra_cons, if_neg (fun hbrace => plain.2.1 hbrace.1)]
      exact read_stretch hclosing plain.1 hextra
  | interpolation body braceless =>
      let front := '\x7b' :: (body ++ ['\x7d', '\x7d'])
      have hextra : interpolationExtra ('\x7b' :: (front ++ more)) = front.length := by
        have hclosed := closingLength?_braceless braceless more
        simp only [front, List.cons_append, List.append_assoc, List.nil_append]
        rw [interpolationExtra, hclosed]
        simp
      have hstretch : r.read .content offset ('\x7b' :: (front ++ more)) =
          r.read .content (offset + 1 + front.length) more :=
        read_stretch hclosing (by decide) hextra
      rw [Nat.add_assoc, Nat.add_comm 1] at hstretch
      exact hstretch

/-!
# Start tags
-/

def LeavesName (t : Text) : Prop :=
  exists c rest, t = c :: rest ∧ (c = ' ' ∨ c = '>' ∨ c = '/')

theorem LeavesName.head? (h : LeavesName more) {c : Char} (hc : more.head? = some c) :
    isTagNameChar c = false ∧ isAttributeNameChar c = false := by
  rcases h with ⟨d, rest, rfl, hd⟩
  cases hc
  rcases hd with rfl | rfl | rfl <;> decide

theorem LeavesName.attributes (h : LeavesName more) (attributes : List WrittenAttribute) :
    LeavesName (attributes.flatMap WrittenAttribute.print ++ more) := by
  cases attributes with
  | nil =>
      exact h
  | cons a rest =>
      exact ⟨' ', _, rfl, Or.inl rfl⟩

/-- A reader inside of an element that it has opened, with the attribute that awaits a value. -/
def inside (r : TreeReader) (top : OpenElement) (value : Option Text) : TreeReader :=
  { r with stack := top :: r.stack, valueOf := value, closing := false }

theorem step_open (hclosing : r.closing = false) (text : Text) :
    r.step ⟨.startTagOpen, text, offset⟩ = r.inside { start := offset } r.valueOf := by
  simp only [step, settle_of_not_closing hclosing, inside, ← hclosing]

/-- A reader takes the `<` and the name of a start tag. -/
theorem read_name (hclosing : r.closing = false) (tag : WrittenTag) (hmore : LeavesName more) :
    r.read .content offset ('<' :: (tag.name ++ more)) =
      (r.inside { start := offset, tag := tag.name } r.valueOf).read (.inTag none)
        (offset + 1 + tag.name.length) more := by
  rcases tag.initial with ⟨c, rest, hname, hletter⟩
  have hopen : ScanStep.next .content '<' (c :: (rest ++ more)) =
      ⟨.startTagOpen, 0, .afterOpen⟩ := by
    have hbang : c ≠ '!' := isLetter_ne hletter (by decide)
    have hslash : c ≠ '/' := isLetter_ne hletter (by decide)
    show ScanStep.content '<' (c :: (rest ++ more)) = _
    rw [ScanStep.content_tag, if_neg hbang, if_neg hslash, if_pos hletter]
  have hchars : forall d, d ∈ rest -> isTagNameChar d = true := by
    intro d hd
    exact tag.nameChars d (by rw [hname]; exact List.mem_cons_of_mem c hd)
  have hrun : runLength isTagNameChar (rest ++ more) = rest.length :=
    runLength_eq hchars fun d hd => (hmore.head? hd).1
  have hstart : ScanStep.next .afterOpen c (rest ++ more) =
      ⟨.startTag, rest.length, .inTag none⟩ := by
    rw [ScanStep.next_afterOpen _ (isTagNameChar_of_isLetter hletter), hrun, List.take_left,
      ← hname, tag.notRaw]
  rw [hname, List.cons_append, read_char hopen, step_open hclosing, read_token hstart,
    List.length_cons, Nat.add_comm rest.length, ← Nat.add_assoc]
  rfl

def Ready (mode : ScanMode) : Prop :=
  mode = .inTag none ∨ mode = .afterName none

theorem Ready.next (h : Ready mode) (hblank : Text.isBlank c = false) (hassign : c ≠ '=')
    (rest : Text) : ScanStep.next mode c rest = ScanStep.inTag none c rest := by
  rcases h with rfl | rfl
  · rfl
  · simp [ScanStep.next, ScanStep.afterName, hblank, hassign]

theorem Ready.blank (h : Ready mode) (hmore : forall d, more.head? = some d ->
    Text.isBlank d = false) :
    ScanStep.next mode ' ' more = ⟨.whitespace, 0, mode⟩ := by
  have hblank : Text.isBlank ' ' = true := by decide
  have hrun : runLength Text.isBlank ([] ++ more) = 0 :=
    runLength_eq (fun d hd => absurd hd List.not_mem_nil) hmore
  rw [List.nil_append] at hrun
  rcases h with rfl | rfl
  · simp [ScanStep.next, ScanStep.inTag, hblank, hrun]
  · simp [ScanStep.next, ScanStep.afterName, hblank, hrun]

theorem isAttributeNameChar_iff (c : Char) :
    isAttributeNameChar c = true ↔
      Text.isBlank c = false ∧ c ≠ Text.doubleQuote ∧ c ≠ Text.singleQuote ∧ c ≠ '>' ∧
        c ≠ '/' ∧ c ≠ '=' := by
  simp [isAttributeNameChar, and_assoc]

theorem Ready.name (h : Ready mode) (hopen : c ≠ '<') (hc : isAttributeNameChar c = true)
    (hfront : forall d, d ∈ front -> isAttributeNameChar d = true)
    (hmore : forall d, more.head? = some d -> isAttributeNameChar d = false) :
    ScanStep.next mode c (front ++ more) = ⟨.attributeName, front.length, .afterName none⟩ := by
  rcases (isAttributeNameChar_iff c).mp hc with ⟨hblank, _, _, hclose, hslash, hassign⟩
  rw [h.next hblank hassign, ScanStep.inTag, runLength_eq hfront hmore]
  simp [hblank, hclose, hslash, hopen, hc]

end TreeReader

theorem Attribute.set_new {name : Text} {attributes : List Attribute} (value : Option Text)
    (h : name ∉ attributes.map (·.name)) :
    Attribute.set name value attributes = attributes ++ [⟨name, value⟩] := by
  induction attributes with
  | nil =>
      rfl
  | cons a rest ih =>
      rw [List.map_cons, List.mem_cons, not_or] at h
      rw [Attribute.set, if_neg (fun heq => h.1 heq.symm), ih h.2]
      rfl

theorem Attribute.set_set (name : Text) (first second : Option Text)
    (attributes : List Attribute) :
    Attribute.set name second (Attribute.set name first attributes) =
      Attribute.set name second attributes := by
  induction attributes with
  | nil =>
      simp [Attribute.set]
  | cons a rest ih =>
      by_cases heq : a.name = name
      · simp [Attribute.set, heq]
      · simp [Attribute.set, heq, ih]

namespace TreeReader

variable {r : TreeReader} {offset : Nat} {top : OpenElement} {value : Option Text}
  {mode : ScanMode} {more : Text}

theorem read_attributeName (hmode : Ready mode) (a : WrittenAttribute)
    (hmore : forall d, more.head? = some d -> isAttributeNameChar d = false) :
    (r.inside top value).read mode offset (' ' :: (a.name ++ more)) =
      (r.inside { top with attributes := Attribute.set a.name none top.attributes }
        (some a.name)).read (.afterName none) (offset + 1 + a.name.length) more := by
  rcases List.exists_cons_of_ne_nil a.named with ⟨c, front, hname⟩
  have hchars := a.nameChars
  have hopen := a.notOpening
  rw [hname] at hchars hopen ⊢
  have hc := hchars c List.mem_cons_self
  have hblank : forall d, (c :: (front ++ more)).head? = some d -> Text.isBlank d = false := by
    intro d hd
    cases hd
    exact ((isAttributeNameChar_iff c).mp hc).1
  have hstep := hmode.name (fun heq => hopen (by rw [heq]; rfl)) hc
    (fun d hd => hchars d (List.mem_cons_of_mem c hd)) hmore
  rw [List.cons_append, read_char (hmode.blank hblank), read_token hstep, List.length_cons,
    Nat.add_comm front.length, ← Nat.add_assoc]
  rfl

theorem read_attributeValue {name v : Text} (hv : Text.doubleQuote ∉ v) :
    (r.inside top (some name)).read (.afterName none) offset
        ('=' :: (WrittenAttribute.quoted v ++ more)) =
      (r.inside
        { top with
          attributes := Attribute.set name (some (WrittenAttribute.quoted v)) top.attributes }
        none).read (.inTag none) (offset + 1 + (WrittenAttribute.quoted v).length) more := by
  have hassign : ScanStep.next (.afterName none) '=' (WrittenAttribute.quoted v ++ more) =
      ⟨.delimiterAssign, 0, .beforeValue none⟩ := by
    have hblank : Text.isBlank '=' = false := by decide
    simp [ScanStep.next, ScanStep.afterName, hblank]
  have hrun : runLength (· != Text.doubleQuote) (v ++ Text.doubleQuote :: more) = v.length := by
    apply runLength_eq
    · intro c hc
      exact bne_iff_ne.mpr fun heq => hv (heq ▸ hc)
    · intro c hc
      cases hc
      decide
  have hquoted : quotedLength Text.doubleQuote (v ++ [Text.doubleQuote] ++ more) =
      (v ++ [Text.doubleQuote]).length := by
    rw [List.append_assoc, List.singleton_append, quotedLength, hrun]
    simp
  have hvalue : ScanStep.next (.beforeValue none) Text.doubleQuote
      (v ++ [Text.doubleQuote] ++ more) =
      ⟨.attributeValue, (v ++ [Text.doubleQuote]).length, .inTag none⟩ := by
    have hblank : Text.isBlank Text.doubleQuote = false := by decide
    rw [← hquoted]
    simp [ScanStep.next, ScanStep.beforeValue, hblank]
  rw [read_char hassign, WrittenAttribute.quoted, List.cons_append, read_token hvalue,
    List.length_cons, Nat.add_comm (v ++ [Text.doubleQuote]).length, ← Nat.add_assoc]
  rfl

theorem read_attribute (hmode : Ready mode) (r : TreeReader) (top : OpenElement)
    (value : Option Text) (offset : Nat) (a : WrittenAttribute)
    (hnew : a.name ∉ top.attributes.map (·.name)) (hmore : LeavesName more) :
    exists after awaiting, Ready after ∧
      (r.inside top value).read mode offset (a.print ++ more) =
        (r.inside { top with attributes := top.attributes ++ [a.recorded] } awaiting).read after
          (offset + a.print.length) more := by
  rw [WrittenAttribute.print, WrittenAttribute.recorded]
  cases hvalue : a.value with
  | none =>
      refine ⟨.afterName none, some a.name, Or.inr rfl, ?_⟩
      simp only [List.append_nil, List.cons_append, Option.map_none, List.length_cons]
      rw [read_attributeName hmode a fun d hd => (hmore.head? hd).2,
        Attribute.set_new none hnew, Nat.add_right_comm, ← Nat.add_assoc]
  | some v =>
      refine ⟨.inTag none, none, Or.inl rfl, ?_⟩
      simp only [List.append_assoc, List.cons_append, Option.map_some, List.length_cons,
        List.length_append]
      have hassign : forall d, ('=' :: (WrittenAttribute.quoted v ++ more)).head? = some d ->
          isAttributeNameChar d = false := by
        intro d hd
        cases hd
        decide
      have hoffset : offset + (a.name.length + ((WrittenAttribute.quoted v).length + 1) + 1) =
          offset + 1 + a.name.length + 1 + (WrittenAttribute.quoted v).length := by
        omega
      rw [read_attributeName hmode a hassign, read_attributeValue (a.unquoted v hvalue),
        Attribute.set_set, hoffset, ← Attribute.set_new (some (WrittenAttribute.quoted v)) hnew]

theorem read_attributes (attributes : List WrittenAttribute) (hmode : Ready mode)
    (r : TreeReader) (top : OpenElement) (value : Option Text) (offset : Nat)
    (hnew : ((top.attributes ++ attributes.map WrittenAttribute.recorded).map (·.name)).Nodup)
    (hmore : LeavesName more) :
    exists after awaiting, Ready after ∧
      (r.inside top value).read mode offset
          (attributes.flatMap WrittenAttribute.print ++ more) =
        (r.inside
          { top with attributes := top.attributes ++ attributes.map WrittenAttribute.recorded }
          awaiting).read after
            (offset + (attributes.flatMap WrittenAttribute.print).length) more := by
  induction attributes generalizing top mode value offset with
  | nil =>
      refine ⟨mode, value, hmode, ?_⟩
      simp
  | cons a rest ih =>
      have hfresh : a.name ∉ top.attributes.map (·.name) := by
        rw [List.map_append, List.nodup_append] at hnew
        intro hmem
        exact hnew.2.2 _ hmem _ (List.mem_cons_self) rfl
      have hafter := hmore.attributes rest
      rcases read_attribute hmode r top value offset a hfresh hafter with
        ⟨between, awaiting, hbetween, hread⟩
      have hrest : (((top.attributes ++ [a.recorded]) ++
          rest.map WrittenAttribute.recorded).map (·.name)).Nodup := by
        rw [List.append_assoc]
        exact hnew
      rcases ih hbetween { top with attributes := top.attributes ++ [a.recorded] } awaiting
        (offset + a.print.length) hrest with ⟨last, final, hlast, hreads⟩
      refine ⟨last, final, hlast, ?_⟩
      rw [List.flatMap_cons, List.append_assoc, hread, hreads, List.length_append,
        List.append_assoc, Nat.add_assoc]
      rfl

/-- A reader takes a start tag up to its `>` or `/>`. -/
theorem read_head (hclosing : r.closing = false) (tag : WrittenTag) (offset : Nat) (more : Text)
    (hmore : LeavesName more) :
    exists mode awaiting, Ready mode ∧
      r.read .content offset (tag.head ++ more) =
        (r.inside (tag.opened offset) awaiting).read mode (offset + tag.head.length) more := by
  have hdistinct : ((([] : List Attribute) ++
      tag.attributes.map WrittenAttribute.recorded).map (·.name)).Nodup := by
    rw [List.nil_append, List.map_map]
    exact tag.distinct
  rcases read_attributes tag.attributes (Or.inl rfl) r { start := offset, tag := tag.name }
    r.valueOf (offset + 1 + tag.name.length) hdistinct hmore with ⟨mode, awaiting, hmode, hread⟩
  -- What is left is only that the offsets of the name and of the attributes add up.
  refine ⟨mode, awaiting, hmode, ?_⟩
  rw [WrittenTag.head, List.cons_append, List.append_assoc,
    read_name hclosing tag (hmore.attributes _), hread, List.length_cons, List.length_append,
    Nat.add_assoc offset 1, Nat.add_assoc offset, Nat.add_comm 1, Nat.add_right_comm _ 1]
  rfl

theorem Ready.close (h : Ready mode) :
    ScanStep.next mode '>' more = ⟨.startTagClose, 0, .content⟩ := by
  have hblank : Text.isBlank '>' = false := by decide
  rw [h.next hblank (by decide), ScanStep.inTag]
  simp [hblank]

theorem Ready.selfClose (h : Ready mode) :
    ScanStep.next mode '/' (['>'] ++ more) = ⟨.startTagSelfClose, 1, .content⟩ := by
  have hblank : Text.isBlank '/' = false := by decide
  rw [h.next hblank (by decide), ScanStep.inTag]
  simp [hblank]

/-!
# Elements
-/

def between (r : TreeReader) (value : Option Text) (start : Nat) : TreeReader :=
  { r with valueOf := value, endTagStart := start, closing := false }

theorem between_self (hclosing : r.closing = false) : r.between r.valueOf r.endTagStart = r := by
  rw [between, ← hclosing]

/-- A reader that has met the end tag of the element it is inside of. -/
def leaving (r : TreeReader) (top : OpenElement) (value : Option Text) : TreeReader :=
  { r with stack := top :: r.stack, valueOf := value, closing := true }

theorem closeNamed_inside (r : TreeReader) (top : OpenElement) (value : Option Text) :
    (r.inside top value).closeNamed top.tag =
      r.leaving { top with closed := true, endTagStart := some r.endTagStart } value := by
  simp [closeNamed, inside, leaving, List.findIdx?_cons, abandon, mapTop]

theorem settle_leaving (r : TreeReader) (top : OpenElement) (value : Option Text) (stop : Nat) :
    (r.leaving top value).settle stop =
      (r.between value r.endTagStart).attach (top.finish stop) := by
  unfold settle pop attach leaving between
  cases r.stack <;> rfl

/-- A reader takes the `>` of a start tag, and goes into the element. -/
theorem read_close (hmode : Ready mode) (r : TreeReader) (top : OpenElement)
    (hsolid : voidElements.contains (Text.lower top.tag) = false) :
    (r.inside top value).read mode offset ('>' :: more) =
      (r.inside { top with startTagEnd := some (offset + 1) } none).read .content (offset + 1)
        more := by
  have hstep : (r.inside top value).step ⟨.startTagClose, ['>'], offset⟩ =
      r.inside { top with startTagEnd := some (offset + 1) } none := by
    show (if voidElements.contains (Text.lower top.tag) then _ else _) = _
    rw [hsolid]
    rfl
  rw [read_char hmode.close, hstep]

theorem read_closeVoid (hmode : Ready mode) (r : TreeReader) (top : OpenElement)
    (hvoid : voidElements.contains (Text.lower top.tag) = true) :
    (r.inside top value).read mode offset ('>' :: more) =
      ((r.between none r.endTagStart).attach
        ({ top with startTagEnd := some (offset + 1), closed := true }.finish
          (offset + 1))).read .content (offset + 1) more := by
  have hstep : (r.inside top value).step ⟨.startTagClose, ['>'], offset⟩ =
      (r.between none r.endTagStart).attach
        ({ top with startTagEnd := some (offset + 1), closed := true }.finish (offset + 1)) := by
    show (if voidElements.contains (Text.lower top.tag) then _ else _) = _
    rw [hvoid]
    rfl
  rw [read_char hmode.close, hstep]

theorem read_selfClose (hmode : Ready mode) :
    (r.inside top value).read mode offset ('/' :: '>' :: more) =
      ((r.between none r.endTagStart).attach
        ({ top with startTagEnd := some (offset + 2), closed := true }.finish
          (offset + 2))).read .content (offset + 2) more :=
  read_token hmode.selfClose

theorem read_endTag (tag : WrittenTag) (htag : top.tag = tag.name) :
    (r.inside top value).read .content offset (tag.endTag ++ more) =
      ((r.between value offset).attach
        ({ top with closed := true, endTagStart := some offset }.finish
          (offset + tag.endTag.length))).read .content (offset + tag.endTag.length) more := by
  rcases tag.initial with ⟨c, rest, hname, hletter⟩
  have hopen : ScanStep.next .content '<' (['/'] ++ (tag.name ++ '>' :: more)) =
      ⟨.endTagOpen, 1, .inEndTag⟩ :=
    rfl
  have hchars : forall d, d ∈ rest -> isTagNameChar d = true := by
    intro d hd
    exact tag.nameChars d (by rw [hname]; exact List.mem_cons_of_mem c hd)
  have hrun : runLength isTagNameChar (rest ++ '>' :: more) = rest.length := by
    apply runLength_eq hchars
    intro d hd
    cases hd
    decide
  have hend : ScanStep.next .inEndTag c (rest ++ '>' :: more) =
      ⟨.endTag, rest.length, .inEndTag⟩ := by
    have hblank := isLetter_not_blank hletter
    have hc := isTagNameChar_of_isLetter hletter
    simp [ScanStep.next, ScanStep.inEndTag, hblank, hc, hrun]
  have hclose : ScanStep.next .inEndTag '>' more = ⟨.endTagClose, 0, .content⟩ := by
    have hblank : Text.isBlank '>' = false := by decide
    have hnot : isTagNameChar '>' = false := by decide
    simp [ScanStep.next, ScanStep.inEndTag, hblank, hnot]
  have hnamed : ({ r with endTagStart := offset }.inside top value).step
      ⟨.endTag, tag.name, offset + 2⟩ =
      { r with endTagStart := offset }.leaving
        { top with closed := true, endTagStart := some offset } value := by
    rw [← htag]
    exact closeNamed_inside { r with endTagStart := offset } top value
  have hlength : offset + tag.endTag.length = offset + 2 + tag.name.length + 1 := by
    simp only [WrittenTag.endTag, List.length_cons, List.length_append, List.length_nil]
    omega
  calc (r.inside top value).read .content offset (tag.endTag ++ more)
    _ = (r.inside top value).read .content offset
          ('<' :: (['/'] ++ (tag.name ++ '>' :: more))) := by
        simp [WrittenTag.endTag]
    _ = ({ r with endTagStart := offset }.inside top value).read .inEndTag (offset + 2)
          (tag.name ++ '>' :: more) := read_token hopen
    _ = ({ r with endTagStart := offset }.leaving
            { top with closed := true, endTagStart := some offset } value).read .inEndTag
          (offset + 2 + tag.name.length) ('>' :: more) := by
        rw [← hnamed, hname, List.cons_append, read_token hend, List.length_cons,
          Nat.add_comm rest.length, ← Nat.add_assoc]
    _ = _ := by
        rw [read_char hclose, hlength]
        exact congrArg (read · _ _ _) (settle_leaving { r with endTagStart := offset } _ value _)

/-!
# Forests
-/

def attachAll (r : TreeReader) (es : List Element) : TreeReader :=
  es.foldl attach r

theorem attachAll_append (r : TreeReader) (es more : List Element) :
    r.attachAll (es ++ more) = (r.attachAll es).attachAll more :=
  List.foldl_append

theorem attachAll_between (r : TreeReader) (es : List Element) (value : Option Text)
    (start : Nat) :
    (r.attachAll es).between value start = (r.between value start).attachAll es := by
  induction es generalizing r with
  | nil =>
      rfl
  | cons e rest ih =>
      have hattach : (r.attach e).between value start = (r.between value start).attach e := by
        unfold attach between
        cases r.stack <;> rfl
      have hrest := ih (r.attach e)
      rw [hattach] at hrest
      exact hrest

theorem attachAll_inside (r : TreeReader) (top : OpenElement) (value : Option Text)
    (es : List Element) :
    (r.inside top value).attachAll es =
      r.inside { top with children := top.children ++ es } value := by
  induction es generalizing top with
  | nil =>
      rw [List.append_nil]
      rfl
  | cons e rest ih =>
      have hrest := ih { top with children := top.children ++ [e] }
      rw [List.append_assoc] at hrest
      exact hrest

theorem attachAll_roots (hstack : r.stack = []) (es : List Element) :
    r.attachAll es = { r with roots := r.roots ++ es } := by
  induction es generalizing r with
  | nil =>
      rw [List.append_nil]
      rfl
  | cons e rest ih =>
      have hattach : r.attach e = { r with roots := r.roots ++ [e] } := by
        rw [attach, hstack]
      have hrest := ih (r := { r with roots := r.roots ++ [e] }) hstack
      rw [List.append_assoc] at hrest
      rw [attachAll, List.foldl_cons, hattach]
      exact hrest

/-- Readers between tags take a text that is written at an offset for some elements. -/
def Takes (offset : Nat) (written : Text) (es : List Element) : Prop :=
  forall (r : TreeReader) (more : Text), r.closing = false ->
    exists value start,
      r.read .content offset (written ++ more) =
        ((r.between value start).attachAll es).read .content (offset + written.length) more

theorem Takes.append {first rest : Text} {es later : List Element} (h : Takes offset first es)
    (hrest : Takes (offset + first.length) rest later) :
    Takes offset (first ++ rest) (es ++ later) := by
  intro r more hclosing
  rcases h r (rest ++ more) hclosing with ⟨value, start, hread⟩
  rcases hrest (r.between value start |>.attachAll es) more
    (by rw [← attachAll_between]; rfl) with ⟨last, final, hreads⟩
  refine ⟨last, final, ?_⟩
  rw [List.append_assoc, hread, hreads, attachAll_between, attachAll_append, List.length_append,
    Nat.add_assoc]
  rfl

theorem takes_passage (passage : Passage) : Takes offset passage.print [] := by
  intro r more hclosing
  refine ⟨r.valueOf, r.endTagStart, ?_⟩
  rw [between_self hclosing, read_passage hclosing]
  rfl

theorem takes_void (tag : WrittenTag) (hvoid : tag.isVoid = true) :
    Takes offset tag.startTag [tag.element offset (offset + tag.startTag.length) none
      (offset + tag.startTag.length) []] := by
  intro r more hclosing
  rcases read_head hclosing tag offset ('>' :: more)
    ⟨_, _, rfl, Or.inr (Or.inl rfl)⟩ with ⟨mode, awaiting, hmode, hhead⟩
  refine ⟨none, r.endTagStart, ?_⟩
  rw [WrittenTag.startTag, List.append_assoc, List.singleton_append, hhead,
    read_closeVoid hmode r (tag.opened offset) hvoid, List.length_append]
  rfl

theorem takes_selfClosed (tag : WrittenTag) :
    Takes offset tag.selfClosing [tag.element offset (offset + tag.selfClosing.length) none
      (offset + tag.selfClosing.length) []] := by
  intro r more hclosing
  rcases read_head hclosing tag offset ('/' :: '>' :: more)
    ⟨_, _, rfl, Or.inr (Or.inr rfl)⟩ with ⟨mode, awaiting, hmode, hhead⟩
  refine ⟨none, r.endTagStart, ?_⟩
  rw [WrittenTag.selfClosing, List.append_assoc, List.cons_append, List.singleton_append, hhead,
    read_selfClose hmode, List.length_append]
  rfl

theorem takes_element (tag : WrittenTag) (hsolid : tag.isVoid = false) {content : Text}
    {children : List Element} (h : Takes (offset + tag.startTag.length) content children) :
    Takes offset (tag.startTag ++ content ++ tag.endTag)
      [tag.element offset (offset + tag.startTag.length)
        (some (offset + tag.startTag.length + content.length))
        (offset + tag.startTag.length + content.length + tag.endTag.length) children] := by
  intro r more hclosing
  rcases read_head hclosing tag offset ('>' :: (content ++ (tag.endTag ++ more)))
    ⟨_, _, rfl, Or.inr (Or.inl rfl)⟩ with ⟨mode, awaiting, hmode, hhead⟩
  let opened := { tag.opened offset with startTagEnd := some (offset + tag.startTag.length) }
  -- The children are read with the element on top of the stack, and are attached to it.
  rcases h (r.inside opened none) (tag.endTag ++ more) rfl with ⟨value, start, hread⟩
  have hinside : (r.inside opened none).between value start =
      (r.between value start).inside opened value :=
    rfl
  have hopen : r.read .content offset (tag.startTag ++ (content ++ (tag.endTag ++ more))) =
      (r.inside opened none).read .content (offset + tag.startTag.length)
        (content ++ (tag.endTag ++ more)) := by
    rw [WrittenTag.startTag, List.append_assoc, List.singleton_append, hhead,
      read_close hmode r (tag.opened offset) hsolid]
    simp only [opened, WrittenTag.startTag, List.length_append, List.length_singleton,
      Nat.add_assoc]
  rw [hinside, attachAll_inside] at hread
  refine ⟨value, offset + tag.startTag.length + content.length, ?_⟩
  rw [List.append_assoc, List.append_assoc, hopen, hread, read_endTag tag rfl,
    List.length_append, List.length_append, ← Nat.add_assoc, ← Nat.add_assoc]
  rfl

theorem takes_forest (forest : Forest) (offset : Nat) :
    Takes offset forest.print (forest.elementsAt offset) := by
  -- Each sibling leaves the reader between tags, where the next one starts.
  induction forest generalizing offset with
  | nil =>
      intro r more hclosing
      refine ⟨r.valueOf, r.endTagStart, ?_⟩
      rw [between_self hclosing]
      rfl
  | text passage rest ih =>
      exact (takes_passage passage).append (ih _)
  | void tag hvoid rest ih =>
      exact (takes_void tag hvoid).append (ih _)
  | selfClosed tag hsolid rest ih =>
      exact (takes_selfClosed tag).append (ih _)
  | element tag hsolid children rest ihChildren ihRest =>
      have hchildren := ihChildren (offset + tag.startTag.length)
      apply (takes_element tag hsolid hchildren).append
      rw [List.length_append, List.length_append, ← Nat.add_assoc, ← Nat.add_assoc]
      exact ihRest _

end TreeReader

/-- A written forest reads back, every element closed and at the offsets it was written at. -/
theorem Document.ofText_print (forest : Forest) :
    Document.ofText forest.print = ⟨forest.print.length, forest.elementsAt 0⟩ := by
  rcases TreeReader.takes_forest forest 0 {} [] rfl with ⟨value, start, hread⟩
  rw [List.append_nil, TreeReader.attachAll_roots rfl, TreeReader.read_nil] at hread
  have hroots : (scan forest.print 0 forest.print.length).foldl TreeReader.step {} =
      { roots := forest.elementsAt 0, valueOf := value, endTagStart := start } := by
    rw [← tokensOf, tokensOf_eq]
    exact hread
  rw [Document.ofText, hroots]
  rfl

def comparison : Forest :=
  .element
    { name := "p".toList
      attributes :=
        [⟨"title".toList, some "a > b".toList, by decide, List.all_eq_true.mp (by decide),
          by decide, by decide⟩,
         ⟨"hidden".toList, none, by decide, List.all_eq_true.mp (by decide), by decide,
          by decide⟩]
      initial := ⟨'p', [], rfl, by decide⟩
      nameChars := List.all_eq_true.mp (by decide)
      notRaw := by decide
      distinct := by decide }
    (by decide)
    (.text (.interpolation " a<b ".toList (by decide))
      (.void
        { name := "Br".toList
          attributes := []
          initial := ⟨'B', ['r'], rfl, by decide⟩
          nameChars := List.all_eq_true.mp (by decide)
          notRaw := by decide
          distinct := by decide }
        (by decide) .nil))
    .nil

example : comparison.print =
    "<p title=\"a > b\" hidden>\x7b\x7b a<b \x7d\x7d<Br></p>".toList := by
  decide

example : (comparison.elementsAt 0).map (fun e => (e.startTagEnd, e.endTagStart, e.stop)) =
    [(some 24, some 37, 41)] := by
  decide

end SfcServer
