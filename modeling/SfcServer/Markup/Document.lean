import SfcServer.Markup.Element

/-!
# Element trees

A document is the forest of elements that its tokens open and close.  While reading,
the elements that are still open form a stack, innermost first.  An end tag closes
the innermost open element of its name and everything opened inside; one that
matches nothing is passed over.  Elements left open end with the text.
-/

namespace SfcServer

structure Document where
  size : Nat
  roots : List Element
  deriving Repr, Inhabited

def voidElements : List Text :=
  ["area".toList, "base".toList, "br".toList, "col".toList, "embed".toList, "hr".toList,
   "img".toList, "input".toList, "link".toList, "meta".toList, "param".toList, "source".toList,
   "track".toList, "wbr".toList]

structure OpenElement where
  start : Nat
  tag : Text := []
  startTagEnd : Option Nat := none
  endTagStart : Option Nat := none
  closed : Bool := false
  attributes : List Attribute := []
  children : List Element := []

def OpenElement.finish (e : OpenElement) (stop : Nat) : Element where
  tag := e.tag
  start := e.start
  stop := stop
  startTagEnd := e.startTagEnd
  endTagStart := e.endTagStart
  closed := e.closed
  attributes := e.attributes
  children := e.children

structure TreeReader where
  /-- The finished elements outside of all others. -/
  roots : List Element := []
  /-- The open elements, innermost first. -/
  stack : List OpenElement := []
  /-- The attribute that a value would belong to. -/
  valueOf : Option Text := none
  /-- Where the last end tag began. -/
  endTagStart : Nat := 0
  /-- Whether the innermost open element has met its end tag and awaits the `>`. -/
  closing : Bool := false

namespace TreeReader

def attach (r : TreeReader) (e : Element) : TreeReader :=
  match r.stack with
  | [] => { r with roots := r.roots ++ [e] }
  | top :: rest => { r with stack := { top with children := top.children ++ [e] } :: rest }

def pop (r : TreeReader) (stop : Nat) : TreeReader :=
  match r.stack with
  | [] => r
  | top :: rest => { r with stack := rest }.attach (top.finish stop)

def mapTop (r : TreeReader) (f : OpenElement -> OpenElement) : TreeReader :=
  match r.stack with
  | [] => r
  | top :: rest => { r with stack := f top :: rest }

def abandon (r : TreeReader) (stop : Nat) : Nat -> TreeReader
  | 0 => r
  | n + 1 => abandon ((r.mapTop fun e => { e with closed := false }).pop stop) stop n

/-- Ends the element that awaited the `>` of its end tag. -/
def settle (r : TreeReader) (stop : Nat) : TreeReader :=
  if r.closing then { r.pop stop with closing := false } else r

def closeNamed (r : TreeReader) (name : Text) : TreeReader :=
  match r.stack.findIdx? (fun e => decide (Text.lower e.tag = Text.lower name)) with
  | none => r
  | some depth =>
    let r := r.abandon r.endTagStart depth
    { r.mapTop (fun e => { e with closed := true, endTagStart := some r.endTagStart }) with
      closing := true }

def step (r : TreeReader) (t : Token) : TreeReader :=
  let r := match t.kind with
    | .endTag => r
    | .endTagClose => r
    | .whitespace => r
    | _ => r.settle t.offset
  match t.kind with
  | .startTagOpen => { r with stack := { start := t.offset } :: r.stack }
  | .startTag => r.mapTop fun e => { e with tag := t.text }
  | .attributeName =>
    { r.mapTop (fun e => { e with attributes := Attribute.set t.text none e.attributes }) with
      valueOf := some t.text }
  | .attributeValue =>
    match r.valueOf with
    | none => r
    | some name =>
      { r.mapTop (fun e => { e with attributes := Attribute.set name (some t.text) e.attributes })
        with valueOf := none }
  | .startTagClose =>
    let r := { r.mapTop (fun e => { e with startTagEnd := some t.stop }) with valueOf := none }
    match r.stack with
    | [] => r
    | top :: _ =>
      if voidElements.contains (Text.lower top.tag) then
        (r.mapTop fun e => { e with closed := true }).pop t.stop
      else r
  | .startTagSelfClose =>
    let r := { r with valueOf := none }
    (r.mapTop fun e => { e with startTagEnd := some t.stop, closed := true }).pop t.stop
  | .endTagOpen => { r with endTagStart := t.offset }
  | .endTag => r.closeNamed t.text
  | .endTagClose => r.settle t.stop
  | _ => r

def finish (r : TreeReader) (size : Nat) : List Element :=
  let r := r.settle size
  (r.abandon size r.stack.length).roots

end TreeReader

namespace Document

def ofText (t : Text) : Document where
  size := t.length
  roots := ((scan t 0 t.length).foldl TreeReader.step {}).finish t.length

def root? (d : Document) (tag : Text) : Option Element :=
  d.roots.find? fun e => decide (Text.lower e.tag = tag)

/-- The innermost element at an offset; none when the offset lies outside of all elements. -/
def elementAt? (d : Document) (offset : Int) : Option Element :=
  Element.innermostOf offset d.roots

def template? (d : Document) : Option Element :=
  d.root? "template".toList

def script? (d : Document) : Option Element :=
  d.root? "script".toList

end Document
end SfcServer
