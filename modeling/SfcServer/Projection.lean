import SfcServer.Component.Basic
import SfcServer.Markup.Document
import SfcServer.Offset.Lines
import SfcServer.Template.Render

/-!
# Projections

The engine knows nothing of templates.  A document is projected to one script: the
class of the component, with one more method that holds the expressions of the
template.  Offsets of the script before that method and after it correspond to the
script section of the document; offsets inside it correspond to the template.
-/

namespace SfcServer

structure Projection where
  uri : Text
  /-- The projected script. -/
  text : Text
  /-- The script section in the document. -/
  scriptStart : Nat
  scriptStop : Nat
  /-- Where the added method starts in the projected script. -/
  insertion : Nat
  /-- The added method. -/
  render : Text
  breakpoints : Breakpoints
  /-- The members declared at the start of the method. -/
  names : List Text
  component : Component
  /-- Where the content of the template starts in the document. -/
  templateStart : Nat
  version : Nat
  deriving Repr

/-! ## File names -/

def documentSuffix : Text := ".vue".toList

def scriptSuffix : Text := ".ts".toList

def fileNameOf (uri : Text) : Text :=
  if documentSuffix.isSuffixOf uri then uri ++ scriptSuffix else uri

def documentOf (fileName : Text) : Text :=
  if (documentSuffix ++ scriptSuffix).isSuffixOf fileName then
    fileName.take (fileName.length - scriptSuffix.length)
  else fileName

namespace Projection

def fileName (p : Projection) : Text :=
  fileNameOf p.uri

def lines (p : Projection) : Lines :=
  Lines.ofText p.text

def renderStop (p : Projection) : Nat :=
  p.insertion + p.render.length

def bodyStart (p : Projection) : Nat :=
  p.insertion + Render.header.length + (Render.preamble p.names).length

def inRender (p : Projection) (offset : Int) : Bool :=
  p.insertion ≤ offset && offset < p.renderStop

def inPreamble (p : Projection) (offset : Int) : Bool :=
  p.insertion ≤ offset && offset < p.bodyStart

/-! ## Offsets -/

def toDocument (p : Projection) (offset : Int) : Int :=
  if offset < p.insertion then p.scriptStart + offset
  else if p.inRender offset then
    if p.breakpoints.isEmpty then p.templateStart else p.breakpoints.toSource offset
  else p.scriptStart + offset - p.render.length

def ofScript? (p : Projection) (offset : Int) : Option Int :=
  if p.scriptStart ≤ offset ∧ offset ≤ p.scriptStop then
    let relative := offset - p.scriptStart
    some (if relative ≤ p.insertion then relative else relative + p.render.length)
  else none

def ofTemplate (p : Projection) (offset : Int) : Int :=
  p.breakpoints.toTarget offset

/-! ## Building -/

/-- The projection of a document, if it has a template and a class to add a method to. -/
def build? (uri text : Text) (markup : Document) (component : Option Component) (version : Nat) :
    Option Projection := do
  let template ← markup.template?
  let script ← markup.script?
  guard script.startTagEnd.isSome
  let component ← component
  let insertion ← component.insertion
  let content := text.slice script.contentStart script.contentStop
  let render := Render.ofTemplate text template insertion component.names
  return {
    uri := uri
    text := content.take insertion ++ render.text ++ content.drop insertion
    scriptStart := script.contentStart
    scriptStop := script.contentStop
    insertion := insertion
    render := render.text
    breakpoints := render.breakpoints
    names := component.names
    component := component
    templateStart := template.contentStart
    version := version }

end Projection
end SfcServer
