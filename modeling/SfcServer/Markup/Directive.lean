import SfcServer.Text.Letter

/-!
# Directives

Attributes whose name starts with `v-` or `:` bind an expression.  This module knows
which names bind, what the built-in directives do, and the snippets offered for them.
-/

namespace SfcServer
namespace Directive

def isBinding : Text -> Bool
  | ':' :: _ => true
  | 'v' :: '-' :: c :: _ => Text.isWordChar c
  | _ => false

/-- A built-in directive: its name, its documentation and its snippet. -/
structure Entry where
  name : String
  documentation : String
  snippet : String

def entries : List Entry :=
  [⟨"v-if",
    "**v-if**\n\nConditionally render the element based on the truthy-ness of the expression value.\n\nExample: `v-if=\"isVisible\"`",
    "v-if=\"$1\""⟩,
   ⟨"v-else-if",
    "**v-else-if**\n\nThe \"else if block\" for `v-if`. Must immediately follow a `v-if` or `v-else-if` element.",
    "v-else-if=\"$1\""⟩,
   ⟨"v-else",
    "**v-else**\n\nThe \"else block\" for `v-if` or a `v-if` / `v-else-if` chain. Takes no expression.",
    "v-else"⟩,
   ⟨"v-for",
    "**v-for**\n\nRender the element multiple times based on the source data.\n\n**Syntax:**\n- `v-for=\"item in items\"`\n- `v-for=\"(item, index) in items\"`",
    "v-for=\"$\x7b1:item\x7d in $\x7b2:items\x7d\""⟩,
   ⟨"v-show",
    "**v-show**\n\nToggle the element's `display` CSS property based on the truthy-ness of the expression value.",
    "v-show=\"$1\""⟩,
   ⟨"v-model",
    "**v-model**\n\nCreate a two-way binding on a form input element or a component.",
    "v-model=\"$1\""⟩,
   ⟨"v-bind",
    "**v-bind**\n\nDynamically bind one or more attributes, or a component prop to an expression.\n\nShorthand: `:`",
    "v-bind:$\x7b1:name\x7d=\"$2\""⟩,
   ⟨"v-on",
    "**v-on**\n\nAttach an event listener to the element.\n\nShorthand: `@`",
    "v-on:$\x7b1:event\x7d=\"$2\""⟩,
   ⟨"v-slot",
    "**v-slot**\n\nDenote named slots or scoped slots that expect to receive props.\n\nShorthand: `#`",
    "v-slot:$\x7b1:name\x7d"⟩,
   ⟨"v-html", "**v-html**\n\nUpdate the element's `innerHTML`.", "v-html=\"$1\""⟩,
   ⟨"v-text", "**v-text**\n\nUpdate the element's text content.", "v-text=\"$1\""⟩,
   ⟨"v-once", "**v-once**\n\nRender the element and component once only.", "v-once"⟩,
   ⟨"v-pre", "**v-pre**\n\nSkip compilation for this element and all its children.", "v-pre"⟩,
   ⟨"v-cloak",
    "**v-cloak**\n\nRemains on the element until the associated component instance finishes compilation.",
    "v-cloak"⟩]

def named? (name : Text) : Option Entry :=
  entries.find? fun e => decide (e.name.toList = name)

def baseName (name : Text) : Text :=
  name.takeWhile fun c => !(c == ':' || c == '.')

/-- Documentation of the directive that an attribute name stands for, shorthands included. -/
def documentation? (name : Text) : Option String :=
  (named? (match name with
    | ':' :: _ => "v-bind".toList
    | '@' :: _ => "v-on".toList
    | '#' :: _ => "v-slot".toList
    | _ => baseName name)).map (·.documentation)

end Directive
end SfcServer
