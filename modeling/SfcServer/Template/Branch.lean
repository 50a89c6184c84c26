import SfcServer.Template.Expression

/-!
# Branches

An element with `v-else` or `v-else-if` continues the branch of the element before
it.  The ones that continue nothing are reported.
-/

namespace SfcServer
namespace Element

def hasAttribute (e : Element) (name : Text) : Bool :=
  e.attributes.any fun a => decide (a.name = name)

def continuesBranch (e : Element) : Bool :=
  e.hasAttribute "v-else".toList || e.hasAttribute "v-else-if".toList

def leavesBranchOpen (e : Element) : Bool :=
  e.hasAttribute "v-if".toList || e.hasAttribute "v-else-if".toList

def continuations (t : Text) (e : Element) : List Expression :=
  (e.ownExpressions t).filter fun x => x.kind == .otherwise || x.kind == .elseCondition

def orphansAmong (t : Text) (isOpen : Bool) : List Element -> List Expression
  | [] => []
  | e :: rest =>
    (if e.continuesBranch && !isOpen then e.continuations t else []) ++
      orphansAmong t e.leavesBranchOpen rest

mutual

def orphans (t : Text) : Element -> List Expression
  | ⟨_, _, _, _, _, _, _, children⟩ => orphansAmong t false children ++ orphansInside t children

def orphansInside (t : Text) : List Element -> List Expression
  | [] => []
  | e :: rest => orphans t e ++ orphansInside t rest

end

def orphansOf (t : Text) (roots : List Element) : List Expression :=
  orphansAmong t false roots ++ orphansInside t roots

end Element
end SfcServer
