import ArgFill.Argument.Presence
import ArgFill.Argument.Quoting

/-!
# Anchors

An anchor is a key of the argument list itself: outside quotes and in no nested brackets. What is
added behind an anchor goes right after the comma that ends the anchor's value.

* `Text.anchors` : the anchors of a name in an argument list, from left to right;
* `Anchor.value` : the value of an anchor, which begins behind the first colon;
* `valueEnd?` : the end of a value, right behind the first comma that is neither quoted nor nested;
  a closing bracket without partner comes too early;
* `Text.slot?` : the first anchor whose value a comma ends gives the place to add at.
-/

namespace ArgFill

/-- A key that another argument may follow: the byte at which it begins, and the argument list from
there. -/
structure Anchor where
  offset : Nat
  text : Text
  deriving DecidableEq, Repr

namespace Text

/-- The anchors named `key` in an argument list that goes on at byte `offset` behind the character
`before`, with the quoting and the number of open brackets reached there; its first `skip`
characters belong to an anchor already found, and behind it a name may begin. -/
def anchorsFrom (key : Text) : Nat → Quoting → Nat → Option Char → Nat → Text → List Anchor
  | _, _, _, _, _, [] => []
  | skip + 1, quoting, depth, _, offset, c :: t =>
    anchorsFrom key skip quoting depth none (offset + c.utf8Size) t
  | 0, .outside, depth, before, offset, c :: t =>
    let next := offset + c.utf8Size
    if Quoting.isQuote c then anchorsFrom key 0 (.inside c) depth (some c) next t
    else if Quoting.opens c then anchorsFrom key 0 .outside (depth + 1) (some c) next t
    else if Quoting.closes c then anchorsFrom key 0 .outside (depth - 1) (some c) next t
    else if depth == 0 && startsWith (c :: t) key && endsWord before &&
        colonFollows ((c :: t).drop key.length) then
      let skip := key.length - 1
      ⟨offset, c :: t⟩ ::
        anchorsFrom key skip .outside depth (if skip == 0 then none else some c) next t
    else anchorsFrom key 0 .outside depth (some c) next t
  | 0, quoting, depth, _, offset, c :: t =>
    anchorsFrom key 0 (quoting.next c) depth (some c) (offset + c.utf8Size) t

/-- The anchors of a name in an argument list, from left to right. The empty name has none. -/
def anchors (args key : Text) : List Anchor :=
  if key.isEmpty then [] else anchorsFrom key 0 .outside 0 none 0 args

end Text

/-- The place right behind the comma that ends a value which goes on at byte `offset`, with the
quoting and the number of open brackets reached there. -/
def valueEnd? : Quoting → Nat → Nat → Text → Option Nat
  | _, _, _, [] => none
  | .outside, depth, offset, c :: t =>
    let next := offset + c.utf8Size
    if Quoting.isQuote c then valueEnd? (.inside c) depth next t
    else if Quoting.opens c then valueEnd? .outside (depth + 1) next t
    else if Quoting.closes c then
      match depth with
      | 0 => none
      | depth + 1 => valueEnd? .outside depth next t
    else if c = ',' && depth == 0 then some next
    else valueEnd? .outside depth next t
  | quoting, depth, offset, c :: t => valueEnd? (quoting.next c) depth (offset + c.utf8Size) t

namespace Anchor

/-- The value of an anchor and the byte at which it begins, behind the first colon. -/
def value (a : Anchor) : Nat × Text :=
  let name := a.text.takeWhile (· ≠ ':')
  (a.offset + Text.size name + ':'.utf8Size, a.text.drop (name.length + 1))

def slot? (a : Anchor) : Option Nat := valueEnd? .outside 0 a.value.1 a.value.2

end Anchor

/-- The place where an argument list takes an argument behind `key`: the end of the first value of
`key` that a comma ends. -/
def Text.slot? (args key : Text) : Option Nat := (args.anchors key).findSome? Anchor.slot?

end ArgFill
