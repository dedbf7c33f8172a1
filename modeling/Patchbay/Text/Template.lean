/-!
# Templates

Texts with places to fill in: `$name` and `${name}` stand for the text of a name, `$$` for the sign
itself. What names no known text stays as it is.

Contents:
* `fill`: a template with its places filled.
-/

namespace Patchbay.Text

/-- Whether a name in a template may start with a character. -/
def startsPlace (c : Char) : Bool := c.isAlpha || c == '_'

/-- Whether a name in a template may go on with a character. -/
def continuesPlace (c : Char) : Bool := c.isAlphanum || c == '_'

/-- The name at the front of a text, which may be empty. -/
def placeName (cs : List Char) : List Char :=
  match cs with
  | [] => []
  | c :: _ => if startsPlace c then cs.takeWhile continuesPlace else []

/-- What a sign stands for with what follows it, and how many of the following characters it takes. -/
def place (texts : String → Option String) (after : List Char) : List Char × Nat :=
  match after with
  | '$' :: _ => (['$'], 1)
  | '\x7b' :: inner =>
    let name := placeName inner
    match name, inner.drop name.length with
    | _ :: _, '\x7d' :: _ => match texts (String.ofList name) with
      | some t => (t.toList, name.length + 2)
      | none => (['$'], 0)
    | _, _ => (['$'], 0)
  | _ =>
    let name := placeName after
    match name with
    | [] => (['$'], 0)
    | _ :: _ => match texts (String.ofList name) with
      | some t => (t.toList, name.length)
      | none => (['$'], 0)

/-- The characters of a template with its places filled; the first `skip` of them belong to a place
that is filled already. -/
def fillChars (texts : String → Option String) : Nat → List Char → List Char
  | _, [] => []
  | skip + 1, _ :: cs => fillChars texts skip cs
  | 0, c :: cs =>
    if c == '$' then
      let (t, taken) := place texts cs
      t ++ fillChars texts taken cs
    else c :: fillChars texts 0 cs

/-- A template with its places filled. -/
def fill (texts : String → Option String) (template : String) : String :=
  String.ofList (fillChars texts 0 template.toList)

end Patchbay.Text
