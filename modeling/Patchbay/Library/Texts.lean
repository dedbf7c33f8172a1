import Patchbay.Library.Palette
import Patchbay.Text.Casing
import Patchbay.Text.Template

/-!
# Texts

Data-only kinds that read texts.
-/

namespace Patchbay.Library

open Patchbay.Action

/-- A text input with a literal. -/
def textInput (id literal : String) : Port := given id .string (.str literal)

/-- A data-only kind that reads texts. -/
def textEntry (kind name : String) (inputs : List Port) (yielded : ValueType) (about : Option String)
    (value : Action Value) : Declaration Behavior :=
  entry kind name "Strings" .expression inputs [yields "value" yielded] about
    (fun _ => toScript do
      let v ← value
      pure (outputs [("value", v)]))

/-- One text after another. -/
def concatenation : Declaration Behavior :=
  textEntry "str.concat" "Concatenate" [textInput "a" "Hello", textInput "b" "World"] .string none do
    let a ← pullText "a"
    let b ← pullText "b"
    return .str (a ++ b)

/-- How many characters a text has. -/
def textLength : Declaration Behavior :=
  textEntry "str.len" "Length" [textInput "text" ""] .number none do
    return .int (← pullText "text").length

/-- A text in upper case. -/
def upperCase : Declaration Behavior :=
  textEntry "str.upper" "Uppercase" [textInput "text" "hi"] .string none do
    return .str (Text.upper (← pullText "text"))

/-- A value as a text under a name. -/
def namedText (name : String) (v : Value) : Except Fault (String × Value) := do
  return (name, ← coerce v .string)

/-- The entries of a dictionary as texts under the texts of their keys. -/
def textsOf (es : Dict) : Except Fault Named :=
  es.mapM fun (k, v) => do namedText (← k.toText) v

/-- A template filled from the variables and, over them, from a dictionary. -/
def template : Declaration Behavior :=
  textEntry "str.template" "Template"
    [textInput "tpl" "Hello $\x7bname\x7d", given "values" .object (.dict [])] .string
    (some ("Fill ``$\x7bname\x7d`` placeholders from the global variables, overridden by\n" ++
      "    the ``values`` object. Unknown placeholders are left as they are.")) do
    let globals ← ask .readVariables
    let names ← primitive (globals.mapM fun (name, v) => namedText name v)
    let own ← pull "values"
    let names ← match own with
      | .dict es => do
        let given ← primitive (textsOf es)
        pure (Named.update names given)
      | _ => pure names
    let text ← pullText "tpl"
    return .str (Text.fill (fun name => match names.get? name with
      | some (.str t) => some t
      | _ => none) text)

end Patchbay.Library
