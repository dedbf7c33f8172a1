import Patchbay.Edge
import Patchbay.Fault
import Patchbay.Json.Reader
import Patchbay.Json.Writer

/-!
# Documents

The persisted form of a graph: node records, edge records and a snapshot of the variables, all in
order. A document is read from JSON text and written in an indented format. Reading checks every
field and collects all rejections; fields that a record does not have are dropped.

Contents:
* `NodeRecord`, `Document`.
* `NodeRecord.rejections`, `Edge.rejections`: a record needs non-empty texts.
* `Document.ofText`, `Document.toText`.
-/

namespace Patchbay

/-- One node of a persisted graph. -/
structure NodeRecord where
  id : String
  kind : String
  literals : Named := []

/-- A persisted graph with its variables. -/
structure Document where
  version : String := "1.0"
  nodes : List NodeRecord := []
  edges : List Edge := []
  globals : Named := []

/-! ## Checking -/

/-- The rejection of a text field that is too short. -/
def tooShort (field s : String) : List Rejection :=
  if s.isEmpty then [⟨[.inl field], "string_too_short"⟩] else []

/-- The empty fields of a node record. -/
def NodeRecord.rejections (r : NodeRecord) : List Rejection :=
  tooShort "id" r.id ++ tooShort "kind_id" r.kind

/-- The empty fields of an edge record. -/
def Edge.rejections (e : Edge) : List Rejection :=
  tooShort "source_node_id" e.source ++ tooShort "source_port" e.sourcePort
    ++ tooShort "dest_node_id" e.dest ++ tooShort "dest_port" e.destPort

/-- A fault that carries rejections, unless there are none. -/
def rejecting {α : Type} (rs : List Rejection) (a : α) : Except Fault α :=
  if rs.isEmpty then .ok a else .error { kind := .validation rs }

namespace Document

/-! ## Reading

A reader yields what it found, and the rejections. What it found counts only when there are none. -/

/-- A result with its rejections. -/
structure Read (α : Type) where
  found : α
  rejections : List Rejection := []

/-- Rejections one level further in. -/
def Read.under {α : Type} (step : String ⊕ Nat) (r : Read α) : Read α :=
  { r with rejections := r.rejections.map fun x => { x with path := step :: x.path } }

/-- A rejection at the place itself. -/
def Read.refuse {α : Type} (a : α) (rule : String) : Read α := ⟨a, [⟨[], rule⟩]⟩

/-- A text. -/
def readText (v : Value) : Read String :=
  match v with
  | .str s => ⟨s, []⟩
  | _ => .refuse "" "string_type"

/-- A text that is not empty. -/
def readName (v : Value) : Read String :=
  match v with
  | .str s => if s.isEmpty then .refuse s "string_too_short" else ⟨s, []⟩
  | _ => .refuse "" "string_type"

/-- An object with any members. -/
def readMembers (v : Value) : Read Named :=
  match v with
  | .dict es => ⟨es.filterMap fun (k, v) => match k with
      | .str s => some (s, v)
      | _ => none, []⟩
  | _ => .refuse [] "dict_type"

/-- The items of an array, numbered from `i`. -/
def readItems {α : Type} (item : Value → Read α) (i : Nat) : List Value → Read (List α)
  | [] => ⟨[], []⟩
  | v :: vs =>
    let a := (item v).under (.inr i)
    let rest := readItems item (i + 1) vs
    ⟨a.found :: rest.found, a.rejections ++ rest.rejections⟩

/-- An array. -/
def readList {α : Type} (item : Value → Read α) (v : Value) : Read (List α) :=
  match v with
  | .list vs => readItems item 0 vs
  | _ => .refuse [] "list_type"

/-- A field that must be present. -/
def required {α : Type} (es : Dict) (field : String) (absent : α) (read : Value → Read α) : Read α :=
  match Dict.get? es (.str field) with
  | some v => (read v).under (.inl field)
  | none => (Read.refuse absent "missing").under (.inl field)

/-- A field that may be absent. -/
def defaulted {α : Type} (es : Dict) (field : String) (absent : α) (read : Value → Read α) :
    Read α :=
  match Dict.get? es (.str field) with
  | some v => (read v).under (.inl field)
  | none => ⟨absent, []⟩

/-- A node record. -/
def readNode (v : Value) : Read NodeRecord :=
  match v with
  | .dict es =>
    let id := required es "id" "" readName
    let kind := required es "kind_id" "" readName
    let literals := defaulted es "literal_inputs" [] readMembers
    ⟨⟨id.found, kind.found, literals.found⟩,
      id.rejections ++ kind.rejections ++ literals.rejections⟩
  | _ => .refuse ⟨"", "", []⟩ "model_type"

/-- An edge record. -/
def readEdge (v : Value) : Read Edge :=
  match v with
  | .dict es =>
    let source := required es "source_node_id" "" readName
    let sourcePort := required es "source_port" "" readName
    let dest := required es "dest_node_id" "" readName
    let destPort := required es "dest_port" "" readName
    ⟨⟨source.found, sourcePort.found, dest.found, destPort.found⟩,
      source.rejections ++ sourcePort.rejections ++ dest.rejections ++ destPort.rejections⟩
  | _ => .refuse ⟨"", "", "", ""⟩ "model_type"

/-- A whole document. -/
def readDocument (v : Value) : Read Document :=
  match v with
  | .dict es =>
    let version := defaulted es "version" "1.0" readText
    let nodes := defaulted es "nodes" [] (readList readNode)
    let edges := defaulted es "edges" [] (readList readEdge)
    let globals := defaulted es "variables" [] readMembers
    ⟨⟨version.found, nodes.found, edges.found, globals.found⟩,
      version.rejections ++ nodes.rejections ++ edges.rejections ++ globals.rejections⟩
  | _ => .refuse {} "model_type"

/-- The document that a text holds. -/
def ofText (text : String) : Except Fault Document :=
  match Json.read .document text with
  | .error _ => .error { kind := .validation [⟨[], "json_invalid"⟩] }
  | .ok v =>
    let r := readDocument v
    rejecting r.rejections r.found

/-! ## Writing -/

/-- A node record as an object. -/
def nodeValue (r : NodeRecord) : Value :=
  Named.toValue [("id", .str r.id), ("kind_id", .str r.kind),
    ("literal_inputs", Named.toValue r.literals)]

/-- An edge as an object. -/
def edgeValue (e : Edge) : Value :=
  Named.toValue [("source_node_id", .str e.source), ("source_port", .str e.sourcePort),
    ("dest_node_id", .str e.dest), ("dest_port", .str e.destPort)]

/-- A document as an object. -/
def toValue (d : Document) : Value :=
  Named.toValue [("version", .str d.version), ("nodes", .list (d.nodes.map nodeValue)),
    ("edges", .list (d.edges.map edgeValue)), ("variables", Named.toValue d.globals)]

/-- The text of a document. -/
def toText (d : Document) : String := Json.writeIndented d.toValue

end Document

end Patchbay
