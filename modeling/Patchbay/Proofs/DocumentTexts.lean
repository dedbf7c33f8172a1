import Patchbay.Document
import Patchbay.Proofs.Rereading

/-!
# The texts of documents

A document that was read from a text is sound: its records have no empty fields, the names of its literals and of its
variables differ, and all of its values are such as a reader yields, with the depth at which they stand in a document
counted. To print a sound document gives a value of the form that is read back, and to read that value record by
record gives the document. So a document without doubles that was read from any text is what its own text is read as.

Contents:
* `Document.HoldsFloat`: whether a double is somewhere in a document.
* `NodeRecord.Sound`, `Document.Sound`: what is read from texts.

Results:
* `Document.sound_ofText`: a document that was read is sound.
* `Document.Sound.readable_toValue`, `Document.Sound.readDocument_toValue`: what is printed of a sound document.
* `Document.ofText_toText`: to print and to read again changes nothing.
-/

namespace Patchbay

/-- Whether a double is somewhere in the literals or the variables of a document. -/
def Document.HoldsFloat (d : Document) : Prop :=
  (∃ x ∈ d.nodes, ∃ y ∈ x.literals, y.2.HoldsFloat) ∨ ∃ y ∈ d.globals, y.2.HoldsFloat

/-- Members as they are read from a text with room for values: their names differ and the values can be read. -/
structure Named.Sound (room : Nat) (xs : Named) : Prop where
  names : xs.names.Nodup
  values : ∀ x ∈ xs, Json.Readable room x.2

theorem Named.sound_nil (room : Nat) : Named.Sound room [] :=
  ⟨Json.nodup_names_nil, fun _ hx => absurd hx List.not_mem_nil⟩

/-- A node record as it is read from a text. -/
structure NodeRecord.Sound (x : NodeRecord) : Prop where
  id : x.id ≠ ""
  kind : x.kind ≠ ""
  literals : x.literals.Sound 196

/-- An edge as it is read from a text. -/
structure Edge.Sound (x : Edge) : Prop where
  source : x.source ≠ ""
  sourcePort : x.sourcePort ≠ ""
  dest : x.dest ≠ ""
  destPort : x.destPort ≠ ""

/-- A document as it is read from a text. -/
structure Document.Sound (d : Document) : Prop where
  nodes : ∀ x ∈ d.nodes, x.Sound
  edges : ∀ x ∈ d.edges, x.Sound
  globals : d.globals.Sound 198

namespace Document

open Json

/-! ## What is read -/

theorem Read.rejections_under_eq_nil {α : Type} {step : String ⊕ Nat} {r : Read α} :
    (r.under step).rejections = [] ↔ r.rejections = [] := by
  simp [Read.under]

theorem mem_of_get? {es : Dict} {k v : Value} (h : Dict.get? es k = some v) : ∃ e ∈ es, e.2 = v := by
  obtain ⟨e, he, rfl⟩ := Option.map_eq_some_iff.mp h
  exact ⟨e, List.mem_of_find?_eq_some he, rfl⟩

section Fields

variable {α : Type} {room : Nat} {xs : Named} {field : String} {absent : α} {read : Value → Read α} {P : α → Prop}

/-- A field of an object is what is read for a value in the object, unless it is absent. -/
theorem defaulted_sound (hxs : ∀ x ∈ xs, Readable room x.2)
    (hread : ∀ v, Readable room v → (read v).rejections = [] → P (read v).found) (habsent : P absent)
    (h : (defaulted (xs.map fun (k, v) => (.str k, v)) field absent read).rejections = []) :
    P (defaulted (xs.map fun (k, v) => (.str k, v)) field absent read).found := by
  unfold defaulted at h ⊢
  split at h
  · next v hv =>
    obtain ⟨e, he, rfl⟩ := mem_of_get? hv
    obtain ⟨x, hx, rfl⟩ := List.mem_map.mp he
    exact hread x.2 (hxs x hx) (Read.rejections_under_eq_nil.mp h)
  · exact habsent

theorem required_sound (hxs : ∀ x ∈ xs, Readable room x.2)
    (hread : ∀ v, Readable room v → (read v).rejections = [] → P (read v).found)
    (h : (required (xs.map fun (k, v) => (.str k, v)) field absent read).rejections = []) :
    P (required (xs.map fun (k, v) => (.str k, v)) field absent read).found := by
  unfold required at h ⊢
  split at h
  · next v hv =>
    obtain ⟨e, he, rfl⟩ := mem_of_get? hv
    obtain ⟨x, hx, rfl⟩ := List.mem_map.mp he
    exact hread x.2 (hxs x hx) (Read.rejections_under_eq_nil.mp h)
  · cases h

theorem readItems_sound {vs : List Value} {i : Nat} (hvs : ∀ v ∈ vs, Readable room v)
    (hread : ∀ v, Readable room v → (read v).rejections = [] → P (read v).found)
    (h : (readItems read i vs).rejections = []) : ∀ a ∈ (readItems read i vs).found, P a := by
  induction vs generalizing i with
  | nil => simp [readItems]
  | cons v vs ih =>
    obtain ⟨hv, hvs⟩ := List.forall_mem_cons.mp hvs
    obtain ⟨hfirst, hrest⟩ := List.append_eq_nil_iff.mp h
    exact List.forall_mem_cons.mpr ⟨hread v hv (Read.rejections_under_eq_nil.mp hfirst), ih hvs hrest⟩

theorem readList_sound {v : Value} (hv : Readable (room + 1) v)
    (hread : ∀ v, Readable room v → (read v).rejections = [] → P (read v).found)
    (h : (readList read v).rejections = []) : ∀ a ∈ (readList read v).found, P a := by
  cases hv with
  | list hvs => exact readItems_sound hvs hread h
  | _ => cases h

end Fields

theorem readName_sound {v : Value} (h : (readName v).rejections = []) : (readName v).found ≠ "" := by
  unfold readName at h ⊢
  split at h
  · split at h
    · cases h
    · next hne =>
      rw [if_neg hne]
      simpa using hne
  · cases h

theorem readMembers_toValue (xs : Named) : readMembers xs.toValue = ⟨xs, []⟩ := by
  simp [readMembers, Named.toValue, List.filterMap_map]

theorem readMembers_sound {room : Nat} {v : Value} (hv : Readable (room + 1) v) (h : (readMembers v).rejections = []) :
    Named.Sound room (readMembers v).found := by
  cases hv with
  | dict hnames hxs =>
    rw [readMembers_toValue]
    exact ⟨hnames, hxs⟩
  | _ => cases h

theorem readNode_sound {v : Value} (hv : Readable 198 v) (h : (readNode v).rejections = []) :
    (readNode v).found.Sound := by
  cases hv with
  | dict _ hxs =>
    simp only [Named.toValue, readNode, List.append_eq_nil_iff] at h
    obtain ⟨⟨hid, hkind⟩, hliterals⟩ := h
    have hname : ∀ v, Readable 197 v → (readName v).rejections = [] → (readName v).found ≠ "" :=
      fun v _ => readName_sound
    have hmembers :=
      defaulted_sound (P := Named.Sound 196) hxs (fun v hv => readMembers_sound hv) (Named.sound_nil 196) hliterals
    exact ⟨required_sound (P := (· ≠ "")) hxs hname hid, required_sound (P := (· ≠ "")) hxs hname hkind, hmembers⟩
  | _ => cases h

theorem readEdge_sound {v : Value} (hv : Readable 198 v) (h : (readEdge v).rejections = []) :
    (readEdge v).found.Sound := by
  cases hv with
  | dict _ hxs =>
    simp only [Named.toValue, readEdge, List.append_eq_nil_iff] at h
    obtain ⟨⟨⟨hsource, hsourcePort⟩, hdest⟩, hdestPort⟩ := h
    have hname : ∀ v, Readable 197 v → (readName v).rejections = [] → (readName v).found ≠ "" :=
      fun v _ => readName_sound
    exact ⟨required_sound (P := (· ≠ "")) hxs hname hsource, required_sound (P := (· ≠ "")) hxs hname hsourcePort,
      required_sound (P := (· ≠ "")) hxs hname hdest, required_sound (P := (· ≠ "")) hxs hname hdestPort⟩
  | _ => cases h

theorem readDocument_sound {v : Value} (hv : Readable 200 v) (h : (readDocument v).rejections = []) :
    (readDocument v).found.Sound := by
  cases hv with
  | dict _ hxs =>
    simp only [Named.toValue, readDocument, List.append_eq_nil_iff] at h
    obtain ⟨⟨⟨-, hnodes⟩, hedges⟩, hglobals⟩ := h
    have hmembers :=
      defaulted_sound (P := Named.Sound 198) hxs (fun v hv => readMembers_sound hv) (Named.sound_nil 198) hglobals
    have hrecords := defaulted_sound (P := fun l => ∀ x ∈ l, NodeRecord.Sound x) hxs
      (fun v hv => readList_sound hv fun _ => readNode_sound) (fun x hx => absurd hx List.not_mem_nil) hnodes
    have hlinks := defaulted_sound (P := fun l => ∀ x ∈ l, Edge.Sound x) hxs
      (fun v hv => readList_sound hv fun _ => readEdge_sound) (fun x hx => absurd hx List.not_mem_nil) hedges
    exact ⟨hrecords, hlinks, hmembers⟩
  | _ => cases h

/-- A document that was read from a text is sound. -/
theorem sound_ofText {text : String} {d : Document} (h : ofText text = .ok d) : d.Sound := by
  unfold ofText at h
  split at h
  · cases h
  · next v hv =>
    have hreadable : Readable 200 v := by
      unfold Json.read at hv
      dsimp only at hv
      split at hv
      · cases hv
      · next hread =>
        split at hv
        · obtain rfl := Except.ok.inj hv
          exact valueFrom_readable _ _ _ _ _ _ hread
        · cases hv
    unfold rejecting at h
    dsimp only at h
    split at h
    · next hnone =>
      obtain rfl := Except.ok.inj h
      exact readDocument_sound hreadable (List.isEmpty_iff.mp hnone)
    · cases h

/-! ## What is printed -/

section Printed

variable {d : Document}

theorem readable_nodeValue {x : NodeRecord} (h : x.Sound) : Readable 198 (nodeValue x) := by
  refine .dict (by simp [Named.names]) ?_
  simpa using ⟨.str 197 x.id, .str 197 x.kind, .dict h.literals.names h.literals.values⟩

theorem readable_edgeValue (x : Edge) : Readable 198 (edgeValue x) := by
  refine .dict (by simp [Named.names]) ?_
  simpa using ⟨.str 197 x.source, .str 197 x.sourcePort, .str 197 x.dest, .str 197 x.destPort⟩

/-- What is printed of a sound document nests no deeper than what is read. -/
theorem Sound.readable_toValue (h : d.Sound) : Readable 200 d.toValue := by
  refine .dict (by simp [Named.names]) ?_
  have hnodes : Readable 199 (.list (d.nodes.map nodeValue)) :=
    .list (List.forall_mem_map.mpr fun x hx => readable_nodeValue (h.nodes x hx))
  have hedges : Readable 199 (.list (d.edges.map edgeValue)) :=
    .list (List.forall_mem_map.mpr fun x _ => readable_edgeValue x)
  simpa using ⟨.str 199 d.version, hnodes, hedges, .dict h.globals.names h.globals.values⟩

theorem readName_str {s : String} (h : s ≠ "") : readName (.str s) = ⟨s, []⟩ := by
  simp [readName, String.isEmpty_iff, h]

theorem readNode_nodeValue {x : NodeRecord} (h : x.Sound) : readNode (nodeValue x) = ⟨x, []⟩ := by
  have hid := readName_str h.id
  have hkind := readName_str h.kind
  have hliterals := readMembers_toValue x.literals
  unfold nodeValue
  generalize x.literals.toValue = literals at hliterals
  simp [readNode, required, defaulted, Dict.get?, Value.same, Named.toValue, hid, hkind, hliterals, Read.under]

theorem readEdge_edgeValue {x : Edge} (h : x.Sound) : readEdge (edgeValue x) = ⟨x, []⟩ := by
  simp [edgeValue, readEdge, required, Dict.get?, Value.same, Named.toValue, readName_str h.source,
    readName_str h.sourcePort, readName_str h.dest, readName_str h.destPort, Read.under]

theorem readItems_map {α : Type} {read : Value → Read α} {write : α → Value} {l : List α}
    (h : ∀ a ∈ l, read (write a) = ⟨a, []⟩) (i : Nat) : readItems read i (l.map write) = ⟨l, []⟩ := by
  induction l generalizing i with
  | nil => rfl
  | cons a l ih =>
    obtain ⟨ha, hl⟩ := List.forall_mem_cons.mp h
    simp [readItems, ha, ih hl, Read.under]

/-- Of what is printed of a sound document, each record is read as it was. -/
theorem Sound.readDocument_toValue (h : d.Sound) : readDocument d.toValue = ⟨d, []⟩ := by
  have hnodes : readList readNode (.list (d.nodes.map nodeValue)) = ⟨d.nodes, []⟩ :=
    readItems_map (fun x hx => readNode_nodeValue (h.nodes x hx)) 0
  have hedges : readList readEdge (.list (d.edges.map edgeValue)) = ⟨d.edges, []⟩ :=
    readItems_map (fun x hx => readEdge_edgeValue (h.edges x hx)) 0
  have hglobals := readMembers_toValue d.globals
  unfold toValue
  generalize d.globals.toValue = globals at hglobals
  simp [readDocument, defaulted, Dict.get?, Value.same, Named.toValue, readText, hnodes, hedges, hglobals, Read.under]

/-- A double in what is printed stands in a literal or a variable. -/
theorem holdsFloat_toValue_iff : d.toValue.HoldsFloat ↔ d.HoldsFloat := by
  simp [Document.toValue, Document.HoldsFloat, nodeValue, edgeValue, Value.holdsFloat_toValue,
    Value.holdsFloat_list]

end Printed

/-- A document without doubles that was read from a text is what its own text is read as, so that its text is printed
again as it is. -/
theorem ofText_toText {text : String} {d : Document} (h : ofText text = .ok d) (hd : ¬d.HoldsFloat) :
    ofText d.toText = .ok d ∧ (ofText d.toText).map toText = .ok d.toText := by
  have hsound := sound_ofText h
  have hread : Json.read .document d.toText = .ok d.toValue :=
    (hsound.readable_toValue.spells (mt holdsFloat_toValue_iff.mp hd) 0).read_eq
  have hagain : ofText d.toText = .ok d := by
    simp only [ofText, hread, hsound.readDocument_toValue]
    rfl
  exact ⟨hagain, by rw [hagain]; rfl⟩

/-- A text with an unknown field, a name that comes twice and a node without literals. -/
def noteText : String :=
  "\x7b\"variables\": \x7b\"v\": 1, \"w\": [null, \x7b\x7d], \"v\": \"\\u00e9\\t\"\x7d, \"note\": 1,
  \"nodes\": [\x7b\"kind_id\": \"add\", \"id\": \"n1\"\x7d]\x7d"

/-- What that text holds. -/
def noted : Document where
  nodes := [⟨"n1", "add", []⟩]
  globals := [("v", .str "é\t"), ("w", .list [.null, .dict []])]

/-- Whether that is what was read. -/
def readsNoted : Except Fault Document → Bool
  | .ok ⟨"1.0", [⟨"n1", "add", []⟩], [], [("v", .str "é\t"), ("w", .list [.null, .dict []])]⟩ => true
  | _ => false

theorem eq_of_readsNoted {r : Except Fault Document} (h : readsNoted r = true) : r = .ok noted := by
  unfold readsNoted at h
  split at h
  · rfl
  · cases h

theorem ofText_toText_noted : (ofText noteText = .ok noted ∧ ¬noted.HoldsFloat) ∧
    ofText noted.toText = .ok noted := by
  have hread : ofText noteText = .ok noted := eq_of_readsNoted (by decide +kernel)
  have hplain : ¬noted.HoldsFloat := by
    rintro (⟨x, hx, y, hy, -⟩ | ⟨y, hy, h⟩)
    · obtain rfl := List.mem_singleton.mp hx
      cases hy
    · rcases List.mem_pair.mp hy with rfl | rfl
      · exact Value.not_holdsFloat_str _ h
      · obtain ⟨z, hz, h⟩ := Value.holdsFloat_list.mp h
        have hempty : ¬(Named.toValue []).HoldsFloat := by simp [Value.holdsFloat_toValue]
        rcases List.mem_pair.mp hz with rfl | rfl
        · cases h
        · exact hempty h
  exact ⟨⟨hread, hplain⟩, (ofText_toText hread hplain).1⟩

end Document

end Patchbay
