import TreeQuery.Markup.Json
import TreeQuery.Proofs.JsonDepth
import TreeQuery.Proofs.Rebuilding

/-!
# Markup and its text

The value that is written for markup is made of strings, arrays and objects alone, so it is read
back from its text (`Json.read?_write`). The markup is read back from the value
(`Markup.ofJson?_toJson`): children are left out where there are none and are taken for none where
they are missing, and the attributes are written in the order in which they are kept. All that can
stop the reader is the nesting of the text.
-/

namespace TreeQuery

/-! ## Attributes -/

namespace Attributes

/-- A name that comes after all others is bound at the end. -/
theorem bind_eq_append {name value : String} {bindings : List (String × String)}
    (h : ∀ b ∈ bindings, b.1 < name) : bind name value bindings = bindings ++ [(name, value)] := by
  induction bindings with
  | nil => rfl
  | cons b bindings ih =>
    obtain ⟨hb, hrest⟩ := List.forall_mem_cons.mp h
    have hne : name ≠ b.1 := fun heq => String.lt_irrefl _ (heq ▸ hb)
    rw [bind, if_neg hne, if_neg (String.lt_asymm hb), ih hrest]
    rfl

/-- Bindings in the order of their names are bound one behind the other. -/
theorem bindings_foldl_insert {bindings : List (String × String)} {attributes : Attributes}
    (h : (attributes.bindings ++ bindings).Pairwise fun a b => a.1 < b.1) :
    (bindings.foldl (fun attributes b => attributes.insert b.1 b.2) attributes).bindings =
      attributes.bindings ++ bindings := by
  induction bindings generalizing attributes with
  | nil => exact (List.append_nil _).symm
  | cons b bindings ih =>
    have hinsert : (attributes.insert b.1 b.2).bindings = attributes.bindings ++ [b] :=
      bind_eq_append fun a ha => (List.pairwise_append.mp h).2.2 a ha b List.mem_cons_self
    have hsplit : attributes.bindings ++ b :: bindings =
        (attributes.insert b.1 b.2).bindings ++ bindings := by
      rw [hinsert, List.append_assoc]
      rfl
    rw [hsplit] at h ⊢
    exact ih h

/-- A map is the map of its bindings. -/
theorem ofList_bindings (attributes : Attributes) : ofList attributes.bindings = attributes := by
  have hbindings : (ofList attributes.bindings).bindings = attributes.bindings :=
    bindings_foldl_insert attributes.increasing
  generalize ofList attributes.bindings = other at hbindings
  obtain ⟨_, _⟩ := attributes
  obtain ⟨_, _⟩ := other
  simp only at hbindings
  subst hbindings
  rfl

end Attributes

namespace Markup

/-! ## Markup as a value -/

/-- The member that lists children is made of strings, arrays and objects if the children are. -/
theorem membersTextual_childrenMember {items : List Json} (h : Json.AllTextual items) :
    Json.MembersTextual (childrenMember items) := by
  unfold childrenMember
  split_ifs
  · trivial
  · exact ⟨h, trivial⟩

/-- The members that write the attributes hold strings. -/
theorem membersTextual_bindings (bindings : List (String × String)) :
    Json.MembersTextual (bindings.map fun b => (b.1, .string b.2)) := by
  induction bindings with
  | nil => trivial
  | cons b bindings ih => exact ⟨trivial, ih⟩

mutual

/-- Markup is made of strings, arrays and objects alone. -/
theorem textual_toJson : ∀ piece : Markup, piece.toJson.Textual
  | .document children =>
    ⟨trivial, membersTextual_childrenMember (allTextual_allToJson children)⟩
  | .element _ attributes children =>
    ⟨trivial, trivial, membersTextual_bindings attributes.bindings,
      membersTextual_childrenMember (allTextual_allToJson children)⟩
  | .text _ => ⟨trivial, trivial, trivial⟩
  | .comment _ => ⟨trivial, trivial, trivial⟩

/-- Pieces of markup are made of strings, arrays and objects alone. -/
theorem allTextual_allToJson : ∀ pieces : List Markup, Json.AllTextual (allToJson pieces)
  | [] => trivial
  | piece :: pieces => ⟨textual_toJson piece, allTextual_allToJson pieces⟩

end

/-- An object is read from its members, the tag first. -/
theorem ofJson?_object (nested : Bool) (members : List (String × Json)) :
    ofJson? nested (.object members) = (do
      let tag ← (members.lookup "type").bind (Tag.ofJson? nested)
      if partsOnce tag (members.map (·.1)) then
        assemble? tag (members.lookup "tagName") (members.lookup "attributes")
          (members.lookup "content") (childrenOf? members)
      else none) := rfl

/-- Values are read as pieces of markup one after the other. -/
theorem allOf?_cons (item : Json) (items : List Json) :
    allOf? (item :: items) = (do
      let piece ← ofJson? true item
      let pieces ← allOf? items
      return piece :: pieces) := rfl

/-- The attributes of an element are read back. -/
theorem attributes?_bindings (attributes : Attributes) :
    attributes? (.object (attributes.bindings.map fun b => (b.1, .string b.2))) =
      some attributes := by
  have hbindings : ∀ bindings : List (String × String),
      (bindings.map fun b => (b.1, Json.string b.2)).mapM binding? = some bindings := by
    intro bindings
    induction bindings with
    | nil => rfl
    | cons b bindings ih =>
      rw [List.map_cons, List.mapM_cons, ih]
      rfl
  rw [attributes?, hbindings, Option.map_some, Attributes.ofList_bindings]

/-- Children are read back, and there are none if there is no list of them. -/
theorem getD_childrenOf? {pieces : List Markup} (h : allOf? (allToJson pieces) = some pieces) :
    (childrenOf? (childrenMember (allToJson pieces))).getD (some []) = some pieces := by
  cases pieces with
  | nil => rfl
  | cons piece pieces => exact h

/-- The members of a document are written once. -/
theorem partsOnce_document (items : List Json) :
    partsOnce .document ("type" :: (childrenMember items).map (·.1)) = true := by
  cases items with
  | nil => rfl
  | cons item items => rfl

/-- The members of an element are written once. -/
theorem partsOnce_element (items : List Json) :
    partsOnce .element ("type" :: "tagName" :: "attributes" :: (childrenMember items).map (·.1)) =
      true := by
  cases items with
  | nil => rfl
  | cons item items => rfl

mutual

/-- Markup is read back from its value. -/
theorem ofJson?_toJson : ∀ (piece : Markup) (nested : Bool),
    ofJson? nested piece.toJson = some piece
  -- A document has no part but its children, which stand in the one member or are left out with it.
  | .document children, nested => by
    have hchildren := getD_childrenOf? (allOf?_allToJson children)
    rw [toJson, ofJson?_object]
    change (if partsOnce .document ("type" :: (childrenMember _).map (·.1)) then
      assemble? .document _ _ _ (childrenOf? (childrenMember _)) else none) = _
    rw [if_pos (partsOnce_document _), assemble?, hchildren]
    rfl
  -- An element has its name and its attributes in front of that member.
  | .element tagName attributes children, nested => by
    have hchildren := getD_childrenOf? (allOf?_allToJson children)
    rw [toJson, ofJson?_object]
    change (if partsOnce .element
        ("type" :: "tagName" :: "attributes" :: (childrenMember _).map (·.1)) then
      assemble? .element (some (.string tagName)) (some (.object _)) _
        (childrenOf? (childrenMember _)) else none) = _
    rw [if_pos (partsOnce_element _), assemble?, hchildren, Option.map_some, Option.getD_some,
      attributes?_bindings]
    rfl
  | .text content, nested => rfl
  | .comment content, nested => rfl

/-- Pieces of markup are read back from their values. -/
theorem allOf?_allToJson : ∀ pieces : List Markup, allOf? (allToJson pieces) = some pieces
  | [] => rfl
  | piece :: pieces => by
    rw [allToJson, allOf?_cons, ofJson?_toJson, allOf?_allToJson]
    rfl

end

/-! ## Markup as text -/

/-- The text of markup nests as deep as its value. -/
theorem nesting_compact (piece : Markup) :
    Json.nesting piece.toJson.compact.toList = piece.toJson.depth := by
  rw [Json.compact, String.toList_ofList, Json.nesting_write (textual_toJson piece)]

/-- Markup is read back from its text, unless that nests too deep. -/
theorem read?_compact (piece : Markup) :
    read? piece.toJson.compact =
      if Json.nesting piece.toJson.compact.toList ≤ 127 then some piece else none := by
  have hvalue : Json.read? piece.toJson.compact.toList = some piece.toJson := by
    rw [Json.compact, String.toList_ofList, Json.read?_write (textual_toJson piece)]
  rw [nesting_compact, read?, hvalue]
  simp only [Option.bind_eq_bind, Option.bind_some, (textual_toJson piece).isReadable,
    Bool.true_and, ofJson?_toJson, maxDepth]
  exact if_congr decide_eq_true_iff rfl rfl

end Markup

/-! ## Trees as text -/

/-- Writing and reading are inverse as far as the reader follows the nesting: markup is read back
from its text if no more than 127 arrays and objects are open at once in the text, and is refused
otherwise. So the text of a well-formed tree in which node 0 is the only document is a text that
gives a tree under the same condition, and the text of that tree is the same again. -/
theorem Markup.text_round_trip :
    (∀ piece : Markup, read? piece.toJson.compact =
      if Json.nesting piece.toJson.compact.toList ≤ 127 then some piece else none) ∧
      ∀ t : Tree, t.WellFormed → (∀ n, t.data? n = some .document → n = .document) →
        ∀ flavour : Flavour, ∃ text, t.exportText? .document = .ok text ∧
          ((∃ u, Tree.parse? flavour text = some u) ↔ Json.nesting text.toList ≤ 127) ∧
          ∀ u, Tree.parse? flavour text = some u → u.exportText? .document = .ok text := by
  refine ⟨read?_compact, fun t h honly flavour => ?_⟩
  -- The tree exports markup from which building makes a tree `u`, which exports the same markup.
  obtain ⟨piece, hexport, -, htop, hpiece⟩ := h.markup?_document honly
  obtain ⟨u, hu, -, -, -, -, -, hagain⟩ := build?_eq_ok flavour hpiece
  have htext : t.exportText? .document = .ok piece.toJson.compact := by
    rw [Tree.exportText?, hexport]
    rfl
  -- So the text is read as `u` exactly if its nesting is within the bound.
  have hparse : Tree.parse? flavour piece.toJson.compact =
      if Json.nesting piece.toJson.compact.toList ≤ 127 then some u else none := by
    rw [Tree.parse?, read?_compact]
    split_ifs
    · rw [Option.bind_some, hu]
      rfl
    · rfl
  refine ⟨_, htext, ?_, fun v hv => ?_⟩
  · rw [hparse]
    split_ifs with hnesting
    · exact iff_of_true ⟨u, rfl⟩ hnesting
    · exact iff_of_false (fun ⟨_, hsome⟩ => nomatch hsome) hnesting
  · rw [hparse] at hv
    split_ifs at hv
    obtain rfl := Option.some.inj hv
    rw [Tree.exportText?, hagain, htop]
    rfl

/-- For one, a paragraph with quotes in an attribute and a line break in its text, which was made
before the division that it stands in. -/
theorem Markup.text_round_trip_quoted :
    let t := Edit.run (.empty .html) [.createElement "p" [("title", "\"")],
      .createElement "div" [], .createText "a\n", .append 0 2, .append 2 1, .append 1 3]
    t.WellFormed ∧ (∀ n, t.data? n = some .document → n = .document) ∧
      ∃ text u, t.exportText? .document = .ok text ∧ Json.nesting text.toList = 7 ∧
        Tree.parse? .xml text = some u ∧ u.exportText? .document = .ok text := by
  intro t
  have h : t.WellFormed := Edit.wellFormed_run (Tree.wellFormed_empty .html) _
  have honly : ∀ n, t.data? n = some .document → n = .document :=
    Tree.eq_document_of_lt_size (by decide)
  refine ⟨h, honly, ?_⟩
  obtain ⟨text, htext, hparse, hagain⟩ := Markup.text_round_trip.2 t h honly .xml
  -- The nesting of the text is the depth of the value, which is computed.
  have hnesting : Json.nesting text.toList = 7 := by
    obtain ⟨piece, hpiece⟩ : ∃ piece, t.markup? .document = .ok piece := ⟨_, rfl⟩
    rw [Tree.exportText?, hpiece] at htext
    obtain rfl := Except.ok.inj htext
    rw [Markup.nesting_compact]
    cases hpiece
    decide
  obtain ⟨u, hu⟩ := hparse.mpr (hnesting ▸ by decide)
  exact ⟨text, u, htext, hnesting, hu, hagain u hu⟩

end TreeQuery
