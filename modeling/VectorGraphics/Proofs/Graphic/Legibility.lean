import VectorGraphics.Graphic.Document
import VectorGraphics.Proofs.Graphic.Outcomes
import VectorGraphics.Proofs.Graphic.Soundness
import VectorGraphics.Proofs.Markup.Documents
import VectorGraphics.Proofs.Path.Alphabet

/-!
# Legible elements

Reading a graphic from a document fails only over path data. `Readable` says of a document that all
path data that is looked at can be read, and `Legible` says of the elements of a graphic what this
comes down to once they are written.
-/

namespace VectorGraphics

open Markup (Node IsName IsTag)

/-- The path data that is read with an element, if it is read as a path. -/
def pathData? (format : Format) (name : String) (foreign : Attributes) (hasElements : Bool) :
    Option String :=
  match format with
  | .svg =>
    if Svg.localName name = "path" ∧ hasElements = false then
      foreign.get? Format.svg.pathDataKey
    else none
  | .vectorDrawable =>
    if (VectorDrawable.useOf? name).isSome ∧ hasElements = false
        ∧ VectorDrawable.refersToResource foreign = false then
      foreign.get? Format.vectorDrawable.pathDataKey
    else none

/-- Of the attributes only the path data matters. -/
theorem pathData?_congr {format : Format} {foreign foreign' : Attributes}
    (h : foreign.get? format.pathDataKey = foreign'.get? format.pathDataKey) (name : String)
    (hasElements : Bool) :
    pathData? format name foreign hasElements = pathData? format name foreign' hasElements := by
  cases format with
  | svg => simp only [pathData?, h]
  | vectorDrawable =>
    have hresource : VectorDrawable.refersToResource foreign
        = VectorDrawable.refersToResource foreign' := by
      rw [VectorDrawable.refersToResource, VectorDrawable.refersToResource, h]
    simp only [pathData?, hresource, h]

theorem idKey_ne_pathDataKey (format : Format) : format.pathDataKey ≠ format.idKey := by
  cases format <;> decide

/-! ## Documents -/

section Readable

variable {format : Format}

mutual

/-- All path data in a node can be read. -/
def Readable (format : Format) : Node → Prop
  | .text _ => True
  | .element name attributes children =>
    IsData (pathData? format name (Label.ofAttributes format.idKey attributes).foreign
      (children.any Markup.Element.isElement)) ∧ ReadableAll format children

/-- All path data in some nodes can be read. -/
def ReadableAll (format : Format) : List Node → Prop
  | [] => True
  | n :: ns => Readable format n ∧ ReadableAll format ns

end

theorem readableAll_append {ms ns : List Node} :
    ReadableAll format (ms ++ ns) ↔ ReadableAll format ms ∧ ReadableAll format ns := by
  induction ms with
  | nil => exact (iff_of_eq (true_and _)).symm
  | cons m ms ih => rw [List.cons_append, ReadableAll, ReadableAll, ih, and_assoc]

/-- Character data is not looked at. -/
theorem readableAll_of_any {ns : List Node} (h : ns.any Markup.Element.isElement = false) :
    ReadableAll format ns := by
  induction ns with
  | nil => trivial
  | cons n ns ih =>
    obtain ⟨hn, hns⟩ := Bool.or_eq_false_iff.1 h
    cases n with
    | text content => exact ⟨trivial, ih hns⟩
    | element name attributes children => cases hn

theorem any_isElement_textRun (cs : List Char) :
    (Markup.textRun cs).any Markup.Element.isElement = false := by
  rw [Markup.textRun]
  split <;> rfl

theorem readableAll_textRun (cs : List Char) : ReadableAll format (Markup.textRun cs) :=
  readableAll_of_any (any_isElement_textRun cs)

/-- Only character data changes when nodes are written and read. -/
theorem any_isElement_normalizeAll (pending : List Char) (ns : List Node) :
    (Node.normalizeAll pending ns).any Markup.Element.isElement
      = ns.any Markup.Element.isElement := by
  induction ns generalizing pending with
  | nil => exact any_isElement_textRun pending
  | cons n ns ih =>
    cases n with
    | text content => exact ih _
    | element name attributes children =>
      rw [Node.normalizeAll, List.any_append, any_isElement_textRun]
      rfl

mutual

theorem readable_normalize : ∀ n : Node, Readable format n.normalize ↔ Readable format n
  | .text _ => Iff.rfl
  | .element name attributes children => by
    rw [Node.normalize, Readable, Readable, any_isElement_normalizeAll,
      readableAll_normalizeAll [] children]

theorem readableAll_normalizeAll : ∀ (pending : List Char) (ns : List Node),
    ReadableAll format (Node.normalizeAll pending ns) ↔ ReadableAll format ns
  | pending, [] => iff_of_true (readableAll_textRun pending) trivial
  | pending, .text content :: ns =>
    (readableAll_normalizeAll (pending ++ content.toList) ns).trans (iff_of_eq (true_and _)).symm
  | pending, .element name attributes children :: ns => by
    have hnode := readable_normalize (.element name attributes children)
    have hrest := readableAll_normalizeAll [] ns
    rw [Node.normalizeAll, readableAll_append, ReadableAll, ReadableAll, hnode, hrest,
      iff_true_intro (readableAll_textRun pending), true_and]

end

end Readable

/-! ## Graphics -/

namespace Element

theorem descendants_shape (use : Use) (label : Label) (commands : List Path.Command) :
    (shape use label commands).descendants = [shape use label commands] := rfl

/-- Whether an element is not character data. -/
def isTagged : Element → Bool
  | .text _ => false
  | _ => true

/-- All numbers of a path are finite, and a kept element has path data that can be read if it looks
like a path. -/
def Legible (format : Format) : Element → Prop
  | .shape _ _ commands => ∀ c ∈ commands, ∀ xs ∈ c.numbers, ∀ x ∈ xs, x.isFinite = true
  | .container (.extra name) label children =>
    IsData (pathData? format name label.foreign (children.any isTagged))
  | .container (.group _) _ _ => True
  | .container .clipGroup _ _ => True
  | .text _ => True

instance (format : Format) : DecidablePred (Legible format)
  | .shape _ _ commands =>
    inferInstanceAs (Decidable (∀ c ∈ commands, ∀ xs ∈ c.numbers, ∀ x ∈ xs, x.isFinite = true))
  | .container (.extra name) label children =>
    inferInstanceAs (Decidable
      (IsData (pathData? format name label.foreign (children.any isTagged))))
  | .container (.group _) _ _ => isTrue trivial
  | .container .clipGroup _ _ => isTrue trivial
  | .text _ => isTrue trivial

end Element

section Writing

variable (format : Format) (places : UInt8)

/-- Elements are written as elements, and character data as character data. -/
theorem isElement_nodeOf (e : Element) :
    Markup.Element.isElement (format.nodeOf places e) = e.isTagged := by
  cases format with
  | svg => cases e <;> rfl
  | vectorDrawable =>
    cases e with
    | container role label children => cases role <;> rfl
    | shape use label commands => rfl
    | text content => rfl

theorem any_isElement_nodesOf (es : List Element) :
    (format.nodesOf places es).any Markup.Element.isElement = es.any Element.isTagged := by
  rw [Format.nodesOf_eq_map, List.any_map]
  exact congrArg es.any (funext (isElement_nodeOf format places))

end Writing

/-! ## Tags -/

section Tags

variable {format : Format} {label : Label}

/-- A written tag can be read back if it is written under names. -/
theorem isTag_setAll {name : String} (hname : IsName name) {children : List Node}
    {entries : List (String × String)} (h : Entries IsName entries) :
    IsTag name (({ name, children } : Markup.Element).setAll entries).attributes where
  name := hname
  keys := Markup.Element.keys_setAll (e := { name, children }) nofun h
  nodup := Markup.Element.nodup_setAll (e := { name, children }) List.nodup_nil entries

theorem isName_idKey (format : Format) : IsName format.idKey := by
  cases format <;> decide

/-- The path data of a path, if there are commands. -/
def dataEntry (format : Format) (places : UInt8) (commands : List Path.Command) :
    List (String × String) :=
  if commands.isEmpty then [] else [(format.pathDataKey, Path.print commands places)]

theorem entries_dataEntry {p : String → Prop} (h : p format.pathDataKey) (places : UInt8)
    (commands : List Path.Command) : Entries p (dataEntry format places commands) := by
  rw [dataEntry]
  split
  · exact entries_nil
  · exact .cons h _ entries_nil

/-- The attributes of a path without path data among them do not hide the data of its commands. -/
theorem get?_pathData (name : String) (places : UInt8)
    (hkeys : label.foreign.Keys (IsPathKey format)) (commands : List Path.Command) :
    (Label.ofAttributes format.idKey (({ name } : Markup.Element).setAll
        (label.idEntry format.idKey ++ dataEntry format places commands
          ++ label.foreign.toList)).attributes).foreign.get? format.pathDataKey
      = if commands.isEmpty then none else some (Path.print commands places) := by
  rw [get?_foreign_setAll (idKey_ne_pathDataKey format),
    hkeys.get?_eq_none fun h => h.2 rfl, Option.none_or, dataEntry]
  split
  · rfl
  · exact List.lookup_cons_self

/-- The data of a path can be read exactly if its numbers are finite. -/
theorem isData_print (places : UInt8) {commands : List Path.Command}
    (h : Path.IsPath commands) :
    IsData (if commands.isEmpty then none else some (Path.print commands places))
      ↔ ∀ c ∈ commands, ∀ xs ∈ c.numbers, ∀ x ∈ xs, x.isFinite = true := by
  cases commands with
  | nil => exact iff_of_true isData_none nofun
  | cons c cs =>
    exact isData_some.trans (Path.isOk_parse_print_iff places h.move h.groups_ne_nil)

end Tags

end VectorGraphics
