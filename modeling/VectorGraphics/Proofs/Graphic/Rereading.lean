import VectorGraphics.Proofs.Graphic.Documents
import VectorGraphics.Proofs.Markup.NormalForm
import VectorGraphics.Proofs.Path.RoundTrip
import VectorGraphics.Proofs.Svg.Transforms

/-!
# Writing and reading again

`Graphic.reread` is what is to be expected when a graphic is written with some decimal places and
read again: only numbers change, except that a group of a vector drawable whose transform has skew
becomes two groups. `Element.Recognized` says of an element that it is what it would be read as;
every element that was read is recognized.
-/

namespace VectorGraphics

/-! ## What is expected -/

/-- A transform as it is read from the text that it is written as. -/
def Svg.rereadTransform (places : UInt8) (m : Matrix) : Matrix :=
  (parseTransform? (transformText m places)).getD .identity

/-- A transform as it is read from the attributes that it is written as. -/
def VectorDrawable.rereadTransform (places : UInt8) (m : Matrix) : Matrix :=
  match groupTransform (.ofList (transformEntries places m)) with
  | .ok t => t.matrix
  | .error _ => .identity

/-- A group as it is read again. In a vector drawable skew takes a second group. -/
def rereadGroup (format : Format) (places : UInt8) (m : Matrix) (label : Label)
    (children : List Element) : Element :=
  if m.isIdentity then .group .identity label children
  else
    match format with
    | .svg => .group (Svg.rereadTransform places m) label children
    | .vectorDrawable =>
      match m.decompose with
      | some _ => .group (VectorDrawable.rereadTransform places m) label children
      | none =>
        .group (VectorDrawable.rereadTransform places m.splitSkew.1) label
          [.wrap (VectorDrawable.rereadTransform places m.splitSkew.2) children]

/-- A container as it is read again. -/
def rereadContainer (format : Format) (places : UInt8) (role : Role) (label : Label)
    (children : List Element) : Element :=
  match role with
  | .group m => rereadGroup format places m label children
  | role => .container role label children

mutual

/-- An element as it is read again: every number of a path is replaced by what its text is read
as. -/
def Element.reread (format : Format) (places : UInt8) : Element → Element
  | .text content => .text content
  | .shape use label commands =>
    .shape use label (commands.map (Path.Command.mapNumbers (Single.reread places)))
  | .container role label children =>
    rereadContainer format places role label (Element.rereadAll format places children)

/-- Some elements as they are read again. -/
def Element.rereadAll (format : Format) (places : UInt8) : List Element → List Element
  | [] => []
  | e :: es => e.reread format places :: Element.rereadAll format places es

end

/-- A graphic as it is read again. -/
def Graphic.reread (g : Graphic) (places : UInt8) : Graphic :=
  { g with children := Element.rereadAll g.format places g.children }

/-! ## What is assumed -/

/-- All numbers of paths are finite. -/
def finitePaths : ElementProperty where
  shape _ _ commands := ∀ c ∈ commands, ∀ xs ∈ c.numbers, ∀ x ∈ xs, x.isFinite = true
  container _ _ := True

mutual

/-- Whether no character data inside an element is blank or next to other character data. -/
def Element.isNormal : Element → Bool
  | .text content => !content.toList.all Text.isBlank
  | .shape .. => true
  | .container _ _ children => Element.isNormalAll children

/-- Whether no character data among some siblings, or inside them, is blank or next to other
character data. -/
def Element.isNormalAll : List Element → Bool
  | [] => true
  | e :: es => e.isNormal && (e.isTagged || es.head?.all isTagged) && Element.isNormalAll es

end

/-! ## Elements that were read -/

/-- The attributes of a group hold a transform that cannot be read. -/
def KeepsTransform (format : Format) (foreign : Attributes) : Prop :=
  match format with
  | .svg => ∃ value, foreign.get? "transform" = some value ∧ Svg.parseTransform? value = none
  | .vectorDrawable => ∃ entry, VectorDrawable.groupTransform foreign = .error entry

/-- Elements of this name are neither groups nor clip paths, and none that is kept is a path. -/
def IsKept (format : Format) (name : String) (foreign : Attributes) (hasElements : Bool) : Prop :=
  match format with
  | .svg =>
    Svg.localName name ≠ "g" ∧ Svg.localName name ≠ "clipPath"
      ∧ (Svg.localName name = "path" → hasElements = true)
  | .vectorDrawable =>
    name ≠ "group" ∧ ((VectorDrawable.useOf? name).isSome = true →
      hasElements = true ∨ VectorDrawable.refersToResource foreign = true)

/-- A container is read under its role. -/
def IsReadAs (format : Format) (foreign : Attributes) (hasElements : Bool) : Role → Prop
  | .group m =>
    foreign.Keys (· ∉ format.transformKeys) ∨ m = .identity ∧ KeepsTransform format foreign
  | .clipGroup => format = .svg
  | .extra name => IsKept format name foreign hasElements

mutual

/-- An element and everything inside it is what it would be read as. -/
def Element.Recognized (format : Format) : Element → Prop
  | .text _ => True
  | .shape use label commands =>
    (use = .clipping → format = .vectorDrawable)
      ∧ label.foreign.Keys (fun key => key ≠ format.idKey ∧ key ≠ format.pathDataKey)
      ∧ Path.IsPath commands
  | .container role label children =>
    label.foreign.Keys (· ≠ format.idKey)
      ∧ IsReadAs format label.foreign (children.any isTagged) role
      ∧ Element.RecognizedAll format children

/-- Some elements and everything inside them are what they would be read as. -/
def Element.RecognizedAll (format : Format) : List Element → Prop
  | [] => True
  | e :: es => e.Recognized format ∧ Element.RecognizedAll format es

end

/-- A graphic is what it would be read as. -/
structure Graphic.Recognized (g : Graphic) : Prop where
  root : g.label.foreign.Keys (· ≠ g.format.idKey)
  children : Element.RecognizedAll g.format g.children

/-! ## Labels -/

theorem keys_foreign_ofAttributes_ne (idKey : String) (attributes : List (String × String)) :
    (Label.ofAttributes idKey attributes).foreign.Keys (· ≠ idKey) :=
  Attributes.keys_ofList fun _ hmem => of_decide_eq_true (List.mem_filter.1 hmem).2

/-- The attributes of a map are found again among others. -/
theorem filter_ofList_around {a : Attributes} {p : String → Bool}
    (front : List (String × String)) {back : List (String × String)}
    (h : a.Keys fun key => p key = true)
    (hfront : Entries (fun key => p key = false) front)
    (hback : Entries (fun key => p key = false) back) :
    (Attributes.ofList (front ++ a.toList ++ back)).filter (fun key _ => p key) = a := by
  have hdrop {l : List (String × String)} (hl : Entries (fun key => p key = false) l) :
      (l.filter fun entry => p entry.1) = [] :=
    List.filter_eq_nil_iff.2 fun entry hmem => by
      rw [hl entry hmem]
      exact Bool.false_ne_true
  rw [Attributes.filter_ofList, List.filter_append, List.filter_append, hdrop hfront, hdrop hback,
    List.filter_eq_self.2 h, List.nil_append, List.append_nil]
  exact Attributes.ofList_of_perm (.refl _)

/-- Other attributes do not change the values of those that are only in a map. -/
theorem get?_ofList_append (front : List (String × String)) (a : Attributes) (key : String) :
    (Attributes.ofList (front ++ a.toList)).get? key
      = (a.get? key).or ((Attributes.ofList front).get? key) := by
  rw [Attributes.get?_ofList, Attributes.get?_ofList, List.reverse_append, List.lookup_append,
    lookup_reverse a.nodup_keys, Attributes.get?]

section Labels

variable {format : Format} {label : Label}

/-- A label is read with the attributes that were written along with it. -/
theorem ofAttributes_labelled (h : label.foreign.Keys (· ≠ format.idKey)) (name : String)
    (children : List Markup.Node) {front back : List (String × String)}
    (hfront : Entries (· ≠ format.idKey) front) (hback : Entries (· ≠ format.idKey) back) :
    Label.ofAttributes format.idKey (({ name, children } : Markup.Element).setAll
        (label.idEntry format.idKey ++ front ++ label.foreign.toList ++ back)).attributes
      = ⟨label.id, .ofList (front ++ label.foreign.toList ++ back)⟩ := by
  have happend := label.ofAttributes_append entries_nil ((hfront.append h).append hback)
  rw [List.nil_append, List.nil_append] at happend
  rw [Label.ofAttributes_setAll, List.append_assoc, List.append_assoc, ← happend,
    List.append_assoc]

/-- A label that is written by itself is read back. -/
theorem ofAttributes_label (h : label.foreign.Keys (· ≠ format.idKey)) (name : String)
    (children : List Markup.Node) :
    Label.ofAttributes format.idKey (({ name, children } : Markup.Element).setAll
        (label.idEntry format.idKey ++ label.foreign.toList)).attributes = label := by
  have hread := ofAttributes_labelled h name children entries_nil entries_nil
  simp only [List.append_nil, List.nil_append] at hread
  rw [hread, Attributes.ofList_of_perm (.refl _)]

/-- The label of a root is read back, wherever its namespaces stand. -/
theorem ofAttributes_root (h : label.foreign.Keys (· ≠ format.idKey)) (name : String)
    (children : List Markup.Node) (p : String × String → Bool) :
    Label.ofAttributes format.idKey (({ name, children } : Markup.Element).setAll
        (label.foreign.toList.filter p ++ label.idEntry format.idKey
          ++ label.foreign.toList.filter fun entry => !p entry)).attributes = label := by
  rw [Label.ofAttributes_setAll, label.ofAttributes_append (Entries.filter h _)
    (Entries.filter h _), Attributes.ofList_of_perm (List.filter_append_perm p _)]

/-- The label of a path is read back, with the data of the path beside it. -/
theorem ofAttributes_path
    (h : label.foreign.Keys fun key => key ≠ format.idKey ∧ key ≠ format.pathDataKey)
    (name : String) (places : UInt8) (commands : List Path.Command) :
    ∃ l, Label.ofAttributes format.idKey (({ name } : Markup.Element).setAll
          (label.idEntry format.idKey ++ dataEntry format places commands
            ++ label.foreign.toList)).attributes = l
      ∧ l.foreign.get? format.pathDataKey
        = (if commands.isEmpty then none else some (Path.print commands places))
      ∧ { l with foreign := l.foreign.erase format.pathDataKey } = label := by
  have hread := ofAttributes_labelled (h.mono fun _ hkey => hkey.1) name []
    (entries_dataEntry (idKey_ne_pathDataKey format) places commands) entries_nil
  simp only [List.append_nil] at hread
  refine ⟨_, hread, ?_, ?_⟩
  · rw [get?_ofList_append, h.get?_eq_none fun hkey => hkey.2 rfl, Option.none_or, dataEntry]
    split
    · rfl
    · exact List.lookup_cons_self
  · have herase := filter_ofList_around (p := (· != format.pathDataKey)) (a := label.foreign) _
      (h.mono fun _ hkey => bne_iff_ne.2 hkey.2)
      (entries_dataEntry (bne_self_eq_false _) places commands) entries_nil
    rw [List.append_nil] at herase
    exact Label.ext rfl herase

/-- The data of a path is read as the path with its numbers read again. -/
theorem yields_commands_print (places : UInt8) {commands : List Path.Command}
    (h : Path.IsPath commands)
    (hfinite : ∀ c ∈ commands, ∀ xs ∈ c.numbers, ∀ x ∈ xs, x.isFinite = true) :
    Reading.Yields (Reading.commands
        (if commands.isEmpty then none else some (Path.print commands places)))
      (commands.map (Path.Command.mapNumbers (Single.reread places))) := by
  have hparse := Path.parse_print places ⟨h.groups_ne_nil, hfinite⟩ h.move
  cases commands with
  | nil => exact Reading.yields_pure.2 rfl
  | cons c cs =>
    rw [List.isEmpty_cons, if_neg Bool.false_ne_true, Reading.commands, hparse]
    exact Reading.yields_pure.2 rfl

end Labels

end VectorGraphics
