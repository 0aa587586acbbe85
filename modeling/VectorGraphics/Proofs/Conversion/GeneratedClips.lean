import Mathlib.Data.List.Forall2
import VectorGraphics.Proofs.Conversion.Soundness
import VectorGraphics.Proofs.Graphic.Documents

/-!
# Generated clip paths

In SVG clip paths are referred to by identifiers, which conversion generates by counting. The
identifiers that painted paths, groups and the root of a vector drawable have are kept next to them.

* `BecomesSvg` relates siblings in a vector drawable to what they become, and every statement about
  the result is an induction on it;
* `clipReferences_convert` says that there is one reference for each clip path;
* `references_unambiguous_iff` shows that they name what they were generated for, and nothing else,
  exactly if no identifier that is kept is one of those generated;
* `source_name_is_generated_again` is a graphic in which one is.
-/

namespace VectorGraphics.Conversion

open Element.descendants (descendantsOfAll)
open Reading

/-! ## What siblings become -/

/-- What siblings in a vector drawable become in SVG, with the number of clip paths before and up to
their end. -/
inductive BecomesSvg : ℕ → List Element → List Element → ℕ → Prop
  | nil (n : ℕ) : BecomesSvg n [] [] n
  | clip {n n' : ℕ} {es rest : List Element} (label : Label) (commands : List Path.Command) :
    BecomesSvg (n + 1) es rest n' → BecomesSvg n (.shape .clipping label commands :: es)
      [clipDefinition (clipId (n + 1)) commands, clippedBy (clipId (n + 1)) rest] n'
  | path {n n' : ℕ} {es rest : List Element} (label : Label) (commands : List Path.Command) :
    BecomesSvg n es rest n' → BecomesSvg n (.shape .painted label commands :: es)
      (.shape .painted { label with foreign := (svgPaint label.foreign).value } commands :: rest) n'
  | group {n₁ n₂ n₃ : ℕ} {children inner es rest : List Element} (m : Matrix) (label : Label) :
    BecomesSvg n₁ children inner n₂ → BecomesSvg n₂ es rest n₃ →
      BecomesSvg n₁ (.group m label children :: es) (.group m { id := label.id } inner :: rest) n₃
  | extra {n n' : ℕ} {es rest : List Element} (name : String) (label : Label)
    (children : List Element) : BecomesSvg n es rest n' →
      BecomesSvg n (.container (.extra name) label children :: es) rest n'
  | text {n n' : ℕ} {es rest : List Element} (content : String) : BecomesSvg n es rest n' →
      BecomesSvg n (.text content :: es) rest n'

/-- Conversion makes of the elements of a vector drawable what they are to become. -/
theorem becomesSvg_svgElements : ∀ (n : ℕ) {es : List Element},
    (native .vectorDrawable).HoldsAll es →
      BecomesSvg n es (svgElements n es).value.1 (svgElements n es).value.2
  | n, [], _ => .nil n
  | n, .shape .clipping label commands :: es, h => by
    rw [svgElements]
    exact .clip label commands (becomesSvg_svgElements (n + 1) h.2)
  | n, .shape .painted label commands :: es, h => by
    rw [svgElements]
    · exact .path label commands (becomesSvg_svgElements n h.2)
    · rintro _ _ ⟨⟩
  | n, .container (.group m) label children :: es, h => by
    rw [svgElements]
    · exact .group m label (becomesSvg_svgElements n h.1.2) (becomesSvg_svgElements _ h.2)
    · rintro _ _ ⟨⟩
  | _, .container .clipGroup _ _ :: _, h => absurd (h.1.1 rfl) (by decide)
  | n, .container (.extra name) label children :: es, h => by
    rw [svgElements]
    · exact .extra name label children (becomesSvg_svgElements n h.2)
    · rintro _ _ ⟨⟩
  | n, .text content :: es, h => by
    rw [svgElements]
    · exact .text content (becomesSvg_svgElements n h.2)
    · rintro _ _ ⟨⟩

/-! ## Clip paths and identifiers -/

mutual

/-- The clip paths of an element that are reached through groups alone, in document order. -/
def clipPaths : Element → List (List Path.Command)
  | .shape .clipping _ commands => [commands]
  | .container (.group _) _ children => clipPathsIn children
  | _ => []

/-- The clip paths of some siblings that are reached through groups alone, in document order. -/
def clipPathsIn : List Element → List (List Path.Command)
  | [] => []
  | e :: es => clipPaths e ++ clipPathsIn es

end

mutual

/-- The identifiers that an element of a vector drawable has in SVG too: those of painted paths and
of groups that are reached through groups alone. -/
def keptIds : Element → List String
  | .shape .painted label _ => label.id.toList
  | .container (.group _) label children => label.id.toList ++ keptIdsIn children
  | _ => []

/-- The identifiers that some siblings in a vector drawable have in SVG too. -/
def keptIdsIn : List Element → List String
  | [] => []
  | e :: es => keptIds e ++ keptIdsIn es

end

/-- Whether an element is a clip group. -/
def isClipGroup : Element → Bool
  | .container .clipGroup _ _ => true
  | _ => false

/-- The reference to a clip path on an element. -/
def clipReference? (e : Element) : Option String := e.label?.bind (·.foreign.get? "clip-path")

/-- A reference to an identifier. -/
def reference (id : String) : String := "url(#" ++ id ++ ")"

/-- The elements that a clip path and what follows it become. -/
theorem descendantsOfAll_clip (id : String) (commands : List Path.Command) (rest : List Element) :
    descendantsOfAll [clipDefinition id commands, clippedBy id rest]
      = clipDefinition id commands :: .shape .painted {} commands :: clippedBy id rest
        :: descendantsOfAll rest := by
  rw [descendantsOfAll, descendantsOfAll, descendantsOfAll, List.append_nil]
  rfl

section BecomesSvg

variable {n n' : ℕ} {es out : List Element}

/-- As many numbers are given as there are clip paths. -/
theorem BecomesSvg.count (h : BecomesSvg n es out n') : n' = n + (clipPathsIn es).length := by
  induction h with
  | nil n => rfl
  | clip label commands _ ih =>
    rw [ih, clipPathsIn, clipPaths, List.length_append, List.length_singleton]
    omega
  | path label commands _ ih => exact ih
  | group m label _ _ ih ih' =>
    rw [ih', ih, clipPathsIn, clipPaths, List.length_append]
    omega
  | extra name label children _ ih => exact ih
  | text content _ ih => exact ih

/-- The clip groups that siblings become are those of their clip paths, with one number after the
other. -/
theorem BecomesSvg.filter_isClipGroup (h : BecomesSvg n es out n') :
    (descendantsOfAll out).filter isClipGroup
      = ((clipPathsIn es).zipIdx (n + 1)).map fun clip =>
          clipDefinition (clipId clip.2) clip.1 := by
  induction h with
  | nil n => rfl
  | clip label commands _ ih =>
    rw [clipPathsIn, clipPaths, List.singleton_append, List.zipIdx_cons, List.map_cons, ← ih,
      descendantsOfAll_clip]
    rfl
  | path label commands _ ih => exact ih
  | group m label h _ ih ih' =>
    rw [clipPathsIn, clipPaths, List.zipIdx_append, List.map_append, ← ih, Nat.add_right_comm,
      ← h.count, ← ih', ← List.filter_append]
    rfl
  | extra name label children _ ih => exact ih
  | text content _ ih => exact ih

/-- The identifiers that siblings have after conversion, but for those of clip groups, are the ones
that are kept. -/
theorem BecomesSvg.filterMap_id? (h : BecomesSvg n es out n') :
    ((descendantsOfAll out).filter fun e => !isClipGroup e).filterMap Element.id?
      = keptIdsIn es := by
  induction h with
  | nil n => rfl
  | clip label commands _ ih =>
    rw [descendantsOfAll_clip]
    exact ih
  | @path n n' es rest label commands _ ih =>
    rw [keptIdsIn, keptIds, ← ih]
    cases label with
    | mk id foreign => cases id <;> rfl
  | @group _ _ _ _ inner _ rest m label _ _ ih ih' =>
    rw [keptIdsIn, keptIds, ← ih, ← ih', List.append_assoc, ← List.filterMap_append,
      ← List.filter_append]
    cases label with
    | mk id foreign => cases id <;> rfl
  | extra name label children _ ih => exact ih
  | text content _ ih => exact ih

/-- There is a reference to every clip path. -/
theorem BecomesSvg.filterMap_clipReference? (h : BecomesSvg n es out n') :
    (descendantsOfAll out).filterMap clipReference?
      = (List.range' (n + 1) (clipPathsIn es).length).map fun k => reference (clipId k) := by
  induction h with
  | nil n => rfl
  | clip label commands _ ih =>
    rw [clipPathsIn, clipPaths, List.singleton_append, List.length_cons, List.range'_succ,
      List.map_cons, ← ih, descendantsOfAll_clip]
    rfl
  | @path _ _ _ rest label commands _ ih =>
    have hnone : (svgPaint label.foreign).value.get? "clip-path" = none :=
      (keys_svgPaint label.foreign).get?_eq_none (by decide)
    exact (List.filterMap_cons_none (l := descendantsOfAll rest) hnone).trans ih
  | group m label h _ ih ih' =>
    rw [clipPathsIn, clipPaths, List.length_append, ← List.range'_append_1, List.map_append,
      ← ih, Nat.add_right_comm, ← h.count, ← ih', ← List.filterMap_append]
    rfl
  | extra name label children _ ih => exact ih
  | text content _ ih => exact ih

end BecomesSvg

/-! ## Identifiers -/

theorem clipId_eq (k : ℕ) : clipId k = "clip" ++ k.repr := rfl

theorem clipId_injective : Function.Injective clipId := by
  intro k l h
  rw [clipId_eq, clipId_eq, String.append_right_inj] at h
  exact Nat.repr_injective h

theorem reference_injective : Function.Injective reference := by
  intro i j h
  rw [reference, reference, String.append_left_inj, String.append_right_inj] at h
  exact h

/-- Whether an element has an identifier. -/
def hasId (id : String) (e : Element) : Bool := e.id? = some id

theorem hasId_iff {id : String} {e : Element} : hasId id e = true ↔ e.id? = some id :=
  decide_eq_true_iff

theorem hasId_clipDefinition_iff {k l : ℕ} {region : List Path.Command} :
    hasId (clipId k) (clipDefinition (clipId l) region) = true ↔ l = k :=
  hasId_iff.trans (Option.some_inj.trans clipId_injective.eq_iff)

/-- Of numbered clip groups none has a number before the first. -/
theorem filter_hasId_of_lt (regions : List (List Path.Command)) {n k : ℕ} (h : k < n) :
    ((regions.zipIdx n).map fun clip => clipDefinition (clipId clip.2) clip.1).filter
        (hasId (clipId k)) = [] := by
  refine List.filter_eq_nil_iff.2 fun e he hid => ?_
  obtain ⟨⟨region, l⟩, hclip, rfl⟩ := List.mem_map.1 he
  have hl : n ≤ l := List.le_snd_of_mem_zipIdx hclip
  have hlk : l = k := hasId_clipDefinition_iff.1 hid
  omega

/-- Of numbered clip groups one has a number. -/
theorem filter_hasId (regions : List (List Path.Command)) (n : ℕ) {j : ℕ}
    (h : j < regions.length) :
    ((regions.zipIdx n).map fun clip => clipDefinition (clipId clip.2) clip.1).filter
        (hasId (clipId (n + j))) = [clipDefinition (clipId (n + j)) regions[j]] := by
  induction regions generalizing n j with
  | nil => cases h
  | cons region regions ih =>
    rw [List.zipIdx_cons, List.map_cons]
    cases j with
    | zero =>
      rw [Nat.add_zero, List.filter_cons_of_pos (hasId_clipDefinition_iff.2 rfl),
        filter_hasId_of_lt regions (Nat.lt_succ_self n)]
      rfl
    | succ j =>
      have hne : n ≠ n + (j + 1) := by omega
      have htail := ih (n + 1) (Nat.lt_of_succ_lt_succ h)
      rw [Nat.add_right_comm] at htail
      rw [List.filter_cons_of_neg fun hid => hne (hasId_clipDefinition_iff.1 hid)]
      exact htail

/-- An identifier that nothing but a clip group has is found among the clip groups. -/
theorem filter_hasId_of_notMem {es : List Element} {id : String}
    (h : id ∉ (es.filter fun e => !isClipGroup e).filterMap Element.id?) :
    es.filter (hasId id) = (es.filter isClipGroup).filter (hasId id) := by
  rw [List.filter_filter]
  refine List.filter_congr fun e he => ?_
  cases hgroup : isClipGroup e with
  | true => rw [Bool.and_true]
  | false =>
    have hnot : ¬hasId id e = true := fun hid =>
      h (List.mem_filterMap.2 ⟨e, List.mem_filter.2 ⟨he, by rw [hgroup]; rfl⟩, hasId_iff.1 hid⟩)
    rw [Bool.and_false, Bool.eq_false_of_not_eq_true hnot]

/-! ## References in a graphic -/

/-- The references to clip paths in a graphic, in document order, that of the root first. -/
def clipReferences (g : Graphic) : List String :=
  (g.label.foreign.get? "clip-path").toList ++ g.elements.filterMap clipReference?

/-- The identifiers of a vector drawable that are kept in SVG. -/
def keptIdsOf (g : Graphic) : List String := g.label.id.toList ++ keptIdsIn g.children

/-- An identifier names an element of a graphic and nothing else in it. -/
structure Names (g : Graphic) (id : String) (e : Element) : Prop where
  root : g.label.id ≠ some id
  elements : g.elements.filter (hasId id) = [e]

/-- A reference names one element of a graphic, and this is the clip group of a clip path. -/
def Refers (g : Graphic) (value : String) (commands : List Path.Command) : Prop :=
  ∃ id, value = reference id ∧ Names g id (clipDefinition id commands)

section Graphic

variable {s : String} {g : Graphic}

theorem convert_svg_of_format (hformat : g.format = .vectorDrawable) :
    (convert .svg g).value = {
      format := .svg
      label := { g.label with foreign := svgRoot g.label.foreign }
      children := (svgElements 0 g.children).value.1 } := by
  rw [convert.eq_def, hformat]
  rfl

/-- What the elements of a vector drawable become. -/
theorem exists_becomesSvg_convert (hread : Yields (read s) g)
    (hformat : g.format = .vectorDrawable) :
    ∃ n, BecomesSvg 0 g.children (convert .svg g).value.children n := by
  have hnative := native_read hread
  rw [hformat] at hnative
  rw [convert_svg_of_format hformat]
  exact ⟨_, becomesSvg_svgElements 0 hnative⟩

/-- There is one reference to every clip path, in the order of the clip paths. -/
theorem clipReferences_convert (hread : Yields (read s) g) (hformat : g.format = .vectorDrawable) :
    clipReferences (convert .svg g).value
      = (List.range' 1 (clipPathsIn g.children).length).map fun k => reference (clipId k) := by
  obtain ⟨_, hbecomes⟩ := exists_becomesSvg_convert hread hformat
  have hroot : (convert .svg g).value.label.foreign.get? "clip-path" = none := by
    rw [convert_svg_of_format hformat]
    exact (keys_svgRoot g.label.foreign).get?_eq_none (by decide)
  rw [clipReferences, hroot]
  exact hbecomes.filterMap_clipReference?

/-- A generated identifier names the clip group that it was generated for, exactly if no identifier
that is kept is the same. -/
theorem names_clipId_iff (hread : Yields (read s) g) (hformat : g.format = .vectorDrawable)
    {j : ℕ} (hj : j < (clipPathsIn g.children).length) :
    Names (convert .svg g).value (clipId (1 + j))
        (clipDefinition (clipId (1 + j)) (clipPathsIn g.children)[j])
      ↔ clipId (1 + j) ∉ keptIdsOf g := by
  obtain ⟨_, hbecomes⟩ := exists_becomesSvg_convert hread hformat
  have hroot : (convert .svg g).value.label.id = g.label.id := by
    rw [convert_svg_of_format hformat]
  rw [keptIdsOf, List.mem_append, Option.mem_toList, not_or, ← hbecomes.filterMap_id?, ← hroot]
  constructor
  · intro hnames
    refine ⟨hnames.root, fun hkept => ?_⟩
    obtain ⟨e, he, hid⟩ := List.mem_filterMap.1 hkept
    obtain ⟨he, hgroup⟩ := List.mem_filter.1 he
    have hmem := List.mem_filter.2 ⟨he, hasId_iff.2 hid⟩
    rw [← Graphic.elements, hnames.elements] at hmem
    rw [List.mem_singleton.1 hmem] at hgroup
    cases hgroup
  · rintro ⟨hne, hkept⟩
    refine ⟨hne, ?_⟩
    rw [Graphic.elements, filter_hasId_of_notMem hkept, hbecomes.filter_isClipGroup]
    exact filter_hasId _ 1 hj

/-- **Generated references are unambiguous, exactly if no generated identifier is taken.** Of the
references in a vector drawable that was read and has become SVG, each names one element, the clip
group of the clip path that it was generated for, if and only if no identifier that is kept is one
of those that are generated. -/
theorem references_unambiguous_iff (hread : Yields (read s) g)
    (hformat : g.format = .vectorDrawable) :
    List.Forall₂ (Refers (convert .svg g).value) (clipReferences (convert .svg g).value)
        (clipPathsIn g.children)
      ↔ ∀ k < (clipPathsIn g.children).length, clipId (1 + k) ∉ keptIdsOf g := by
  rw [clipReferences_convert hread hformat, List.forall₂_iff_get]
  constructor
  · rintro ⟨-, hrefers⟩ k hk
    obtain ⟨id, hvalue, hnames⟩ := hrefers k (by simpa using hk) hk
    have hid : clipId (1 + k) = id := reference_injective (by simpa using hvalue)
    subst hid
    exact (names_clipId_iff hread hformat hk).1 hnames
  · intro hfree
    refine ⟨by simp, fun k _ hk => ⟨clipId (1 + k), by simp, ?_⟩⟩
    exact (names_clipId_iff hread hformat hk).2 (hfree k hk)

end Graphic

/-- Two clip paths, and an identifier that is next in the count. -/
theorem later_number_is_unambiguous :
    ∃ g, Yields (read ("<vector><clip-path android:pathData=\"M0 0h5v5z\"/>"
          ++ "<group><clip-path android:pathData=\"M1 1h2v2z\"/>"
          ++ "<path android:name=\"clip3\" android:pathData=\"M0 0h3\"/></group></vector>")) g
      ∧ g.format = .vectorDrawable
      ∧ clipReferences (convert .svg g).value = ["url(#clip1)", "url(#clip2)"]
      ∧ List.Forall₂ (Refers (convert .svg g).value) (clipReferences (convert .svg g).value)
          (clipPathsIn g.children) := by
  obtain ⟨g, hread, hformat, hreferences, hfree⟩ :
      ∃ g, Yields (read ("<vector><clip-path android:pathData=\"M0 0h5v5z\"/>"
          ++ "<group><clip-path android:pathData=\"M1 1h2v2z\"/>"
          ++ "<path android:name=\"clip3\" android:pathData=\"M0 0h3\"/></group></vector>")) g
        ∧ g.format = .vectorDrawable
        ∧ clipReferences (convert .svg g).value = ["url(#clip1)", "url(#clip2)"]
        ∧ ∀ k < (clipPathsIn g.children).length, clipId (1 + k) ∉ keptIdsOf g := by
    decide +kernel
  exact ⟨g, hread, hformat, hreferences, (references_unambiguous_iff hread hformat).2 hfree⟩

/-- A path has the identifier that is generated for the clip path in front of it, so that the
reference names two elements. -/
theorem source_name_is_generated_again :
    ∃ g, Yields (read ("<vector><clip-path android:pathData=\"M0 0h1v1z\"/>"
          ++ "<path android:name=\"clip1\" android:pathData=\"M0 0h1v1z\"/></vector>")) g
      ∧ g.format = .vectorDrawable
      ∧ clipReferences (convert .svg g).value = ["url(#clip1)"]
      ∧ ((convert .svg g).value.elements.filter (hasId "clip1")).length = 2 := by
  decide +kernel

end VectorGraphics.Conversion
