import VectorGraphics.Proofs.Number.Values
import VectorGraphics.Proofs.Number.Whole
import VectorGraphics.Proofs.VectorDrawable.Documents

/-!
# The transforms of groups that are written

A group of a vector drawable is written in one place of the document
(`inside_elementOf_of_mem_elements`). Its transform shows if the element, or the group that is
nested in it where the transform is split, rotates, scales or moves (`ShowsTransform`).

A transform is lost if its decomposition is neutral, or if it has none and the two maps that it is
split into have no decomposition either, or a neutral one (`IsLost`). Every other transform shows
(`groups_show_transforms_iff`). A group that is collapsed into a point loses its transform wherever
the point is (`isLost_of_collapsed`), and a slight skew is lost where nothing is shifted
(`isLost_slightSkew_iff`).
-/

namespace VectorGraphics

open Float.Model (UnpackedFloat)

/-- A decomposition that neither rotates nor scales nor moves, as far as its numbers tell: NaN is no
different from a neutral number. -/
structure Decomposition.IsNeutral (d : Decomposition) : Prop where
  rotation : ¬d.rotation.abs > 1e-5
  scaleX : ¬(d.scaleX - 1).abs > 1e-5
  scaleY : ¬(d.scaleY - 1).abs > 1e-5
  shiftX : (d.shift.x == 0) = true
  shiftY : (d.shift.y == 0) = true

instance (d : Decomposition) : Decidable d.IsNeutral :=
  decidable_of_iff (¬d.rotation.abs > 1e-5 ∧ ¬(d.scaleX - 1).abs > 1e-5
      ∧ ¬(d.scaleY - 1).abs > 1e-5 ∧ (d.shift.x == 0) = true ∧ (d.shift.y == 0) = true)
    ⟨fun ⟨hrotation, hscaleX, hscaleY, hx, hy⟩ => ⟨hrotation, hscaleX, hscaleY, hx, hy⟩,
      fun ⟨hrotation, hscaleX, hscaleY, hx, hy⟩ => ⟨hrotation, hscaleX, hscaleY, hx, hy⟩⟩

namespace Markup

/-- A node is another one, or it lies inside it at any depth. -/
inductive Node.Inside (n : Node) : Node → Prop
  /-- The node itself. -/
  | self : Inside n n
  /-- What lies inside a child. -/
  | child {name : String} {attributes : List (String × String)} {children : List Node} {m : Node}
      (hm : m ∈ children) (h : Inside n m) : Inside n (.element name attributes children)

theorem Element.toNode_injective : Function.Injective Element.toNode := by
  rintro ⟨name, attributes, children⟩ ⟨name', attributes', children'⟩ h
  cases h
  rfl

end Markup

namespace VectorDrawable

open Markup (Node)

/-- The attributes that rotate, scale and move a group. -/
def motionKeys : List String :=
  ["android:rotation", "android:scaleX", "android:scaleY", "android:translateX",
    "android:translateY"]

/-- The element carries one of the attributes that rotate, scale and move. -/
def HasMotion (e : Markup.Element) : Prop := ∃ key ∈ motionKeys, (e.get? key).isSome = true

/-- The element written for a group shows its transform `m`, by its own attributes or, where the
transform is split, by those of the one group nested in it. -/
def ShowsTransform (m : Matrix) (e : Markup.Element) : Prop :=
  HasMotion e ∨ m.decompose = none ∧ ∃ nested : Markup.Element,
    nested.name = "group" ∧ e.children = [nested.toNode] ∧ HasMotion nested

/-- Nothing is written of the map: it has no decomposition, or a neutral one. -/
def IsSilent (m : Matrix) : Prop := ∀ d ∈ m.decompose, d.IsNeutral

/-- Nothing is written of the map, and nothing of what it is split into if it has no
decomposition. -/
def IsLost (m : Matrix) : Prop :=
  IsSilent m ∧ (m.decompose = none → IsSilent m.splitSkew.1 ∧ IsSilent m.splitSkew.2)

instance (m : Matrix) : Decidable (IsSilent m) :=
  inferInstanceAs (Decidable (∀ d ∈ m.decompose, d.IsNeutral))

instance (m : Matrix) : Decidable (IsLost m) :=
  inferInstanceAs (Decidable (_ ∧ (_ → _)))

/-! ## The place of a group -/

theorem inside_nodeOf_container (places : UInt8) {n : Node} {role : Role} {label : Label}
    {children : List Element} (h : ∃ m ∈ nodesOf places children, n.Inside m) :
    n.Inside (nodeOf places (.container role label children)) := by
  obtain ⟨m, hm, h⟩ := h
  cases role with
  | group transform =>
    rw [nodeOf]
    obtain ⟨outer, -, heq | ⟨inner, -, heq⟩⟩ :=
      toNode_groupElement places transform label (nodesOf places children)
    · rw [heq]
      exact .child hm h
    · rw [heq]
      exact .child (List.mem_singleton_self _) (.child hm h)
  | clipGroup => exact .child hm h
  | extra name => exact .child hm h

mutual

/-- What is written for an element holds what is written for the elements inside it. -/
theorem inside_nodeOf (places : UInt8) : ∀ {e d : Element}, d ∈ e.descendants →
    (nodeOf places d).Inside (nodeOf places e)
  | .container role label children, d, h => by
    obtain rfl | h := List.mem_cons.1 h
    · exact .self
    · exact inside_nodeOf_container places (exists_inside_nodesOf places h)
  | .shape .., d, h => by
    rw [List.mem_singleton.1 h]
    exact .self
  | .text _, d, h => by
    rw [List.mem_singleton.1 h]
    exact .self

theorem exists_inside_nodesOf (places : UInt8) : ∀ {es : List Element} {d : Element},
    d ∈ Element.descendants.descendantsOfAll es →
      ∃ m ∈ nodesOf places es, (nodeOf places d).Inside m
  | [], _, h => absurd h List.not_mem_nil
  | e :: es, d, h => by
    rw [nodesOf]
    obtain h | h := List.mem_append.1 h
    · exact ⟨_, List.mem_cons_self, inside_nodeOf places h⟩
    · obtain ⟨m, hm, h⟩ := exists_inside_nodesOf places h
      exact ⟨m, List.mem_cons_of_mem _ hm, h⟩

end

/-- Every element of a graphic is written in its document. -/
theorem inside_elementOf_of_mem_elements {g : Graphic} {e : Element} (h : e ∈ g.elements)
    (places : UInt8) : (nodeOf places e).Inside (elementOf g places).toNode := by
  obtain ⟨m, hm, h⟩ := exists_inside_nodesOf places h
  exact .child hm h

/-! ## The attributes of a group -/

theorem isSome_lookup_iff {key : String} {l : List (String × String)} :
    (l.lookup key).isSome = true ↔ key ∈ l.map Prod.fst := by
  induction l with
  | nil => exact iff_of_false Bool.false_ne_true List.not_mem_nil
  | cons entry l ih =>
    obtain ⟨k, v⟩ := entry
    rw [List.lookup_cons, List.map_cons, List.mem_cons]
    by_cases hkey : key = k
    · rw [hkey, beq_self_eq_true]
      exact iff_of_true rfl (.inl rfl)
    · rw [beq_false_of_ne hkey, or_iff_right hkey]
      exact ih

theorem entryIf_eq_nil_iff {condition : Bool} {key value : String} :
    entryIf condition key value = [] ↔ condition = false := by
  cases condition
  · exact iff_of_true rfl rfl
  · exact iff_of_false (List.cons_ne_nil _ _) Bool.true_eq_false_eq_False

theorem keys_transformEntries (places : UInt8) (m : Matrix) :
    Entries (· ∈ motionKeys) (transformEntries places m) := by
  have hif {condition : Bool} {key : String} (hkey : key ∈ motionKeys) (value : String) :
      Entries (· ∈ motionKeys) (entryIf condition key value) := by
    cases condition
    · exact entries_nil
    · exact .cons hkey value entries_nil
  rw [transformEntries]
  split
  · exact entries_nil
  · exact ((((hif (by decide) _).append (hif (by decide) _)).append (hif (by decide) _)).append
      (hif (by decide) _)).append (hif (by decide) _)

theorem isSilent_of_decompose_eq_none {m : Matrix} (h : m.decompose = none) : IsSilent m := by
  rw [IsSilent, h]
  exact nofun

/-- No attribute is written for a silent map, and for no other. -/
theorem transformEntries_eq_nil_iff {places : UInt8} {m : Matrix} :
    transformEntries places m = [] ↔ IsSilent m := by
  rw [transformEntries]
  split
  · next hnone => exact iff_of_true rfl (isSilent_of_decompose_eq_none hnone)
  · next d hd =>
    simp only [IsSilent, hd, Option.mem_def, Option.some.injEq, forall_eq', List.append_eq_nil_iff,
      entryIf_eq_nil_iff, decide_eq_false_iff_not, bne, Bool.not_eq_false']
    constructor
    · rintro ⟨⟨⟨⟨hrotation, hscaleX⟩, hscaleY⟩, hx⟩, hy⟩
      exact ⟨hrotation, hscaleX, hscaleY, hx, hy⟩
    · rintro ⟨hrotation, hscaleX, hscaleY, hx, hy⟩
      exact ⟨⟨⟨⟨hrotation, hscaleX⟩, hscaleY⟩, hx⟩, hy⟩

/-- One of the keys moves. -/
def HasMotionKey (entries : List (String × String)) : Prop :=
  ∃ key ∈ motionKeys, key ∈ entries.map Prod.fst

theorem hasMotionKey_append {entries more : List (String × String)} :
    HasMotionKey (entries ++ more) ↔ HasMotionKey entries ∨ HasMotionKey more := by
  simp only [HasMotionKey, List.map_append, List.mem_append, and_or_left, exists_or]

/-- The keys of a map all move. -/
theorem hasMotionKey_iff_ne_nil {entries : List (String × String)}
    (h : Entries (· ∈ motionKeys) entries) : HasMotionKey entries ↔ entries ≠ [] := by
  constructor
  · rintro ⟨key, -, hkey⟩ rfl
    cases hkey
  · intro hne
    obtain ⟨entry, entries, rfl⟩ := List.exists_cons_of_ne_nil hne
    exact ⟨entry.1, h _ List.mem_cons_self, List.mem_cons_self⟩

theorem not_hasMotionKey_idEntry (label : Label) : ¬HasMotionKey (label.idEntry nameKey) := by
  rintro ⟨key, hkey, hmem⟩
  obtain ⟨entry, hentry, rfl⟩ := List.mem_map.1 hmem
  rw [entries_idEntry (p := (· = nameKey)) rfl label entry hentry] at hkey
  exact absurd hkey (by decide)

/-- A new element moves by the attributes that are set on it. -/
theorem hasMotion_setAll {name : String} {children : List Node}
    {entries : List (String × String)} :
    HasMotion (({ name, children } : Markup.Element).setAll entries) ↔ HasMotionKey entries := by
  have hget (key : String) : (({ name, children } : Markup.Element).setAll entries).get? key
      = entries.reverse.lookup key := (Markup.Element.get?_setAll _ _ _).trans Option.or_none
  simp only [HasMotion, HasMotionKey, hget, isSome_lookup_iff, List.map_reverse, List.mem_reverse]

/-- A group moves if a map is written of it or if its label says so; the identifier does not
matter. -/
theorem hasMotion_labelled {label : Label} {entries : List (String × String)}
    (h : Entries (· ∈ motionKeys) entries) (children : List Node) :
    HasMotion { labelled "group" label entries with children }
      ↔ HasMotionKey label.foreign.toList ∨ entries ≠ [] := by
  have hsame : HasMotion { labelled "group" label entries with children }
      ↔ HasMotion (labelled "group" label entries) := Iff.rfl
  rw [hsame, labelled, hasMotion_setAll, hasMotionKey_append, hasMotionKey_append,
    or_iff_right (not_hasMotionKey_idEntry label), hasMotionKey_iff_ne_nil h, or_comm]

/-- The element written for a group shows the transform unless the transform is lost, or if the
group has one of the attributes besides. -/
theorem showsTransform_groupElement (places : UInt8) {m : Matrix} (hm : m.isIdentity = false)
    (label : Label) (children : List Node) :
    ShowsTransform m (groupElement places m label children)
      ↔ ¬IsLost m ∨ HasMotionKey label.foreign.toList := by
  rw [groupElement, hm, or_comm]
  dsimp only
  rw [if_neg Bool.false_ne_true, ShowsTransform, IsLost]
  cases hd : m.decompose with
  | some d =>
    dsimp only
    rw [hasMotion_labelled (keys_transformEntries places m)]
    simp [transformEntries_eq_nil_iff]
  | none =>
    dsimp only
    rw [hasMotion_labelled (keys_transformEntries places _)]
    have hnested : (∃ nested : Markup.Element, nested.name = "group"
        ∧ [(({ name := "group", children } : Markup.Element).setAll
            (transformEntries places m.splitSkew.2)).toNode] = [nested.toNode]
        ∧ HasMotion nested) ↔ transformEntries places m.splitSkew.2 ≠ [] := by
      rw [← hasMotionKey_iff_ne_nil (keys_transformEntries places m.splitSkew.2),
        ← hasMotion_setAll]
      constructor
      · rintro ⟨nested, -, heq, h⟩
        rwa [Markup.Element.toNode_injective (List.singleton_inj.1 heq)]
      · exact fun h => ⟨_, Markup.Element.name_setAll _ _, rfl, h⟩
    rw [hnested, and_iff_right rfl, and_iff_right (isSilent_of_decompose_eq_none hd), or_assoc]
    simp only [ne_eq, transformEntries_eq_nil_iff, forall_const, not_and_or]

/-- A group of a graphic is written in one element of the document. If the transform is not the
identity, the element shows it, unless the transform is lost and no attribute of the group itself
turns, scales or moves. -/
theorem groups_show_transforms_iff {g : Graphic} (places : UInt8) {m : Matrix} {label : Label}
    {children : List Element} (hgroup : .group m label children ∈ g.elements)
    (hm : m.isIdentity = false) :
    ∃ e : Markup.Element, e.toNode = nodeOf places (.group m label children)
      ∧ e.toNode.Inside (elementOf g places).toNode
      ∧ (ShowsTransform m e ↔ ¬IsLost m ∨ HasMotionKey label.foreign.toList) :=
  ⟨_, rfl, inside_elementOf_of_mem_elements hgroup places,
    showsTransform_groupElement places hm label _⟩

/-- A graphic with one group, which is empty. -/
def oneGroup (m : Matrix) : Graphic := ⟨.vectorDrawable, {}, [.group m {} []]⟩

/-- A skewed group is written as two, which show the skew. -/
theorem skewed_group_shows_transform :
    .group (.affine 1 0 1 1 0 0) {} [] ∈ (oneGroup (.affine 1 0 1 1 0 0)).elements
      ∧ (Matrix.affine 1 0 1 1 0 0).isIdentity = false
      ∧ ∃ e : Markup.Element, e.toNode = nodeOf 2 (.group (.affine 1 0 1 1 0 0) {} [])
        ∧ e.toNode.Inside (elementOf (oneGroup (.affine 1 0 1 1 0 0)) 2).toNode
        ∧ ShowsTransform (.affine 1 0 1 1 0 0) e := by
  have hgroup : Element.group (.affine 1 0 1 1 0 0) {} []
      ∈ (oneGroup (.affine 1 0 1 1 0 0)).elements := List.mem_singleton_self _
  have hm : (Matrix.affine 1 0 1 1 0 0).isIdentity = false := by decide +kernel
  obtain ⟨e, he, hinside, hshows⟩ := groups_show_transforms_iff 2 hgroup hm
  exact ⟨hgroup, hm, e, he, hinside, hshows.2 (.inl (by decide +kernel))⟩

/-- A group that is scaled to nothing is written without its transform. -/
theorem collapsed_group_shows_nothing :
    .group (.affine 0 0 0 0 5 0) {} [] ∈ (oneGroup (.affine 0 0 0 0 5 0)).elements
      ∧ (Matrix.affine 0 0 0 0 5 0).isIdentity = false
      ∧ ∀ e : Markup.Element, e.toNode = nodeOf 2 (.group (.affine 0 0 0 0 5 0) {} []) →
        ¬ShowsTransform (.affine 0 0 0 0 5 0) e := by
  have hm : (Matrix.affine 0 0 0 0 5 0).isIdentity = false := by decide +kernel
  refine ⟨List.mem_singleton_self _, hm, fun e he hshows => ?_⟩
  rw [Markup.Element.toNode_injective he, showsTransform_groupElement 2 hm] at hshows
  obtain hlost | ⟨key, -, hkey⟩ := hshows
  · exact hlost (by decide +kernel)
  · cases hkey

end VectorDrawable

/-! ## Zeros -/

namespace Single

/-- The number is zero, of either sign. -/
def IsZero (x : Single) : Prop := x = 0 ∨ x = -0

theorem IsZero.zero : IsZero 0 := .inl rfl

theorem isZero_pack (s : UnpackedFloat.Sign) : (pack (.zero s)).IsZero := by
  cases s
  · exact .inr rfl
  · exact .inl rfl

/-- A finite number times zero is zero, in either order. -/
theorem isZero_mul_zero {x : Single} (hx : x.isFinite = true) :
    (x * 0).IsZero ∧ (0 * x).IsZero := by
  change (pack (.mul .binary32 x.toModel.unpack (.zero .positive))).IsZero
    ∧ (pack (.mul .binary32 (.zero .positive) x.toModel.unpack)).IsZero
  have hfinite : x.toModel.unpack.isFinite = true := hx
  cases hu : x.toModel.unpack with
  | zero | finite => exact ⟨isZero_pack _, isZero_pack _⟩
  | infinity | notANumber =>
    rw [hu] at hfinite
    cases hfinite

namespace IsZero

variable {x y : Single}

theorem is (h : x.IsZero) : x.Is 0 := by
  obtain rfl | rfl := h
  · exact is_zero
  · exact neg_zero (G := ℚ) ▸ is_zero.neg

theorem add (hx : x.IsZero) (hy : y.IsZero) : (x + y).IsZero := by
  obtain rfl | rfl := hx <;> obtain rfl | rfl := hy <;> unfold IsZero <;> decide +kernel

theorem isFinite_add (hx : x.IsZero) (hy : y.isFinite = true) : (y + x).isFinite = true :=
  ((is_value hy).add hx.is (by rw [add_zero]; exact (is_value hy).available)).isFinite

/-- A vector of zeros has no length. -/
theorem hypot_le (hx : x.IsZero) (hy : y.IsZero) : hypot x y ≤ Matrix.epsilon := by
  obtain rfl | rfl := hx <;> obtain rfl | rfl := hy <;> decide +kernel

end IsZero

end Single

namespace VectorDrawable

/-! ## Maps that are lost -/

theorem decompose_eq_none {m : Matrix} (ha : m.a.IsZero) (hb : m.b.IsZero) : m.decompose = none :=
  if_pos (ha.hypot_le hb)

/-- A map that takes the plane to a point, split. -/
theorem splitSkew_collapsed (e f : Single) : (Matrix.affine 0 0 0 0 e f).splitSkew
    = (.shift e f * .affine 1 0 (-0) 1 0 0 * .scaling 0 0, .affine 1 0 (-0) 1 0 0) := by
  have hradius : Single.hypot 0 0 = 0 := by decide +kernel
  have hangle : Single.arctan2 0 0 = 0 := by decide +kernel
  have hadd : (0 : Single) + 0 = 0 := by decide +kernel
  have hsub : (0 : Single) - 0 = 0 := by decide +kernel
  have hhalf : (0 : Single) / 2 = 0 := by decide +kernel
  have hrotation : Matrix.rotation (Single.toDegrees 0) = .affine 1 0 (-0) 1 0 0 := by
    have hcos : (Single.toDegrees 0).toRadians.cos = 1 := by decide +kernel
    have hsin : (Single.toDegrees 0).toRadians.sin = 0 := by decide +kernel
    rw [Matrix.rotation, hcos, hsin]
  simp only [Matrix.splitSkew, Matrix.affine, hradius, hangle, hadd, hsub, hhalf]
  simp only [hrotation, Matrix.affine]

/-- A group that is collapsed into a point is written without its transform, wherever the point
is: the outer map of the split has no decomposition either, and the inner one turns nothing. -/
theorem isLost_of_collapsed {e f : Single} (he : e.isFinite = true) (hf : f.isFinite = true) :
    IsLost (.affine 0 0 0 0 e f) := by
  -- an entry of the outer map whose column is multiplied by zero
  have hentry {x u v : Single} (hx : x.isFinite = true) (hu : u.isFinite = true)
      (hv : v.isFinite = true) :
      ((u + x * 0) * 0 + (v + x * 0) * 0 + (0 + x * 1) * 0).IsZero := by
    have htimes {y : Single} (hy : y.isFinite = true) : (y * 0).IsZero :=
      (Single.isZero_mul_zero hy).1
    have hx' := Single.is_value hx
    have hone := hx'.mul Single.is_one ((mul_one x.value).symm ▸ hx'.available)
    have hsum := Single.IsZero.zero.isFinite_add hone.isFinite
    rw [Single.add_comm] at hsum
    exact ((htimes ((htimes hx).isFinite_add hu)).add (htimes ((htimes hx).isFinite_add hv))).add
      (htimes hsum)
  have houter : (Matrix.affine 0 0 0 0 e f).splitSkew.1.decompose = none := by
    rw [splitSkew_collapsed]
    refine decompose_eq_none ?_ ?_
    · have hzero : (1 * 0 + 0 * 0 : Single) = 0 := by decide +kernel
      change ((1 * 1 + 0 * 0 + e * 0) * 0 + (1 * -0 + 0 * 1 + e * 0) * 0
        + (1 * 0 + 0 * 0 + e * 1) * 0).IsZero
      rw [hzero]
      exact hentry he (by decide +kernel) (by decide +kernel)
    · have hzero : (0 * 0 + 1 * 0 : Single) = 0 := by decide +kernel
      change ((0 * 1 + 1 * 0 + f * 0) * 0 + (0 * -0 + 1 * 1 + f * 0) * 0
        + (0 * 0 + 1 * 0 + f * 1) * 0).IsZero
      rw [hzero]
      exact hentry hf (by decide +kernel) (by decide +kernel)
  refine ⟨isSilent_of_decompose_eq_none (decompose_eq_none .zero .zero), fun _ =>
    ⟨isSilent_of_decompose_eq_none houter, ?_⟩⟩
  have hinner : IsSilent (.affine 1 0 (-0) 1 0 0) := by decide +kernel
  rwa [splitSkew_collapsed]

/-- The slack of a decomposition whose second scale is 1. -/
def slack : Single := Matrix.epsilon * (Single.max (1 : Single).abs 1) * 10

/-- A shift with a slight skew counts as a shift. -/
theorem decompose_slightSkew {c : Single} (hc : c.abs ≤ 1e-4) (e f : Single) :
    (Matrix.affine 1 0 c 1 e f).decompose = some ⟨⟨e, f⟩, 0, 1, 1⟩ := by
  have hlimit : (1e-4 : Single).isFinite = true := by decide +kernel
  have hc' := Single.is_value (Single.isFinite_of_abs_le hc hlimit)
  have hscaleX : Single.hypot 1 0 = 1 := by decide +kernel
  have hangle : Single.arctan2 0 1 = 0 := by decide +kernel
  have hscaleY : (1 * 1 - 0 * c) / 1 = 1 := by
    obtain h | h := (Single.isZero_mul_zero hc'.isFinite).2 <;> rw [h] <;> decide +kernel
  have hdegrees : Single.toDegrees 0 = 0 := by decide +kernel
  have hsin : Single.sin 0 * 1 = 0 := by decide +kernel
  have hskew : ¬(c + 0).abs > slack := by
    have hsum := hc'.add Single.is_zero (by rw [add_zero]; exact hc'.available)
    have hslack : slack.Is slack.value := Single.is_value (by decide +kernel)
    have hle : (1e-4 : Single).value ≤ slack.value :=
      ((Single.is_value hlimit).le_iff hslack).1 (by decide +kernel)
    have hc := (hc'.abs.le_iff (Single.is_value hlimit)).1 hc
    rw [gt_iff_lt, hslack.lt_iff hsum.abs, add_zero, not_lt]
    exact hc.trans hle
  have hcos : ¬((1 : Single) - Single.cos 0 * 1).abs > slack := by decide +kernel
  have hdecompose : (Matrix.affine 1 0 c 1 e f).decompose
      = if Single.hypot 1 0 ≤ Matrix.epsilon then none
        else
          let angle := Single.arctan2 0 1
          let scaleY := (1 * 1 - 0 * c) / Single.hypot 1 0
          let tolerance := Matrix.epsilon * (Single.max scaleY.abs 1) * 10
          if (c + angle.sin * scaleY).abs > tolerance ∨ (1 - angle.cos * scaleY).abs > tolerance
          then none else some ⟨⟨e, f⟩, angle.toDegrees, Single.hypot 1 0, scaleY⟩ := rfl
  rw [hdecompose, hscaleX, hangle, hscaleY, if_neg (by decide +kernel)]
  dsimp only
  rw [hsin, hdegrees, ← slack, if_neg (not_or.2 ⟨hskew, hcos⟩)]

/-- A shift with a slight skew is lost if it shifts nothing, and shows otherwise. -/
theorem isLost_slightSkew_iff {c : Single} (hc : c.abs ≤ 1e-4) (e f : Single) :
    IsLost (.affine 1 0 c 1 e f) ↔ (e == 0) = true ∧ (f == 0) = true := by
  have hd := decompose_slightSkew hc e f
  have hrotation : ¬(0 : Single).abs > 1e-5 := by decide +kernel
  have hscale : ¬((1 : Single) - 1).abs > 1e-5 := by decide +kernel
  rw [IsLost, IsSilent, hd]
  constructor
  · intro h
    have := h.1 _ rfl
    exact ⟨this.shiftX, this.shiftY⟩
  · rintro ⟨he, hf⟩
    refine ⟨fun d h => ?_, nofun⟩
    cases h
    exact ⟨hrotation, hscale, hscale, he, hf⟩

end VectorDrawable

end VectorGraphics
