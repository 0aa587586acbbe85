import Mathlib.Data.List.DropRight
import VectorGraphics.Graphic.Scope

/-!
# Styles as lists of declarations

What is read from a style can be written and read again: `joinDeclarations` spells declarations so
that `declarations` finds them unchanged, if they were found in some style before
(`declarations_joinDeclarations`).
-/

namespace VectorGraphics

/-! ## Cutting and trimming -/

namespace Text

theorem splitOn_eq_splitOnP {α : Type} (p : α → Bool) (l : List α) :
    splitOn p l = l.splitOnP p := by
  induction l with
  | nil => rfl
  | cons a l ih =>
    rw [splitOn, ih, List.splitOnP_cons_eq_if_modifyHead]
    split
    · rfl
    · obtain ⟨piece, pieces, hpieces⟩ := List.exists_cons_of_ne_nil (List.splitOnP_ne_nil p l)
      rw [hpieces]
      rfl

theorem splitOn_char (c : Char) (cs : List Char) : splitOn (· = c) cs = cs.splitOn c := by
  rw [splitOn_eq_splitOnP, List.splitOn_eq_splitOnP]
  rfl

/-- No piece has the character that the text was cut at. -/
theorem not_mem_of_mem_splitOn {c : Char} {cs piece : List Char}
    (h : piece ∈ splitOn (· = c) cs) : c ∉ piece := by
  induction cs generalizing piece with
  | nil =>
    rw [List.mem_singleton.1 h]
    exact List.not_mem_nil
  | cons d cs ih =>
    rw [splitOn] at h
    split at h
    · obtain rfl | h := List.mem_cons.1 h
      · exact List.not_mem_nil
      · exact ih h
    · next hd =>
      have hne : c ≠ d := fun heq => hd (decide_eq_true heq.symm)
      split at h
      · rw [List.mem_singleton.1 h]
        exact fun hmem => hne (List.mem_singleton.1 hmem)
      · next first pieces hpieces =>
        rw [hpieces] at ih
        obtain rfl | h := List.mem_cons.1 h
        · exact fun hmem => (List.mem_cons.1 hmem).elim hne (ih List.mem_cons_self)
        · exact ih (List.mem_cons_of_mem _ h)

theorem cutAt?_eq_some_iff {c : Char} {cs before after : List Char} :
    cutAt? c cs = some (before, after) ↔ c ∉ before ∧ cs = before ++ c :: after := by
  induction cs generalizing before with
  | nil => simp [cutAt?]
  | cons d cs ih =>
    rw [cutAt?]
    split
    · next hd =>
      subst hd
      cases before with
      | nil => simp [eq_comm]
      | cons b before =>
        refine iff_of_false nofun ?_
        rintro ⟨hnot, heq⟩
        exact hnot ((List.cons.inj heq).1 ▸ List.mem_cons_self)
    · next hd =>
      cases before with
      | nil => simp [hd]
      | cons b before =>
        simp only [Option.map_eq_some_iff, Prod.exists, Prod.mk.injEq, List.cons.injEq,
          List.cons_append, List.mem_cons, not_or]
        constructor
        · rintro ⟨front, back, hcut, ⟨rfl, rfl⟩, rfl⟩
          obtain ⟨hnot, rfl⟩ := ih.1 hcut
          exact ⟨⟨Ne.symm hd, hnot⟩, rfl, rfl⟩
        · rintro ⟨⟨-, hnot⟩, rfl, rfl⟩
          exact ⟨before, after, ih.2 ⟨hnot, rfl⟩, ⟨rfl, rfl⟩, rfl⟩

theorem trimList_prefix_dropWhile (cs : List Char) : trimList cs <+: cs.dropWhile isBlank :=
  List.rdropWhile_prefix isBlank _

theorem trimList_subset (cs : List Char) : trimList cs ⊆ cs := fun _ hc =>
  (List.dropWhile_sublist isBlank).subset ((trimList_prefix_dropWhile cs).subset hc)

theorem length_trim_le (s : String) : (trim s).length ≤ s.length := by
  rw [trim, String.length_ofList, ← String.length_toList]
  exact (trimList_prefix_dropWhile _).length_le.trans (List.dropWhile_sublist isBlank).length_le

/-- Nothing is trimmed where both ends are not blank. -/
theorem trimList_of_ends {c d : Char} (hc : isBlank c = false) (hd : isBlank d = false)
    (cs : List Char) : trimList (c :: (cs ++ [d])) = c :: (cs ++ [d]) := by
  simp [trimList, dropRightWhile, hc, hd]

/-- There is nothing to trim twice. -/
theorem trimList_trimList (cs : List Char) : trimList (trimList cs) = trimList cs := by
  have hfront : (trimList cs).dropWhile isBlank = trimList cs := by
    refine List.dropWhile_eq_self_iff.2 fun hpos => ?_
    rw [(trimList_prefix_dropWhile cs).getElem hpos]
    exact List.dropWhile_eq_self_iff.1 (List.dropWhile_idempotent isBlank cs) _
  have hback : dropRightWhile isBlank (trimList cs) = trimList cs :=
    List.rdropWhile_idempotent isBlank (cs.dropWhile isBlank)
  conv_lhs => rw [trimList, hfront, hback]

end Text

/-! ## Declarations -/

/-- A property and a value as they are found in a style. -/
structure IsDeclaration (d : String × String) : Prop where
  property_ne_nil : d.1.toList ≠ []
  colon_not_mem : ':' ∉ d.1.toList
  property_whole : ';' ∉ d.1.toList
  value_whole : ';' ∉ d.2.toList
  property_trimmed : Text.trimList d.1.toList = d.1.toList
  value_trimmed : Text.trimList d.2.toList = d.2.toList

theorem isDeclaration_of_declaration? {cs : List Char} {d : String × String} (hcs : ';' ∉ cs)
    (hd : declaration? cs = some d) : IsDeclaration d := by
  obtain ⟨⟨property, value⟩, hcut, h⟩ := Option.bind_eq_some_iff.1 hd
  obtain ⟨hcolon, rfl⟩ := Text.cutAt?_eq_some_iff.1 hcut
  obtain ⟨hne, hsome⟩ := Option.ite_none_left_eq_some.1 h
  obtain rfl := Option.some.inj hsome
  have hmem {c : Char} (hc : c ∉ property) : c ∉ Text.trimList property :=
    fun hc' => hc (Text.trimList_subset property hc')
  have hproperty : ';' ∉ property := fun hc => hcs (List.mem_append_left _ hc)
  have hvalue : ';' ∉ value := fun hc =>
    hcs (List.mem_append_right _ (List.mem_cons_of_mem _ hc))
  constructor <;> simp only [String.toList_ofList]
  · exact fun hnil => hne (List.isEmpty_iff.2 hnil)
  · exact hmem hcolon
  · exact hmem hproperty
  · exact fun hc => hvalue (Text.trimList_subset value hc)
  · exact Text.trimList_trimList property
  · exact Text.trimList_trimList value

theorem isDeclaration_of_mem {style : String} {d : String × String}
    (h : d ∈ declarations style) : IsDeclaration d := by
  obtain ⟨piece, hpiece, hd⟩ := List.mem_filterMap.1 h
  exact isDeclaration_of_declaration? (Text.not_mem_of_mem_splitOn hpiece) hd

/-- The spelling of a declaration. -/
def spelling (d : String × String) : List Char := d.1.toList ++ ':' :: d.2.toList

theorem IsDeclaration.declaration?_spelling {d : String × String} (h : IsDeclaration d) :
    declaration? (spelling d) = some d := by
  have hcut : Text.cutAt? ':' (spelling d) = some (d.1.toList, d.2.toList) :=
    Text.cutAt?_eq_some_iff.2 ⟨h.colon_not_mem, rfl⟩
  rw [declaration?, hcut]
  simp only [Option.bind_some]
  have hne : ¬d.1.toList.isEmpty := fun hnil => h.property_ne_nil (List.isEmpty_iff.1 hnil)
  rw [h.property_trimmed, h.value_trimmed, if_neg hne, String.ofList_toList, String.ofList_toList]

theorem IsDeclaration.semicolon_not_mem {d : String × String} (h : IsDeclaration d) :
    ';' ∉ spelling d := by
  rw [spelling, List.mem_append, List.mem_cons]
  rintro (hc | hc | hc)
  · exact h.property_whole hc
  · cases hc
  · exact h.value_whole hc

/-- Declarations that were found in a style are found again in the style that is made of them. -/
theorem declarations_joinDeclarations {ds : List (String × String)}
    (h : ∀ d ∈ ds, IsDeclaration d) : declarations (joinDeclarations ds) = ds := by
  have hspelled : (joinDeclarations ds).toList = [';'].intercalate (ds.map spelling) := by
    rw [joinDeclarations, String.toList_intercalate, List.map_map]
    congr 1
    refine List.map_congr_left fun d _ => ?_
    simp [spelling]
  cases ds with
  | nil => rfl
  | cons d rest =>
    rw [declarations, hspelled, Text.splitOn_char, List.splitOn_intercalate, List.filterMap_map]
    · refine (List.filterMap_congr fun d hd => ?_).trans List.filterMap_some
      exact (h d hd).declaration?_spelling
    · intro piece hpiece
      obtain ⟨d, hd, rfl⟩ := List.mem_map.1 hpiece
      exact (h d hd).semicolon_not_mem
    · nofun

end VectorGraphics
