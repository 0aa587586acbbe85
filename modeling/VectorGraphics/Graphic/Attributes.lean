/-!
# Attribute maps

An `Attributes` maps attribute names to values, in increasing order of the names. The order is
part of the type, so that equal maps are written alike.
-/

namespace VectorGraphics

/-- A map from attribute names to values. -/
structure Attributes where
  /-- The entries. -/
  toList : List (String × String)
  /-- Names increase from entry to entry. -/
  increasing : toList.Pairwise fun a b => a.1 < b.1

namespace Attributes

theorem eq_of_toList_eq {a b : Attributes} (h : a.toList = b.toList) : a = b := by
  cases a; cases b; cases h; rfl

instance : DecidableEq Attributes := fun a b =>
  decidable_of_iff (a.toList = b.toList) ⟨eq_of_toList_eq, fun h => h ▸ rfl⟩

/-- The map without entries. -/
def empty : Attributes := ⟨[], .nil⟩

instance : EmptyCollection Attributes := ⟨empty⟩

instance : Inhabited Attributes := ⟨empty⟩

/-- The value of a name. -/
def get? (a : Attributes) (key : String) : Option String := a.toList.lookup key

/-- Whether a name has a value. -/
def contains (a : Attributes) (key : String) : Bool := a.toList.any fun entry => entry.1 = key

/-- Whether no name has a value. -/
def isEmpty (a : Attributes) : Bool := a.toList.isEmpty

/-! ## Insertion -/

/-- An increasing list of entries with the value of a name set. -/
def insertInto (key value : String) : List (String × String) → List (String × String)
  | [] => [(key, value)]
  | (k, v) :: rest =>
    if key < k then (key, value) :: (k, v) :: rest
    else if key = k then (key, value) :: rest
    else (k, v) :: insertInto key value rest

theorem mem_insertInto {key value : String} {entry : String × String}
    {l : List (String × String)} (h : entry ∈ insertInto key value l) :
    entry = (key, value) ∨ entry ∈ l := by
  induction l with
  | nil => simpa [insertInto] using h
  | cons hd tl ih =>
    obtain ⟨k, v⟩ := hd
    rw [insertInto] at h
    split at h
    · simpa using h
    · split at h
      · rcases List.mem_cons.1 h with rfl | h
        · exact .inl rfl
        · exact .inr (List.mem_cons_of_mem _ h)
      · rcases List.mem_cons.1 h with rfl | h
        · exact .inr List.mem_cons_self
        · exact (ih h).imp_right (List.mem_cons_of_mem _)

theorem insertInto_increasing (key value : String) {l : List (String × String)}
    (h : l.Pairwise fun a b => a.1 < b.1) :
    (insertInto key value l).Pairwise fun a b => a.1 < b.1 := by
  induction l with
  | nil => simp [insertInto]
  | cons hd tl ih =>
    obtain ⟨k, v⟩ := hd
    obtain ⟨hhd, htl⟩ := List.pairwise_cons.1 h
    rw [insertInto]
    split
    · next hlt =>
      refine List.pairwise_cons.2 ⟨fun entry hmem => ?_, h⟩
      rcases List.mem_cons.1 hmem with rfl | hmem
      · exact hlt
      · exact String.lt_trans hlt (hhd entry hmem)
    · next hnlt =>
      split
      · next heq =>
        subst heq
        exact List.pairwise_cons.2 ⟨hhd, htl⟩
      · next hne =>
        refine List.pairwise_cons.2 ⟨fun entry hmem => ?_, ih htl⟩
        rcases mem_insertInto hmem with rfl | hmem
        · exact String.not_le.1 fun hle => hne (String.le_antisymm hle (String.not_lt.1 hnlt))
        · exact hhd entry hmem

/-- The map with the value of a name set. -/
def insert (a : Attributes) (key value : String) : Attributes :=
  ⟨insertInto key value a.toList, insertInto_increasing key value a.increasing⟩

/-- The map with the given entries, a later one replacing an earlier one of the same name. -/
def ofList (entries : List (String × String)) : Attributes :=
  entries.foldl (fun a (key, value) => a.insert key value) empty

/-- The map with the value of a name set, if one is given. -/
def insertSome (a : Attributes) (key : String) (value : Option String) : Attributes :=
  match value with
  | some v => a.insert key v
  | none => a

/-! ## Removal and change -/

/-- The entries that satisfy `p`. -/
def filter (a : Attributes) (p : String → String → Bool) : Attributes :=
  ⟨a.toList.filter fun entry => p entry.1 entry.2, a.increasing.filter _⟩

/-- The map without a name. -/
def erase (a : Attributes) (key : String) : Attributes := a.filter fun k _ => k != key

/-- The map without some names. -/
def eraseAll (a : Attributes) (keys : List String) : Attributes :=
  a.filter fun k _ => !keys.contains k

/-- The map with every value changed. -/
def mapValues (a : Attributes) (f : String → String → String) : Attributes :=
  ⟨a.toList.map fun entry => (entry.1, f entry.1 entry.2),
    List.Pairwise.map _ (fun _ _ h => h) a.increasing⟩

/-! ## Look-up -/

theorem get?_insert_self (a : Attributes) (key value : String) :
    (a.insert key value).get? key = some value := by
  simp only [get?, insert]
  induction a.toList with
  | nil => simp [insertInto]
  | cons hd tl ih =>
    obtain ⟨k, v⟩ := hd
    rw [insertInto]
    split
    · simp
    · split
      · simp
      · next hne =>
        rw [List.lookup_cons, beq_false_of_ne hne]
        exact ih

theorem get?_insert_of_ne (a : Attributes) {key key' : String} (value : String)
    (h : key' ≠ key) : (a.insert key value).get? key' = a.get? key' := by
  simp only [get?, insert]
  induction a.toList with
  | nil => simp [insertInto, List.lookup_cons, beq_false_of_ne h]
  | cons hd tl ih =>
    obtain ⟨k, v⟩ := hd
    rw [insertInto]
    split
    · rw [List.lookup_cons, beq_false_of_ne h]
    · split
      · next heq =>
        subst heq
        simp [List.lookup_cons, beq_false_of_ne h]
      · rw [List.lookup_cons, List.lookup_cons, ih]

@[simp] theorem get?_empty (key : String) : (∅ : Attributes).get? key = none := rfl

/-- A name has a value exactly if it is among the entries. -/
theorem contains_eq_isSome_get? (a : Attributes) (key : String) :
    a.contains key = (a.get? key).isSome := by
  simp only [contains, get?]
  induction a.toList with
  | nil => rfl
  | cons hd tl ih =>
    obtain ⟨k, v⟩ := hd
    by_cases h : key = k
    · simp [h]
    · rw [List.lookup_cons, beq_false_of_ne h, List.any_cons, ih]
      simp [Ne.symm h]

/-- Names are unique, so that a name keeps its value only if that satisfies `p`. -/
theorem get?_filter (a : Attributes) (p : String → String → Bool) (key : String) :
    (a.filter p).get? key = (a.get? key).filter (p key) := by
  simp only [get?, filter]
  have h := a.increasing
  revert h
  induction a.toList with
  | nil => intro _; rfl
  | cons hd tl ih =>
    obtain ⟨k, v⟩ := hd
    intro h
    obtain ⟨hhd, htl⟩ := List.pairwise_cons.1 h
    by_cases hk : key = k
    · subst hk
      have hnone : tl.lookup key = none := by
        refine List.lookup_eq_none_iff.2 fun entry hmem => bne_iff_ne.2 fun heq => ?_
        have := hhd entry hmem
        rw [← heq] at this
        exact String.lt_irrefl _ this
      by_cases hp : p key v
      · simp [hp, Option.filter]
      · rw [List.filter_cons_of_neg (by simpa using hp), ih htl, hnone]
        simp [hp, Option.filter]
    · by_cases hp : p k v
      · rw [List.filter_cons_of_pos (by simpa using hp)]
        simp only [List.lookup_cons, beq_false_of_ne hk, ih htl]
      · rw [List.filter_cons_of_neg (by simpa using hp), ih htl, List.lookup_cons,
          beq_false_of_ne hk]

end Attributes

end VectorGraphics
