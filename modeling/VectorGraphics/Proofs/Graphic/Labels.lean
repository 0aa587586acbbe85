import Mathlib.Data.List.Induction
import Mathlib.Data.List.Nodup
import Mathlib.Data.List.Sort
import VectorGraphics.Graphic.Reading

/-!
# Labels as attributes of an element

A label is written as attributes of an element, and read from them. What is set last is what is
found (`Element.get?_setAll`, `Attributes.get?_ofList`), and an attribute other than the identifier
is read with the label that it was written for (`get?_foreign_ofAttributes`). The label is read back
whatever stands around its identifier (`Label.ofAttributes_append`).
-/

namespace VectorGraphics

/-! ## Look-up from the end -/

section Lookup

variable {key : String}

theorem lookup_eq_none_of_notMem {l : List (String × String)} (h : key ∉ l.map Prod.fst) :
    l.lookup key = none :=
  List.lookup_eq_none_iff.2 fun entry hmem => bne_iff_ne.2 fun heq =>
    h (List.mem_map.2 ⟨entry, hmem, heq.symm⟩)

/-- In a list without repeated keys the last entry of a key is the first. -/
theorem lookup_reverse {l : List (String × String)} (h : (l.map Prod.fst).Nodup) :
    l.reverse.lookup key = l.lookup key := by
  induction l with
  | nil => rfl
  | cons entry l ih =>
    obtain ⟨k, v⟩ := entry
    obtain ⟨hk, h⟩ := List.nodup_cons.1 h
    rw [List.reverse_cons, List.lookup_append, ih h, List.lookup_singleton, List.lookup_cons]
    by_cases hkey : key = k
    · subst hkey
      rw [lookup_eq_none_of_notMem hk, beq_self_eq_true]
      rfl
    · rw [beq_false_of_ne hkey]
      exact Option.or_none

theorem lookup_eq_some_iff_of_nodup {value : String} {l : List (String × String)}
    (h : (l.map Prod.fst).Nodup) : l.lookup key = some value ↔ (key, value) ∈ l := by
  induction l with
  | nil => exact iff_of_false nofun List.not_mem_nil
  | cons entry l ih =>
    obtain ⟨k, v⟩ := entry
    obtain ⟨hk, h⟩ := List.nodup_cons.1 h
    rw [List.lookup_cons, List.mem_cons, Prod.mk.injEq]
    by_cases hkey : key = k
    · subst hkey
      have hnew : (key, value) ∉ l := fun hmem => hk (List.mem_map.2 ⟨_, hmem, rfl⟩)
      rw [beq_self_eq_true, or_iff_left hnew]
      simp [eq_comm]
    · rw [beq_false_of_ne hkey]
      simpa [hkey] using ih h

/-- Filtering by the keys leaves a key with its value or without one. -/
theorem lookup_filter (p : String → Bool) (l : List (String × String)) :
    (l.filter fun entry => p entry.1).lookup key = if p key then l.lookup key else none := by
  induction l with
  | nil => simp
  | cons entry l ih =>
    obtain ⟨k, v⟩ := entry
    rw [List.filter_cons, List.lookup_cons]
    by_cases hkey : key = k
    · subst hkey
      by_cases hp : p key
      · simp [hp]
      · simpa [hp] using ih
    · rw [beq_false_of_ne hkey, ← ih]
      split
      · rw [List.lookup_cons, beq_false_of_ne hkey]
      · rfl

end Lookup

/-! ## Entries -/

section Entries

variable {p : String → Prop} {entries more : List (String × String)}

/-- All names of some attributes satisfy `p`. -/
def Entries (p : String → Prop) (entries : List (String × String)) : Prop :=
  ∀ entry ∈ entries, p entry.1

theorem entries_nil : Entries p [] := nofun

theorem Entries.cons {key : String} (hkey : p key) (value : String) (h : Entries p entries) :
    Entries p ((key, value) :: entries) :=
  List.forall_mem_cons.2 ⟨hkey, h⟩

theorem Entries.append (h : Entries p entries) (h' : Entries p more) :
    Entries p (entries ++ more) :=
  fun entry hmem => (List.mem_append.1 hmem).elim (h entry) (h' entry)

theorem Entries.filter (h : Entries p entries) (f : String × String → Bool) :
    Entries p (entries.filter f) :=
  fun entry hmem => h entry (List.mem_of_mem_filter hmem)

theorem entries_ite {condition : Prop} [Decidable condition] (h : Entries p entries) :
    Entries p (if condition then entries else []) := by
  split
  · exact h
  · exact entries_nil

theorem entries_idEntry {key : String} (h : p key) (label : Label) :
    Entries p (label.idEntry key) := by
  rw [Label.idEntry]
  cases label.id with
  | none => exact entries_nil
  | some id => exact .cons h id entries_nil

end Entries

/-! ## Attribute maps -/

namespace Attributes

theorem nodup_keys (a : Attributes) : (a.toList.map Prod.fst).Nodup := by
  refine List.Pairwise.map Prod.fst (fun _ _ hlt heq => ?_) a.increasing
  rw [heq] at hlt
  exact String.lt_irrefl _ hlt

/-- The last entry of a name is the one that counts. -/
theorem get?_ofList (entries : List (String × String)) (key : String) :
    (ofList entries).get? key = entries.reverse.lookup key := by
  have go (a : Attributes) :
      (entries.foldl (fun a entry => a.insert entry.1 entry.2) a).get? key
        = (entries.reverse.lookup key).or (a.get? key) := by
    induction entries generalizing a with
    | nil => rfl
    | cons entry entries ih =>
      obtain ⟨k, v⟩ := entry
      rw [List.foldl_cons, ih, List.reverse_cons, List.lookup_append, Option.or_assoc,
        List.lookup_singleton]
      by_cases hkey : key = k
      · rw [hkey, get?_insert_self, beq_self_eq_true]
        rfl
      · rw [get?_insert_of_ne a v hkey, beq_false_of_ne hkey]
        rfl
  exact (go empty).trans Option.or_none

/-- A map is known by the values of its names. -/
theorem ext_get? {a b : Attributes} (h : ∀ key, a.get? key = b.get? key) : a = b := by
  refine eq_of_toList_eq (List.Perm.eq_of_pairwise (fun _ _ _ _ hlt hgt => ?_)
    a.increasing b.increasing ?_)
  · exact absurd (String.lt_trans hlt hgt) (String.lt_irrefl _)
  · refine (List.perm_ext_iff_of_nodup (.of_map _ a.nodup_keys) (.of_map _ b.nodup_keys)).2 ?_
    rintro ⟨key, value⟩
    rw [← lookup_eq_some_iff_of_nodup a.nodup_keys, ← lookup_eq_some_iff_of_nodup b.nodup_keys]
    exact iff_of_eq (congrArg (· = some value) (h key))

/-- A map has the entries that it was made from. -/
theorem ofList_of_perm {entries : List (String × String)} {a : Attributes}
    (h : entries.Perm a.toList) : ofList entries = a := by
  have hnodup : (entries.map Prod.fst).Nodup := (h.map _).nodup_iff.2 a.nodup_keys
  refine ext_get? fun key => Option.ext fun value => ?_
  rw [get?_ofList, lookup_reverse hnodup, get?, lookup_eq_some_iff_of_nodup hnodup,
    lookup_eq_some_iff_of_nodup a.nodup_keys, h.mem_iff]

theorem filter_ofList (p : String → Bool) (entries : List (String × String)) :
    (ofList entries).filter (fun key _ => p key)
      = ofList (entries.filter fun entry => p entry.1) := by
  refine ext_get? fun key => ?_
  rw [get?_filter, get?_ofList, get?_ofList, ← List.filter_reverse, lookup_filter]
  cases entries.reverse.lookup key with
  | none => exact (ite_self none).symm
  | some value => rfl

/-- All names of a map satisfy `p`. -/
def Keys (p : String → Prop) (a : Attributes) : Prop := Entries p a.toList

variable {p q : String → Prop} {a : Attributes}

theorem keys_empty : Keys p ∅ := nofun

theorem Keys.mono (h : Keys p a) (hpq : ∀ key, p key → q key) : Keys q a :=
  fun entry hmem => hpq _ (h entry hmem)

theorem Keys.insert (h : Keys p a) {key : String} (hkey : p key) (value : String) :
    Keys p (a.insert key value) := by
  intro entry hmem
  obtain rfl | hmem := mem_insertInto hmem
  · exact hkey
  · exact h entry hmem

theorem Keys.insertSome (h : Keys p a) {key : String} (hkey : p key) (value : Option String) :
    Keys p (a.insertSome key value) := by
  cases value with
  | none => exact h
  | some value => exact h.insert hkey value

theorem Keys.filter (h : Keys p a) (f : String → String → Bool) : Keys p (a.filter f) :=
  Entries.filter h _

theorem keys_erase_ne (a : Attributes) (key : String) : Keys (· ≠ key) (a.erase key) :=
  fun _ hmem => bne_iff_ne.1 (List.mem_filter.1 hmem).2

theorem keys_eraseAll (a : Attributes) (keys : List String) :
    Keys (· ∉ keys) (a.eraseAll keys) := by
  intro entry hmem hkey
  have hkept : (!keys.contains entry.1) = true := (List.mem_filter.1 hmem).2
  rw [List.contains_iff_mem.2 hkey] at hkept
  cases hkept

theorem Keys.mapValues (h : Keys p a) (f : String → String → String) :
    Keys p (a.mapValues f) := by
  intro entry hmem
  obtain ⟨other, hother, rfl⟩ := List.mem_map.1 hmem
  exact h other hother

theorem keys_ofList {entries : List (String × String)} (h : Entries p entries) :
    Keys p (ofList entries) := by
  have go (a : Attributes) (ha : Keys p a) :
      Keys p (entries.foldl (fun a entry => a.insert entry.1 entry.2) a) := by
    induction entries generalizing a with
    | nil => exact ha
    | cons entry entries ih =>
      obtain ⟨hentry, h⟩ := List.forall_mem_cons.1 h
      exact ih h _ (ha.insert hentry _)
  exact go empty keys_empty

theorem Keys.get?_eq_none (h : Keys p a) {key : String} (hkey : ¬p key) :
    a.get? key = none := by
  refine List.lookup_eq_none_iff.2 fun entry hmem => bne_iff_ne.2 ?_
  rintro rfl
  exact hkey (h entry hmem)

theorem Keys.contains_eq_false (h : Keys p a) {key : String} (hkey : ¬p key) :
    a.contains key = false := by
  rw [contains_eq_isSome_get?, h.get?_eq_none hkey]
  rfl

end Attributes

/-! ## Attributes of an element -/

namespace Markup.Element

/-- The attribute that was set last is found. -/
theorem get?_setAll (e : Markup.Element) (entries : List (String × String)) (key : String) :
    (e.setAll entries).get? key = (entries.reverse.lookup key).or (e.get? key) := by
  induction entries generalizing e with
  | nil => rfl
  | cons entry entries ih =>
    obtain ⟨k, v⟩ := entry
    rw [setAll, List.foldl_cons, ← setAll, ih, List.reverse_cons, List.lookup_append,
      Option.or_assoc, List.lookup_singleton]
    by_cases hkey : key = k
    · rw [hkey, get?_set_self, beq_self_eq_true]
      rfl
    · rw [get?_set_of_ne e hkey, beq_false_of_ne hkey]
      rfl

theorem keys_setIn (key value : String) (l : List (String × String)) :
    (setIn key value l).map Prod.fst
      = if key ∈ l.map Prod.fst then l.map Prod.fst else l.map Prod.fst ++ [key] := by
  induction l with
  | nil => rfl
  | cons entry l ih =>
    obtain ⟨k, v⟩ := entry
    rw [setIn]
    split
    · next h => simp [h]
    · next h =>
      rw [List.map_cons, ih, List.map_cons]
      simp only [List.mem_cons, Ne.symm h, false_or]
      split <;> rfl

/-- Setting attributes keeps the keys different. -/
theorem nodup_setAll {e : Markup.Element} (h : (e.attributes.map Prod.fst).Nodup)
    (entries : List (String × String)) : ((e.setAll entries).attributes.map Prod.fst).Nodup := by
  induction entries generalizing e with
  | nil => exact h
  | cons entry entries ih =>
    refine ih (e := e.set entry.1 entry.2) ?_
    rw [set, keys_setIn]
    split
    · exact h
    · next hnew =>
      refine List.nodup_append.2 ⟨h, List.nodup_singleton _, fun a ha b hb heq => hnew ?_⟩
      rwa [← List.mem_singleton.1 hb, ← heq]

theorem keys_setAll {p : String → Prop} {e : Markup.Element}
    (h : ∀ key ∈ e.attributes.map Prod.fst, p key) {entries : List (String × String)}
    (hentries : Entries p entries) :
    ∀ key ∈ (e.setAll entries).attributes.map Prod.fst, p key := by
  induction entries generalizing e with
  | nil => exact h
  | cons entry entries ih =>
    obtain ⟨hentry, hentries⟩ := List.forall_mem_cons.1 hentries
    refine ih (e := e.set entry.1 entry.2) ?_ hentries
    rw [set, keys_setIn]
    split
    · exact h
    · exact fun key hkey => (List.mem_append.1 hkey).elim (h key) fun hkey => by
        rw [List.mem_singleton.1 hkey]
        exact hentry

theorem set_setAll (e : Markup.Element) (entries : List (String × String)) (key value : String) :
    (e.setAll entries).set key value = e.setAll (entries ++ [(key, value)]) := by
  rw [setAll, setAll, List.foldl_append]
  rfl

@[simp] theorem name_setAll (e : Markup.Element) (entries : List (String × String)) :
    (e.setAll entries).name = e.name := by
  induction entries generalizing e with
  | nil => rfl
  | cons entry entries ih => exact ih _

@[simp] theorem children_setAll (e : Markup.Element) (entries : List (String × String)) :
    (e.setAll entries).children = e.children := by
  induction entries generalizing e with
  | nil => rfl
  | cons entry entries ih => exact ih _

end Markup.Element

/-! ## Labels -/

/-- An attribute other than the identifier is read with its last value. -/
theorem Label.get?_foreign_ofAttributes {idKey key : String} (h : key ≠ idKey)
    (attributes : List (String × String)) :
    (Label.ofAttributes idKey attributes).foreign.get? key = attributes.reverse.lookup key := by
  rw [Label.ofAttributes, Attributes.get?_ofList, ← List.filter_reverse]
  exact (lookup_filter (fun key => decide (key ≠ idKey)) _).trans (if_pos (decide_eq_true h))

theorem Label.keys_foreign_ofAttributes {p : String → Prop} {idKey : String}
    {attributes : List (String × String)} (h : ∀ key ∈ attributes.map Prod.fst, p key) :
    Attributes.Keys p (Label.ofAttributes idKey attributes).foreign :=
  Attributes.keys_ofList fun _ hmem =>
    h _ (List.mem_map_of_mem (List.mem_of_mem_filter hmem))

/-- A written label is read with the attributes that it was written with. -/
theorem get?_foreign_setAll {idKey key : String} (h : key ≠ idKey) (name : String)
    (label : Label) (entries : List (String × String)) :
    (Label.ofAttributes idKey
        (({ name } : Markup.Element).setAll
          (label.idEntry idKey ++ entries ++ label.foreign.toList)).attributes).foreign.get? key
      = (label.foreign.get? key).or (entries.reverse.lookup key) := by
  have hnodup := Markup.Element.nodup_setAll (e := { name }) List.nodup_nil
    (label.idEntry idKey ++ entries ++ label.foreign.toList)
  rw [Label.get?_foreign_ofAttributes h, lookup_reverse hnodup, ← Markup.Element.get?,
    Markup.Element.get?_setAll, List.reverse_append, List.reverse_append, List.lookup_append,
    List.lookup_append, lookup_reverse label.foreign.nodup_keys, ← Attributes.get?]
  have hid : (label.idEntry idKey).reverse.lookup key = none := by
    rw [Label.idEntry]
    cases label.id with
    | none => rfl
    | some id =>
      simp [beq_false_of_ne h]
  rw [hid, Option.or_none]
  exact Option.or_none

/-! ## Labels that are read back -/

theorem Label.id_ofAttributes (idKey : String) (attributes : List (String × String)) :
    (Label.ofAttributes idKey attributes).id = attributes.reverse.lookup idKey := by
  rw [ofAttributes]
  induction attributes using List.reverseRecOn with
  | nil => rfl
  | append_singleton attributes entry ih =>
    obtain ⟨k, v⟩ := entry
    dsimp only at ih ⊢
    rw [List.filter_append, List.reverse_append, List.reverse_singleton, List.singleton_append,
      List.lookup_cons]
    by_cases hkey : k = idKey
    · simp [hkey]
    · rw [List.filter_cons_of_neg (by simpa using hkey), List.filter_nil, List.append_nil, ih,
        beq_false_of_ne (Ne.symm hkey)]

theorem Label.get?_idKey_ofAttributes (idKey : String) (attributes : List (String × String)) :
    (Label.ofAttributes idKey attributes).foreign.get? idKey = none := by
  rw [ofAttributes, Attributes.get?_ofList, ← List.filter_reverse]
  exact (lookup_filter (fun key => decide (key ≠ idKey)) _).trans (if_neg (by simp))

theorem Label.ext {a b : Label} (hid : a.id = b.id) (hforeign : a.foreign = b.foreign) :
    a = b := by
  obtain ⟨_, _⟩ := a
  obtain ⟨_, _⟩ := b
  rw [Label.mk.injEq]
  exact ⟨hid, hforeign⟩

/-- Of attributes that are set several times the last values are read. -/
theorem Label.ofAttributes_setAll (idKey name : String) (children : List Markup.Node)
    (entries : List (String × String)) :
    Label.ofAttributes idKey (({ name, children } : Markup.Element).setAll entries).attributes
      = Label.ofAttributes idKey entries := by
  have hlookup (key : String) :
      (({ name, children } : Markup.Element).setAll entries).attributes.reverse.lookup key
        = entries.reverse.lookup key := by
    rw [lookup_reverse
        (Markup.Element.nodup_setAll (e := { name, children }) List.nodup_nil entries),
      ← Markup.Element.get?, Markup.Element.get?_setAll]
    exact Option.or_none
  refine Label.ext ?_ (Attributes.ext_get? fun key => ?_)
  · rw [id_ofAttributes, id_ofAttributes, hlookup]
  · by_cases hkey : key = idKey
    · rw [hkey, get?_idKey_ofAttributes, get?_idKey_ofAttributes]
    · rw [get?_foreign_ofAttributes hkey, get?_foreign_ofAttributes hkey, hlookup]

/-- The identifier and other attributes are told apart. -/
theorem Label.ofAttributes_append {idKey : String} (label : Label)
    {front back : List (String × String)} (hfront : Entries (· ≠ idKey) front)
    (hback : Entries (· ≠ idKey) back) :
    Label.ofAttributes idKey (front ++ label.idEntry idKey ++ back)
      = ⟨label.id, .ofList (front ++ back)⟩ := by
  have hid : Entries (· = idKey) (label.idEntry idKey) :=
    entries_idEntry (p := (· = idKey)) rfl label
  have hkeep {l : List (String × String)} (h : Entries (· ≠ idKey) l) :
      (l.filter fun entry => entry.1 ≠ idKey) = l ∧ (l.filter fun entry => entry.1 = idKey) = [] :=
    ⟨List.filter_eq_self.2 fun entry hmem => decide_eq_true (h entry hmem),
      List.filter_eq_nil_iff.2 fun entry hmem => by simpa using h entry hmem⟩
  have hdrop : ((label.idEntry idKey).filter fun entry => entry.1 ≠ idKey) = [] :=
    List.filter_eq_nil_iff.2 fun entry hmem => by simpa using hid entry hmem
  have hown : ((label.idEntry idKey).filter fun entry => entry.1 = idKey) = label.idEntry idKey :=
    List.filter_eq_self.2 fun entry hmem => decide_eq_true (hid entry hmem)
  rw [ofAttributes, List.filter_append, List.filter_append, List.filter_append, List.filter_append,
    (hkeep hfront).1, (hkeep hfront).2, (hkeep hback).1, (hkeep hback).2, hdrop, hown,
    List.append_nil, List.append_nil, List.nil_append, idEntry]
  cases label.id with
  | none => rfl
  | some id => rfl

end VectorGraphics
