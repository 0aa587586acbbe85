import VectorGraphics.Proofs.Path.RoundTrip

/-!
# The characters of path data

Path data that can be read consists of separators, the characters of numbers and the letters of
commands (`isDataChar_of_commands`). The texts of infinity and NaN have other letters, so that a
path is read back exactly if all its numbers are finite (`parse_print_iff`).
-/

namespace VectorGraphics.Path

/-- The characters of a number. -/
def isNumeric (c : Char) : Bool :=
  c.isDigit || c = '.' || c = '-' || c = '+' || c = 'e' || c = 'E'

/-- The characters of path data. -/
def isDataChar (c : Char) : Bool := isSeparator c || isNumeric c || (kindOfLetter? c).isSome

/-! ## Numbers -/

theorem isNumeric_takeSign (cs : List Char) : ∀ c ∈ (takeSign cs).1, isNumeric c = true := by
  intro c hc
  unfold takeSign at hc
  split at hc
  · rw [List.mem_singleton.1 hc]
    rfl
  · rw [List.mem_singleton.1 hc]
    rfl
  · exact absurd hc List.not_mem_nil

theorem isNumeric_takeDigits (cs : List Char) :
    ∀ c ∈ (Decimal.takeDigits cs).1, isNumeric c = true := by
  intro c hc
  have hdigit : c.isDigit = true := List.mem_takeWhile_imp hc
  simp [isNumeric, hdigit]

theorem isNumeric_takePointed (cs : List Char) :
    ∀ c ∈ (takePointed cs).1, isNumeric c = true := by
  intro c hc
  unfold takePointed at hc
  split at hc
  · obtain rfl | hc := List.mem_cons.1 hc
    · rfl
    · exact isNumeric_takeDigits _ c hc
  · exact absurd hc List.not_mem_nil

theorem isNumeric_takePower (cs : List Char) :
    ∀ c ∈ (takePower cs).1, isNumeric c = true := by
  intro c hc
  unfold takePower at hc
  split at hc
  · exact absurd hc List.not_mem_nil
  · split at hc
    · next he =>
      obtain hc | hc := List.mem_append.1 hc
      · obtain rfl | hc := List.mem_cons.1 hc
        · rcases he with rfl | rfl <;> rfl
        · exact isNumeric_takeSign _ c hc
      · exact isNumeric_takeDigits _ c hc
    · exact absurd hc List.not_mem_nil

/-- What is taken as a number has the characters of numbers. -/
theorem isNumeric_takeNumber (cs : List Char) : ∀ c ∈ (takeNumber cs).1, isNumeric c = true := by
  intro c hc
  simp only [takeNumber, List.mem_append] at hc
  obtain ((hc | hc) | hc) | hc := hc
  · exact isNumeric_takeSign _ c hc
  · exact isNumeric_takeDigits _ c hc
  · exact isNumeric_takePointed _ c hc
  · exact isNumeric_takePower _ c hc

/-- What stands in front of the rest of a text after a parameter. -/
theorem isNumeric_takeParameter {slot : Kind.Slot} {cs rest : List Char} {x : Single}
    (h : takeParameter slot cs = .ok (x, rest)) :
    ∃ front, cs = front ++ rest ∧ ∀ c ∈ front, isNumeric c = true := by
  cases slot with
  | number =>
    simp only [takeParameter] at h
    split at h
    · obtain ⟨-, rfl⟩ := Prod.mk.inj (Except.ok.inj h)
      exact ⟨(takeNumber cs).1, (takeNumber_append cs).symm, isNumeric_takeNumber cs⟩
    · cases h
  | flag =>
    cases cs with
    | nil => cases h
    | cons c cs =>
      simp only [takeParameter] at h
      split at h
      · next hc =>
        obtain ⟨-, rfl⟩ := Prod.mk.inj (Except.ok.inj h)
        exact ⟨[c], rfl, fun d hd => by rw [List.mem_singleton.1 hd, hc]; rfl⟩
      · split at h
        · next hc =>
          obtain ⟨-, rfl⟩ := Prod.mk.inj (Except.ok.inj h)
          exact ⟨[c], rfl, fun d hd => by rw [List.mem_singleton.1 hd, hc]; rfl⟩
        · cases h

/-! ## Commands -/

theorem isDataChar_of_isNumeric {c : Char} (h : isNumeric c = true) : isDataChar c = true := by
  simp [isDataChar, h]

theorem isDataChar_of_isSeparator {c : Char} (h : isSeparator c = true) :
    isDataChar c = true := by
  simp [isDataChar, h]

/-- The separators in front of a text. -/
theorem exists_separators (cs : List Char) :
    ∃ front, cs = front ++ skipSeparators cs ∧ ∀ c ∈ front, isDataChar c = true :=
  ⟨cs.takeWhile isSeparator, List.takeWhile_append_dropWhile.symm,
    fun _ hc => isDataChar_of_isSeparator (List.mem_takeWhile_imp hc)⟩

theorem isDataChar_of_parameters {slots : List Kind.Slot} {n : ℕ} {cs rest : List Char}
    {xs : List Single} (h : parameters slots n cs = .ok (xs, rest)) :
    ∃ front, cs = front ++ rest ∧ ∀ c ∈ front, isDataChar c = true := by
  fun_induction parameters slots n cs generalizing xs rest with
  | case1 n cs hs =>
    obtain ⟨-, rfl⟩ := Prod.mk.inj (Except.ok.inj h)
    obtain ⟨front, hcs, hfront⟩ := exists_separators cs
    exact ⟨front, by rw [← hs, ← hcs], hfront⟩
  | case2 => cases h
  | case3 n cs c r hs hc x r' hx hlt e he ih => cases h
  | case4 n cs c r hs hc x r' hx hlt xs' r'' hok ih =>
    obtain ⟨-, rfl⟩ := Prod.mk.inj (Except.ok.inj h)
    obtain ⟨front, hcs, hfront⟩ := exists_separators cs
    obtain ⟨number, hnumber, hnumeric⟩ := isNumeric_takeParameter hx
    obtain ⟨middle, hmiddle, hdata⟩ := ih hok
    refine ⟨front ++ number ++ middle, ?_, fun c hc => ?_⟩
    · rw [List.append_assoc, List.append_assoc, ← hmiddle, ← hnumber, ← hs, ← hcs]
    · simp only [List.mem_append] at hc
      obtain (hc | hc) | hc := hc
      · exact hfront c hc
      · exact isDataChar_of_isNumeric (hnumeric c hc)
      · exact hdata c hc
  | case5 n cs c r hs hc =>
    obtain ⟨-, rfl⟩ := Prod.mk.inj (Except.ok.inj h)
    obtain ⟨front, hcs, hfront⟩ := exists_separators cs
    exact ⟨front, by rw [← hs, ← hcs], hfront⟩

/-- Path data that can be read has the characters of path data. -/
theorem isDataChar_of_commands {cs : List Char} {path : List Command}
    (h : commands cs = .ok path) : ∀ c ∈ cs, isDataChar c = true := by
  fun_induction commands cs generalizing path with
  | case1 cs hs =>
    obtain ⟨front, hcs, hfront⟩ := exists_separators cs
    rwa [hcs, hs, List.append_nil]
  | case2 | case3 | case4 | case5 | case7 => cases h
  | case6 cs c rest hs halpha kind hkind xs rest' hxs hlt command hcommand more hmore ih =>
    obtain ⟨front, hcs, hfront⟩ := exists_separators cs
    obtain ⟨middle, hmiddle, hdata⟩ := isDataChar_of_parameters hxs
    have hletter : isDataChar c = true := by simp [isDataChar, hkind]
    rw [hcs, hs, hmiddle]
    intro d hd
    simp only [List.mem_append, List.mem_cons] at hd
    obtain hd | rfl | hd | hd := hd
    · exact hfront d hd
    · exact hletter
    · exact hdata d hd
    · exact ih hmore d hd

/-! ## Numbers that are not finite -/

/-- The text of a number that is not finite has a character that path data has not. -/
theorem exists_not_isDataChar {x : Single} (hx : x.isFinite = false) (places : UInt8) :
    ∃ c ∈ x.chars places, isDataChar c = false := by
  have hchars : x.chars places = nonfiniteText x.toModel.unpack := by
    rw [Single.chars, if_neg (by rw [hx]; exact Bool.false_ne_true)]
  rw [hchars]
  rw [Float32.isFinite, Float32.Model.isFinite] at hx
  cases hu : x.toModel.unpack with
  | infinity s => cases s <;> exact ⟨'n', by decide, by decide⟩
  | notANumber => exact ⟨'N', by decide, by decide⟩
  | zero s =>
    rw [hu] at hx
    cases hx
  | finite s m e _ =>
    rw [hu] at hx
    cases hx

theorem isFinite_ofFlag (b : Bool) : (Kind.ofFlag b).isFinite = true := by
  cases b <;> rfl

theorem mem_intercalate {α : Type} {s a : α} {l : List α} {ls : List (List α)} (hl : l ∈ ls)
    (ha : a ∈ l) : a ∈ [s].intercalate ls := by
  induction ls with
  | nil => exact absurd hl List.not_mem_nil
  | cons head ls ih =>
    cases ls with
    | nil =>
      rw [intercalate_singleton, ← List.mem_singleton.1 hl]
      exact ha
    | cons next ls =>
      rw [intercalate_cons_cons]
      obtain rfl | hl := List.mem_cons.1 hl
      · exact List.mem_append_left _ ha
      · exact List.mem_append_right _ (List.mem_cons_of_mem _ (ih hl))

/-- Flags are finite. -/
theorem isFinite_of_flag (k : Kind) (g : k.Group) :
    ∀ p ∈ k.slots.zip (k.numbers g), p.1 = .flag → p.2.isFinite = true := by
  cases k <;> simp [Kind.slots, Kind.numbers, isFinite_ofFlag]

/-- A number of a group that is not finite is printed as a number, not as a flag. -/
theorem chars_mem_of_not_isFinite {places : UInt8} {k : Kind} {g : k.Group} {x : Single}
    (hmem : x ∈ k.numbers g) (hx : x.isFinite = false) :
    x.chars places ∈ List.zipWith (Kind.Slot.chars places) k.slots (k.numbers g) := by
  obtain ⟨i, hi, rfl⟩ := List.mem_iff_getElem.1 hmem
  have hslot : i < k.slots.length := by
    rw [length_numbers] at hi
    exact hi
  have hzip : (k.slots[i], (k.numbers g)[i]) ∈ k.slots.zip (k.numbers g) :=
    List.mem_iff_getElem.2 ⟨i, by rw [List.length_zip]; omega, List.getElem_zip⟩
  have hnumber : k.slots[i] = .number := by
    cases h : k.slots[i] with
    | number => rfl
    | flag =>
      have := isFinite_of_flag k g _ hzip h
      rw [hx] at this
      cases this
  have hchars : Kind.Slot.chars places k.slots[i] (k.numbers g)[i]
      ∈ List.zipWith (Kind.Slot.chars places) k.slots (k.numbers g) :=
    List.mem_iff_getElem.2 ⟨i, by rw [List.length_zipWith]; omega, List.getElem_zipWith⟩
  rwa [hnumber, Kind.Slot.chars] at hchars

/-- A path with a number that is not finite is not read back. -/
theorem isFinite_of_commands_print {places : UInt8} {cs path : List Command}
    (h : commands (cs.flatMap (Command.chars places)) = .ok path) :
    ∀ c ∈ cs, ∀ xs ∈ c.numbers, ∀ x ∈ xs, x.isFinite = true := by
  intro c hc xs hxs x hx
  cases hfinite : x.isFinite with
  | true => rfl
  | false =>
    obtain ⟨d, hd, hdata⟩ := exists_not_isDataChar hfinite places
    have hmem : d ∈ c.chars places := by
      cases c with
      | close => exact absurd hxs List.not_mem_nil
      | draw k m gs =>
        obtain ⟨g, hg, rfl⟩ := List.mem_map.1 hxs
        have hgroup : d ∈ k.groupChars places g :=
          mem_intercalate (chars_mem_of_not_isFinite hx hfinite) hd
        exact List.mem_cons_of_mem _ (mem_intercalate (List.mem_map_of_mem hg) hgroup)
    have hprinted := isDataChar_of_commands h d (List.mem_flatMap_of_mem hc hmem)
    rw [hdata] at hprinted
    cases hprinted

/-- A path that begins with a move is read back exactly if all its numbers are finite. -/
theorem isOk_parse_print_iff (places : UInt8) {cs : List Command}
    (hmove : ∀ c, cs.head? = some c → c.isKind .move = true)
    (hgroups : ∀ {k : Kind} {m : Mode} {gs : List k.Group}, .draw k m gs ∈ cs → gs ≠ []) :
    (parse (print cs places)).isOk = true
      ↔ ∀ c ∈ cs, ∀ xs ∈ c.numbers, ∀ x ∈ xs, x.isFinite = true := by
  constructor
  · intro h
    rw [parse, print, String.toList_ofList] at h
    split at h
    · cases h
    · next hnil => exact isFinite_of_commands_print hnil
    · next hcons => exact isFinite_of_commands_print hcons
  · intro h
    rw [parse_print places ⟨hgroups, h⟩ hmove]
    rfl

end VectorGraphics.Path
