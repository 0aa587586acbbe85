import VectorGraphics.Path.Reader
import VectorGraphics.Proofs.Number.Literal

/-!
# Scanning printed parameters

A plain literal is taken whole off the front of a text as long as what follows cannot continue it
(`takeNumber_plain`). So the printed parameters of a kind, one after the other with separators
between them, are scanned one by one (`parameters_of_printed`), and the groups of a command come
out as the numbers that their texts are read as (`parameters_groups`).
-/

namespace VectorGraphics

open Decimal (IsPlain IsUnsigned IsFraction)

/-- The number that the text of a coordinate is read as. -/
def Single.reread (places : UInt8) (x : Single) : Single :=
  (Single.ofString? (x.text places)).getD x

namespace Path

/-! ## One number -/

/-- A text that does not continue a number before it. -/
def Stops (rest : List Char) : Prop :=
  ∀ c, rest.head? = some c → c.isDigit = false ∧ c ≠ '.' ∧ c ≠ 'e' ∧ c ≠ 'E'

theorem takePointed_append_stop {fraction rest : List Char} (hf : IsFraction fraction)
    (hrest : Stops rest) : takePointed (fraction ++ rest) = (fraction, rest) := by
  obtain rfl | ⟨ds, hd, rfl⟩ := hf
  · rw [List.nil_append, takePointed]
    rintro cs rfl
    exact (hrest _ rfl).2.1 rfl
  · rw [List.cons_append, takePointed,
      Decimal.takeDigits_of_digits hd.2 fun c h => (hrest c h).1]

theorem takePower_stop {rest : List Char} (hrest : Stops rest) :
    takePower rest = ([], rest) := by
  cases rest with
  | nil => rfl
  | cons c cs =>
    obtain ⟨-, -, he, hE⟩ := hrest c rfl
    rw [takePower, if_neg (not_or.2 ⟨he, hE⟩)]

/-- The part of a literal after its sign. -/
theorem takeNumber_unsigned {cs rest : List Char} (h : IsUnsigned cs) (hrest : Stops rest) :
    ∃ whole fraction, cs = whole ++ fraction
      ∧ Decimal.takeDigits (cs ++ rest) = (whole, fraction ++ rest)
      ∧ takePointed (fraction ++ rest) = (fraction, rest) := by
  obtain ⟨whole, fraction, hw, hf, rfl⟩ := h
  refine ⟨whole, fraction, rfl, ?_, takePointed_append_stop hf hrest⟩
  rw [List.append_assoc]
  refine Decimal.takeDigits_of_digits hw.2 fun c hc => ?_
  obtain rfl | ⟨ds, -, rfl⟩ := hf
  · exact (hrest c hc).1
  · rw [← Option.some.inj hc]
    rfl

/-- A plain literal is taken whole. -/
theorem takeNumber_plain {cs rest : List Char} (h : IsPlain cs) (hrest : Stops rest) :
    takeNumber (cs ++ rest) = (cs, rest) := by
  obtain hu | ⟨ds, hu, rfl⟩ := h
  · have hsign : takeSign (cs ++ rest) = ([], cs ++ rest) := by
      obtain ⟨whole, fraction, hw, -, rfl⟩ := hu
      cases whole with
      | nil => exact absurd rfl hw.1
      | cons c whole =>
        have hc := hw.2 c List.mem_cons_self
        simp only [List.cons_append]
        rw [takeSign]
        · rintro l hl
          rw [(List.cons.inj hl).1] at hc
          exact absurd hc (by decide)
        · rintro l hl
          rw [(List.cons.inj hl).1] at hc
          exact absurd hc (by decide)
    obtain ⟨whole, fraction, rfl, hdigits, hpointed⟩ := takeNumber_unsigned hu hrest
    simp only [takeNumber, hsign, hdigits, hpointed, takePower_stop hrest, List.nil_append,
      List.append_nil]
  · obtain ⟨whole, fraction, rfl, hdigits, hpointed⟩ := takeNumber_unsigned hu hrest
    simp only [takeNumber, List.cons_append, takeSign, hdigits, hpointed, takePower_stop hrest,
      List.nil_append, List.append_nil]

/-- The text of a finite coordinate is read as a number. -/
theorem ofLiteral?_chars {x : Single} (hx : x.isFinite = true) (places : UInt8) :
    Single.ofLiteral? (x.chars places) = some (x.reread places) := by
  obtain ⟨y, hy⟩ := Single.ofLiteral?_plain (Single.isPlain_chars hx places)
  rw [Single.reread, Single.ofString?, Single.text, String.toList_ofList, hy, Option.getD_some]

/-! ## One parameter -/

/-- What a printed parameter is read as. -/
def Kind.Slot.reread (places : UInt8) : Kind.Slot → Single → Single
  | .number, x => x.reread places
  | .flag, x => if x == 1 then 1 else 0

theorem takeParameter_chars (slot : Kind.Slot) {x : Single} (hx : x.isFinite = true)
    (places : UInt8) {rest : List Char} (hrest : Stops rest) :
    takeParameter slot (slot.chars places x ++ rest) = .ok (slot.reread places x, rest) := by
  cases slot with
  | number =>
    simp only [Kind.Slot.chars, takeParameter, takeNumber_plain (Single.isPlain_chars hx places)
      hrest, ofLiteral?_chars hx places, Kind.Slot.reread]
  | flag =>
    rw [Kind.Slot.chars, Kind.Slot.reread]
    split <;> rfl

/-- A printed parameter begins as parameters do. -/
theorem exists_chars_cons (slot : Kind.Slot) {x : Single} (hx : x.isFinite = true)
    (places : UInt8) :
    ∃ c cs, slot.chars places x = c :: cs ∧ beginsNumber c = true := by
  have hdigit {c : Char} (hc : c.isDigit = true) : beginsNumber c = true := by
    simp [beginsNumber, hc]
  cases slot with
  | number =>
    obtain ⟨whole, fraction, hw, -, h⟩ | ⟨ds, -, h⟩ := Single.isPlain_chars hx places
    · cases whole with
      | nil => exact absurd rfl hw.1
      | cons c whole => exact ⟨c, whole ++ fraction, h, hdigit (hw.2 c List.mem_cons_self)⟩
    · exact ⟨'-', ds, h, rfl⟩
  | flag =>
    rw [Kind.Slot.chars]
    split <;> exact ⟨_, _, rfl, rfl⟩

/-! ## The parameters after a letter -/

/-- A text that does not continue the parameters before it. -/
def EndsParameters (rest : List Char) : Prop :=
  Stops rest ∧ ∀ c, rest.head? = some c → isSeparator c = false ∧ beginsNumber c = false

theorem skipSeparators_cons {c : Char} (hc : isSeparator c = true) (cs : List Char) :
    skipSeparators (c :: cs) = skipSeparators cs :=
  List.dropWhile_cons_of_pos hc

theorem skipSeparators_of_head {cs : List Char}
    (h : ∀ c, cs.head? = some c → isSeparator c = false) : skipSeparators cs = cs := by
  cases cs with
  | nil => rfl
  | cons c cs =>
    exact List.dropWhile_cons_of_neg (by rw [h c rfl]; exact Bool.false_ne_true)

/-- What holds of none of the separators holds of no separator. -/
theorem isSeparator_of_forall {p : Char → Bool}
    (h : ∀ s ∈ [' ', '\t', '\n', '\x0c', '\r', ','], p s = false) {c : Char} (hc : p c = true) :
    isSeparator c = false := by
  rw [Bool.eq_false_iff]
  intro hs
  simp only [isSeparator, Text.isAsciiBlank, Bool.or_eq_true, decide_eq_true_eq, or_assoc] at hs
  have hmem : c ∈ [' ', '\t', '\n', '\x0c', '\r', ','] := by
    simp only [List.mem_cons, List.not_mem_nil, or_false]
    exact hs
  exact Bool.false_ne_true ((h c hmem).symm.trans hc)

/-- A character that begins a parameter is no separator. -/
theorem isSeparator_of_beginsNumber {c : Char} (hc : beginsNumber c = true) :
    isSeparator c = false :=
  isSeparator_of_forall (by simp [beginsNumber]) hc

/-- One step of reading parameters. -/
theorem parameters_eq (slots : List Kind.Slot) (n : ℕ) (cs : List Char) :
    parameters slots n cs =
      match skipSeparators cs with
      | [] => .ok ([], [])
      | c :: rest =>
        if beginsNumber c then
          match takeParameter (slots[n % slots.length]?.getD .number) (c :: rest) with
          | .error e => .error e
          | .ok (x, rest') =>
            match parameters slots (n + 1) rest' with
            | .error e => .error e
            | .ok (xs, rest'') => .ok (x :: xs, rest'')
        else .ok ([], c :: rest) := by
  conv_lhs => unfold parameters
  split
  · next hs => rw [hs]
  · next c rest hs =>
    conv_rhs => rw [hs]
    simp only
    split
    · split
      · next h => rw [h]
      · next rest' h =>
        cases hmore : parameters slots (n + 1) rest' <;> simp only [h, hmore]
    · rfl

theorem parameters_separator {c : Char} (hc : isSeparator c = true) (slots : List Kind.Slot)
    (n : ℕ) (cs : List Char) : parameters slots n (c :: cs) = parameters slots n cs := by
  rw [parameters_eq, parameters_eq slots n cs, skipSeparators_cons hc]

theorem parameters_end {rest : List Char} (h : EndsParameters rest) (slots : List Kind.Slot)
    (n : ℕ) : parameters slots n rest = .ok ([], rest) := by
  rw [parameters_eq, skipSeparators_of_head fun c hc => (h.2 c hc).1]
  cases rest with
  | nil => rfl
  | cons c cs => exact if_neg (by rw [(h.2 c rfl).2]; exact Bool.false_ne_true)

/-- A parameter in front is read first. -/
theorem parameters_parameter {slots : List Kind.Slot} {n : ℕ} {c : Char}
    {cs rest rest' : List Char} {x : Single} {xs : List Single} (hc : beginsNumber c = true)
    (hx : takeParameter (slots[n % slots.length]?.getD .number) (c :: cs) = .ok (x, rest))
    (hxs : parameters slots (n + 1) rest = .ok (xs, rest')) :
    parameters slots n (c :: cs) = .ok (x :: xs, rest') := by
  have hskip : skipSeparators (c :: cs) = c :: cs := skipSeparators_of_head fun d hd => by
    rw [← Option.some.inj hd]
    exact isSeparator_of_beginsNumber hc
  rw [parameters_eq, hskip]
  simp only [hc, if_true, hx, hxs]

/-- Printed parameters for the slots from the `n`th on, with separators between them, before a
text that ends them. -/
inductive Printed (places : UInt8) (slots : List Kind.Slot) (rest : List Char) :
    ℕ → List Single → List Char → Prop
  /-- No more parameters. -/
  | stop {n : ℕ} : Printed places slots rest n [] rest
  /-- A separator comes next. -/
  | separator {n : ℕ} {c : Char} {xs : List Single} {cs : List Char} (hc : isSeparator c = true)
      (h : Printed places slots rest n xs cs) : Printed places slots rest n xs (c :: cs)
  /-- A parameter comes next. -/
  | parameter {n : ℕ} {slot : Kind.Slot} {x : Single} {xs : List Single} {cs : List Char}
      (hslot : slots[n % slots.length]? = some slot) (hx : x.isFinite = true) (hcs : Stops cs)
      (h : Printed places slots rest (n + 1) xs cs) :
      Printed places slots rest n (slot.reread places x :: xs) (slot.chars places x ++ cs)

/-- Printed parameters are scanned one by one. -/
theorem parameters_of_printed {places : UInt8} {slots : List Kind.Slot} {rest : List Char} {n : ℕ}
    {xs : List Single} {cs : List Char} (hrest : EndsParameters rest)
    (h : Printed places slots rest n xs cs) : parameters slots n cs = .ok (xs, rest) := by
  induction h with
  | stop => exact parameters_end hrest slots _
  | separator hc _ ih => rwa [parameters_separator hc]
  | @parameter n slot x xs cs hslot hx hcs _ ih =>
    obtain ⟨d, ds, hchars, hd⟩ := exists_chars_cons slot hx places
    have htake := takeParameter_chars slot hx places hcs
    rw [hchars, List.cons_append] at htake ⊢
    exact parameters_parameter hd (by rwa [hslot, Option.getD_some]) ih

/-! ## Groups -/

theorem intercalate_cons_cons {α : Type} (s : α) (a b : List α) (l : List (List α)) :
    [s].intercalate (a :: b :: l) = a ++ s :: [s].intercalate (b :: l) := rfl

theorem intercalate_singleton {α : Type} (s : α) (a : List α) : [s].intercalate [a] = a :=
  List.append_nil a

theorem stops_separator {c : Char} (hc : isSeparator c = true) (cs : List Char) :
    Stops (c :: cs) := by
  intro d hd
  obtain rfl := Option.some.inj hd
  simp only [isSeparator, Text.isAsciiBlank, Bool.or_eq_true, decide_eq_true_eq] at hc
  rcases hc with ((((rfl | rfl) | rfl) | rfl) | rfl) | rfl <;> decide

section Groups

variable {places : UInt8} {slots : List Kind.Slot} {rest : List Char}

/-- The parameters of a group from some slot on, before more parameters. -/
theorem printed_group {n : ℕ} (hn : n % slots.length = 0) {before after : List Kind.Slot}
    (hslots : slots = before ++ after) (hne : after ≠ []) {xs : List Single}
    (hlength : xs.length = after.length) (hfinite : ∀ x ∈ xs, x.isFinite = true)
    {ys : List Single} {cs : List Char} (hcs : Stops cs)
    (hmore : Printed places slots rest (n + slots.length) ys cs) :
    Printed places slots rest (n + before.length)
      (List.zipWith (Kind.Slot.reread places) after xs ++ ys)
      ([','].intercalate (List.zipWith (Kind.Slot.chars places) after xs) ++ cs) := by
  induction after generalizing before xs with
  | nil => exact absurd rfl hne
  | cons slot after ih =>
    cases xs with
    | nil => exact absurd hlength nofun
    | cons x xs =>
      have hlt : before.length < slots.length := by
        rw [hslots, List.length_append, List.length_cons]
        omega
      have hslot : slots[(n + before.length) % slots.length]? = some slot := by
        rw [Nat.add_mod, hn, Nat.zero_add, Nat.mod_mod, Nat.mod_eq_of_lt hlt, hslots,
          List.getElem?_append_right le_rfl, Nat.sub_self, List.getElem?_cons_zero]
      have hx : x.isFinite = true := hfinite x List.mem_cons_self
      have hxs : ∀ y ∈ xs, y.isFinite = true := fun y hy => hfinite y (List.mem_cons_of_mem x hy)
      have hlength : xs.length = after.length := Nat.succ.inj hlength
      cases after with
      | nil =>
        obtain rfl := List.eq_nil_of_length_eq_zero hlength
        have hend : n + slots.length = n + before.length + 1 := by
          rw [hslots, List.length_append, List.length_singleton, Nat.add_assoc]
        rw [hend] at hmore
        simp only [List.zipWith_cons_cons, List.zipWith_nil_left, intercalate_singleton]
        exact .parameter hslot hx hcs hmore
      | cons slot' after =>
        cases xs with
        | nil => exact absurd hlength nofun
        | cons x' xs =>
          have hslots' : slots = before ++ [slot] ++ slot' :: after := by
            rw [hslots, List.append_assoc]
            rfl
          have := ih hslots' nofun hlength hxs
          rw [List.length_append, List.length_singleton, ← Nat.add_assoc] at this
          simp only [List.zipWith_cons_cons, intercalate_cons_cons] at this ⊢
          rw [List.append_assoc]
          exact .parameter hslot hx (stops_separator rfl _) (.separator rfl this)

end Groups

theorem length_numbers (k : Kind) (g : k.Group) : (k.numbers g).length = k.arity := by
  cases k <;> rfl

theorem arity_pos (k : Kind) : 0 < k.arity := by
  cases k <;> decide

/-- What the printed parameters of a group are read as. -/
def Kind.rereadNumbers (places : UInt8) (k : Kind) (g : k.Group) : List Single :=
  List.zipWith (Kind.Slot.reread places) k.slots (k.numbers g)

theorem length_rereadNumbers (places : UInt8) (k : Kind) (g : k.Group) :
    (k.rereadNumbers places g).length = k.arity := by
  rw [Kind.rereadNumbers, List.length_zipWith, length_numbers, Kind.arity, Nat.min_self]

/-- The parameters of all groups of a command. -/
theorem printed_groups (places : UInt8) {k : Kind} {rest : List Char} (hrest : Stops rest) {n : ℕ}
    (hn : n % k.arity = 0) {gs : List k.Group} (hne : gs ≠ [])
    (hfinite : ∀ g ∈ gs, ∀ x ∈ k.numbers g, x.isFinite = true) :
    Printed places k.slots rest n (gs.flatMap (k.rereadNumbers places))
      ([' '].intercalate (gs.map (k.groupChars places)) ++ rest) := by
  have hslots : k.slots ≠ [] := List.ne_nil_of_length_pos (arity_pos k)
  induction gs generalizing n with
  | nil => exact absurd rfl hne
  | cons g gs ih =>
    have hg := hfinite g List.mem_cons_self
    have hgs : ∀ h ∈ gs, ∀ x ∈ k.numbers h, x.isFinite = true :=
      fun h hmem => hfinite h (List.mem_cons_of_mem g hmem)
    rw [List.flatMap_cons]
    cases gs with
    | nil =>
      rw [List.map_singleton, intercalate_singleton]
      exact printed_group hn (List.nil_append _).symm hslots (length_numbers k g) hg hrest .stop
    | cons h gs =>
      rw [List.map_cons, List.map_cons, intercalate_cons_cons, List.append_assoc]
      refine printed_group hn (List.nil_append _).symm hslots (length_numbers k g) hg
        (stops_separator rfl _) (.separator rfl (ih ?_ nofun hgs))
      rw [← Kind.arity, Nat.add_mod_right, hn]

/-! ## Groups from their numbers -/

/-- A group with its numbers replaced; flags stay. -/
def Kind.mapNumbers (f : Single → Single) : (k : Kind) → k.Group → k.Group
  | .move, p | .line, p | .smoothQuadratic, p => ⟨f p.x, f p.y⟩
  | .horizontal, v | .vertical, v => f v
  | .cubic, g => ⟨⟨f g.control1.x, f g.control1.y⟩, ⟨f g.control2.x, f g.control2.y⟩,
      ⟨f g.stop.x, f g.stop.y⟩⟩
  | .smoothCubic, g => ⟨⟨f g.control2.x, f g.control2.y⟩, ⟨f g.stop.x, f g.stop.y⟩⟩
  | .quadratic, g => ⟨⟨f g.control.x, f g.control.y⟩, ⟨f g.stop.x, f g.stop.y⟩⟩
  | .arc, g => { g with
      radiusX := f g.radiusX, radiusY := f g.radiusY, angle := f g.angle,
      stop := ⟨f g.stop.x, f g.stop.y⟩ }

/-- A flag is told from its number. -/
theorem ofFlag_beq_one (b : Bool) : (Kind.ofFlag b == 1) = b := by
  cases b with
  | true => exact (Single.is_one.beq_iff Single.is_one).2 rfl
  | false =>
    exact Bool.eq_false_iff.2 fun h => zero_ne_one ((Single.is_zero.beq_iff Single.is_one).1 h)

/-- The numbers read back make up the group again, with the same flags. -/
theorem ofNumbers?_rereadNumbers (places : UInt8) (k : Kind) (g : k.Group) :
    k.ofNumbers? (k.rereadNumbers places g) = some (k.mapNumbers (Single.reread places) g) := by
  have hflag (b : Bool) : ((if Kind.ofFlag b == 1 then 1 else 0 : Single) == 1) = b := by
    rw [ofFlag_beq_one]
    exact ofFlag_beq_one b
  cases k with
  | arc =>
    simp only [Kind.rereadNumbers, Kind.slots, Kind.numbers, List.zipWith_cons_cons,
      List.zipWith_nil_left, Kind.ofNumbers?, Kind.Slot.reread, hflag, Kind.mapNumbers]
  | _ => rfl

theorem chunks_flatten {α : Type} {n : ℕ} (hn : n ≠ 0) {ls : List (List α)}
    (h : ∀ l ∈ ls, l.length = n) : chunks n ls.flatten = ls := by
  induction ls with
  | nil =>
    rw [List.flatten_nil, chunks, dif_pos (.inr rfl)]
  | cons l ls ih =>
    have hl : l.length = n := h l List.mem_cons_self
    have hne : ¬(n = 0 ∨ (l :: ls).flatten = []) := by
      rw [List.flatten_cons, List.append_eq_nil_iff]
      rintro (h | ⟨rfl, -⟩)
      · exact hn h
      · exact hn hl.symm
    rw [chunks, dif_neg hne, List.flatten_cons, List.take_left' hl, List.drop_left' hl,
      ih fun m hm => h m (List.mem_cons_of_mem l hm)]

/-- The groups made up by lists of numbers, one after the other. -/
theorem groups?_flatMap {k : Kind} {f : k.Group → List Single} {h : k.Group → k.Group}
    (hlength : ∀ g, (f g).length = k.arity) (hf : ∀ g, k.ofNumbers? (f g) = some (h g))
    {gs : List k.Group} (hne : gs ≠ []) : k.groups? (gs.flatMap f) = some (gs.map h) := by
  have hpos := arity_pos k
  have hnonempty : gs.flatMap f ≠ [] := by
    cases gs with
    | nil => exact absurd rfl hne
    | cons g gs =>
      have := hlength g
      rw [List.flatMap_cons]
      exact List.append_ne_nil_of_left_ne_nil (List.ne_nil_of_length_pos (by omega)) _
  have hmapM : (gs.map f).mapM k.ofNumbers? = some (gs.map h) := by
    clear hne hnonempty
    induction gs with
    | nil => rfl
    | cons g gs ih =>
      rw [List.map_cons, List.mapM_cons, hf, ih]
      rfl
  rw [Kind.groups?, if_neg hnonempty, List.flatMap_def, chunks_flatten hpos.ne', hmapM]
  intro l hl
  obtain ⟨g, -, rfl⟩ := List.mem_map.1 hl
  exact hlength g

theorem groups?_rereadNumbers (places : UInt8) (k : Kind) {gs : List k.Group} (hne : gs ≠ []) :
    k.groups? (gs.flatMap (k.rereadNumbers places))
      = some (gs.map (k.mapNumbers (Single.reread places))) :=
  groups?_flatMap (length_rereadNumbers places k) (ofNumbers?_rereadNumbers places k) hne

end Path

end VectorGraphics
