import VectorGraphics.Proofs.Number.PrintedTwice
import VectorGraphics.Proofs.Path.RoundTrip

/-!
# Paths that are printed again

What the text of a path is read as has the same text (`print_of_parse_print`). Kinds, modes, numbers
of groups and flags are read as they were, and so only the texts of the numbers have to be the same
(`Command.chars_mapNumbers`), which they are (`Single.chars_reread`).
-/

namespace VectorGraphics

/-- What the text of a coordinate is read as has the same text. -/
theorem Single.chars_reread {x : Single} (hx : x.isFinite = true) (places : UInt8) :
    (x.reread places).chars places = x.chars places := by
  obtain ⟨y, hread, -, hchars⟩ := exists_reading_chars_eq hx places
  have hy : x.reread places = y :=
    Option.some.inj ((Path.ofLiteral?_chars hx places).symm.trans hread)
  rw [hy, hchars]

namespace Path

variable {places : UInt8} {f : Single → Single}

/-- Where the numbers of a group keep their texts, so does the group. -/
theorem groupChars_mapNumbers {k : Kind} {g : k.Group}
    (h : ∀ x ∈ k.numbers g, (f x).chars places = x.chars places) :
    k.groupChars places (k.mapNumbers f g) = k.groupChars places g := by
  unfold Kind.groupChars
  congr 1
  cases k <;> simp_all [Kind.numbers, Kind.mapNumbers, Kind.slots, Kind.Slot.chars]

theorem letter_mapNumbers (f : Single → Single) (c : Command) :
    (c.mapNumbers f).letter = c.letter := by
  cases c with
  | close => rfl
  | draw k m gs => cases m <;> rfl

/-- Where the numbers of a command keep their texts, so does the command. -/
theorem Command.chars_mapNumbers {c : Command}
    (h : ∀ xs ∈ c.numbers, ∀ x ∈ xs, (f x).chars places = x.chars places) :
    (c.mapNumbers f).chars places = c.chars places := by
  cases c with
  | close => rfl
  | draw k m gs =>
    have hletter := letter_mapNumbers f (.draw k m gs)
    have hgroups : (gs.map (k.mapNumbers f)).map (k.groupChars places)
        = gs.map (k.groupChars places) := by
      rw [List.map_map]
      exact List.map_congr_left fun g hg => groupChars_mapNumbers (h _ (List.mem_map_of_mem hg))
    rw [mapNumbers] at hletter ⊢
    simp only [chars, hletter, hgroups]

/-- Where all numbers keep their texts, so does the path. -/
theorem print_mapNumbers {cs : List Command} (h : ∀ c ∈ cs, ∀ xs ∈ c.numbers, ∀ x ∈ xs,
    (f x).chars places = x.chars places) :
    print (cs.map (Command.mapNumbers f)) places = print cs places := by
  rw [print, print, List.flatMap_map]
  exact congrArg _ (List.flatMap_congr fun c hc => Command.chars_mapNumbers (h c hc))

/-- **Printing is a projection.** The text of a path of finite numbers that begins with a move is
read as a path with the same text, and so is the text of every finite coordinate read as a
coordinate with the same text, at every number of places. -/
theorem print_of_parse_print (places : UInt8) {cs : List Command}
    (hmove : ∀ c, cs.head? = some c → c.isKind .move = true)
    (hgroups : ∀ (k : Kind) (m : Mode) (gs : List k.Group), .draw k m gs ∈ cs → gs ≠ [])
    (hfinite : ∀ c ∈ cs, ∀ xs ∈ c.numbers, ∀ x ∈ xs, x.isFinite = true) :
    (∃ ds, parse (print cs places) = .ok ds ∧ print ds places = print cs places)
      ∧ ∀ x : Single, x.isFinite = true →
        ∃ y, Single.ofString? (x.text places) = some y ∧ y.text places = x.text places := by
  refine ⟨⟨_, parse_print places ⟨hgroups _ _ _, hfinite⟩ hmove, ?_⟩, fun x hx => ?_⟩
  · exact print_mapNumbers fun c hc xs hxs x hx =>
      Single.chars_reread (hfinite c hc xs hxs x hx) places
  · obtain ⟨y, hread, -, hchars⟩ := Single.exists_reading_chars_eq hx places
    refine ⟨y, ?_, congrArg String.ofList hchars⟩
    rwa [Single.ofString?, Single.text, String.toList_ofList]

/-- A line from a tenth to a large number, at two places. -/
theorem line_printed_twice :
    ∃ ds, parse (print [.draw .move .absolute [⟨0.1, 1e20⟩], .draw .horizontal .relative [0.125]] 2)
        = .ok ds
      ∧ print ds 2
        = print [.draw .move .absolute [⟨0.1, 1e20⟩], .draw .horizontal .relative [0.125]] 2 := by
  refine (print_of_parse_print 2 ?_ ?_ ?_).1
  · intro c hc
    obtain rfl := Option.some.inj hc
    rfl
  · intro k m gs hmem
    simp only [List.mem_cons, Command.draw.injEq, List.not_mem_nil, or_false] at hmem
    obtain ⟨rfl, -, h⟩ | ⟨rfl, -, h⟩ := hmem <;> rw [eq_of_heq h] <;> exact List.cons_ne_nil _ _
  · intro c hc xs hxs x hx
    simp only [List.mem_cons, List.not_mem_nil, or_false] at hc
    obtain rfl | rfl := hc <;>
      simp only [Command.numbers, Kind.numbers, List.map_cons, List.map_nil, List.mem_cons,
        List.not_mem_nil, or_false] at hxs <;> subst hxs <;>
      simp only [List.mem_cons, List.not_mem_nil, or_false] at hx
    · obtain rfl | rfl := hx <;> rfl
    · subst hx
      rfl

end Path

end VectorGraphics
