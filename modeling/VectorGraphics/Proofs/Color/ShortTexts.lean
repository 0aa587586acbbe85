import VectorGraphics.Color
import VectorGraphics.Proofs.Number.Texts

/-!
# The short texts of colors

The text that is written for a color is read as that color, and no text that is read as that color
is shorter. This holds of the form with an alpha channel (`ofArgbText?_argbText`,
`length_argbText_le`) and of the SVG form, where a name may be shorter than the digits
(`exists_svgText?`).
-/

namespace VectorGraphics.Color

/-! ## Digits and bytes -/

/-- What holds of all bytes up to a bound is checked byte by byte. -/
theorem forall_byte {P : UInt8 → Prop} {bound : Nat} (h : ∀ n < bound, P (.ofNat n)) {b : UInt8}
    (hb : b.toNat < bound) : P b := by
  have hp := h b.toNat hb
  rwa [UInt8.ofNat_toNat] at hp

theorem hexDigit?_hexChar {d : UInt8} (hd : d < 16) : hexDigit? (hexChar d) = some d :=
  forall_byte (P := fun d => hexDigit? (hexChar d) = some d) (by decide) hd

theorem isTextChar_hexChar {d : UInt8} (hd : d < 16) : isTextChar (hexChar d) = true :=
  forall_byte (P := fun d => isTextChar (hexChar d) = true) (by decide) hd

theorem isTwice_twice {d : UInt8} (hd : d < 16) : isTwice (twice d) = true :=
  forall_byte (P := fun d => isTwice (twice d) = true) (by decide) hd

theorem joined_digits (b : UInt8) : joined (b >>> 4) (b &&& 0xf) = b :=
  forall_byte (P := fun b => joined (b >>> 4) (b &&& 0xf) = b) (by decide +kernel) b.toNat_lt

theorem digits_lt (b : UInt8) : b >>> 4 < 16 ∧ b &&& 0xf < 16 :=
  forall_byte (P := fun b => b >>> 4 < 16 ∧ b &&& 0xf < 16) (by decide +kernel) b.toNat_lt

/-- A byte with twice the same digit is known by one of them. -/
theorem twice_of_isTwice {b : UInt8} (h : isTwice b = true) : twice (b &&& 0xf) = b := by
  have hdigits : b >>> 4 = b &&& 0xf := of_decide_eq_true h
  calc twice (b &&& 0xf) = joined (b >>> 4) (b &&& 0xf) := by rw [joined, hdigits, twice]
    _ = b := joined_digits b

theorem lt_of_hexDigit? {c : Char} {d : UInt8} (h : hexDigit? c = some d) : d < 16 := by
  have hlt {n : ℕ} (hn : n < 16) : n.toUInt8 < 16 := by
    rw [UInt8.lt_iff_toNat_lt, UInt8.toNat_ofNat_of_lt' (hn.trans (by decide))]
    exact hn
  rw [hexDigit?] at h
  split at h
  · next hc =>
    have hle : c.toNat ≤ '9'.toNat := hc.2
    rw [← Option.some.inj h]
    exact hlt (by change c.toNat ≤ 57 at hle; change c.toNat - 48 < 16; omega)
  · split at h
    · next hc =>
      have hle : c.toNat ≤ 'f'.toNat := hc.2
      rw [← Option.some.inj h]
      exact hlt (by change c.toNat ≤ 102 at hle; change c.toNat - 97 + 10 < 16; omega)
    · split at h
      · next hc =>
        have hle : c.toNat ≤ 'F'.toNat := hc.2
        rw [← Option.some.inj h]
        exact hlt (by change c.toNat ≤ 70 at hle; change c.toNat - 65 + 10 < 16; omega)
      · cases h

/-! ## Texts of digits -/

/-- The digits that are written for some channels. -/
def shortDigits (channels : List UInt8) : List UInt8 :=
  if channels.all isTwice then channels.map (· &&& 0xf)
  else channels.flatMap fun (b : UInt8) => [b >>> 4, b &&& 0xf]

theorem hexText_eq (channels : List UInt8) :
    hexText channels = '#' :: (shortDigits channels).map hexChar := by
  rw [hexText, shortDigits]
  split
  · rw [List.map_map]
    rfl
  · rw [List.map_flatMap]
    rfl

theorem shortDigits_lt (channels : List UInt8) : ∀ d ∈ shortDigits channels, d < 16 := by
  intro d hd
  rw [shortDigits] at hd
  split at hd
  · obtain ⟨b, -, rfl⟩ := List.mem_map.1 hd
    exact (digits_lt b).2
  · obtain ⟨b, -, hd⟩ := List.mem_flatMap.1 hd
    obtain rfl | rfl : d = b >>> 4 ∨ d = b &&& 0xf := by simpa using hd
    · exact (digits_lt b).1
    · exact (digits_lt b).2

theorem mapM_hexDigit?_map_hexChar {ds : List UInt8} (h : ∀ d ∈ ds, d < 16) :
    (ds.map hexChar).mapM hexDigit? = some ds := by
  induction ds with
  | nil => rfl
  | cons d ds ih =>
    obtain ⟨hd, hds⟩ := List.forall_mem_cons.1 h
    rw [List.map_cons, List.mapM_cons, hexDigit?_hexChar hd, ih hds]
    rfl

theorem of_mapM_hexDigit? {cs : List Char} {ds : List UInt8} (h : cs.mapM hexDigit? = some ds) :
    ds.length = cs.length ∧ ∀ d ∈ ds, d < 16 := by
  induction cs generalizing ds with
  | nil =>
    obtain rfl := Option.some.inj h
    exact ⟨rfl, List.forall_mem_nil _⟩
  | cons c cs ih =>
    rw [List.mapM_cons, Option.bind_eq_bind, Option.bind_eq_some_iff] at h
    obtain ⟨d, hd, h⟩ := h
    obtain ⟨more, hmore, h⟩ := Option.bind_eq_some_iff.1 h
    obtain rfl := Option.some.inj h
    obtain ⟨hlength, hlt⟩ := ih hmore
    exact ⟨congrArg (· + 1) hlength, List.forall_mem_cons.2 ⟨lt_of_hexDigit? hd, hlt⟩⟩

/-- The channels are read from the digits that are written for them. -/
theorem ofRgbDigits?_shortDigits (r g b : UInt8) :
    ofRgbDigits? (shortDigits [r, g, b]) = some ⟨0xff, r, g, b⟩ := by
  rw [shortDigits]
  split
  · next h =>
    simp only [List.all_cons, List.all_nil, Bool.and_true, Bool.and_eq_true] at h
    obtain ⟨hr, hg, hb⟩ := h
    simp only [List.map_cons, List.map_nil, ofRgbDigits?, twice_of_isTwice hr,
      twice_of_isTwice hg, twice_of_isTwice hb]
  · simp only [List.flatMap_cons, List.flatMap_nil, List.cons_append, List.nil_append,
      ofRgbDigits?, joined_digits]

theorem ofArgbDigits?_shortDigits (a r g b : UInt8) :
    ofArgbDigits? (shortDigits [a, r, g, b]) = some ⟨a, r, g, b⟩ := by
  rw [shortDigits]
  split
  · next h =>
    simp only [List.all_cons, List.all_nil, Bool.and_true, Bool.and_eq_true] at h
    obtain ⟨ha, hr, hg, hb⟩ := h
    simp only [List.map_cons, List.map_nil, ofArgbDigits?, twice_of_isTwice ha,
      twice_of_isTwice hr, twice_of_isTwice hg, twice_of_isTwice hb]
  · simp only [List.flatMap_cons, List.flatMap_nil, List.cons_append, List.nil_append,
      ofArgbDigits?, joined_digits]

/-- Two digits are enough for a channel. -/
theorem length_shortDigits_le (channels : List UInt8) :
    (shortDigits channels).length ≤ 2 * channels.length := by
  rw [shortDigits]
  split
  · rw [List.length_map]
    omega
  · simp [List.length_flatMap, Nat.mul_comm]

/-- One digit is enough for a channel of two equal digits. -/
theorem length_shortDigits_map_twice {ds : List UInt8} (h : ∀ d ∈ ds, d < 16) :
    (shortDigits (ds.map twice)).length = ds.length := by
  have hall : (ds.map twice).all isTwice = true := by
    rw [List.all_map, List.all_eq_true]
    exact fun d hd => isTwice_twice (h d hd)
  rw [shortDigits, if_pos hall, List.length_map, List.length_map]

/-! ## Reading what is written -/

/-- Whether a character occurs in the texts of colors. -/
def isColorChar (c : Char) : Bool := c = '#' || isTextChar c

theorem isBlank_of_isColorChar {c : Char} (h : isColorChar c = true) :
    Text.isBlank c = false := by
  obtain h | h := Bool.or_eq_true_iff.1 h
  · rw [of_decide_eq_true h]
    decide
  · exact isBlank_of_isTextChar h

theorem isColorChar_hexText (channels : List UInt8) :
    ∀ c ∈ hexText channels, isColorChar c = true := by
  rw [hexText_eq]
  refine List.forall_mem_cons.2 ⟨rfl, List.forall_mem_map.2 fun d hd => ?_⟩
  rw [isColorChar, isTextChar_hexChar (shortDigits_lt channels d hd), Bool.or_true]

theorem trimList_hexText (channels : List UInt8) :
    Text.trimList (hexText channels) = hexText channels :=
  Text.trimList_of_forall fun c hc => isBlank_of_isColorChar (isColorChar_hexText channels c hc)

theorem ofArgbText?_hexText (channels : List UInt8) :
    ofArgbText? (.ofList (hexText channels)) = ofArgbDigits? (shortDigits channels) := by
  rw [ofArgbText?, String.toList_ofList, trimList_hexText, hexText_eq]
  simp only [mapM_hexDigit?_map_hexChar (shortDigits_lt channels), Option.bind_some]

theorem ofSvgText?_hexText (channels : List UInt8) :
    ofSvgText? (.ofList (hexText channels)) = ofRgbDigits? (shortDigits channels) := by
  rw [ofSvgText?, String.toList_ofList, trimList_hexText, hexText_eq]
  simp only [mapM_hexDigit?_map_hexChar (shortDigits_lt channels), Option.bind_some]

/-- What is read from the characters behind a hash is read from as many digits. -/
theorem exists_digits_of_bind {s : String} {cs : List Char} {c : Color}
    {read : List UInt8 → Option Color} (hcs : Text.trimList s.toList = '#' :: cs)
    (h : (cs.mapM hexDigit?).bind read = some c) :
    ∃ ds, (Text.trim s).length = ds.length + 1 ∧ (∀ d ∈ ds, d < 16) ∧ read ds = some c := by
  obtain ⟨ds, hds, hc⟩ := Option.bind_eq_some_iff.1 h
  obtain ⟨hlength, hlt⟩ := of_mapM_hexDigit? hds
  refine ⟨ds, ?_, hlt, hc⟩
  rw [Text.trim, String.length_ofList, hcs, List.length_cons, hlength]

theorem exists_of_ofArgbText? {s : String} {c : Color} (h : ofArgbText? s = some c) :
    ∃ ds, (Text.trim s).length = ds.length + 1 ∧ (∀ d ∈ ds, d < 16)
      ∧ ofArgbDigits? ds = some c := by
  rw [ofArgbText?] at h
  split at h
  · next cs hcs => exact exists_digits_of_bind hcs h
  · cases h

/-! ## With an alpha channel -/

/-- What is written for a color is read as that color. -/
theorem ofArgbText?_argbText (c : Color) : ofArgbText? c.argbText = some c := by
  rw [argbText, ofArgbText?_hexText]
  split
  · next hsolid =>
    have halpha : c.alpha = 0xff := of_decide_eq_true hsolid
    calc ofArgbDigits? (shortDigits [c.red, c.green, c.blue])
        = ofRgbDigits? (shortDigits [c.red, c.green, c.blue]) := by
          rw [shortDigits]
          split <;> rfl
      _ = some c := by rw [ofRgbDigits?_shortDigits, ← halpha]
  · exact ofArgbDigits?_shortDigits c.alpha c.red c.green c.blue

theorem length_argbText (c : Color) :
    c.argbText.length = (shortDigits (if c.isOpaque then [c.red, c.green, c.blue]
      else [c.alpha, c.red, c.green, c.blue])).length + 1 := by
  rw [argbText, String.length_ofList, hexText_eq, List.length_cons, List.length_map]

theorem of_ofRgbDigits? {ds : List UInt8} {c : Color} (h : ofRgbDigits? ds = some c)
    (hlt : ∀ d ∈ ds, d < 16) :
    c.isOpaque = true ∧ (shortDigits [c.red, c.green, c.blue]).length ≤ ds.length := by
  rw [ofRgbDigits?.eq_def] at h
  split at h
  · obtain rfl := Option.some.inj h
    exact ⟨rfl, (length_shortDigits_map_twice hlt).le⟩
  · obtain rfl := Option.some.inj h
    exact ⟨rfl, length_shortDigits_le _⟩
  · cases h

/-- A text that is read as a color has a digit for each one that is written. -/
theorem length_shortDigits_of_ofArgbDigits? {ds : List UInt8} {c : Color}
    (h : ofArgbDigits? ds = some c) (hlt : ∀ d ∈ ds, d < 16) :
    (shortDigits (if c.isOpaque then [c.red, c.green, c.blue]
      else [c.alpha, c.red, c.green, c.blue])).length ≤ ds.length := by
  rw [ofArgbDigits?.eq_def] at h
  split at h
  · next a r g b =>
    obtain rfl := Option.some.inj h
    obtain ⟨-, hrgb⟩ := List.forall_mem_cons.1 hlt
    split
    · exact (length_shortDigits_map_twice hrgb).le.trans (Nat.le_succ 3)
    · exact (length_shortDigits_map_twice hlt).le
  · obtain rfl := Option.some.inj h
    split
    · exact (length_shortDigits_le _).trans (Nat.le_add_right 6 2)
    · exact length_shortDigits_le _
  · obtain ⟨hsolid, hle⟩ := of_ofRgbDigits? h hlt
    rwa [if_pos hsolid]

/-- No text of a color is shorter than what is written for it. -/
theorem length_argbText_le {s : String} {c : Color} (h : ofArgbText? s = some c) :
    c.argbText.length ≤ (Text.trim s).length := by
  obtain ⟨ds, hlength, hlt, hc⟩ := exists_of_ofArgbText? h
  rw [length_argbText, hlength]
  exact Nat.add_le_add_right (length_shortDigits_of_ofArgbDigits? hc hlt) 1

/-! ## Names -/

/-- Every name is read as its color. -/
theorem ofSvgText?_name {entry : String × UInt32} (h : entry ∈ names) :
    ofSvgText? entry.1 = some (ofRgb entry.2) := by
  have hall : ∀ entry ∈ names, ofSvgText? entry.1 = some (ofRgb entry.2) := by decide +kernel
  exact hall entry h

section Shortest

/-- The shorter of a name and the best one before it, which stays if they are equally long. -/
def shorter (best : Option String) (name : String) : Option String :=
  match best with
  | some b => if name.length < b.length then some name else some b
  | none => some name

theorem mem_of_foldl_shorter {l : List String} {best : Option String} {name : String}
    (h : l.foldl shorter best = some name) : name ∈ l ∨ best = some name := by
  induction l generalizing best with
  | nil => exact .inr h
  | cons other l ih =>
    obtain hmem | hbest := ih h
    · exact .inl (List.mem_cons_of_mem _ hmem)
    · have hchoice : shorter best other = some other ∨ shorter best other = best := by
        cases best with
        | none => exact .inl rfl
        | some b =>
          rw [shorter]
          split
          · exact .inl rfl
          · exact .inr rfl
      obtain hother | hkept := hchoice
      · exact .inl (Option.some.inj (hother.symm.trans hbest) ▸ List.mem_cons_self)
      · exact .inr (hkept.symm.trans hbest)

/-- Nothing in a list, nor what was best before it, is shorter than the best of the list. -/
theorem length_foldl_shorter_le {l : List String} {best : Option String} {name : String}
    (h : name ∈ l ∨ best = some name) :
    ∃ b, l.foldl shorter best = some b ∧ b.length ≤ name.length := by
  induction l generalizing best name with
  | nil => exact ⟨name, h.resolve_left List.not_mem_nil, le_rfl⟩
  | cons other l ih =>
    have hstep : ∃ b, shorter best other = some b ∧ b.length ≤ other.length
        ∧ ∀ kept, best = some kept → b.length ≤ kept.length := by
      cases best with
      | none => exact ⟨other, rfl, le_rfl, nofun⟩
      | some kept =>
        rw [shorter]
        split
        · next hlt => exact ⟨other, rfl, le_rfl, fun _ hkept => Option.some.inj hkept ▸ hlt.le⟩
        · next hnot =>
          exact ⟨kept, rfl, Nat.le_of_not_lt hnot, fun _ hkept => Option.some.inj hkept ▸ le_rfl⟩
    obtain ⟨b, hb, hother, hkept⟩ := hstep
    obtain hmem | hbest := h
    · obtain rfl | hmem := List.mem_cons.1 hmem
      · obtain ⟨b', hb', hle⟩ := ih (.inr hb)
        exact ⟨b', hb', hle.trans hother⟩
      · exact ih (.inl hmem)
    · obtain ⟨b', hb', hle⟩ := ih (.inr hb)
      exact ⟨b', hb', hle.trans (hkept name hbest)⟩

theorem shortestName?_eq (c : Color) :
    c.shortestName? = (names.filterMap fun entry =>
      if ofRgb entry.2 = c then some entry.1 else none).foldl shorter none :=
  rfl

/-- What is chosen is a name of the color. -/
theorem mem_names_of_shortestName? {c : Color} {name : String} (h : c.shortestName? = some name) :
    ∃ entry ∈ names, entry.1 = name ∧ ofRgb entry.2 = c := by
  rw [shortestName?_eq] at h
  obtain hmem | hnone := mem_of_foldl_shorter h
  · obtain ⟨entry, hentry, hname⟩ := List.mem_filterMap.1 hmem
    obtain ⟨hcolor, hname⟩ := Option.ite_none_right_eq_some.1 hname
    exact ⟨entry, hentry, Option.some.inj hname, hcolor⟩
  · cases hnone

/-- No name of the color is shorter than the one that is chosen. -/
theorem exists_shortestName? {entry : String × UInt32} (h : entry ∈ names) :
    ∃ name, (ofRgb entry.2).shortestName? = some name ∧ name.length ≤ entry.1.length := by
  rw [shortestName?_eq]
  exact length_foldl_shorter_le (.inl (List.mem_filterMap.2 ⟨entry, h, if_pos rfl⟩))

end Shortest

/-! ## Without an alpha channel -/

/-- A color is read from three or six digits, or from a name of either case. -/
theorem exists_of_ofSvgText? {s : String} {c : Color} (h : ofSvgText? s = some c) :
    (∃ ds, (Text.trim s).length = ds.length + 1 ∧ (∀ d ∈ ds, d < 16) ∧ ofRgbDigits? ds = some c)
      ∨ ∃ entry ∈ names, (Text.trim s).length = entry.1.length ∧ ofRgb entry.2 = c := by
  rw [ofSvgText?] at h
  split at h
  · next cs hcs => exact .inl (exists_digits_of_bind hcs h)
  · obtain ⟨entry, hfind, hc⟩ := Option.map_eq_some_iff.1 h
    have hname : entry.1 = .ofList ((Text.trimList s.toList).map Char.toLower) := by
      simpa using List.find?_some hfind
    refine .inr ⟨entry, List.mem_of_find?_eq_some hfind, ?_, hc⟩
    rw [hname, Text.trim, String.length_ofList, String.length_ofList, List.length_map]

theorem isOpaque_of_ofSvgText? {s : String} {c : Color} (h : ofSvgText? s = some c) :
    c.isOpaque = true := by
  obtain ⟨ds, -, hlt, hc⟩ | ⟨entry, -, -, rfl⟩ := exists_of_ofSvgText? h
  · exact (of_ofRgbDigits? hc hlt).1
  · rfl

/-- The text of an opaque color is read as that color, and neither the digits nor a name of the
color is shorter. -/
theorem exists_svgText?_of_isOpaque {c : Color} (h : c.isOpaque = true) :
    ∃ t, c.svgText? = some t ∧ ofSvgText? t = some c
      ∧ t.length ≤ (shortDigits [c.red, c.green, c.blue]).length + 1
      ∧ ∀ name, c.shortestName? = some name → t.length ≤ name.length := by
  have hdigits : ofSvgText? (.ofList (hexText [c.red, c.green, c.blue])) = some c := by
    have halpha : c.alpha = 0xff := of_decide_eq_true h
    rw [ofSvgText?_hexText, ofRgbDigits?_shortDigits, ← halpha]
  have hlength : (String.ofList (hexText [c.red, c.green, c.blue])).length
      = (shortDigits [c.red, c.green, c.blue]).length + 1 := by
    rw [String.length_ofList, hexText_eq, List.length_cons, List.length_map]
  rw [svgText?, if_pos h, ← hlength]
  dsimp only
  split
  · next name hname =>
    obtain ⟨entry, hentry, rfl, rfl⟩ := mem_names_of_shortestName? hname
    split
    · next hlt =>
      refine ⟨_, rfl, ofSvgText?_name hentry, hlt.le, fun other hother => ?_⟩
      rw [Option.some.inj (hname.symm.trans hother)]
    · next hnot =>
      refine ⟨_, rfl, hdigits, le_rfl, fun other hother => ?_⟩
      rw [← Option.some.inj (hname.symm.trans hother)]
      exact Nat.le_of_not_lt hnot
  · next hnone =>
    exact ⟨_, rfl, hdigits, le_rfl, fun name hname => absurd (hnone.symm.trans hname) nofun⟩

theorem isColorChar_of_svgText? {c : Color} {t : String} (h : c.svgText? = some t) :
    ∀ ch ∈ t.toList, isColorChar ch = true := by
  have hnames : ∀ entry ∈ names, entry.1.toList.all isColorChar = true := by decide +kernel
  have hdigits : ∀ ch ∈ (String.ofList (hexText [c.red, c.green, c.blue])).toList,
      isColorChar ch = true := by
    rw [String.toList_ofList]
    exact isColorChar_hexText _
  rw [svgText?] at h
  split at h
  · dsimp only at h
    split at h
    · next name hname =>
      obtain ⟨entry, hentry, rfl, -⟩ := mem_names_of_shortestName? hname
      rw [← Option.some.inj h]
      split
      · exact List.all_eq_true.1 (hnames entry hentry)
      · exact hdigits
    · rwa [← Option.some.inj h]
  · cases h

/-- What is written for a color is read as that color, and no text of the color is shorter. -/
theorem exists_svgText? {s : String} {c : Color} (h : ofSvgText? s = some c) :
    ∃ t, c.svgText? = some t ∧ ofSvgText? t = some c ∧ t.length ≤ (Text.trim s).length := by
  obtain ⟨t, ht, hread, hdigits, hname⟩ := exists_svgText?_of_isOpaque (isOpaque_of_ofSvgText? h)
  refine ⟨t, ht, hread, ?_⟩
  obtain ⟨ds, hlength, hlt, hc⟩ | ⟨entry, hentry, hlength, rfl⟩ := exists_of_ofSvgText? h
  · rw [hlength]
    exact hdigits.trans (Nat.add_le_add_right (of_ofRgbDigits? hc hlt).2 1)
  · obtain ⟨name, hshortest, hle⟩ := exists_shortestName? hentry
    rw [hlength]
    exact (hname name hshortest).trans hle

end VectorGraphics.Color
