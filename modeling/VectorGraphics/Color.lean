import VectorGraphics.Text.Search

/-!
# Colors

A `Color` has four channels of eight bits. It is read from hexadecimal digits with or without an
alpha channel (`ofArgbText?`), or as an SVG color without one (`ofSvgText?`), and written in the
shortest form: one digit per channel where every channel repeats its digit, and for SVG a color
name where it is shorter.
-/

namespace VectorGraphics

/-- A color with its opacity. -/
structure Color where
  /-- Opacity; 255 is opaque. -/
  alpha : UInt8
  red : UInt8
  green : UInt8
  blue : UInt8
  deriving DecidableEq, Repr

namespace Color

/-! ## Packed values -/

/-- The byte that begins at bit `8 * i` of a word. -/
def byteOf (n : UInt32) (i : UInt32) : UInt8 := (n >>> (8 * i)).toUInt8

/-- The color with channels packed from alpha down to blue. -/
def ofArgb (n : UInt32) : Color := ⟨byteOf n 3, byteOf n 2, byteOf n 1, byteOf n 0⟩

/-- The opaque color with packed channels red, green and blue; higher bits are ignored. -/
def ofRgb (n : UInt32) : Color := ⟨0xff, byteOf n 2, byteOf n 1, byteOf n 0⟩

/-- The channels packed from alpha down to blue. -/
def argb (c : Color) : UInt32 :=
  c.alpha.toUInt32 <<< 24 ||| c.red.toUInt32 <<< 16 ||| c.green.toUInt32 <<< 8 ||| c.blue.toUInt32

/-- Whether nothing shows through. -/
def isOpaque (c : Color) : Bool := c.alpha = 0xff

/-! ## Hexadecimal text -/

/-- The value of a hexadecimal digit of either case. -/
def hexDigit? (c : Char) : Option UInt8 :=
  if '0' ≤ c ∧ c ≤ '9' then some (c.toNat - '0'.toNat).toUInt8
  else if 'a' ≤ c ∧ c ≤ 'f' then some (c.toNat - 'a'.toNat + 10).toUInt8
  else if 'A' ≤ c ∧ c ≤ 'F' then some (c.toNat - 'A'.toNat + 10).toUInt8
  else none

/-- The lower-case hexadecimal digit of a value below 16. -/
def hexChar (n : UInt8) : Char :=
  if n < 10 then .ofNat ('0'.toNat + n.toNat) else .ofNat ('a'.toNat + n.toNat - 10)

/-- The byte with both digits `d`. -/
def twice (d : UInt8) : UInt8 := d <<< 4 ||| d

/-- The byte with digits `high` and `low`. -/
def joined (high low : UInt8) : UInt8 := high <<< 4 ||| low

/-- Whether both digits of a byte are the same. -/
def isTwice (n : UInt8) : Bool := n >>> 4 = n &&& 0xf

/-- The channels after `#`, one digit each if every channel repeats its digit, else two. -/
def hexText (channels : List UInt8) : List Char :=
  if channels.all isTwice then '#' :: channels.map fun (n : UInt8) => hexChar (n &&& 0xf)
  else '#' :: channels.flatMap fun (n : UInt8) => [hexChar (n >>> 4), hexChar (n &&& 0xf)]

/-- The shortest hexadecimal form. The alpha channel comes first, and only if the color is not
opaque. -/
def argbText (c : Color) : String :=
  .ofList (hexText (if c.isOpaque then [c.red, c.green, c.blue]
    else [c.alpha, c.red, c.green, c.blue]))

/-- The color written by three or six hexadecimal digits. -/
def ofRgbDigits? : List UInt8 → Option Color
  | [r, g, b] => some ⟨0xff, twice r, twice g, twice b⟩
  | [r, r', g, g', b, b'] => some ⟨0xff, joined r r', joined g g', joined b b'⟩
  | _ => none

/-- The color written by three, four, six or eight hexadecimal digits, alpha first. -/
def ofArgbDigits? : List UInt8 → Option Color
  | [a, r, g, b] => some ⟨twice a, twice r, twice g, twice b⟩
  | [a, a', r, r', g, g', b, b'] => some ⟨joined a a', joined r r', joined g g', joined b b'⟩
  | ds => ofRgbDigits? ds

/-- Reads `#rgb`, `#argb`, `#rrggbb` or `#aarrggbb`, with blanks around it. -/
def ofArgbText? (s : String) : Option Color :=
  match Text.trimList s.toList with
  | '#' :: cs => (cs.mapM hexDigit?).bind ofArgbDigits?
  | _ => none

/-! ## Color names -/

/-- The color names no longer than the shortest hexadecimal form of their color, with red, green
and blue. -/
def names : List (String × UInt32) :=
  [("red", 0xff0000), ("tan", 0xd2b48c), ("navy", 0x000080), ("teal", 0x008080),
   ("gray", 0x808080), ("grey", 0x808080), ("plum", 0xdda0dd), ("peru", 0xcd853f),
   ("gold", 0xffd700), ("pink", 0xffc0cb), ("snow", 0xfffafa), ("linen", 0xfaf0e6),
   ("white", 0xffffff), ("black", 0x000000), ("blue", 0x0000ff), ("lime", 0x00ff00),
   ("yellow", 0xffff00), ("cyan", 0x00ffff), ("aqua", 0x00ffff), ("magenta", 0xff00ff),
   ("fuchsia", 0xff00ff), ("orange", 0xffa500), ("green", 0x008000), ("purple", 0x800080),
   ("maroon", 0x800000), ("olive", 0x808000), ("silver", 0xc0c0c0)]

/-- Reads `#rgb`, `#rrggbb` or a known color name of either case, with blanks around it. -/
def ofSvgText? (s : String) : Option Color :=
  match Text.trimList s.toList with
  | '#' :: cs => (cs.mapM hexDigit?).bind ofRgbDigits?
  | cs =>
    let name := String.ofList (cs.map Char.toLower)
    (names.find? fun entry => entry.1 = name).map fun entry => ofRgb entry.2

/-- The first of the shortest names of a color. -/
def shortestName? (c : Color) : Option String :=
  (names.filterMap fun (name, rgb) => if ofRgb rgb = c then some name else none).foldl
    (fun best name =>
      match best with
      | some b => if name.length < b.length then some name else some b
      | none => some name)
    none

/-- The shortest SVG form of an opaque color: its name if one is shorter than the hexadecimal
form. -/
def svgText? (c : Color) : Option String :=
  if c.isOpaque then
    let hex := String.ofList (hexText [c.red, c.green, c.blue])
    match c.shortestName? with
    | some name => some (if name.length < hex.length then name else hex)
    | none => some hex
  else none

end Color

end VectorGraphics
