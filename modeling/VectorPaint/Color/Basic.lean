/-!
Colors of four bytes, with straight alpha. As hexadecimal digits a color has two for each channel,
or one that stands for itself twice, and the alpha is left out where it is full; writing uses small
letters and two digits, and leaves out a full alpha. Some colors have a name.
-/
namespace VectorPaint

structure Rgba where
  red : UInt8
  green : UInt8
  blue : UInt8
  alpha : UInt8
  deriving DecidableEq, Repr, Inhabited

namespace Rgba

def transparent : Rgba := ⟨0, 0, 0, 0⟩

def black : Rgba := ⟨0, 0, 0, 255⟩

def white : Rgba := ⟨255, 255, 255, 255⟩

def isOpaque (c : Rgba) : Bool := c.alpha == 255

def isTransparent (c : Rgba) : Bool := c.alpha == 0

/-- The channels in their written order. -/
def channels (c : Rgba) : List UInt8 := [c.red, c.green, c.blue, c.alpha]

/-- Colors are ordered by their first channel that differs. -/
instance : LT Rgba where
  lt a b := a.channels < b.channels

instance (a b : Rgba) : Decidable (a < b) := inferInstanceAs (Decidable (a.channels < b.channels))

/-- Multiplies the alpha by a factor between zero and one, to the nearest byte. -/
def withAlpha (c : Rgba) (factor : Float) : Rgba :=
  let factor := if factor < 0 then 0 else if 1 < factor then 1 else factor
  { c with alpha := (c.alpha.toFloat * factor + 0.5).toUInt8 }

/-- The value of a hexadecimal digit of either case. -/
def hexDigit? (c : Char) : Option UInt8 :=
  if '0' ≤ c ∧ c ≤ '9' then some (c.toNat - '0'.toNat).toUInt8
  else if 'a' ≤ c ∧ c ≤ 'f' then some (c.toNat - 'a'.toNat + 10).toUInt8
  else if 'A' ≤ c ∧ c ≤ 'F' then some (c.toNat - 'A'.toNat + 10).toUInt8
  else none

/-- The color of three, four, six or eight digits. -/
def ofHexDigits? (digits : List Char) : Option Rgba := do
  match ← digits.mapM hexDigit? with
  | [r, g, b] => some ⟨r * 17, g * 17, b * 17, 255⟩
  | [r, g, b, a] => some ⟨r * 17, g * 17, b * 17, a * 17⟩
  | [r₁, r₀, g₁, g₀, b₁, b₀] => some ⟨r₁ * 16 + r₀, g₁ * 16 + g₀, b₁ * 16 + b₀, 255⟩
  | [r₁, r₀, g₁, g₀, b₁, b₀, a₁, a₀] =>
    some ⟨r₁ * 16 + r₀, g₁ * 16 + g₀, b₁ * 16 + b₀, a₁ * 16 + a₀⟩
  | _ => none

/-- The small digit of a value below sixteen. -/
def hexDigit (n : UInt8) : Char :=
  if n < 10 then Char.ofNat ('0'.toNat + n.toNat) else Char.ofNat ('a'.toNat + (n.toNat - 10))

def hexByte (byte : UInt8) : List Char := [hexDigit (byte / 16), hexDigit (byte % 16)]

/-- All four channels as digits. -/
def hexDigits (c : Rgba) : List Char := c.channels.flatMap hexByte

/-- The one written form of a color. -/
def text (c : Rgba) : String :=
  let channels := if c.isOpaque then [c.red, c.green, c.blue] else c.channels
  String.ofList ('#' :: channels.flatMap hexByte)

/-- An opaque color from its three channels in one number. -/
def ofRgb (n : Nat) : Rgba := ⟨(n / 65536).toUInt8, (n / 256).toUInt8, n.toUInt8, 255⟩

def names : List (String × Rgba) :=
  [("aqua", ofRgb 0x00ffff), ("black", ofRgb 0x000000), ("blue", ofRgb 0x0000ff),
    ("brown", ofRgb 0xa52a2a), ("cyan", ofRgb 0x00ffff), ("darkgray", ofRgb 0xa9a9a9),
    ("darkgrey", ofRgb 0xa9a9a9), ("fuchsia", ofRgb 0xff00ff), ("gold", ofRgb 0xffd700),
    ("gray", ofRgb 0x808080), ("green", ofRgb 0x008000), ("grey", ofRgb 0x808080),
    ("indigo", ofRgb 0x4b0082), ("lightgray", ofRgb 0xd3d3d3), ("lightgrey", ofRgb 0xd3d3d3),
    ("lime", ofRgb 0x00ff00), ("magenta", ofRgb 0xff00ff), ("maroon", ofRgb 0x800000),
    ("navy", ofRgb 0x000080), ("olive", ofRgb 0x808000), ("orange", ofRgb 0xffa500),
    ("pink", ofRgb 0xffc0cb), ("purple", ofRgb 0x800080), ("red", ofRgb 0xff0000),
    ("silver", ofRgb 0xc0c0c0), ("teal", ofRgb 0x008080), ("transparent", transparent),
    ("violet", ofRgb 0xee82ee), ("white", ofRgb 0xffffff), ("yellow", ofRgb 0xffff00)]

/-- The color of a name in any mix of capital and small letters. -/
def ofName? (name : String) : Option Rgba :=
  names.lookup (String.ofList (name.toList.map Char.toLower))

end Rgba
end VectorPaint
