import VectorPaint.Color.Basic

/-!
Colors in linear light, premultiplied by their alpha, in single precision. Colors are blended in
this form. The brightness of colors tells which of two colors stands out from a third.
-/
namespace VectorPaint

structure LinearColor where
  red : Float32
  green : Float32
  blue : Float32
  alpha : Float32

namespace LinearColor

/-- The stored channel of an amount of light: a straight line near zero, and above it a sum of
roots fitted to the power curve of the standard. -/
def encode (light : Float32) : Float32 :=
  if light ≤ 0.0031308 then light * 12.92
  else
    let root2 := light.sqrt
    let root4 := root2.sqrt
    let root8 := root4.sqrt
    0.6445592 * root2 - 0.01848558 * light + 0.70994765 * root4 - 0.33605254 * root8

/-- The amount of light of a stored channel. -/
def decode (channel : Float32) : Float32 :=
  if channel ≤ 0.04045 then channel / 12.92 else ((channel + 0.055) / 1.055).pow 2.4

/-- The distance between 1 and the next number. An alpha up to it counts as none. -/
def epsilon : Float32 := 1.1920929e-7

/-- A byte as a part of one. -/
def ofByte (byte : UInt8) : Float32 := byte.toFloat32 / 255

/-- The byte nearest to a part of one. -/
def toByte (part : Float32) : UInt8 := (part * 255 + 0.5).toUInt8

def ofRgba (c : Rgba) : LinearColor :=
  let alpha := ofByte c.alpha
  ⟨decode (ofByte c.red) * alpha, decode (ofByte c.green) * alpha, decode (ofByte c.blue) * alpha,
    alpha⟩

/-- The byte of a premultiplied channel. -/
def channelByte (alpha value : Float32) : UInt8 :=
  let straight := value / alpha
  toByte (encode (if straight < 0 then 0 else if 1 < straight then 1 else straight))

/-- The nearest color of four bytes. Almost no alpha is none at all. -/
def toRgba (c : LinearColor) : Rgba :=
  if c.alpha ≤ epsilon then .transparent
  else
    let alpha := if c.alpha < 1 then c.alpha else 1
    ⟨channelByte alpha c.red, channelByte alpha c.green, channelByte alpha c.blue, toByte alpha⟩

instance : Add LinearColor where
  add a b := ⟨a.red + b.red, a.green + b.green, a.blue + b.blue, a.alpha + b.alpha⟩

/-- Multiplies all channels, alpha included. -/
def scale (c : LinearColor) (k : Float32) : LinearColor :=
  ⟨c.red * k, c.green * k, c.blue * k, c.alpha * k⟩

/-- Lays `top` over a color: what `top` lets through of the color is added to it. -/
def blend (c top : LinearColor) : LinearColor := top + c.scale (1 - top.alpha)

end LinearColor

/-- Lays `top` over a color. -/
def Rgba.blend (c top : Rgba) : Rgba :=
  ((LinearColor.ofRgba c).blend (LinearColor.ofRgba top)).toRgba

/-- The weighted sum of the stored channels; alpha does not matter. -/
def Rgba.luma (c : Rgba) : Float32 :=
  0.2126 * LinearColor.ofByte c.red + 0.7152 * LinearColor.ofByte c.green +
    0.0722 * LinearColor.ofByte c.blue

def LinearColor.luma (c : LinearColor) : Float32 := c.toRgba.luma

/-- The one of two candidates whose brightness is further away; the first one of equals. -/
def contrasting {κ : Type} (luma : κ → Float32) (c first second : κ) : κ :=
  if (luma c - luma first).abs < (luma c - luma second).abs then second else first

def Rgba.contrasting (c first second : Rgba) : Rgba :=
  VectorPaint.contrasting luma c first second

def LinearColor.contrasting (c first second : LinearColor) : LinearColor :=
  VectorPaint.contrasting luma c first second

/-- The numbers of three channels for a terminal. -/
def Rgba.terminalChannels (c : Rgba) : String :=
  toString c.red ++ ";" ++ toString c.green ++ ";" ++ toString c.blue

/-- The text of a color on a ground of that color, for a terminal. -/
def Rgba.swatch (c : Rgba) : String :=
  let ink := c.contrasting white black
  "\x1b[38;2;" ++ ink.terminalChannels ++ ";48;2;" ++ c.terminalChannels ++ "m" ++ c.text ++
    "\x1b[m"

end VectorPaint
