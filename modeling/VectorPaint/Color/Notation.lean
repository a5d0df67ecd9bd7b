import VectorPaint.Color.Basic
import VectorPaint.Decimal.Numeral
import VectorPaint.Scalar.Binary64
import VectorPaint.Text.Pieces

/-!
Written colors: a number sign with hexadecimal digits, a function of three or four numbers, or a
name. Blanks around a color are ignored. What a number is in a function is left to a reader of
numbers, which gets it in small letters.
-/
namespace VectorPaint

/-- What is wrong with a written color. Each cause holds the text without the blanks around it. -/
inductive ColorError where
  | invalidHex (text : String)
  | invalidFunction (text : String)
  | unknownName (text : String)
  deriving Repr, DecidableEq

def ColorError.message : ColorError → String
  | invalidHex text =>
    "color expected to be #RGB(A) or #RRGGBB(AA) in hexadecimal format: " ++ text
  | invalidFunction text => "malformed color function: " ++ text
  | unknownName text => "unknown color name: " ++ text

namespace Rgba

/-- An argument of a color function. -/
structure Argument where
  value : Float
  percent : Bool

/-- Reads a finite number with an optional percent sign behind it. -/
def Argument.read? (number? : List Char → Option Float) (text : List Char) : Option Argument :=
  let (digits, percent) :=
    match Text.beforeLast? '%' text with
    | some digits => (digits, true)
    | none => (text, false)
  match number? digits with
  | some value => if value.isFinite then some ⟨value, percent⟩ else none
  | none => none

/-- A color channel: a value up to 255 or a percentage, to the nearest byte. -/
def Argument.channel (argument : Argument) : UInt8 :=
  let value := if argument.percent then argument.value * 2.55 else argument.value
  (min (Binary64.round value).toNat 255).toUInt8

/-- The alpha: a value up to one or a percentage, to the nearest byte. -/
def Argument.alpha (argument : Argument) : UInt8 :=
  let value := if argument.percent then argument.value / 100 else argument.value
  let part := if value < 0 then 0 else if 1 < value then 1 else value
  (Binary64.round (part * 255)).toNat.toUInt8

def isArgumentSeparator (c : Char) : Bool :=
  c == ',' || c == '/' || c == ' ' || c == '\t' || c == '\n' || c == '\x0c' || c == '\r'

/-- The color of a function, from the text after its opening bracket. -/
def ofArguments? (number? : List Char → Option Float) (text : List Char) : Option Rgba := do
  let inside ← Text.beforeLast? ')' text
  let argument? := Argument.read? number?
  match Text.pieces isArgumentSeparator inside with
  | [r, g, b] =>
    return ⟨(← argument? r).channel, (← argument? g).channel, (← argument? b).channel, 255⟩
  | [r, g, b, a] =>
    return ⟨(← argument? r).channel, (← argument? g).channel, (← argument? b).channel,
      (← argument? a).alpha⟩
  | _ => none

/-- The text after the name and opening bracket of a color function, in small letters. -/
def afterFunctionName? (text : List Char) : Option (List Char) :=
  match text.map Char.toLower with
  | 'r' :: 'g' :: 'b' :: 'a' :: '(' :: rest => some rest
  | 'r' :: 'g' :: 'b' :: '(' :: rest => some rest
  | _ => none

/-- The color that a text without blanks around it stands for. -/
def ofTrimmed (number? : List Char → Option Float) (text : List Char) : Except ColorError Rgba :=
  match text with
  | '#' :: digits =>
    match ofHexDigits? digits with
    | some color => .ok color
    | none => .error (.invalidHex (String.ofList text))
  | _ =>
    match afterFunctionName? text with
    | some rest =>
      match ofArguments? number? rest with
      | some color => .ok color
      | none => .error (.invalidFunction (String.ofList text))
    | none =>
      match ofName? (String.ofList text) with
      | some color => .ok color
      | none => .error (.unknownName (String.ofList text))

/-- The color that a text stands for, with numbers as they are read by `number?`. -/
def parseBy (number? : List Char → Option Float) (text : String) : Except ColorError Rgba :=
  ofTrimmed number? (Text.trim text.toList)

/-- The color that a text stands for, with decimal numbers. -/
def parse (text : String) : Except ColorError Rgba := parseBy Decimal.Numeral.float? text

end Rgba
end VectorPaint
