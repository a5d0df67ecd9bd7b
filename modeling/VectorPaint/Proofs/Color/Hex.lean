import Mathlib.Data.List.Basic
import VectorPaint.Color.Notation
import VectorPaint.Proofs.Text.Pieces
import VectorPaint.Proofs.PathData.Lengths

/-!
Colors as hexadecimal digits. A text of three, four, six or eight digits stands for the color whose
eight small digits it comes to once short forms are doubled and a missing alpha is filled in. The
written form of a color is the only one in small letters that leaves out just a full alpha, so it is
read back, and colors are the same if their written forms are.
-/
namespace VectorPaint.Rgba

section Digits

variable {c : Char} {n m : UInt8} {digits : List Char} {values : List UInt8}

/-- The characters that are digits, in either case. -/
def hexCharacters : List Char := "0123456789abcdefABCDEF".toList

theorem of_small (p : UInt8 → Prop) (all : ∀ k ∈ List.range 16, p (UInt8.ofNat k))
    (small : n < 16) : p n := by
  have member := all n.toNat (List.mem_range.mpr small)
  rwa [UInt8.ofNat_toNat] at member

theorem mem_of_hexDigit? (read : hexDigit? c = some n) : c ∈ hexCharacters := by
  unfold hexDigit? at read
  split at read
  · rename_i within
    exact of_between (· ∈ hexCharacters) (by decide) within
  · split at read
    · rename_i within
      exact of_between (· ∈ hexCharacters) (by decide) within
    · split at read
      · rename_i within
        exact of_between (· ∈ hexCharacters) (by decide) within
      · cases read

theorem mem_of_toLower (small : n < 16) (same : c.toLower = hexDigit n) : c ∈ hexCharacters := by
  have digit : hexDigit n ∈ hexCharacters :=
    of_small (fun n => hexDigit n ∈ hexCharacters) (by decide) small
  rw [← same] at digit
  by_cases capital : 'A' ≤ c ∧ c ≤ 'Z'
  · have lowered : c.toLower ∈ hexCharacters → c ∈ hexCharacters :=
      of_between (fun c => c.toLower ∈ hexCharacters → c ∈ hexCharacters) (by decide) capital
    exact lowered digit
  · have unchanged : c.toLower = c := dif_neg capital
    rwa [unchanged] at digit

/-- Each digit has one value, whichever case it is in. -/
theorem exists_value_of_mem (member : c ∈ hexCharacters) :
    ∃ n, n < 16 ∧ hexDigit? c = some n ∧ c.toLower = hexDigit n := by
  obtain ⟨k, small, value⟩ := of_mem (fun c => ∃ k ∈ List.range 16,
    hexDigit? c = some (UInt8.ofNat k) ∧ c.toLower = hexDigit (UInt8.ofNat k)) (by decide) member
  refine ⟨UInt8.ofNat k, ?_, value⟩
  have below := List.mem_range.mp small
  have size : k < UInt8.size := Nat.lt_trans below (by decide)
  rw [UInt8.lt_iff_toNat_lt, UInt8.toNat_ofNat_of_lt' size]
  exact below

theorem isHexDigit_iff : c.isHexDigit = true ↔ c ∈ hexCharacters := by
  constructor
  · intro digit
    simp only [Char.isHexDigit, Char.isDigit, Bool.or_eq_true, Bool.and_eq_true,
      decide_eq_true_eq] at digit
    rcases digit with (within | within) | within
    · exact of_between (a := '0') (b := '9') (· ∈ hexCharacters) (by decide) within
    · exact of_between (a := 'a') (b := 'f') (· ∈ hexCharacters) (by decide) within
    · exact of_between (a := 'A') (b := 'F') (· ∈ hexCharacters) (by decide) within
  · exact of_mem (·.isHexDigit = true) (by decide)

theorem hexDigit?_hexDigit (small : n < 16) : hexDigit? (hexDigit n) = some n :=
  of_small (fun n => hexDigit? (hexDigit n) = some n) (by decide) small

theorem hexDigit?_eq_some : hexDigit? c = some n ↔ n < 16 ∧ c.toLower = hexDigit n := by
  constructor
  · intro read
    obtain ⟨m, small, value, lowered⟩ := exists_value_of_mem (mem_of_hexDigit? read)
    obtain rfl : m = n := Option.some.inj (value.symm.trans read)
    exact ⟨small, lowered⟩
  · rintro ⟨small, lowered⟩
    obtain ⟨m, small', value, lowered'⟩ := exists_value_of_mem (mem_of_toLower small lowered)
    have same := congrArg hexDigit? (lowered'.symm.trans lowered)
    rw [hexDigit?_hexDigit small', hexDigit?_hexDigit small] at same
    rw [value, same]

theorem mapM_hexDigit? : digits.mapM hexDigit? = some values ↔
    (∀ n ∈ values, n < 16) ∧ digits.map Char.toLower = values.map hexDigit := by
  induction digits generalizing values with
  | nil => cases values <;> simp
  | cons c rest ih =>
    rw [List.mapM_cons]
    simp only [Option.bind_eq_bind, Option.bind_eq_some_iff, hexDigit?_eq_some, ih]
    constructor
    · rintro ⟨n, ⟨small, lowered⟩, more, ⟨smalls, lowereds⟩, made⟩
      cases made
      exact ⟨List.forall_mem_cons.mpr ⟨small, smalls⟩, congrArg₂ List.cons lowered lowereds⟩
    · rintro ⟨smalls, lowereds⟩
      cases values with
      | nil => cases lowereds
      | cons n more =>
        obtain ⟨small, smalls⟩ := List.forall_mem_cons.mp smalls
        obtain ⟨lowered, lowereds⟩ := List.cons.inj lowereds
        exact ⟨n, ⟨small, lowered⟩, more, ⟨smalls, lowereds⟩, rfl⟩

theorem exists_values (all : ∀ d ∈ digits, d.isHexDigit = true) :
    ∃ values, digits.mapM hexDigit? = some values := by
  induction digits with
  | nil => exact ⟨[], rfl⟩
  | cons d rest ih =>
    obtain ⟨digit, digits⟩ := List.forall_mem_cons.mp all
    obtain ⟨n, -, value, -⟩ := exists_value_of_mem (isHexDigit_iff.mp digit)
    obtain ⟨more, values⟩ := ih digits
    refine ⟨n :: more, ?_⟩
    rw [List.mapM_cons, value, values]
    rfl

end Digits

/-- All four channels of a text of digits, in small ones: each digit of a short form stands for two,
and an alpha that is missing is full. -/
def spelledOut (digits : List Char) : List Char :=
  let small := digits.map Char.toLower
  let pairs := if small.length ≤ 4 then small.flatMap fun d => [d, d] else small
  if pairs.length = 6 then pairs ++ ['f', 'f'] else pairs

/-- Digits that can be read as a color. -/
structure HexForm (digits : List Char) : Prop where
  length : digits.length ∈ [3, 4, 6, 8]
  digits : ∀ d ∈ digits, d.isHexDigit = true

/-- A number sign and these characters, between blanks. -/
def HexNotation (text : String) (digits : List Char) : Prop :=
  Text.trim text.toList = '#' :: digits

instance (text : String) (digits : List Char) : Decidable (HexNotation text digits) :=
  inferInstanceAs (Decidable (_ = _))

section Bytes

variable {high low n : UInt8}

theorem hexByte_pair (high_small : high < 16) (low_small : low < 16) :
    hexByte (high * 16 + low) = [hexDigit high, hexDigit low] := by
  have quotient : (high * 16 + low) / 16 = high := by grind
  have rest : (high * 16 + low) % 16 = low := by grind
  rw [hexByte, quotient, rest]

theorem hexByte_double (small : n < 16) : hexByte (n * 17) = [hexDigit n, hexDigit n] := by
  have parts : n * 17 = n * 16 + n := by grind
  rw [parts, hexByte_pair small small]

theorem halves_lt (n : UInt8) : n / 16 < 16 ∧ n % 16 < 16 := by
  grind

theorem eq_of_hexByte {a b : UInt8} (same : hexByte a = hexByte b) : a = b := by
  have value (n : UInt8) : n / 16 * 16 + n % 16 = n := by grind
  obtain ⟨high, low⟩ := List.cons.inj same
  have high := congrArg hexDigit? high
  have low := congrArg hexDigit? (List.cons.inj low).1
  rw [hexDigit?_hexDigit (halves_lt a).1, hexDigit?_hexDigit (halves_lt b).1] at high
  rw [hexDigit?_hexDigit (halves_lt a).2, hexDigit?_hexDigit (halves_lt b).2] at low
  rw [← value a, ← value b, Option.some.inj high, Option.some.inj low]

theorem hexDigits_eq (c : Rgba) :
    c.hexDigits = hexByte c.red ++ (hexByte c.green ++ (hexByte c.blue ++ hexByte c.alpha)) := by
  simp [hexDigits, channels]

theorem hexDigits_injective {c d : Rgba} (same : c.hexDigits = d.hexDigits) : c = d := by
  rw [hexDigits_eq, hexDigits_eq] at same
  obtain ⟨red, same⟩ := List.append_inj same rfl
  obtain ⟨green, same⟩ := List.append_inj same rfl
  obtain ⟨blue, alpha⟩ := List.append_inj same rfl
  cases c
  cases d
  rw [Rgba.mk.injEq]
  exact ⟨eq_of_hexByte red, eq_of_hexByte green, eq_of_hexByte blue, eq_of_hexByte alpha⟩

end Bytes

section Reading

variable {digits : List Char} {c : Rgba}

theorem HexForm.of_mapM {values : List UInt8} (read : digits.mapM hexDigit? = some values)
    (length : values.length ∈ [3, 4, 6, 8]) : HexForm digits := by
  obtain ⟨small, lowered⟩ := mapM_hexDigit?.mp read
  have lengths := congrArg List.length lowered
  rw [List.length_map, List.length_map] at lengths
  refine ⟨lengths ▸ length, fun d member => isHexDigit_iff.mpr ?_⟩
  have among : d.toLower ∈ values.map hexDigit := lowered ▸ List.mem_map_of_mem member
  obtain ⟨n, from_values, same⟩ := List.mem_map.mp among
  exact mem_of_toLower (small n from_values) same.symm

/-- What is read has the digits that were written, once they are spelled out. -/
theorem spelled_of_ofHexDigits? (read : ofHexDigits? digits = some c) :
    HexForm digits ∧ spelledOut digits = c.hexDigits := by
  obtain ⟨values, taken, made⟩ := Option.bind_eq_some_iff.mp read
  obtain ⟨small, lowered⟩ := mapM_hexDigit?.mp taken
  have full : hexByte 255 = ['f', 'f'] := by decide
  unfold spelledOut
  rw [lowered, hexDigits_eq]
  split at made
  case h_1 r g b =>
    cases made
    simp only [List.forall_mem_cons] at small
    exact ⟨.of_mapM taken (by simp), by simp [hexByte_double, small, full]⟩
  case h_2 r g b a =>
    cases made
    simp only [List.forall_mem_cons] at small
    exact ⟨.of_mapM taken (by simp), by simp [hexByte_double, small]⟩
  case h_3 r₁ r₀ g₁ g₀ b₁ b₀ =>
    cases made
    simp only [List.forall_mem_cons] at small
    exact ⟨.of_mapM taken (by simp), by simp [hexByte_pair, small, full]⟩
  case h_4 r₁ r₀ g₁ g₀ b₁ b₀ a₁ a₀ =>
    cases made
    simp only [List.forall_mem_cons] at small
    exact ⟨.of_mapM taken (by simp), by simp [hexByte_pair, small]⟩
  case h_5 => cases made

theorem HexForm.exists_color (form : HexForm digits) : ∃ c, ofHexDigits? digits = some c := by
  obtain ⟨values, taken⟩ := exists_values form.digits
  have lengths := congrArg List.length (mapM_hexDigit?.mp taken).2
  rw [List.length_map, List.length_map] at lengths
  have length := form.length
  rw [lengths] at length
  simp only [List.mem_cons, List.not_mem_nil, or_false] at length
  unfold ofHexDigits?
  rw [taken]
  rcases length with three | four | six | eight
  · match values, three with
    | [r, g, b], _ => exact ⟨_, rfl⟩
  · match values, four with
    | [r, g, b, a], _ => exact ⟨_, rfl⟩
  · match values, six with
    | [r₁, r₀, g₁, g₀, b₁, b₀], _ => exact ⟨_, rfl⟩
  · match values, eight with
    | [r₁, r₀, g₁, g₀, b₁, b₀, a₁, a₀], _ => exact ⟨_, rfl⟩

theorem ofHexDigits?_eq_some :
    ofHexDigits? digits = some c ↔ HexForm digits ∧ spelledOut digits = c.hexDigits := by
  refine ⟨spelled_of_ofHexDigits?, ?_⟩
  rintro ⟨form, spelled⟩
  obtain ⟨d, read⟩ := form.exists_color
  have same := (spelled_of_ofHexDigits? read).2.symm.trans spelled
  rw [read, hexDigits_injective same]

theorem parse_of_hexNotation {text : String} (noted : HexNotation text digits) :
    parse text = match ofHexDigits? digits with
      | some color => .ok color
      | none => .error (.invalidHex (String.ofList ('#' :: digits))) := by
  unfold parse parseBy
  rw [noted]
  rfl

theorem parse_hex_eq_ok {text : String} (noted : HexNotation text digits) :
    parse text = .ok c ↔ HexForm digits ∧ spelledOut digits = c.hexDigits := by
  rw [← ofHexDigits?_eq_some, parse_of_hexNotation noted]
  cases ofHexDigits? digits <;> simp

theorem parse_hex_eq_error {text : String} (noted : HexNotation text digits)
    (malformed : ¬ HexForm digits) :
    parse text = .error (.invalidHex (String.ofList ('#' :: digits))) := by
  have unread : ofHexDigits? digits = none := by
    cases read : ofHexDigits? digits with
    | none => rfl
    | some c => exact absurd (spelled_of_ofHexDigits? read).1 malformed
  rw [parse_of_hexNotation noted, unread]

theorem HexForm.exists_parse {text : String} (noted : HexNotation text digits)
    (form : HexForm digits) : ∃ c, parse text = .ok c := by
  obtain ⟨c, read⟩ := form.exists_color
  exact ⟨c, (parse_hex_eq_ok noted).mpr (ofHexDigits?_eq_some.mp read)⟩

theorem length_double (digits : List Char) :
    (digits.flatMap fun d => [d, d]).length = 2 * digits.length := by
  simp [List.length_flatMap, Nat.mul_comm]

/-- Doubled digits spell out the same color. -/
theorem form_double (short : digits.length = 3 ∨ digits.length = 4) :
    (HexForm digits ↔ HexForm (digits.flatMap fun d => [d, d])) ∧
      spelledOut digits = spelledOut (digits.flatMap fun d => [d, d]) := by
  have lowered : (digits.flatMap fun d => [d, d]).map Char.toLower =
      (digits.map Char.toLower).flatMap fun d => [d, d] := by
    rw [List.map_flatMap, List.flatMap_map]
    rfl
  constructor
  · constructor
    · rintro ⟨-, all⟩
      refine ⟨?_, by simpa using all⟩
      rw [length_double]
      rcases short with three | four <;> simp [*]
    · rintro ⟨-, all⟩
      refine ⟨?_, by simpa using all⟩
      rcases short with three | four <;> simp [*]
  · have few : (digits.map Char.toLower).length ≤ 4 := by
      rw [List.length_map]
      omega
    have many : ¬ ((digits.map Char.toLower).flatMap fun d => [d, d]).length ≤ 4 := by
      rw [length_double, List.length_map]
      omega
    simp only [spelledOut, lowered, if_pos few, if_neg many]

theorem hexDigits_eq_append (c : Rgba) :
    c.hexDigits = [c.red, c.green, c.blue].flatMap hexByte ++ hexByte c.alpha := by
  simp [hexDigits_eq]

/-- Without digits for it the alpha is full. -/
theorem alpha_of_spelledOut (brief : digits.length = 3 ∨ digits.length = 6)
    (spelled : spelledOut digits = c.hexDigits) : c.alpha = 255 := by
  have full : hexByte 255 = ['f', 'f'] := by decide
  have filled : ∃ front : List Char,
      front.length = 6 ∧ spelledOut digits = front ++ ['f', 'f'] := by
    rcases brief with three | six
    · refine ⟨(digits.map Char.toLower).flatMap fun d => [d, d], ?_, ?_⟩
      · rw [length_double, List.length_map, three]
      · simp only [spelledOut, List.length_map, three, Nat.reduceLeDiff, if_true, length_double]
    · exact ⟨digits.map Char.toLower, by simpa using six, by simp [spelledOut, six]⟩
  obtain ⟨front, length, parts⟩ := filled
  rw [parts, hexDigits_eq_append, ← full] at spelled
  exact eq_of_hexByte (List.append_inj spelled length).2.symm

end Reading

section Writing

variable {digits : List Char} {c : Rgba}

def smallDigits : List Char := "0123456789abcdef".toList

/-- The digits of the written form. -/
def textDigits (c : Rgba) : List Char :=
  (if c.isOpaque then [c.red, c.green, c.blue] else c.channels).flatMap hexByte

theorem text_eq (c : Rgba) : c.text = String.ofList ('#' :: c.textDigits) := rfl

theorem mem_smallDigits {n : UInt8} (small : n < 16) : hexDigit n ∈ smallDigits :=
  of_small (fun n => hexDigit n ∈ smallDigits) (by decide) small

theorem mem_smallDigits_of_mem_textDigits : ∀ d ∈ c.textDigits, d ∈ smallDigits := by
  intro d member
  obtain ⟨byte, -, digit⟩ := List.mem_flatMap.mp member
  rcases List.mem_cons.mp digit with rfl | digit
  · exact mem_smallDigits (halves_lt byte).1
  · rw [List.mem_singleton.mp digit]
    exact mem_smallDigits (halves_lt byte).2

theorem length_textDigits : c.textDigits.length = if c.alpha = 255 then 6 else 8 := by
  by_cases solid : c.alpha = 255 <;> simp [textDigits, isOpaque, channels, hexByte, solid]

/-- Small digits are read as they are. -/
theorem hexNotation_of_small (small : ∀ d ∈ digits, d ∈ smallDigits) :
    HexNotation (String.ofList ('#' :: digits)) digits := by
  have visible : ∀ d ∈ '#' :: digits, Text.isBlank d = false :=
    List.forall_mem_cons.mpr
      ⟨rfl, fun d member => of_mem (Text.isBlank · = false) (by decide) (small d member)⟩
  have trimmed : Text.Trimmed ('#' :: digits) [] ('#' :: digits) [] := by
    refine ⟨by simp, by simp, by simp, ?_, ?_⟩
    · exact fun d rest same => visible d (same ▸ List.mem_cons_self)
    · refine fun d rest same => visible d (List.mem_reverse.mp ?_)
      rw [same]
      exact List.mem_cons_self
  rw [HexNotation, String.toList_ofList]
  exact trimmed.trim_eq

theorem map_toLower_of_small (small : ∀ d ∈ digits, d ∈ smallDigits) :
    digits.map Char.toLower = digits := by
  have same : ∀ d ∈ digits, d.toLower = id d := fun d member =>
    of_mem (fun d => d.toLower = d) (by decide) (small d member)
  exact (List.map_congr_left same).trans (List.map_id digits)

theorem hexForm_of_small (small : ∀ d ∈ digits, d ∈ smallDigits)
    (length : digits.length = if c.alpha = 255 then 6 else 8) : HexForm digits := by
  refine ⟨?_, fun d member => of_mem (·.isHexDigit = true) (by decide) (small d member)⟩
  rw [length]
  split <;> decide

/-- Small digits for all channels, or for all but a full alpha, are told apart when spelled out. -/
theorem spelledOut_of_small (small : ∀ d ∈ digits, d ∈ smallDigits)
    (length : digits.length = if c.alpha = 255 then 6 else 8) :
    spelledOut digits = digits ++ if c.alpha = 255 then ['f', 'f'] else [] := by
  rw [spelledOut, map_toLower_of_small small]
  by_cases solid : c.alpha = 255
  · rw [if_pos solid] at length
    simp [length, solid]
  · rw [if_neg solid] at length
    simp [length, solid]

theorem spelledOut_textDigits (c : Rgba) : spelledOut c.textDigits = c.hexDigits := by
  have full : hexByte 255 = ['f', 'f'] := by decide
  rw [spelledOut_of_small mem_smallDigits_of_mem_textDigits length_textDigits]
  by_cases solid : c.alpha = 255
  · simp [textDigits, isOpaque, hexDigits_eq, solid, full]
  · simp [textDigits, isOpaque, hexDigits, solid]

/-- The written form is read back. -/
theorem parse_written (c : Rgba) : parse c.text = .ok c :=
  (parse_hex_eq_ok (hexNotation_of_small mem_smallDigits_of_mem_textDigits)).mpr
    ⟨hexForm_of_small mem_smallDigits_of_mem_textDigits length_textDigits, spelledOut_textDigits c⟩

theorem text_injective {c d : Rgba} (same : c.text = d.text) : c = d :=
  Except.ok.inj ((parse_written c).symm.trans ((congrArg parse same).trans (parse_written d)))

/-- No other digits than those of the written form are small, few and read as the color. -/
theorem text_eq_iff : c.text = String.ofList ('#' :: digits) ↔
    (∀ d ∈ digits, d ∈ smallDigits) ∧ digits.length = (if c.alpha = 255 then 6 else 8) ∧
      parse (String.ofList ('#' :: digits)) = .ok c := by
  constructor
  · intro written
    have same : c.textDigits = digits :=
      (List.cons.inj (String.ofList_injective written)).2
    subst same
    exact ⟨mem_smallDigits_of_mem_textDigits, length_textDigits, parse_written c⟩
  · rintro ⟨small, length, read⟩
    have spelled := ((parse_hex_eq_ok (hexNotation_of_small small)).mp read).2
    rw [← spelledOut_textDigits, spelledOut_of_small small length,
      spelledOut_of_small mem_smallDigits_of_mem_textDigits length_textDigits] at spelled
    rw [List.append_cancel_right spelled]
    rfl

end Writing

/-- The written form of a color is read back. A text with a number sign is accepted just if three,
four, six or eight digits of either case follow, and then it is the color with the same digits once
they are spelled out; any other such text is malformed. Doubled digits mean the same color, and a
missing alpha is full. Two texts mean the same color just if that is written the same, in the one
form of small digits that leaves out the alpha where it is full and nothing else. -/
theorem hex_text_decided :
    (∀ c, parse c.text = .ok c) ∧
    (∀ text digits, HexNotation text digits →
      (∀ c, parse text = .ok c ↔ HexForm digits ∧ spelledOut digits = c.hexDigits) ∧
      (HexForm digits → ∃ c, parse text = .ok c) ∧
      (¬ HexForm digits → parse text = .error (.invalidHex (String.ofList ('#' :: digits))))) ∧
    (∀ short long digits, HexNotation short digits →
      HexNotation long (digits.flatMap fun d => [d, d]) → digits.length = 3 ∨ digits.length = 4 →
        ∀ c, parse short = .ok c ↔ parse long = .ok c) ∧
    (∀ text digits c, HexNotation text digits → digits.length = 3 ∨ digits.length = 6 →
      parse text = .ok c → c.alpha = 255) ∧
    (∀ first second c d, parse first = .ok c → parse second = .ok d →
      (parse first = parse second ↔ c.text = d.text)) ∧
    ∀ c, (∃ digits, c.text = String.ofList ('#' :: digits)) ∧
      ∀ digits, c.text = String.ofList ('#' :: digits) ↔
        (∀ d ∈ digits, d ∈ smallDigits) ∧ digits.length = (if c.alpha = 255 then 6 else 8) ∧
          parse (String.ofList ('#' :: digits)) = .ok c := by
  refine ⟨parse_written, ?_, ?_, ?_, ?_, ?_⟩
  · intro text digits noted
    exact ⟨fun c => parse_hex_eq_ok noted, fun form => form.exists_parse noted,
      parse_hex_eq_error noted⟩
  · intro short long digits noted doubled brief c
    obtain ⟨form, spelled⟩ := form_double brief
    rw [parse_hex_eq_ok noted, parse_hex_eq_ok doubled, form, spelled]
  · intro text digits c noted brief read
    exact alpha_of_spelledOut brief ((parse_hex_eq_ok noted).mp read).2
  · intro first second c d read read'
    rw [read, read', Except.ok.injEq]
    exact ⟨congrArg text, text_injective⟩
  · exact fun c => ⟨⟨c.textDigits, c.text_eq⟩, fun digits => text_eq_iff⟩

/-- A short form of mixed case between blanks, the same with its digits doubled, and a form that is
too long by a character of two bytes. -/
theorem hex_text_mixedCase :
    HexNotation " #F0a\n" ['F', '0', 'a'] ∧ parse " #F0a\n" = .ok ⟨255, 0, 170, 255⟩ ∧
      parse "#FF00aa" = .ok ⟨255, 0, 170, 255⟩ ∧ (⟨255, 0, 170, 255⟩ : Rgba).text = "#ff00aa" ∧
      parse "#0é" = .error (.invalidHex "#0é") := by
  obtain ⟨-, read, doubled, -, -, written⟩ := hex_text_decided
  have noted : HexNotation " #F0a\n" ['F', '0', 'a'] := by decide
  have form : HexForm ['F', '0', 'a'] := ⟨by decide, List.all_eq_true.mp rfl⟩
  have short := ((read _ _ noted).1 ⟨255, 0, 170, 255⟩).mpr ⟨form, by decide⟩
  have long := (doubled _ "#FF00aa" _ noted (by decide) (by decide) _).mp short
  refine ⟨noted, short, long, ?_, ?_⟩
  · exact ((written ⟨255, 0, 170, 255⟩).2 ['f', 'f', '0', '0', 'a', 'a']).mpr
      ⟨fun _ => of_mem (· ∈ smallDigits) (by decide), by decide, by decide⟩
  · refine (read "#0é" ['0', 'é'] (by decide)).2.2 ?_
    rintro ⟨length, -⟩
    exact absurd length (by decide)

end VectorPaint.Rgba
