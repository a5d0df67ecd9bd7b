import Mathlib.Data.List.Perm.Basic
import Std.Data.HashMap.Lemmas
import Std.Data.TreeMap.Lemmas
import VectorPaint.Drawing.Painter
import VectorPaint.Proofs.Drawing.Checks

/-!
Which attributes matter. Attributes are only ever asked for by name, and each tag asks for a few
names of its own beside those of the style. Two containers that find the same values under these
names give the same elements, styles and shapes, and the same errors. So the order of the attributes
does not matter as long as no name occurs twice, nor does the kind of the container, nor does any
attribute with another name; of several pairs with the same name all but the first one are without
effect.
-/
namespace VectorPaint

/-- The names that are required of the element of a tag. -/
def Check.requiredNames (tag : String) : List String :=
  ((Check.geometry.lookup tag).getD []).map Check.name

/-- The names that a style is made from. -/
def Check.styleNames : List String := Check.style.map Check.name

variable {tag name value : String} {names : List String} {first second : Attributes}

/-- Both containers find the same values under some names. -/
def Attributes.Agree (names : List String) (first second : Attributes) : Prop :=
  ∀ name ∈ names, first.find? name = second.find? name

theorem Attributes.Agree.trans {third : Attributes} (agree : Agree names first second)
    (agree' : Agree names second third) : Agree names first third :=
  fun name named => (agree name named).trans (agree' name named)

section Readers

variable (element : String)

theorem Element.required_congr (same : first.find? name = second.find? name) :
    required first element name = required second element name := by
  rw [required, same, required]

theorem Element.number_congr (same : first.find? name = second.find? name) :
    number first element name = number second element name := by
  rw [number, required_congr element same, number]

theorem Element.size_congr (same : first.find? name = second.find? name) :
    size first element name = size second element name := by
  rw [size, required_congr element same, number_congr element same, size]

theorem Element.points_congr (same : first.find? "points" = second.find? "points") :
    points first element = points second element := by
  rw [points, required_congr element same, points]

/-- An element depends on the attributes that are required of its tag only. -/
theorem Element.read_congr (agree : Attributes.Agree (Check.requiredNames tag) first second) :
    read tag first = read tag second := by
  unfold read
  split
  case h_1 =>
    rw [number_congr "rect" (agree "x" (by decide)), number_congr "rect" (agree "y" (by decide)),
      size_congr "rect" (agree "width" (by decide)), size_congr "rect" (agree "height" (by decide))]
  case h_2 =>
    rw [number_congr "circle" (agree "cx" (by decide)),
      number_congr "circle" (agree "cy" (by decide)), size_congr "circle" (agree "r" (by decide))]
  case h_3 =>
    rw [number_congr "ellipse" (agree "cx" (by decide)),
      number_congr "ellipse" (agree "cy" (by decide)),
      size_congr "ellipse" (agree "rx" (by decide)), size_congr "ellipse" (agree "ry" (by decide))]
  case h_4 =>
    rw [number_congr "line" (agree "x1" (by decide)), number_congr "line" (agree "y1" (by decide)),
      number_congr "line" (agree "x2" (by decide)), number_congr "line" (agree "y2" (by decide))]
  case h_5 => rw [points_congr "polyline" (agree "points" (by decide))]
  case h_6 => rw [points_congr "polygon" (agree "points" (by decide))]
  case h_7 => rw [required_congr "path" (agree "d" (by decide))]
  case h_8 => rfl

theorem Style.opacity_congr (same : first.find? name = second.find? name) :
    opacity first name = opacity second name := by
  rw [opacity, same, opacity]

theorem Style.trimmed?_congr (same : first.find? name = second.find? name) :
    trimmed? first name = trimmed? second name := by
  rw [trimmed?, same, trimmed?]

theorem Style.paint_congr (absent : Option Rgba) (same : first.find? name = second.find? name) :
    paint first name absent = paint second name absent := by
  rw [paint, trimmed?_congr same, paint]

theorem Style.readStrokeWidth_congr
    (same : first.find? "stroke-width" = second.find? "stroke-width") :
    readStrokeWidth first = readStrokeWidth second := by
  rw [readStrokeWidth, same, readStrokeWidth]

theorem Style.readFillRule_congr (same : first.find? "fill-rule" = second.find? "fill-rule") :
    readFillRule first = readFillRule second := by
  rw [readFillRule, trimmed?_congr same, readFillRule]

theorem Style.read_congr (agree : Attributes.Agree Check.styleNames first second) :
    read first = read second := by
  rw [read, opacity_congr (agree "opacity" (by decide)),
    opacity_congr (agree "fill-opacity" (by decide)),
    opacity_congr (agree "stroke-opacity" (by decide)), paint_congr _ (agree "fill" (by decide)),
    paint_congr _ (agree "stroke" (by decide)),
    readStrokeWidth_congr (agree "stroke-width" (by decide)),
    readFillRule_congr (agree "fill-rule" (by decide)), read]

theorem Shape.read_congr (options : Options)
    (geometry : Attributes.Agree (Check.requiredNames tag) first second)
    (style : Attributes.Agree Check.styleNames first second) :
    read options tag first = read options tag second := by
  rw [read, Element.read_congr geometry, Style.read_congr style, read]

end Readers

section Containers

variable {pairs extra : List (String × String)} {held : Attributes}

/-- No two pairs give the name different values. -/
def OneValue (pairs : List (String × String)) (name : String) : Prop :=
  ∀ value value', (name, value) ∈ pairs → (name, value') ∈ pairs → value = value'

theorem OneValue.of_nodup (distinct : (pairs.map Prod.fst).Nodup) (name : String) :
    OneValue pairs name := by
  intro value value' here there
  have same := List.inj_on_of_nodup_map distinct here there rfl
  exact congrArg Prod.snd same

/-- A pair of a name with one value is found wherever it stands. -/
theorem OneValue.lookup_eq_some_iff (one : OneValue pairs name) :
    pairs.lookup name = some value ↔ (name, value) ∈ pairs := by
  induction pairs with
  | nil => simp
  | cons pair rest ih =>
    obtain ⟨key, found⟩ := pair
    have later : OneValue rest name := fun value value' here there =>
      one value value' (List.mem_cons_of_mem _ here) (List.mem_cons_of_mem _ there)
    rw [List.lookup_cons, List.mem_cons, Prod.mk.injEq]
    split
    · rename_i same
      have same := eq_of_beq same
      rw [Option.some_inj]
      constructor
      · intro valued
        exact .inl ⟨same, valued.symm⟩
      · rintro (⟨-, valued⟩ | there)
        · exact valued.symm
        · refine one found value ?_ (List.mem_cons_of_mem _ there)
          rw [same]
          exact List.mem_cons_self
    · rename_i other
      have other : name ≠ key := ne_of_beq_false other
      rw [ih later, or_iff_right (fun both => other both.1)]

/-- The containers that hold these pairs, in whatever order. -/
inductive Attributes.Holds (pairs : List (String × String)) : Attributes → Prop where
  | slice {list : List (String × String)} : list.Perm pairs → Holds pairs (ofPairs list)
  | hashMap {map : Std.HashMap String String} : (∀ pair, pair ∈ map.toList ↔ pair ∈ pairs) →
      Holds pairs (ofHashMap map)
  | treeMap {map : Std.TreeMap String String} : (∀ pair, pair ∈ map.toList ↔ pair ∈ pairs) →
      Holds pairs (ofTreeMap map)

/-- What a container finds under a name is told by the pairs in it. -/
theorem Attributes.Holds.find?_eq_some_iff (holds : Holds pairs held) (one : OneValue pairs name) :
    held.find? name = some value ↔ (name, value) ∈ pairs := by
  cases holds with
  | slice order =>
    have one' : OneValue _ name := fun value value' here there =>
      one value value' (order.mem_iff.mp here) (order.mem_iff.mp there)
    exact one'.lookup_eq_some_iff.trans order.mem_iff
  | hashMap same => exact Std.HashMap.mem_toList_iff_getElem?_eq_some.symm.trans (same _)
  | treeMap same => exact Std.TreeMap.mem_toList_iff_getElem?_eq_some.symm.trans (same _)

/-- The answer of a map that answers for the names of all pairs, and for no others. -/
theorem answer_eq_some_iff_mem {answer : Option String}
    (put : ∀ value, (name, value) ∈ pairs → answer = some value)
    (absent : (pairs.map Prod.fst).contains name = false → answer = none) :
    answer = some value ↔ (name, value) ∈ pairs := by
  constructor
  · intro found
    by_cases there : (pairs.map Prod.fst).contains name
    · obtain ⟨⟨_, value'⟩, member, rfl⟩ := List.mem_map.mp (List.contains_iff_mem.mp there)
      rw [put value' member, Option.some_inj] at found
      rwa [← found]
    · rw [absent (Bool.eq_false_of_not_eq_true there)] at found
      cases found
  · exact put value

/-- Maps that are made from pairs hold them. -/
theorem Attributes.holds_hashMap_ofList (distinct : (pairs.map Prod.fst).Nodup) :
    Holds pairs (ofHashMap (.ofList pairs)) := by
  have apart : pairs.Pairwise fun a b => (a.1 == b.1) = false :=
    (List.pairwise_map.mp distinct).imp beq_false_of_ne
  refine .hashMap ?_
  rintro ⟨name, value⟩
  rw [Std.HashMap.mem_toList_iff_getElem?_eq_some]
  apply answer_eq_some_iff_mem
  · intro value'
    exact Std.HashMap.getElem?_ofList_of_mem BEq.rfl apart
  · exact Std.HashMap.getElem?_ofList_of_contains_eq_false

theorem Attributes.holds_treeMap_ofList (distinct : (pairs.map Prod.fst).Nodup) :
    Holds pairs (ofTreeMap (.ofList pairs)) := by
  have apart : pairs.Pairwise fun a b => ¬ compare a.1 b.1 = .eq :=
    (List.pairwise_map.mp distinct).imp fun differ same =>
      differ (Std.LawfulEqCmp.eq_of_compare same)
  refine .treeMap ?_
  rintro ⟨name, value⟩
  rw [Std.TreeMap.mem_toList_iff_getElem?_eq_some]
  apply answer_eq_some_iff_mem
  · intro value'
    exact Std.TreeMap.getElem?_ofList_of_mem Std.ReflCmp.compare_self apart
  · exact Std.TreeMap.getElem?_ofList_of_contains_eq_false

theorem Attributes.Holds.agree (holds : Holds (pairs ++ extra) held)
    (distinct : (pairs.map Prod.fst).Nodup) (unrelated : ∀ pair ∈ extra, pair.1 ∉ names) :
    Agree names held (ofPairs pairs) := by
  intro name named
  have inside : ∀ value, (name, value) ∈ pairs ++ extra ↔ (name, value) ∈ pairs := by
    intro value
    rw [List.mem_append, or_iff_left]
    intro there
    exact unrelated _ there named
  have one := OneValue.of_nodup distinct name
  have one' : OneValue (pairs ++ extra) name := fun value value' here there =>
    one value value' ((inside value).mp here) ((inside value').mp there)
  apply Option.ext
  intro value
  rw [holds.find?_eq_some_iff one', inside]
  exact one.lookup_eq_some_iff.symm

theorem Attributes.contains_eq_false (unrelated : ∀ pair ∈ extra, pair.1 ∉ names)
    (named : name ∈ names) : (extra.map Prod.fst).contains name = false := by
  rw [← Bool.not_eq_true, List.contains_iff_mem, List.mem_map]
  rintro ⟨pair, member, rfl⟩
  exact unrelated pair member named

theorem Attributes.agree_hashMap_insertMany (map : Std.HashMap String String)
    (unrelated : ∀ pair ∈ extra, pair.1 ∉ names) :
    Agree names (ofHashMap (map.insertMany extra)) (ofHashMap map) := by
  intro name named
  exact Std.HashMap.getElem?_insertMany_list_of_contains_eq_false
    (contains_eq_false unrelated named)

theorem Attributes.agree_treeMap_insertMany (map : Std.TreeMap String String)
    (unrelated : ∀ pair ∈ extra, pair.1 ∉ names) :
    Agree names (ofTreeMap (map.insertMany extra)) (ofTreeMap map) := by
  intro name named
  exact Std.TreeMap.getElem?_insertMany_list_of_contains_eq_false
    (contains_eq_false unrelated named)

/-- Both containers give the same element of a tag, the same style and the same shapes, or the same
errors. -/
structure Attributes.ReadAlike (tag : String) (first second : Attributes) : Prop where
  element : Element.read tag first = Element.read tag second
  style : Style.read first = Style.read second
  shape : ∀ options, Shape.read options tag first = Shape.read options tag second

theorem Attributes.Agree.readAlike
    (agree : Agree (Check.requiredNames tag ++ Check.styleNames) first second) :
    ReadAlike tag first second := by
  have geometry : Agree (Check.requiredNames tag) first second := fun name named =>
    agree name (List.mem_append_left _ named)
  have style : Agree Check.styleNames first second := fun name named =>
    agree name (List.mem_append_right _ named)
  exact ⟨Element.read_congr geometry, Style.read_congr style,
    fun options => Shape.read_congr options geometry style⟩

/-- A name that is there already is found where it was. -/
theorem Attributes.agree_append_of_mem (there : name ∈ pairs.map Prod.fst) (value : String) :
    Agree names (ofPairs (pairs ++ [(name, value)])) (ofPairs pairs) := by
  intro asked _
  change (pairs ++ [(name, value)]).lookup asked = pairs.lookup asked
  rw [List.lookup_append]
  by_cases same : asked = name
  · obtain ⟨pair, member, rfl⟩ := List.mem_map.mp there
    have found : (pairs.lookup asked).isSome = true := by
      rw [List.lookup_isSome_iff]
      exact ⟨pair, member, beq_iff_eq.mpr same⟩
    obtain ⟨value', found⟩ := Option.isSome_iff_exists.mp found
    rw [found, Option.some_or]
  · have last : List.lookup asked [(name, value)] = none := by
      rw [List.lookup_eq_none_iff]
      intro pair member
      rw [List.mem_singleton.mp member, bne_iff_ne]
      exact same
    rw [last, Option.or_none]

/-- Neither the order of attributes nor their container matters, nor do further pairs with a name
that is there already or with a name that nobody asks for. -/
theorem Attributes.readAlike_of_distinct (pairs : List (String × String)) (tag : String)
    (distinct : (pairs.map Prod.fst).Nodup) :
    (∀ held, Holds pairs held → ReadAlike tag held (ofPairs pairs)) ∧
    (∀ name value, name ∈ pairs.map Prod.fst →
      ReadAlike tag (ofPairs (pairs ++ [(name, value)])) (ofPairs pairs)) ∧
    ∀ extra : List (String × String),
      (∀ pair ∈ extra, pair.1 ∉ Check.requiredNames tag ∧ pair.1 ∉ Check.styleNames) →
      (∀ held, Holds (pairs ++ extra) held → ReadAlike tag held (ofPairs pairs)) ∧
      (∀ map, Holds pairs (ofHashMap map) →
        ReadAlike tag (ofHashMap (map.insertMany extra)) (ofPairs pairs)) ∧
      ∀ map, Holds pairs (ofTreeMap map) →
        ReadAlike tag (ofTreeMap (map.insertMany extra)) (ofPairs pairs) := by
  have plain : ∀ {names held}, Holds pairs held → Agree names held (ofPairs pairs) := by
    intro names held holds
    rw [← List.append_nil pairs] at holds
    exact holds.agree distinct nofun
  refine ⟨?_, ?_, ?_⟩
  · intro held holds
    exact (plain holds).readAlike
  · intro name value there
    exact (agree_append_of_mem there value).readAlike
  · intro extra strange
    have unrelated : ∀ pair ∈ extra, pair.1 ∉ Check.requiredNames tag ++ Check.styleNames := by
      intro pair member
      rw [List.mem_append, not_or]
      exact strange pair member
    refine ⟨?_, ?_, ?_⟩
    · intro held holds
      exact (holds.agree distinct unrelated).readAlike
    · intro map holds
      exact ((agree_hashMap_insertMany map unrelated).trans (plain holds)).readAlike
    · intro map holds
      exact ((agree_treeMap_insertMany map unrelated).trans (plain holds)).readAlike

/-- The attributes of a circle. -/
def circlePairs : List (String × String) := [("cx", "2"), ("cy", "3"), ("r", "1")]

/-- A circle is the same in another order and in either kind of map, with a name that no circle asks
for, and with a second radius behind the first. -/
theorem Attributes.readAlike_circle :
    ReadAlike "circle" (ofPairs [("cy", "3"), ("r", "1"), ("cx", "2")]) (ofPairs circlePairs) ∧
      ReadAlike "circle" (ofHashMap (.ofList circlePairs)) (ofPairs circlePairs) ∧
      ReadAlike "circle" (ofTreeMap (.ofList circlePairs)) (ofPairs circlePairs) ∧
      ReadAlike "circle" (ofPairs (circlePairs ++ [("r", "5")])) (ofPairs circlePairs) ∧
      ReadAlike "circle" (ofHashMap ((Std.HashMap.ofList circlePairs).insertMany [("rx", "7")]))
        (ofPairs circlePairs) ∧
      ReadAlike "circle" (ofTreeMap ((Std.TreeMap.ofList circlePairs).insertMany [("rx", "7")]))
        (ofPairs circlePairs) := by
  have distinct : (circlePairs.map Prod.fst).Nodup := by decide
  have hashed := holds_hashMap_ofList distinct
  have sorted := holds_treeMap_ofList distinct
  have strange : ∀ pair ∈ [("rx", "7")],
      pair.1 ∉ Check.requiredNames "circle" ∧ pair.1 ∉ Check.styleNames := by decide
  obtain ⟨alike, repeated, extended⟩ := readAlike_of_distinct circlePairs "circle" distinct
  obtain ⟨-, hashedMore, sortedMore⟩ := extended _ strange
  exact ⟨alike _ (.slice (by decide)), alike _ hashed, alike _ sorted,
    repeated "r" "5" (by decide), hashedMore _ hashed, sortedMore _ sorted⟩

end Containers
end VectorPaint
