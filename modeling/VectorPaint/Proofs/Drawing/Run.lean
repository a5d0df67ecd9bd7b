import VectorPaint.Proofs.Drawing.Layers

/-!
Runs of a painter. Each element of a run is drawn, ignored or dropped, and the report tells how
often each happened and which elements were dropped and why. Elements that are not drawn leave the
canvas as it is, so a run ends with the canvas that the drawn ones alone would give.
-/
namespace VectorPaint

/-- How many elements a report tells of. -/
def Report.count (report : Report) : ℕ :=
  report.drawn + report.ignored + report.dropped.size

/-- The entry in the report of an element in a given place, if it is dropped. -/
def Options.entry? (options : Options) (placed : (String × Attributes) × ℕ) : Option Dropped :=
  match Shape.read options placed.1.1 placed.1.2 with
  | .ok _ => none
  | .error error => some ⟨placed.2, placed.1.1, error⟩

theorem Options.entry?_eq_some {options : Options} {placed : (String × Attributes) × ℕ}
    {dropped : Dropped} :
    options.entry? placed = some dropped ↔
      placed.2 = dropped.index ∧ placed.1.1 = dropped.element ∧
        Shape.read options placed.1.1 placed.1.2 = .error dropped.error := by
  obtain ⟨index, tag, cause⟩ := dropped
  unfold entry?
  cases Shape.read options placed.1.1 placed.1.2 <;> simp

/-- An element is drawn. -/
def Options.draws (options : Options) (element : String × Attributes) : Bool :=
  match Shape.read options element.1 element.2 with
  | .ok (some _) => true
  | _ => false

theorem Options.layers_of_not_draws {options : Options} {element : String × Attributes}
    (refused : options.draws element = false) : options.layers element = [] := by
  unfold draws at refused
  unfold layers
  split
  · rename_i read
    rw [read] at refused
    cases refused
  · rfl

theorem Options.pile_filter_draws (options : Options) (elements : List (String × Attributes)) :
    options.pile (elements.filter options.draws) = options.pile elements := by
  induction elements with
  | nil => rfl
  | cons element rest ih =>
    rw [List.filter_cons]
    unfold pile at ih ⊢
    split
    · rw [List.flatMap_cons, List.flatMap_cons, ih]
    · rename_i refused
      rw [List.flatMap_cons, ih, layers_of_not_draws (Bool.eq_false_iff.mpr refused),
        List.nil_append]

theorem Canvas.size_foldl_paintLayer (canvas : Canvas) (layers : List Layer) :
    (layers.foldl paintLayer canvas).width = canvas.width ∧
      (layers.foldl paintLayer canvas).height = canvas.height := by
  induction layers generalizing canvas with
  | nil => exact ⟨rfl, rfl⟩
  | cons layer rest ih =>
    obtain ⟨width, height⟩ := ih (canvas.paintLayer layer)
    exact ⟨width.trans width_paintLayer, height.trans height_paintLayer⟩

namespace Painter

/-- Whether each element of a run is drawn, as it is told one after the other. -/
def answers (painter : Painter) : List (String × Attributes) → List Bool
  | [] => []
  | element :: rest =>
    (painter.draw element.1 element.2).1 ::
      answers (painter.draw element.1 element.2).2 rest

theorem drawEach_append (painter : Painter) (first second : List (String × Attributes)) :
    painter.drawEach (first ++ second) = (painter.drawEach first).drawEach second :=
  List.foldl_append

/-- What drawing an element does to the painter. -/
theorem draw_report (painter : Painter) (element : String × Attributes) :
    let after := painter.draw element.1 element.2
    after.1 = painter.options.draws element ∧
      after.2.index = painter.index + 1 ∧ after.2.report.count = painter.report.count + 1 ∧
      after.2.report.drawn = painter.report.drawn + (painter.options.draws element).toNat ∧
      after.2.report.dropped.toList = painter.report.dropped.toList ++
        (painter.options.entry? (element, painter.index)).toList := by
  obtain ⟨options, canvas, report, index⟩ := painter
  unfold draw Options.draws Options.entry?
  simp only
  cases Shape.read options element.1 element.2 with
  | error cause =>
    simp [Report.count]
    omega
  | ok shape => cases shape <;> simp [Report.count] <;> omega

/-- An element that is not drawn leaves the canvas as it is. -/
theorem canvas_draw_of_refused {painter : Painter} {element : String × Attributes}
    (refused : (painter.draw element.1 element.2).1 = false) :
    (painter.draw element.1 element.2).2.canvas = painter.canvas := by
  rw [(painter.draw_report element).1] at refused
  rw [(painter.draw_layers element).2, Options.layers_of_not_draws refused]
  rfl

@[simp] theorem options_drawEach (painter : Painter) (elements : List (String × Attributes)) :
    (painter.drawEach elements).options = painter.options := by
  induction elements generalizing painter with
  | nil => rfl
  | cons element rest ih => exact (ih _).trans (painter.draw_layers element).1

theorem size_drawEach (painter : Painter) (elements : List (String × Attributes)) :
    (painter.drawEach elements).canvas.width = painter.canvas.width ∧
      (painter.drawEach elements).canvas.height = painter.canvas.height := by
  rw [canvas_drawEach]
  exact Canvas.size_foldl_paintLayer ..

theorem answers_eq (painter : Painter) (elements : List (String × Attributes)) :
    painter.answers elements = elements.map painter.options.draws := by
  induction elements generalizing painter with
  | nil => rfl
  | cons element rest ih =>
    rw [answers, ih, (painter.draw_layers element).1, (painter.draw_report element).1,
      List.map_cons]

/-- The elements that are told to be drawn are those that can be. -/
theorem zip_answers (painter : Painter) (elements : List (String × Attributes)) :
    ((elements.zip (painter.answers elements)).filter Prod.snd).map Prod.fst =
      elements.filter painter.options.draws := by
  rw [answers_eq]
  induction elements with
  | nil => rfl
  | cons element rest ih =>
    rw [List.map_cons, List.zip_cons_cons, List.filter_cons, List.filter_cons]
    split
    · rw [List.map_cons, ih]
    · exact ih

/-- Every element moves the index on by one, and so it does the number of those in the report. -/
theorem count_drawEach (painter : Painter) (elements : List (String × Attributes)) :
    (painter.drawEach elements).index = painter.index + elements.length ∧
      (painter.drawEach elements).report.count = painter.report.count + elements.length := by
  induction elements generalizing painter with
  | nil => exact ⟨rfl, rfl⟩
  | cons element rest ih =>
    obtain ⟨-, index, count, -⟩ := painter.draw_report element
    obtain ⟨index', count'⟩ := ih (painter.draw element.1 element.2).2
    rw [index, Nat.add_right_comm] at index'
    rw [count, Nat.add_right_comm] at count'
    exact ⟨index', count'⟩

theorem drawn_drawEach (painter : Painter) (elements : List (String × Attributes)) :
    (painter.drawEach elements).report.drawn =
      painter.report.drawn + elements.countP painter.options.draws := by
  induction elements generalizing painter with
  | nil => rfl
  | cons element rest ih =>
    rw [drawEach_cons, ih, (painter.draw_report element).2.2.2.1, (painter.draw_layers element).1,
      List.countP_cons]
    cases painter.options.draws element with
    | false => rfl
    | true => exact Nat.add_right_comm ..

/-- The report lists the elements of a run that are dropped, in their places. -/
theorem dropped_drawEach (painter : Painter) (elements : List (String × Attributes)) :
    (painter.drawEach elements).report.dropped.toList = painter.report.dropped.toList ++
      (elements.zipIdx painter.index).filterMap painter.options.entry? := by
  induction elements generalizing painter with
  | nil => exact (List.append_nil _).symm
  | cons element rest ih =>
    obtain ⟨-, index, -, -, dropped⟩ := painter.draw_report element
    rw [drawEach_cons, ih, index, dropped, (painter.draw_layers element).1, List.append_assoc,
      List.zipIdx_cons, List.filterMap_cons]
    cases painter.options.entry? (element, painter.index) <;> rfl

/-- A new painter lists what it could not read, with its place in the run. -/
theorem mem_dropped_drawEach {options : Options} {width height : ℕ}
    {elements : List (String × Attributes)} {dropped : Dropped} :
    dropped ∈ ((new width height options).drawEach elements).report.dropped ↔
      ∃ attributes, elements[dropped.index]? = some (dropped.element, attributes) ∧
        Shape.read options dropped.element attributes = .error dropped.error := by
  have listed := (new width height options).dropped_drawEach elements
  rw [← Array.mem_toList_iff, listed]
  show dropped ∈ elements.zipIdx.filterMap options.entry? ↔ _
  rw [List.mem_filterMap]
  constructor
  · rintro ⟨⟨⟨tag, attributes⟩, place⟩, placed, entry⟩
    obtain ⟨rfl, rfl, cause⟩ := Options.entry?_eq_some.mp entry
    exact ⟨attributes, List.mem_zipIdx_iff_getElem?.mp placed, cause⟩
  · rintro ⟨attributes, found, cause⟩
    exact ⟨((dropped.element, attributes), dropped.index),
      List.mem_zipIdx_iff_getElem?.mpr found, Options.entry?_eq_some.mpr ⟨rfl, rfl, cause⟩⟩

/-- After any run the report tells of every element once, as many as the index says, and lists those
that were dropped in their order, each with its place, its tag and what was wrong with it. The
canvas has kept its size. Each element that was not drawn left the canvas as it was, and the drawn
ones alone give the same one. -/
theorem run_accounted (options : Options) (width height : ℕ)
    (elements : List (String × Attributes)) :
    let painter := Painter.new width height options
    let final := painter.drawEach elements
    let drawn := ((elements.zip (painter.answers elements)).filter Prod.snd).map Prod.fst
    (final.report.drawn + final.report.ignored + final.report.dropped.size = elements.length ∧
        final.index = final.report.count) ∧
      final.report.drawn = drawn.length ∧
      (final.report.dropped.toList.map Dropped.index).Pairwise (· < ·) ∧
      (∀ dropped, dropped ∈ final.report.dropped ↔
        ∃ attributes, elements[dropped.index]? = some (dropped.element, attributes) ∧
          Shape.read options dropped.element attributes = .error dropped.error) ∧
      (final.canvas.width = width ∧ final.canvas.height = height ∧
        final.canvas.cells.size = height * width) ∧
      (∀ place, (painter.answers elements)[place]? = some false →
        (painter.drawEach (elements.take (place + 1))).canvas =
          (painter.drawEach (elements.take place)).canvas) ∧
      final.canvas = (painter.drawEach drawn).canvas := by
  intro painter final drawn
  have listed : final.report.dropped.toList = elements.zipIdx.filterMap options.entry? :=
    painter.dropped_drawEach elements
  have alone : drawn = elements.filter options.draws := painter.zip_answers elements
  have size : final.canvas.width = width ∧ final.canvas.height = height :=
    painter.size_drawEach elements
  obtain ⟨index, count⟩ := painter.count_drawEach elements
  refine ⟨⟨count.trans (Nat.zero_add _), index.trans count.symm⟩, ?_, ?_, ?_,
    ⟨size.1, size.2, ?_⟩, ?_, ?_⟩
  · rw [alone, ← List.countP_eq_length_filter]
    exact (painter.drawn_drawEach elements).trans (Nat.zero_add _)
  · rw [listed, List.pairwise_map, List.pairwise_filterMap]
    refine List.Pairwise.imp ?_ (List.pairwise_map.mp (List.zipIdx_map_snd 0 elements ▸
      List.pairwise_lt_range' 1))
    intro first second before dropped entry dropped' entry'
    rwa [← (Options.entry?_eq_some.mp entry).1, ← (Options.entry?_eq_some.mp entry').1]
  · exact fun _ => mem_dropped_drawEach
  · rw [final.canvas.size_eq, size.1, size.2]
  · intro place refused
    rw [answers_eq, List.getElem?_map, Option.map_eq_some_iff] at refused
    obtain ⟨element, found, refused⟩ := refused
    rw [List.take_add_one, found, drawEach_append]
    refine canvas_draw_of_refused ((draw_report _ element).1.trans ?_)
    rwa [options_drawEach]
  · rw [alone, canvas_drawEach, canvas_drawEach]
    exact congrArg _ (options.pile_filter_draws elements).symm

/-- A rectangle, an element that is not drawn, a circle without a radius, and a line. -/
def mixedElements : List (String × Attributes) :=
  [("rect", .ofPairs [("x", "0"), ("y", "0"), ("width", "2"), ("height", "1")]),
    ("title", .ofPairs []),
    ("circle", .ofPairs [("cx", "1"), ("cy", "1")]),
    ("line", .ofPairs [("x1", "0"), ("y1", "0"), ("x2", "1"), ("y2", "1"), ("stroke", "red")])]

/-- The circle is told with its place, and nothing of it is painted. -/
theorem run_mixedElements :
    let painter := Painter.new 2 2 {}
    (painter.answers mixedElements)[2]? = some false ∧
      (painter.drawEach (mixedElements.take 3)).canvas =
        (painter.drawEach (mixedElements.take 2)).canvas ∧
      ⟨2, "circle", .missingAttribute "circle" "r"⟩ ∈
        (painter.drawEach mixedElements).report.dropped := by
  obtain ⟨-, -, -, dropped, -, refused, -⟩ := run_accounted {} 2 2 mixedElements
  have answer : ((Painter.new 2 2 {}).answers mixedElements)[2]? = some false := by
    decide +kernel
  exact ⟨answer, refused 2 answer, (dropped _).mpr ⟨_, rfl, rfl⟩⟩

end Painter
end VectorPaint
