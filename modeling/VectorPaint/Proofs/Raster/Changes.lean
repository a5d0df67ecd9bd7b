import Mathlib.Data.List.FinRange
import Mathlib.Data.List.OfFn
import Mathlib.Data.Set.Function
import VectorPaint.Proofs.Raster.Paint

/-!
Grids under changes. A new grid holds its cells row by row, and the places of its cells are told
apart by row and column, in this order. Changes are made one after the other at any position. What
is read at a position afterwards is what the changes at this very position made of what was read
there before; changes outside the grid are lost, and the size stays.
-/
namespace VectorPaint

namespace Grid

variable {β : Type} {g : Grid β} {row col row' col' : ℕ}

section Places

/-- All cells of a row come before those of the rows below it. -/
theorem offset_lt_of_row (inside : g.contains row col = true) (below : row < row') :
    g.offset row col < g.offset row' col' := by
  have colInside := (contains_iff.mp inside).2
  calc row * g.width + col
      < row * g.width + g.width := Nat.add_lt_add_left colInside _
    _ = (row + 1) * g.width := (Nat.succ_mul ..).symm
    _ ≤ row' * g.width := Nat.mul_le_mul_right _ below
    _ ≤ row' * g.width + col' := Nat.le_add_right ..

/-- The places of the cells are in row order. -/
theorem offset_lt_iff (inside : g.contains row col = true)
    (inside' : g.contains row' col' = true) :
    g.offset row col < g.offset row' col' ↔ row < row' ∨ row = row' ∧ col < col' := by
  rcases Nat.lt_trichotomy row row' with above | rfl | below
  · exact iff_of_true (offset_lt_of_row inside above) (.inl above)
  · simp [offset]
  · have order : g.offset row' col' < g.offset row col := offset_lt_of_row inside' below
    omega

/-- Each place belongs to one cell of the grid. -/
theorem bijOn_offset (g : Grid β) :
    Set.BijOn (fun p : ℕ × ℕ => g.offset p.1 p.2) {p | g.contains p.1 p.2 = true}
      (Set.Iio g.cells.size) := by
  refine ⟨fun p inside => offset_lt inside, fun p inside q inside' same => ?_,
    fun place within => ?_⟩
  · obtain ⟨row, col⟩ := (offset_inj inside inside').mp same
    exact Prod.ext row col
  · have bound : place < g.height * g.width := g.size_eq ▸ within
    have width_pos : 0 < g.width := by
      by_contra none
      simp [Nat.eq_zero_of_not_pos none] at bound
    refine ⟨(place / g.width, place % g.width), contains_iff.mpr ⟨?_, Nat.mod_lt _ width_pos⟩,
      Nat.div_add_mod' place g.width⟩
    exact Nat.div_lt_of_lt_mul (Nat.mul_comm g.height g.width ▸ bound)

end Places

/-- A change of one cell. -/
structure Change (β : Type) where
  row : ℕ
  col : ℕ
  apply : β → β

namespace Change

def isAt (change : Change β) (row col : ℕ) : Bool :=
  decide (row = change.row) && decide (col = change.col)

theorem isAt_iff {change : Change β} :
    change.isAt row col = true ↔ row = change.row ∧ col = change.col := by
  rw [isAt, Bool.and_eq_true, decide_eq_true_iff, decide_eq_true_iff]

/-- What the changes at one position make of a value. -/
def run (changes : List (Change β)) (row col : ℕ) (value : β) : β :=
  (changes.filter (·.isAt row col)).foldl (fun value change => change.apply value) value

end Change

/-- Makes changes one after the other. -/
def changeAll (g : Grid β) (changes : List (Change β)) : Grid β :=
  changes.foldl (fun g change => g.modify change.row change.col change.apply) g

theorem size_changeAll (g : Grid β) (changes : List (Change β)) :
    (g.changeAll changes).height = g.height ∧ (g.changeAll changes).width = g.width := by
  induction changes generalizing g with
  | nil => exact ⟨rfl, rfl⟩
  | cons change rest ih =>
    obtain ⟨height, width⟩ := ih (g.modify change.row change.col change.apply)
    exact ⟨height.trans (height_modify ..), width.trans (width_modify ..)⟩

/-- Each position is only changed by the changes at it. -/
theorem get?_changeAll (g : Grid β) (changes : List (Change β)) (row col : ℕ) :
    (g.changeAll changes).get? row col = (g.get? row col).map (Change.run changes row col) := by
  induction changes generalizing g with
  | nil => exact Option.map_id_apply.symm
  | cons change rest ih =>
    have step : g.changeAll (change :: rest) =
        (g.modify change.row change.col change.apply).changeAll rest := rfl
    rw [step, ih, get?_modify]
    by_cases here : change.isAt row col = true
    · rw [if_pos (Change.isAt_iff.mp here), Option.map_map]
      congr 1
      funext value
      simp only [Change.run, List.filter_cons, if_pos here, List.foldl_cons, Function.comp_apply]
    · rw [if_neg (mt Change.isAt_iff.mpr here)]
      congr 1
      funext value
      simp only [Change.run, List.filter_cons, if_neg here]

/-- Changes outside the grid are as good as none. -/
theorem changeAll_eq_filter (g : Grid β) (changes : List (Change β)) :
    g.changeAll changes =
      g.changeAll (changes.filter fun change => g.contains change.row change.col) := by
  induction changes generalizing g with
  | nil => rfl
  | cons change rest ih =>
    have kept (row col : ℕ) :
        (g.modify change.row change.col change.apply).contains row col = g.contains row col := by
      rw [contains, height_modify, width_modify, contains]
    have step : g.changeAll (change :: rest) =
        (g.modify change.row change.col change.apply).changeAll rest := rfl
    rw [step, ih, List.filter_cons]
    simp only [kept]
    by_cases inside : g.contains change.row change.col = true
    · rw [if_pos inside]
      rfl
    · rw [if_neg inside, modify, if_neg inside]

/-- A value for one cell. -/
structure Write (β : Type) where
  row : ℕ
  col : ℕ
  value : β

namespace Write

def toChange (w : Write β) : Change β := ⟨w.row, w.col, fun _ => w.value⟩

/-- The values for one position, in the order in which they are written. -/
def valuesAt (writes : List (Write β)) (row col : ℕ) : List β :=
  (writes.filter fun w => decide (row = w.row) && decide (col = w.col)).map value

/-- Of several values that are written the last one stays. -/
theorem run_toChange (writes : List (Write β)) (row col : ℕ) (first : β) :
    Change.run (writes.map toChange) row col first = (valuesAt writes row col).getLastD first := by
  have last (kept : List (Write β)) (first : β) :
      kept.foldl (fun _ w => w.value) first = (kept.map value).getLastD first := by
    induction kept generalizing first with
    | nil => rfl
    | cons w rest ih => rw [List.foldl_cons, ih, List.map_cons, List.getLastD_cons]
  rw [Change.run, List.filter_map, List.foldl_map]
  exact last _ first

end Write

/-- Writes values one after the other. -/
def writeAll (g : Grid β) (writes : List (Write β)) : Grid β :=
  writes.foldl (fun g w => g.set w.row w.col w.value) g

theorem writeAll_eq (g : Grid β) (writes : List (Write β)) :
    g.writeAll writes = g.changeAll (writes.map Write.toChange) := by
  rw [changeAll, List.foldl_map]
  rfl

end Grid

namespace Canvas

/-- Paint for one pixel. -/
structure Dab where
  x : ℕ
  y : ℕ
  color : Rgba

namespace Dab

def toChange (dab : Dab) : Grid.Change Rgba := ⟨dab.y, dab.x, (·.paintedWith dab.color)⟩

/-- The colors for one pixel, in the order in which they are painted. -/
def colorsAt (dabs : List Dab) (x y : ℕ) : List Rgba :=
  (dabs.filter fun dab => decide (y = dab.y) && decide (x = dab.x)).map color

theorem run_toChange (dabs : List Dab) (x y : ℕ) (pixel : Rgba) :
    Grid.Change.run (dabs.map toChange) y x pixel =
      (colorsAt dabs x y).foldl Rgba.paintedWith pixel := by
  rw [Grid.Change.run, List.filter_map, List.foldl_map, colorsAt, List.foldl_map]
  rfl

end Dab

/-- Paints pixels one after the other, each in a color of its own. -/
def paintAll (canvas : Canvas) (dabs : List Dab) : Canvas :=
  dabs.foldl (fun canvas dab => canvas.paint dab.x dab.y dab.color) canvas

theorem paintAll_eq (canvas : Canvas) (dabs : List Dab) :
    canvas.paintAll dabs = canvas.changeAll (dabs.map Dab.toChange) := by
  rw [Grid.changeAll, List.foldl_map]
  rfl

end Canvas

/-- A new grid holds as many cells as it has positions, row by row, and each position inside has its
own place among them. Whatever changes are made afterwards, the size stays, changes outside do
nothing, and a position is read as the changes at this position have left it: with the last value
that was written there, or else the first one. A canvas is such a grid, read by column and row. -/
theorem Grid.row_major_store {β : Type} (height width : ℕ) (cell : ℕ → ℕ → β) :
    let g := ofFn height width cell
    (g.cells.size = height * width ∧
      g.cells.toList = (List.range height).flatMap fun row => (List.range width).map (cell row)) ∧
    (∀ row col, g.get? row col =
      if row < height ∧ col < width then some (cell row col) else none) ∧
    (Set.BijOn (fun p : ℕ × ℕ => g.offset p.1 p.2) {p | p.1 < height ∧ p.2 < width}
        (Set.Iio (height * width)) ∧
      ∀ row col row' col', row < height ∧ col < width → row' < height ∧ col' < width →
        (g.offset row col < g.offset row' col' ↔ row < row' ∨ row = row' ∧ col < col')) ∧
    (∀ changes : List (Change β),
      ((g.changeAll changes).height = height ∧ (g.changeAll changes).width = width) ∧
      g.changeAll changes =
        g.changeAll (changes.filter fun change => g.contains change.row change.col) ∧
      ∀ row col, (g.changeAll changes).get? row col =
        if row < height ∧ col < width then some (Change.run changes row col (cell row col))
        else none) ∧
    (∀ (writes : List (Write β)) (row col : ℕ), (g.writeAll writes).get? row col =
      if row < height ∧ col < width then
        some ((Write.valuesAt writes row col).getLastD (cell row col))
      else none) ∧
    ∀ (background : Rgba) (dabs : List Canvas.Dab),
      let canvas := (Canvas.blank width height background).paintAll dabs
      (canvas.width = width ∧ canvas.height = height) ∧
      ∀ x y, canvas.pixel? x y =
        if x < width ∧ y < height then
          some ((Canvas.Dab.colorsAt dabs x y).foldl Rgba.paintedWith background)
        else none := by
  intro g
  have inside_iff {row col : ℕ} : g.contains row col = true ↔ row < height ∧ col < width :=
    contains_iff
  have read (changes : List (Change β)) (row col : ℕ) : (g.changeAll changes).get? row col =
      if row < height ∧ col < width then some (Change.run changes row col (cell row col))
      else none := by
    rw [get?_changeAll, get?_ofFn]
    split <;> rfl
  refine ⟨⟨g.size_eq, toList_fill height width cell⟩, get?_ofFn height width cell, ⟨?_, ?_⟩,
    fun changes => ⟨size_changeAll g changes, changeAll_eq_filter g changes, read changes⟩, ?_, ?_⟩
  · have places := bijOn_offset g
    simp only [inside_iff, g.size_eq] at places
    exact places
  · intro row col row' col' inside inside'
    exact offset_lt_iff (inside_iff.mpr inside) (inside_iff.mpr inside')
  · intro writes row col
    rw [writeAll_eq, read, Write.run_toChange]
  · intro background dabs canvas
    have size :=
      size_changeAll (Canvas.blank width height background) (dabs.map Canvas.Dab.toChange)
    rw [← Canvas.paintAll_eq] at size
    refine ⟨size.symm, fun x y => ?_⟩
    change ((Canvas.blank width height background).paintAll dabs).get? y x = _
    rw [Canvas.paintAll_eq, get?_changeAll, Canvas.blank, get?_ofFn]
    simp only [and_comm (a := x < width)]
    split
    · rw [Option.map_some, Canvas.Dab.run_toChange]
    · rfl

/-- Beyond the last column there is nothing to write to or to paint, and the next row keeps its
first cell. -/
theorem Grid.store_twoByThree :
    let g := ofFn 2 3 fun row col => row * 10 + col
    let writes : List (Write ℕ) := [⟨0, 1, 100⟩, ⟨0, 3, 7⟩, ⟨5, 5, 8⟩, ⟨0, 1, 101⟩]
    let red : Rgba := ⟨255, 0, 0, 255⟩
    let canvas :=
      (Canvas.blank 3 2 .white).paintAll [⟨2, 1, red⟩, ⟨3, 0, red⟩, ⟨2, 1, ⟨0, 0, 255, 0⟩⟩]
    (0 < 2 ∧ 2 < 3) ∧ (1 < 2 ∧ 0 < 3) ∧ g.offset 0 2 < g.offset 1 0 ∧
    g.cells.toList = [0, 1, 2, 10, 11, 12] ∧
    ((g.writeAll writes).get? 0 1 = some 101 ∧ (g.writeAll writes).get? 0 3 = none ∧
      (g.writeAll writes).get? 1 0 = some 10) ∧
    canvas.pixel? 2 1 = some red ∧ canvas.pixel? 3 0 = none ∧ canvas.pixel? 0 1 = some .white := by
  intro g writes red canvas
  obtain ⟨⟨-, cells⟩, -, ⟨-, order⟩, -, written, painted⟩ :=
    row_major_store 2 3 fun row col => row * 10 + col
  have first : 0 < 2 ∧ 2 < 3 := by decide
  have second : 1 < 2 ∧ 0 < 3 := by decide
  obtain ⟨-, pixels⟩ := painted .white [⟨2, 1, red⟩, ⟨3, 0, red⟩, ⟨2, 1, ⟨0, 0, 255, 0⟩⟩]
  exact ⟨first, second, (order 0 2 1 0 first second).mpr (by decide), cells,
    ⟨written writes 0 1, written writes 0 3, written writes 1 0⟩,
    pixels 2 1, pixels 3 0, pixels 0 1⟩

end VectorPaint
