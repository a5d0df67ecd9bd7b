import Mathlib.Algebra.BigOperators.Group.List.Basic
import Mathlib.Algebra.Order.Ring.Nat
import Mathlib.Data.List.Count
import Mathlib.Data.List.FinRange
import Mathlib.Data.List.OfFn
import Mathlib.Logic.Function.Iterate
import VectorPaint.Raster.Canvas

/-!
Reading grids and painting on them. Two cells inside a grid never share a place in the row order, so
changing one cell changes no other one, and a grid is known from its size and what is read at each
position. Painting pixels one after the other changes a pixel as often as it is among them, and
painting runs changes it once for each run that holds it.
-/
namespace VectorPaint

namespace Grid

variable {β : Type} {g : Grid β} {row col row' col' : Nat}

/-- Row and column can be read from a place in the row order. -/
theorem div_mod_place {width : Nat} (row : Nat) (inside : col < width) :
    (row * width + col) / width = row ∧ (row * width + col) % width = col := by
  have width_pos : 0 < width := Nat.zero_lt_of_lt inside
  constructor
  · rw [Nat.mul_comm, Nat.mul_add_div width_pos, Nat.div_eq_of_lt inside, Nat.add_zero]
  · rw [Nat.mul_comm, Nat.mul_add_mod, Nat.mod_eq_of_lt inside]

/-- Two cells inside the grid share no place in the row order. -/
theorem offset_inj (inside : g.contains row col = true) (inside' : g.contains row' col' = true) :
    g.offset row col = g.offset row' col' ↔ row = row' ∧ col = col' := by
  simp only [contains, Bool.and_eq_true, decide_eq_true_eq] at inside inside'
  constructor
  · intro same
    obtain ⟨divided, rest⟩ := div_mod_place row inside.2
    obtain ⟨divided', rest'⟩ := div_mod_place row' inside'.2
    rw [offset, offset] at same
    exact ⟨divided.symm.trans ((congrArg (· / g.width) same).trans divided'),
      rest.symm.trans ((congrArg (· % g.width) same).trans rest')⟩
  · rintro ⟨rfl, rfl⟩
    rfl

@[simp] theorem width_modify (g : Grid β) (row col : Nat) (f : β → β) :
    (g.modify row col f).width = g.width := by
  unfold modify
  split <;> rfl

@[simp] theorem height_modify (g : Grid β) (row col : Nat) (f : β → β) :
    (g.modify row col f).height = g.height := by
  unfold modify
  split <;> rfl

theorem get?_modify (g : Grid β) (row col : Nat) (f : β → β) (row' col' : Nat) :
    (g.modify row col f).get? row' col' =
      if row' = row ∧ col' = col then (g.get? row' col').map f else g.get? row' col' := by
  by_cases target : g.contains row col = true
  · by_cases asked : g.contains row' col' = true
    · have same := offset_inj target asked
      have kept : (g.modify row col f).contains row' col' = true := by
        simpa [contains] using asked
      have place : (g.modify row col f).offset row' col' = g.offset row' col' := by
        simp [offset]
      simp only [get?, if_pos kept, if_pos asked, place]
      simp only [modify, if_pos target, Array.getElem?_modify, same]
      simp only [eq_comm]
    · have kept : ¬ (g.modify row col f).contains row' col' = true := by
        simpa [contains] using asked
      simp [get?, kept, asked]
  · rw [modify, if_neg target]
    split
    · rename_i same
      obtain ⟨rfl, rfl⟩ := same
      simp [get?, target]
    · rfl

theorem contains_iff : g.contains row col = true ↔ row < g.height ∧ col < g.width := by
  simp [contains]

theorem offset_lt (inside : g.contains row col = true) : g.offset row col < g.cells.size := by
  obtain ⟨rowInside, colInside⟩ := contains_iff.mp inside
  calc row * g.width + col
      < row * g.width + g.width := Nat.add_lt_add_left colInside _
    _ = (row + 1) * g.width := (Nat.succ_mul ..).symm
    _ ≤ g.height * g.width := Nat.mul_le_mul_right _ rowInside
    _ = g.cells.size := g.size_eq.symm

theorem get?_isSome : (g.get? row col).isSome = g.contains row col := by
  unfold get?
  split
  · rename_i inside
    rw [inside, Array.getElem?_eq_getElem (offset_lt inside), Option.isSome_some]
  · rename_i outside
    rw [Option.isSome_none, eq_false_of_ne_true outside]

/-- Each cell of a new grid is that of its row and column. -/
theorem cells_ofFn (height width : Nat) (cell : Nat → Nat → β) :
    (ofFn height width cell).cells =
      Array.ofFn fun i : Fin (height * width) => cell (i / width) (i % width) := by
  have map_range {γ : Type} (n : Nat) (f : Nat → γ) :
      (List.range n).map f = List.ofFn fun i : Fin n => f i := by
    rw [List.ofFn_eq_map, ← List.map_coe_finRange_eq_range, List.map_map]
    rfl
  apply Array.toList_inj.mp
  rw [ofFn, toList_fill, List.flatMap, map_range]
  simp only [map_range]
  rw [Array.toList_ofFn, List.ofFn_mul]
  simp only [div_mod_place _ (Fin.isLt _)]

theorem get?_ofFn (height width : Nat) (cell : Nat → Nat → β) (row col : Nat) :
    (ofFn height width cell).get? row col =
      if row < height ∧ col < width then some (cell row col) else none := by
  by_cases inside : row < height ∧ col < width
  · have contained : (ofFn height width cell).contains row col = true := contains_iff.mpr inside
    obtain ⟨divided, rest⟩ := div_mod_place row inside.2
    have place := offset_lt contained
    rw [if_pos inside, get?, if_pos contained, Array.getElem?_eq_getElem place]
    simp only [cells_ofFn, Array.getElem_ofFn]
    simp only [offset, ofFn, divided, rest]
  · rw [if_neg inside]
    exact if_neg (mt contains_iff.mp inside)

theorem get?_set (g : Grid β) (row col : ℕ) (value : β) (row' col' : ℕ) :
    (g.set row col value).get? row' col' =
      if row' = row ∧ col' = col then (g.get? row' col').map fun _ => value
      else g.get? row' col' :=
  get?_modify ..

/-- Grids of one size that read alike are the same. -/
theorem ext_get? {g g' : Grid β} (height : g.height = g'.height) (width : g.width = g'.width)
    (alike : ∀ row col, g.get? row col = g'.get? row col) : g = g' := by
  obtain ⟨h, w, cells, size⟩ := g
  obtain ⟨h', w', cells', size'⟩ := g'
  obtain rfl : h = h' := height
  obtain rfl : w = w' := width
  suffices same : cells = cells' by
    subst same
    rfl
  refine Array.ext (size.trans size'.symm) fun i inside inside' => ?_
  have bound : i < h * w := size ▸ inside
  have width_pos : 0 < w := by
    by_contra none
    simp [Nat.eq_zero_of_not_pos none] at bound
  have here := alike (i / w) (i % w)
  have row : i / w < h := Nat.div_lt_of_lt_mul (Nat.mul_comm h w ▸ bound)
  have col : i % w < w := Nat.mod_lt _ width_pos
  have place : i / w * w + i % w = i := Nat.div_add_mod' i w
  simpa [get?, contains, offset, row, col, place, inside, inside'] using here

end Grid

/-- The pixels of a run, as pairs of column and row. -/
def Run.pixels (run : Run) : List (Nat × Nat) :=
  (List.range' run.start (run.stop - run.start)).map fun x => (x, run.row)

theorem Run.count_pixels (run : Run) (x y : Nat) :
    run.pixels.count (x, y) = if run.contains y x then 1 else 0 := by
  unfold pixels contains
  by_cases same : run.row = y
  · subst same
    have pairs : Function.Injective fun x : Nat => (x, run.row) :=
      fun _ _ same => (Prod.mk.inj same).1
    rw [List.count_map_of_injective _ _ pairs, List.count_range_1']
    simp only [decide_true, Bool.true_and, Bool.and_eq_true, decide_eq_true_eq]
    congr 1
    exact propext (by omega)
  · have elsewhere : (x, y) ∉
        (List.range' run.start (run.stop - run.start)).map fun x => (x, run.row) := by
      simp [same]
    simp [List.count_eq_zero.mpr elsewhere, same]

namespace Rgba

variable {color : Rgba}

theorem isTransparent_of_solid (solid : color.isOpaque = true) : color.isTransparent = false := by
  unfold isOpaque at solid
  unfold isTransparent
  rw [beq_iff_eq.mp solid]
  rfl

theorem paintedWith_of_solid (solid : color.isOpaque = true) (pixel : Rgba) :
    pixel.paintedWith color = color := by
  simp [paintedWith, isTransparent_of_solid solid, solid]

end Rgba

namespace Canvas

variable {canvas : Canvas} {x y : Nat} {color : Rgba}

@[simp] theorem width_paint (canvas : Canvas) (x y : Nat) (color : Rgba) :
    (canvas.paint x y color).width = canvas.width :=
  Grid.width_modify ..

@[simp] theorem height_paint (canvas : Canvas) (x y : Nat) (color : Rgba) :
    (canvas.paint x y color).height = canvas.height :=
  Grid.height_modify ..

/-- Paints pixels one after the other, some of them perhaps more than once. -/
def paintPixels (canvas : Canvas) (pixels : List (Nat × Nat)) (color : Rgba) : Canvas :=
  pixels.foldl (fun canvas pixel => canvas.paint pixel.1 pixel.2 color) canvas

theorem paintRuns_eq (canvas : Canvas) (runs : List Run) (color : Rgba) :
    canvas.paintRuns runs color = canvas.paintPixels (runs.flatMap Run.pixels) color := by
  induction runs generalizing canvas with
  | nil => rfl
  | cons run rest ih =>
    have head : canvas.paintRun run color = canvas.paintPixels run.pixels color := by
      simp only [paintRun, paintPixels, Run.pixels, List.foldl_map]
    have step : canvas.paintRuns (run :: rest) color =
        (canvas.paintRun run color).paintRuns rest color := rfl
    rw [step, ih, head]
    simp only [paintPixels, List.flatMap_cons, List.foldl_append]

theorem size_paintPixels (canvas : Canvas) (pixels : List (Nat × Nat)) (color : Rgba) :
    (canvas.paintPixels pixels color).width = canvas.width ∧
      (canvas.paintPixels pixels color).height = canvas.height := by
  induction pixels generalizing canvas with
  | nil => exact ⟨rfl, rfl⟩
  | cons pixel rest ih =>
    obtain ⟨width, height⟩ := ih (canvas.paint pixel.1 pixel.2 color)
    exact ⟨width.trans (width_paint ..), height.trans (height_paint ..)⟩

@[simp] theorem width_paintRuns (canvas : Canvas) (runs : List Run) (color : Rgba) :
    (canvas.paintRuns runs color).width = canvas.width := by
  rw [paintRuns_eq]
  exact (size_paintPixels ..).1

@[simp] theorem height_paintRuns (canvas : Canvas) (runs : List Run) (color : Rgba) :
    (canvas.paintRuns runs color).height = canvas.height := by
  rw [paintRuns_eq]
  exact (size_paintPixels ..).2

theorem pixel?_paintPixels (canvas : Canvas) (pixels : List (Nat × Nat)) (color : Rgba)
    (x y : Nat) :
    (canvas.paintPixels pixels color).pixel? x y =
      (canvas.pixel? x y).map (·.paintedWith color)^[pixels.count (x, y)] := by
  induction pixels generalizing canvas with
  | nil => simp [paintPixels]
  | cons pixel rest ih =>
    have step : canvas.paintPixels (pixel :: rest) color =
        (canvas.paint pixel.1 pixel.2 color).paintPixels rest color := rfl
    rw [step, ih, List.count_cons]
    have one := Grid.get?_modify canvas pixel.2 pixel.1 (·.paintedWith color) y x
    by_cases same : pixel = (x, y)
    · subst same
      simp only [paint, pixel?, and_self, ↓reduceIte] at one ⊢
      rw [one, Option.map_map]
      simp
    · have other : ¬ (y = pixel.2 ∧ x = pixel.1) := by
        rintro ⟨rfl, rfl⟩
        exact same rfl
      simp only [paint, pixel?, if_neg other] at one ⊢
      rw [one]
      simp [same]

/-- Painting runs changes a pixel once for each of them that holds it. -/
theorem pixel?_paintRuns (canvas : Canvas) (runs : List Run) (color : Rgba) (x y : Nat) :
    (canvas.paintRuns runs color).pixel? x y =
      (canvas.pixel? x y).map (·.paintedWith color)^[runs.countP (·.contains y x)] := by
  rw [paintRuns_eq, pixel?_paintPixels, List.count_flatMap]
  congr 2
  induction runs with
  | nil => rfl
  | cons run rest ih =>
    rw [List.map_cons, List.sum_cons, ih, List.countP_cons, Function.comp_apply,
      Run.count_pixels, Nat.add_comm]

theorem pixel?_outside (outside : ¬ (y < canvas.height ∧ x < canvas.width)) :
    canvas.pixel? x y = none :=
  if_neg (mt Grid.contains_iff.mp outside)

/-- What runs paint is told by how many of them hold each pixel of the canvas. -/
theorem paintRuns_congr {runs runs' : List Run}
    (alike : ∀ x y, x < canvas.width → y < canvas.height →
      runs.countP (·.contains y x) = runs'.countP (·.contains y x)) :
    canvas.paintRuns runs color = canvas.paintRuns runs' color := by
  refine Grid.ext_get? (by simp) (by simp) fun y x => ?_
  change (canvas.paintRuns runs color).pixel? x y = (canvas.paintRuns runs' color).pixel? x y
  rw [pixel?_paintRuns, pixel?_paintRuns]
  by_cases inside : y < canvas.height ∧ x < canvas.width
  · rw [alike x y inside.2 inside.1]
  · simp [pixel?_outside inside]

end Canvas

end VectorPaint
