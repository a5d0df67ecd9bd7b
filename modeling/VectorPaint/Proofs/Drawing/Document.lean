import VectorPaint.Document
import VectorPaint.Proofs.Drawing.Run

/-!
Drawing a document is drawing a list. All nodes below the root are listed in the order in which they
begin, each with the names of the elements around it. Those that are no elements are struck from the
list, and so are definitions and what is inside of them; the rest is drawn one after the other. So
text and comments might as well not be there. This is so whatever reads the document.
-/
namespace VectorPaint

namespace Markup.Node

mutual

/-- The element without text, comments and instructions anywhere below it. -/
def bare : Node → Node
  | element name attributes children => element name attributes (bareAmong children)
  | node => node

/-- The elements among nodes, each of them bare. -/
def bareAmong : List Node → List Node
  | [] => []
  | node :: rest => if node.isElement then node.bare :: bareAmong rest else bareAmong rest

end

theorem name_bare (node : Node) : node.bare.name = node.name := by cases node <;> rfl

theorem attributes_bare (node : Node) : node.bare.attributes = node.attributes := by
  cases node <;> rfl

theorem isElement_bare (node : Node) : node.bare.isElement = node.isElement := by
  cases node <;> rfl

end Markup.Node

namespace Document

open Markup

/-- A node below the root, with the names of the elements between the root and it, the innermost
first. -/
structure Place where
  above : List String
  node : Node

mutual

/-- The nodes below a node, in the order in which they begin. -/
def placesBelow (above : List String) : Node → List Place
  | .element _ _ children => placesAmong above children
  | _ => []

/-- Nodes next to each other, each followed by those below it. -/
def placesAmong (above : List String) : List Node → List Place
  | [] => []
  | node :: rest => ⟨above, node⟩ :: placesBelow (node.name :: above) node ++ placesAmong above rest

end

namespace Place

/-- The node is an element, and neither this element nor one around it is a definition. -/
def isDrawn (place : Place) : Bool :=
  place.node.isElement && !(place.node.name :: place.above).contains "defs"

/-- The element as it is drawn. -/
def call (place : Place) : String × Attributes :=
  (place.node.name, .ofPairs place.node.attributes)

end Place

/-- What of a list of places is drawn. -/
def calls (places : List Place) : List (String × Attributes) :=
  (places.filter Place.isDrawn).map Place.call

theorem calls_append (first second : List Place) :
    calls (first ++ second) = calls first ++ calls second := by
  simp only [calls, List.filter_append, List.map_append]

theorem calls_cons_of_drawn {place : Place} (drawn : place.isDrawn = true) (rest : List Place) :
    calls (place :: rest) = place.call :: calls rest := by
  rw [calls, List.filter_cons_of_pos drawn]
  rfl

theorem calls_cons_of_struck {place : Place} (struck : place.isDrawn = false)
    (rest : List Place) : calls (place :: rest) = calls rest := by
  rw [calls, List.filter_cons_of_neg (Bool.eq_false_iff.mp struck)]
  rfl

theorem placesBelow_of_not_isElement {above : List String} {node : Node}
    (other : node.isElement = false) : placesBelow above node = [] := by
  cases node with
  | element => cases other
  | text | comment | instruction => rfl

mutual

theorem calls_placesBelow_of_defs {above : List String} (inside : "defs" ∈ above) :
    ∀ node : Node, calls (placesBelow above node) = []
  | .element _ _ children => calls_placesAmong_of_defs inside children
  | .text _ => rfl
  | .comment _ => rfl
  | .instruction _ => rfl

/-- Nothing inside of a definition is drawn. -/
theorem calls_placesAmong_of_defs {above : List String} (inside : "defs" ∈ above) :
    ∀ nodes : List Node, calls (placesAmong above nodes) = []
  | [] => rfl
  | node :: rest => by
    have struck : Place.isDrawn ⟨above, node⟩ = false := by simp [Place.isDrawn, inside]
    rw [placesAmong, calls_append, calls_placesAmong_of_defs inside rest, List.append_nil,
      calls_cons_of_struck struck]
    exact calls_placesBelow_of_defs (List.mem_cons_of_mem _ inside) node

end

mutual

theorem calls_placesBelow_bare :
    ∀ (above : List String) (node : Node),
      calls (placesBelow above node.bare) = calls (placesBelow above node)
  | above, .element _ _ children => calls_placesAmong_bare above children
  | _, .text _ => rfl
  | _, .comment _ => rfl
  | _, .instruction _ => rfl

/-- Only elements are drawn. -/
theorem calls_placesAmong_bare :
    ∀ (above : List String) (nodes : List Node),
      calls (placesAmong above (Node.bareAmong nodes)) = calls (placesAmong above nodes)
  | _, [] => rfl
  | above, node :: rest => by
    have below := calls_placesBelow_bare (node.name :: above) node
    have beside := calls_placesAmong_bare above rest
    rw [Node.bareAmong]
    cases kind : node.isElement with
    | false =>
      have struck : Place.isDrawn ⟨above, node⟩ = false := by simp [Place.isDrawn, kind]
      rw [if_neg Bool.false_ne_true, beside, placesAmong, placesBelow_of_not_isElement kind,
        List.singleton_append, calls_cons_of_struck struck]
    | true =>
      have same : Place.isDrawn ⟨above, node.bare⟩ = Place.isDrawn ⟨above, node⟩ := by
        rw [Place.isDrawn, Node.isElement_bare, Node.name_bare]
        rfl
      rw [if_pos rfl, placesAmong, placesAmong, Node.name_bare, calls_append, calls_append, beside]
      cases drawn : Place.isDrawn ⟨above, node⟩ with
      | false =>
        rw [calls_cons_of_struck drawn, calls_cons_of_struck (same.trans drawn), below]
      | true =>
        rw [calls_cons_of_drawn drawn, calls_cons_of_drawn (same.trans drawn), below, Place.call,
          Node.name_bare, Node.attributes_bare]
        rfl

end

theorem drawBelow_of_not_isElement {node : Node} (other : node.isElement = false)
    (painter : Painter) : drawBelow painter node = painter := by
  cases node with
  | element => cases other
  | text | comment | instruction =>
    rw [drawBelow]
    intro _ _ _ same
    cases same

mutual

/-- Drawing what is below a node is drawing the list of it. -/
theorem drawBelow_eq_drawEach {above : List String} (outside : "defs" ∉ above) :
    ∀ (node : Node) (painter : Painter),
      drawBelow painter node = painter.drawEach (calls (placesBelow above node))
  | .element _ _ children, painter => by
    rw [drawBelow, placesBelow]
    exact foldl_eq_drawEach outside children painter
  | .text _, painter => drawBelow_of_not_isElement rfl painter
  | .comment _, painter => drawBelow_of_not_isElement rfl painter
  | .instruction _, painter => drawBelow_of_not_isElement rfl painter

/-- The loop over nodes next to each other. -/
theorem foldl_eq_drawEach {above : List String} (outside : "defs" ∉ above) :
    ∀ (nodes : List Node) (painter : Painter),
      (nodes.filter Node.isElement).foldl (fun painter child =>
        if child.name = "defs" then painter
        else drawBelow (painter.draw child.name (.ofPairs child.attributes)).2 child) painter =
        painter.drawEach (calls (placesAmong above nodes))
  | [], _ => rfl
  | node :: rest, painter => by
    rw [placesAmong, calls_append, Painter.drawEach_append, ← foldl_eq_drawEach outside rest,
      List.filter_cons]
    cases kind : node.isElement with
    | false =>
      have struck : Place.isDrawn ⟨above, node⟩ = false := by simp [Place.isDrawn, kind]
      rw [placesBelow_of_not_isElement kind, calls_cons_of_struck struck]
      rfl
    | true =>
      rw [if_pos rfl, List.foldl_cons]
      congr 1
      by_cases definition : node.name = "defs"
      · have struck : Place.isDrawn ⟨above, node⟩ = false := by
          simp [Place.isDrawn, definition]
        have inside : "defs" ∈ node.name :: above := by simp [definition]
        rw [if_pos definition, calls_cons_of_struck struck,
          calls_placesBelow_of_defs inside node]
        rfl
      · have drawn : Place.isDrawn ⟨above, node⟩ = true := by
          simp [Place.isDrawn, kind, outside, Ne.symm definition]
        have still : "defs" ∉ node.name :: above := by simp [outside, Ne.symm definition]
        rw [if_neg definition, calls_cons_of_drawn drawn, drawBelow_eq_drawEach still node]
        rfl

end

/-- A document is drawn as the list of what is below its root, and the places of the elements that
are dropped are places in that list. What is neither the root nor an element below it does not
matter: a document whose tree differs in nothing else is drawn alike. -/
theorem render_eq_drawEach (read? : String → Option Node) {text : String} {root : Node}
    {width height : ℕ} (options : Options) (parsed : read? text = some root)
    (across : dimension root "width" = .ok width) (down : dimension root "height" = .ok height)
    (fits : width * height ≤ maxPixels) :
    let listed := calls (placesBelow [] root)
    let final := (Painter.new width height options).drawEach listed
    renderBy read? text options = .ok final ∧
      (∀ dropped, dropped ∈ final.report.dropped ↔
        ∃ attributes, listed[dropped.index]? = some (dropped.element, attributes) ∧
          Shape.read options dropped.element attributes = .error dropped.error) ∧
      ∀ (readOther? : String → Option Node) (other : String) (otherRoot : Node),
        readOther? other = some otherRoot → otherRoot.bare = root.bare →
          renderBy readOther? other options = .ok final := by
  intro listed final
  have drawn {read? : String → Option Node} {text : String} {alike : Node}
      (parsed : read? text = some alike) (same : alike.bare = root.bare) :
      renderBy read? text options = .ok final := by
    have size (name : String) : dimension alike name = dimension root name := by
      rw [dimension, dimension, ← alike.attributes_bare, same, root.attributes_bare]
    have list : calls (placesBelow [] alike) = listed := by
      rw [← calls_placesBelow_bare, same, calls_placesBelow_bare]
    have walk := drawBelow_eq_drawEach List.not_mem_nil alike (Painter.new width height options)
    rw [list] at walk
    simp only [renderBy, parsed, size, across, down]
    exact (if_neg (Nat.not_lt.mpr fits)).trans (congrArg Except.ok walk)
  exact ⟨drawn parsed rfl, fun _ => Painter.mem_dropped_drawEach,
    fun _ _ _ parsed same => drawn parsed same⟩

/-- A circle with a rectangle below it, a definition beside the circle, words, and a line. -/
def nestedText : String :=
  "<svg width='2' height='2'><g>a<circle r='1'><rect/></circle>" ++
    "<defs><g><rect/></g></defs></g><!-- b --><line/></svg>"

/-- The tree of it. -/
def nestedRoot : Node :=
  .element "svg" [("width", "2"), ("height", "2")]
    [.element "g" []
      [.text "a", .element "circle" [("r", "1")] [.element "rect" [] []],
        .element "defs" [] [.element "g" [] [.element "rect" [] []]]],
      .comment " b ", .element "line" [] []]

/-- A reader that knows one text. -/
def readNested? (text : String) : Option Node :=
  if text = nestedText then some nestedRoot else none

/-- The first rectangle is the third to be drawn, and the one in the definition is not listed. The
words and the comment make no difference. -/
theorem render_nestedText :
    ∃ painter, readNested? nestedText = some nestedRoot ∧
      dimension nestedRoot "width" = .ok 2 ∧ dimension nestedRoot "height" = .ok 2 ∧
      2 * 2 ≤ maxPixels ∧
      (calls (placesBelow [] nestedRoot)).map Prod.fst = ["g", "circle", "rect", "line"] ∧
      renderBy readNested? nestedText {} = .ok painter ∧
      ⟨2, "rect", .missingAttribute "rect" "x"⟩ ∈ painter.report.dropped ∧
      (∃ attributes, (calls (placesBelow [] nestedRoot))[2]? = some ("rect", attributes)) ∧
      nestedRoot.bare.bare = nestedRoot.bare ∧
      renderBy (fun _ => some nestedRoot.bare) "" {} = .ok painter := by
  have parsed : readNested? nestedText = some nestedRoot := if_pos rfl
  have across : dimension nestedRoot "width" = .ok 2 := by decide +kernel
  have down : dimension nestedRoot "height" = .ok 2 := by decide +kernel
  have fits : 2 * 2 ≤ maxPixels := by decide
  obtain ⟨rendered, dropped, alike⟩ := render_eq_drawEach readNested? {} parsed across down fits
  have told : ⟨2, "rect", .missingAttribute "rect" "x"⟩ ∈
      ((Painter.new 2 2 {}).drawEach (calls (placesBelow [] nestedRoot))).report.dropped := by
    decide +kernel
  obtain ⟨attributes, third, -⟩ := (dropped _).mp told
  exact ⟨_, parsed, across, down, fits, by decide +kernel, rendered, told, ⟨attributes, third⟩, rfl,
    alike (fun _ => some nestedRoot.bare) "" nestedRoot.bare rfl rfl⟩

end Document
end VectorPaint
