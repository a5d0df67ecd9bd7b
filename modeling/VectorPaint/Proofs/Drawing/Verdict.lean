import VectorPaint.Drawing.Painter
import VectorPaint.Proofs.Drawing.Checks

/-!
Which elements are drawn. A tag is drawn or it is not, whatever the attributes are. An element of a
tag that is drawn is read attribute by attribute, and each reader makes one check. So the element is
drawn just if it passes all checks of its geometry and of its style, and otherwise the report tells
the first one that it fails.
-/
namespace VectorPaint

variable {tag name value : String} {attributes : Attributes} {checks more : List Check}
  {error error' : ElementError} {demand : Demand}

/-- What is read is as wanted and all checks are passed, or the error is that of the first one that
fails. -/
def Judged {β : Type} (tag : String) (attributes : Attributes) (checks : List Check)
    (wanted : β → Prop) : Except ElementError β → Prop
  | .ok b => wanted b ∧ ∀ check ∈ checks, check.Passes attributes
  | .error error => FirstFault tag attributes checks error

section Readers

variable {β γ : Type} {wanted : β → Prop} {wanted' : γ → Prop} {first : Except ElementError β}
  {next : β → Except ElementError γ}

/-- Checks that are made one after the other are one list of checks. -/
theorem Judged.bind (judged : Judged tag attributes checks wanted first)
    (rest : ∀ b, wanted b → Judged tag attributes more wanted' (next b)) :
    Judged tag attributes (checks ++ more) wanted' (first >>= next) := by
  cases first with
  | error error => exact FirstFault.append_right judged more
  | ok b =>
    obtain ⟨good, all⟩ := judged
    have rest := rest b good
    change Judged _ _ _ _ (next b)
    cases later : next b with
    | error error =>
      rw [later] at rest
      exact rest.append_left all
    | ok c =>
      rw [later] at rest
      exact ⟨rest.1, List.forall_mem_append.mpr ⟨all, rest.2⟩⟩

theorem Judged.pure {b : β} (good : wanted b) : Judged tag attributes [] wanted (.ok b) :=
  ⟨good, nofun⟩

/-- A check of one attribute is passed by an acceptable value. -/
theorem Judged.valid {required : Bool} {b : β} (good : wanted b)
    (found : attributes.find? name = some value) (meets : demand.Meets value) :
    Judged tag attributes [⟨name, demand, required⟩] wanted (.ok b) :=
  ⟨good, List.forall_mem_singleton.mpr (.valid found meets)⟩

theorem Judged.invalid {required : Bool} (found : attributes.find? name = some value)
    (objects : demand.Objects name value error) :
    Judged tag attributes [⟨name, demand, required⟩] wanted (.error error) :=
  FirstFault.here (.invalid found objects)

/-- The check of an attribute that has to be there is that of its value. -/
theorem judged_required {next : String → Except ElementError β}
    (judged : ∀ value, attributes.find? name = some value →
      Judged tag attributes [⟨name, demand, true⟩] wanted (next value)) :
    Judged tag attributes [⟨name, demand, true⟩] wanted
      (Element.required attributes tag name >>= next) := by
  unfold Element.required
  cases found : attributes.find? name with
  | none => exact FirstFault.here (.missing found rfl)
  | some value => exact judged value found

/-- The check of an attribute that may be absent is that of its value. -/
theorem judged_optional {b : β} {next : String → Except ElementError β} (good : wanted b)
    (judged : ∀ value, attributes.find? name = some value →
      Judged tag attributes [⟨name, demand, false⟩] wanted (next value)) :
    Judged tag attributes [⟨name, demand, false⟩] wanted
      (match attributes.find? name with
        | none => .ok b
        | some value => next value) := by
  cases found : attributes.find? name with
  | none => exact ⟨good, List.forall_mem_singleton.mpr (.absent found rfl)⟩
  | some value => exact judged value found

theorem judged_number (attributes : Attributes) (tag name : String) :
    Judged tag attributes [⟨name, .coordinate, true⟩] (fun _ => True)
      (Element.number attributes tag name) := by
  refine judged_required fun value found => ?_
  cases read : PathData.length value with
  | error e => exact .invalid found (.coordinate read)
  | ok x => exact .valid trivial found (.coordinate read)

theorem judged_size (attributes : Attributes) (tag name : String) :
    Judged tag attributes [⟨name, .extent, true⟩] (fun _ => True)
      (Element.size attributes tag name) := by
  refine judged_required fun value found => ?_
  have again : Element.number attributes tag name =
      (PathData.length value).mapError fun e => .invalidAttribute name value (.pathData e) := by
    unfold Element.number Element.required
    rw [found]
    rfl
  rw [again]
  cases read : PathData.length value with
  | error e => exact .invalid found (.extent read)
  | ok x =>
    change Judged _ _ _ _ (if x < 0 then .error _ else .ok x)
    split
    · rename_i negative
      exact .invalid found (.negative read negative)
    · rename_i nonneg
      exact .valid trivial found (.extent read nonneg)

theorem pairUp_isSome (xs : List Float) : (Element.pairUp xs).isSome = true ↔ Even xs.length := by
  fun_induction Element.pairUp xs with
  | case1 => simp
  | case2 => simp
  | case3 x y rest ih => simp [ih, Nat.even_add_one, parity_simps]

theorem judged_points (attributes : Attributes) (tag : String) :
    Judged tag attributes [⟨"points", .points, true⟩] (fun _ => True)
      (Element.points attributes tag) := by
  refine judged_required fun value found => ?_
  cases read : PathData.numbers value with
  | error e => exact .invalid found (.points read)
  | ok xs =>
    have paired := pairUp_isSome xs
    simp only
    cases made : Element.pairUp xs with
    | none =>
      rw [made] at paired
      exact .invalid found (.odd read (mt paired.mpr (by simp)))
    | some points =>
      rw [made] at paired
      exact .valid trivial found (.points read (paired.mp rfl))

theorem judged_opacity (attributes : Attributes) (tag name : String) :
    Judged tag attributes [⟨name, .opacity, false⟩] (fun _ => True)
      (Style.opacity attributes name) := by
  refine judged_optional trivial fun value found => ?_
  cases read : PathData.numbers value with
  | error e => exact .invalid found (.opacity read)
  | ok xs =>
    match xs with
    | [] => exact .invalid found (.several read (by simp))
    | [x] => exact .valid trivial found (.opacity read)
    | _ :: _ :: _ => exact .invalid found (.several read (by simp))

theorem judged_paint (attributes : Attributes) (tag name : String) (absent : Option Rgba) :
    Judged tag attributes [⟨name, .paint, false⟩] (fun _ => True)
      (Style.paint attributes name absent) := by
  unfold Style.paint Style.trimmed?
  cases found : attributes.find? name with
  | none => exact ⟨trivial, List.forall_mem_singleton.mpr (.absent found rfl)⟩
  | some value =>
    split
    · rename_i missing
      cases missing
    · rename_i none
      exact .valid trivial found (.noPaint (Option.some.inj none))
    · rename_i trimmed not_none same
      obtain rfl : Text.trimmed value = trimmed := Option.some.inj same
      rw [parse_trimmed]
      cases read : Rgba.parse value with
      | ok c => exact .valid trivial found (.color read)
      | error e =>
        have not_none : Text.trimmed value ≠ "none" := fun none => not_none (none ▸ rfl)
        cases e <;> exact .invalid found (objects_of_parse not_none read)

theorem judged_strokeWidth (attributes : Attributes) (tag : String) :
    Judged tag attributes [⟨"stroke-width", .extent, false⟩] (fun _ => True)
      (Style.readStrokeWidth attributes) := by
  refine judged_optional trivial fun value found => ?_
  cases read : PathData.length value with
  | error e => exact .invalid found (.extent read)
  | ok x =>
    simp only
    split
    · rename_i negative
      exact .invalid found (.negative read negative)
    · rename_i nonneg
      exact .valid trivial found (.extent read nonneg)

theorem isSome_ofName? (name : String) :
    (FillRule.ofName? name).isSome = true ↔ name = "nonzero" ∨ name = "evenodd" := by
  unfold FillRule.ofName?
  split
  · simp
  · simp
  · rename_i not_nonzero not_evenodd
    simpa using ⟨not_nonzero, not_evenodd⟩

theorem judged_fillRule (attributes : Attributes) (tag : String) :
    Judged tag attributes [⟨"fill-rule", .fillRule, false⟩] (fun _ => True)
      (Style.readFillRule attributes) := by
  unfold Style.readFillRule Style.trimmed?
  cases found : attributes.find? "fill-rule" with
  | none => exact ⟨trivial, List.forall_mem_singleton.mpr (.absent found rfl)⟩
  | some value =>
    split
    · rename_i missing
      cases missing
    · rename_i inherited
      have known : Text.trimmed value = "inherit" := Option.some.inj inherited
      exact .valid trivial found (.fillRule (by simp [known]))
    · rename_i trimmed not_inherit same
      obtain rfl : Text.trimmed value = trimmed := Option.some.inj same
      have named := isSome_ofName? (Text.trimmed value)
      cases rule : FillRule.ofName? (Text.trimmed value) with
      | some rule' =>
        rw [rule] at named
        exact .valid trivial found (.fillRule (by simp [named.mp rfl]))
      | none =>
        rw [rule] at named
        have unnamed := mt named.mpr (by simp)
        have not_inherit : Text.trimmed value ≠ "inherit" := fun known => not_inherit (known ▸ rfl)
        exact .invalid found (.fillRule (by simpa [not_inherit] using unnamed))

theorem judged_style (attributes : Attributes) (tag : String) :
    Judged tag attributes Check.style (fun _ => True) (Style.read attributes) :=
  (judged_opacity attributes tag "opacity").bind fun _ _ =>
    (judged_opacity attributes tag "fill-opacity").bind fun _ _ =>
      (judged_opacity attributes tag "stroke-opacity").bind fun _ _ =>
        (judged_paint attributes tag "fill" _).bind fun _ _ =>
          (judged_paint attributes tag "stroke" _).bind fun _ _ =>
            (judged_strokeWidth attributes tag).bind fun _ _ =>
              (judged_fillRule attributes tag).bind fun _ _ => .pure trivial

theorem exists_outline (options : Options) {element : Element}
    (plain : ∀ data, element ≠ .path data) : ∃ o, element.outline options = .ok o := by
  unfold Element.outline
  cases element with
  | rect | circle | ellipse =>
    simp only
    split <;> exact ⟨_, rfl⟩
  | line | polyline | polygon => exact ⟨_, rfl⟩
  | path data => exact absurd rfl (plain data)

/-- Path data is not checked before the outline is drawn, other elements are. -/
theorem judged_plain (attributes : Attributes) (listed : (tag, checks) ∈ Check.geometry)
    (plain : tag ≠ "path") :
    Judged tag attributes checks
      (fun read => ∃ element, read = some element ∧ ∀ data, element ≠ .path data)
      (Element.read tag attributes) := by
  simp only [Check.geometry, List.mem_cons, Prod.mk.injEq, List.not_mem_nil, or_false] at listed
  rcases listed with ⟨rfl, rfl⟩ | ⟨rfl, rfl⟩ | ⟨rfl, rfl⟩ | ⟨rfl, rfl⟩ | ⟨rfl, rfl⟩ | ⟨rfl, rfl⟩ |
    ⟨rfl, rfl⟩
  · exact (judged_number attributes "rect" "x").bind fun _ _ =>
      (judged_number attributes "rect" "y").bind fun _ _ =>
        (judged_size attributes "rect" "width").bind fun _ _ =>
          (judged_size attributes "rect" "height").bind fun _ _ => .pure ⟨_, rfl, nofun⟩
  · exact (judged_number attributes "circle" "cx").bind fun _ _ =>
      (judged_number attributes "circle" "cy").bind fun _ _ =>
        (judged_size attributes "circle" "r").bind fun _ _ => .pure ⟨_, rfl, nofun⟩
  · exact (judged_number attributes "ellipse" "cx").bind fun _ _ =>
      (judged_number attributes "ellipse" "cy").bind fun _ _ =>
        (judged_size attributes "ellipse" "rx").bind fun _ _ =>
          (judged_size attributes "ellipse" "ry").bind fun _ _ => .pure ⟨_, rfl, nofun⟩
  · exact (judged_number attributes "line" "x1").bind fun _ _ =>
      (judged_number attributes "line" "y1").bind fun _ _ =>
        (judged_number attributes "line" "x2").bind fun _ _ =>
          (judged_number attributes "line" "y2").bind fun _ _ => .pure ⟨_, rfl, nofun⟩
  · exact (judged_points attributes "polyline").bind fun _ _ => .pure ⟨_, rfl, nofun⟩
  · exact (judged_points attributes "polygon").bind fun _ _ => .pure ⟨_, rfl, nofun⟩
  · exact absurd rfl plain

theorem judged_styled (attributes : Attributes) (tag : String) (o : Outline Float) :
    Judged tag attributes Check.style (fun shape => shape.isSome = true)
      (Style.read attributes >>= fun style => .ok (some (Shape.mk o style))) := by
  rw [← List.append_nil Check.style]
  exact (judged_style attributes tag).bind fun _ _ => .pure rfl

theorem judged_pathData (options : Options) (attributes : Attributes) :
    Judged "path" attributes [⟨"d", .pathData, true⟩] (fun _ => True)
      (Element.required attributes "path" "d" >>= fun data =>
        (PathData.outline options.curveSegments data).mapError .pathData) := by
  refine judged_required fun value found => ?_
  unfold PathData.outline
  cases parts : PathData.commands value with
  | mk commands fault =>
    have faulty : (PathData.commands value).2 = fault := by rw [parts]
    cases fault with
    | some e => exact .invalid found (.pathData faulty)
    | none => exact .valid trivial found (.pathData faulty)

/-- The checks of a tag that is drawn are those of its geometry and then those of the style. -/
theorem judged_shape (options : Options) (attributes : Attributes)
    (listed : (tag, checks) ∈ Check.geometry) :
    Judged tag attributes (checks ++ Check.style) (fun shape => shape.isSome = true)
      (Shape.read options tag attributes) := by
  by_cases path : tag = "path"
  · subst path
    obtain rfl : checks = [⟨"d", .pathData, true⟩] := by simpa [Check.geometry] using listed
    have parts : Shape.read options "path" attributes =
        (Element.required attributes "path" "d" >>= fun data =>
          (PathData.outline options.curveSegments data).mapError .pathData) >>= fun o =>
            Style.read attributes >>= fun style => .ok (some ⟨o, style⟩) := by
      unfold Shape.read Element.read
      cases Element.required attributes "path" "d" <;> rfl
    rw [parts]
    exact (judged_pathData options attributes).bind fun o _ => judged_styled attributes "path" o
  · refine (judged_plain attributes listed path).bind ?_
    rintro _ ⟨element, rfl, plain⟩
    obtain ⟨o, made⟩ := exists_outline options plain
    simp only [made]
    exact judged_styled attributes tag o

end Readers

theorem read_of_unlisted (options : Options) (unlisted : tag ∉ Check.geometry.map Prod.fst) :
    Shape.read options tag attributes = .ok none := by
  unfold Shape.read Element.read
  split
  case h_8 => rfl
  all_goals exact absurd (by decide) unlisted

namespace Painter

/-- The painter after an element was dropped. -/
def dropping (painter : Painter) (tag : String) (error : ElementError) : Painter :=
  { painter with
    report := { painter.report with
      dropped := painter.report.dropped.push ⟨painter.index, tag, error⟩ }
    index := painter.index + 1 }

/-- The painter after an element was ignored. -/
def ignoring (painter : Painter) : Painter :=
  { painter with
    report := { painter.report with ignored := painter.report.ignored + 1 }
    index := painter.index + 1 }

theorem dropping_injective {painter : Painter}
    (same : painter.dropping tag error = painter.dropping tag error') : error = error' := by
  have last := congrArg (fun painter : Painter => painter.report.dropped.back?) same
  simp only [dropping, Array.back?_push, Option.some.injEq] at last
  exact (Dropped.mk.inj last).2.2

theorem draw_unlisted (painter : Painter) (attributes : Attributes)
    (unlisted : tag ∉ Check.geometry.map Prod.fst) :
    painter.draw tag attributes = (false, painter.ignoring) := by
  unfold draw
  simp only [read_of_unlisted painter.options unlisted]
  rfl

theorem draw_listed (painter : Painter) (attributes : Attributes)
    (listed : (tag, checks) ∈ Check.geometry) :
    ((painter.draw tag attributes).1 = true ∧
        (painter.draw tag attributes).2.report =
          { painter.report with drawn := painter.report.drawn + 1 } ∧
        ∀ check ∈ checks ++ Check.style, check.Passes attributes) ∨
      ∃ error, painter.draw tag attributes = (false, painter.dropping tag error) ∧
        FirstFault tag attributes (checks ++ Check.style) error := by
  have judged := judged_shape painter.options attributes listed
  unfold draw
  cases read : Shape.read painter.options tag attributes with
  | error error =>
    rw [read] at judged
    simp only [read]
    exact .inr ⟨error, rfl, judged⟩
  | ok shape =>
    rw [read] at judged
    obtain ⟨some_shape, all⟩ := judged
    obtain ⟨shape, rfl⟩ := Option.isSome_iff_exists.mp some_shape
    simp only [read]
    exact .inl ⟨trivial, trivial, all⟩

/-- An element is ignored just if its tag is not listed, and then it is only counted. An element of
a listed tag is drawn just if it passes all checks of its geometry and of its style. Otherwise one
of them is the first that it fails, and the element is dropped with the error of that one. -/
theorem draw_decided (painter : Painter) (tag : String) (attributes : Attributes) :
    let after := painter.draw tag attributes
    let report := painter.report
    (after.2.report.ignored = report.ignored + 1 ↔ tag ∉ Check.geometry.map Prod.fst) ∧
    (tag ∉ Check.geometry.map Prod.fst → after = (false, painter.ignoring)) ∧
    ∀ checks, (tag, checks) ∈ Check.geometry →
      (after.1 = true ↔ ∀ check ∈ checks ++ Check.style, check.Passes attributes) ∧
      (after.2.report = { report with drawn := report.drawn + 1 } ↔
        ∀ check ∈ checks ++ Check.style, check.Passes attributes) ∧
      ((∀ check ∈ checks ++ Check.style, check.Passes attributes) ∨
        ∃ error, FirstFault tag attributes (checks ++ Check.style) error) ∧
      ∀ error, after = (false, painter.dropping tag error) ↔
        FirstFault tag attributes (checks ++ Check.style) error := by
  intro after report
  refine ⟨⟨?_, fun unlisted => ?_⟩, painter.draw_unlisted attributes, fun checks listed => ?_⟩
  · intro counted member
    obtain ⟨⟨_, checks⟩, listed, rfl⟩ := List.mem_map.mp member
    rcases painter.draw_listed attributes listed with ⟨-, drawn, -⟩ | ⟨error, dropped, -⟩
    · have kept : after.2.report.ignored = report.ignored :=
        (congrArg Report.ignored drawn).trans rfl
      omega
    · have kept : after.2.report.ignored = report.ignored :=
        congrArg (fun result => result.2.report.ignored) dropped
      omega
  · exact congrArg (fun result => result.2.report.ignored)
      (painter.draw_unlisted attributes unlisted)
  · rcases painter.draw_listed attributes listed with ⟨shown, drawn, all⟩ | ⟨error, dropped, fault⟩
    · refine ⟨iff_of_true shown all, iff_of_true drawn all, .inl all, fun error => ?_⟩
      refine iff_of_false (fun dropped => ?_) fun fault => fault.not_all all
      exact Bool.noConfusion (shown.symm.trans (congrArg Prod.fst dropped))
    · refine ⟨iff_of_false ?_ fault.not_all, iff_of_false ?_ fault.not_all, .inr ⟨error, fault⟩,
        fun error' => ⟨fun dropped' => ?_, fun fault' => ?_⟩⟩
      · exact fun shown => Bool.noConfusion (shown.symm.trans (congrArg Prod.fst dropped))
      · intro drawn
        have kept : after.2.report.drawn = report.drawn :=
          congrArg (fun result => result.2.report.drawn) dropped
        have counted : after.2.report.drawn = report.drawn + 1 := congrArg Report.drawn drawn
        omega
      · have same := dropping_injective (congrArg Prod.snd (dropped.symm.trans dropped'))
        rwa [← same]
      · rw [← fault.unique fault']
        exact dropped

/-- A circle with three mistakes. -/
def mistakenCircle : Attributes := .ofPairs [("cx", "1"), ("r", "-1"), ("opacity", "half")]

/-- The points of a line, once alone and once with a stroke that is no color. -/
def linePoints : List (String × String) := [("x1", "0"), ("y1", "0"), ("x2", "2"), ("y2", "2px")]

def oddLine : Attributes := .ofPairs (linePoints ++ [("stroke", " reddish ")])

theorem unrecognized_reddish : Unrecognized " reddish " := by
  have letters : Text.trim " reddish ".toList = "reddish".toList := by decide
  refine ⟨by decide, ?_, by decide⟩
  rintro (⟨digits, hex⟩ | ⟨rest, function⟩)
  · rw [Rgba.HexNotation, letters] at hex
    exact absurd (List.cons.inj hex).1 (by decide)
  · have bracket := function.bracket_mem
    rw [letters] at bracket
    exact absurd bracket (by decide)

/-- Of the circle it is told that it has no `cy`, and of the line that its stroke is unknown. The
points of the line alone are drawn, and a title is ignored. -/
theorem draw_mistaken :
    let painter := Painter.new 2 2 {}
    painter.draw "circle" mistakenCircle =
        (false, painter.dropping "circle" (.missingAttribute "circle" "cy")) ∧
      painter.draw "line" oddLine =
        (false, painter.dropping "line" (.unknownColor "stroke" "reddish")) ∧
      (painter.draw "line" (.ofPairs linePoints)).1 = true ∧
      (painter.draw "title" mistakenCircle).2.report.ignored = 1 := by
  intro painter
  have zero : PathData.length "0" = .ok 0 := by decide +kernel
  have one : PathData.length "1" = .ok 1 := by decide +kernel
  have two : PathData.length "2" = .ok 2 := by decide +kernel
  have pixels : PathData.length "2px" = .ok 2 := by decide +kernel
  have circle := (painter.draw_decided "circle" mistakenCircle).2.2 _
    (List.mem_cons_of_mem _ List.mem_cons_self)
  have line (attributes : Attributes) := (painter.draw_decided "line" attributes).2.2
    [⟨"x1", .coordinate, true⟩, ⟨"y1", .coordinate, true⟩, ⟨"x2", .coordinate, true⟩,
      ⟨"y2", .coordinate, true⟩] (by simp [Check.geometry])
  refine ⟨?_, ?_, ?_, ?_⟩
  · exact (circle.2.2.2 _).mpr
      (.later (.valid rfl (.coordinate one)) (.here (.missing rfl rfl)))
  · refine ((line oddLine).2.2.2 _).mpr ?_
    refine .later (.valid rfl (.coordinate zero)) (.later (.valid rfl (.coordinate zero)) ?_)
    refine .later (.valid rfl (.coordinate two)) (.later (.valid rfl (.coordinate pixels)) ?_)
    refine .later (.absent rfl rfl) (.later (.absent rfl rfl) (.later (.absent rfl rfl) ?_))
    exact .later (.absent rfl rfl) (.here (.invalid rfl (.unknown unrecognized_reddish)))
  · refine (line (.ofPairs linePoints)).1.mpr ?_
    simp only [Check.style, List.cons_append, List.nil_append, List.forall_mem_cons]
    exact ⟨.valid rfl (.coordinate zero), .valid rfl (.coordinate zero),
      .valid rfl (.coordinate two), .valid rfl (.coordinate pixels), .absent rfl rfl,
      .absent rfl rfl, .absent rfl rfl, .absent rfl rfl, .absent rfl rfl, .absent rfl rfl,
      .absent rfl rfl, nofun⟩
  · exact (painter.draw_decided "title" mistakenCircle).1.mpr (by decide)

end Painter
end VectorPaint
