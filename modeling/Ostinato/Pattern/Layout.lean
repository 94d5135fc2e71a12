import Ostinato.Pattern.Error
import Ostinato.Time.Span

/-!
# Layout

A pattern is laid out over musical time: each slot of the root lasts one subdivision, and a group
shares its slot evenly between its children, the share rounded down to whole ticks. The placements
come in reading order. A group without children has no share to give, so such a pattern has no
layout.

## Main definitions

* `Placement`: a step at an offset.
* `Slots.firstEmptyGroup?`: the first group without children, in reading order.
* `Slots.layout`: the layout of a pattern, or the path of its first empty group.

## Main results

* `Slots.length_place`: a layout has one placement for each step.
-/

namespace Ostinato

/-- A step at an offset from the start of the pattern. -/
structure Placement (α : Type) where
  offset : Ticks
  step : Step α
  deriving DecidableEq

variable {α : Type}

/-! ### Empty groups -/

mutual

/-- The path from a node to the first group without children, at or below the node. -/
def Pattern.firstEmptyGroup? : Pattern α → Option Path
  | .leaf _ => none
  | .group [] => some []
  | .group (child :: children) => Slots.firstEmptyGroupFrom? 0 (child :: children)

/-- The path to the first group without children, in slots that are counted from `index` on. -/
def Slots.firstEmptyGroupFrom? (index : Nat) : List (Pattern α) → Option Path
  | [] => none
  | child :: children =>
    match child.firstEmptyGroup? with
    | some path => some (index :: path)
    | none => Slots.firstEmptyGroupFrom? (index + 1) children

end

/-- The path to the first group without children. The root itself may be empty. -/
def Slots.firstEmptyGroup? (root : Slots α) : Option Path :=
  Slots.firstEmptyGroupFrom? 0 root

/-! ### Placements -/

mutual

/-- The placements of a node whose slot has the given length and start. -/
def Pattern.place (slot start : Ticks) : Pattern α → List (Placement α)
  | .leaf step => [⟨start, step⟩]
  | .group children => Slots.placeFrom (slot / children.length) start 0 children

/-- The placements of slots of one length that are counted from `index` on, slot zero being at
`start`. -/
def Slots.placeFrom (slot start : Ticks) (index : Nat) : List (Pattern α) → List (Placement α)
  | [] => []
  | child :: children =>
    child.place slot (start + slot * index) ++ Slots.placeFrom slot start (index + 1) children

end

/-- The placements of a root with slots of one subdivision, from an offset on. -/
def Slots.place (root : Slots α) (subdivision offset : Ticks) : List (Placement α) :=
  Slots.placeFrom subdivision offset 0 root

/-- The layout of a root: its placements, unless it has an empty group. -/
def Slots.layout (root : Slots α) (subdivision offset : Ticks) :
    Except PatternError (List (Placement α)) :=
  match root.firstEmptyGroup? with
  | some path => .error (.emptyGroup path)
  | none => .ok (root.place subdivision offset)

/-! ### Size -/

mutual

theorem Pattern.length_place (slot start : Ticks) :
    (node : Pattern α) → (node.place slot start).length = node.leafCount
  | .leaf _ => rfl
  | .group children => Slots.length_placeFrom _ start 0 children

theorem Slots.length_placeFrom (slot start : Ticks) (index : Nat) :
    (slots : List (Pattern α)) →
      (Slots.placeFrom slot start index slots).length = Slots.leafCount slots
  | [] => rfl
  | child :: children => by
    rw [Slots.placeFrom, List.length_append, Pattern.length_place slot _ child,
      Slots.length_placeFrom slot start (index + 1) children, Slots.leafCount]

end

/-- One placement for each step. -/
@[simp] theorem Slots.length_place (root : Slots α) (subdivision offset : Ticks) :
    (root.place subdivision offset).length = Slots.leafCount root :=
  Slots.length_placeFrom subdivision offset 0 root

end Ostinato
