/-!
# Patterns

A pattern is a tree of slots: a slot holds one step, or a group that shares the slot evenly between
its children. The root of a pattern is a list of slots. A step is a sound with a payload, or
silence, which keeps its slot but plays nothing.

## Main definitions

* `Step`, `Pattern`, `Slots`: steps, nodes and lists of nodes.
* `Path`: the indices that lead from a root to a node.
* `Pattern.leafCount`, `Slots.leafCount`: the number of steps.
* `Pattern.get?`, `Slots.get?`: the node at a path.

## Main results

* `Pattern.induction`: induction over nodes.
* `Slots.get?_cons_cons`: a path goes through groups only.
-/

namespace Ostinato

/-- What a slot plays: a sound, or nothing. -/
inductive Step (α : Type)
  | sound (payload : α)
  | silence
  deriving DecidableEq

namespace Step

variable {α : Type}

/-- The payload of a sound. -/
def payload? : Step α → Option α
  | .sound payload => some payload
  | .silence => none

/-- Whether a step plays nothing. -/
def isSilent : Step α → Bool
  | .sound _ => false
  | .silence => true

end Step

/-- A slot: one step, or a group of slots that share it. -/
inductive Pattern (α : Type)
  | leaf (step : Step α)
  | group (children : List (Pattern α))

/-- A list of slots, such as the root of a pattern or the children of a group. -/
abbrev Slots (α : Type) := List (Pattern α)

/-- The indices that lead from a list of slots to a node. -/
abbrev Path := List Nat

variable {α : Type}

namespace Pattern

/-- Induction over nodes: a property holds of every node if it holds of every step, and of every
group whose children have it. -/
@[elab_as_elim] theorem induction {motive : Pattern α → Prop} (leaf : ∀ step, motive (.leaf step))
    (group : ∀ children, (∀ child ∈ children, motive child) → motive (.group children)) :
    ∀ node, motive node
  | .leaf step => leaf step
  | .group children => group children fun child _ => induction leaf group child

/-- A sound. -/
def sound (payload : α) : Pattern α :=
  .leaf (.sound payload)

/-- A silent slot. -/
def silence : Pattern α :=
  .leaf .silence

/-- Whether a node is a group. -/
def isGroup : Pattern α → Bool
  | .leaf _ => false
  | .group _ => true

end Pattern

/-! ### Equality -/

mutual

/-- Decides whether two nodes are equal. -/
def Pattern.decEq [DecidableEq α] : (p q : Pattern α) → Decidable (p = q)
  | .leaf s, .leaf t => decidable_of_iff (s = t) (by simp)
  | .group cs, .group ds =>
    match Slots.decEq cs ds with
    | isTrue h => isTrue (by rw [h])
    | isFalse h => isFalse (by simpa using h)
  | .leaf _, .group _ => isFalse nofun
  | .group _, .leaf _ => isFalse nofun

/-- Decides whether two lists of slots are equal. -/
def Slots.decEq [DecidableEq α] : (cs ds : List (Pattern α)) → Decidable (cs = ds)
  | [], [] => isTrue rfl
  | [], _ :: _ => isFalse nofun
  | _ :: _, [] => isFalse nofun
  | c :: cs, d :: ds =>
    match Pattern.decEq c d with
    | isFalse h => isFalse fun e => h (List.cons.inj e).1
    | isTrue h =>
      match Slots.decEq cs ds with
      | isFalse h' => isFalse fun e => h' (List.cons.inj e).2
      | isTrue h' => isTrue (by rw [h, h'])

end

instance [DecidableEq α] : DecidableEq (Pattern α) := Pattern.decEq

/-! ### Counting steps -/

mutual

/-- The number of steps at or below a node. -/
def Pattern.leafCount : Pattern α → Nat
  | .leaf _ => 1
  | .group children => Slots.leafCount children

/-- The number of steps in a list of slots. -/
def Slots.leafCount : List (Pattern α) → Nat
  | [] => 0
  | child :: children => child.leafCount + Slots.leafCount children

end

/-! ### Nodes at paths -/

/-- The node that a path leads to, the node itself for the empty path. -/
def Pattern.get? : Pattern α → Path → Option (Pattern α)
  | node, [] => some node
  | .leaf _, _ :: _ => none
  | .group children, i :: path => children[i]?.bind fun child => child.get? path

/-- The node that a path leads to from a list of slots; the empty path leads to none. -/
def Slots.get? (slots : Slots α) : Path → Option (Pattern α)
  | [] => none
  | i :: path => slots[i]?.bind fun child => child.get? path

namespace Slots

@[simp] theorem get?_nil (slots : Slots α) : Slots.get? slots [] = none := rfl

@[simp] theorem get?_singleton (slots : Slots α) (i : Nat) :
    Slots.get? slots [i] = slots[i]? := by
  rw [Slots.get?]
  cases slots[i]? <;> simp [Pattern.get?]

/-- A path with more than one index goes through a group. -/
theorem get?_cons_cons (slots : Slots α) (i j : Nat) (path : Path) :
    Slots.get? slots (i :: j :: path) =
      match slots[i]? with
      | some (.group children) => Slots.get? children (j :: path)
      | _ => none := by
  rw [Slots.get?]
  cases slots[i]? with
  | none => rfl
  | some node => cases node <;> rfl

end Slots

end Ostinato
