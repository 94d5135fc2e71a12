import Mathlib.Data.List.Perm.Subperm
import Ostinato.Proofs.Pattern.InPlace

/-!
# Counting revisions

Edits are kept by whoever made the writes, and nothing stops them from undoing an edit late, out of
order, or more than once: all that the undoing needs is a place for what it puts back. The revision
counts on without regard to that. As long as it is a number, it is the number of writes less the
number of undoings; an edit that is undone twice can take it below zero, and this ends everything.

## Main definitions

* `TrackedPattern.Move`: a write, or the undoing of an edit that has been given.
* `TrackedPattern.Ledger`: a pattern with the edits that it has given and those that were undone.
* `Ledger.perform`, `Ledger.run`: what moves do.
* `Ledger.found?`, `Ledger.found`: the revisions that undoings find when they take them back.

## Main results

* `Ledger.perform_cases`: what a move does.
* `Ledger.IsKept.of_run`: every run keeps count of the writes and the undoings.
* `Ledger.run_ne_none_iff`: when a run comes to its end.
* `Ledger.revision_run`: the revision after every run, and what breaks off the others.
-/

namespace Ostinato.TrackedPattern

open Slots

variable {α : Type}

/-! ### Moves -/

/-- A write, or the undoing of the edit with a number, counted from the first one that was given. -/
inductive Move (α : Type)
  | write (write : Write α)
  | undo (number : Nat)
  deriving DecidableEq

/-- A pattern with the edits that it has given, the oldest first, and the numbers of those that have
been undone, the latest first. -/
structure Ledger (α : Type) where
  pattern : TrackedPattern α
  edits : List (Edit α) := []
  undone : List Nat := []
  deriving DecidableEq

namespace Ledger

/-- What a move leaves; nothing if it takes the revision below zero. A move that is refused changes
nothing. -/
def perform (ledger : Ledger α) : Move α → Option (Ledger α)
  | .write write =>
    match ledger.pattern.write write with
    | .error _ => some ledger
    | .ok (pattern, edit) => some { ledger with pattern, edits := ledger.edits ++ [edit] }
  | .undo number =>
    match ledger.edits[number]? with
    | none => some ledger
    | some edit =>
      match ledger.pattern.revert edit with
      | .error (.refused _) => some ledger
      | .error .underflow => none
      | .ok pattern => some { ledger with pattern, undone := number :: ledger.undone }

/-- What moves leave. -/
def run (ledger : Ledger α) : List (Move α) → Option (Ledger α)
  | [] => some ledger
  | move :: moves => (ledger.perform move).bind (·.run moves)

/-- The revision that an undoing finds, once what it puts back is written. -/
def found? (ledger : Ledger α) : Move α → Option Nat
  | .write _ => none
  | .undo number =>
    ledger.edits[number]?.bind fun edit =>
      (ledger.pattern.putBack edit).toOption.map fun written => written.1.revision

/-- The revisions that the undoings of a run find, up to the one that breaks it off. -/
def found (ledger : Ledger α) : List (Move α) → List Nat
  | [] => []
  | move :: moves =>
    (ledger.found? move).toList ++ (ledger.perform move).elim [] (·.found moves)

/-! ### What a move does -/

/-- A move is refused, or it is a write and gives an edit, or it undoes an edit: then it finds the
revision one further on, and takes it back by two if it can. -/
theorem perform_cases (ledger : Ledger α) (move : Move α) :
    (ledger.found? move = none ∧ ledger.perform move = some ledger) ∨
      (∃ root edit, ledger.found? move = none ∧ ledger.perform move =
        some { ledger with
          pattern := ledger.pattern.advance root, edits := ledger.edits ++ [edit] }) ∨
      ∃ root, ∃ number < ledger.edits.length, move = .undo number ∧
        ledger.found? move = some (ledger.pattern.revision + 1) ∧ ledger.perform move =
          if ledger.pattern.revision = 0 then none
          else some { ledger with
            pattern := ⟨root, ledger.pattern.revision - 1⟩
            undone := number :: ledger.undone } := by
  cases move with
  | write write =>
    rw [perform]
    cases hwrite : ledger.pattern.write write with
    | error e => exact .inl ⟨rfl, rfl⟩
    | ok result =>
      obtain ⟨next, edit⟩ := result
      obtain ⟨root, -, -, rfl, -⟩ := exists_of_write hwrite
      exact .inr (.inl ⟨root, edit, rfl, rfl⟩)
  | undo number =>
    rw [perform, found?]
    cases hedit : ledger.edits[number]? with
    | none => exact .inl ⟨rfl, rfl⟩
    | some edit =>
      have hnumber := (List.getElem?_eq_some_iff.1 hedit).1
      dsimp only [Option.bind_some]
      by_cases hvalid : edit.undoing.IsValid ledger.pattern.root
      · obtain ⟨root, hgives⟩ := (Write.exists_gives_iff edit.undoing).2 hvalid
        obtain ⟨made, -, hwrite, -⟩ := write_of_gives hgives
        refine .inr (.inr ⟨root, number, hnumber, rfl, ?_, ?_⟩)
        · rw [putBack_eq_write, hwrite]
          rfl
        · rw [revert_of_gives hgives]
          by_cases hzero : ledger.pattern.revision = 0
          · simp only [if_pos hzero]
          · simp only [if_neg hzero]
      · rw [revert_of_not_isValid hvalid, putBack_eq_write, write_of_not_isValid hvalid]
        exact .inl ⟨rfl, rfl⟩

/-! ### What every run keeps -/

/-- The revision and the undoings together are the writes, and only edits that have been given are
undone. -/
structure IsKept (ledger : Ledger α) : Prop where
  counted : ledger.pattern.revision + ledger.undone.length = ledger.edits.length
  issued : ∀ number ∈ ledger.undone, number < ledger.edits.length

namespace IsKept

variable {ledger next : Ledger α}

theorem of_perform (h : ledger.IsKept) {move : Move α}
    (hperform : ledger.perform move = some next) :
    next.IsKept := by
  -- a write adds one on both sides; an undoing takes one from the revision, and is one more itself
  rcases ledger.perform_cases move with ⟨-, hcase⟩ | ⟨root, edit, -, hcase⟩ |
    ⟨root, number, hnumber, -, -, hcase⟩
  · cases hperform.symm.trans hcase
    exact h
  · cases hperform.symm.trans hcase
    constructor
    · dsimp only [advance]
      rw [List.length_append, List.length_singleton, ← h.counted, Nat.add_right_comm]
    · intro number hmem
      rw [List.length_append]
      exact Nat.lt_add_right _ (h.issued number hmem)
  · have hcounted := h.counted
    rw [hperform] at hcase
    split at hcase
    · contradiction
    · next hpos =>
      cases hcase
      constructor
      · dsimp only
        rw [List.length_cons]
        omega
      · exact List.forall_mem_cons.2 ⟨hnumber, h.issued⟩

theorem of_run (h : ledger.IsKept) {moves : List (Move α)} (hrun : ledger.run moves = some next) :
    next.IsKept := by
  induction moves generalizing ledger with
  | nil =>
    cases hrun
    exact h
  | cons move moves ih =>
    obtain ⟨middle, hperform, hrest⟩ := Option.bind_eq_some_iff.1 hrun
    exact ih (h.of_perform hperform) hrest

theorem not_nodup_cons (h : ledger.IsKept) (hzero : ledger.pattern.revision = 0) {number : Nat}
    (hnumber : number < ledger.edits.length) : ¬ (number :: ledger.undone).Nodup := by
  intro honce
  have hissued : ∀ other ∈ number :: ledger.undone, other < ledger.edits.length :=
    List.forall_mem_cons.2 ⟨hnumber, h.issued⟩
  have hsubset : number :: ledger.undone ⊆ List.range ledger.edits.length :=
    fun other hmem => List.mem_range.2 (hissued other hmem)
  have hlength := (honce.subperm hsubset).length_le
  have hcounted := h.counted
  rw [List.length_range, List.length_cons] at hlength
  omega

end IsKept

/-! ### Runs that break off -/

theorem perform_ne_none_iff (ledger : Ledger α) (move : Move α) :
    ledger.perform move ≠ none ↔ ∀ revision ∈ ledger.found? move, 2 ≤ revision := by
  rcases ledger.perform_cases move with ⟨hfound, hperform⟩ | ⟨root, edit, hfound, hperform⟩ |
    ⟨root, number, -, -, hfound, hperform⟩
  · simp [hfound, hperform]
  · simp [hfound, hperform]
  · simp only [hfound, hperform, Option.mem_some, forall_eq', ne_eq, ite_eq_left_iff, reduceCtorEq,
      imp_false, Decidable.not_not]
    omega

/-- **A run comes to its end** exactly if all its undoings find a revision of at least two. -/
theorem run_ne_none_iff (ledger : Ledger α) (moves : List (Move α)) :
    ledger.run moves ≠ none ↔ ∀ revision ∈ ledger.found moves, 2 ≤ revision := by
  induction moves generalizing ledger with
  | nil => simp [run, found]
  | cons move moves ih =>
    have hmove := ledger.perform_ne_none_iff move
    simp only [Option.mem_def, ← Option.mem_toList] at hmove
    rw [run, found, List.forall_mem_append, ← hmove]
    cases hperform : ledger.perform move with
    | none => simp
    | some next =>
      rw [Option.bind_some, ih]
      simp

/-- A run that breaks off comes to the undoing of an edit at revision zero. -/
theorem exists_of_run_eq_none {ledger : Ledger α} {moves : List (Move α)}
    (h : ledger.run moves = none) :
    ∃ before number after last, moves = before ++ .undo number :: after ∧
      ledger.run before = some last ∧ last.pattern.revision = 0 ∧
      number < last.edits.length ∧ last.found? (.undo number) = some 1 := by
  induction moves generalizing ledger with
  | nil => contradiction
  | cons move moves ih =>
    cases hperform : ledger.perform move with
    | some next =>
      rw [run, hperform] at h
      obtain ⟨before, number, after, last, rfl, hbefore, hlast⟩ := ih h
      refine ⟨move :: before, number, after, last, rfl, ?_, hlast⟩
      rw [run, hperform]
      exact hbefore
    | none =>
      rcases ledger.perform_cases move with ⟨-, hcase⟩ | ⟨root, edit, -, hcase⟩ |
        ⟨root, number, hnumber, rfl, hfound, hcase⟩
      · cases hperform.symm.trans hcase
      · cases hperform.symm.trans hcase
      · rw [hperform] at hcase
        split at hcase
        · next hzero =>
          rw [hzero] at hfound
          exact ⟨[], number, moves, ledger, rfl, rfl, hzero, hnumber, hfound⟩
        · contradiction

/-! ### Every run -/

/-- **What the revision counts.** Whatever is written to a new pattern and whichever of its edits
are undone, in whatever order and however often: as long as it is a number, the revision is the
number of accepted writes less the number of undoings. It goes below zero unless every undoing, once
what it puts back is written, finds a revision of at least two. If one does not, then it finds the
revision one, as many edits have been undone before as were given, and some edit is undone for a
second time. -/
theorem revision_run (root : Slots α) (moves : List (Move α)) :
    let start : Ledger α := { pattern := { root } }
    (∀ ledger, start.run moves = some ledger →
      ledger.pattern.revision + ledger.undone.length = ledger.edits.length) ∧
    (start.run moves ≠ none ↔ ∀ revision ∈ start.found moves, 2 ≤ revision) ∧
    (start.run moves = none → ∃ before number after ledger,
      moves = before ++ .undo number :: after ∧ start.run before = some ledger ∧
        ledger.found? (.undo number) = some 1 ∧ ledger.undone.length = ledger.edits.length ∧
        ¬ (number :: ledger.undone).Nodup) := by
  intro start
  have hstart : start.IsKept := ⟨rfl, fun number hmem => absurd hmem List.not_mem_nil⟩
  refine ⟨fun ledger hrun => (hstart.of_run hrun).counted, start.run_ne_none_iff moves,
    fun hbreaks => ?_⟩
  obtain ⟨before, number, after, ledger, hmoves, hbefore, hzero, hnumber, hfound⟩ :=
    exists_of_run_eq_none hbreaks
  have hledger : ledger.IsKept := hstart.of_run hbefore
  have hcounted := hledger.counted
  rw [hzero, Nat.zero_add] at hcounted
  exact ⟨before, number, after, ledger, hmoves, hbefore, hfound, hcounted,
    hledger.not_nodup_cons hzero hnumber⟩

/-- Three edits are undone out of order, with a refused write and a refused undoing in between. -/
theorem revision_run_out_of_order :
    let start : Ledger Char := { pattern := { root := [.sound 'A', .sound 'B'] } }
    let moves : List (Move Char) :=
      [.write (.setAt [0] (.sound 'X')), .write (.insertAt [2] .silence), .undo 0,
        .write (.removeAt [7]), .write (.replace []), .undo 1, .undo 2, .undo 1]
    ∃ ledger, start.run moves = some ledger ∧ ledger.undone = [1, 2, 0] ∧
      ledger.pattern = ⟨[.sound 'A', .sound 'B'], 0⟩ ∧
      (∀ revision ∈ start.found moves, 2 ≤ revision) ∧
      ledger.pattern.revision + ledger.undone.length = ledger.edits.length := by
  intro start moves
  obtain ⟨ledger, hrun, hundone, hpattern⟩ : ∃ ledger, start.run moves = some ledger ∧
      ledger.undone = [1, 2, 0] ∧ ledger.pattern = ⟨[.sound 'A', .sound 'B'], 0⟩ :=
    ⟨_, rfl, rfl, rfl⟩
  obtain ⟨hcounted, hends, -⟩ := revision_run [.sound 'A', .sound 'B'] moves
  have hgoes : start.run moves ≠ none := hrun ▸ Option.some_ne_none ledger
  exact ⟨ledger, hrun, hundone, hpattern, hends.1 hgoes, hcounted ledger hrun⟩

/-- An edit that is undone twice takes the revision below zero: the second undoing has a place for
what it puts back, but finds the revision one. -/
theorem revision_run_undone_twice :
    let start : Ledger Char := { pattern := { root := [.sound 'A'] } }
    let moves : List (Move Char) := [.write (.setAt [0] (.sound 'X')), .undo 0, .undo 0]
    (∃ ledger, start.run (moves.take 2) = some ledger ∧ ledger.pattern = ⟨[.sound 'A'], 0⟩ ∧
      ledger.edits = [.set [0] (.sound 'A')] ∧ ledger.undone = [0] ∧
      ledger.found? (.undo 0) = some 1 ∧
      ledger.pattern.revert (.set [0] (.sound 'A')) = .error .underflow) ∧
    start.found moves = [2, 1] ∧ (¬ ∀ revision ∈ start.found moves, 2 ≤ revision) ∧
    start.run moves = none := by
  intro start moves
  have hfound : start.found moves = [2, 1] := by decide +kernel
  have hsecond : 1 ∈ start.found moves := hfound ▸ List.mem_cons_of_mem _ List.mem_cons_self
  exact ⟨⟨_, rfl, rfl, rfl, rfl, rfl, rfl⟩, hfound, fun h => absurd (h 1 hsecond) (by decide), rfl⟩

end Ledger

end Ostinato.TrackedPattern
