import Ostinato.Pattern.Basic
import Ostinato.Time.Span

/-!
# Schedules

A schedule lists the entries of a part by time, entries of equal time in the order in which they
were added. It is stored with the latest entry first: a part is mostly laid out forwards, and a new
entry has to pass only the entries that are later.

## Main definitions

* `Entry`: a step at a time, with the id under which it was added.
* `Schedule`, `Schedule.entries`: entries in order of time.
* `Schedule.insert`, `Schedule.remove`: adding and removing an entry.
* `Schedule.countBefore`, `Schedule.between`: the entries below a time, and in a range of times.

## Main results

* `Schedule.inOrder_entries`: the entries are in order of time.
* `Schedule.entries_insert`: a new entry stands behind the entries that are not later.
* `Schedule.between_eq_filter`: a range holds the entries with times in it.
-/

namespace Ostinato

/-- A step at a time, relative to the start of the part. -/
structure Entry (α : Type) where
  id : Nat
  time : ClockTime
  step : Step α
  deriving DecidableEq

variable {α : Type}

/-! ### Orders of entries -/

/-- The order of a schedule: no entry is later than one behind it. -/
def InOrder (entries : List (Entry α)) : Prop :=
  entries.Pairwise fun e f => e.time ≤ f.time

/-- The order in which a schedule is stored: no entry is earlier than one behind it. -/
def LatestFirst (entries : List (Entry α)) : Prop :=
  entries.Pairwise fun e f => f.time ≤ e.time

theorem LatestFirst.inOrder_reverse {entries : List (Entry α)} (h : LatestFirst entries) :
    InOrder entries.reverse :=
  List.pairwise_reverse.2 h

/-- Puts an entry behind the entries that are later, where the latest come first. -/
def Entry.insertInto (entry : Entry α) : List (Entry α) → List (Entry α)
  | [] => [entry]
  | other :: entries =>
    if entry.time < other.time then other :: entry.insertInto entries else entry :: other :: entries

theorem Entry.mem_insertInto {entry e : Entry α} {entries : List (Entry α)} :
    e ∈ entry.insertInto entries ↔ e = entry ∨ e ∈ entries := by
  induction entries with
  | nil => simp [Entry.insertInto]
  | cons other entries ih =>
    rw [Entry.insertInto]
    split
    · simp only [List.mem_cons, ih]
      exact or_left_comm
    · simp

theorem LatestFirst.insertInto {entry : Entry α} {entries : List (Entry α)}
    (h : LatestFirst entries) : LatestFirst (entry.insertInto entries) := by
  induction entries with
  | nil => exact List.pairwise_singleton _ _
  | cons other entries ih =>
    have ⟨hfirst, hrest⟩ := List.pairwise_cons.1 h
    rw [Entry.insertInto]
    split
    · next hlt =>
      refine List.pairwise_cons.2 ⟨fun e he => ?_, ih hrest⟩
      rcases Entry.mem_insertInto.1 he with rfl | he
      · exact Nat.le_of_lt hlt
      · exact hfirst e he
    · next hle =>
      have hle : other.time ≤ entry.time := Nat.le_of_not_lt hle
      refine List.pairwise_cons.2 ⟨fun e he => ?_, h⟩
      rcases List.mem_cons.1 he with rfl | he
      · exact hle
      · exact Nat.le_trans (hfirst e he) hle

/-- A new entry stands between the entries that are later and those that are not. -/
theorem LatestFirst.insertInto_eq {entry : Entry α} {entries : List (Entry α)}
    (h : LatestFirst entries) :
    entry.insertInto entries =
      entries.filter (entry.time < ·.time) ++ entry :: entries.filter (·.time ≤ entry.time) := by
  induction entries with
  | nil => rfl
  | cons other entries ih =>
    have ⟨hfirst, hrest⟩ := List.pairwise_cons.1 h
    rw [Entry.insertInto]
    split
    · next hlt =>
      have hnot : ¬ other.time ≤ entry.time := Nat.not_le_of_lt hlt
      simp [hlt, hnot, ih hrest]
    · next hle =>
      have hall : ∀ e ∈ other :: entries, e.time ≤ entry.time := fun e he => by
        have hother : other.time ≤ entry.time := Nat.le_of_not_lt hle
        rcases List.mem_cons.1 he with rfl | he
        · exact hother
        · exact Nat.le_trans (hfirst e he) hother
      have hnone : ∀ e ∈ other :: entries, ¬ decide (entry.time < e.time) = true := fun e he hd =>
        Nat.not_lt_of_le (hall e he) (of_decide_eq_true hd)
      rw [List.filter_eq_nil_iff.2 hnone,
        List.filter_eq_self.2 fun e he => decide_eq_true (hall e he), List.nil_append]

theorem InOrder.take_eq_filter {entries : List (Entry α)} (h : InOrder entries)
    (time : ClockTime) :
    entries.take (entries.countP (·.time < time)) = entries.filter (·.time < time) := by
  induction entries with
  | nil => rfl
  | cons e entries ih =>
    have ⟨hfirst, hrest⟩ := List.pairwise_cons.1 h
    by_cases he : e.time < time
    · simp [he, ih hrest]
    · have hnone : ∀ f ∈ entries, ¬ f.time < time := fun f hf hlt =>
        he (Nat.lt_of_le_of_lt (hfirst f hf) hlt)
      have hcount : entries.countP (·.time < time) = 0 :=
        List.countP_eq_zero.2 fun f hf hd => hnone f hf (of_decide_eq_true hd)
      simpa [he, hcount] using hnone

theorem InOrder.drop_eq_filter {entries : List (Entry α)} (h : InOrder entries)
    (time : ClockTime) :
    entries.drop (entries.countP (·.time < time)) = entries.filter (time ≤ ·.time) := by
  induction entries with
  | nil => rfl
  | cons e entries ih =>
    have ⟨hfirst, hrest⟩ := List.pairwise_cons.1 h
    by_cases he : e.time < time
    · have hnot : ¬ time ≤ e.time := Nat.not_le_of_lt he
      simp [he, hnot, ih hrest]
    · have hle : ∀ f ∈ e :: entries, time ≤ f.time := fun f hf => by
        have htime : time ≤ e.time := Nat.le_of_not_lt he
        rcases List.mem_cons.1 hf with rfl | hf
        · exact htime
        · exact Nat.le_trans htime (hfirst f hf)
      have hcount : (e :: entries).countP (·.time < time) = 0 :=
        List.countP_eq_zero.2 fun f hf hd =>
          Nat.not_lt_of_le (hle f hf) (of_decide_eq_true hd)
      rw [hcount, List.drop_zero]
      exact (List.filter_eq_self.2 fun f hf => decide_eq_true (hle f hf)).symm

/-! ### Schedules -/

/-- Entries in order of time, stored with the latest first. -/
structure Schedule (α : Type) where
  latestFirst : List (Entry α) := []
  sorted : LatestFirst latestFirst := by exact List.Pairwise.nil
  deriving DecidableEq

namespace Schedule

/-- The entries in order of time. -/
def entries (schedule : Schedule α) : List (Entry α) :=
  schedule.latestFirst.reverse

@[ext] theorem ext {s t : Schedule α} (h : s.entries = t.entries) : s = t := by
  cases s
  cases t
  cases List.reverse_inj.1 h
  rfl

theorem inOrder_entries (schedule : Schedule α) : InOrder schedule.entries :=
  schedule.sorted.inOrder_reverse

/-- The schedule without entries. -/
def empty : Schedule α := {}

/-- The number of entries. -/
def size (schedule : Schedule α) : Nat :=
  schedule.latestFirst.length

theorem size_eq_length (schedule : Schedule α) : schedule.size = schedule.entries.length :=
  List.length_reverse.symm

/-- Adds an entry behind the entries that are not later. -/
def insert (schedule : Schedule α) (entry : Entry α) : Schedule α :=
  ⟨entry.insertInto schedule.latestFirst, schedule.sorted.insertInto⟩

@[simp] theorem entries_insert (schedule : Schedule α) (entry : Entry α) :
    (schedule.insert entry).entries =
      schedule.entries.filter (·.time ≤ entry.time) ++
        entry :: schedule.entries.filter (entry.time < ·.time) := by
  simp [insert, entries, schedule.sorted.insertInto_eq, List.filter_reverse]

/-- Whether an entry has an id. -/
def contains (schedule : Schedule α) (id : Nat) : Bool :=
  schedule.latestFirst.any (·.id == id)

theorem contains_eq_any (schedule : Schedule α) (id : Nat) :
    schedule.contains id = schedule.entries.any (·.id == id) :=
  List.any_reverse.symm

/-- Removes the entries that have an id. -/
def remove (schedule : Schedule α) (id : Nat) : Schedule α :=
  ⟨schedule.latestFirst.filter (·.id != id), schedule.sorted.sublist List.filter_sublist⟩

@[simp] theorem entries_remove (schedule : Schedule α) (id : Nat) :
    (schedule.remove id).entries = schedule.entries.filter (·.id != id) :=
  (List.filter_reverse ..).symm

/-! ### Ranges of times -/

/-- The number of entries before a time. -/
def countBefore (schedule : Schedule α) (time : ClockTime) : Nat :=
  schedule.latestFirst.countP (·.time < time)

theorem countBefore_eq_countP (schedule : Schedule α) (time : ClockTime) :
    schedule.countBefore time = schedule.entries.countP (·.time < time) :=
  List.countP_reverse.symm

theorem countBefore_le_size (schedule : Schedule α) (time : ClockTime) :
    schedule.countBefore time ≤ schedule.size :=
  List.countP_le_length

theorem countBefore_mono (schedule : Schedule α) {start finish : ClockTime} (h : start ≤ finish) :
    schedule.countBefore start ≤ schedule.countBefore finish :=
  List.countP_mono_left fun _ _ he => decide_eq_true (Nat.lt_of_lt_of_le (of_decide_eq_true he) h)

/-- The entries from a time on and before another. -/
def between (schedule : Schedule α) (start finish : ClockTime) : List (Entry α) :=
  (schedule.entries.take (schedule.countBefore finish)).drop (schedule.countBefore start)

/-- A range holds the entries with times in it. -/
theorem between_eq_filter (schedule : Schedule α) (start finish : ClockTime) :
    schedule.between start finish =
      schedule.entries.filter fun e => start ≤ e.time ∧ e.time < finish := by
  have horder := schedule.inOrder_entries
  have htake : schedule.entries.take (schedule.countBefore finish) =
      schedule.entries.filter (·.time < finish) := by
    rw [countBefore_eq_countP, horder.take_eq_filter]
  rw [between, htake]
  by_cases h : start ≤ finish
  · have hcount : schedule.countBefore start =
        (schedule.entries.filter (·.time < finish)).countP (·.time < start) := by
      rw [countBefore_eq_countP, List.countP_filter]
      congr 1
      funext e
      have : e.time < start → e.time < finish := fun he => Nat.lt_of_lt_of_le he h
      by_cases he : e.time < start <;> simp [he, this]
    have hbefore : InOrder (schedule.entries.filter (·.time < finish)) :=
      horder.sublist List.filter_sublist
    rw [hcount, hbefore.drop_eq_filter, List.filter_filter]
    congr 1
    funext e
    simp
  · have hlt : finish < start := Nat.lt_of_not_le h
    have hle : (schedule.entries.filter (·.time < finish)).length ≤ schedule.countBefore start := by
      rw [← List.countP_eq_length_filter, ← countBefore_eq_countP]
      exact schedule.countBefore_mono (Nat.le_of_lt hlt)
    rw [List.drop_eq_nil_of_le hle, eq_comm, List.filter_eq_nil_iff]
    intro e _ he
    have ⟨hs, hf⟩ := of_decide_eq_true he
    exact h (Nat.le_of_lt (Nat.lt_of_le_of_lt hs hf))

end Schedule

end Ostinato
