import Ostinato.Proofs.Binary64.Numerals
import Ostinato.Time.Duration

/-!
# Texts of durations

A text is read as a duration by its last characters, and the reader never comes back to a choice
that these have made. It need not: no text has two readings. What is written of a duration is one of
its texts, so it reads back, whatever blanks are put around it.

## Main definitions

* `IsCount`: the texts of whole numbers.
* `Duration.noteSuffixes`: what stands behind the number of a note.
* `Duration.IsSpelledBy`: the texts of durations.
* `Duration.IsZeroNote`: the texts of notes of no value.
* `Duration.IsReadable`: the durations that have a text.

## Main results

* `Duration.readWord_of_isSpelledBy`: no text of a duration is taken for anything else.
* `Duration.isAnswer_readWord`: what the reader answers is right.
* `Duration.read_by_grammar`: what is read from every text.
* `Duration.read_padded_write`: a duration is read from what is written of it.
-/

namespace Ostinato

/-! ### Whole numbers -/

/-- Whether a text denotes a whole number: one or more digits after an optional plus. -/
def IsCount (text : List Char) (n : Nat) : Prop :=
  ∃ digits, (text = digits ∨ text = '+' :: digits) ∧ digits ≠ [] ∧ (∀ c ∈ digits, c.isDigit) ∧
    Nat.ofDigitChars 10 digits 0 = n

theorem readDigits?_eq_some_iff {text : List Char} {n : Nat} :
    readDigits? text = some n ↔
      text ≠ [] ∧ (∀ c ∈ text, c.isDigit) ∧ Nat.ofDigitChars 10 text 0 = n := by
  rw [readDigits?, Option.ite_none_right_eq_some, List.all_eq_true, Option.some_inj, and_assoc]

theorem readCount?_eq_some_iff {limit n : Nat} {text : List Char} :
    readCount? limit text = some n ↔ IsCount text n ∧ n ≤ limit := by
  have hplus : Char.isDigit '+' = false := by decide
  unfold readCount?
  split
  · next digits =>
    rw [Option.filter_eq_some_iff, readDigits?_eq_some_iff, decide_eq_true_eq]
    refine and_congr_left fun _ => ⟨fun h => ⟨digits, .inr rfl, h⟩, ?_⟩
    rintro ⟨other, rfl | htext, hne, hdigits, hvalue⟩
    · exact absurd (hdigits '+' List.mem_cons_self) (by simp [hplus])
    · cases htext
      exact ⟨hne, hdigits, hvalue⟩
  · next hunsigned =>
    rw [Option.filter_eq_some_iff, readDigits?_eq_some_iff, decide_eq_true_eq]
    refine and_congr_left fun _ => ⟨fun h => ⟨text, .inl rfl, h⟩, ?_⟩
    rintro ⟨digits, rfl | htext, h⟩
    · exact h
    · exact absurd htext (hunsigned digits)

theorem isCount_natDigits (n : Nat) : IsCount (natDigits n) n :=
  (readCount?_eq_some_iff.1 (readCount?_natDigits (Nat.le_refl n))).1

namespace Duration

/-! ### Spellings -/

/-- What stands behind the number of a note, and the duration that the two make. -/
def noteSuffixes : List (List Char × (UInt16 → Duration)) :=
  [(['n'], .note), (['t'], .triplet), (['n', '.'], .dotted)]

/-- The texts of durations, without blanks around them: a number with a suffix, which seconds need
not have. A note has some value, and seconds are a finite number that is not below zero. -/
inductive IsSpelledBy : Duration → List Char → Prop
  | note {suffix digits : List Char} {make : UInt16 → Duration} {value : UInt16}
    (hsuffix : (suffix, make) ∈ noteSuffixes) (hdigits : IsCount digits value.toNat)
    (hpos : 0 < value.toNat) : IsSpelledBy (make value) (digits ++ suffix)
  | measures {digits : List Char} {count : UInt32} (hdigits : IsCount digits count.toNat) :
    IsSpelledBy (.measures count) (digits ++ ['m'])
  | ticks {digits : List Char} {count : Ticks} (hdigits : IsCount digits count.val) :
    IsSpelledBy (.ticks count) (digits ++ ['i'])
  | seconds {word numeral : List Char} {amount : Binary64}
    (hword : word = numeral ∨ word = numeral ++ ['s'])
    (hnumeral : Binary64.read? numeral = some amount) (hfinite : amount.isFinite)
    (hle : Binary64.zero.le amount) : IsSpelledBy (.seconds amount) word

/-- The texts of notes that have no value. -/
def IsZeroNote (word : List Char) : Prop :=
  ∃ digits suffix make, (suffix, make) ∈ noteSuffixes ∧ IsCount digits 0 ∧ word = digits ++ suffix

/-! ### No reading is hidden -/

theorem readNoteValue_of_isCount {word digits : List Char} {value : UInt16}
    (h : IsCount digits value.toNat) (hpos : 0 < value.toNat) :
    readNoteValue word digits = .ok value := by
  have hread : readCount? (UInt16.size - 1) digits = some value.toNat :=
    readCount?_eq_some_iff.2 ⟨h, Nat.le_sub_one_of_lt value.toNat_lt⟩
  rw [readNoteValue, hread]
  split
  · contradiction
  · next hzero => exact absurd (Option.some.inj hzero) (Nat.ne_of_gt hpos)
  · next hsome =>
    rw [← Option.some.inj hsome, UInt16.ofNat_toNat]

theorem readNoteValue_of_isCount_zero {word digits : List Char} (h : IsCount digits 0) :
    readNoteValue word digits = .error (.zeroNoteValue (String.ofList word)) := by
  simp only [readNoteValue, readCount?_eq_some_iff.2 ⟨h, Nat.zero_le (UInt16.size - 1)⟩]

theorem readWord_append_note {suffix : List Char} {make : UInt16 → Duration}
    (h : (suffix, make) ∈ noteSuffixes) (digits : List Char) :
    readWord (digits ++ suffix) = (readNoteValue (digits ++ suffix) digits).map make := by
  simp only [noteSuffixes, List.mem_cons, Prod.mk.injEq, List.not_mem_nil, or_false] at h
  rcases h with ⟨rfl, rfl⟩ | ⟨rfl, rfl⟩ | ⟨rfl, rfl⟩ <;> simp [readWord]

theorem readSeconds_of_isFinite {word numeral : List Char} {amount : Binary64}
    (h : Binary64.read? numeral = some amount) (hfinite : amount.isFinite)
    (hle : Binary64.zero.le amount) : readSeconds word numeral = .ok (.seconds amount) := by
  rw [readSeconds, h]
  exact if_pos ⟨hfinite, hle⟩

theorem readWord_of_isNumeralChar {word : List Char} (h : ∀ c ∈ word, isNumeralChar c) :
    readWord word = readSeconds word word := by
  have hnumeral : ∀ c ∈ word.reverse, isNumeralChar c := fun c hc => h c (List.mem_reverse.1 hc)
  unfold readWord
  split
  · next heq => exact absurd (hnumeral 'n' (by simp [heq])) (by decide)
  · next heq => exact absurd (hnumeral 'n' (by simp [heq])) (by decide)
  · next heq => exact absurd (hnumeral 't' (by simp [heq])) (by decide)
  · next heq => exact absurd (hnumeral 'm' (by simp [heq])) (by decide)
  · next heq => exact absurd (hnumeral 'i' (by simp [heq])) (by decide)
  · next heq => exact absurd (hnumeral 's' (by simp [heq])) (by decide)
  · rfl

/-- **No reading is hidden.** Whatever choice its last characters make, a text of a duration is read
as that duration. -/
theorem readWord_of_isSpelledBy {duration : Duration} {word : List Char}
    (h : duration.IsSpelledBy word) : readWord word = .ok duration := by
  cases h with
  | note hsuffix hdigits hpos =>
    rw [readWord_append_note hsuffix, readNoteValue_of_isCount hdigits hpos]
    rfl
  | @measures digits count hdigits =>
    have hread : readCount? (UInt32.size - 1) digits = some count.toNat :=
      readCount?_eq_some_iff.2 ⟨hdigits, Nat.le_sub_one_of_lt count.toNat_lt⟩
    simp only [readWord, List.reverse_append, List.reverse_singleton, List.singleton_append,
      List.reverse_reverse, hread, UInt32.ofNat_toNat]
  | @ticks digits count hdigits =>
    have hread : readCount? maxCount digits = some count.val :=
      readCount?_eq_some_iff.2 ⟨hdigits, count.val_le⟩
    simp only [readWord, List.reverse_append, List.reverse_singleton, List.singleton_append,
      List.reverse_reverse, hread, Span.ofNat_val]
  | @seconds word numeral amount hword hnumeral hfinite hle =>
    rcases hword with rfl | rfl
    · rw [readWord_of_isNumeralChar (Binary64.isNumeralChar_of_read? hnumeral hfinite),
        readSeconds_of_isFinite hnumeral hfinite hle]
    · simp [readWord, readSeconds_of_isFinite hnumeral hfinite hle]

theorem readWord_of_isZeroNote {word : List Char} (h : IsZeroNote word) :
    readWord word = .error (.zeroNoteValue (String.ofList word)) := by
  obtain ⟨digits, suffix, make, hsuffix, hdigits, rfl⟩ := h
  rw [readWord_append_note hsuffix, readNoteValue_of_isCount_zero hdigits]
  rfl

/-! ### Every answer is right -/

/-- Whether an answer fits a text: a duration that it spells, or an error that names it. -/
def IsAnswer (word : List Char) : Except DurationError Duration → Prop
  | .ok duration => duration.IsSpelledBy word
  | .error .empty => False
  | .error (.zeroNoteValue text) => IsZeroNote word ∧ text = String.ofList word
  | .error (.invalid text) => text = String.ofList word

theorem isAnswer_map_readNoteValue {digits suffix : List Char} {make : UInt16 → Duration}
    (h : (suffix, make) ∈ noteSuffixes) :
    IsAnswer (digits ++ suffix) ((readNoteValue (digits ++ suffix) digits).map make) := by
  rw [readNoteValue]
  split
  · rfl
  · next hread =>
    exact ⟨⟨digits, suffix, make, h, (readCount?_eq_some_iff.1 hread).1, rfl⟩, rfl⟩
  · next value hzero hread =>
    obtain ⟨hcount, hle⟩ := readCount?_eq_some_iff.1 hread
    have hvalue : (UInt16.ofNat value).toNat = value :=
      UInt16.toNat_ofNat_of_lt' (Nat.lt_of_le_of_lt hle (by decide))
    refine .note h (by rwa [hvalue]) ?_
    rw [hvalue]
    exact Nat.pos_of_ne_zero hzero

theorem isAnswer_readSeconds {word numeral : List Char}
    (h : word = numeral ∨ word = numeral ++ ['s']) : IsAnswer word (readSeconds word numeral) := by
  rw [readSeconds]
  split
  · next amount hread =>
    split
    · next hamount => exact .seconds h hread hamount.1 hamount.2
    · rfl
  · rfl

/-- Every answer of the reader fits the text. -/
theorem isAnswer_readWord (word : List Char) : IsAnswer word (readWord word) := by
  have hword : ∀ (front : List Char) {rest : List Char}, word.reverse = front ++ rest →
      word = rest.reverse ++ front.reverse := fun front rest heq => by
    rw [← List.reverse_append, ← heq, List.reverse_reverse]
  unfold readWord
  split
  · next digits heq =>
    obtain rfl := hword ['.', 'n'] heq
    exact isAnswer_map_readNoteValue (by simp [noteSuffixes])
  · next digits heq =>
    obtain rfl := hword ['n'] heq
    exact isAnswer_map_readNoteValue (by simp [noteSuffixes])
  · next digits heq =>
    obtain rfl := hword ['t'] heq
    exact isAnswer_map_readNoteValue (by simp [noteSuffixes])
  · next digits heq =>
    obtain rfl := hword ['m'] heq
    split
    · next count hread =>
      obtain ⟨hcount, hle⟩ := readCount?_eq_some_iff.1 hread
      refine .measures ?_
      rwa [UInt32.toNat_ofNat_of_lt' (Nat.lt_of_le_of_lt hle (by decide))]
    · rfl
  · next digits heq =>
    obtain rfl := hword ['i'] heq
    split
    · next count hread =>
      obtain ⟨hcount, hle⟩ := readCount?_eq_some_iff.1 hread
      refine .ticks ?_
      rwa [Span.val_ofNat, Nat.min_eq_left hle]
    · rfl
  · next numeral heq => exact isAnswer_readSeconds (.inr (hword ['s'] heq))
  · exact isAnswer_readSeconds (.inl rfl)

/-! ### Reading a text -/

section ReadWord

variable {word : List Char} {duration : Duration}

theorem readWord_eq_ok_iff : readWord word = .ok duration ↔ duration.IsSpelledBy word := by
  refine ⟨fun h => ?_, readWord_of_isSpelledBy⟩
  have hanswer := isAnswer_readWord word
  rwa [h] at hanswer

theorem readWord_ne_empty (word : List Char) : readWord word ≠ .error .empty := by
  intro h
  have hanswer := isAnswer_readWord word
  rwa [h] at hanswer

theorem readWord_eq_zeroNoteValue_iff {text : String} :
    readWord word = .error (.zeroNoteValue text) ↔ IsZeroNote word ∧ text = String.ofList word := by
  refine ⟨fun h => ?_, fun h => h.2 ▸ readWord_of_isZeroNote h.1⟩
  have hanswer := isAnswer_readWord word
  rwa [h] at hanswer

theorem readWord_eq_invalid_iff {text : String} :
    readWord word = .error (.invalid text) ↔
      (¬ IsZeroNote word ∧ ∀ duration, ¬ IsSpelledBy duration word) ∧
        text = String.ofList word := by
  have hanswer := isAnswer_readWord word
  constructor
  · intro h
    rw [h] at hanswer
    refine ⟨⟨fun hzero => ?_, fun duration hspelled => ?_⟩, hanswer⟩
    · exact nomatch h.symm.trans (readWord_of_isZeroNote hzero)
    · exact nomatch h.symm.trans (readWord_of_isSpelledBy hspelled)
  · rintro ⟨⟨hzero, hspelled⟩, rfl⟩
    cases hread : readWord word with
    | ok duration => exact absurd (readWord_eq_ok_iff.1 hread) (hspelled duration)
    | error e =>
      rw [hread] at hanswer
      cases e with
      | empty => contradiction
      | zeroNoteValue text => exact absurd hanswer.1 hzero
      | invalid text => rw [show text = String.ofList word from hanswer]

theorem IsSpelledBy.exclusive (h : duration.IsSpelledBy word) :
    word ≠ [] ∧ ¬ IsZeroNote word ∧ ∀ other, IsSpelledBy other word → other = duration := by
  have hread := readWord_of_isSpelledBy h
  refine ⟨?_, fun hzero => ?_, fun other hother => ?_⟩
  · rintro rfl
    exact nomatch hread.symm.trans (by rfl : readWord [] = .error (.invalid ""))
  · exact nomatch hread.symm.trans (readWord_of_isZeroNote hzero)
  · exact Except.ok.inj ((readWord_of_isSpelledBy hother).symm.trans hread)

theorem IsZeroNote.ne_nil (h : IsZeroNote word) : word ≠ [] := by
  rintro rfl
  exact nomatch (readWord_of_isZeroNote h).symm.trans (by rfl : readWord [] = .error (.invalid ""))

end ReadWord

theorem read_of_eq_nil {text : String} (h : trimBlanks text.toList = []) :
    read text = .error .empty := by
  rw [read, h]

theorem read_of_ne_nil {text : String} (h : trimBlanks text.toList ≠ []) :
    read text = readWord (trimBlanks text.toList) := by
  rw [read]
  split
  · next hnil => exact absurd hnil h
  · rfl

theorem read_eq_ok_iff {text : String} {duration : Duration} :
    read text = .ok duration ↔ duration.IsSpelledBy (trimBlanks text.toList) := by
  by_cases hnil : trimBlanks text.toList = []
  · rw [read_of_eq_nil hnil]
    exact iff_of_false nofun fun h => h.exclusive.1 hnil
  · rw [read_of_ne_nil hnil, readWord_eq_ok_iff]

/-- **The texts of durations.** Blanks around a text do not count. Of what is left, nothing is an
error of its own. A duration is read exactly from its texts, and none of them is left out because of
the order in which the suffixes are tried: no text has two readings, nor is it at the same time the
text of a note without a value, which has an error of its own, too. Every other text is invalid. -/
theorem read_by_grammar (text : String) :
    let word := trimBlanks text.toList
    (read text = .error .empty ↔ word = []) ∧
    (∀ duration, read text = .ok duration ↔ duration.IsSpelledBy word) ∧
    (∀ named, read text = .error (.zeroNoteValue named) ↔
      IsZeroNote word ∧ named = String.ofList word) ∧
    (∀ named, read text = .error (.invalid named) ↔
      (word ≠ [] ∧ ¬ IsZeroNote word ∧ ∀ duration, ¬ IsSpelledBy duration word) ∧
        named = String.ofList word) ∧
    (∀ duration, duration.IsSpelledBy word →
      word ≠ [] ∧ ¬ IsZeroNote word ∧ ∀ other, IsSpelledBy other word → other = duration) ∧
    (IsZeroNote word → word ≠ []) := by
  intro word
  have hexclusive : ∀ duration, duration.IsSpelledBy word →
      word ≠ [] ∧ ¬ IsZeroNote word ∧ ∀ other, IsSpelledBy other word → other = duration :=
    fun duration h => h.exclusive
  have hok : ∀ duration, read text = .ok duration ↔ duration.IsSpelledBy word :=
    fun duration => read_eq_ok_iff
  by_cases hnil : word = []
  · have hzero : ¬ IsZeroNote word := fun h => h.ne_nil hnil
    refine ⟨iff_of_true (read_of_eq_nil hnil) hnil, hok, fun named => ?_, fun named => ?_,
      hexclusive, IsZeroNote.ne_nil⟩
    · rw [read_of_eq_nil hnil]
      exact iff_of_false nofun fun h => hzero h.1
    · rw [read_of_eq_nil hnil]
      exact iff_of_false nofun fun h => h.1.1 hnil
  · have hread : read text = readWord word := read_of_ne_nil hnil
    refine ⟨?_, hok, fun named => ?_, fun named => ?_, hexclusive, IsZeroNote.ne_nil⟩
    · rw [hread]
      exact iff_of_false (readWord_ne_empty word) hnil
    · rw [hread, readWord_eq_zeroNoteValue_iff]
    · rw [hread, readWord_eq_invalid_iff, and_iff_right hnil]

/-- A plus, zeros in front, and blanks of two kinds. Without its point it would be another note. -/
theorem read_by_grammar_dotted :
    (dotted 8).IsSpelledBy ['+', '0', '0', '8', 'n', '.'] ∧
      read "\t+008n. " = .ok (.dotted 8) ∧ read "\t+008n. " ≠ .ok (.note 8) := by
  have hword : trimBlanks "\t+008n. ".toList = ['+', '0', '0', '8', 'n', '.'] := by decide
  have hsuffix : (['n', '.'], dotted) ∈ noteSuffixes := by simp [noteSuffixes]
  have hdigits : IsCount ['+', '0', '0', '8'] (8 : UInt16).toNat :=
    ⟨['0', '0', '8'], .inr rfl, by decide, List.all_eq_true.1 (by decide), by decide⟩
  have hspelled : (dotted 8).IsSpelledBy ['+', '0', '0', '8', 'n', '.'] :=
    .note hsuffix hdigits (by decide)
  obtain ⟨-, hread, -, -, hexclusive, -⟩ := read_by_grammar "\t+008n. "
  rw [hword] at hread hexclusive
  refine ⟨hspelled, (hread _).2 hspelled, fun h => ?_⟩
  exact nomatch (hexclusive _ hspelled).2.2 _ ((hread _).1 h)

/-! ### Reading what is written -/

/-- The durations that have a text: notes of some value, all measures and ticks, and finite seconds
that are not below zero. -/
def IsReadable : Duration → Prop
  | .note value | .triplet value | .dotted value => 0 < value.toNat
  | .measures _ | .ticks _ => True
  | .seconds amount => amount.isFinite ∧ Binary64.zero.le amount

theorem IsSpelledBy.isReadable {duration : Duration} {word : List Char}
    (h : duration.IsSpelledBy word) : duration.IsReadable := by
  cases h with
  | note hsuffix hdigits hpos =>
    simp only [noteSuffixes, List.mem_cons, Prod.mk.injEq, List.not_mem_nil, or_false] at hsuffix
    rcases hsuffix with ⟨-, rfl⟩ | ⟨-, rfl⟩ | ⟨-, rfl⟩ <;> exact hpos
  | measures => trivial
  | ticks => trivial
  | seconds _ _ hfinite hle => exact ⟨hfinite, hle⟩

theorem isSpelledBy_write {duration : Duration} (h : duration.IsReadable) :
    duration.IsSpelledBy duration.write.toList := by
  cases duration with
  | note value | triplet value | dotted value =>
    rw [write, String.toList_append, String.toList_ofList]
    exact .note (by simp [noteSuffixes]) (isCount_natDigits _) h
  | measures count =>
    rw [write, String.toList_append, String.toList_ofList]
    exact .measures (isCount_natDigits _)
  | ticks count =>
    rw [write, Ticks.write, String.toList_append, String.toList_ofList]
    exact .ticks (isCount_natDigits _)
  | seconds amount =>
    rw [write, String.toList_append]
    exact .seconds (.inr rfl) (Binary64.read?_write h.1) h.1 h.2

theorem isBlank_eq_false_of_all {text : List Char} (h : text.all (!isBlank ·)) :
    ∀ c ∈ text, isBlank c = false := by
  simpa using h

theorem isBlank_of_isNumeralChar {c : Char} (h : isNumeralChar c) : isBlank c = false := by
  rw [isNumeralChar, Bool.or_eq_true, List.contains_iff_mem] at h
  rcases h with h | h
  · have hrange : 48 ≤ c.toNat ∧ c.toNat ≤ 57 := by
      simpa [Char.isDigit, UInt32.le_iff_toNat_le] using h
    have hcodes : ∀ n < 58, 48 ≤ n → blankCodes.contains n = false := by decide
    exact hcodes _ (Nat.lt_succ_of_le hrange.2) hrange.1
  · exact isBlank_eq_false_of_all (by decide) c h

theorem IsSpelledBy.isBlank_eq_false {duration : Duration} {word : List Char}
    (h : duration.IsSpelledBy word) : ∀ c ∈ word, isBlank c = false := by
  have hnumber : ∀ {text : List Char} {n : Nat}, IsCount text n →
      ∀ c ∈ text, isBlank c = false := by
    rintro text n ⟨digits, htext, -, hdigits, -⟩
    have hblank : ∀ c ∈ digits, isBlank c = false := fun c hc =>
      isBlank_of_isNumeralChar (isNumeralChar_of_isDigit (hdigits c hc))
    rcases htext with rfl | rfl
    · exact hblank
    · exact List.forall_mem_cons.2 ⟨by decide, hblank⟩
  cases h with
  | note hsuffix hdigits hpos =>
    refine List.forall_mem_append.2 ⟨hnumber hdigits, ?_⟩
    simp only [noteSuffixes, List.mem_cons, Prod.mk.injEq, List.not_mem_nil, or_false] at hsuffix
    rcases hsuffix with ⟨rfl, -⟩ | ⟨rfl, -⟩ | ⟨rfl, -⟩ <;>
      exact isBlank_eq_false_of_all (by decide)
  | measures hdigits =>
    exact List.forall_mem_append.2 ⟨hnumber hdigits, isBlank_eq_false_of_all (by decide)⟩
  | ticks hdigits =>
    exact List.forall_mem_append.2 ⟨hnumber hdigits, isBlank_eq_false_of_all (by decide)⟩
  | seconds hword hnumeral hfinite hle =>
    have hblank := fun c hc =>
      isBlank_of_isNumeralChar (Binary64.isNumeralChar_of_read? hnumeral hfinite c hc)
    rcases hword with rfl | rfl
    · exact hblank
    · exact List.forall_mem_append.2 ⟨hblank, isBlank_eq_false_of_all (by decide)⟩

/-- A text of a duration is read as the duration, also between blanks. -/
theorem read_of_isSpelledBy {duration : Duration} {word : List Char}
    (h : duration.IsSpelledBy word) {before after : String}
    (hbefore : ∀ c ∈ before.toList, isBlank c) (hafter : ∀ c ∈ after.toList, isBlank c) :
    read (before ++ String.ofList word ++ after) = .ok duration := by
  have hword : trimBlanks (before ++ String.ofList word ++ after).toList = word := by
    rw [String.toList_append, String.toList_append, String.toList_ofList,
      trimBlanks_append hbefore hafter]
    refine trimBlanks_eq_self (fun c hc => ?_) fun c hc => ?_
    · exact h.isBlank_eq_false c (List.mem_of_mem_head? hc)
    · exact h.isBlank_eq_false c (List.mem_of_mem_getLast? hc)
  rw [read_eq_ok_iff, hword]
  exact h

/-- **Reading what is written.** The durations that are read from some text are the readable ones.
What is written of such a duration is read as the duration, whatever blanks are put around it, and
so has the same length in ticks and on the clock, under every meter. -/
theorem read_padded_write (duration : Duration) :
    ((∃ text, read text = .ok duration) ↔ duration.IsReadable) ∧
    (duration.IsReadable → ∀ before after : String, (∀ c ∈ before.toList, isBlank c) →
      (∀ c ∈ after.toList, isBlank c) →
      read (before ++ duration.write ++ after) = .ok duration ∧
      ∀ meter, (read (before ++ duration.write ++ after)).map (·.toTicks meter) =
          .ok (duration.toTicks meter) ∧
        (read (before ++ duration.write ++ after)).map (·.toClock meter) =
          .ok (duration.toClock meter)) := by
  have hpadded : duration.IsReadable → ∀ before after : String, (∀ c ∈ before.toList, isBlank c) →
      (∀ c ∈ after.toList, isBlank c) →
      read (before ++ duration.write ++ after) = .ok duration := by
    intro h before after hbefore hafter
    have hread := read_of_isSpelledBy (isSpelledBy_write h) hbefore hafter
    rwa [String.ofList_toList] at hread
  refine ⟨⟨?_, fun h => ⟨"" ++ duration.write ++ "", ?_⟩⟩, fun h before after hbefore hafter => ?_⟩
  · rintro ⟨text, hread⟩
    exact (read_eq_ok_iff.1 hread).isReadable
  · exact hpadded h "" "" nofun nofun
  · have hread := hpadded h before after hbefore hafter
    rw [hread]
    exact ⟨rfl, fun meter => ⟨rfl, rfl⟩⟩

/-- Seconds below zero have no text, but a zero with a minus sign is not below zero, and keeps its
sign. A third of a second has as many digits as it takes to tell it from its neighbours. -/
theorem read_padded_write_minus_zero :
    let zero := seconds (Binary64.ofBits 0x8000000000000000)
    let third := seconds (Binary64.ofBits 0x3FD5555555555555)
    (zero.IsReadable ∧ zero.write = "-0s" ∧ read ("\t" ++ zero.write ++ " ") = .ok zero) ∧
      (third.IsReadable ∧ third.write = "0.3333333333333333s" ∧
        ∃ text, read text = .ok third) := by
  intro zero third
  have hzero : zero.IsReadable := ⟨by decide +kernel, by decide +kernel⟩
  have hthird : third.IsReadable := ⟨by decide +kernel, by decide +kernel⟩
  obtain ⟨-, hread⟩ := read_padded_write zero
  refine ⟨⟨hzero, by decide +kernel, ?_⟩, hthird, by decide +kernel, ?_⟩
  · have htab : ∀ c ∈ "\t".toList, isBlank c := List.all_eq_true.1 (by decide)
    have hspace : ∀ c ∈ " ".toList, isBlank c := List.all_eq_true.1 (by decide)
    exact (hread hzero "\t" " " htab hspace).1
  · exact (read_padded_write third).1.2 hthird

end Duration

end Ostinato
