/-!
# Blank characters

Words and written lengths are set apart by blanks: the twenty-five characters that have the Unicode
property White_Space.

## Main definitions

* `isBlank`: whether a character is blank.
* `trimBlanks`: a text without the blanks at either end.

## Main results

* `isBlank_of_isWhitespace`: the four blanks of the standard library are blank.
* `trimBlanks_eq_self`: a text with no blank at either end is its own trimming.
* `trimBlanks_append`: blanks around a text do not change its trimming.
-/

namespace Ostinato

/-- The code points with the property White_Space, in order. -/
def blankCodes : List Nat :=
  [0x09, 0x0A, 0x0B, 0x0C, 0x0D, 0x20, 0x85, 0xA0, 0x1680, 0x2000, 0x2001, 0x2002, 0x2003, 0x2004,
    0x2005, 0x2006, 0x2007, 0x2008, 0x2009, 0x200A, 0x2028, 0x2029, 0x202F, 0x205F, 0x3000]

/-- Whether a character has the property White_Space. -/
def isBlank (c : Char) : Bool :=
  blankCodes.contains c.toNat

theorem isBlank_of_isWhitespace {c : Char} (h : c.isWhitespace) : isBlank c := by
  simp only [Char.isWhitespace, Bool.or_eq_true, decide_eq_true_eq] at h
  rcases h with ((rfl | rfl) | rfl) | rfl <;> decide

/-- A text without the blanks at either end. -/
def trimBlanks (text : List Char) : List Char :=
  ((text.dropWhile isBlank).reverse.dropWhile isBlank).reverse

theorem trimBlanks_eq_self {text : List Char} (hfirst : ∀ c ∈ text.head?, isBlank c = false)
    (hlast : ∀ c ∈ text.getLast?, isBlank c = false) : trimBlanks text = text := by
  have hdrop : ∀ l : List Char, (∀ c ∈ l.head?, isBlank c = false) → l.dropWhile isBlank = l
    | [], _ => rfl
    | c :: l, h => by simp [h c rfl]
  rw [trimBlanks, hdrop text hfirst, hdrop text.reverse (by simpa using hlast),
    List.reverse_reverse]

theorem trimBlanks_append {before after : List Char} (hbefore : ∀ c ∈ before, isBlank c)
    (hafter : ∀ c ∈ after, isBlank c) (text : List Char) :
    trimBlanks (before ++ text ++ after) = trimBlanks text := by
  have hnone : after.dropWhile isBlank = [] := by
    have h : (after ++ []).dropWhile isBlank = [] := List.dropWhile_append_of_pos hafter
    rwa [List.append_nil] at h
  rw [trimBlanks, trimBlanks, List.append_assoc, List.dropWhile_append_of_pos hbefore,
    List.dropWhile_append]
  split
  · next hempty => rw [List.isEmpty_iff.1 hempty, hnone]
  · rw [List.reverse_append, List.dropWhile_append_of_pos (by simpa using hafter)]

end Ostinato
