/-
`settings.hpp`: the alphabet, the shape of the box and the search settings.

`MAX_SEARCH_SIZE`, `MAX_SOLUTIONS` and `STATE_CACHE_MIN_DEPTH` are compile-time
constants that a user is invited to change, so they are the fields of a
structure here and `settings` is the values the repository ships with. The
structure carries the range in which the solver is used: the cache stores
depths in bytes and reserves 255 for "not reached", so a search may be at most
253 words deep, and a search for no solutions at all is not a search.
-/
import Mathlib

set_option autoImplicit false

namespace LetterBoxed

/-- `'a'` -/
def FIRST : UInt8 := 97
/-- `'z'` -/
def LAST : UInt8 := 122

def CHARACTERS : Nat := (LAST - FIRST).toNat + 1

def SIDES : Nat := 4
def CHARS_PER_SIDE : Nat := 3

def BOX_CHARS : Nat := SIDES * CHARS_PER_SIDE

def MIN_SOLUTION_SIZE : Nat := 1

structure Settings where
  MAX_SEARCH_SIZE : Nat
  MAX_SOLUTIONS : Nat
  STATE_CACHE_MIN_DEPTH : Nat
  search_pos : 1 ≤ MAX_SEARCH_SIZE
  search_le : MAX_SEARCH_SIZE ≤ 253
  solutions_pos : 1 ≤ MAX_SOLUTIONS

/-- The values in `settings.hpp`. -/
def settings : Settings where
  MAX_SEARCH_SIZE := 3
  MAX_SOLUTIONS := 20
  STATE_CACHE_MIN_DEPTH := 2
  search_pos := by decide
  search_le := by decide
  solutions_pos := by decide

end LetterBoxed
