import Mathlib.Algebra.Group.Int.Defs
import Mathlib.Algebra.GroupWithZero.Nat
import Mathlib.Data.List.Basic

/-!
# Buffers of a fixed size

A buffer is allocated first and filled afterwards, by copies to a position. A
copy that does not fit has no result, and neither has a read that goes past the
end.

Code that fills a buffer from the front, one piece behind the other, keeps it
split at the position: what has been written, and what has not. The lemmas are
about a buffer that is so split.
-/

namespace Infinisql.Lib

variable {α : Type*} {buffer done piece rest : List α} {pos n : ℕ}

/-- `memcpy(&buffer[pos], piece, piece.size())`. -/
def write (buffer : List α) (pos : ℕ) (piece : List α) : Option (List α) :=
  if pos + piece.length ≤ buffer.length then
    some (buffer.take pos ++ piece ++ buffer.drop (pos + piece.length))
  else none

/-- `memcpy(…, &buffer[pos], n)`. -/
def readAt (buffer : List α) (pos n : ℕ) : Option (List α) :=
  if pos + n ≤ buffer.length then some ((buffer.drop pos).take n) else none

/-- `assign(buffer, pos, n)`: what is there of so many, from a position that
there is. -/
def assign (buffer : List α) (pos n : ℕ) : Option (List α) :=
  if pos ≤ buffer.length then some ((buffer.drop pos).take n) else none

/-- The next piece. -/
theorem write_next (h : piece.length ≤ rest.length) :
    write (done ++ rest) done.length piece =
      some (done ++ piece ++ rest.drop piece.length) := by
  unfold write
  rw [if_pos (by rw [List.length_append]; omega), List.take_left,
    List.drop_append, List.drop_eq_nil_of_le (by omega), List.nil_append,
    Nat.add_sub_cancel_left]

variable (done piece rest) in
theorem readAt_next : readAt (done ++ (piece ++ rest)) done.length piece.length
    = some piece := by
  unfold readAt
  rw [if_pos (by simp only [List.length_append]; omega), List.drop_left,
    List.take_left]

variable (done piece rest) in
theorem assign_next : assign (done ++ (piece ++ rest)) done.length piece.length
    = some piece := by
  unfold assign
  rw [if_pos (by simp only [List.length_append]; omega), List.drop_left,
    List.take_left]

end Infinisql.Lib
