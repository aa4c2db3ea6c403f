import Mathlib.Data.List.Rotate

/-! Circular buffers. A block is written at an index that wraps around; its ring, the block read
from that index on, runs from the oldest cell to the newest. -/

namespace Cplusplus.Ring

open List

variable {α : Type}

/-- Writes inside the block only. -/
def writeAt (block : List α) (i : Nat) (cells : List α) : Option (List α) :=
  if i + cells.length ≤ block.length then some (block.take i ++ cells ++ block.drop (i + cells.length)) else none

/-- Reads inside the block only. -/
def readAt (block : List α) (i n : Nat) : Option (List α) :=
  if i + n ≤ block.length then some ((block.drop i).take n) else none

theorem writeAt_eq {block cells : List α} {i : Nat} (inside : i + cells.length ≤ block.length) :
    writeAt block i cells = some (block.take i ++ cells ++ block.drop (i + cells.length)) :=
  if_pos inside

theorem readAt_eq {block : List α} {i n : Nat} (inside : i + n ≤ block.length) : readAt block i n = some ((block.drop i).take n) :=
  if_pos inside

theorem writeAt_length {block cells after : List α} {i : Nat} (written : writeAt block i cells = some after) : after.length = block.length := by
  unfold writeAt at written
  split at written
  next inside =>
    cases written
    simp only [length_append, length_take, length_drop]
    omega
  next => cases written

theorem writeAt_rotate {block cells after : List α} {i : Nat} (written : writeAt block i cells = some after) :
    after.rotate (i + cells.length) = (block.rotate i).drop cells.length ++ cells := by
  have same := writeAt_length written
  unfold writeAt at written
  split at written
  next inside =>
    cases written
    rw [rotate_eq_drop_append_take (by omega), rotate_eq_drop_append_take (by omega)]
    have early : (block.take i).length = i := by
      rw [length_take]
      omega
    have front : (block.take i ++ cells).length = i + cells.length := by
      rw [length_append, early]
    rw [drop_left' front, take_left' front, drop_append_of_le_length (by rw [length_drop]; omega), drop_drop, append_assoc]
  next => cases written

theorem rotate_drop_before {block : List α} {i k : Nat} (inside : i ≤ block.length) (wrapped : block.length ≤ i + k)
    (bound : k ≤ block.length) : (block.rotate i).drop k = (block.drop (i + k - block.length)).take (block.length - k) := by
  rw [rotate_eq_drop_append_take inside, drop_append, drop_drop]
  have outside : block.drop (i + k) = [] := drop_eq_nil_of_le wrapped
  rw [outside, nil_append, length_drop, drop_take]
  have start : k - (block.length - i) = i + k - block.length := by omega
  have length : i - (i + k - block.length) = block.length - k := by omega
  rw [start, length]

theorem rotate_drop_across {block : List α} {i k : Nat} (inside : i + k ≤ block.length) :
    (block.rotate i).drop k = block.drop (i + k) ++ block.take i := by
  rw [rotate_eq_drop_append_take (by omega), drop_append_of_le_length (by rw [length_drop]; omega), drop_drop]

def newest (n : Nat) (l : List α) : List α := l.drop (l.length - n)

theorem newest_length {n : Nat} {l : List α} (enough : n ≤ l.length) : (newest n l).length = n := by
  rw [newest, length_drop]
  omega

theorem newest_newest {m n : Nat} {l : List α} (fewer : m ≤ n) (enough : n ≤ l.length) : newest m (newest n l) = newest m l := by
  rw [newest, newest_length enough, newest, newest, drop_drop]
  congr 1
  omega

theorem newest_append {n : Nat} {l more : List α} (longer : more.length ≤ n) (enough : n - more.length ≤ l.length) :
    newest n (l ++ more) = newest (n - more.length) l ++ more := by
  rw [newest, newest, length_append, drop_append_of_le_length (by omega)]
  congr 2
  omega

theorem newest_append_short {n : Nat} {l more : List α} (shorter : n ≤ more.length) : newest n (l ++ more) = newest n more := by
  rw [newest, newest, length_append, drop_append]
  have passed : l.drop (l.length + more.length - n) = [] := drop_eq_nil_of_le (by omega)
  rw [passed, nil_append]
  congr 1
  omega

theorem newest_append_congr {n k : Nat} {l r more : List α} (same : newest n l = newest n r) (left : n ≤ l.length)
    (right : n ≤ r.length) (bound : k ≤ n + more.length) : newest k (l ++ more) = newest k (r ++ more) := by
  rcases Nat.le_total k more.length with shorter | longer
  · rw [newest_append_short shorter, newest_append_short shorter]
  · rw [newest_append longer (by omega), newest_append longer (by omega),
      ← newest_newest (show k - more.length ≤ n by omega) left, same, newest_newest (by omega) right]

end Cplusplus.Ring
