import Dtmpfs.Semantics.FlatFile

/-! Bytes of a file that all come from somewhere: each is zero, or one of those that
may stand at its offset. -/
namespace FlatFile

/-- The bytes, placed from offset `start` on. -/
def From (origin : Nat → UInt8 → Prop) (start : Nat) (bytes : List UInt8) : Prop :=
  ∀ (k : Nat) (byte : UInt8), bytes[k]? = some byte → byte = 0 ∨ origin (start + k) byte

variable {origin : Nat → UInt8 → Prop} {start : Nat} {bytes first second : List UInt8}

theorem From.nil : From origin start [] := by
  intro k byte found
  cases found

theorem from_zeros (n : Nat) : From origin start (List.replicate n 0) := by
  intro k byte found
  exact .inl (List.eq_of_mem_replicate (List.mem_of_getElem? found))

theorem From.take (sourced : From origin start bytes) (n : Nat) : From origin start (bytes.take n) := by
  intro k byte found
  rw [List.getElem?_take] at found
  split at found
  · exact sourced k byte found
  · cases found

theorem From.drop (sourced : From origin start bytes) (n : Nat) : From origin (start + n) (bytes.drop n) := by
  intro k byte found
  rw [List.getElem?_drop] at found
  rw [Nat.add_assoc]
  exact sourced (n + k) byte found

theorem From.append (left : From origin start first) (right : From origin (start + first.length) second) :
    From origin start (first ++ second) := by
  intro k byte found
  by_cases inside : k < first.length
  · rw [List.getElem?_append_left inside] at found
    exact left k byte found
  · have past := Nat.le_of_not_lt inside
    rw [List.getElem?_append_right past] at found
    have here := right (k - first.length) byte found
    rwa [Nat.add_assoc,Nat.add_sub_cancel' past] at here

/-- Patched bytes come from where the patch and the bytes around it do. -/
theorem From.splice {place : Nat} (old : From origin start bytes) (fits : place ≤ bytes.length) (new : From origin (start + place) first) :
    From origin start (splice bytes place first) := by
  have head : (bytes.take place).length = place := by
    rw [List.length_take]
    exact Nat.min_eq_left fits
  have front : From origin start (bytes.take place ++ first) := by
    apply (old.take place).append
    rw [head]
    exact new
  apply front.append
  rw [List.length_append,head]
  exact old.drop _

end FlatFile
