import Mathlib.Tactic

/-! Machine integers whose operations fail where they overflow, and slices that fail where
they leave their list. -/
namespace Checked

def add (w a b : Nat) : Option Nat := if a + b < 2^w then some (a + b) else none
def mul (w a b : Nat) : Option Nat := if a * b < 2^w then some (a * b) else none
def sub (a b : Nat) : Option Nat := if b ≤ a then some (a - b) else none
def div (a b : Nat) : Option Nat := if b = 0 then none else some (a / b)

/-- `iter().sum()`. -/
def sum (w : Nat) (items : List Nat) : Option Nat := items.foldlM (add w) 0

/-- `iter().sum()` in a build that does not check. -/
def wrappingSum (w : Nat) (items : List Nat) : Nat := items.foldl (fun total item => (total + item) % 2^w) 0

/-- A conversion to `w` bits never fails: it keeps the low ones. -/
def cast (w n : Nat) : Nat := n % 2^w

section Integers

variable {w a b : Nat}

theorem add_eq (fits : a + b < 2^w) : add w a b = some (a + b) := if_pos fits

theorem mul_eq (fits : a * b < 2^w) : mul w a b = some (a * b) := if_pos fits

theorem sub_eq (below : b ≤ a) : sub a b = some (a - b) := if_pos below

theorem div_eq (positive : 0 < b) : div a b = some (a / b) := if_neg (Nat.ne_of_gt positive)

theorem cast_eq (fits : a < 2^w) : cast w a = a := Nat.mod_eq_of_lt fits

theorem sum_eq (w : Nat) (items : List Nat) : sum w items = if items.sum < 2^w then some items.sum else none := by
  have from_start (start : Nat) (fits : start < 2^w) :
      items.foldlM (add w) start = if start + items.sum < 2^w then some (start + items.sum) else none := by
    induction items generalizing start with
    | nil => exact (if_pos fits).symm
    | cons item rest ih =>
      rw [List.foldlM_cons,List.sum_cons,← Nat.add_assoc]
      by_cases partial_fits : start + item < 2^w
      · rw [add_eq partial_fits]
        exact ih _ partial_fits
      · have over_all : ¬ start + item + rest.sum < 2^w := by omega
        rw [add,if_neg partial_fits,if_neg over_all]
        rfl
  have whole := from_start 0 (Nat.two_pow_pos w)
  rwa [Nat.zero_add] at whole

theorem wrappingSum_eq (w : Nat) (items : List Nat) : wrappingSum w items = items.sum % 2^w := by
  have from_start (start : Nat) : items.foldl (fun total item => (total + item) % 2^w) (start % 2^w) = (start + items.sum) % 2^w := by
    induction items generalizing start with
    | nil => rfl
    | cons item rest ih =>
      rw [List.foldl_cons,List.sum_cons,← Nat.add_assoc,Nat.mod_add_mod]
      exact ih (start + item)
  have whole := from_start 0
  rwa [Nat.zero_mod,Nat.zero_add] at whole

end Integers

variable {α : Type}

/-- The items from `start` to `stop`. -/
def slice (items : List α) (start stop : Nat) : Option (List α) :=
  if start ≤ stop ∧ stop ≤ items.length then some ((items.drop start).take (stop - start)) else none

/-- Copies `source` over the items from `start` to `stop`; the lengths have to agree. -/
def overwrite (items : List α) (start stop : Nat) (source : List α) : Option (List α) :=
  if (start ≤ stop ∧ stop ≤ items.length) ∧ source.length = stop - start then some (items.take start ++ source ++ items.drop stop)
  else none

section Slices

variable {items : List α} {start count : Nat}

theorem slice_eq (fits : start + count ≤ items.length) : slice items start (start + count) = some ((items.drop start).take count) := by
  unfold slice
  rw [if_pos ⟨Nat.le_add_right start count,fits⟩,Nat.add_sub_cancel_left]

theorem overwrite_eq (fits : start + count ≤ items.length) {source : List α} (sized : source.length = count) :
    overwrite items start (start + count) source = some (items.take start ++ source ++ items.drop (start + source.length)) := by
  have length : source.length = start + count - start := by omega
  unfold overwrite
  rw [if_pos ⟨⟨Nat.le_add_right start count,fits⟩,length⟩,sized]

end Slices

end Checked
