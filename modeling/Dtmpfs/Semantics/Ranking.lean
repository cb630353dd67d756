import Mathlib.Data.List.Sort
import Mathlib.Tactic

/-! The best items of a list. Items are ranked by a function into a linear order, best
first, and the first `r` are taken. Where no two items rank the same, the choice changes
by one item at most when an item comes or goes. -/
namespace Ranking

variable {α β : Type} [LinearOrder β] {rank : α → β} {items : List α} {r : Nat}

/-- All items, best first. -/
def ranked (rank : α → β) (items : List α) : List α := items.insertionSort (fun a b => rank b ≤ rank a)

/-- The `r` best items, best first. -/
def best (rank : α → β) (items : List α) (r : Nat) : List α := (ranked rank items).take r

/-- No two items rank the same. -/
def Distinct (rank : α → β) (items : List α) : Prop := ∀ a ∈ items, ∀ b ∈ items, rank a = rank b → a = b

theorem ranked_perm (rank : α → β) (items : List α) : (ranked rank items).Perm items := List.perm_insertionSort _ _

theorem ranked_sorted (rank : α → β) (items : List α) : (ranked rank items).Pairwise (fun a b => rank b ≤ rank a) := by
  have total : Std.Total (fun a b : α => rank b ≤ rank a) := ⟨fun a b => le_total (rank b) (rank a)⟩
  have transitive : IsTrans α (fun a b => rank b ≤ rank a) := ⟨fun a b c first second => le_trans second first⟩
  exact List.pairwise_insertionSort _ _

/-- With distinct ranks there is one way to sort. -/
theorem ranked_eq (distinct : Distinct rank items) {sorted : List α} (perm : sorted.Perm items)
    (ordered : sorted.Pairwise (fun a b => rank b ≤ rank a)) : sorted = ranked rank items := by
  have rearranged := perm.trans (ranked_perm rank items).symm
  refine List.Perm.eq_of_pairwise ?_ ordered (ranked_sorted rank items) rearranged
  intro a b left right above below
  have first := perm.mem_iff.mp left
  have second := (ranked_perm rank items).mem_iff.mp right
  exact distinct a first b second (le_antisymm below above)

theorem ranked_strict (distinct : Distinct rank items) (nodup : items.Nodup) :
    (ranked rank items).Pairwise (fun a b => rank b < rank a) := by
  have apart := (ranked_perm rank items).nodup_iff.mpr nodup
  refine ((ranked_sorted rank items).and apart).imp_of_mem ?_
  intro a b left right both
  obtain ⟨below,differ⟩ := both
  rcases lt_or_eq_of_le below with less | same
  · exact less
  · have first := (ranked_perm rank items).mem_iff.mp left
    have second := (ranked_perm rank items).mem_iff.mp right
    exact absurd (distinct a first b second same.symm) differ

theorem best_length (rank : α → β) (items : List α) (r : Nat) : (best rank items r).length = min r items.length := by
  rw [best,List.length_take,(ranked_perm rank items).length_eq]

theorem best_subset {a : α} (chosen : a ∈ best rank items r) : a ∈ items :=
  (ranked_perm rank items).mem_iff.mp (List.mem_of_mem_take chosen)

theorem best_nodup (nodup : items.Nodup) : (best rank items r).Nodup :=
  ((ranked_perm rank items).nodup_iff.mpr nodup).sublist (List.take_sublist _ _)

theorem best_descending (distinct : Distinct rank items) (nodup : items.Nodup) :
    (best rank items r).Pairwise (fun a b => rank b < rank a) :=
  (ranked_strict distinct nodup).sublist (List.take_sublist _ _)

theorem best_above (distinct : Distinct rank items) (nodup : items.Nodup) {a b : α} (chosen : a ∈ best rank items r)
    (left : b ∈ items) (out : b ∉ best rank items r) : rank b < rank a := by
  have strict := ranked_strict distinct nodup
  have listed := (ranked_perm rank items).mem_iff.mpr left
  rw [← List.take_append_drop r (ranked rank items)] at strict listed
  have later : b ∈ (ranked rank items).drop r := (List.mem_append.mp listed).resolve_left out
  exact (List.pairwise_append.mp strict).2.2 a chosen b later

theorem best_prefix (rank : α → β) (items : List α) (r : Nat) : best rank items r <+: best rank items (r + 1) := by
  refine ⟨((ranked rank items).drop r).take 1,?_⟩
  rw [best,best,List.take_add]

section Changes

variable [DecidableEq α]

/-- Taking an item out leaves the others in order. -/
theorem ranked_erase (distinct : Distinct rank items) (x : α) : ranked rank (items.erase x) = (ranked rank items).erase x := by
  have fewer : Distinct rank (items.erase x) := by
    intro a left b right
    exact distinct a (List.mem_of_mem_erase left) b (List.mem_of_mem_erase right)
  symm
  refine ranked_eq fewer ((ranked_perm rank items).erase x) ?_
  exact (ranked_sorted rank items).sublist List.erase_sublist

theorem best_erase_other (distinct : Distinct rank items) {x : α} (out : x ∉ best rank items r) :
    best rank (items.erase x) r = best rank items r := by
  rw [best,ranked_erase distinct]
  rw [best] at out ⊢
  conv_lhs => rw [← List.take_append_drop r (ranked rank items)]
  rw [List.erase_append_right _ out,List.take_append]
  rcases Nat.lt_or_ge (ranked rank items).length r with few | enough
  · rw [List.drop_of_length_le (le_of_lt few),List.erase_nil,List.take_nil,List.append_nil,List.take_take,Nat.min_self]
  · have full : ((ranked rank items).take r).length = r := List.length_take_of_le enough
    rw [full,Nat.sub_self,List.take_zero,List.append_nil,List.take_of_length_le (le_of_eq full)]

/-- The place of a chosen item that goes is taken by the next in rank, if there is one. -/
theorem best_erase_chosen (distinct : Distinct rank items) {x : α} (chosen : x ∈ best rank items r) :
    best rank (items.erase x) r = (best rank items r).erase x ++ ((ranked rank items).drop r).take 1 := by
  rw [best,ranked_erase distinct]
  rw [best] at chosen ⊢
  conv_lhs => rw [← List.take_append_drop r (ranked rank items)]
  rw [List.erase_append_left _ chosen,List.take_append,List.length_erase_of_mem chosen]
  have present := List.length_pos_of_mem chosen
  rcases Nat.lt_or_ge (ranked rank items).length r with few | enough
  · rw [List.drop_of_length_le (le_of_lt few),List.take_nil,List.take_nil,List.append_nil,List.append_nil,List.take_of_length_le]
    rw [List.length_erase_of_mem chosen,List.length_take]
    omega
  · have full : ((ranked rank items).take r).length = r := List.length_take_of_le enough
    rw [full] at present ⊢
    have one : r - (r - 1) = 1 := by omega
    rw [one,List.take_of_length_le]
    rw [List.length_erase_of_mem chosen,full]
    omega

/-- A new item is not chosen, or takes its place among the chosen and drives out the
last of them at most. -/
theorem best_insert {larger : List α} {x : α} (distinct : Distinct rank larger) (nodup : larger.Nodup) (perm : larger.Perm (x::items)) :
    best rank larger r = best rank items r ∨
      ∃ front back last, last.length ≤ 1 ∧ best rank items r = front ++ back ++ last ∧ best rank larger r = front ++ x::back := by
  have smaller : best rank (larger.erase x) r = best rank items r := by
    have rest : (larger.erase x).Perm items := by
      have removed := perm.erase x
      rw [List.erase_cons_head] at removed
      exact removed
    have fewer : Distinct rank items := by
      intro a left b right
      exact distinct a (perm.mem_iff.mpr (List.mem_cons_of_mem _ left)) b (perm.mem_iff.mpr (List.mem_cons_of_mem _ right))
    rw [best,best,← ranked_eq fewer ((ranked_perm rank _).trans rest) (ranked_sorted rank _)]
  by_cases chosen : x ∈ best rank larger r
  · right
    have changed := best_erase_chosen distinct chosen
    rw [smaller] at changed
    obtain ⟨front,back,split⟩ := List.append_of_mem chosen
    have unique : (best rank larger r).Nodup := best_nodup nodup
    rw [split] at unique changed
    have once : x ∉ front := by
      intro again
      exact (List.nodup_append.mp unique).2.2 x again x List.mem_cons_self rfl
    rw [List.erase_append_right _ once,List.erase_cons_head] at changed
    exact ⟨front,back,_,List.length_take_le _ _,changed,split⟩
  · left
    rw [← best_erase_other distinct chosen]
    exact smaller

end Changes

end Ranking
