import Dtmpfs.Semantics.Runs

/-! Runs whose acts use up a measure, and sums over a list that changes at one place. -/
namespace Measured

section Lists

variable {β : Type} (cost : β → Nat) {items : List β} {k : Nat} {old : β}

theorem sum_set (new : β) (found : items[k]? = some old) : ((items.set k new).map cost).sum + cost old = (items.map cost).sum + cost new := by
  induction items generalizing k with
  | nil => cases found
  | cons head rest ih =>
    cases k with
    | zero =>
      cases found
      simp only [List.set_cons_zero,List.map_cons,List.sum_cons]
      omega
    | succ k =>
      have later := ih found
      simp only [List.set_cons_succ,List.map_cons,List.sum_cons]
      omega

theorem sum_eraseIdx (found : items[k]? = some old) : ((items.eraseIdx k).map cost).sum + cost old = (items.map cost).sum := by
  induction items generalizing k with
  | nil => cases found
  | cons head rest ih =>
    cases k with
    | zero =>
      cases found
      simp only [List.eraseIdx_cons_zero,List.map_cons,List.sum_cons]
      omega
    | succ k =>
      have later := ih found
      simp only [List.eraseIdx_cons_succ,List.map_cons,List.sum_cons]
      omega

/-- Items that cost at least one each are no more than they cost. -/
theorem length_filterMap_le {γ : Type} {pick : β → Option γ} (items : List β) (paid : ∀ item, (pick item).isSome = true → 1 ≤ cost item) :
    (items.filterMap pick).length ≤ (items.map cost).sum := by
  induction items with
  | nil => exact Nat.le_refl 0
  | cons head rest ih =>
    have first := paid head
    simp only [List.filterMap_cons,List.map_cons,List.sum_cons]
    split
    next => omega
    next picked found =>
      have one : 1 ≤ cost head := first (by rw [found]; rfl)
      simp only [List.length_cons]
      omega

end Lists

section Acts

variable {α σ : Type} {step : α → σ → Option σ} {good : σ → Prop} {own : α → Bool} {measure : σ → Nat}

/-- Where no act raises the measure and each of one's own lowers it, there are no more of
one's own in a run than it lowers the measure by. -/
theorem spent (one : ∀ act s t, good s → good t → step act s = some t → measure t + (if own act then 1 else 0) ≤ measure s)
    (acts : List α) {s t : σ} (always : Runs.Always step good acts s) (ran : Runs.run step acts s = some t) :
    acts.countP own + measure t ≤ measure s := by
  induction acts generalizing s with
  | nil =>
    cases ran
    exact Nat.le_of_eq (Nat.zero_add _)
  | cons act rest ih =>
    obtain ⟨u,stepped,rest_ran⟩ := Runs.run_cons ran
    obtain ⟨here,always⟩ := (Runs.always_cons stepped rest).mp always
    have there : good u := always [] rest u rfl rfl
    have later := ih always rest_ran
    have first := one act s u here there stepped
    rw [List.countP_cons]
    omega

end Acts

end Measured
