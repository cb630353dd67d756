import Dtmpfs.Semantics.Runs

/-! Forward simulation: a machine whose every step another machine can follow in a run of
its own, some relation of their states being kept. The run may spend no more than the step
allows, in whatever is counted. -/
namespace Simulation

variable {α β σ τ : Type} {fine : α → σ → Option σ} {coarse : β → τ → Option τ} {rel : σ → τ → Prop} {allowed : α → Nat} {spent : β → Nat}

/-- The coarse machine gets from `t` to a state with the property, spending at most `budget`. -/
def Reaches (coarse : β → τ → Option τ) (spent : β → Nat) (budget : Nat) (t : τ) (goal : τ → Prop) : Prop :=
  ∃ labels t', Runs.run coarse labels t = some t' ∧ goal t' ∧ (labels.map spent).sum ≤ budget

theorem Reaches.stays {budget : Nat} {t : τ} {goal : τ → Prop} (there : goal t) : Reaches coarse spent budget t goal :=
  ⟨[],t,rfl,there,Nat.zero_le _⟩

theorem Reaches.moves {t t' : τ} {goal : τ → Prop} {label : β} (stepped : coarse label t = some t') (there : goal t') :
    Reaches coarse spent (spent label) t goal := by
  refine ⟨[label],t',?_,there,Nat.le_refl _⟩
  rw [Runs.run,stepped]
  rfl

theorem Reaches.trans {first later : Nat} {t : τ} {middle goal : τ → Prop} (reached : Reaches coarse spent first t middle)
    (onward : ∀ t', middle t' → Reaches coarse spent later t' goal) : Reaches coarse spent (first + later) t goal := by
  obtain ⟨before,u,ran,there,cheap⟩ := reached
  obtain ⟨after,t',moved,ended,cheap'⟩ := onward u there
  refine ⟨before ++ after,t',?_,ended,?_⟩
  · rw [Runs.run_append,ran]
    exact moved
  · rw [List.map_append,List.sum_append]
    exact Nat.add_le_add cheap cheap'

theorem Reaches.mono {budget larger : Nat} {t : τ} {goal goal' : τ → Prop} (reached : Reaches coarse spent budget t goal)
    (fits : budget ≤ larger) (weaker : ∀ t', goal t' → goal' t') : Reaches coarse spent larger t goal' := by
  obtain ⟨labels,t',ran,there,cheap⟩ := reached
  exact ⟨labels,t',ran,weaker t' there,Nat.le_trans cheap fits⟩

/-- The coarse machine follows every step of the fine one. -/
def Follows (fine : α → σ → Option σ) (allowed : α → Nat) (coarse : β → τ → Option τ) (spent : β → Nat) (rel : σ → τ → Prop) : Prop :=
  ∀ act s s' t, rel s t → fine act s = some s' → Reaches coarse spent (allowed act) t (rel s')

/-- And so it follows every run. -/
theorem run_followed (follows : Follows fine allowed coarse spent rel) (acts : List α) {s s' : σ} {t : τ} (start : rel s t)
    (ran : Runs.run fine acts s = some s') : Reaches coarse spent (acts.map allowed).sum t (rel s') := by
  induction acts generalizing s t with
  | nil =>
    cases ran
    exact .stays start
  | cons act rest ih =>
    obtain ⟨u,stepped,rest_ran⟩ := Runs.run_cons ran
    rw [List.map_cons,List.sum_cons]
    exact (follows act s u t start stepped).trans (fun t' kept => ih kept rest_ran)

end Simulation
