import Mathlib.Tactic

/-! Runs of a partial step function, and when a property holds in all their states. -/
namespace Runs

variable {α σ : Type} {step : α → σ → Option σ} {inv good : σ → Prop} {condition : α → σ → Prop}

/-- The state after the acts, if each of them is possible where it is taken. -/
def run (step : α → σ → Option σ) : List α → σ → Option σ
  | [],s => some s
  | act::rest,s => (step act s).bind (run step rest)

theorem run_cons {act : α} {rest : List α} {s t : σ} (ran : run step (act::rest) s = some t) :
    ∃ u, step act s = some u ∧ run step rest u = some t := Option.bind_eq_some_iff.mp ran

theorem run_append (first second : List α) (s : σ) : run step (first ++ second) s = (run step first s).bind (run step second) := by
  induction first generalizing s with
  | nil => rfl
  | cons act rest ih =>
    rw [List.cons_append,run,run,Option.bind_assoc]
    exact congrArg _ (funext ih)

/-- The property holds in every state the run comes through. -/
def Always (step : α → σ → Option σ) (good : σ → Prop) (acts : List α) (s : σ) : Prop :=
  ∀ before after t, acts = before ++ after → run step before s = some t → good t

/-- The condition holds of every act in the state it is taken in. -/
def Each (step : α → σ → Option σ) (condition : α → σ → Prop) (acts : List α) (s : σ) : Prop :=
  ∀ before act after t, acts = before ++ act::after → run step before s = some t → condition act t

theorem always_nil (s : σ) : Always step good [] s ↔ good s := by
  constructor
  · intro always
    exact always [] [] s rfl rfl
  · intro holds before after t split ran
    rw [(List.append_eq_nil_iff.mp split.symm).1] at ran
    cases ran
    exact holds

theorem always_cons {act : α} {s u : σ} (stepped : step act s = some u) (rest : List α) :
    Always step good (act::rest) s ↔ good s ∧ Always step good rest u := by
  constructor
  · intro always
    refine ⟨always [] _ s rfl rfl,?_⟩
    intro before after t split ran
    refine always (act::before) after t (by rw [split]; rfl) ?_
    rw [run,stepped]
    exact ran
  · intro both before after t split ran
    cases before with
    | nil =>
      cases ran
      exact both.1
    | cons first before =>
      cases split
      rw [run,stepped] at ran
      exact both.2 before after t rfl ran

theorem each_nil (s : σ) : Each step condition [] s := by
  intro before act after t split
  cases (List.append_eq_nil_iff.mp split.symm).2

theorem each_cons {act : α} {s u : σ} (stepped : step act s = some u) (rest : List α) :
    Each step condition (act::rest) s ↔ condition act s ∧ Each step condition rest u := by
  constructor
  · intro each
    refine ⟨each [] act rest s rfl rfl,?_⟩
    intro before next after t split ran
    refine each (act::before) next after t (by rw [split]; rfl) ?_
    rw [run,stepped]
    exact ran
  · intro both before next after t split ran
    cases before with
    | nil =>
      cases split
      cases ran
      exact both.1
    | cons first before =>
      cases split
      rw [run,stepped] at ran
      exact both.2 before next after t rfl ran

/-- A property that each step keeps exactly under a condition holds throughout a run
exactly when all its steps meet the condition. -/
theorem always_iff_each (one : ∀ act s t, inv s → good s → step act s = some t → inv t ∧ (good t ↔ condition act s))
    (acts : List α) {s t : σ} (start : inv s) (sound : good s) (ran : run step acts s = some t) :
    Always step good acts s ↔ Each step condition acts s := by
  induction acts generalizing s with
  | nil =>
    rw [always_nil]
    exact ⟨fun _ => each_nil s,fun _ => sound⟩
  | cons act rest ih =>
    obtain ⟨u,stepped,rest_ran⟩ := run_cons ran
    obtain ⟨kept,iff⟩ := one act s u start sound stepped
    rw [always_cons stepped,each_cons stepped,← iff]
    constructor
    · intro always
      have next : good u := always.2 [] rest u rfl rfl
      exact ⟨next,(ih kept next rest_ran).mp always.2⟩
    · intro each
      exact ⟨sound,(ih kept each.1 rest_ran).mpr each.2⟩

/-- The same where each act of the run meets a side condition. -/
theorem always_iff_each_where {side : α → σ → Prop}
    (one : ∀ act s t, inv s → side act s → good s → step act s = some t → inv t ∧ (good t ↔ condition act s))
    (acts : List α) {s t : σ} (start : inv s) (sides : Each step side acts s) (sound : good s) (ran : run step acts s = some t) :
    Always step good acts s ↔ Each step condition acts s := by
  induction acts generalizing s with
  | nil =>
    rw [always_nil]
    exact ⟨fun _ => each_nil s,fun _ => sound⟩
  | cons act rest ih =>
    obtain ⟨u,stepped,rest_ran⟩ := run_cons ran
    obtain ⟨first,sides⟩ := (each_cons stepped rest).mp sides
    obtain ⟨kept,iff⟩ := one act s u start first sound stepped
    rw [always_cons stepped,each_cons stepped,← iff]
    constructor
    · intro always
      have next : good u := always.2 [] rest u rfl rfl
      exact ⟨next,(ih kept sides next rest_ran).mp always.2⟩
    · intro each
      exact ⟨sound,(ih kept sides each.1 rest_ran).mpr each.2⟩

/-- Two properties of acts that come to the same wherever an invariant of the steps holds. -/
theorem each_iff_each {property : α → σ → Prop} (kept : ∀ act s t, inv s → step act s = some t → inv t)
    (one : ∀ act s t, inv s → step act s = some t → (property act s ↔ condition act s)) (acts : List α) {s t : σ} (start : inv s)
    (ran : run step acts s = some t) : Each step property acts s ↔ Each step condition acts s := by
  induction acts generalizing s with
  | nil => exact ⟨fun _ => each_nil s,fun _ => each_nil s⟩
  | cons act rest ih =>
    obtain ⟨u,stepped,rest_ran⟩ := run_cons ran
    rw [each_cons stepped,each_cons stepped,one act s u start stepped,ih (kept act s u start stepped) rest_ran]

/-- A property of acts that holds under a condition, wherever an invariant of the steps does. -/
theorem each_of_inv {property : α → σ → Prop} (kept : ∀ act s t, inv s → step act s = some t → inv t)
    (sound : ∀ act s, inv s → condition act s → property act s) (acts : List α) {s : σ} (start : inv s)
    (met : Each step condition acts s) : Each step property acts s := by
  intro before act after t split ran
  have reached (before : List α) (s : σ) (start : inv s) (ran : run step before s = some t) : inv t := by
    induction before generalizing s with
    | nil =>
      cases ran
      exact start
    | cons first rest ih =>
      obtain ⟨u,stepped,rest_ran⟩ := run_cons ran
      exact ih u (kept first s u start stepped) rest_ran
  exact sound act t (reached before s start ran) (met before act after t split ran)

/-- An invariant that speaks of the acts so far: each act extends it, if it meets the
condition where it is taken. -/
theorem run_histories {along : List α → σ → Prop} {start : σ} (empty : along [] start)
    (one : ∀ seen act s t, run step seen start = some s → along seen s → condition act s → step act s = some t → along (seen ++ [act]) t)
    (acts : List α) (met : Each step condition acts start) {t : σ} (ran : run step acts start = some t) : along acts t := by
  induction acts using List.reverseRecOn generalizing t with
  | nil =>
    cases ran
    exact empty
  | append_singleton seen act ih =>
    rw [run_append] at ran
    obtain ⟨s,before,last⟩ := Option.bind_eq_some_iff.mp ran
    obtain ⟨u,stepped,ended⟩ := run_cons last
    cases ended
    have sooner : Each step condition seen start := by
      intro first next rest v split there
      exact met first next (rest ++ [act]) v (by rw [split]; simp) there
    exact one seen act s _ before (ih sooner before) (met seen act [] s rfl before) stepped

section Total

variable {next : σ → α → σ} {along : List α → σ → Prop}

theorem folds_nil (s : σ) : (∀ before after : List α, [] = before ++ after → good (before.foldl next s)) ↔ good s := by
  constructor
  · intro always
    exact always [] [] rfl
  · intro holds before after split
    rw [(List.append_eq_nil_iff.mp split.symm).1]
    exact holds

theorem folds_cons (act : α) (rest : List α) (s : σ) :
    (∀ before after, act::rest = before ++ after → good (before.foldl next s)) ↔
      good s ∧ ∀ before after, rest = before ++ after → good (before.foldl next (next s act)) := by
  constructor
  · intro always
    refine ⟨always [] _ rfl,?_⟩
    intro before after split
    exact always (act::before) after (by rw [split]; rfl)
  · intro both before after split
    cases before with
    | nil => exact both.1
    | cons first before =>
      cases split
      exact both.2 before after rfl

/-- The same rule for steps that are always possible, with the condition on the run
given by recursion along it. -/
theorem folds_iff (done : ∀ s, along [] s)
    (one : ∀ act rest s, good s → (along (act::rest) s ↔ good (next s act) ∧ along rest (next s act))) (acts : List α) {s : σ}
    (start : good s) : (∀ before after, acts = before ++ after → good (before.foldl next s)) ↔ along acts s := by
  induction acts generalizing s with
  | nil =>
    rw [folds_nil]
    exact ⟨fun _ => done s,fun _ => start⟩
  | cons act rest ih =>
    rw [folds_cons,one act rest s start]
    constructor
    · intro always
      have next_good : good (next s act) := always.2 [] rest rfl
      exact ⟨next_good,(ih next_good).mp always.2⟩
    · intro both
      exact ⟨start,(ih both.1).mpr both.2⟩

/-- And for a property of the steps taken so far. -/
theorem histories_iff {good : List α → Prop} {start : σ} (done : ∀ s, along [] s)
    (one : ∀ seen act rest, good seen → (along (act::rest) (seen.foldl next start) ↔
      good (seen ++ [act]) ∧ along rest ((seen ++ [act]).foldl next start))) (acts seen : List α) (sound : good seen) :
    (∀ before after, acts = before ++ after → good (seen ++ before)) ↔ along acts (seen.foldl next start) := by
  induction acts generalizing seen with
  | nil =>
    refine ⟨fun _ => done _,?_⟩
    intro _ before after split
    rw [(List.append_eq_nil_iff.mp split.symm).1,List.append_nil]
    exact sound
  | cons act rest ih =>
    rw [one seen act rest sound]
    constructor
    · intro always
      have grown : good (seen ++ [act]) := always [act] rest rfl
      refine ⟨grown,(ih _ grown).mp ?_⟩
      intro before after split
      rw [List.append_assoc]
      exact always (act::before) after (by rw [split]; rfl)
    · intro both before after split
      cases before with
      | nil =>
        rw [List.append_nil]
        exact sound
      | cons first before =>
        cases split
        have later := (ih _ both.1).mpr both.2 before after rfl
        rw [List.append_assoc] at later
        exact later

end Total

end Runs
