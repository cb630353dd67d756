import Dtmpfs.PublishOrder

/-! What a failed publish leaves behind. Up to its first `WriteBlock` a publish can fail
without a trace; after that the dirty blocks have been moved out of the handle, and an
error drops them. -/
namespace Dtmpfs
open OrderedMap

namespace PublishCall

/-- The first request that fails is `ListNodes` or `AllocateBlocks`. -/
def Early (acts : List Act) : Prop :=
  ∃ status, .listNodes (.error status) ∈ acts ∨ .allocate (.error status) ∈ acts

/-- The handle is as it was before the call. -/
structure Retained (file : OpenFile) (σ : PublishCall) : Prop where
  dirty : σ.file.dirty = file.dirty
  hint : σ.file.sizeHint = file.sizeHint
  generation : σ.file.generation = file.generation

/-- Each dirty block has been acknowledged by its primary, and the `Close` was accepted. -/
structure Published (file : OpenFile) (σ : PublishCall) : Prop where
  written : ∀ (idx : BlockIdx) (data : Bytes), file.dirty[idx]? = some data →
    ∃ placement, (placements file σ.trace)[idx]? = some placement ∧ .acked idx placement.primary data ∈ σ.trace
  accepted : .accepted ∈ σ.trace

/-- The dirty blocks have been taken out of the handle, or the call is over. -/
def Late : Phase → Prop
  | .listing | .allocating => False
  | _ => True

section Phases

variable {σ τ : PublishCall}

/-- The stream, and the `Close` after it, leave the handle's dirty map alone. -/
structure Onward (σ τ : PublishCall) : Prop where
  before : Late σ.phase
  after : Late τ.phase
  dirty : τ.file.dirty = σ.file.dirty
  ended : ∀ result, σ.phase = .returned result → τ.phase = σ.phase ∧ τ.file = σ.file

theorem start_onward (stepped : σ.start = some τ) : Onward σ τ := by
  unfold start at stepped
  split at stepped
  next phase =>
    split at stepped
    next =>
      cases stepped
      exact ⟨by rw [phase]; trivial,trivial,rfl,by rw [phase]; nofun⟩
    next => cases stepped
  next => cases stepped

theorem connect_onward {k : Nat} {reached : Bool} (stepped : σ.connect k reached = some τ) : Onward σ τ := by
  unfold connect at stepped
  split at stepped
  next phase =>
    have late : Late σ.phase := by rw [phase]; trivial
    split at stepped
    next =>
      split at stepped
      next => cases stepped
      next =>
        split at stepped
        next =>
          cases stepped
          exact ⟨late,trivial,rfl,by rw [phase]; nofun⟩
        next =>
          split at stepped
          next => cases stepped
          next =>
            split at stepped
            next =>
              cases stepped
              exact ⟨late,trivial,rfl,by rw [phase]; nofun⟩
            next =>
              cases stepped
              exact ⟨late,trivial,rfl,by rw [phase]; nofun⟩
    next => cases stepped
  next => cases stepped

theorem execute_onward {k : Nat} (stepped : σ.execute k = some τ) : Onward σ τ := by
  unfold execute at stepped
  split at stepped
  next phase =>
    split at stepped
    next =>
      split at stepped
      next =>
        cases stepped
        exact ⟨by rw [phase]; trivial,trivial,rfl,by rw [phase]; nofun⟩
      next => cases stepped
    next => cases stepped
  next => cases stepped

theorem answer_onward {k : Nat} {reply : Except Status Unit} (stepped : σ.answer k reply = some τ) : Onward σ τ := by
  unfold answer at stepped
  split at stepped
  next phase =>
    have late : Late σ.phase := by rw [phase]; trivial
    split at stepped
    next =>
      split at stepped
      next =>
        split at stepped
        next => cases stepped
        next =>
          split at stepped
          next =>
            cases stepped
            exact ⟨late,trivial,rfl,by rw [phase]; nofun⟩
          next =>
            split at stepped
            next =>
              dsimp only at stepped
              split at stepped
              next =>
                cases stepped
                exact ⟨late,trivial,rfl,by rw [phase]; nofun⟩
              next =>
                split at stepped
                next =>
                  cases stepped
                  exact ⟨late,trivial,rfl,by rw [phase]; nofun⟩
                next =>
                  cases stepped
                  exact ⟨late,trivial,rfl,by rw [phase]; nofun⟩
            next => cases stepped
      next => cases stepped
    next => cases stepped
  next => cases stepped

theorem close_onward {clock : SystemTime} (stepped : σ.close clock = some τ) : Onward σ τ := by
  unfold close at stepped
  split at stepped
  next phase =>
    cases stepped
    exact ⟨by rw [phase]; trivial,trivial,rfl,by rw [phase]; nofun⟩
  next => cases stepped

theorem closeReply_onward {reply : Except Status Attr} (stepped : σ.closeReply reply = some τ) : Onward σ τ := by
  unfold closeReply at stepped
  split at stepped
  next phase =>
    cases stepped
    exact ⟨by rw [phase]; trivial,trivial,rfl,by rw [phase]; nofun⟩
  next phase =>
    cases stepped
    exact ⟨by rw [phase]; trivial,trivial,rfl,by rw [phase]; nofun⟩
  next => cases stepped

theorem listNodes_handle {reply : Except Status Unit} (stepped : σ.listNodes reply = some τ) :
    ¬ Late σ.phase ∧ ((∃ status result, reply = .error status ∧ τ.phase = .returned result ∧ τ.file = σ.file) ∨
      (reply = .ok () ∧ ((¬ Late τ.phase ∧ τ.file = σ.file) ∨ (Late τ.phase ∧ τ.file.dirty = ∅)))) := by
  unfold listNodes at stepped
  split at stepped
  next status phase =>
    cases stepped
    exact ⟨by rw [phase]; exact id,.inl ⟨status,_,rfl,rfl,rfl⟩⟩
  next phase =>
    cases stepped
    refine ⟨by rw [phase]; exact id,.inr ⟨rfl,?_⟩⟩
    split
    next => exact .inr ⟨trivial,rfl⟩
    next => exact .inl ⟨id,rfl⟩
  next => cases stepped

theorem allocate_handle {reply : Except Status (List BlockLoc)} (stepped : σ.allocate reply = some τ) :
    ¬ Late σ.phase ∧ ((∃ status result, reply = .error status ∧ τ.phase = .returned result ∧ τ.file = σ.file) ∨
      ((∃ locs, reply = .ok locs) ∧ Late τ.phase ∧ τ.file.dirty = ∅)) := by
  unfold allocate at stepped
  split at stepped
  next status phase =>
    cases stepped
    exact ⟨by rw [phase]; exact id,.inl ⟨status,_,rfl,rfl,rfl⟩⟩
  next locs phase =>
    cases stepped
    exact ⟨by rw [phase]; exact id,.inr ⟨⟨locs,rfl⟩,trivial,rfl⟩⟩
  next => cases stepped

theorem aside_handle {act : Act} (stepped : step act σ = some τ)
    (aside : (∃ k, act = .sendSpawned k ∨ act = .dropSpawned k ∨ act = .land k ∨ act = .lose k) ∨
      ∃ node store, act = .elsewhere node store) : τ.phase = σ.phase ∧ τ.file = σ.file := by
  rcases aside with ⟨k,rfl | rfl | rfl | rfl⟩ | ⟨node,store,rfl⟩
  · obtain ⟨_,_,rfl⟩ := Option.map_eq_some_iff.mp stepped
    exact ⟨rfl,rfl⟩
  · simp only [step,dropSpawned] at stepped
    split at stepped
    next =>
      cases stepped
      exact ⟨rfl,rfl⟩
    next => cases stepped
  · obtain ⟨_,_,rfl⟩ := Option.map_eq_some_iff.mp stepped
    exact ⟨rfl,rfl⟩
  · simp only [step,lose] at stepped
    split at stepped
    next =>
      cases stepped
      exact ⟨rfl,rfl⟩
    next => cases stepped
  · cases stepped
    exact ⟨rfl,rfl⟩

/-- What a step does to the handle: nothing yet, a failure that leaves it whole, the
dirty blocks are taken, or they have been taken before. -/
inductive Handling (act : Act) (σ τ : PublishCall) : Prop
  | untouched (begun : ¬ Late σ.phase) (quiet : ¬ Early [act]) (on : ¬ Late τ.phase) (same : τ.file = σ.file)
  | refused (begun : ¬ Late σ.phase) (early : Early [act]) (ended : ∃ result, τ.phase = .returned result) (same : τ.file = σ.file)
  | taken (begun : ¬ Late σ.phase) (quiet : ¬ Early [act]) (late : Late τ.phase) (none : τ.file.dirty = ∅)
  | onward (quiet : ¬ Early [act]) (onward : Onward σ τ)

theorem step_handle {act : Act} (stepped : step act σ = some τ) : Handling act σ τ := by
  have calm (plain : ∀ status, act ≠ .listNodes (.error status) ∧ act ≠ .allocate (.error status)) : ¬ Early [act] := by
    intro early
    obtain ⟨status,first | second⟩ := early
    · exact (plain status).1 (List.mem_singleton.mp first).symm
    · exact (plain status).2 (List.mem_singleton.mp second).symm
  have beside (aside : (∃ k, act = .sendSpawned k ∨ act = .dropSpawned k ∨ act = .land k ∨ act = .lose k) ∨
      ∃ node store, act = .elsewhere node store) (quiet : ¬ Early [act]) : Handling act σ τ := by
    obtain ⟨phase,same⟩ := aside_handle stepped aside
    by_cases late : Late σ.phase
    · exact .onward quiet ⟨late,by rw [phase]; exact late,by rw [same],fun _ _ => ⟨phase,same⟩⟩
    · exact .untouched late quiet (by rw [phase]; exact late) same
  cases act with
  | listNodes reply =>
    obtain ⟨begun,⟨status,result,rfl,ended,same⟩ | ⟨rfl,⟨on,same⟩ | ⟨late,none⟩⟩⟩ := listNodes_handle stepped
    · exact .refused begun ⟨status,.inl (List.mem_singleton_self _)⟩ ⟨result,ended⟩ same
    · exact .untouched begun (calm (fun _ => ⟨nofun,nofun⟩)) on same
    · exact .taken begun (calm (fun _ => ⟨nofun,nofun⟩)) late none
  | allocate reply =>
    obtain ⟨begun,⟨status,result,rfl,ended,same⟩ | ⟨⟨locs,rfl⟩,late,none⟩⟩ := allocate_handle stepped
    · exact .refused begun ⟨status,.inr (List.mem_singleton_self _)⟩ ⟨result,ended⟩ same
    · exact .taken begun (calm (fun _ => ⟨nofun,nofun⟩)) late none
  | start => exact .onward (calm (fun _ => ⟨nofun,nofun⟩)) (start_onward stepped)
  | connect k reached => exact .onward (calm (fun _ => ⟨nofun,nofun⟩)) (connect_onward stepped)
  | execute k => exact .onward (calm (fun _ => ⟨nofun,nofun⟩)) (execute_onward stepped)
  | answer k reply => exact .onward (calm (fun _ => ⟨nofun,nofun⟩)) (answer_onward stepped)
  | close clock => exact .onward (calm (fun _ => ⟨nofun,nofun⟩)) (close_onward stepped)
  | closeReply reply => exact .onward (calm (fun _ => ⟨nofun,nofun⟩)) (closeReply_onward stepped)
  | sendSpawned k => exact beside (.inl ⟨k,.inl rfl⟩) (calm (fun _ => ⟨nofun,nofun⟩))
  | dropSpawned k => exact beside (.inl ⟨k,.inr (.inl rfl)⟩) (calm (fun _ => ⟨nofun,nofun⟩))
  | land k => exact beside (.inl ⟨k,.inr (.inr (.inl rfl))⟩) (calm (fun _ => ⟨nofun,nofun⟩))
  | lose k => exact beside (.inl ⟨k,.inr (.inr (.inr rfl))⟩) (calm (fun _ => ⟨nofun,nofun⟩))
  | elsewhere node store => exact beside (.inr ⟨node,store,rfl⟩) (calm (fun _ => ⟨nofun,nofun⟩))

theorem early_cons {act : Act} {rest : List Act} : Early (act::rest) ↔ Early [act] ∨ Early rest := by
  constructor
  · intro early
    obtain ⟨status,first | second⟩ := early
    · rcases List.mem_cons.mp first with same | later
      · exact .inl ⟨status,.inl (List.mem_singleton.mpr same)⟩
      · exact .inr ⟨status,.inl later⟩
    · rcases List.mem_cons.mp second with same | later
      · exact .inl ⟨status,.inr (List.mem_singleton.mpr same)⟩
      · exact .inr ⟨status,.inr later⟩
  · intro early
    rcases early with ⟨status,first | second⟩ | ⟨status,first | second⟩
    · exact ⟨status,.inl (List.mem_cons.mpr (.inl (List.mem_singleton.mp first)))⟩
    · exact ⟨status,.inr (List.mem_cons.mpr (.inl (List.mem_singleton.mp second)))⟩
    · exact ⟨status,.inl (List.mem_cons_of_mem _ first)⟩
    · exact ⟨status,.inr (List.mem_cons_of_mem _ second)⟩

/-- Once taken, the blocks do not come back, and a call that is over changes nothing. -/
theorem run_late (acts : List Act) (late : Late σ.phase) (reached : run acts σ = some τ) :
    ¬ Early acts ∧ τ.file.dirty = σ.file.dirty ∧
      ∀ result, σ.phase = .returned result → τ.phase = σ.phase ∧ τ.file = σ.file := by
  induction acts generalizing σ with
  | nil =>
    cases reached
    exact ⟨fun ⟨_,member⟩ => member.elim nofun nofun,rfl,fun _ _ => ⟨rfl,rfl⟩⟩
  | cons act rest ih =>
    obtain ⟨next,stepped,later⟩ := Option.bind_eq_some_iff.mp reached
    rcases step_handle stepped with ⟨early,_⟩ | ⟨early,_⟩ | ⟨early,_⟩ | ⟨quiet,onward⟩
    · exact absurd late early
    · exact absurd late early
    · exact absurd late early
    · obtain ⟨calm,dirty,ended⟩ := ih onward.after later
      refine ⟨?_,dirty.trans onward.dirty,?_⟩
      · rw [early_cons]
        exact fun either => either.elim quiet calm
      · intro result returned
        obtain ⟨phase,same⟩ := onward.ended result returned
        obtain ⟨phase',same'⟩ := ended result (phase.trans returned)
        exact ⟨phase'.trans phase,same'.trans same⟩

/-- A call that fails early leaves its handle whole, one that fails later has lost the
dirty blocks. -/
theorem run_failed (acts : List Act) (begun : ¬ Late σ.phase) (reached : run acts σ = some τ) {e : DtmpfsError}
    (failed : τ.phase = .returned (.error e)) : (Early acts ∧ τ.file = σ.file) ∨ (¬ Early acts ∧ τ.file.dirty = ∅) := by
  induction acts generalizing σ with
  | nil =>
    cases reached
    rw [failed] at begun
    exact absurd trivial begun
  | cons act rest ih =>
    obtain ⟨next,stepped,later⟩ := Option.bind_eq_some_iff.mp reached
    rcases step_handle stepped with ⟨_,quiet,on,same⟩ | ⟨_,early,⟨result,ended⟩,same⟩ | ⟨_,quiet,late,none⟩ | ⟨_,onward⟩
    · rcases ih on later with ⟨early,whole⟩ | ⟨calm,none⟩
      · exact .inl ⟨early_cons.mpr (.inr early),whole.trans same⟩
      · refine .inr ⟨?_,none⟩
        rw [early_cons]
        exact fun either => either.elim quiet calm
    · have late : Late next.phase := by rw [ended]; trivial
      exact .inl ⟨early_cons.mpr (.inl early),((run_late rest late later).2.2 result ended).2.trans same⟩
    · obtain ⟨calm,dirty,_⟩ := run_late rest late later
      refine .inr ⟨?_,dirty.trans none⟩
      rw [early_cons]
      exact fun either => either.elim quiet calm
    · exact absurd onward.before begun

end Phases

section Calls

variable {fh : Fh} {wait : WaitPolicy} {file : OpenFile} {stores : NodeId → StoreState} {acts : List Act} {σ : PublishCall}

theorem failed_dirty (reached : run acts (begin fh wait file stores) = some σ) {e : DtmpfsError} (failed : σ.phase = .returned (.error e)) :
    file.dirty.isEmpty = false ∧ ¬ Late (begin fh wait file stores).phase := by
  cases clean : file.dirty.isEmpty with
  | false =>
    refine ⟨rfl,?_⟩
    simp only [begin,clean]
    exact id
  | true =>
    have returned : (begin fh wait file stores).phase = .returned (.ok ()) := by simp only [begin,clean,if_true]
    have late : Late (begin fh wait file stores).phase := by rw [returned]; trivial
    have same := ((run_late acts late reached).2.2 _ returned).1
    rw [failed,returned] at same
    cases same

theorem retained_iff (reached : run acts (begin fh wait file stores) = some σ) {e : DtmpfsError} (failed : σ.phase = .returned (.error e)) :
    Retained file σ ↔ Early acts := by
  obtain ⟨full,begun⟩ := failed_dirty reached failed
  rcases run_failed acts begun reached failed with ⟨early,whole⟩ | ⟨calm,none⟩
  · have same : σ.file = file := whole
    exact ⟨fun _ => early,fun _ => ⟨by rw [same],by rw [same],by rw [same]⟩⟩
  · refine ⟨fun retained => ?_,fun early => absurd early calm⟩
    rw [← retained.dirty,none] at full
    simp at full

theorem published_ok (reached : run acts (begin fh wait file stores) = some σ) (ok : σ.phase = .returned (.ok ()))
    (full : file.dirty.isEmpty = false) : Published file σ := by
  have going := run_going acts (begin_going fh wait file stores) reached
  obtain ⟨r,closed⟩ := going.published ok full
  refine ⟨?_,?_⟩
  · intro idx data dirty
    obtain ⟨placement,placed,acked⟩ := going.proper.committed closed dirty
    exact ⟨placement,placed,acked.primary⟩
  · have underway := going.underway
    rw [ok] at underway
    rcases underway with clean | accepted
    · rw [full] at clean
      cases clean
    · exact accepted

/-- A call that fails early hands the same handle to the next one. -/
theorem early_same (reached : run acts (begin fh wait file stores) = some σ) {e : DtmpfsError} (failed : σ.phase = .returned (.error e))
    (early : Early acts) : σ.file = file := by
  obtain ⟨_,begun⟩ := failed_dirty reached failed
  rcases run_failed acts begun reached failed with ⟨_,whole⟩ | ⟨calm,_⟩
  · exact whole
  · exact absurd early calm

end Calls

/-- The `flush` and `fsync` calls on one handle, one after the other: the first of them
that returns `Ok` publishes `file`. -/
def Resent (fh : Fh) (file : OpenFile) : List (WaitPolicy × List Act) → OpenFile → (NodeId → StoreState) → Prop
  | [],_,_ => True
  | (wait,acts)::rest,now,stores => ∀ σ, run acts (begin fh wait now stores) = some σ →
      (σ.phase = .returned (.ok ()) → Published file σ) ∧
      ∀ e, σ.phase = .returned (.error e) → Resent fh file rest σ.file σ.stores

/-- Each of the calls that fails keeps the handle as it was, and the next one that succeeds
publishes what it had. -/
def KeepsDirty (fh : Fh) : List (WaitPolicy × List Act) → OpenFile → (NodeId → StoreState) → Prop
  | [],_,_ => True
  | (wait,acts)::rest,file,stores => ∀ σ, run acts (begin fh wait file stores) = some σ →
      (∀ e, σ.phase = .returned (.error e) → Retained file σ ∧ Resent fh file rest σ.file σ.stores) ∧
      ∀ result, σ.phase = .returned result → KeepsDirty fh rest σ.file σ.stores

/-- Each of the calls that fails does so with its `ListNodes` or its `AllocateBlocks`. -/
def FailsEarly (fh : Fh) : List (WaitPolicy × List Act) → OpenFile → (NodeId → StoreState) → Prop
  | [],_,_ => True
  | (wait,acts)::rest,file,stores => ∀ σ, run acts (begin fh wait file stores) = some σ →
      (∀ e, σ.phase = .returned (.error e) → Early acts) ∧
      ∀ result, σ.phase = .returned result → FailsEarly fh rest σ.file σ.stores

theorem resent_of_early {fh : Fh} {file : OpenFile} (full : file.dirty.isEmpty = false) (flushes : List (WaitPolicy × List Act))
    (stores : NodeId → StoreState) (early : FailsEarly fh flushes file stores) : Resent fh file flushes file stores := by
  induction flushes generalizing stores with
  | nil => trivial
  | cons head rest ih =>
    obtain ⟨wait,acts⟩ := head
    intro σ reached
    obtain ⟨first,later⟩ := early σ reached
    refine ⟨fun ok => published_ok reached ok full,?_⟩
    intro e failed
    have same := early_same reached failed (first e failed)
    have next := later _ failed
    rw [same] at next ⊢
    exact ih σ.stores next

/-- Failed publishes keep the dirty data exactly when they fail before the first block is
written. -/
theorem keepsDirty_iff (fh : Fh) (flushes : List (WaitPolicy × List Act)) (file : OpenFile) (stores : NodeId → StoreState) :
    KeepsDirty fh flushes file stores ↔ FailsEarly fh flushes file stores := by
  induction flushes generalizing file stores with
  | nil => exact Iff.rfl
  | cons head rest ih =>
    obtain ⟨wait,acts⟩ := head
    constructor
    · intro keeps σ reached
      obtain ⟨first,later⟩ := keeps σ reached
      refine ⟨?_,fun result returned => (ih σ.file σ.stores).mp (later result returned)⟩
      intro e failed
      exact (retained_iff reached failed).mp (first e failed).1
    · intro early σ reached
      obtain ⟨first,later⟩ := early σ reached
      refine ⟨?_,fun result returned => (ih σ.file σ.stores).mpr (later result returned)⟩
      intro e failed
      refine ⟨(retained_iff reached failed).mpr (first e failed),?_⟩
      have same := early_same reached failed (first e failed)
      have next := later _ failed
      rw [same] at next ⊢
      exact resent_of_early (failed_dirty reached failed).1 rest σ.stores next

/-- The primary of the only block is not reached; the flush after that has nothing to do. -/
theorem unreachable_loses_dirty :
    ¬ KeepsDirty 1 [(.primariesOnly,[.listNodes (.ok ()),.allocate (.ok [⟨0,"n",["m"]⟩]),.start,.connect 0 false]),(.primariesOnly,[])] oneByte
      (fun node => .new node 100) := by
  intro keeps
  obtain ⟨first,_⟩ := keeps _ rfl
  have written := ((first _ rfl).2 _ rfl).1 rfl
  exact absurd written.accepted (by simp [begin])


end PublishCall

end Dtmpfs
