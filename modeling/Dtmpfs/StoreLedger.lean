import Dtmpfs.StoreRace
import Dtmpfs.Semantics.Runs

/-! `replicate` beside the other requests of a store, one step for every operation on
the counter or the block map. It counts what it stores and forgets what it overwrites. -/
namespace Dtmpfs
open OrderedMap

/-- A `replicate` in progress. -/
inductive PullTask where
  | asked (key : BlockKey)
  | pulled (key : BlockKey) (data : Bytes)
  | charged (key : BlockKey) (data : Bytes)
deriving DecidableEq, Repr

inductive PullProgress where
  | next (task : PullTask)
  | done (reply : Except Status Unit)

def PullProgress.tasks : PullProgress → List PullTask
  | .next task => [task]
  | .done _ => []

/-- The next step of a `replicate`. The source is whatever listens at `source_addr`, so
its answer is open; a connection that fails is an answer too. -/
def PullTask.proceed (answer : Except Status Bytes) (task : PullTask) (s : StoreState) : PullProgress × StoreState :=
  match task with
  | .asked key =>
    match answer with
    | .error status => (.done (.error status),s)
    | .ok data => (.next (.pulled key data),s)
  | .pulled key data => (.next (.charged key data),s.fetchAdd data.length)
  | .charged key data => (.done (.ok ()),(s.putBlock key data).2)

/-- A store with the requests it is working on, its replications among them. -/
structure PullRace where
  race : StoreRace
  pulls : List PullTask

inductive PullLabel where
  | request (label : RaceLabel)
  | replicate (key : BlockKey)
  | pull (i : Nat) (answer : Except Status Bytes)

namespace PullRace

def new (nodeId : NodeId) (budget : Nat) : PullRace := ⟨⟨.new nodeId budget,[]⟩,[]⟩

def step (overflowChecks : Bool) (label : PullLabel) (σ : PullRace) : Option PullRace :=
  match label with
  | .request label => (σ.race.step overflowChecks label).map (fun race => {σ with race := race})
  | .replicate key => some {σ with pulls := σ.pulls ++ [.asked key]}
  | .pull i answer =>
    match σ.pulls[i]? with
    | none => none
    | some task =>
      let (progress,store) := task.proceed answer σ.race.store
      some ⟨{σ.race with store := store},σ.pulls.take i ++ progress.tasks ++ σ.pulls.drop (i + 1)⟩

end PullRace

/-- The bytes the next step of a `replicate` overwrites. -/
def PullTask.overwrites (task : PullTask) (s : StoreState) : Nat :=
  match task with
  | .charged key _ => (s.blocks[key]?.map List.length).getD 0
  | _ => 0

namespace PullRace

def overwrites (label : PullLabel) (σ : PullRace) : Nat :=
  match label with
  | .pull i _ => (σ.pulls[i]?.map (fun task => task.overwrites σ.race.store)).getD 0
  | _ => 0

/-- The bytes overwritten by replications in a run. -/
def overwritten (overflowChecks : Bool) : List PullLabel → PullRace → Nat
  | [],_ => 0
  | label::rest,σ => σ.overwrites label + ((step overflowChecks label σ).map (overwritten overflowChecks rest)).getD 0

end PullRace

/-- Bytes already added to `ram_used` and not yet stored. -/
def PullTask.ahead : PullTask → Nat
  | .charged _ data => data.length
  | _ => 0

def aheadOf (pulls : List PullTask) : Nat := (pulls.map PullTask.ahead).sum

section Alone

variable (s : StoreState) (key : BlockKey)

/-- A `replicate` with nothing in between, its source another store of the cluster. -/
theorem pull_alone (token : String) (source : StoreState) {answer : Except Status Bytes}
    (asked : answer = (StoreState.checkToken token none).bind (fun _ => source.readBlock key)) :
    (∃ status, PullTask.proceed answer (.asked key) s = (.done (.error status),s) ∧
      StoreState.replicate token source key s = (.error status,s)) ∨
    ∃ data, PullTask.proceed answer (.asked key) s = (.next (.pulled key data),s) ∧
      PullTask.proceed answer (.pulled key data) s = (.next (.charged key data),s.fetchAdd data.length) ∧
      PullTask.proceed answer (.charged key data) (s.fetchAdd data.length) =
        (.done (StoreState.replicate token source key s).1,(StoreState.replicate token source key s).2) := by
  rw [asked]
  cases checked : StoreState.checkToken token none with
  | error status =>
    left
    exact ⟨status,rfl,by simp only [StoreState.replicate,checked]⟩
  | ok _ =>
    cases read : source.readBlock key with
    | error status =>
      left
      exact ⟨status,by simp only [Except.bind,PullTask.proceed],by simp only [StoreState.replicate,checked,read]⟩
    | ok data =>
      right
      refine ⟨data,by simp only [Except.bind,PullTask.proceed],rfl,?_⟩
      simp only [StoreState.replicate,checked,read,PullTask.proceed,StoreState.putBlock,StoreState.fetchAdd]

end Alone

namespace PullRace

variable {overflowChecks : Bool} {lost : Nat} {σ τ : PullRace}

/-- The books of the store, with `lost` bytes overwritten by replications. -/
structure Booked (lost : Nat) (σ : PullRace) : Prop where
  word : σ.race.store.ramUsed < 2^64
  books : (σ.race.store.ramUsed + tally StoreTask.owed σ.race.tasks) % 2^64 =
    (σ.race.store.stored + tally StoreTask.due σ.race.tasks + aheadOf σ.pulls + lost) % 2^64

theorem aheadOf_append (first second : List PullTask) : aheadOf (first ++ second) = aheadOf first + aheadOf second := by
  simp [aheadOf]

theorem aheadOf_split {pulls : List PullTask} {i : Nat} {task : PullTask} (found : pulls[i]? = some task) :
    aheadOf pulls = aheadOf (pulls.take i) + task.ahead + aheadOf (pulls.drop (i + 1)) := by
  obtain ⟨small,rfl⟩ := List.getElem?_eq_some_iff.mp found
  have split : pulls = pulls.take i ++ [pulls[i]] ++ pulls.drop (i + 1) := by simp
  have sums := congrArg aheadOf split
  rw [aheadOf_append,aheadOf_append] at sums
  rw [sums]
  simp [aheadOf]

theorem booked_new (nodeId : NodeId) (budget : Nat) : Booked 0 (new nodeId budget) := by
  have nothing : (StoreState.new nodeId budget).stored = 0 := total_empty List.length
  refine ⟨Nat.two_pow_pos 64,?_⟩
  simp only [new,nothing]
  rfl

theorem booked_request {label : RaceLabel} {race : StoreRace} (booked : Booked lost σ)
    (stepped : σ.race.step overflowChecks label = some race) : Booked lost {σ with race := race} := by
  obtain ⟨word,books⟩ := booked
  cases label with
  | arrive call =>
    cases stepped
    refine ⟨word,?_⟩
    simp only [tally_append]
    exact books
  | proceed i =>
    simp only [StoreRace.step] at stepped
    split at stepped
    · cases stepped
    next task found =>
      cases stepped
      obtain ⟨_,word',balance,_⟩ := proceed_posting overflowChecks task σ.race.store
      have owed := tally_split StoreTask.owed found
      have due := tally_split StoreTask.due found
      refine ⟨word' word,?_⟩
      simp only [tally_append]
      omega

/-- What one step of a `replicate` does to the account. -/
theorem pull_posting (answer : Except Status Bytes) (task : PullTask) {s : StoreState} (word : s.ramUsed < 2^64) :
    (task.proceed answer s).2.ramUsed < 2^64 ∧
      ((task.proceed answer s).2.ramUsed + (s.stored + task.ahead)) % 2^64 =
        (s.ramUsed + ((task.proceed answer s).2.stored + aheadOf (task.proceed answer s).1.tasks + task.overwrites s)) % 2^64 := by
  cases task with
  | asked key =>
    cases answer with
    | error status => exact ⟨word,rfl⟩
    | ok data => exact ⟨word,rfl⟩
  | pulled key data =>
    refine ⟨Nat.mod_lt _ (Nat.two_pow_pos 64),?_⟩
    simp only [PullTask.proceed,PullTask.overwrites,PullTask.ahead,PullProgress.tasks,StoreState.fetchAdd,StoreState.stored,wrappingAdd,
      aheadOf,List.map_singleton,List.sum_singleton]
    omega
  | charged key data =>
    have grown := total_insert List.length s.blocks key data
    refine ⟨word,?_⟩
    simp only [PullTask.proceed,PullTask.overwrites,PullTask.ahead,PullProgress.tasks,StoreState.putBlock,StoreState.stored,
      aheadOf,List.map_nil,List.sum_nil]
    omega

theorem booked_pull (booked : Booked lost σ) {i : Nat} {task : PullTask} (found : σ.pulls[i]? = some task) (answer : Except Status Bytes) :
    Booked (lost + task.overwrites σ.race.store) ⟨{σ.race with store := (task.proceed answer σ.race.store).2},
      σ.pulls.take i ++ (task.proceed answer σ.race.store).1.tasks ++ σ.pulls.drop (i + 1)⟩ := by
  obtain ⟨word,books⟩ := booked
  obtain ⟨word',balance⟩ := pull_posting answer task word
  have ahead := aheadOf_split found
  refine ⟨word',?_⟩
  simp only [aheadOf_append]
  omega

theorem booked_run (labels : List PullLabel) (booked : Booked lost σ) (ran : Runs.run (step overflowChecks) labels σ = some τ) :
    Booked (lost + overwritten overflowChecks labels σ) τ := by
  induction labels generalizing σ lost with
  | nil =>
    cases ran
    exact booked
  | cons label rest ih =>
    obtain ⟨υ,stepped,later⟩ := Runs.run_cons ran
    rw [overwritten,stepped,Option.map_some,Option.getD_some,← Nat.add_assoc]
    apply ih _ later
    cases label with
    | request label =>
      obtain ⟨race,raced,rfl⟩ := Option.map_eq_some_iff.mp stepped
      exact booked_request booked raced
    | replicate key =>
      cases stepped
      refine ⟨booked.word,?_⟩
      simp only [aheadOf_append]
      exact booked.books
    | pull i answer =>
      simp only [step] at stepped
      split at stepped
      · cases stepped
      next task found =>
        cases stepped
        rw [overwrites,found]
        exact booked_pull booked found answer

/-- Whatever has been going on, a store at rest reports the bytes it stores and, on top of
them, every byte that a `replicate` has overwritten. -/
theorem stat_ledger (overflowChecks : Bool) (nodeId : NodeId) (budget : Nat) (labels : List PullLabel)
    (ran : Runs.run (step overflowChecks) labels (new nodeId budget) = some σ) (served : σ.race.tasks = []) (replicated : σ.pulls = []) :
    σ.race.store.stat.usedBytes = (σ.race.store.stored + overwritten overflowChecks labels (new nodeId budget)) % 2^64 := by
  obtain ⟨word,books⟩ := booked_run labels (booked_new nodeId budget) ran
  rw [served,replicated] at books
  simp only [tally,aheadOf,List.map_nil,List.sum_nil,Nat.add_zero,Nat.zero_add] at books
  rw [← books]
  exact (Nat.mod_eq_of_lt word).symm

/-- Two bytes are written, replicated over and deleted again. -/
def replicatedOver : List PullLabel :=
  [.request (.arrive (.write ⟨2,0,0⟩ [1,2])),.replicate ⟨2,0,0⟩,.request (.proceed 0),.request (.proceed 0),.request (.proceed 0),
    .pull 0 (.ok [7]),.request (.proceed 0),.request (.proceed 0),.request (.proceed 0),.pull 0 (.ok []),.pull 0 (.ok []),
    .request (.arrive (.delete ⟨2,0,0⟩)),.request (.proceed 0),.request (.proceed 0),.request (.proceed 0)]

theorem stat_ledger_replicated : ∃ σ, Runs.run (step false) replicatedOver (new "n" 8) = some σ ∧ σ.race.store.blocks.isEmpty = true ∧
    overwritten false replicatedOver (new "n" 8) = 2 ∧
    σ.race.store.stat.usedBytes = (σ.race.store.stored + overwritten false replicatedOver (new "n" 8)) % 2^64 := by
  obtain ⟨σ,ran⟩ := Option.isSome_iff_exists.mp (show (Runs.run (step false) replicatedOver (new "n" 8)).isSome = true by decide)
  have ends : (Runs.run (step false) replicatedOver (new "n" 8)).all (fun σ => σ.race.tasks.isEmpty && σ.pulls.isEmpty &&
      σ.race.store.blocks.isEmpty) = true := by decide
  rw [ran] at ends
  simp only [Option.all_some,Bool.and_eq_true,List.isEmpty_iff] at ends
  exact ⟨σ,ran,ends.2,by decide,stat_ledger false "n" 8 replicatedOver ran ends.1.1 ends.1.2⟩

end PullRace

end Dtmpfs
