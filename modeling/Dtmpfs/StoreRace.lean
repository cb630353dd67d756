import Dtmpfs.Store
import Dtmpfs.Semantics.OrderedMap

/-! Requests of one block store run side by side, one step for every operation on a
`DashMap` or on the counter. Until a request has finished, its share of `ram_used`
may be missing or be counted twice. -/
namespace Dtmpfs
open OrderedMap

inductive StoreCall where
  | write (key : BlockKey) (data : Bytes)
  | delete (key : BlockKey)
  | read (key : BlockKey)
deriving DecidableEq, Repr

/-- A request in progress, named after the last step it has made. -/
inductive StoreTask where
  | arrived (call : StoreCall)
  | unstale (key : BlockKey) (data : Bytes)
  | affordable (key : BlockKey) (data : Bytes)
  | inserted (key : BlockKey) (data : Bytes) (previous : Nat)
  | added (key : BlockKey) (data : Bytes) (previous : Nat)
  | counted (key : BlockKey) (data : Bytes)
  | removed (key : BlockKey) (previous : Nat)
  | forgetting (key : BlockKey)
deriving DecidableEq, Repr

inductive StoreAnswer where
  | len (n : Nat)
  | data (bytes : Bytes)
  | empty
deriving DecidableEq, Repr

inductive Progress where
  | next (task : StoreTask)
  | done (reply : Except Fault StoreAnswer)

def Progress.tasks : Progress → List StoreTask
  | .next task => [task]
  | .done _ => []

namespace StoreState

/-- `blocks.insert`, and the length of what it replaces. -/
def putBlock (key : BlockKey) (data : Bytes) (s : StoreState) : Nat × StoreState :=
  ((s.blocks[key]?.map List.length).getD 0,{s with blocks := s.blocks.insert key data})

def fetchAdd (len : Nat) (s : StoreState) : StoreState := {s with ramUsed := wrappingAdd s.ramUsed len}

def fetchSub (len : Nat) (s : StoreState) : StoreState := {s with ramUsed := wrappingSub s.ramUsed len}

/-- `high_water.entry(logical).and_modify(..).or_insert(..)`. -/
def raiseMark (key : BlockKey) (s : StoreState) : StoreState :=
  {s with
    highWater := s.highWater.insert key.logical
      (match s.highWater[key.logical]? with
        | some mark => if mark < key.generation then key.generation else mark
        | none => key.generation)}

def dropMark (key : BlockKey) (s : StoreState) : StoreState := {s with highWater := s.highWater.erase key.logical}

end StoreState

/-- The next step of a request. The sum of the budget check is a plain `+`: it wraps,
or panics where the build checks for overflow. -/
def StoreTask.proceed (overflowChecks : Bool) (task : StoreTask) (s : StoreState) : Progress × StoreState :=
  match task with
  | .arrived (.write key data) =>
    if s.highWater[key.logical]?.any (fun mark => key.generation < mark) then
      (.done (refuse .failedPrecondition "stale generation"),s)
    else (.next (.unstale key data),s)
  | .unstale key data =>
    if overflowChecks = true ∧ 2^64 ≤ s.ramUsed + data.length then (.done (.error .panicked),s)
    else if s.ramBudget < wrappingAdd s.ramUsed data.length then
      (.done (refuse .resourceExhausted "ram budget exceeded"),s)
    else (.next (.affordable key data),s)
  | .affordable key data =>
    let (previous,s) := s.putBlock key data
    (.next (.inserted key data previous),s)
  | .inserted key data previous => (.next (.added key data previous),s.fetchAdd data.length)
  | .added key data previous => (.next (.counted key data),s.fetchSub previous)
  | .counted key data => (.done (.ok (.len data.length)),s.raiseMark key)
  | .arrived (.delete key) =>
    match s.blocks[key]? with
    | some previous => (.next (.removed key previous.length),{s with blocks := s.blocks.erase key})
    | none => (.next (.forgetting key),s)
  | .removed key previous => (.next (.forgetting key),s.fetchSub previous)
  | .forgetting key => (.done (.ok .empty),s.dropMark key)
  | .arrived (.read key) =>
    match s.blocks[key]? with
    | some data => (.done (.ok (.data data)),s)
    | none => (.done (refuse .notFound "block not found"),s)

/-- A store with the requests it is working on. -/
structure StoreRace where
  store : StoreState
  tasks : List StoreTask

inductive RaceLabel where
  | arrive (call : StoreCall)
  | proceed (i : Nat)
deriving DecidableEq, Repr

def StoreRace.step (overflowChecks : Bool) (label : RaceLabel) (σ : StoreRace) : Option StoreRace :=
  match label with
  | .arrive call => some {σ with tasks := σ.tasks ++ [.arrived call]}
  | .proceed i =>
    match σ.tasks[i]? with
    | none => none
    | some task =>
      let (progress,store) := task.proceed overflowChecks σ.store
      some ⟨store,σ.tasks.take i ++ progress.tasks ++ σ.tasks.drop (i + 1)⟩

def StoreTask.isWrite : StoreTask → Bool
  | .arrived (.write ..) | .unstale .. | .affordable .. | .inserted .. | .added .. | .counted .. => true
  | _ => false

def StoreTask.payload : StoreTask → Nat
  | .arrived (.write _ data) | .unstale _ data | .affordable _ data | .inserted _ data _ | .added _ data _
  | .counted _ data => data.length
  | _ => 0

/-- At most `k` writes are in progress, each with at most `B` bytes. -/
def Modest (k B : Nat) (σ : StoreRace) : Prop :=
  (σ.tasks.filter StoreTask.isWrite).length ≤ k ∧ ∀ task ∈ σ.tasks, task.payload ≤ B

instance (k B : Nat) (σ : StoreRace) : Decidable (Modest k B σ) := inferInstanceAs (Decidable (_ ∧ _))

/-- The states an empty store can get into while it stays modest. -/
inductive RaceReachable (overflowChecks : Bool) (nodeId : NodeId) (budget k B : Nat) : StoreRace → Prop
  | start : RaceReachable overflowChecks nodeId budget k B ⟨.new nodeId budget,[]⟩
  | step (σ τ : StoreRace) (label : RaceLabel) (reached : RaceReachable overflowChecks nodeId budget k B σ)
      (stepped : σ.step overflowChecks label = some τ) (modest : Modest k B τ) : RaceReachable overflowChecks nodeId budget k B τ

/-- Total length of the stored blocks. -/
def StoreState.stored (s : StoreState) : Nat := total List.length s.blocks

section Account

/-- Bytes stored but not yet added to `ram_used`. -/
def StoreTask.owed : StoreTask → Nat
  | .inserted _ data _ => data.length
  | _ => 0

/-- Bytes no longer stored but not yet subtracted from `ram_used`. -/
def StoreTask.due : StoreTask → Nat
  | .inserted _ _ previous | .added _ _ previous | .removed _ previous => previous
  | _ => 0

/-- Bytes that have passed the budget check and are not yet stored. -/
def StoreTask.granted : StoreTask → Nat
  | .affordable _ data => data.length
  | _ => 0

def tally (share : StoreTask → Nat) (tasks : List StoreTask) : Nat := (tasks.map share).sum

theorem tally_append (share : StoreTask → Nat) (first second : List StoreTask) :
    tally share (first ++ second) = tally share first + tally share second := by
  simp [tally]

theorem tally_split (share : StoreTask → Nat) {tasks : List StoreTask} {i : Nat} {task : StoreTask} (found : tasks[i]? = some task) :
    tally share tasks = tally share (tasks.take i) + share task + tally share (tasks.drop (i + 1)) := by
  obtain ⟨small,rfl⟩ := List.getElem?_eq_some_iff.mp found
  have split : tasks = tasks.take i ++ [tasks[i]] ++ tasks.drop (i + 1) := by simp
  have sums := congrArg (tally share) split
  rw [tally_append,tally_append] at sums
  rw [sums]
  simp [tally]

/-- The open shares of the writes in progress are payloads of theirs. -/
theorem shares_le {B : Nat} (tasks : List StoreTask) (small : ∀ task ∈ tasks, task.payload ≤ B) :
    tally StoreTask.owed tasks + tally StoreTask.granted tasks ≤ (tasks.filter StoreTask.isWrite).length * B := by
  induction tasks with
  | nil => simp [tally]
  | cons task rest ih =>
    have tail := ih (fun other member => small other (List.mem_cons_of_mem _ member))
    have head := small task List.mem_cons_self
    have own : task.owed + task.granted ≤ if task.isWrite = true then B else 0 := by
      cases task with
      | arrived call => cases call <;> simp [StoreTask.owed,StoreTask.granted]
      | affordable key data => simpa [StoreTask.owed,StoreTask.granted,StoreTask.isWrite,StoreTask.payload] using head
      | inserted key data previous => simpa [StoreTask.owed,StoreTask.granted,StoreTask.isWrite,StoreTask.payload] using head
      | _ => simp [StoreTask.owed,StoreTask.granted]
    simp only [tally,List.map_cons,List.sum_cons] at tail ⊢
    cases write : task.isWrite with
    | false =>
      simp only [write,Bool.false_eq_true,if_false] at own
      rw [List.filter_cons_of_neg (by simp [write])]
      omega
    | true =>
      simp only [write,if_true] at own
      rw [List.filter_cons_of_pos write,List.length_cons,Nat.add_mul,Nat.one_mul]
      omega

/-- What one step does to the account: it keeps the balance of the counter with
the store, and what is stored or promised grows in the budget check alone. -/
structure Posting (task : StoreTask) (s : StoreState) (progress : Progress) (t : StoreState) : Prop where
  budget : t.ramBudget = s.ramBudget
  word : s.ramUsed < 2^64 → t.ramUsed < 2^64
  balance : (t.ramUsed + tally StoreTask.owed progress.tasks + (s.stored + task.due)) % 2^64 =
    (s.ramUsed + task.owed + (t.stored + tally StoreTask.due progress.tasks)) % 2^64
  growth : t.stored + tally StoreTask.due progress.tasks + tally StoreTask.granted progress.tasks ≤ s.stored + task.due + task.granted ∨
    ∃ key data, task = .unstale key data ∧ progress = .next (.affordable key data) ∧ t = s ∧
      wrappingAdd s.ramUsed data.length ≤ s.ramBudget

theorem Posting.idle {task : StoreTask} {s : StoreState} {progress : Progress} (owed : tally StoreTask.owed progress.tasks = task.owed)
    (due : tally StoreTask.due progress.tasks = task.due) (granted : tally StoreTask.granted progress.tasks ≤ task.granted) :
    Posting task s progress s := by
  refine ⟨rfl,id,?_,.inl ?_⟩
  · rw [owed,due]
  · omega

theorem proceed_posting (overflowChecks : Bool) (task : StoreTask) (s : StoreState) :
    Posting task s (task.proceed overflowChecks s).1 (task.proceed overflowChecks s).2 := by
  cases task with
  | arrived call =>
    cases call with
    | write key data =>
      simp only [StoreTask.proceed]
      split <;> exact .idle rfl rfl (Nat.le_refl 0)
    | delete key =>
      have erased := total_erase List.length s.blocks key
      simp only [StoreTask.proceed]
      split
      next previous found =>
        rw [found,Option.map_some,Option.getD_some] at erased
        refine ⟨rfl,id,?_,.inl ?_⟩
        · simp only [Progress.tasks,tally,List.map_singleton,List.sum_singleton,StoreTask.owed,StoreTask.due,StoreState.stored]
          omega
        · simp only [Progress.tasks,tally,List.map_singleton,List.sum_singleton,StoreTask.granted,StoreTask.due,StoreState.stored]
          omega
      next => exact .idle rfl rfl (Nat.le_refl 0)
    | read key =>
      simp only [StoreTask.proceed]
      split <;> exact .idle rfl rfl (Nat.le_refl 0)
  | unstale key data =>
    simp only [StoreTask.proceed]
    split
    · exact .idle rfl rfl (Nat.le_refl 0)
    split
    · exact .idle rfl rfl (Nat.le_refl 0)
    next within => exact ⟨rfl,id,rfl,.inr ⟨key,data,rfl,rfl,rfl,Nat.le_of_not_lt within⟩⟩
  | affordable key data =>
    have grown := total_insert List.length s.blocks key data
    refine ⟨rfl,id,?_,.inl ?_⟩
    · simp only [StoreTask.proceed,StoreState.putBlock,Progress.tasks,tally,List.map_singleton,List.sum_singleton,StoreTask.owed,
        StoreTask.due,StoreState.stored]
      omega
    · simp only [StoreTask.proceed,StoreState.putBlock,Progress.tasks,tally,List.map_singleton,List.sum_singleton,
        StoreTask.granted,StoreTask.due,StoreState.stored]
      omega
  | inserted key data previous =>
    refine ⟨rfl,fun _ => Nat.mod_lt _ (by decide),?_,.inl (Nat.le_refl _)⟩
    simp only [StoreTask.proceed,StoreState.fetchAdd,wrappingAdd,Progress.tasks,tally,List.map_singleton,List.sum_singleton,
      StoreTask.owed,StoreTask.due,StoreState.stored]
    omega
  | added key data previous =>
    refine ⟨rfl,fun _ => Nat.mod_lt _ (by decide),?_,.inl (Nat.le_add_right _ _)⟩
    simp only [StoreTask.proceed,StoreState.fetchSub,wrappingSub,Progress.tasks,tally,List.map_singleton,List.sum_singleton,
      StoreTask.owed,StoreTask.due,StoreState.stored]
    omega
  | counted key data => exact ⟨rfl,id,rfl,.inl (Nat.le_refl _)⟩
  | removed key previous =>
    refine ⟨rfl,fun _ => Nat.mod_lt _ (by decide),?_,.inl (Nat.le_add_right _ _)⟩
    simp only [StoreTask.proceed,StoreState.fetchSub,wrappingSub,Progress.tasks,tally,List.map_singleton,List.sum_singleton,
      StoreTask.owed,StoreTask.due,StoreState.stored]
    omega
  | forgetting key => exact ⟨rfl,id,rfl,.inl (Nat.le_refl _)⟩

/-- The books of the store: what `ram_used` says, put right by the open shares, is
what is stored, and what is stored or promised stays within the bound. -/
structure Balanced (budget k B : Nat) (σ : StoreRace) : Prop where
  limit : σ.store.ramBudget = budget
  word : σ.store.ramUsed < 2^64
  books : (σ.store.ramUsed + tally StoreTask.owed σ.tasks) % 2^64 = (σ.store.stored + tally StoreTask.due σ.tasks) % 2^64
  bound : σ.store.stored + tally StoreTask.due σ.tasks + tally StoreTask.granted σ.tasks ≤ budget + (k - 1) * B

variable {overflowChecks : Bool} {nodeId : NodeId} {budget k B : Nat} {σ τ : StoreRace}

theorem balanced_start : Balanced budget k B ⟨.new nodeId budget,[]⟩ := by
  have nothing : (StoreState.new nodeId budget).stored = 0 := total_empty List.length
  refine ⟨rfl,Nat.two_pow_pos 64,?_,?_⟩
  · rw [nothing]
    rfl
  · rw [nothing]
    exact Nat.zero_le _

theorem balanced_arrive (h : Balanced budget k B σ) (call : StoreCall) :
    Balanced budget k B {σ with tasks := σ.tasks ++ [.arrived call]} := by
  have owed : tally StoreTask.owed (σ.tasks ++ [.arrived call]) = tally StoreTask.owed σ.tasks := tally_append _ _ _
  have due : tally StoreTask.due (σ.tasks ++ [.arrived call]) = tally StoreTask.due σ.tasks := tally_append _ _ _
  have granted : tally StoreTask.granted (σ.tasks ++ [.arrived call]) = tally StoreTask.granted σ.tasks := tally_append _ _ _
  refine ⟨h.limit,h.word,?_,?_⟩
  · rw [owed,due]
    exact h.books
  · rw [due,granted]
    exact h.bound

/-- The budget check passes with at most `k - 1` other writes between their check
and their `fetch_add`. -/
theorem balanced_grant {before after : List StoreTask} {key : BlockKey} {data : Bytes} {s : StoreState} (room : budget + k * B < 2^63)
    (h : Balanced budget k B ⟨s,before ++ [.unstale key data] ++ after⟩)
    (modest : Modest k B ⟨s,before ++ [.affordable key data] ++ after⟩)
    (within : wrappingAdd s.ramUsed data.length ≤ s.ramBudget) :
    Balanced budget k B ⟨s,before ++ [.affordable key data] ++ after⟩ := by
  obtain ⟨limit,word,books,bound⟩ := h
  obtain ⟨writes,small⟩ := modest
  have payload : data.length ≤ B := small (.affordable key data) (by simp)
  have others : (before.filter StoreTask.isWrite).length + (after.filter StoreTask.isWrite).length + 1 ≤ k := by
    simp only [List.filter_append,List.length_append,List.filter_singleton,StoreTask.isWrite,cond_true,List.length_singleton] at writes
    omega
  have left := shares_le before (fun task member => small task (by simp [member]))
  have right := shares_le after (fun task member => small task (by simp [member]))
  have shared : (before.filter StoreTask.isWrite).length * B + (after.filter StoreTask.isWrite).length * B ≤ (k - 1) * B := by
    rw [← Nat.add_mul]
    exact Nat.mul_le_mul_right B (by omega)
  have whole : k * B = (k - 1) * B + B := by
    rw [← Nat.succ_mul]
    congr
    omega
  simp only [tally_append] at books bound
  have own : tally StoreTask.owed [.unstale key data] = 0 ∧ tally StoreTask.due [.unstale key data] = 0 ∧
      tally StoreTask.granted [.unstale key data] = 0 := ⟨rfl,rfl,rfl⟩
  have new : tally StoreTask.owed [.affordable key data] = 0 ∧ tally StoreTask.due [.affordable key data] = 0 ∧
      tally StoreTask.granted [.affordable key data] = data.length := ⟨rfl,rfl,rfl⟩
  rw [own.1,own.2.1] at books
  rw [own.2.1,own.2.2] at bound
  refine ⟨limit,word,?_,?_⟩
  · simp only [tally_append]
    rw [new.1,new.2.1]
    exact books
  · simp only [tally_append]
    rw [new.2.1,new.2.2]
    simp only at limit
    rw [wrappingAdd,limit] at within
    -- The counter may have wrapped, but then more is owed than is stored and due.
    omega

theorem balanced_step (room : budget + k * B < 2^63) (h : Balanced budget k B σ) {label : RaceLabel}
    (stepped : σ.step overflowChecks label = some τ) (modest : Modest k B τ) : Balanced budget k B τ := by
  cases label with
  | arrive call =>
    cases stepped
    exact balanced_arrive h call
  | proceed i =>
    simp only [StoreRace.step] at stepped
    split at stepped
    · cases stepped
    next task found =>
      cases stepped
      obtain ⟨budget',word',balance,growth⟩ := proceed_posting overflowChecks task σ.store
      rcases growth with less | ⟨key,data,rfl,next,same,within⟩
      · have owed := tally_split StoreTask.owed found
        have due := tally_split StoreTask.due found
        have granted := tally_split StoreTask.granted found
        have books := h.books
        have bound := h.bound
        refine ⟨budget'.trans h.limit,word' h.word,?_,?_⟩
        · simp only [tally_append]
          omega
        · simp only [tally_append]
          omega
      · obtain ⟨small,here⟩ := List.getElem?_eq_some_iff.mp found
        have split : σ.tasks = σ.tasks.take i ++ [.unstale key data] ++ σ.tasks.drop (i + 1) := by
          rw [← here]
          simp
        have before : Balanced budget k B ⟨σ.store,σ.tasks.take i ++ [.unstale key data] ++ σ.tasks.drop (i + 1)⟩ := by
          rw [← split]
          exact h
        rw [next,same] at modest ⊢
        exact balanced_grant room before modest within

theorem reachable_balanced (room : budget + k * B < 2^63) (reached : RaceReachable overflowChecks nodeId budget k B σ) :
    Balanced budget k B σ := by
  induction reached with
  | start => exact balanced_start
  | step σ τ label _ stepped modest ih => exact balanced_step room ih stepped modest

end Account

section Alone

/-- The steps of one request with nothing in between. -/
def StoreTask.finish (overflowChecks : Bool) : Nat → StoreTask → StoreState → Option (Except Fault StoreAnswer × StoreState)
  | 0,_,_ => none
  | n + 1,task,s =>
    match task.proceed overflowChecks s with
    | (.next task,s) => finish overflowChecks n task s
    | (.done reply,s) => some (reply,s)

/-- The reply of a request that runs as a whole, as the steps give it. -/
def replied {α : Type} (answer : α → StoreAnswer) : Except Status α → Except Fault StoreAnswer
  | .ok value => .ok (answer value)
  | .error status => .error (.status status)

theorem finish_next {overflowChecks : Bool} {task next : StoreTask} {s t : StoreState} (n : Nat)
    (step : task.proceed overflowChecks s = (.next next,t)) :
    StoreTask.finish overflowChecks (n + 1) task s = StoreTask.finish overflowChecks n next t := by
  simp only [StoreTask.finish,step]

theorem finish_done {overflowChecks : Bool} {task : StoreTask} {s t : StoreState} {reply : Except Fault StoreAnswer} (n : Nat)
    (step : task.proceed overflowChecks s = (.done reply,t)) :
    StoreTask.finish overflowChecks (n + 1) task s = some (reply,t) := by
  simp only [StoreTask.finish,step]

variable (overflowChecks : Bool) (key : BlockKey) (s : StoreState)

theorem finish_write (data : Bytes) (word : s.ramUsed + data.length < 2^64) :
    StoreTask.finish overflowChecks 6 (.arrived (.write key data)) s =
      some (replied .len (s.writeBlock key data).1,(s.writeBlock key data).2) := by
  have sum : wrappingAdd s.ramUsed data.length = s.ramUsed + data.length := Nat.mod_eq_of_lt word
  have checked : ¬ (overflowChecks = true ∧ 2^64 ≤ s.ramUsed + data.length) := fun both => absurd word (Nat.not_lt.mpr both.2)
  unfold StoreState.writeBlock
  cases stale : s.highWater[key.logical]?.any (fun mark => decide (key.generation < mark)) with
  | true =>
    apply finish_done
    simp only [StoreTask.proceed,stale]
    rfl
  | false =>
    rw [finish_next 5 (by simp only [StoreTask.proceed,stale]; rfl)]
    by_cases excess : s.ramBudget < s.ramUsed + data.length
    · rw [finish_done 4 (by rw [StoreTask.proceed,if_neg checked,sum,if_pos excess])]
      simp only [excess,Bool.false_eq_true,if_false,if_true]
      rfl
    · rw [finish_next 4 (by rw [StoreTask.proceed,if_neg checked,sum,if_neg excess]),finish_next 3 rfl,finish_next 2 rfl,
        finish_next 1 rfl,finish_done 0 rfl]
      simp only [excess,Bool.false_eq_true,if_false]
      rfl

theorem finish_delete : StoreTask.finish overflowChecks 3 (.arrived (.delete key)) s = some (.ok .empty,s.deleteBlock key) := by
  simp only [StoreTask.finish,StoreTask.proceed,StoreState.deleteBlock]
  cases found : s.blocks[key]? with
  | none =>
    have same : s.blocks.erase key = s.blocks := by
      ext other value
      rw [get_erase]
      split
      next equal => rw [← equal,found]
      next => rfl
    simp only [StoreState.dropMark,same]
  | some previous => rfl

theorem finish_read : StoreTask.finish overflowChecks 1 (.arrived (.read key)) s = some (replied .data (s.readBlock key),s) := by
  simp only [StoreTask.finish,StoreTask.proceed,StoreState.readBlock]
  cases s.blocks[key]? <;> rfl

end Alone

/-- The stored bytes overshoot the budget by less than one payload for each write in
progress, and the counter is exact whenever the store is at rest. -/
theorem stored_bounded (overflowChecks : Bool) (nodeId : NodeId) (budget k B : Nat) (room : budget + k * B < 2^63) (σ : StoreRace)
    (reached : RaceReachable overflowChecks nodeId budget k B σ) :
    σ.store.stored ≤ budget + (k - 1) * B ∧ (σ.tasks = [] → σ.store.ramUsed = σ.store.stored) ∧
      (k = 1 → σ.store.stored ≤ budget) := by
  obtain ⟨_,word,books,bound⟩ := reachable_balanced room reached
  have whole : (k - 1) * B ≤ k * B := Nat.mul_le_mul_right B (Nat.sub_le k 1)
  refine ⟨by omega,?_,?_⟩
  · intro rest
    rw [rest] at books bound
    simp only [tally,List.map_nil,List.sum_nil,Nat.add_zero] at books bound
    omega
  · intro single
    rw [single,Nat.sub_self,Nat.zero_mul] at bound
    omega

/-- A run that stays modest. -/
def StoreRace.modestRun (overflowChecks : Bool) (k B : Nat) : List RaceLabel → StoreRace → Option StoreRace
  | [],σ => some σ
  | label::rest,σ =>
    match σ.step overflowChecks label with
    | some τ => if Modest k B τ then modestRun overflowChecks k B rest τ else none
    | none => none

theorem modestRun_reachable {overflowChecks : Bool} {nodeId : NodeId} {budget k B : Nat} {σ τ : StoreRace} (labels : List RaceLabel)
    (ran : σ.modestRun overflowChecks k B labels = some τ) (reached : RaceReachable overflowChecks nodeId budget k B σ) :
    RaceReachable overflowChecks nodeId budget k B τ := by
  induction labels generalizing σ with
  | nil =>
    cases ran
    exact reached
  | cons label rest ih =>
    simp only [StoreRace.modestRun] at ran
    split at ran
    next next stepped =>
      split at ran
      next modest => exact ih ran (.step σ next label reached stepped modest)
      next => cases ran
    next => cases ran

/-- Two writes of one byte each that both pass the check before either has stored. -/
def twoWrites : List RaceLabel :=
  [.arrive (.write ⟨2,0,0⟩ [7]),.arrive (.write ⟨2,1,0⟩ [8]),.proceed 0,.proceed 0,.proceed 1,.proceed 1,.proceed 0,.proceed 1]

theorem stored_bounded_overshoot : ∃ σ, StoreRace.modestRun false 2 1 twoWrites ⟨.new "n" 1,[]⟩ = some σ ∧
    σ.store.stored = 2 ∧ σ.store.ramUsed = 0 ∧ σ.store.stored ≤ 1 + (2 - 1) * 1 := by
  obtain ⟨σ,ran⟩ : ∃ σ, StoreRace.modestRun false 2 1 twoWrites ⟨.new "n" 1,[]⟩ = some σ := ⟨_,rfl⟩
  have bounded := stored_bounded false "n" 1 2 1 (by decide) σ (modestRun_reachable twoWrites ran .start)
  refine ⟨σ,ran,?_,?_,bounded.1⟩
  · cases ran
    decide
  · cases ran
    rfl

end Dtmpfs
