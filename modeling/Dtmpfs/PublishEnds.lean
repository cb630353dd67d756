import Dtmpfs.FailedPublish
import Dtmpfs.Semantics.Measured

/-! A publish comes to its end. However its requests fare, and whatever others do to the
stores in the meantime, it takes no more acts of its own than its blocks have nodes for,
and until it has returned none of its futures waits for anything but an answer. -/
namespace Dtmpfs
open OrderedMap

namespace PublishCall

/-- The acts of the call and of the tasks it has spawned. -/
def own : Act → Bool
  | .elsewhere _ _ => false
  | _ => true

/-- How many nodes a block is written to. A block without a placement fails at the first. -/
def nodeCount (blockMap : Map BlockIdx BlockPlacement) (idx : BlockIdx) : Nat :=
  (blockMap[idx]?.map fun placement => placement.nodes.length).getD 1

/-- The acts a block takes on `n` nodes, after it has been taken up: three for a write that is
waited for, two for one that is spawned. -/
def blockActs (wait : WaitPolicy) (n : Nat) : Nat :=
  match wait with
  | .primariesOnly => 3 + 2 * (n - 1)
  | .allReplicas => 3 * n

def queuedActs (wait : WaitPolicy) (blockMap : Map BlockIdx BlockPlacement) (todo : List (BlockIdx × Bytes)) : Nat :=
  (todo.map fun entry => 1 + blockActs wait (nodeCount blockMap entry.1)).sum

/-- What is left of them once `acked` nodes have acknowledged. -/
def ackedActs (wait : WaitPolicy) (n acked : Nat) : Nat :=
  match wait with
  | .primariesOnly => blockActs wait n
  | .allReplicas => blockActs wait (n - acked)

def askedActs (asked : Option (Option (Except Status Nat))) : Nat :=
  match asked with
  | none => 0
  | some none => 1
  | some (some _) => 2

def futureActs (wait : WaitPolicy) (blockMap : Map BlockIdx BlockPlacement) (f : Future) : Nat :=
  ackedActs wait (nodeCount blockMap f.idx) f.acked - askedActs f.asked

def phaseActs (wait : WaitPolicy) (blockMap : Map BlockIdx BlockPlacement) (dirty : Map BlockIdx Bytes) : Phase → Nat
  | .listing => 4 + queuedActs wait blockMap dirty.toList
  | .allocating => 3 + queuedActs wait blockMap dirty.toList
  | .writing todo running _ => 2 + queuedActs wait blockMap todo + (running.map (futureActs wait blockMap)).sum
  | .closing => 1
  | .returned _ => 0

/-- How many acts of its own are left to a call at most, with the placements it has or will have. -/
def actsLeft (blockMap : Map BlockIdx BlockPlacement) (σ : PublishCall) : Nat :=
  phaseActs σ.wait blockMap σ.file.dirty σ.phase + 2 * σ.spawned.length + σ.adrift.length

section Steps

variable {blockMap : Map BlockIdx BlockPlacement} {σ τ : PublishCall}

theorem nodeCount_placed {idx : BlockIdx} {placement : BlockPlacement} (placed : blockMap[idx]? = some placement) :
    nodeCount blockMap idx = placement.nodes.length := by
  rw [nodeCount,placed]
  rfl

/-- A block with a node to go to has three acts left at least. -/
theorem ackedActs_next {idx : BlockIdx} {acked : Nat} {placement : BlockPlacement} (placed : blockMap[idx]? = some placement) {node : NodeId}
    (next : placement.nodes[acked]? = some node) (wait : WaitPolicy) : 3 ≤ ackedActs wait (nodeCount blockMap idx) acked := by
  have some_ : acked < placement.nodes.length := (List.getElem?_eq_some_iff.mp next).1
  rw [nodeCount_placed placed]
  cases wait with
  | primariesOnly => exact Nat.le_add_right 3 _
  | allReplicas =>
    have fewer : 1 ≤ placement.nodes.length - acked := Nat.sub_pos_of_lt some_
    exact Nat.mul_le_mul_left 3 fewer

theorem request_next {f : Future} (wanted : (σ.request f).isSome = true) :
    ∃ placement node, σ.file.blockMap[f.idx]? = some placement ∧ placement.nodes[f.acked]? = some node := by
  unfold request at wanted
  rw [Option.isSome_map,Option.isSome_iff_exists] at wanted
  obtain ⟨node,found⟩ := wanted
  obtain ⟨placement,placed,there⟩ := Option.bind_eq_some_iff.mp found
  exact ⟨placement,node,placed,there⟩

theorem unanswered_acts (map : σ.file.blockMap = blockMap) (running : List Future) :
    (σ.unanswered running).length ≤ (running.map (futureActs σ.wait blockMap)).sum := by
  unfold unanswered
  rw [List.filterMap_filter]
  apply Measured.length_filterMap_le
  intro f picked
  split at picked
  next _ waiting =>
    obtain ⟨placement,node,placed,next⟩ := request_next picked
    rw [map] at placed
    have left := ackedActs_next placed next σ.wait
    rw [futureActs,waiting,askedActs]
    omega
  next => cases picked

/-- A failure leaves only the requests that were under way. -/
theorem fail_acts (map : σ.file.blockMap = blockMap) {todo : List (BlockIdx × Bytes)} {running : List Future} {idxs : List BlockIdx}
    (phase : σ.phase = .writing todo running idxs) (f : Future) (e : DtmpfsError) :
    actsLeft blockMap (σ.fail running f e) + 1 ≤ actsLeft blockMap σ := by
  have few := unanswered_acts map running
  simp only [actsLeft,fail,phase,phaseActs,List.length_append]
  omega

theorem listNodes_acts {reply : Except Status Unit} (stepped : σ.listNodes reply = some τ) : actsLeft blockMap τ + 1 ≤ actsLeft blockMap σ := by
  unfold listNodes at stepped
  split at stepped
  next phase =>
    cases stepped
    simp only [actsLeft,return_,phase,phaseActs]
    omega
  next phase =>
    cases stepped
    split
    next =>
      simp only [actsLeft,take,phase,phaseActs,List.map_nil,List.sum_nil]
      omega
    next =>
      simp only [actsLeft,phase,phaseActs]
      omega
  next => cases stepped

theorem allocate_acts {reply : Except Status (List BlockLoc)} (stepped : σ.allocate reply = some τ) :
    actsLeft blockMap τ + 1 ≤ actsLeft blockMap σ := by
  unfold allocate at stepped
  split at stepped
  next phase =>
    cases stepped
    simp only [actsLeft,return_,phase,phaseActs]
    omega
  next phase =>
    cases stepped
    simp only [actsLeft,take,phase,phaseActs,List.map_nil,List.sum_nil]
    omega
  next => cases stepped

theorem start_acts (stepped : σ.start = some τ) : actsLeft blockMap τ + 1 ≤ actsLeft blockMap σ := by
  unfold start at stepped
  split at stepped
  next idx data todo running idxs phase =>
    split at stepped
    next =>
      cases stepped
      have fresh : futureActs σ.wait blockMap ⟨idx,data,0,none⟩ = blockActs σ.wait (nodeCount blockMap idx) := by
        unfold futureActs askedActs
        cases σ.wait with
        | primariesOnly => rfl
        | allReplicas => rfl
      simp only [actsLeft,phase,phaseActs,queuedActs,List.map_append,List.sum_append,List.map_cons,List.sum_cons,List.map_nil,List.sum_nil,
        fresh]
      omega
    next => cases stepped
  next => cases stepped

theorem connect_acts (map : σ.file.blockMap = blockMap) {k : Nat} {reached : Bool} (stepped : σ.connect k reached = some τ) :
    actsLeft blockMap τ + 1 ≤ actsLeft blockMap σ := by
  unfold connect at stepped
  split at stepped
  next todo running idxs phase =>
    split at stepped
    next f found =>
      split at stepped
      next => cases stepped
      next silent =>
        split at stepped
        next =>
          cases stepped
          exact fail_acts map phase f _
        next placement placed =>
          split at stepped
          next => cases stepped
          next node there =>
            split at stepped
            next =>
              cases stepped
              rw [map] at placed
              have left := ackedActs_next placed there σ.wait
              have moved := Measured.sum_set (futureActs σ.wait blockMap) {f with asked := some none} found
              simp only [futureActs,Option.not_isSome_iff_eq_none.mp silent,askedActs] at moved
              simp only [actsLeft,phase,phaseActs]
              omega
            next =>
              cases stepped
              exact fail_acts map phase f _
    next => cases stepped
  next => cases stepped

theorem execute_acts (map : σ.file.blockMap = blockMap) {k : Nat} (stepped : σ.execute k = some τ) :
    actsLeft blockMap τ + 1 ≤ actsLeft blockMap σ := by
  unfold execute at stepped
  split at stepped
  next todo running idxs phase =>
    split at stepped
    next f found =>
      split at stepped
      next message sent wanted =>
        rcases written : (σ.stores message.node).writeBlock message.key message.data with ⟨reply,store⟩
        rw [written] at stepped
        cases stepped
        obtain ⟨placement,node,placed,next⟩ := request_next (Option.isSome_of_mem wanted)
        rw [map] at placed
        have left := ackedActs_next placed next σ.wait
        have moved := Measured.sum_set (futureActs σ.wait blockMap) {f with asked := some (some reply)} found
        simp only [futureActs,sent,askedActs] at moved
        simp only [actsLeft,phase,phaseActs]
        omega
      next => cases stepped
    next => cases stepped
  next => cases stepped

/-- An acknowledgement takes the block to its next node, or to its spawned writes. -/
theorem answer_acts (map : σ.file.blockMap = blockMap) {k : Nat} {reply : Except Status Unit} (stepped : σ.answer k reply = some τ) :
    actsLeft blockMap τ + 1 ≤ actsLeft blockMap σ := by
  unfold answer at stepped
  split at stepped
  next todo running idxs phase =>
    split at stepped
    next f found =>
      split at stepped
      next executed placement asked placed =>
        rw [map] at placed
        have count := nodeCount_placed placed
        have nodes : placement.nodes.length = placement.replicas.length + 1 := rfl
        split at stepped
        next => cases stepped
        next node there =>
          have left := ackedActs_next placed there σ.wait
          have gone := Measured.sum_eraseIdx (futureActs σ.wait blockMap) found
          split at stepped
          next =>
            cases stepped
            exact fail_acts map phase f _
          next =>
            split at stepped
            next =>
              simp only [futureActs,asked,askedActs] at gone
              dsimp only at stepped
              split at stepped
              next only =>
                cases stepped
                simp only [only,ackedActs,blockActs,count] at gone
                simp only [actsLeft,phase,phaseActs,only,background,List.length_append,List.length_map]
                omega
              next all =>
                split at stepped
                next =>
                  cases stepped
                  have moved := Measured.sum_set (futureActs σ.wait blockMap) {f with acked := f.acked + 1, asked := none} found
                  simp only [futureActs,asked,askedActs,all,ackedActs,blockActs,count] at moved
                  simp only [actsLeft,phase,phaseActs,all]
                  omega
                next =>
                  cases stepped
                  simp only [actsLeft,phase,phaseActs]
                  omega
            next => cases stepped
      next => cases stepped
    next => cases stepped
  next => cases stepped

theorem close_acts {clock : SystemTime} (stepped : σ.close clock = some τ) : actsLeft blockMap τ + 1 ≤ actsLeft blockMap σ := by
  unfold close at stepped
  split at stepped
  next phase =>
    cases stepped
    simp only [actsLeft,phase,phaseActs]
    omega
  next => cases stepped

theorem closeReply_acts {reply : Except Status Attr} (stepped : σ.closeReply reply = some τ) :
    actsLeft blockMap τ + 1 ≤ actsLeft blockMap σ := by
  unfold closeReply at stepped
  split at stepped
  next phase =>
    cases stepped
    simp only [actsLeft,return_,phase,phaseActs]
    omega
  next phase =>
    cases stepped
    simp only [actsLeft,return_,phase,phaseActs]
    omega
  next => cases stepped

theorem step_acts (map : Late σ.phase → σ.file.blockMap = blockMap) {act : Act} (stepped : step act σ = some τ) :
    actsLeft blockMap τ + (if own act then 1 else 0) ≤ actsLeft blockMap σ := by
  cases act with
  | listNodes reply => exact listNodes_acts stepped
  | allocate reply => exact allocate_acts stepped
  | start => exact start_acts stepped
  | connect k reached => exact connect_acts (map (connect_onward stepped).before) stepped
  | execute k => exact execute_acts (map (execute_onward stepped).before) stepped
  | answer k reply => exact answer_acts (map (answer_onward stepped).before) stepped
  | close clock => exact close_acts stepped
  | closeReply reply => exact closeReply_acts stepped
  | sendSpawned k =>
    obtain ⟨message,found,rfl⟩ := Option.map_eq_some_iff.mp stepped
    have small : k < σ.spawned.length := (List.getElem?_eq_some_iff.mp found).1
    simp only [actsLeft,own,if_true,List.length_append,List.length_eraseIdx,List.length_singleton,small]
    omega
  | dropSpawned k =>
    simp only [step,dropSpawned] at stepped
    split at stepped
    next small =>
      cases stepped
      simp only [actsLeft,own,if_true,List.length_eraseIdx,small]
      omega
    next => cases stepped
  | land k =>
    obtain ⟨message,found,rfl⟩ := Option.map_eq_some_iff.mp stepped
    have small : k < σ.adrift.length := (List.getElem?_eq_some_iff.mp found).1
    simp only [actsLeft,own,if_true,List.length_eraseIdx,small]
    omega
  | lose k =>
    simp only [step,lose] at stepped
    split at stepped
    next small =>
      cases stepped
      simp only [actsLeft,own,if_true,List.length_eraseIdx,small]
      omega
    next => cases stepped
  | elsewhere node store =>
    cases stepped
    exact Nat.le_refl _

/-- Once the dirty blocks are taken, the placements stay. -/
theorem late_map (late : Late σ.phase) {act : Act} (stepped : step act σ = some τ) : τ.file.blockMap = σ.file.blockMap := by
  cases act with
  | listNodes reply => exact absurd late (listNodes_handle stepped).1
  | allocate reply => exact absurd late (allocate_handle stepped).1
  | sendSpawned k => rw [(aside_handle stepped (.inl ⟨k,.inl rfl⟩)).2]
  | dropSpawned k => rw [(aside_handle stepped (.inl ⟨k,.inr (.inl rfl)⟩)).2]
  | land k => rw [(aside_handle stepped (.inl ⟨k,.inr (.inr (.inl rfl))⟩)).2]
  | lose k => rw [(aside_handle stepped (.inl ⟨k,.inr (.inr (.inr rfl))⟩)).2]
  | elsewhere node store => rw [(aside_handle stepped (.inr ⟨node,store,rfl⟩)).2]
  | start =>
    simp only [step,start] at stepped
    repeat' split at stepped
    all_goals cases stepped
    rfl
  | connect k reached =>
    simp only [step,connect] at stepped
    repeat' split at stepped
    all_goals cases stepped
    all_goals rfl
  | execute k =>
    simp only [step,execute] at stepped
    repeat' split at stepped
    all_goals cases stepped
    rfl
  | answer k reply =>
    simp only [step,answer] at stepped
    repeat' split at stepped
    all_goals cases stepped
    all_goals rfl
  | close clock =>
    simp only [step,close] at stepped
    repeat' split at stepped
    all_goals cases stepped
    rfl
  | closeReply reply =>
    simp only [step,closeReply] at stepped
    repeat' split at stepped
    all_goals cases stepped
    all_goals rfl

theorem step_late (late : Late σ.phase) {act : Act} (stepped : step act σ = some τ) : Late τ.phase := by
  rcases step_handle stepped with ⟨early,_⟩ | ⟨early,_⟩ | ⟨early,_⟩ | ⟨_,onward⟩
  · exact absurd late early
  · exact absurd late early
  · exact absurd late early
  · exact onward.after

theorem run_eq (acts : List Act) (σ : PublishCall) : run acts σ = Runs.run step acts σ := by
  induction acts generalizing σ with
  | nil => rfl
  | cons act rest ih =>
    rw [run,Runs.run]
    exact congrArg _ (funext ih)

theorem run_map (acts : List Act) (late : Late σ.phase) (ran : Runs.run step acts σ = some τ) : τ.file.blockMap = σ.file.blockMap := by
  induction acts generalizing σ with
  | nil =>
    cases ran
    rfl
  | cons act rest ih =>
    obtain ⟨υ,stepped,ran⟩ := Runs.run_cons ran
    exact (ih (step_late late stepped) ran).trans (late_map late stepped)

theorem run_acts (acts : List Act) (ran : run acts σ = some τ) :
    acts.countP own + actsLeft τ.file.blockMap τ ≤ actsLeft τ.file.blockMap σ := by
  rw [run_eq] at ran
  refine @Measured.spent _ _ step (fun υ => Late υ.phase → υ.file.blockMap = τ.file.blockMap) own (actsLeft τ.file.blockMap) ?_ acts σ τ ?_ ran
  · intro act υ next map _ stepped
    exact step_acts map stepped
  · intro before after υ split there late
    rw [split,Runs.run_append,there] at ran
    exact (run_map after late ran).symm

/-- A future has a node to go to, if its block is placed at all. -/
structure Aimed (blockMap : Map BlockIdx BlockPlacement) (f : Future) : Prop where
  next : ∀ placement, blockMap[f.idx]? = some placement → f.acked < placement.nodes.length
  placed : f.asked ≠ none → ∃ placement, blockMap[f.idx]? = some placement

/-- Of the futures of a stream at most `width` run, and each has a node to go to. -/
structure Streaming (blockMap : Map BlockIdx BlockPlacement) (running : List Future) : Prop where
  few : running.length ≤ width
  aimed : ∀ f ∈ running, Aimed blockMap f

def Able (σ : PublishCall) : Prop :=
  ∀ todo running idxs, σ.phase = .writing todo running idxs → Streaming σ.file.blockMap running

theorem Streaming.set {running : List Future} (streaming : Streaming blockMap running) (k : Nat) {f : Future} (aimed : Aimed blockMap f) :
    Streaming blockMap (running.set k f) := by
  refine ⟨?_,?_⟩
  · rw [List.length_set]
    exact streaming.few
  · intro g member
    rcases List.mem_or_eq_of_mem_set member with old | new
    · exact streaming.aimed g old
    · rw [new]
      exact aimed

theorem Streaming.erase {running : List Future} (streaming : Streaming blockMap running) (k : Nat) :
    Streaming blockMap (running.eraseIdx k) :=
  ⟨Nat.le_trans (List.length_eraseIdx_le _ _) streaming.few,fun f member => streaming.aimed f (List.mem_of_mem_eraseIdx member)⟩

/-- A call with another phase has no stream. -/
theorem able_of_phase (other : ∀ todo running idxs, σ.phase ≠ .writing todo running idxs) : Able σ :=
  fun todo running idxs phase => absurd phase (other todo running idxs)

theorem able_of_stream {todo : List (BlockIdx × Bytes)} {running : List Future} {idxs : List BlockIdx}
    (phase : σ.phase = .writing todo running idxs) (streaming : Streaming σ.file.blockMap running) : Able σ := by
  intro todo' running' idxs' here
  rw [phase] at here
  cases here
  exact streaming

theorem take_able (σ : PublishCall) : Able σ.take :=
  able_of_stream rfl ⟨Nat.zero_le _,List.forall_mem_nil _⟩

theorem fail_able (σ : PublishCall) (running : List Future) (f : Future) (e : DtmpfsError) : Able (σ.fail running f e) := by
  apply able_of_phase
  intro todo running idxs phase
  cases phase

theorem return_able (σ : PublishCall) (result : Except DtmpfsError Unit) : Able (σ.return_ result) := by
  apply able_of_phase
  intro todo running idxs phase
  cases phase

theorem listNodes_able {reply : Except Status Unit} (stepped : σ.listNodes reply = some τ) : Able τ := by
  unfold listNodes at stepped
  split at stepped
  next =>
    cases stepped
    exact return_able σ _
  next =>
    cases stepped
    split
    next => exact take_able σ
    next =>
      apply able_of_phase
      intro todo running idxs phase
      cases phase
  next => cases stepped

theorem allocate_able {reply : Except Status (List BlockLoc)} (stepped : σ.allocate reply = some τ) : Able τ := by
  unfold allocate at stepped
  split at stepped
  next =>
    cases stepped
    exact return_able σ _
  next =>
    cases stepped
    exact take_able _
  next => cases stepped

theorem start_able (able : Able σ) (stepped : σ.start = some τ) : Able τ := by
  unfold start at stepped
  split at stepped
  next idx data todo running idxs phase =>
    split at stepped
    next room =>
      cases stepped
      have streaming := able _ running idxs phase
      refine able_of_stream rfl ⟨?_,?_⟩
      · rw [List.length_append]
        exact room
      · intro f member
        rcases List.mem_append.mp member with old | new
        · exact streaming.aimed f old
        · rw [List.mem_singleton.mp new]
          exact ⟨fun placement _ => Nat.succ_pos _,fun asked => absurd rfl asked⟩
    next => cases stepped
  next => cases stepped

theorem connect_able (able : Able σ) {k : Nat} {reached : Bool} (stepped : σ.connect k reached = some τ) : Able τ := by
  unfold connect at stepped
  split at stepped
  next todo running idxs phase =>
    have streaming := able todo running idxs phase
    split at stepped
    next f found =>
      have aimed := streaming.aimed f (List.mem_of_getElem? found)
      split at stepped
      next => cases stepped
      next =>
        split at stepped
        next =>
          cases stepped
          exact fail_able σ running f _
        next placement placed =>
          split at stepped
          next => cases stepped
          next =>
            split at stepped
            next =>
              cases stepped
              exact able_of_stream rfl (streaming.set k ⟨aimed.next,fun _ => ⟨placement,placed⟩⟩)
            next =>
              cases stepped
              exact fail_able σ running f _
    next => cases stepped
  next => cases stepped

theorem execute_able (able : Able σ) {k : Nat} (stepped : σ.execute k = some τ) : Able τ := by
  unfold execute at stepped
  split at stepped
  next todo running idxs phase =>
    have streaming := able todo running idxs phase
    split at stepped
    next f found =>
      have aimed := streaming.aimed f (List.mem_of_getElem? found)
      split at stepped
      next message sent wanted =>
        cases stepped
        obtain ⟨placement,_,placed,_⟩ := request_next (Option.isSome_of_mem wanted)
        exact able_of_stream rfl (streaming.set k ⟨aimed.next,fun _ => ⟨placement,placed⟩⟩)
      next => cases stepped
    next => cases stepped
  next => cases stepped

theorem answer_able (able : Able σ) {k : Nat} {reply : Except Status Unit} (stepped : σ.answer k reply = some τ) : Able τ := by
  unfold answer at stepped
  split at stepped
  next todo running idxs phase =>
    have streaming := able todo running idxs phase
    split at stepped
    next f found =>
      split at stepped
      next executed placement asked placed =>
        split at stepped
        next => cases stepped
        next =>
          split at stepped
          next =>
            cases stepped
            exact fail_able σ running f _
          next =>
            split at stepped
            next =>
              dsimp only at stepped
              split at stepped
              next =>
                cases stepped
                exact able_of_stream rfl (streaming.erase k)
              next =>
                split at stepped
                next more =>
                  cases stepped
                  refine able_of_stream rfl (streaming.set k ⟨?_,fun asked => absurd rfl asked⟩)
                  intro other here
                  rw [placed] at here
                  cases here
                  exact more
                next =>
                  cases stepped
                  exact able_of_stream rfl (streaming.erase k)
            next => cases stepped
      next => cases stepped
    next => cases stepped
  next => cases stepped

theorem aside_able (able : Able σ) {act : Act} (stepped : step act σ = some τ)
    (aside : (∃ k, act = .sendSpawned k ∨ act = .dropSpawned k ∨ act = .land k ∨ act = .lose k) ∨
      ∃ node store, act = .elsewhere node store) : Able τ := by
  obtain ⟨phase,file⟩ := aside_handle stepped aside
  intro todo running idxs here
  rw [phase] at here
  rw [file]
  exact able todo running idxs here

theorem step_able (able : Able σ) {act : Act} (stepped : step act σ = some τ) : Able τ := by
  cases act with
  | listNodes reply => exact listNodes_able stepped
  | allocate reply => exact allocate_able stepped
  | start => exact start_able able stepped
  | connect k reached => exact connect_able able stepped
  | execute k => exact execute_able able stepped
  | answer k reply => exact answer_able able stepped
  | sendSpawned k => exact aside_able able stepped (.inl ⟨k,.inl rfl⟩)
  | dropSpawned k => exact aside_able able stepped (.inl ⟨k,.inr (.inl rfl)⟩)
  | land k => exact aside_able able stepped (.inl ⟨k,.inr (.inr (.inl rfl))⟩)
  | lose k => exact aside_able able stepped (.inl ⟨k,.inr (.inr (.inr rfl))⟩)
  | elsewhere node store => exact aside_able able stepped (.inr ⟨node,store,rfl⟩)
  | close clock =>
    simp only [step,close] at stepped
    split at stepped
    · cases stepped
      apply able_of_phase
      intro todo running idxs phase
      cases phase
    · cases stepped
  | closeReply reply =>
    simp only [step,closeReply] at stepped
    split at stepped
    · cases stepped
      exact return_able σ _
    · cases stepped
      exact return_able _ _
    · cases stepped

theorem run_able (acts : List Act) (able : Able σ) (ran : run acts σ = some τ) : Able τ := by
  induction acts generalizing σ with
  | nil =>
    cases ran
    exact able
  | cons act rest ih =>
    obtain ⟨υ,stepped,ran⟩ := Option.bind_eq_some_iff.mp ran
    exact ih (step_able able stepped) ran

theorem begin_able (fh : Fh) (wait : WaitPolicy) (file : OpenFile) (stores : NodeId → StoreState) : Able (begin fh wait file stores) := by
  apply able_of_phase
  intro todo running idxs phase
  simp only [begin] at phase
  split at phase
  · cases phase
  · cases phase

/-- Whatever the next node of a future does, the future goes on with it: it gets a client or
not, its request is executed or lost, and any answer ends the wait. -/
structure Responsive (σ : PublishCall) (k : Nat) (f : Future) : Prop where
  connects : f.asked = none → ∀ reached, (σ.connect k reached).isSome = true
  executes : f.asked = some none → (σ.execute k).isSome = true
  refused : f.asked ≠ none → ∀ status, (σ.answer k (.error status)).isSome = true
  acknowledged : ∀ size, f.asked = some (some (.ok size)) → (σ.answer k (.ok ())).isSome = true

/-- The call can go on, whatever it is answered. -/
def Ready (σ : PublishCall) : Prop :=
  match σ.phase with
  | .listing => ∀ reply, (σ.listNodes reply).isSome = true
  | .allocating => ∀ reply, (σ.allocate reply).isSome = true
  | .writing todo running _ => running.length ≤ width ∧ (∀ k f, running[k]? = some f → Responsive σ k f) ∧
      (todo ≠ [] → running.length < width → σ.start.isSome = true) ∧
      (todo = [] → running = [] → ∀ clock, (σ.close clock).isSome = true)
  | .closing => ∀ reply, (σ.closeReply reply).isSome = true
  | .returned _ => True

theorem responsive {todo : List (BlockIdx × Bytes)} {running : List Future} {idxs : List BlockIdx}
    (phase : σ.phase = .writing todo running idxs) {k : Nat} {f : Future} (found : running[k]? = some f)
    (aimed : Aimed σ.file.blockMap f) : Responsive σ k f := by
  have reaches (asked : f.asked ≠ none) : ∃ placement node, σ.file.blockMap[f.idx]? = some placement ∧ placement.nodes[f.acked]? = some node := by
    obtain ⟨placement,placed⟩ := aimed.placed asked
    exact ⟨placement,_,placed,List.getElem?_eq_getElem (aimed.next placement placed)⟩
  refine ⟨?_,?_,?_,?_⟩
  · intro silent reached
    cases placed : σ.file.blockMap[f.idx]? with
    | none => simp [connect,phase,found,silent,placed]
    | some placement =>
      obtain ⟨node,there⟩ : ∃ node, placement.nodes[f.acked]? = some node := ⟨_,List.getElem?_eq_getElem (aimed.next placement placed)⟩
      cases reached with
      | true => simp [connect,phase,found,silent,placed,there]
      | false => simp [connect,phase,found,silent,placed,there]
  · intro sent
    obtain ⟨placement,node,placed,there⟩ := reaches (by rw [sent]; exact Option.some_ne_none _)
    have wanted : σ.request f = some ⟨node,⟨σ.file.ino,f.idx,0⟩,f.data⟩ := by
      rw [request,placed,Option.bind_some,there]
      rfl
    simp [execute,phase,found,sent,wanted]
  · intro asked status
    obtain ⟨placement,node,placed,there⟩ := reaches asked
    obtain ⟨executed,asked⟩ := Option.ne_none_iff_exists'.mp asked
    simp [answer,phase,found,asked,placed,there]
  · intro size asked
    obtain ⟨placement,node,placed,there⟩ := reaches (by rw [asked]; exact Option.some_ne_none _)
    cases wait : σ.wait with
    | primariesOnly => simp [answer,phase,found,asked,placed,there,wait]
    | allReplicas =>
      simp only [answer,phase,found,asked,placed,there,wait]
      split
      · rfl
      · rfl

theorem Able.ready (able : Able σ) : Ready σ := by
  unfold Ready
  split
  next phase =>
    intro reply
    cases reply with
    | error status => simp [listNodes,phase]
    | ok done => simp [listNodes,phase]
  next phase =>
    intro reply
    cases reply with
    | error status => simp [allocate,phase]
    | ok locs => simp [allocate,phase]
  next todo running idxs phase =>
    have streaming := able todo running idxs phase
    refine ⟨streaming.few,?_,?_,?_⟩
    · intro k f found
      exact responsive phase found (streaming.aimed f (List.mem_of_getElem? found))
    · intro waiting room
      obtain ⟨entry,rest,rfl⟩ := List.exists_cons_of_ne_nil waiting
      simp [start,phase,room]
    · rintro rfl rfl clock
      simp [close,phase]
  next phase =>
    intro reply
    cases reply with
    | error status => simp [closeReply,phase]
    | ok attr => simp [closeReply,phase]
  next => trivial

/-- A call that can take none of its acts has returned, and nothing of it is under way. -/
theorem Ready.over (ready : Ready σ) (stuck : ∀ act, own act = true → step act σ = none) :
    (∃ result, σ.phase = .returned result) ∧ σ.spawned = [] ∧ σ.adrift = [] := by
  have never (act : Act) (mine : own act = true) (possible : (step act σ).isSome = true) : False := by
    rw [stuck act mine] at possible
    cases possible
  refine ⟨?_,?_,?_⟩
  · unfold Ready at ready
    split at ready
    next => exact (never (.listNodes (.ok ())) rfl (ready _)).elim
    next => exact (never (.allocate (.ok [])) rfl (ready _)).elim
    next todo running idxs phase =>
      obtain ⟨few,going,starts,closes⟩ := ready
      cases running with
      | nil =>
        cases todo with
        | nil => exact (never (.close 0) rfl (closes rfl rfl 0)).elim
        | cons entry rest => exact (never .start rfl (starts (List.cons_ne_nil _ _) (by decide))).elim
      | cons f rest =>
        have first := going 0 f rfl
        cases asked : f.asked with
        | none => exact (never (.connect 0 true) rfl (first.connects asked true)).elim
        | some executed =>
          have waits : f.asked ≠ none := by
            rw [asked]
            exact Option.some_ne_none _
          exact (never (.answer 0 (.error ⟨.unavailable,""⟩)) rfl (first.refused waits _)).elim
    next => exact (never (.closeReply (.error ⟨.unavailable,""⟩)) rfl (ready _)).elim
    next result phase => exact ⟨result,phase⟩
  · by_contra some_
    obtain ⟨message,rest,split_⟩ := List.exists_cons_of_ne_nil some_
    exact never (.dropSpawned 0) rfl (by simp [step,dropSpawned,split_])
  · by_contra some_
    obtain ⟨message,rest,split_⟩ := List.exists_cons_of_ne_nil some_
    exact never (.lose 0) rfl (by simp [step,lose,split_])

end Steps

/-- A call of `publish` takes at most so many acts as its dirty blocks have nodes for, never
has more than 16 requests waited for, can go on whatever it is answered, and where it can
take no more acts it has returned and left nothing under way. -/
theorem publish_ends {fh : Fh} {wait : WaitPolicy} {file : OpenFile} {stores : NodeId → StoreState} {acts : List Act} {σ : PublishCall}
    (ran : run acts (begin fh wait file stores) = some σ) :
    acts.countP own ≤ 4 + queuedActs wait σ.file.blockMap file.dirty.toList ∧ Ready σ ∧
      ((∀ act, own act = true → step act σ = none) → (∃ result, σ.phase = .returned result) ∧ σ.spawned = [] ∧ σ.adrift = []) := by
  have ready := (run_able acts (begin_able fh wait file stores) ran).ready
  refine ⟨?_,ready,ready.over⟩
  have spent := run_acts acts ran
  have start : actsLeft σ.file.blockMap (begin fh wait file stores) ≤ 4 + queuedActs wait σ.file.blockMap file.dirty.toList := by
    unfold actsLeft begin
    split
    · exact Nat.zero_le _
    · exact Nat.le_refl _
  omega

/-- A flush of one block whose replica write is lost. It takes as many acts as it may. -/
def flushedUnreplicated : List Act :=
  [.listNodes (.ok ()),.allocate (.ok [⟨0,"n",["m"]⟩]),.start,.connect 0 true,.execute 0,.elsewhere "m" (.new "m" 50),.answer 0 (.ok ()),
    .sendSpawned 0,.close 0,.lose 0,.closeReply (.error ⟨.unavailable,"gone"⟩)]

theorem publish_ends_unreplicated : ∃ σ, run flushedUnreplicated (begin 1 .primariesOnly oneByte (fun node => .new node 100)) = some σ ∧
    flushedUnreplicated.countP own = 10 ∧ 10 ≤ 4 + queuedActs .primariesOnly σ.file.blockMap oneByte.dirty.toList ∧ Ready σ := by
  have ran : ∃ σ, run flushedUnreplicated (begin 1 .primariesOnly oneByte (fun node => .new node 100)) = some σ := ⟨_,rfl⟩
  obtain ⟨σ,ran⟩ := ran
  obtain ⟨few,ready,_⟩ := publish_ends ran
  exact ⟨σ,ran,rfl,few,ready⟩

end PublishCall

end Dtmpfs
