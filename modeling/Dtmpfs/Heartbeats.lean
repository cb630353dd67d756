import Dtmpfs.Membership
import Dtmpfs.StoreLedger

/-! Stores that send heartbeats and the watcher that sweeps out who is silent, with a clock:
how old the reports can be that the metadata server goes by, and who stays listed. -/
namespace Dtmpfs
open MetaService MetaState OrderedMap

deriving instance DecidableEq for HeartbeatReq

/-- A store process and the loop of `spawn_heartbeat`: when its interval ticks next and,
while it awaits an answer, when it sent the heartbeat. -/
structure StoreProcess where
  race : PullRace
  advertiseAddr : String
  epochS : Nat
  due : Nat
  asked : Option Nat

def StoreProcess.heartbeat (p : StoreProcess) : HeartbeatReq :=
  let state := p.race.race.store
  ⟨state.nodeId,p.advertiseAddr,state.ramUsed,state.ramBudget,p.epochS⟩

/-- A heartbeat on its way. -/
structure Beat where
  request : HeartbeatReq
  sent : Nat
deriving DecidableEq

/-- The metadata server, its watcher and the store processes. The clock counts milliseconds;
`looked` is the time the watcher has read while it waits for the lock. -/
structure Pulse where
  metadata : MetaState
  clock : Nat
  processes : Map NodeId StoreProcess
  beats : List Beat
  due : Nat
  looked : Option Nat

inductive PulseAct where
  | wait (ms : Nat)
  | start (node : NodeId) (advertiseAddr : String) (ramBudget epochS : Nat)
  | work (node : NodeId) (label : PullLabel)
  | beat (node : NodeId)
  | register (host : Host) (beat : Beat)
  | lose (beat : Beat)
  | answered (node : NodeId)
  | stop (node : NodeId)
  | look
  | sweep
  | serve (host : Host) (call : Call)

namespace Pulse

def new (now : SystemTime) (replicationFactor : Nat) : Pulse := ⟨.new now replicationFactor,0,∅,[],0,none⟩

def putProcess (node : NodeId) (p : StoreProcess) (v : Pulse) : Pulse := {v with processes := v.processes.insert node p}

/-- Both intervals tick every second, and catch up on ticks they are late for. An answer can
be an error, whatever becomes of the heartbeat. -/
def step (overflowChecks : Bool) (deadAfter : Nat) (act : PulseAct) (v : Pulse) : Option Pulse :=
  match act with
  | .wait ms => some {v with clock := v.clock + ms}
  | .start node advertiseAddr ramBudget epochS =>
    if v.processes.contains node then none
    else some (v.putProcess node ⟨.new node ramBudget,advertiseAddr,epochS,v.clock,none⟩)
  | .work node label => do
    let p ← v.processes[node]?
    let race ← p.race.step overflowChecks label
    return v.putProcess node {p with race := race}
  | .beat node => do
    let p ← v.processes[node]?
    if p.asked = none ∧ p.due ≤ v.clock then
      some {v.putProcess node {p with due := p.due + 1000, asked := some v.clock} with beats := ⟨p.heartbeat,v.clock⟩::v.beats}
    else none
  | .register host beat =>
    if beat ∈ v.beats then
      some {v with metadata := (heartbeatNode host v.clock beat.request v.metadata).2, beats := v.beats.erase beat}
    else none
  | .lose beat => if beat ∈ v.beats then some {v with beats := v.beats.erase beat} else none
  | .answered node => do
    let p ← v.processes[node]?
    let _ ← p.asked
    return v.putProcess node {p with asked := none}
  | .stop node => some {v with processes := v.processes.erase node}
  | .look => if v.looked = none ∧ v.due ≤ v.clock then some {v with due := v.due + 1000, looked := some v.clock} else none
  | .sweep => v.looked.map fun now => {v with metadata := v.metadata.watcherTick now deadAfter, looked := none}
  | .serve host call =>
    match call with
    | .heartbeatNode .. | .watcherTick .. => none
    | call => some {v with metadata := MetaService.serve host call v.metadata}

/-- A running process has sent the heartbeat, and it says what was true of it then. -/
def Sent (overflowChecks : Bool) (deadAfter : Nat) (start : Pulse) (seen : List PulseAct) (beat : Beat) : Prop :=
  ∃ earlier later u p, seen = earlier ++ later ∧ Runs.run (step overflowChecks deadAfter) earlier start = some u ∧
    u.clock = beat.sent ∧ u.processes[beat.request.nodeId]? = some p ∧ beat.request = p.heartbeat

/-- How late it can get before the watcher looks again at a heartbeat of that instant. -/
def Watched (deadAfter lag instant : Nat) (v : Pulse) : Prop :=
  match v.looked with
  | none => v.due ≤ instant + deadAfter + 1000 ∧ v.clock ≤ instant + deadAfter + 1000 + lag
  | some now => now ≤ instant + deadAfter + 1000 + lag

/-- The watcher is not ahead of its interval, and has not kept a time it read for too long. -/
def Paced (lag : Nat) (v : Pulse) : Prop :=
  match v.looked with
  | none => v.due ≤ v.clock + 1000
  | some now => v.due ≤ now + 1000 ∧ now ≤ v.clock ∧ v.clock ≤ now + lag

section Freshness

variable {overflowChecks : Bool} {deadAfter delay lag instant : Nat} {start v t : Pulse} {seen : List PulseAct} {act : PulseAct} {beat : Beat}

theorem Sent.later (sent : Sent overflowChecks deadAfter start seen beat) (more : List PulseAct) :
    Sent overflowChecks deadAfter start (seen ++ more) beat := by
  obtain ⟨earlier,later,u,p,rfl,there,rest⟩ := sent
  exact ⟨earlier,later ++ more,u,p,List.append_assoc _ _ _,there,rest⟩

/-- What any run keeps in order: names, and that nothing is sent or looked at ahead of time. -/
structure Regular (v : Pulse) : Prop where
  named : ∀ (node : NodeId) (p : StoreProcess), v.processes[node]? = some p → p.race.race.store.nodeId = node
  asked : ∀ (node : NodeId) (p : StoreProcess), v.processes[node]? = some p → ∀ sent ∈ p.asked, sent ≤ v.clock ∧ p.due ≤ sent + 1000
  looked : ∀ now ∈ v.looked, now ≤ v.clock
  filed : Filed v.metadata

/-- What the metadata server goes by was sent, and the watcher has had no time to miss it. -/
structure Recent (overflowChecks : Bool) (deadAfter delay lag : Nat) (start : Pulse) (seen : List PulseAct) (v : Pulse) : Prop where
  regular : Regular v
  flying : ∀ beat ∈ v.beats, Sent overflowChecks deadAfter start seen beat
  paced : v.Paced lag
  up : ∀ (node : NodeId) (info : NodeInfo), v.metadata.nodes[node]? = some info → info.status = .up →
    ∃ instant beat, v.metadata.lastHeartbeat[node]? = some instant ∧ Sent overflowChecks deadAfter start seen beat ∧
      instant ≤ beat.sent + delay ∧ info = reported beat.request ∧ v.Watched deadAfter lag instant

theorem proceed_nodeId (overflowChecks : Bool) (task : StoreTask) (s : StoreState) :
    (task.proceed overflowChecks s).2.nodeId = s.nodeId := by
  cases task with
  | arrived call =>
    cases call with
    | write key data =>
      simp only [StoreTask.proceed]
      split <;> rfl
    | delete key =>
      simp only [StoreTask.proceed]
      split <;> rfl
    | read key =>
      simp only [StoreTask.proceed]
      split <;> rfl
  | unstale key data =>
    simp only [StoreTask.proceed]
    split
    · rfl
    · split <;> rfl
  | _ => rfl

theorem pull_nodeId (answer : Except Status Bytes) (task : PullTask) (s : StoreState) : (task.proceed answer s).2.nodeId = s.nodeId := by
  cases task with
  | asked key => cases answer <;> rfl
  | _ => rfl

/-- A store keeps its name, whatever it does. -/
theorem race_nodeId {σ τ : PullRace} {label : PullLabel} (stepped : σ.step overflowChecks label = some τ) :
    τ.race.store.nodeId = σ.race.store.nodeId := by
  cases label with
  | request label =>
    obtain ⟨race,raced,rfl⟩ := Option.map_eq_some_iff.mp stepped
    cases label with
    | arrive call =>
      cases raced
      rfl
    | proceed i =>
      simp only [StoreRace.step] at raced
      split at raced
      · cases raced
      next task found =>
        cases raced
        exact proceed_nodeId overflowChecks task σ.race.store
  | replicate key =>
    cases stepped
    rfl
  | pull i answer =>
    simp only [PullRace.step] at stepped
    split at stepped
    · cases stepped
    next task found =>
      cases stepped
      exact pull_nodeId answer task σ.race.store

/-- What a step does, with what it takes. -/
inductive Stroke (overflowChecks : Bool) (deadAfter : Nat) (v : Pulse) : PulseAct → Pulse → Prop where
  | wait (ms : Nat) : Stroke overflowChecks deadAfter v (.wait ms) {v with clock := v.clock + ms}
  | start (node : NodeId) (advertiseAddr : String) (ramBudget epochS : Nat) (absent : v.processes[node]? = none) :
      Stroke overflowChecks deadAfter v (.start node advertiseAddr ramBudget epochS)
        (v.putProcess node ⟨.new node ramBudget,advertiseAddr,epochS,v.clock,none⟩)
  | work (node : NodeId) (label : PullLabel) (p : StoreProcess) (race : PullRace) (found : v.processes[node]? = some p)
      (raced : p.race.step overflowChecks label = some race) :
      Stroke overflowChecks deadAfter v (.work node label) (v.putProcess node {p with race := race})
  | beat (node : NodeId) (p : StoreProcess) (found : v.processes[node]? = some p) (idle : p.asked = none) (due : p.due ≤ v.clock) :
      Stroke overflowChecks deadAfter v (.beat node)
        {v.putProcess node {p with due := p.due + 1000, asked := some v.clock} with beats := ⟨p.heartbeat,v.clock⟩::v.beats}
  | register (host : Host) (beat : Beat) (member : beat ∈ v.beats) : Stroke overflowChecks deadAfter v (.register host beat)
      {v with metadata := (heartbeatNode host v.clock beat.request v.metadata).2, beats := v.beats.erase beat}
  | lose (beat : Beat) (member : beat ∈ v.beats) :
      Stroke overflowChecks deadAfter v (.lose beat) {v with beats := v.beats.erase beat}
  | answered (node : NodeId) (p : StoreProcess) (sent : Nat) (found : v.processes[node]? = some p) (asked : p.asked = some sent) :
      Stroke overflowChecks deadAfter v (.answered node) (v.putProcess node {p with asked := none})
  | stop (node : NodeId) : Stroke overflowChecks deadAfter v (.stop node) {v with processes := v.processes.erase node}
  | look (idle : v.looked = none) (due : v.due ≤ v.clock) :
      Stroke overflowChecks deadAfter v .look {v with due := v.due + 1000, looked := some v.clock}
  | sweep (now : Nat) (looked : v.looked = some now) :
      Stroke overflowChecks deadAfter v .sweep {v with metadata := v.metadata.watcherTick now deadAfter, looked := none}
  | serve (host : Host) (call : Call) (nodes : (MetaService.serve host call v.metadata).nodes = v.metadata.nodes)
      (beaten : (MetaService.serve host call v.metadata).lastHeartbeat = v.metadata.lastHeartbeat) :
      Stroke overflowChecks deadAfter v (.serve host call) {v with metadata := MetaService.serve host call v.metadata}

theorem step_stroke (stepped : step overflowChecks deadAfter act v = some t) : Stroke overflowChecks deadAfter v act t := by
  cases act with
  | wait ms =>
    cases stepped
    exact .wait ms
  | start node advertiseAddr ramBudget epochS =>
    simp only [step] at stepped
    split at stepped
    · cases stepped
    next absent =>
      cases stepped
      exact .start node advertiseAddr ramBudget epochS ((vacant_iff _ _).mp (Bool.eq_false_iff.mpr absent))
  | work node label =>
    obtain ⟨p,found,rest⟩ := Option.bind_eq_some_iff.mp stepped
    obtain ⟨race,raced,rest⟩ := Option.bind_eq_some_iff.mp rest
    cases rest
    exact .work node label p race found raced
  | beat node =>
    obtain ⟨p,found,rest⟩ := Option.bind_eq_some_iff.mp stepped
    split at rest
    next ready =>
      cases rest
      exact .beat node p found ready.1 ready.2
    · cases rest
  | register host beat =>
    simp only [step] at stepped
    split at stepped
    next member =>
      cases stepped
      exact .register host beat member
    · cases stepped
  | lose beat =>
    simp only [step] at stepped
    split at stepped
    next member =>
      cases stepped
      exact .lose beat member
    · cases stepped
  | answered node =>
    obtain ⟨p,found,rest⟩ := Option.bind_eq_some_iff.mp stepped
    obtain ⟨sent,asked,rest⟩ := Option.bind_eq_some_iff.mp rest
    cases rest
    exact .answered node p sent found asked
  | stop node =>
    cases stepped
    exact .stop node
  | look =>
    simp only [step] at stepped
    split at stepped
    next ready =>
      cases stepped
      exact .look ready.1 ready.2
    · cases stepped
  | sweep =>
    obtain ⟨now,looked,rfl⟩ := Option.map_eq_some_iff.mp stepped
    exact .sweep now looked
  | serve host call =>
    simp only [step] at stepped
    split at stepped
    · cases stepped
    · cases stepped
    next beats ticks =>
      cases stepped
      have calm : ¬ ∃ instant r, call = .heartbeatNode instant r := by
        intro named
        obtain ⟨instant,r,rfl⟩ := named
        exact beats instant r rfl
      have quiet : ¬ ∃ now limit, call = .watcherTick now limit := by
        intro named
        obtain ⟨now,limit,rfl⟩ := named
        exact ticks now limit rfl
      have same := ((serve_nodes host call v.metadata).resolve_left calm).resolve_left quiet
      exact .serve host call same.nodes (serve_lastHeartbeat host v.metadata calm)

theorem regular_new (now : SystemTime) (replicationFactor : Nat) : Regular (new now replicationFactor) := by
  refine ⟨?_,?_,?_,filed_new now replicationFactor⟩
  · intro node p found
    simp [new] at found
  · intro node p found
    simp [new] at found
  · intro now looked
    cases looked

/-- Another entry for a process, which fits its name and the clock. -/
theorem Regular.put (regular : Regular v) {node : NodeId} {p : StoreProcess} (own : p.race.race.store.nodeId = node)
    (timely : ∀ sent ∈ p.asked, sent ≤ v.clock ∧ p.due ≤ sent + 1000) : Regular (v.putProcess node p) := by
  refine ⟨?_,?_,regular.looked,regular.filed⟩
  · intro other q found
    rcases insert_some found with ⟨rfl,rfl⟩ | ⟨_,kept⟩
    · exact own
    · exact regular.named other q kept
  · intro other q found
    rcases insert_some found with ⟨rfl,rfl⟩ | ⟨_,kept⟩
    · exact timely
    · exact regular.asked other q kept

theorem regular_step (regular : Regular v) (stepped : step overflowChecks deadAfter act v = some t) : Regular t := by
  have named := regular.named
  have asked := regular.asked
  have looked := regular.looked
  have filed := regular.filed
  cases step_stroke stepped with
  | wait ms =>
    refine ⟨named,?_,?_,filed⟩
    · intro node p found sent waits
      obtain ⟨past,soon⟩ := asked node p found sent waits
      exact ⟨Nat.le_add_right_of_le past,soon⟩
    · intro now read
      exact Nat.le_add_right_of_le (looked now read)
  | start node advertiseAddr ramBudget epochS absent => exact regular.put rfl (fun sent waits => by cases waits)
  | work node label p race found raced => exact regular.put ((race_nodeId raced).trans (named node p found)) (asked node p found)
  | beat node p found idle due =>
    have put := regular.put (p := {p with due := p.due + 1000, asked := some v.clock}) (named node p found) (by
      intro sent waits
      cases waits
      exact ⟨Nat.le_refl _,Nat.add_le_add_right due 1000⟩)
    exact ⟨put.named,put.asked,put.looked,put.filed⟩
  | register host beat member =>
    exact ⟨named,asked,looked,(heartbeatNode_nodes host v.clock beat.request v.metadata).filed filed⟩
  | lose beat member => exact ⟨named,asked,looked,filed⟩
  | answered node p sent found waits => exact regular.put (named node p found) (fun sent waits => by cases waits)
  | stop node =>
    have kept (other : NodeId) (p : StoreProcess) (found : (v.processes.erase node)[other]? = some p) : v.processes[other]? = some p := by
      rw [get_erase] at found
      split at found
      · cases found
      · exact found
    exact ⟨fun other p found => named other p (kept other p found),fun other p found => asked other p (kept other p found),looked,filed⟩
  | look idle due =>
    refine ⟨named,asked,?_,filed⟩
    intro now read
    cases read
    exact Nat.le_refl _
  | sweep now read =>
    refine ⟨named,asked,?_,(watcherTick_nodes now deadAfter v.metadata).filed filed⟩
    intro _ none
    cases none
  | serve host call nodes beaten => exact ⟨named,asked,looked,(serve_nodesKept host call v.metadata).filed filed⟩

theorem regular_run (acts : List PulseAct) (regular : Regular v) (ran : Runs.run (step overflowChecks deadAfter) acts v = some t) :
    Regular t := by
  induction acts generalizing v with
  | nil =>
    cases ran
    exact regular
  | cons act rest ih =>
    obtain ⟨u,stepped,later⟩ := Runs.run_cons ran
    exact ih (regular_step regular stepped) later

/-- Acts of the processes, and heartbeats that get lost, change nothing the server has. -/
theorem Recent.aside (recent : Recent overflowChecks deadAfter delay lag start seen v) (regular : Regular t)
    (metadata : t.metadata = v.metadata) (clock : t.clock = v.clock) (due : t.due = v.due) (looked : t.looked = v.looked)
    (flying : ∀ beat ∈ t.beats, Sent overflowChecks deadAfter start (seen ++ [act]) beat) :
    Recent overflowChecks deadAfter delay lag start (seen ++ [act]) t := by
  refine ⟨regular,flying,?_,?_⟩
  · simpa only [Paced,clock,due,looked] using recent.paced
  · intro node info found live
    rw [metadata] at found
    obtain ⟨instant,beat,beaten,sent,soon,told,watched⟩ := recent.up node info found live
    exact ⟨instant,beat,metadata ▸ beaten,sent.later [act],soon,told,by simpa only [Watched,clock,due,looked] using watched⟩

end Freshness

section Accuracy

variable {overflowChecks : Bool} {deadAfter delay lag instant : Nat} {v w t : Pulse} {act : PulseAct} {node : NodeId} {beat : Beat}

/-- The heartbeat whose answer the process of the node awaits. -/
def Own (node : NodeId) (v : Pulse) (beat : Beat) : Prop :=
  beat.request.nodeId = node ∧ ∃ p, v.processes[node]? = some p ∧ p.asked = some beat.sent

/-- The process of the node goes on: it sends when its interval ticks, and each heartbeat is
served and answered in time. -/
def Steady (node : NodeId) (delay lag : Nat) (act : PulseAct) (v : Pulse) : Prop :=
  match act with
  | .wait ms => ∀ p ∈ v.processes[node]?, v.clock + ms ≤ (p.asked.map (· + delay)).getD (p.due + lag)
  | .lose beat => ¬ Own node v beat
  | .answered other => other = node → ∀ beat ∈ v.beats, ¬ Own node v beat
  | .stop other => other ≠ node
  | _ => True

/-- Where the process of the node is in its loop, its last heartbeat served at `instant`. -/
def Rhythm (delay lag : Nat) (node : NodeId) (p : StoreProcess) (instant : Nat) (v : Pulse) : Prop :=
  match p.asked with
  | none => p.due ≤ instant + 1000 ∧ v.clock ≤ instant + (1000 + lag + delay)
  | some sent => v.clock ≤ sent + delay ∧ (sent ≤ instant ∨
      sent ≤ instant + (1000 + lag + delay) ∧ ∃ beat ∈ v.beats, beat.request.nodeId = node ∧ beat.sent = sent)

/-- The node is up, and its process sends. -/
structure Vital (delay lag : Nat) (node : NodeId) (v : Pulse) : Prop where
  regular : Regular v
  beats : ∃ p instant, v.processes[node]? = some p ∧ v.metadata.lastHeartbeat[node]? = some instant ∧ instant ≤ v.clock ∧
    Rhythm delay lag node p instant v
  up : ∃ info, v.metadata.nodes[node]? = some info ∧ info.status = .up

theorem watcherTick_young {s : MetaState} {now : Nat} {info : NodeInfo} (found : s.nodes[node]? = some info)
    (beaten : s.lastHeartbeat[node]? = some instant) (young : now - instant ≤ deadAfter) :
    (s.watcherTick now deadAfter).nodes[node]? = some info := by
  simp [watcherTick,found,beaten,Nat.not_lt.mpr young]

theorem Rhythm.mono {p : StoreProcess} (rhythm : Rhythm delay lag node p instant v) (clock : t.clock = v.clock)
    (kept : ∀ beat ∈ v.beats, beat.request.nodeId = node → p.asked = some beat.sent → beat ∈ t.beats) :
    Rhythm delay lag node p instant t := by
  unfold Rhythm at *
  cases asked : p.asked with
  | none =>
    rw [asked] at rhythm
    exact ⟨rhythm.1,clock ▸ rhythm.2⟩
  | some sent =>
    rw [asked] at rhythm
    refine ⟨clock ▸ rhythm.1,?_⟩
    rcases rhythm.2 with served | ⟨soon,beat,flies,own,rfl⟩
    · exact .inl served
    · exact .inr ⟨soon,beat,kept beat flies own asked,own,rfl⟩

/-- A heartbeat of the node that is served later finds the process in its rhythm as well. -/
theorem Rhythm.again {p : StoreProcess} (rhythm : Rhythm delay lag node p instant v) (past : instant ≤ v.clock)
    (waits : ∀ sent ∈ p.asked, sent ≤ v.clock) (clock : t.clock = v.clock) : Rhythm delay lag node p v.clock t := by
  unfold Rhythm at *
  cases asked : p.asked with
  | none =>
    rw [asked] at rhythm
    dsimp only at rhythm ⊢
    omega
  | some sent =>
    rw [asked] at rhythm
    exact ⟨clock ▸ rhythm.1,.inl (waits sent asked)⟩

theorem Rhythm.wait {p : StoreProcess} {ms : Nat} (rhythm : Rhythm delay lag node p instant v)
    (steady : v.clock + ms ≤ (p.asked.map (· + delay)).getD (p.due + lag)) :
    Rhythm delay lag node p instant {v with clock := v.clock + ms} := by
  unfold Rhythm at *
  cases asked : p.asked with
  | none =>
    rw [asked] at rhythm steady
    simp only [Option.map_none,Option.getD_none] at steady
    dsimp only at rhythm ⊢
    omega
  | some sent =>
    rw [asked] at rhythm steady
    exact ⟨steady,rhythm.2⟩

/-- The last heartbeat is never older than a turn of the loop can take. -/
theorem Rhythm.young {p : StoreProcess} (rhythm : Rhythm delay lag node p instant v) :
    v.clock ≤ instant + (1000 + lag + 2 * delay) := by
  unfold Rhythm at rhythm
  split at rhythm <;> omega

theorem Vital.aside (vital : Vital delay lag node v) (regular : Regular t) (metadata : t.metadata = v.metadata) (clock : t.clock = v.clock)
    (process : t.processes[node]? = v.processes[node]?)
    (kept : ∀ beat ∈ v.beats, Own node v beat → beat ∈ t.beats) : Vital delay lag node t := by
  obtain ⟨p,instant,found,beaten,past,rhythm⟩ := vital.beats
  refine ⟨regular,⟨p,instant,process.trans found,metadata ▸ beaten,clock ▸ past,?_⟩,metadata ▸ vital.up⟩
  exact rhythm.mono clock (fun beat flies own asked => kept beat flies ⟨own,p,found,asked⟩)

theorem put_own {p : StoreProcess} : (v.putProcess node p).processes[node]? = some p := by
  simp only [putProcess,get_insert,if_true]

theorem put_apart {other : NodeId} {p : StoreProcess} (apart : other ≠ node) :
    (v.putProcess other p).processes[node]? = v.processes[node]? := by
  simp only [putProcess,get_insert,apart,if_false]

theorem vital_step (fits : 1000 + lag + 2 * delay ≤ deadAfter) (vital : Vital delay lag node v) (steady : Steady node delay lag act v)
    (stepped : step overflowChecks deadAfter act v = some t) : Vital delay lag node t := by
  have regular := regular_step vital.regular stepped
  obtain ⟨p,instant,running,beaten,past,rhythm⟩ := vital.beats
  cases step_stroke stepped with
  | wait ms => exact ⟨regular,⟨p,instant,running,beaten,Nat.le_add_right_of_le past,rhythm.wait (steady p running)⟩,vital.up⟩
  | start other _ _ _ absent =>
    have apart : other ≠ node := by
      rintro rfl
      rw [running] at absent
      cases absent
    exact vital.aside regular rfl rfl (put_apart apart) (fun beat flies _ => flies)
  | work other label q race found raced =>
    by_cases same : other = node
    · subst same
      cases found.symm.trans running
      exact ⟨regular,⟨_,instant,put_own,beaten,past,rhythm⟩,vital.up⟩
    · exact vital.aside regular rfl rfl (put_apart same) (fun beat flies _ => flies)
  | beat other q found idle due =>
    by_cases same : other = node
    · subst same
      cases found.symm.trans running
      refine ⟨regular,⟨_,instant,put_own,beaten,past,?_⟩,vital.up⟩
      rw [Rhythm,idle] at rhythm
      refine ⟨Nat.le_add_right _ _,.inr ⟨rhythm.2,_,List.mem_cons_self,?_,rfl⟩⟩
      exact vital.regular.named other p found
    · exact vital.aside regular rfl rfl (put_apart same) (fun beat flies _ => List.mem_cons_of_mem _ flies)
  | register host beat member =>
    by_cases same : beat.request.nodeId = node
    · refine ⟨regular,⟨p,v.clock,running,by simp [heartbeatNode,same],Nat.le_refl _,?_⟩,?_⟩
      · exact rhythm.again past (fun sent asked => (vital.regular.asked node p running sent asked).1) rfl
      · exact ⟨reported beat.request,by simp [heartbeatNode,reported,same],rfl⟩
    · refine ⟨regular,⟨p,instant,running,by simp [heartbeatNode,get_insert,same,beaten],past,?_⟩,?_⟩
      · refine rhythm.mono rfl ?_
        intro own flies named _
        have apart : own ≠ beat := by
          rintro rfl
          exact same named
        exact (List.mem_erase_of_ne apart).mpr flies
      · obtain ⟨info,found,live⟩ := vital.up
        exact ⟨info,by simp [heartbeatNode,get_insert,same,found],live⟩
  | lose beat member =>
    refine vital.aside regular rfl rfl rfl ?_
    intro own flies mine
    have apart : own ≠ beat := by
      rintro rfl
      exact steady mine
    exact (List.mem_erase_of_ne apart).mpr flies
  | answered other q sent found asked =>
    by_cases same : other = node
    · subst same
      cases found.symm.trans running
      rw [Rhythm,asked] at rhythm
      have soon := (vital.regular.asked other p found sent asked).2
      have served : sent ≤ instant := by
        rcases rhythm.2 with served | ⟨_,beat,flies,own,rfl⟩
        · exact served
        · exact absurd ⟨own,p,found,asked⟩ (steady rfl beat flies)
      refine ⟨regular,⟨_,instant,put_own,beaten,past,?_⟩,vital.up⟩
      have clock := rhythm.1
      exact ⟨by dsimp only; omega,by dsimp only [putProcess]; omega⟩
    · exact vital.aside regular rfl rfl (put_apart same) (fun beat flies _ => flies)
  | stop other =>
    have apart : other ≠ node := steady
    refine vital.aside regular rfl rfl ?_ (fun beat flies _ => flies)
    simp only [get_erase,apart,if_false]
  | look idle due => exact vital.aside regular rfl rfl rfl (fun beat flies _ => flies)
  | sweep now looked =>
    refine ⟨regular,⟨p,instant,running,beaten,past,rhythm⟩,?_⟩
    obtain ⟨info,found,live⟩ := vital.up
    have read := vital.regular.looked now looked
    have young := rhythm.young
    exact ⟨info,watcherTick_young found beaten (by omega),live⟩
  | serve host call nodes same => exact ⟨regular,⟨p,instant,running,same ▸ beaten,past,rhythm⟩,nodes ▸ vital.up⟩

theorem vital_served (regular : Regular w) (own : Own node w beat) (soon : w.clock ≤ beat.sent + delay) {sender : Host}
    (served : step overflowChecks deadAfter (.register sender beat) w = some t) : Vital delay lag node t := by
  have kept := regular_step regular served
  obtain ⟨rfl,p,running,asked⟩ := own
  cases step_stroke served with
  | register host beat member =>
    refine ⟨kept,⟨p,w.clock,running,by simp [heartbeatNode],Nat.le_refl _,?_⟩,⟨reported beat.request,by simp [heartbeatNode,reported],rfl⟩⟩
    unfold Rhythm
    rw [asked]
    exact ⟨soon,.inl (regular.asked _ p running beat.sent asked).1⟩

theorem vital_run (fits : 1000 + lag + 2 * delay ≤ deadAfter) (acts : List PulseAct) (vital : Vital delay lag node v)
    (steady : Runs.Each (step overflowChecks deadAfter) (Steady node delay lag) acts v)
    (ran : Runs.run (step overflowChecks deadAfter) acts v = some t) : Vital delay lag node t := by
  induction acts generalizing v with
  | nil =>
    cases ran
    exact vital
  | cons act rest ih =>
    obtain ⟨u,stepped,later⟩ := Runs.run_cons ran
    obtain ⟨first,steady⟩ := (Runs.each_cons stepped rest).mp steady
    exact ih (vital_step fits vital first stepped) steady later

/-- No store is taken for dead that keeps sending. From the first heartbeat on that is served
its node is listed, as long as the process goes on and a turn of its loop takes less than
`deadAfter`, however late the watcher is and whatever the others do. -/
theorem beating_listed (overflowChecks : Bool) {deadAfter delay lag : Nat} (fits : 1000 + lag + 2 * delay ≤ deadAfter)
    (now : SystemTime) (replicationFactor : Nat) {before after : List PulseAct}
    (ran : Runs.run (step overflowChecks deadAfter) before (new now replicationFactor) = some w) (own : Own node w beat)
    (soon : w.clock ≤ beat.sent + delay) {sender : Host} (served : step overflowChecks deadAfter (.register sender beat) w = some t)
    (steady : Runs.Each (step overflowChecks deadAfter) (Steady node delay lag) after t)
    (later : Runs.run (step overflowChecks deadAfter) after t = some v) (host : Host) : ∃ info ∈ listNodes host v.metadata, info.nodeId = node := by
  have regular := regular_run before (regular_new now replicationFactor) ran
  have vital := vital_run fits after (vital_served regular own soon served) steady later
  obtain ⟨info,found,live⟩ := vital.up
  have named := vital.regular.filed node info found
  exact ⟨info,(mem_listNodes host vital.regular.filed info).mpr ⟨named ▸ found,live⟩,named⟩

/-- A heartbeat on its way, and the next two turns of the loop, a sweep just before each is served. -/
def begun : List PulseAct := [.start "n" "a" 8 0,.beat "n",.wait 5]

def firstBeat : Beat := ⟨⟨"n","a",0,8,0⟩,0⟩

def beatenOn : List PulseAct :=
  [.look,.answered "n",.wait 995,.sweep,.work "n" (.request (.arrive (.read ⟨2,0,0⟩))),.beat "n",.wait 5,.look,.sweep,
    .register Host.still ⟨⟨"n","a",0,8,0⟩,1000⟩,.answered "n",.wait 1000]

theorem begun_runs : (Runs.run (step false 1015) begun (new 0 1)).isSome = true := by decide

theorem firstBeat_served :
    (step false 1015 (.register Host.still firstBeat) ((Runs.run (step false 1015) begun (new 0 1)).get begun_runs)).isSome = true := by
  decide

theorem beatenOn_runs : (Runs.run (step false 1015) beatenOn ((step false 1015 (.register Host.still firstBeat)
    ((Runs.run (step false 1015) begun (new 0 1)).get begun_runs)).get firstBeat_served)).isSome = true := by
  decide +kernel

set_option maxRecDepth 4096 in
/-- With `deadAfter` at its least the node stays listed. -/
theorem beating_listed_swept : ∃ w t v, Runs.run (step false 1015) begun (new 0 1) = some w ∧
    step false 1015 (.register Host.still firstBeat) w = some t ∧ Runs.run (step false 1015) beatenOn t = some v ∧
    v.clock = 2005 ∧ ∃ info ∈ listNodes Host.still v.metadata, info.nodeId = "n" := by
  have own : Own "n" ((Runs.run (step false 1015) begun (new 0 1)).get begun_runs) firstBeat := ⟨rfl,_,rfl,rfl⟩
  have steady : Runs.Each (step false 1015) (Steady "n" 5 5) beatenOn ((step false 1015 (.register Host.still firstBeat)
      ((Runs.run (step false 1015) begun (new 0 1)).get begun_runs)).get firstBeat_served) := by
    refine (Runs.each_cons rfl _).mpr ⟨trivial,?_⟩
    refine (Runs.each_cons rfl _).mpr ⟨fun _ _ flies => absurd flies List.not_mem_nil,?_⟩
    refine (Runs.each_cons rfl _).mpr ⟨by unfold Steady; decide +kernel,?_⟩
    refine (Runs.each_cons rfl _).mpr ⟨trivial,?_⟩
    refine (Runs.each_cons rfl _).mpr ⟨trivial,?_⟩
    refine (Runs.each_cons rfl _).mpr ⟨trivial,?_⟩
    refine (Runs.each_cons rfl _).mpr ⟨by unfold Steady; decide +kernel,?_⟩
    refine (Runs.each_cons rfl _).mpr ⟨trivial,?_⟩
    refine (Runs.each_cons rfl _).mpr ⟨trivial,?_⟩
    refine (Runs.each_cons rfl _).mpr ⟨trivial,?_⟩
    refine (Runs.each_cons rfl _).mpr ⟨fun _ _ flies => absurd flies List.not_mem_nil,?_⟩
    exact (Runs.each_cons rfl _).mpr ⟨by unfold Steady; decide +kernel,Runs.each_nil _⟩
  have ran := (Option.some_get begun_runs).symm
  have served := (Option.some_get firstBeat_served).symm
  have later := (Option.some_get beatenOn_runs).symm
  exact ⟨_,_,_,ran,served,later,by decide +kernel,beating_listed false (by decide) 0 1 ran own (by decide) served steady later Host.still⟩

end Accuracy

end Pulse

end Dtmpfs
