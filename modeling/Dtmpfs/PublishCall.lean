import Dtmpfs.Cluster

/-! One call of `DtmpfsFs::publish`, request by request. The dirty blocks are written by
a stream of futures of which at most 16 run at a time; they finish in any order, the
first error ends the call, and `flush` leaves the replicas to spawned tasks. Requests
whose answer nobody waits for any more may still be executed. -/
namespace Dtmpfs
open OrderedMap

/-- One future of the stream: how many nodes of its placement have acknowledged the block,
and the request to the next one: not sent, sent, or executed with an answer. -/
structure Future where
  idx : BlockIdx
  data : Bytes
  acked : Nat
  asked : Option (Option (Except Status Nat))

inductive Phase where
  | listing
  | allocating
  | writing (todo : List (BlockIdx × Bytes)) (running : List Future) (writtenIdxs : List BlockIdx)
  | closing
  | returned (result : Except DtmpfsError Unit)

/-- What others see of the call. -/
inductive Event where
  | allocated (locs : List BlockLoc)
  | sent (idx : BlockIdx) (node : NodeId) (data : Bytes)
  | acked (idx : BlockIdx) (node : NodeId) (data : Bytes)
  | failed (idx : BlockIdx)
  | closed (r : CloseReq)
  | accepted

/-- The call with the handle it has locked, the writes its spawned tasks have still to
send, the requests nobody waits for, the stores, and its events, the last one first. -/
structure PublishCall where
  fh : Fh
  wait : WaitPolicy
  file : OpenFile
  phase : Phase
  spawned : List WriteBlock
  adrift : List WriteBlock
  stores : NodeId → StoreState
  trace : List Event

/-- Outcomes and the order of events are anybody's guess: each act is one of them. The
last one is a change at a store that others have made. -/
inductive Act where
  | listNodes (reply : Except Status Unit)
  | allocate (reply : Except Status (List BlockLoc))
  | start
  | connect (k : Nat) (reached : Bool)
  | execute (k : Nat)
  | answer (k : Nat) (reply : Except Status Unit)
  | sendSpawned (k : Nat)
  | dropSpawned (k : Nat)
  | land (k : Nat)
  | lose (k : Nat)
  | close (clock : SystemTime)
  | closeReply (reply : Except Status Attr)
  | elsewhere (node : NodeId) (store : StoreState)

namespace PublishCall

/-- `buffer_unordered(16)`. -/
def width : Nat := 16

/-- The next request of a future. -/
def request (σ : PublishCall) (f : Future) : Option WriteBlock :=
  (σ.file.blockMap[f.idx]?.bind (fun placement => placement.nodes[f.acked]?)).map
    (fun node => ⟨node,⟨σ.file.ino,f.idx,0⟩,f.data⟩)

/-- The requests of futures that are dropped before their answer. -/
def unanswered (σ : PublishCall) (running : List Future) : List WriteBlock :=
  (running.filter (fun f => match f.asked with | some none => true | _ => false)).filterMap σ.request

def return_ (σ : PublishCall) (result : Except DtmpfsError Unit) : PublishCall := {σ with phase := .returned result}

/-- `publish` up to its first request: a handle without dirty blocks is done with. -/
def begin (fh : Fh) (wait : WaitPolicy) (file : OpenFile) (stores : NodeId → StoreState) : PublishCall where
  fh := fh
  wait := wait
  file := file
  phase := if file.dirty.isEmpty then .returned (.ok ()) else .listing
  spawned := []
  adrift := []
  stores := stores
  trace := []

def newIdxs (file : OpenFile) : List BlockIdx := file.dirty.keys.filter (fun idx => !file.blockMap.contains idx)

/-- The dirty blocks are moved out of the handle. -/
def take (σ : PublishCall) : PublishCall :=
  {σ with
    file := {σ.file with dirty := ∅}
    phase := .writing σ.file.dirty.toList [] σ.file.dirty.keys}

def listNodes (reply : Except Status Unit) (σ : PublishCall) : Option PublishCall :=
  match σ.phase,reply with
  | .listing,.error status => some (σ.return_ (.error (.fromStatus status none)))
  | .listing,.ok () => some (if (newIdxs σ.file).isEmpty then σ.take else {σ with phase := .allocating})
  | _,_ => none

def allocate (reply : Except Status (List BlockLoc)) (σ : PublishCall) : Option PublishCall :=
  match σ.phase,reply with
  | .allocating,.error status => some (σ.return_ (.error (.fromStatus status none)))
  | .allocating,.ok locs => some (take {σ with
      file := {σ.file with blockMap := insertLocs σ.file.blockMap locs}
      trace := .allocated locs::σ.trace})
  | _,_ => none

/-- The stream takes the next future up. -/
def start (σ : PublishCall) : Option PublishCall :=
  match σ.phase with
  | .writing ((idx,data)::todo) running writtenIdxs =>
    if running.length < width then some {σ with phase := .writing todo (running ++ [⟨idx,data,0,none⟩]) writtenIdxs}
    else none
  | _ => none

/-- The first error ends the stream; its other futures are dropped. -/
def fail (σ : PublishCall) (running : List Future) (f : Future) (e : DtmpfsError) : PublishCall :=
  {σ with
    phase := .returned (.error e)
    adrift := σ.adrift ++ σ.unanswered running
    trace := .failed f.idx::σ.trace}

/-- A future looks its placement up, gets a client for the next node and sends. -/
def connect (k : Nat) (reached : Bool) (σ : PublishCall) : Option PublishCall :=
  match σ.phase with
  | .writing todo running writtenIdxs =>
    match running[k]? with
    | some f =>
      if f.asked.isSome then none
      else
        match σ.file.blockMap[f.idx]? with
        | none => some (σ.fail running f .notFound)
        | some placement =>
          match placement.nodes[f.acked]? with
          | none => none
          | some node =>
            if reached then some {σ with
              phase := .writing todo (running.set k {f with asked := some none}) writtenIdxs
              trace := .sent f.idx node f.data::σ.trace}
            else some (σ.fail running f (.storeUnavailable node))
    | none => none
  | _ => none

def execute (k : Nat) (σ : PublishCall) : Option PublishCall :=
  match σ.phase with
  | .writing todo running writtenIdxs =>
    match running[k]? with
    | some f =>
      match f.asked,σ.request f with
      | some none,some message =>
        let (reply,store) := (σ.stores message.node).writeBlock message.key message.data
        some {σ with
          stores := fun other => if other = message.node then store else σ.stores other
          phase := .writing todo (running.set k {f with asked := some (some reply)}) writtenIdxs}
      | _,_ => none
    | none => none
  | _ => none

/-- The spawned writes of a block: `flush` leaves its replicas to them. -/
def background (σ : PublishCall) (f : Future) (placement : BlockPlacement) : List WriteBlock :=
  placement.replicas.map (fun replica => ⟨replica,⟨σ.file.ino,f.idx,0⟩,f.data⟩)

/-- A future hears from its node: an acknowledgement of a write that was executed, or any
status at all. -/
def answer (k : Nat) (reply : Except Status Unit) (σ : PublishCall) : Option PublishCall :=
  match σ.phase with
  | .writing todo running writtenIdxs =>
    match running[k]? with
    | some f =>
      match f.asked,σ.file.blockMap[f.idx]? with
      | some executed,some placement =>
        match placement.nodes[f.acked]? with
        | none => none
        | some node =>
          match reply with
          | .error status => some (σ.fail running f (.fromStatus status (some node)))
          | .ok () =>
            match executed with
            | some (.ok _) =>
              let σ := {σ with trace := .acked f.idx node f.data::σ.trace}
              match σ.wait with
              | .primariesOnly => some {σ with
                  spawned := σ.spawned ++ σ.background f placement
                  phase := .writing todo (running.eraseIdx k) writtenIdxs}
              | .allReplicas =>
                if f.acked + 1 < placement.nodes.length then some {σ with
                  phase := .writing todo (running.set k {f with acked := f.acked + 1, asked := none}) writtenIdxs}
                else some {σ with phase := .writing todo (running.eraseIdx k) writtenIdxs}
            | _ => none
      | _,_ => none
    | none => none
  | _ => none

/-- A spawned task sends its request. -/
def sendSpawned (k : Nat) (σ : PublishCall) : Option PublishCall :=
  σ.spawned[k]?.map fun message =>
    {σ with
      spawned := σ.spawned.eraseIdx k
      adrift := σ.adrift ++ [message]
      trace := .sent message.key.blockIdx message.node message.data::σ.trace}

/-- A spawned task gets no client. -/
def dropSpawned (k : Nat) (σ : PublishCall) : Option PublishCall :=
  if k < σ.spawned.length then some {σ with spawned := σ.spawned.eraseIdx k} else none

def land (k : Nat) (σ : PublishCall) : Option PublishCall :=
  σ.adrift[k]?.map fun message =>
    let store := ((σ.stores message.node).writeBlock message.key message.data).2
    {σ with
      stores := fun other => if other = message.node then store else σ.stores other
      adrift := σ.adrift.eraseIdx k}

def lose (k : Nat) (σ : PublishCall) : Option PublishCall :=
  if k < σ.adrift.length then some {σ with adrift := σ.adrift.eraseIdx k} else none

def closeReq (σ : PublishCall) (clock : SystemTime) (writtenIdxs : List BlockIdx) : CloseReq where
  fh := σ.fh
  ino := σ.file.ino
  expectedGeneration := σ.file.generation
  newSize := σ.file.sizeHint
  mtimeS := (timestamp clock).1
  mtimeNs := (timestamp clock).2
  writtenBlockIdxs := writtenIdxs

/-- The stream has ended, `Meta.Close` is sent. -/
def close (clock : SystemTime) (σ : PublishCall) : Option PublishCall :=
  match σ.phase with
  | .writing [] [] writtenIdxs => some {σ with phase := .closing, trace := .closed (σ.closeReq clock writtenIdxs)::σ.trace}
  | _ => none

def closeReply (reply : Except Status Attr) (σ : PublishCall) : Option PublishCall :=
  match σ.phase,reply with
  | .closing,.error status => some (σ.return_ (.error (.fromStatus status none)))
  | .closing,.ok attr => some (return_ {σ with
      file := {σ.file with generation := attr.generation}
      trace := .accepted::σ.trace} (.ok ()))
  | _,_ => none

def step (act : Act) (σ : PublishCall) : Option PublishCall :=
  match act with
  | .listNodes reply => σ.listNodes reply
  | .allocate reply => σ.allocate reply
  | .start => σ.start
  | .connect k reached => σ.connect k reached
  | .execute k => σ.execute k
  | .answer k reply => σ.answer k reply
  | .sendSpawned k => σ.sendSpawned k
  | .dropSpawned k => σ.dropSpawned k
  | .land k => σ.land k
  | .lose k => σ.lose k
  | .close clock => σ.close clock
  | .closeReply reply => σ.closeReply reply
  | .elsewhere node store => some {σ with stores := fun other => if other = node then store else σ.stores other}

def run : List Act → PublishCall → Option PublishCall
  | [],σ => some σ
  | act::rest,σ => (step act σ).bind (run rest)

end PublishCall

end Dtmpfs
