import Dtmpfs.OpenFile

/-! The cluster: one metadata server, the stores, any number of clients, and the
messages between them. A client serves one FUSE callback at a time (`mount2` runs a
single session loop), so between two messages of a callback it does nothing others
could see; a step is one request executed at its server together with what the
client then does with the answer. Background replica writes and deletes travel on
their own. -/
namespace Dtmpfs
open OrderedMap

inductive WaitPolicy where
  | primariesOnly
  | allReplicas
deriving DecidableEq, Repr

/-- A background `WriteBlock` on its way to a replica. -/
structure WriteBlock where
  node : NodeId
  key : BlockKey
  data : Bytes
deriving DecidableEq, Repr

/-- A `publish` in progress, after it has taken the dirty blocks: for each block,
how many nodes of its placement have acknowledged it. -/
structure Publish where
  fh : Fh
  wait : WaitPolicy
  ino : InodeId
  generation : Generation
  blockMap : Map BlockIdx BlockPlacement
  dirty : Map BlockIdx Bytes
  acked : Map BlockIdx Nat

def Publish.ackedAt (p : Publish) (idx : BlockIdx) : Nat := p.acked[idx]?.getD 0

/-- How many acknowledgements block `idx` waits for. -/
def Publish.awaited (p : Publish) (idx : BlockIdx) : Nat :=
  match p.wait with
  | .primariesOnly => 1
  | .allReplicas => (p.blockMap[idx]?.map (fun placement => placement.nodes.length)).getD 1

def Publish.finished (p : Publish) : Bool := p.dirty.keys.all (fun idx => p.awaited idx ≤ p.ackedAt idx)

/-- One more node of the placement of block `idx` has acknowledged it. -/
def Publish.ack (p : Publish) (idx : BlockIdx) : Publish :=
  {p with acked := p.acked.insert idx (p.ackedAt idx + 1)}

/-- What `flush` sends in the background once the primary has acknowledged. -/
def Publish.background (p : Publish) (idx : BlockIdx) (placement : BlockPlacement) (data : Bytes) : List WriteBlock :=
  match p.wait with
  | .primariesOnly => placement.replicas.map (fun replica => ⟨replica,⟨p.ino,idx,0⟩,data⟩)
  | .allReplicas => []

/-- The callback a client is in the middle of. -/
inductive Task where
  | opening (snapshot : MetaService.OpenSnapshot)
  | writing (fh : Fh) (offset : Nat) (data : Bytes) (done : Nat)
  | publishing (publish : Publish)

structure Client where
  openFiles : Map Fh OpenFile
  blockCache : BlockCache
  task : Option Task

abbrev ClientId := Nat

structure Cluster where
  metadata : MetaState
  stores : NodeId → StoreState
  clients : ClientId → Client
  writes : List WriteBlock
  deletes : List DeleteBlock

inductive Label where
  | call (host : Host) (call : MetaService.Call)
  | create (c : ClientId) (host : Host) (r : CreateReq) (flags : Nat)
  | openRead (c : ClientId) (r : OpenReq)
  | openInsert (c : ClientId)
  | fetch (c : ClientId) (fh : Fh) (idx : BlockIdx) (up : NodeId → Bool)
  | write (c : ClientId) (fh : Fh) (offset : Nat) (data : Bytes)
  | chunk (c : ClientId) (up : NodeId → Bool)
  | publish (c : ClientId) (fh : Fh) (wait : WaitPolicy) (host : Host)
  | send (c : ClientId) (idx : BlockIdx)
  | close (c : ClientId) (host : Host) (clock : SystemTime)
  | abort (c : ClientId) (stray : List BlockIdx)
  | release (c : ClientId) (fh : Fh)
  | evict (c : ClientId) (keep : BlockKey → Bool)
  | deliver (message : WriteBlock)
  | lose (message : WriteBlock)
  | deliverDelete (message : DeleteBlock)
  | loseDelete (message : DeleteBlock)
  | restart (node : NodeId)

namespace Cluster

def setClient (σ : Cluster) (c : ClientId) (client : Client) : Cluster :=
  {σ with clients := fun other => if other = c then client else σ.clients other}

def setStore (σ : Cluster) (node : NodeId) (store : StoreState) : Cluster :=
  {σ with stores := fun other => if other = node then store else σ.stores other}

/-- What a client that reaches the nodes of `up` hears about block `idx` of `ino`.
Addresses come from the metadata server, so only registered nodes are reached. -/
def answer (σ : Cluster) (up : NodeId → Bool) (ino : InodeId) (idx : BlockIdx) (node : NodeId) : NodeAnswer :=
  if up node ∧ σ.metadata.nodes.contains node then
    match (σ.stores node).readBlock ⟨ino,idx,0⟩ with
    | .ok bytes => .data bytes
    | .error _ => .notFound
  else .noClient

def call (host : Host) (call : MetaService.Call) (σ : Cluster) : Option Cluster :=
  if call.plain then
    some {σ with
      metadata := MetaService.serve host call σ.metadata
      deletes := σ.deletes ++ MetaService.fired host call σ.metadata}
  else none

/-- The client after it has opened `file` under `fh`. -/
def installed (client : Client) (fh : Fh) (file : OpenFile) : Client :=
  {client with openFiles := client.openFiles.insert fh file, task := none}

def create (c : ClientId) (host : Host) (r : CreateReq) (flags : Nat) (σ : Cluster) : Option Cluster :=
  match (σ.clients c).task with
  | some _ => none
  | none =>
    let served := MetaService.create host r σ.metadata
    let σ := {σ with metadata := served.state}
    match served.reply with
    | .error _ => some σ
    | .ok resp => some (σ.setClient c
        (installed (σ.clients c) resp.fh (buildOpenFile resp.attr.ino resp.attr resp.blockMap flags)))

def openRead (c : ClientId) (r : OpenReq) (σ : Cluster) : Option Cluster :=
  match (σ.clients c).task with
  | some _ => none
  | none =>
    match MetaService.openRead r σ.metadata with
    | .error _ => some σ
    | .ok snapshot => some (σ.setClient c {σ.clients c with task := some (.opening snapshot)})

def openInsert (c : ClientId) (σ : Cluster) : Option Cluster :=
  match (σ.clients c).task with
  | some (.opening snapshot) =>
    let (resp,metadata) := MetaService.openInsert snapshot σ.metadata
    some (setClient {σ with metadata := metadata} c
      (installed (σ.clients c) resp.fh (buildOpenFile snapshot.ino resp.attr resp.blockMap snapshot.flags)))
  | _ => none

/-- One block fetched by `read`. -/
def fetch (bs : Nat) (c : ClientId) (fh : Fh) (idx : BlockIdx) (up : NodeId → Bool) (σ : Cluster) : Option Cluster :=
  match (σ.clients c).task,(σ.clients c).openFiles[fh]? with
  | none,some file => some (σ.setClient c {σ.clients c with
      blockCache := (file.fetchBlock bs (σ.answer up file.ino) idx (σ.clients c).blockCache).2})
  | _,_ => none

/-- `write` begins. The kernel forwards no empty write. -/
def write (c : ClientId) (fh : Fh) (offset : Nat) (data : Bytes) (σ : Cluster) : Option Cluster :=
  match (σ.clients c).task,(σ.clients c).openFiles[fh]? with
  | none,some _ =>
    if data = [] then none
    else some (σ.setClient c {σ.clients c with task := some (.writing fh offset data 0)})
  | _,_ => none

/-- One round of `apply_write`. After an error the rounds before it stay. -/
def chunk (bs : Nat) (c : ClientId) (up : NodeId → Bool) (σ : Cluster) : Option Cluster :=
  match (σ.clients c).task with
  | some (.writing fh offset data done) =>
    match (σ.clients c).openFiles[fh]? with
    | none => none
    | some file =>
      match file.writeChunk bs (σ.answer up file.ino) offset data done (σ.clients c).blockCache with
      | (.error _,cache) => some (σ.setClient c {σ.clients c with blockCache := cache, task := none})
      | (.ok (file,done),cache) =>
        if done < data.length then
          some (σ.setClient c ⟨(σ.clients c).openFiles.insert fh file,cache,some (.writing fh offset data done)⟩)
        else
          some (σ.setClient c ⟨(σ.clients c).openFiles.insert fh (file.growTo (offset + data.length)),cache,none⟩)
  | _ => none

/-- `publish` up to the point where it has taken the dirty blocks. -/
def publish (c : ClientId) (fh : Fh) (wait : WaitPolicy) (host : Host) (σ : Cluster) : Option Cluster :=
  match (σ.clients c).task,(σ.clients c).openFiles[fh]? with
  | none,some file =>
    if file.dirty.isEmpty then some σ
    else
      let newIdxs := file.dirty.keys.filter (fun idx => !file.blockMap.contains idx)
      let served : Served (List BlockLoc) :=
        if newIdxs.isEmpty then ⟨.ok [],σ.metadata,[]⟩
        else MetaService.allocateBlocks host file.ino newIdxs σ.metadata
      let σ := {σ with metadata := served.state}
      match served.reply with
      | .error _ => some σ
      | .ok locs =>
        let blockMap := insertLocs file.blockMap locs
        some (σ.setClient c {σ.clients c with
          openFiles := (σ.clients c).openFiles.insert fh {file with blockMap := blockMap, dirty := ∅}
          task := some (.publishing ⟨fh,wait,file.ino,file.generation,blockMap,file.dirty,∅⟩)})
  | _,_ => none

/-- The next `WriteBlock` of block `idx` is executed and acknowledged. After the
primary's acknowledgement `flush` sends the replicas theirs in the background,
`fsync` goes on to wait for them. -/
def send (c : ClientId) (idx : BlockIdx) (σ : Cluster) : Option Cluster :=
  match (σ.clients c).task with
  | some (.publishing p) =>
    match p.dirty[idx]?,p.blockMap[idx]? with
    | some data,some placement =>
      if p.ackedAt idx < p.awaited idx then
        match placement.nodes[p.ackedAt idx]? with
        | none => none
        | some node =>
          if σ.metadata.nodes.contains node then
            match (σ.stores node).writeBlock ⟨p.ino,idx,0⟩ data with
            | (.error _,_) => none
            | (.ok _,store) =>
              some {(σ.setStore node store).setClient c {σ.clients c with task := some (.publishing (p.ack idx))} with
                writes := σ.writes ++ p.background idx placement data}
          else none
      else none
    | _,_ => none
  | _ => none

/-- The `CloseReq` of a publish, at the client's clock. -/
def closeReq (p : Publish) (sizeHint : Nat) (clock : SystemTime) : CloseReq where
  fh := p.fh
  ino := p.ino
  expectedGeneration := p.generation
  newSize := sizeHint
  mtimeS := (timestamp clock).1
  mtimeNs := (timestamp clock).2
  writtenBlockIdxs := p.dirty.keys

/-- The client when its publish has ended with `reply`. -/
def settled (client : Client) (fh : Fh) (file : OpenFile) (reply : Except Fault Attr) : Client :=
  match reply with
  | .ok attr => {client with
      openFiles := client.openFiles.insert fh {file with generation := attr.generation}
      task := none}
  | .error _ => {client with task := none}

/-- `Meta.Close`. A `SystemTime` holds its seconds in an `i64`. The block cache is
built without invalidation closures, so the pruning that follows does nothing. -/
def close (c : ClientId) (host : Host) (clock : SystemTime) (σ : Cluster) : Option Cluster :=
  match (σ.clients c).task with
  | some (.publishing p) =>
    match (σ.clients c).openFiles[p.fh]? with
    | none => none
    | some file =>
      if p.finished ∧ clock < 10^9 * 2^63 then
        let served := MetaService.close host (closeReq p file.sizeHint clock) σ.metadata
        some (setClient {σ with metadata := served.state} c (settled (σ.clients c) p.fh file served.reply))
      else none
  | _ => none

/-- The next `WriteBlock` of block `idx`, as a message. -/
def nextWrite (p : Publish) (idx : BlockIdx) : Option WriteBlock :=
  match p.dirty[idx]?,p.blockMap[idx]? with
  | some data,some placement =>
    if p.ackedAt idx < p.awaited idx then
      placement.nodes[p.ackedAt idx]?.map (fun node => ⟨node,⟨p.ino,idx,0⟩,data⟩)
    else none
  | _,_ => none

/-- A publish ends without a `Close`: a `WriteBlock` was refused or not delivered,
or the client stops. Requests already sent for the blocks of `stray` stay on their way. -/
def abort (c : ClientId) (stray : List BlockIdx) (σ : Cluster) : Option Cluster :=
  match (σ.clients c).task with
  | some (.publishing p) => some {σ.setClient c {σ.clients c with task := none} with
      writes := σ.writes ++ stray.filterMap (nextWrite p)}
  | _ => none

/-- `release` once nothing is dirty. -/
def release (c : ClientId) (fh : Fh) (σ : Cluster) : Option Cluster :=
  match (σ.clients c).task,(σ.clients c).openFiles[fh]? with
  | none,some file =>
    if file.dirty.isEmpty then
      some (σ.setClient c {σ.clients c with openFiles := (σ.clients c).openFiles.erase fh})
    else none
  | _,_ => none

/-- The block cache drops entries whenever it likes. -/
def evict (c : ClientId) (keep : BlockKey → Bool) (σ : Cluster) : Option Cluster :=
  some (σ.setClient c {σ.clients c with blockCache := (σ.clients c).blockCache.filter (fun key _ => keep key)})

def deliver (message : WriteBlock) (σ : Cluster) : Option Cluster :=
  if message ∈ σ.writes then
    some {σ.setStore message.node ((σ.stores message.node).writeBlock message.key message.data).2 with
      writes := σ.writes.erase message}
  else none

def lose (message : WriteBlock) (σ : Cluster) : Option Cluster :=
  if message ∈ σ.writes then some {σ with writes := σ.writes.erase message} else none

def deliverDelete (message : DeleteBlock) (σ : Cluster) : Option Cluster :=
  if message ∈ σ.deletes then
    some {σ.setStore message.node ((σ.stores message.node).deleteBlock message.key) with
      deletes := σ.deletes.erase message}
  else none

def loseDelete (message : DeleteBlock) (σ : Cluster) : Option Cluster :=
  if message ∈ σ.deletes then some {σ with deletes := σ.deletes.erase message} else none

/-- A store comes back under its node id with an empty block map. -/
def restart (node : NodeId) (σ : Cluster) : Option Cluster :=
  some (σ.setStore node (.new (σ.stores node).nodeId (σ.stores node).ramBudget))

def step (bs : Nat) (label : Label) (σ : Cluster) : Option Cluster :=
  match label with
  | .call host request => σ.call host request
  | .create c host r flags => σ.create c host r flags
  | .openRead c r => σ.openRead c r
  | .openInsert c => σ.openInsert c
  | .fetch c fh idx up => σ.fetch bs c fh idx up
  | .write c fh offset data => σ.write c fh offset data
  | .chunk c up => σ.chunk bs c up
  | .publish c fh wait host => σ.publish c fh wait host
  | .send c idx => σ.send c idx
  | .close c host clock => σ.close c host clock
  | .abort c stray => σ.abort c stray
  | .release c fh => σ.release c fh
  | .evict c keep => σ.evict c keep
  | .deliver message => σ.deliver message
  | .lose message => σ.lose message
  | .deliverDelete message => σ.deliverDelete message
  | .loseDelete message => σ.loseDelete message
  | .restart node => σ.restart node

def run (bs : Nat) : List Label → Cluster → Option Cluster
  | [],σ => some σ
  | label::rest,σ => (step bs label σ).bind (run bs rest)

/-- A cluster that has just come up, with stores that have registered nowhere yet. -/
def new (now : SystemTime) (replicationFactor ramBudget : Nat) : Cluster where
  metadata := MetaState.new now replicationFactor
  stores node := .new node ramBudget
  clients _ := ⟨∅,∅,none⟩
  writes := []
  deletes := []

end Cluster

end Dtmpfs
