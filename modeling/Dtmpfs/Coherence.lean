import Dtmpfs.HandleNumbers

/-! Coherence of one file across the cluster. The history of a run is kept beside it:
the file as published so far, and for every handle the writes it has not published.
The invariant ties dirty buffers, caches, block maps and store slots to that history
for as long as no publish that has written to a store fails. -/
namespace Dtmpfs
open MetaService MetaState FlatFile OrderedMap Cluster

/-- The published file, and the unpublished writes of every handle. -/
structure History where
  published : Flat
  pending : ClientId → Fh → List Patch

namespace History

def blank : History := ⟨.empty,fun _ _ => []⟩

def set (G : History) (c : ClientId) (fh : Fh) (patches : List Patch) : History :=
  {G with pending := fun c' fh' => if c' = c ∧ fh' = fh then patches else G.pending c' fh'}

/-- A whole write. -/
def whole (offset : Nat) (data : Bytes) : Patch := ⟨offset,data,offset + data.length⟩

/-- A write that failed after `done` bytes: they stay, the size does not grow. -/
def partWay (offset : Nat) (data : Bytes) (done : Nat) : Patch := ⟨offset,data.take done,0⟩

/-- What is left of a publish that failed: the bytes are gone, the size hint is not. -/
def remains (sizeHint : Nat) : Patch := ⟨0,[],sizeHint⟩

/-- The history of file `f` after a step. A write counts when its last round is
done, a publish when its `Close` is accepted. -/
def next (bs : Nat) (f : InodeId) (label : Label) (σ : Cluster) (G : History) : History :=
  match label with
  | .create c host r _ =>
    match (MetaService.create host r σ.metadata).reply with
    | .ok resp => G.set c resp.fh []
    | .error _ => G
  | .openInsert c => G.set c σ.metadata.nextFh []
  | .chunk c up =>
    match (σ.clients c).task with
    | some (.writing fh offset data done) =>
      match (σ.clients c).openFiles[fh]? with
      | none => G
      | some file =>
        match (file.writeChunk bs (σ.answer up file.ino) offset data done (σ.clients c).blockCache).1 with
        | .error _ => G.set c fh (G.pending c fh ++ [partWay offset data done])
        | .ok (_,done') =>
          if done' < data.length then G else G.set c fh (G.pending c fh ++ [whole offset data])
    | _ => G
  | .close c host clock =>
    match (σ.clients c).task with
    | some (.publishing p) =>
      match (σ.clients c).openFiles[p.fh]? with
      | none => G
      | some file =>
        match (MetaService.close host (closeReq p file.sizeHint clock) σ.metadata).reply with
        | .ok _ => set {G with
            published := if p.ino = f then G.published.applyAll (G.pending c p.fh) else G.published} c p.fh []
        | .error _ => G.set c p.fh [remains file.sizeHint]
    | _ => G
  | .abort c _ =>
    match (σ.clients c).task with
    | some (.publishing p) =>
      match (σ.clients c).openFiles[p.fh]? with
      | none => G
      | some file => G.set c p.fh [remains file.sizeHint]
    | _ => G
  | _ => G

end History

/-- A run together with the history of file `f`. -/
def trace (bs : Nat) (f : InodeId) : List Label → Cluster → History → Option (Cluster × History)
  | [],σ,G => some (σ,G)
  | label::rest,σ,G => (step bs label σ).bind (fun τ => trace bs f rest τ (G.next bs f label σ))

namespace Client

/-- The publish of file `f` the client is in the middle of. -/
def publishes (client : Client) (f : InodeId) : Option Publish :=
  match client.task with
  | some (.publishing p) => if p.ino = f then some p else none
  | _ => none

/-- The client is publishing `f` and some store has executed a `WriteBlock` of it. -/
def Acting (client : Client) (f : InodeId) : Prop := ∃ p, client.publishes f = some p ∧ ∃ idx, 0 < p.ackedAt idx

/-- A file the client has open, or is about to have. -/
def Holds (client : Client) (file : OpenFile) : Prop :=
  (∃ fh : Fh, client.openFiles[fh]? = some file) ∨ ∃ snapshot, client.task = some (.opening snapshot) ∧ file = snapshotFile snapshot

/-- The bytes of a write still being applied through handle `fh`. -/
def inFlight (client : Client) (fh : Fh) : List Patch :=
  match client.task with
  | some (.writing fh' offset data done) => if fh' = fh then [History.partWay offset data done] else []
  | _ => []

/-- The dirty blocks of a handle, also when a publish has taken them. -/
def dirtyOf (client : Client) (fh : Fh) (file : OpenFile) (idx : BlockIdx) : Option Bytes :=
  match client.task with
  | some (.publishing p) => if p.fh = fh then p.dirty[idx]? else file.dirty[idx]?
  | _ => file.dirty[idx]?

theorem dirtyOf_own {client : Client} (idle : ∀ p, client.task ≠ some (.publishing p)) (fh : Fh) (file : OpenFile) :
    client.dirtyOf fh file = fun idx => file.dirty[idx]? := by
  funext idx
  unfold dirtyOf
  split
  next p task => exact absurd task (idle p)
  next => rfl

theorem inFlight_none {client : Client} (idle : ∀ fh offset data done, client.task ≠ some (.writing fh offset data done))
    (fh : Fh) : client.inFlight fh = [] := by
  unfold inFlight
  split
  next fh offset data done task => exact absurd task (idle fh offset data done)
  next => rfl

end Client

/-- A publish in progress and the handle it came from. -/
structure Underway (client : Client) (p : Publish) : Prop where
  handle : ∃ file, client.openFiles[p.fh]? = some file ∧ file.ino = p.ino ∧ file.generation = p.generation ∧
    file.blockMap = p.blockMap ∧ ∀ idx : BlockIdx, file.dirty[idx]? = none
  some : ∃ (idx : BlockIdx) (data : Bytes), p.dirty[idx]? = some data
  placed : ∀ (idx : BlockIdx) (data : Bytes), p.dirty[idx]? = .some data → ∃ placement, p.blockMap[idx]? = .some placement
  acked : ∀ idx, 0 < p.ackedAt idx → ∃ data, p.dirty[idx]? = .some data

/-- What a client knows of file `f` is no newer than its record and agrees with it. -/
structure Known (f : InodeId) (file : FileRecord) (client : Client) : Prop where
  held : ∀ handle, client.Holds handle → handle.ino = f →
    handle.generation ≤ file.generation ∧ Agrees handle.blockMap file.blocks
  cached : ∀ (key : BlockKey) (bytes : Bytes), client.blockCache[key]? = some bytes → key.ino = f →
    key.generation ≤ file.generation
  publishing : ∀ p, client.task = some (.publishing p) → Underway client p

/-- The part of the invariant that no failing publish can break. -/
structure Base (f : InodeId) (σ : Cluster) (file : FileRecord) : Prop where
  alive : σ.metadata.fileAt f = some file
  clients : ∀ c, Known f file (σ.clients c)
  placed : ∀ (idx : BlockIdx) (placement : BlockPlacement), file.blocks[idx]? = some placement →
    WellPlaced σ.metadata placement
  messages : ∀ m ∈ σ.writes, m.key.ino = f → m.key.generation = 0 ∧
    ∃ placement, file.blocks[m.key.blockIdx]? = some placement ∧ m.node ∈ placement.replicas
  deletes : ∀ d ∈ σ.deletes, d.key.ino ≠ f
  vacant : ∀ (node : NodeId) (idx : BlockIdx), file.blocks[idx]? = none → σ.slot node f idx = none
  filed : Filed σ.metadata
  factor : 0 < σ.metadata.replicationFactor

/-- Handles and caches of a client show the published file `F`. Drafts do while no
other client is acting (`quiet`), caches while nobody is (`calm`). -/
structure Tracks (bs : Nat) (f : InodeId) (file : FileRecord) (F : Flat) (pending : Fh → List Patch)
    (client : Client) (quiet calm : Prop) : Prop where
  covers : ∀ handle, client.Holds handle → handle.ino = f → handle.generation = file.generation →
    ∀ idx : BlockIdx, handle.blockMap[idx]? = none → Blank bs F idx
  sizes : ∀ (fh : Fh) handle, client.openFiles[fh]? = some handle → handle.ino = f →
    handle.generation = file.generation → handle.sizeHint = (F.applyAll (pending fh)).size
  fresh : ∀ snapshot, client.task = some (.opening snapshot) → snapshot.ino = f →
    snapshot.attr.generation = file.generation → snapshot.attr.size = F.size
  drafts : quiet → ∀ (fh : Fh) handle, client.openFiles[fh]? = some handle → handle.ino = f →
    handle.generation = file.generation →
    Overlay bs F (F.applyAll (pending fh ++ client.inFlight fh)) (client.dirtyOf fh handle)
  caches : calm → ∀ (key : BlockKey) (bytes : Bytes), client.blockCache[key]? = some bytes → key.ino = f →
    key.generation = file.generation → Shows bs F key.blockIdx bytes

/-- A slot holds the block, or nothing where the block is blank. -/
def SlotShows (bs : Nat) (F : Flat) (idx : BlockIdx) : Option Bytes → Prop
  | some bytes => Shows bs F idx bytes
  | none => Blank bs F idx

/-- No publish of `f` that a store has already written for is in progress. -/
def Calm (f : InodeId) (σ : Cluster) : Prop := ∀ c, ¬ (σ.clients c).Acting f

structure Coherent (bs : Nat) (f : InodeId) (σ : Cluster) (file : FileRecord) (G : History) : Prop where
  size : file.size = G.published.size
  single : ∀ c c', (σ.clients c).Acting f → (σ.clients c').Acting f → c = c'
  current : ∀ c p, (σ.clients c).publishes f = some p → (∃ idx, 0 < p.ackedAt idx) → p.generation = file.generation
  unplaced : ∀ idx : BlockIdx, file.blocks[idx]? = none → Blank bs G.published idx
  written : ∀ (idx : BlockIdx) (placement : BlockPlacement), file.blocks[idx]? = some placement →
    ∀ c p data, (σ.clients c).publishes f = some p → 0 < p.ackedAt idx → p.dirty[idx]? = some data →
      σ.slot placement.primary f idx = some data
  shown : ∀ (idx : BlockIdx) (placement : BlockPlacement), file.blocks[idx]? = some placement →
    (∀ c p, (σ.clients c).publishes f = some p → p.ackedAt idx = 0) →
      SlotShows bs G.published idx (σ.slot placement.primary f idx)
  tracks : ∀ c, Tracks bs f file G.published (G.pending c) (σ.clients c)
    (∀ c', c' ≠ c → ¬ (σ.clients c').Acting f) (Calm f σ)

/-- Two clients have written to stores for one file, or one whose generation is
behind: no step brings such a publish to an accepted `Close`. -/
def Stuck (f : InodeId) (σ : Cluster) (file : FileRecord) : Prop :=
  (∃ c p, (σ.clients c).publishes f = some p ∧ (∃ idx, 0 < p.ackedAt idx) ∧ p.generation ≠ file.generation) ∨
    ∃ c c', c ≠ c' ∧ (σ.clients c).Acting f ∧ (σ.clients c').Acting f

structure Tied (bs : Nat) (f : InodeId) (σ : Cluster) (file : FileRecord) (G : History) : Prop where
  base : Base f σ file
  coherent : Stuck f σ file ∨ Coherent bs f σ file G

structure Inv (bs : Nat) (f : InodeId) (σ : Cluster) (file : FileRecord) (G : History) : Prop extends Tied bs f σ file G where
  own : HandlesOwn σ

/-- Every reachable node a read of `f` would be answered by holds what the primary holds. -/
def InSync (f : InodeId) (up : NodeId → Bool) (σ : Cluster) : Prop :=
  ∀ file ∈ σ.metadata.fileAt f, ∀ entry ∈ file.blocks.toList,
    ∀ node ∈ entry.2.nodes.find? (fun n => up n && σ.metadata.nodes.contains n),
      σ.slot node f entry.1 = σ.slot entry.2.primary f entry.1

/-- The node that answers for block `idx` holds what the primary holds. -/
def SyncedAt (f : InodeId) (up : NodeId → Bool) (idx : BlockIdx) (σ : Cluster) : Prop :=
  ∀ file ∈ σ.metadata.fileAt f, ∀ placement ∈ file.blocks[idx]?,
    ∀ node ∈ placement.nodes.find? (fun n => up n && σ.metadata.nodes.contains n),
      σ.slot node f idx = σ.slot placement.primary f idx

instance (f : InodeId) (up : NodeId → Bool) (idx : BlockIdx) (σ : Cluster) : Decidable (SyncedAt f up idx σ) :=
  inferInstanceAs (Decidable (∀ file ∈ σ.metadata.fileAt f, ∀ placement ∈ file.blocks[idx]?,
    ∀ node ∈ placement.nodes.find? (fun n => up n && σ.metadata.nodes.contains n),
      σ.slot node f idx = σ.slot placement.primary f idx))

/-- The block a step asks the stores for: through which handle, and which nodes are up. -/
def asked (bs : Nat) (label : Label) (σ : Cluster) : Option (OpenFile × BlockIdx × (NodeId → Bool)) :=
  match label with
  | .fetch c fh idx up => ((σ.clients c).openFiles[fh]?.filter fun handle => handle.asks idx (σ.clients c).blockCache).map fun handle =>
      (handle,idx,up)
  | .chunk c up =>
    match (σ.clients c).task with
    | some (.writing fh offset data done) =>
      let idx := (offset + done) / bs
      ((σ.clients c).openFiles[fh]?.filter fun handle =>
        (OpenFile.chunkOf bs offset data done).length ≠ bs && handle.asks idx (σ.clients c).blockCache).map fun handle => (handle,idx,up)
    | _ => none
  | _ => none

/-- Between publishes, a block of `f` that is asked for is answered in sync. -/
def AskedInSync (bs : Nat) (f : InodeId) (label : Label) (σ : Cluster) : Prop :=
  Calm f σ → ∀ handle idx up, asked bs label σ = some (handle,idx,up) → handle.ino = f → SyncedAt f up idx σ

/-- The metadata server knows the handle of the publish, and the file is still at the
generation the publish started from. -/
def Matches (f : InodeId) (p : Publish) (s : MetaState) : Prop :=
  s.openHandles.contains p.fh = true ∧ ∀ file ∈ s.fileAt f, file.generation = p.generation

/-- No block of `f` is placed on `node`. -/
def Unused (f : InodeId) (node : NodeId) (s : MetaState) : Prop :=
  ∀ file ∈ s.fileAt f, ∀ entry ∈ file.blocks.toList, node ∉ entry.2.nodes

/-- Steps that break nothing: requests spare the file, its publishes end in a `Close`
that matches or before any store has executed a write, reads between publishes are
answered in sync, no store of the file comes back empty, and handle numbers do not come
round. -/
def Orderly (f : InodeId) (label : Label) (σ : Cluster) : Prop :=
  match label with
  | .call _ request => Spares f request σ.metadata
  | .create _ _ r _ => Spares f (.create r) σ.metadata ∧ HandlesLeft σ.metadata
  | .openInsert _ => HandlesLeft σ.metadata
  | .fetch _ _ _ up | .chunk _ up => Calm f σ → InSync f up σ
  | .publish _ _ _ host => σ.metadata.liveNodes host ≠ []
  | .close c _ _ => ∀ p ∈ (σ.clients c).publishes f, Matches f p σ.metadata
  | .abort c stray => ∀ p ∈ (σ.clients c).publishes f, p.acked.isEmpty = true ∧ stray = []
  | .restart node => Unused f node σ.metadata
  | _ => True

section Decidable

variable (f : InodeId) (σ : Cluster) (s : MetaState)

instance (up : NodeId → Bool) : Decidable (InSync f up σ) :=
  inferInstanceAs (Decidable (∀ file ∈ σ.metadata.fileAt f, ∀ entry ∈ file.blocks.toList,
    ∀ node ∈ entry.2.nodes.find? (fun n => up n && σ.metadata.nodes.contains n),
      σ.slot node f entry.1 = σ.slot entry.2.primary f entry.1))

instance (p : Publish) : Decidable (Matches f p s) :=
  inferInstanceAs (Decidable (_ ∧ ∀ file ∈ s.fileAt f, file.generation = p.generation))

instance (node : NodeId) : Decidable (Unused f node s) :=
  inferInstanceAs (Decidable (∀ file ∈ s.fileAt f, ∀ entry ∈ file.blocks.toList, node ∉ entry.2.nodes))

instance (call : Call) : Decidable (Spares f call s) :=
  match call with
  | .setAttr r => inferInstanceAs (Decidable (r.ino = f → r.size = none))
  | .create _ | .mkdir _ => inferInstanceAs (Decidable (s.nextIno ≠ f))
  | .unlink parent name | .rmdir parent name => inferInstanceAs (Decidable (s.resolve parent name ≠ some f))
  | .rename r => inferInstanceAs (Decidable (s.resolve r.dstParentIno r.dstName ≠ some f))
  | .lookup _ _ | .getAttr _ | .readDir _ | .listNodes | .heartbeatNode _ _ | .watcherTick _ _ | .«open» _
  | .openInsert _ | .close _ | .allocateBlocks _ _ => inferInstanceAs (Decidable True)

end Decidable

end Dtmpfs
