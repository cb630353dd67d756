import Dtmpfs.Error
import Dtmpfs.Hash
import Dtmpfs.Semantics.OrderedMap

/-! State of the metadata server, `dtmpfs-meta::state`: inodes, directories,
handles, membership, block allocation and the attributes put on the wire. -/
namespace Dtmpfs

structure Inode where
  ino : InodeId
  kind : InodeKind
  mode : Nat
  uid : Nat
  gid : Nat
  size : Nat
  nlink : Nat
  atime : SystemTime
  mtime : SystemTime
  ctime : SystemTime
  generation : Generation
  blocks : Map BlockIdx BlockPlacement

structure OpenHandleSt where
  fh : Fh
  ino : InodeId
  flags : Nat
  generationAtOpen : Generation
deriving DecidableEq, Repr

inductive NodeStatus where
  | up
  | down
deriving DecidableEq, Repr

structure NodeInfo where
  nodeId : NodeId
  addr : String
  ramUsed : Nat
  ramTotal : Nat
  status : NodeStatus
deriving DecidableEq, Repr

structure MetaState where
  inodes : Map InodeId Inode
  dirs : Map InodeId (Map String InodeId)
  nextIno : Nat
  openHandles : Map Fh OpenHandleSt
  nextFh : Nat
  nodes : Map NodeId NodeInfo
  lastHeartbeat : Map NodeId Nat
  replicationFactor : Nat

/-- What one call sees of its host: the clock, the linked hash function, and the
order in which the `HashMap` of nodes is iterated. -/
structure Host where
  now : SystemTime
  xxh3 : Xxh3
  arrange : List NodeInfo → List NodeInfo
  arrange_perm : ∀ nodes, (arrange nodes).Perm nodes

/-- A host for concrete runs: time stands still and all nodes score alike. -/
def Host.still : Host := ⟨0,fun _ _ => 0,id,fun nodes => .refl nodes⟩

structure Attr where
  ino : InodeId
  size : Nat
  blocks : Nat
  generation : Generation
  mode : Nat
  nlink : Nat
  uid : Nat
  gid : Nat
  atimeS : Int
  atimeNs : Nat
  mtimeS : Int
  mtimeNs : Nat
  ctimeS : Int
  ctimeNs : Nat
deriving DecidableEq, Repr

/-- `duration_since(UNIX_EPOCH).unwrap_or_default()`, as seconds and nanoseconds. -/
def timestamp (t : SystemTime) : Int × Nat :=
  let since := t.toNat
  ((since / 10^9 : Nat),since % 10^9)

/-- `UNIX_EPOCH + Duration::new(seconds, nanos)`. `Duration::new` carries whole
seconds out of the nanoseconds; the sum panics past `i64::MAX` seconds. -/
def epochPlus (seconds nanos : Nat) : Option SystemTime :=
  let total := 10^9 * seconds + nanos
  if total < 10^9 * 2^63 then some (Int.ofNat total) else none

def buildAttr (inode : Inode) : Attr where
  ino := inode.ino
  size := inode.size
  blocks := inode.blocks.size
  generation := inode.generation
  mode := inode.mode
  nlink := inode.nlink
  uid := inode.uid
  gid := inode.gid
  atimeS := (timestamp inode.atime).1
  atimeNs := (timestamp inode.atime).2
  mtimeS := (timestamp inode.mtime).1
  mtimeNs := (timestamp inode.mtime).2
  ctimeS := (timestamp inode.ctime).1
  ctimeNs := (timestamp inode.ctime).2

namespace MetaState

def rootInode (now : SystemTime) : Inode where
  ino := ROOT
  kind := .dir
  mode := 0o40755
  uid := 0
  gid := 0
  size := 4096
  nlink := 2
  atime := now
  mtime := now
  ctime := now
  generation := 0
  blocks := ∅

def new (now : SystemTime) (replicationFactor : Nat) : MetaState where
  inodes := (∅ : Map InodeId Inode).insert ROOT (rootInode now)
  dirs := (∅ : Map InodeId (Map String InodeId)).insert ROOT ∅
  nextIno := 2
  openHandles := ∅
  nextFh := 1
  nodes := ∅
  lastHeartbeat := ∅
  replicationFactor := replicationFactor

/-- `next_ino.fetch_add(1)`: the number handed out is the old value, and the
counter wraps. -/
def allocIno (s : MetaState) : InodeId × MetaState :=
  (s.nextIno,{s with nextIno := (s.nextIno + 1) % 2^64})

def allocFh (s : MetaState) : Fh × MetaState :=
  (s.nextFh,{s with nextFh := (s.nextFh + 1) % 2^64})

/-- `nodes.values()` in key order. -/
def nodeValues (s : MetaState) : List NodeInfo := s.nodes.toList.map (·.2)

def liveNodes (host : Host) (s : MetaState) : List NodeId :=
  ((host.arrange s.nodeValues).filter (fun n => n.status = .up)).map (·.nodeId)

/-- Placement of one block on the nodes that are up; with none, the node `?`. -/
def place (host : Host) (s : MetaState) (ino : InodeId) (idx : BlockIdx) : BlockPlacement :=
  let chosen := pickNodes host.xxh3 ⟨ino,idx,0⟩ (s.liveNodes host) s.replicationFactor
  ⟨chosen.head?.getD "?",chosen.drop 1⟩

def allocateBlocks (host : Host) (s : MetaState) (ino : InodeId) (idxs : List BlockIdx) :
    List (BlockIdx × BlockPlacement) :=
  idxs.map (fun idx => (idx,s.place host ino idx))

/-- One tick of `spawn_heartbeat_watcher`: every node whose last heartbeat is
older than `deadAfter` goes down. -/
def watcherTick (now deadAfter : Nat) (s : MetaState) : MetaState :=
  let late (id : NodeId) : Bool := match s.lastHeartbeat[id]? with
    | some last => now - last > deadAfter
    | none => false
  {s with nodes := s.nodes.map (fun id info => if late id then {info with status := .down} else info)}

/-- The inode a directory slot names. -/
def resolve (s : MetaState) (parent : InodeId) (name : String) : Option InodeId :=
  s.dirs[parent]?.bind (fun dir => dir[name]?)

def putInode (s : MetaState) (ino : InodeId) (inode : Inode) : MetaState :=
  {s with inodes := s.inodes.insert ino inode}

def putDir (s : MetaState) (ino : InodeId) (dir : Map String InodeId) : MetaState :=
  {s with dirs := s.dirs.insert ino dir}

/-- `if let Some(inode) = s.inodes.get_mut(&ino)` around a change of `nlink`. -/
def editNlink (change : Nat → Nat) (ino : InodeId) (s : MetaState) : MetaState :=
  match s.inodes[ino]? with
  | some inode => s.putInode ino {inode with nlink := change inode.nlink}
  | none => s

end MetaState

end Dtmpfs
