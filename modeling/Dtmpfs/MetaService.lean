import Dtmpfs.MetaState

/-! Request handlers of the metadata server, `dtmpfs-meta::service`. A handler
that takes the write lock returns its answer together with the state it leaves
behind, also when it fails, and the `DeleteBlock` messages it has fired. -/
namespace Dtmpfs

structure SetAttrReq where
  ino : InodeId
  size : Option Nat
  mode : Option Nat
  uid : Option Nat
  gid : Option Nat
  atimeS : Option Int
  atimeNs : Option Nat
  mtimeS : Option Int
  mtimeNs : Option Nat

/-- `CreateReq` and `MkdirReq`, which have the same fields. -/
structure CreateReq where
  parentIno : InodeId
  name : String
  mode : Nat
  uid : Nat
  gid : Nat

structure BlockLoc where
  blockIdx : BlockIdx
  primary : NodeId
  replicas : List NodeId
deriving DecidableEq, Repr

structure CreateResp where
  attr : Attr
  fh : Fh
  blockMap : List BlockLoc
deriving DecidableEq, Repr

structure RenameReq where
  srcParentIno : InodeId
  srcName : String
  dstParentIno : InodeId
  dstName : String

structure DirEntry where
  name : String
  ino : InodeId
  kind : Nat
deriving DecidableEq, Repr

structure ReadDirReq where
  ino : InodeId
  cookie : ByteArray
  maxEntries : Nat

structure ReadDirResp where
  entries : List DirEntry
  nextCookie : ByteArray
  eof : Bool

structure OpenReq where
  ino : InodeId
  flags : Nat

structure OpenResp where
  attr : Attr
  fh : Fh
  blockMap : List BlockLoc
deriving DecidableEq, Repr

structure CloseReq where
  fh : Fh
  ino : InodeId
  expectedGeneration : Generation
  newSize : Nat
  mtimeS : Int
  mtimeNs : Nat
  writtenBlockIdxs : List BlockIdx

structure HeartbeatReq where
  nodeId : NodeId
  addr : String
  usedBytes : Nat
  capacityBytes : Nat
  epochS : Nat

/-- A spawned `DeleteBlock` request on its way to a store. -/
structure DeleteBlock where
  node : NodeId
  addr : String
  key : BlockKey
deriving DecidableEq, Repr

structure Served (α : Type) where
  reply : Except Fault α
  state : MetaState
  deletes : List DeleteBlock

namespace MetaService

def placementToBlockLoc (idx : BlockIdx) (p : BlockPlacement) : BlockLoc :=
  ⟨idx,p.primary,p.replicas⟩

/-- The answer `not_found()`. -/
def inodeNotFound {α : Type} : Except Fault α := refuse .notFound "inode not found"

def kindU32 : InodeKind → Nat
  | .file => 1
  | .dir => 2
  | .symlink => 3

/-- `fire_delete_blocks`: one message for every registered node of every
placement, all under generation 0. -/
def fireDeleteBlocks (s : MetaState) (ino : InodeId) (blocks : List (BlockIdx × BlockPlacement)) :
    List DeleteBlock :=
  blocks.flatMap fun (idx,placement) => placement.nodes.filterMap fun node =>
    s.nodes[node]?.map fun info => ⟨node,"http://" ++ info.addr,⟨ino,idx,0⟩⟩

def lookup (parentIno : InodeId) (name : String) (s : MetaState) : Except Fault Attr :=
  match s.resolve parentIno name with
  | none => inodeNotFound
  | some child =>
    match s.inodes[child]? with
    | none => inodeNotFound
    | some inode => .ok (buildAttr inode)

def getAttr (ino : InodeId) (s : MetaState) : Except Fault Attr :=
  match s.inodes[ino]? with
  | none => inodeNotFound
  | some inode => .ok (buildAttr inode)

/-- A requested time: absent keeps the old one; `none` is the panic of the sum. -/
def requestedTime (seconds : Option Int) (nanos : Option Nat) (old : SystemTime) : Option SystemTime :=
  match seconds with
  | none => some old
  | some s => epochPlus (max s 0).toNat (nanos.getD 0)

/-- The block size `set_attr` is compiled with, whatever the configuration says. -/
def truncateBlockSize : Nat := 2^20

/-- Last block index kept by a truncation to `newSize`. -/
def lastIdx (newSize : Nat) : BlockIdx :=
  if newSize = 0 then 0 else (newSize - 1) / truncateBlockSize

/-- Whether a request for `newSize` takes placements out of a file of size `size`. -/
def drops (size newSize : Nat) (idx : BlockIdx) : Bool := newSize < size && lastIdx newSize < idx

/-- The size part of `set_attr`: the inode afterwards and the dropped blocks. -/
def resize (newSize : Option Nat) (inode : Inode) : Inode × List (BlockIdx × BlockPlacement) :=
  match newSize with
  | none => (inode,[])
  | some n =>
    ({inode with
        size := n
        blocks := inode.blocks.filter (fun idx _ => !drops inode.size n idx)},
      (inode.blocks.filter (fun idx _ => drops inode.size n idx)).toList)

def setAttr (host : Host) (r : SetAttrReq) (s : MetaState) : Served Attr :=
  match s.inodes[r.ino]? with
  | none => ⟨inodeNotFound,s,[]⟩
  | some inode =>
    let owned := {inode with
      mode := r.mode.getD inode.mode
      uid := r.uid.getD inode.uid
      gid := r.gid.getD inode.gid}
    match requestedTime r.atimeS r.atimeNs inode.atime with
    | none => ⟨.error .panicked,s.putInode r.ino owned,[]⟩
    | some atime =>
      match requestedTime r.mtimeS r.mtimeNs inode.mtime with
      | none => ⟨.error .panicked,s.putInode r.ino {owned with atime := atime},[]⟩
      | some mtime =>
        let (sized,dropped) := resize r.size {owned with atime := atime, mtime := mtime}
        let final := {sized with ctime := host.now}
        ⟨.ok (buildAttr final),s.putInode r.ino final,fireDeleteBlocks s r.ino dropped⟩

/-- The inode a `create` (`kind = .file`) or a `mkdir` (`kind = .dir`) inserts. -/
def freshInode (host : Host) (r : CreateReq) (kind : InodeKind) (ino : InodeId) : Inode where
  ino := ino
  kind := kind
  mode := (if kind = .dir then 0o040000 else 0o100000) ||| (r.mode &&& 0o7777)
  uid := r.uid
  gid := r.gid
  size := if kind = .dir then 4096 else 0
  nlink := if kind = .dir then 2 else 1
  atime := host.now
  mtime := host.now
  ctime := host.now
  generation := 0
  blocks := ∅

def create (host : Host) (r : CreateReq) (s : MetaState) : Served CreateResp :=
  match s.dirs[r.parentIno]? with
  | none => ⟨refuse .notFound "parent not found",s,[]⟩
  | some dir =>
    if dir.contains r.name then ⟨refuse .alreadyExists "entry already exists",s,[]⟩
    else
      let (ino,s) := s.allocIno
      let inode := freshInode host r .file ino
      let s := s.putInode ino inode
      match s.dirs[r.parentIno]? with
      | none => ⟨.error .panicked,s,[]⟩
      | some dir =>
        let s := s.putDir r.parentIno (dir.insert r.name ino)
        let (fh,s) := s.allocFh
        let s := {s with openHandles := s.openHandles.insert fh ⟨fh,ino,0,0⟩}
        ⟨.ok ⟨buildAttr inode,fh,[]⟩,s,[]⟩

def mkdir (host : Host) (r : CreateReq) (s : MetaState) : Served Attr :=
  match s.dirs[r.parentIno]? with
  | none => ⟨refuse .notFound "parent not found",s,[]⟩
  | some dir =>
    if dir.contains r.name then ⟨refuse .alreadyExists "entry already exists",s,[]⟩
    else
      let (ino,s) := s.allocIno
      let inode := freshInode host r .dir ino
      let s := (s.putInode ino inode).putDir ino ∅
      match s.dirs[r.parentIno]? with
      | none => ⟨.error .panicked,s,[]⟩
      | some dir =>
        let s := s.putDir r.parentIno (dir.insert r.name ino)
        ⟨.ok (buildAttr inode),s.editNlink (· + 1) r.parentIno,[]⟩

def unlink (parentIno : InodeId) (name : String) (s : MetaState) : Served Unit :=
  match s.resolve parentIno name with
  | none => ⟨inodeNotFound,s,[]⟩
  | some child =>
    match s.inodes[child]? with
    | none => ⟨inodeNotFound,s,[]⟩
    | some inode =>
      if inode.kind = .dir then ⟨refuse .invalidArgument "is a directory",s,[]⟩
      else
        match s.dirs[parentIno]? with
        | none => ⟨.error .panicked,s,[]⟩
        | some dir =>
          let s := s.putDir parentIno (dir.erase name)
          let s := {s with inodes := s.inodes.erase child}
          ⟨.ok (),s,fireDeleteBlocks s child inode.blocks.toList⟩

def rmdir (parentIno : InodeId) (name : String) (s : MetaState) : Served Unit :=
  match s.resolve parentIno name with
  | none => ⟨inodeNotFound,s,[]⟩
  | some child =>
    match s.dirs[child]? with
    | none => ⟨refuse .invalidArgument "not a directory",s,[]⟩
    | some childDir =>
      if childDir.isEmpty then
        let s := {s with dirs := s.dirs.erase child, inodes := s.inodes.erase child}
        match s.dirs[parentIno]? with
        | none => ⟨.error .panicked,s,[]⟩
        | some dir =>
          let s := s.putDir parentIno (dir.erase name)
          ⟨.ok (),s.editNlink (· - 1) parentIno,[]⟩
      else ⟨refuse .failedPrecondition "directory not empty",s,[]⟩

/-- The part of `rename` that removes an existing destination: the fault or the
blocks of the replaced file, and the state left behind. -/
def removeDestination (r : RenameReq) (s : MetaState) :
    Except Fault (Option (InodeId × List (BlockIdx × BlockPlacement))) × MetaState :=
  match s.resolve r.dstParentIno r.dstName with
  | none => (.ok none,s)
  | some dst =>
    match s.inodes[dst]? with
    | none => (inodeNotFound,s)
    | some inode =>
      let empty : Bool := s.dirs[dst]?.elim true (·.isEmpty)
      if inode.kind = .dir ∧ empty = false then
        (refuse .failedPrecondition "destination directory not empty",s)
      else
        let cleared : MetaState := if inode.kind = .dir then
            MetaState.editNlink (· - 1) r.dstParentIno {s with dirs := s.dirs.erase dst}
          else s
        let gone : MetaState := {cleared with inodes := cleared.inodes.erase dst}
        match gone.dirs[r.dstParentIno]? with
        | none => (.error .panicked,gone)
        | some dir =>
          (.ok (if inode.kind = .file then some (dst,inode.blocks.toList) else none),
            gone.putDir r.dstParentIno (dir.erase r.dstName))

/-- The link-count change of `rename` when a directory changes its parent. -/
def adjustLinks (r : RenameReq) (src : InodeId) (s : MetaState) : MetaState :=
  if (s.inodes[src]?.map (·.kind)) = some .dir ∧ r.srcParentIno ≠ r.dstParentIno then
    (s.editNlink (· - 1) r.srcParentIno).editNlink (· + 1) r.dstParentIno
  else s

def rename (r : RenameReq) (s : MetaState) : Served Unit :=
  match s.resolve r.srcParentIno r.srcName with
  | none => ⟨inodeNotFound,s,[]⟩
  | some src =>
    match removeDestination r s with
    | (.error fault,s) => ⟨.error fault,s,[]⟩
    | (.ok replaced,s) =>
      match s.dirs[r.srcParentIno]? with
      | none => ⟨.error .panicked,s,[]⟩
      | some dir =>
        let s := s.putDir r.srcParentIno (dir.erase r.srcName)
        match s.dirs[r.dstParentIno]? with
        | none => ⟨refuse .notFound "dst parent not found",s,[]⟩
        | some dir =>
          let s := adjustLinks r src (s.putDir r.dstParentIno (dir.insert r.dstName src))
          ⟨.ok (),s,match replaced with
            | some (ino,blocks) => fireDeleteBlocks s ino blocks
            | none => []⟩

def readDir (r : ReadDirReq) (s : MetaState) : Except Fault ReadDirResp :=
  match s.dirs[r.ino]? with
  | none => refuse .notFound "directory not found"
  | some dir =>
    let cookie := (String.fromUTF8? r.cookie).getD ""
    let rest := if cookie = "" then dir.toList else dir.toList.filter (fun e => cookie < e.1)
    let page := if r.maxEntries = 0 then rest else rest.take r.maxEntries
    let entries := page.map fun (name,child) =>
      ⟨name,child,kindU32 ((s.inodes[child]?.map (·.kind)).getD .file)⟩
    .ok ⟨entries,
      match entries.getLast? with
      | some e => e.name.toUTF8
      | none => ByteArray.empty,
      r.maxEntries = 0 ∨ entries.length < r.maxEntries⟩

/-- What the first half of `open` reads under the read lock. -/
structure OpenSnapshot where
  ino : InodeId
  flags : Nat
  attr : Attr
  generation : Generation
  blockMap : List BlockLoc

def openRead (r : OpenReq) (s : MetaState) : Except Fault OpenSnapshot :=
  match s.inodes[r.ino]? with
  | none => inodeNotFound
  | some inode =>
    if inode.kind = .file then
      .ok ⟨r.ino,r.flags,buildAttr inode,inode.generation,
        inode.blocks.toList.map (fun (idx,p) => placementToBlockLoc idx p)⟩
    else refuse .invalidArgument "not a file"

/-- The second half of `open`, under the write lock. -/
def openInsert (snapshot : OpenSnapshot) (s : MetaState) : OpenResp × MetaState :=
  let (fh,s) := s.allocFh
  (⟨snapshot.attr,fh,snapshot.blockMap⟩,
    {s with openHandles := s.openHandles.insert fh ⟨fh,snapshot.ino,snapshot.flags,snapshot.generation⟩})

/-- `Duration::from_secs(60)`. -/
def skewTolerance : SystemTime := 60000000000

/-- The inode a publish leaves behind. -/
def publishedInode (host : Host) (r : CloseReq) (requested : SystemTime) (inode : Inode) : Inode :=
  {inode with
    generation := Generation.bump inode.generation
    size := r.newSize
    mtime := max requested (host.now - skewTolerance)
    ctime := host.now}

def close (host : Host) (r : CloseReq) (s : MetaState) : Served Attr :=
  match s.openHandles[r.fh]? with
  | none => ⟨refuse .notFound "file handle not found",s,[]⟩
  | some handle =>
    -- The handle leaves the table before anything else is checked.
    let s := {s with openHandles := s.openHandles.erase r.fh}
    match s.inodes[handle.ino]? with
    | none => ⟨inodeNotFound,s,[]⟩
    | some inode =>
      if r.writtenBlockIdxs.isEmpty then ⟨.ok (buildAttr inode),s,[]⟩
      else if inode.generation ≠ r.expectedGeneration then
        ⟨refuse .failedPrecondition "generation mismatch",s,[]⟩
      else
        match epochPlus (max r.mtimeS 0).toNat r.mtimeNs with
        | none => ⟨.error .panicked,s,[]⟩
        | some requested =>
          match s.inodes[handle.ino]? with
          | none => ⟨.error .panicked,s,[]⟩
          | some inode =>
            let final := publishedInode host r requested inode
            ⟨.ok (buildAttr final),s.putInode handle.ino final,[]⟩

/-- `blocks.insert` of a new placement, behind the `unwrap` of the inode. -/
def insertPlacement (ino : InodeId) (acc : Except Fault (List BlockLoc) × MetaState)
    (new : BlockIdx × BlockPlacement) : Except Fault (List BlockLoc) × MetaState :=
  match acc with
  | (.error fault,s) => (.error fault,s)
  | (.ok locs,s) =>
    match s.inodes[ino]? with
    | none => (.error .panicked,s)
    | some inode =>
      (.ok (locs ++ [placementToBlockLoc new.1 new.2]),
        s.putInode ino {inode with blocks := inode.blocks.insert new.1 new.2})

/-- The loop body of `allocate_blocks`: a placed index keeps its placement, any
other one is placed now. -/
def allocateOne (host : Host) (ino : InodeId) (acc : Except Fault (List BlockLoc) × MetaState)
    (idx : BlockIdx) : Except Fault (List BlockLoc) × MetaState :=
  match acc with
  | (.error fault,s) => (.error fault,s)
  | (.ok locs,s) =>
    match s.inodes[ino]?.bind (fun inode => inode.blocks[idx]?) with
    | some p => (.ok (locs ++ [placementToBlockLoc idx p]),s)
    | none => (s.allocateBlocks host ino [idx]).foldl (insertPlacement ino) (.ok locs,s)

def allocateBlocks (host : Host) (ino : InodeId) (idxs : List BlockIdx) (s : MetaState) :
    Served (List BlockLoc) :=
  if s.inodes.contains ino then
    let (reply,s) := idxs.foldl (allocateOne host ino) (.ok [],s)
    ⟨reply,s,[]⟩
  else ⟨inodeNotFound,s,[]⟩

def heartbeatNode (host : Host) (instant : Nat) (r : HeartbeatReq) (s : MetaState) :
    List NodeInfo × MetaState :=
  let s := {s with
    nodes := s.nodes.insert r.nodeId ⟨r.nodeId,r.addr,r.usedBytes,r.capacityBytes,.up⟩
    lastHeartbeat := s.lastHeartbeat.insert r.nodeId instant}
  (host.arrange s.nodeValues,s)

def listNodes (host : Host) (s : MetaState) : List NodeInfo :=
  (host.arrange s.nodeValues).filter (fun n => n.status = .up)

/-- The requests of the metadata server, and the ticks of its heartbeat watcher.
`open` is served as a whole or, since it takes its two locks one after the other,
as `openInsert` of whatever its first half has read. -/
inductive Call where
  | lookup (parentIno : InodeId) (name : String)
  | getAttr (ino : InodeId)
  | setAttr (r : SetAttrReq)
  | create (r : CreateReq)
  | mkdir (r : CreateReq)
  | unlink (parentIno : InodeId) (name : String)
  | rmdir (parentIno : InodeId) (name : String)
  | rename (r : RenameReq)
  | readDir (r : ReadDirReq)
  | open (r : OpenReq)
  | openInsert (snapshot : OpenSnapshot)
  | close (r : CloseReq)
  | allocateBlocks (ino : InodeId) (idxs : List BlockIdx)
  | heartbeatNode (instant : Nat) (r : HeartbeatReq)
  | listNodes
  | watcherTick (now deadAfter : Nat)

/-- The state one call leaves behind. -/
def serve (host : Host) (call : Call) (s : MetaState) : MetaState :=
  match call with
  | .lookup .. | .getAttr _ | .readDir _ | .listNodes => s
  | .setAttr r => (setAttr host r s).state
  | .create r => (create host r s).state
  | .mkdir r => (mkdir host r s).state
  | .unlink parentIno name => (unlink parentIno name s).state
  | .rmdir parentIno name => (rmdir parentIno name s).state
  | .rename r => (rename r s).state
  | .open r =>
    match openRead r s with
    | .ok snapshot => (openInsert snapshot s).2
    | .error _ => s
  | .openInsert snapshot => (openInsert snapshot s).2
  | .close r => (close host r s).state
  | .allocateBlocks ino idxs => (allocateBlocks host ino idxs s).state
  | .heartbeatNode instant r => (heartbeatNode host instant r s).2
  | .watcherTick now deadAfter => s.watcherTick now deadAfter

/-- The `DeleteBlock` messages a call fires. -/
def fired (host : Host) (call : Call) (s : MetaState) : List DeleteBlock :=
  match call with
  | .setAttr r => (setAttr host r s).deletes
  | .unlink parentIno name => (unlink parentIno name s).deletes
  | .rename r => (rename r s).deletes
  | _ => []

/-- Requests that touch no handle: those a client sends as they are, heartbeats of
stores, and ticks of the watcher. -/
def Call.plain : Call → Bool
  | .lookup .. | .getAttr _ | .setAttr _ | .mkdir _ | .unlink .. | .rmdir .. | .rename _ | .readDir _
  | .heartbeatNode .. | .listNodes | .watcherTick .. => true
  | .create _ | .open _ | .openInsert _ | .close _ | .allocateBlocks .. => false

/-- The state after a sequence of calls, each with its own view of the host. -/
def run (calls : List (Host × Call)) (s : MetaState) : MetaState :=
  calls.foldl (fun s call => serve call.1 call.2 s) s

end MetaService

end Dtmpfs
