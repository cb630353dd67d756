import Dtmpfs.Cluster
import Dtmpfs.Allocation

/-! What each step of the cluster does when it is enabled. -/
namespace Dtmpfs
open MetaService OrderedMap

namespace StoreState

theorem writeBlock_cases (key : BlockKey) (data : Bytes) (s : StoreState) :
    (∃ status, s.writeBlock key data = (.error status,s)) ∨
      s.writeBlock key data = (.ok data.length,s.insertBlock key data) := by
  unfold writeBlock
  split
  · exact .inl ⟨_,rfl⟩
  · split
    · exact .inl ⟨_,rfl⟩
    · exact .inr rfl

theorem insertBlock_get (key other : BlockKey) (data : Bytes) (s : StoreState) :
    (s.insertBlock key data).blocks[other]? = if key = other then some data else s.blocks[other]? := by
  simp only [insertBlock,get_insert]

theorem deleteBlock_get (key other : BlockKey) (s : StoreState) :
    (s.deleteBlock key).blocks[other]? = if key = other then none else s.blocks[other]? := by
  simp only [deleteBlock,get_erase]

end StoreState

namespace Cluster

variable {bs : Nat} {c : ClientId} {σ τ : Cluster}

/-- The block a store holds for `(f, idx)`, the only generation used being 0. -/
def slot (σ : Cluster) (node : NodeId) (f : InodeId) (idx : BlockIdx) : Option Bytes :=
  (σ.stores node).blocks[(⟨f,idx,0⟩ : BlockKey)]?

@[simp] theorem setClient_same (σ : Cluster) (c : ClientId) (client : Client) :
    (σ.setClient c client).clients c = client := if_pos rfl

theorem setClient_other (σ : Cluster) {c other : ClientId} (client : Client) (apart : other ≠ c) :
    (σ.setClient c client).clients other = σ.clients other := if_neg apart

theorem setStore_stores (σ : Cluster) (node other : NodeId) (store : StoreState) :
    (σ.setStore node store).stores other = if other = node then store else σ.stores other := rfl

theorem create_steps {host : Host} {r : CreateReq} {flags : Nat} (made : create c host r flags σ = some τ) :
    (σ.clients c).task = none ∧
    ((τ = σ ∧ ∃ fault, (MetaService.create host r σ.metadata).reply = .error fault) ∨
      (MetaService.create host r σ.metadata).reply = .ok
          ⟨buildAttr (freshInode host r .file σ.metadata.nextIno),σ.metadata.nextFh,[]⟩ ∧
      τ = setClient {σ with metadata := (MetaService.create host r σ.metadata).state} c
        (installed (σ.clients c) σ.metadata.nextFh
          (buildOpenFile σ.metadata.nextIno (buildAttr (freshInode host r .file σ.metadata.nextIno)) [] flags))) := by
  unfold create at made
  split at made
  · cases made
  next idle =>
    refine ⟨idle,?_⟩
    rcases create_cases host r σ.metadata with ⟨_,_,failed⟩ | ⟨dir,_,_,served⟩
    · simp only [failed] at made
      exact .inl ⟨(Option.some.inj made).symm,_,by rw [failed]⟩
    · simp only [served] at made
      rw [served]
      exact .inr ⟨rfl,(Option.some.inj made).symm⟩

theorem openRead_steps {r : OpenReq} (opened : openRead c r σ = some τ) :
    (σ.clients c).task = none ∧
    (τ = σ ∨ ∃ snapshot, MetaService.openRead r σ.metadata = .ok snapshot ∧
      τ = σ.setClient c {σ.clients c with task := some (.opening snapshot)}) := by
  unfold openRead at opened
  split at opened
  · cases opened
  next idle =>
    refine ⟨idle,?_⟩
    split at opened
    · exact .inl (Option.some.inj opened).symm
    next snapshot read => exact .inr ⟨snapshot,read,(Option.some.inj opened).symm⟩

/-- The file a client builds from what `Meta.Open` read. -/
def snapshotFile (snapshot : OpenSnapshot) : OpenFile :=
  buildOpenFile snapshot.ino snapshot.attr snapshot.blockMap snapshot.flags

theorem openInsert_steps (opened : openInsert c σ = some τ) :
    ∃ snapshot, (σ.clients c).task = some (.opening snapshot) ∧
      τ = setClient {σ with metadata := (MetaService.openInsert snapshot σ.metadata).2} c
        (installed (σ.clients c) σ.metadata.nextFh (snapshotFile snapshot)) := by
  unfold openInsert at opened
  split at opened
  next snapshot task => exact ⟨snapshot,task,(Option.some.inj opened).symm⟩
  next => cases opened

theorem fetch_steps {fh : Fh} {idx : BlockIdx} {up : NodeId → Bool} (fetched : fetch bs c fh idx up σ = some τ) :
    ∃ file, (σ.clients c).task = none ∧ (σ.clients c).openFiles[fh]? = some file ∧
      τ = σ.setClient c {σ.clients c with
        blockCache := (file.fetchBlock bs (σ.answer up file.ino) idx (σ.clients c).blockCache).2} := by
  unfold fetch at fetched
  split at fetched
  next file idle found => exact ⟨file,idle,found,(Option.some.inj fetched).symm⟩
  next => cases fetched

theorem write_steps {fh : Fh} {offset : Nat} {data : Bytes} (written : write c fh offset data σ = some τ) :
    ∃ file, (σ.clients c).task = none ∧ (σ.clients c).openFiles[fh]? = some file ∧ data ≠ [] ∧
      τ = σ.setClient c {σ.clients c with task := some (.writing fh offset data 0)} := by
  unfold write at written
  split at written
  next file idle found =>
    split at written
    · cases written
    next some_ => exact ⟨file,idle,found,some_,(Option.some.inj written).symm⟩
  next => cases written

/-- A round of `apply_write` fails, goes on, or is the last one. -/
theorem chunk_steps {up : NodeId → Bool} (round : chunk bs c up σ = some τ) :
    ∃ fh offset data done file, (σ.clients c).task = some (.writing fh offset data done) ∧
      (σ.clients c).openFiles[fh]? = some file ∧
      let result := file.writeChunk bs (σ.answer up file.ino) offset data done (σ.clients c).blockCache
      (((∃ e, result.1 = .error e) ∧
        τ = σ.setClient c {σ.clients c with blockCache := result.2, task := none}) ∨
      (∃ file' done', result.1 = .ok (file',done') ∧ done' < data.length ∧
        τ = σ.setClient c ⟨(σ.clients c).openFiles.insert fh file',result.2,some (.writing fh offset data done')⟩) ∨
      (∃ file' done', result.1 = .ok (file',done') ∧ ¬ done' < data.length ∧
        τ = σ.setClient c
          ⟨(σ.clients c).openFiles.insert fh (file'.growTo (offset + data.length)),result.2,none⟩)) := by
  unfold chunk at round
  split at round
  next fh offset data done task =>
    split at round
    · cases round
    next file found =>
      refine ⟨fh,offset,data,done,file,task,found,?_⟩
      dsimp only
      split at round
      next e cache failed =>
        rw [failed]
        exact .inl ⟨⟨e,rfl⟩,(Option.some.inj round).symm⟩
      next file' done' cache wrote =>
        rw [wrote]
        split at round
        next more => exact .inr (.inl ⟨file',done',rfl,more,(Option.some.inj round).symm⟩)
        next last => exact .inr (.inr ⟨file',done',rfl,last,(Option.some.inj round).symm⟩)
  next => cases round

/-- The indices `publish` asks placements for. -/
def newIdxs (file : OpenFile) : List BlockIdx := file.dirty.keys.filter (fun idx => !file.blockMap.contains idx)

/-- The reply `publish` gets for its new indices, if it has any. -/
def allocated (host : Host) (file : OpenFile) (s : MetaState) : Served (List BlockLoc) :=
  if (newIdxs file).isEmpty then ⟨.ok [],s,[]⟩ else MetaService.allocateBlocks host file.ino (newIdxs file) s

/-- The client once `publish` has taken the dirty blocks. -/
def publishing (client : Client) (fh : Fh) (wait : WaitPolicy) (file : OpenFile)
    (blockMap : Map BlockIdx BlockPlacement) : Client :=
  {client with
    openFiles := client.openFiles.insert fh {file with blockMap := blockMap, dirty := ∅}
    task := some (.publishing ⟨fh,wait,file.ino,file.generation,blockMap,file.dirty,∅⟩)}

theorem publish_dirty {fh : Fh} {wait : WaitPolicy} {host : Host} {file : OpenFile} (idle : (σ.clients c).task = none)
    (found : (σ.clients c).openFiles[fh]? = some file) (dirty : file.dirty.isEmpty = false) :
    publish c fh wait host σ = match (allocated host file σ.metadata).reply with
      | .error _ => some {σ with metadata := (allocated host file σ.metadata).state}
      | .ok locs => some (setClient {σ with metadata := (allocated host file σ.metadata).state} c
          (publishing (σ.clients c) fh wait file (insertLocs file.blockMap locs))) := by
  unfold publish
  rw [idle,found]
  dsimp only
  rw [if_neg (by rw [dirty]; exact Bool.false_ne_true)]
  rfl

theorem publish_steps {fh : Fh} {wait : WaitPolicy} {host : Host} (begun : publish c fh wait host σ = some τ) :
    ∃ file, (σ.clients c).task = none ∧ (σ.clients c).openFiles[fh]? = some file ∧
      ((file.dirty.isEmpty = true ∧ τ = σ) ∨
      (file.dirty.isEmpty = false ∧ (∃ fault, (allocated host file σ.metadata).reply = .error fault) ∧
        τ = {σ with metadata := (allocated host file σ.metadata).state}) ∨
      (file.dirty.isEmpty = false ∧ ∃ locs, (allocated host file σ.metadata).reply = .ok locs ∧
        τ = setClient {σ with metadata := (allocated host file σ.metadata).state} c
          (publishing (σ.clients c) fh wait file (insertLocs file.blockMap locs)))) := by
  have started := begun
  unfold publish at begun
  split at begun
  next file idle found =>
    refine ⟨file,idle,found,?_⟩
    split at begun
    next clean => exact .inl ⟨clean,(Option.some.inj begun).symm⟩
    next dirty =>
      have some_ : file.dirty.isEmpty = false := by simpa using dirty
      rw [publish_dirty idle found some_] at started
      split at started
      next fault failed => exact .inr (.inl ⟨some_,⟨fault,failed⟩,(Option.some.inj started).symm⟩)
      next locs told => exact .inr (.inr ⟨some_,locs,told,(Option.some.inj started).symm⟩)
  next => cases begun

theorem send_steps {idx : BlockIdx} (sent : send c idx σ = some τ) :
    ∃ p data placement node, (σ.clients c).task = some (.publishing p) ∧ p.dirty[idx]? = some data ∧
      p.blockMap[idx]? = some placement ∧ p.ackedAt idx < p.awaited idx ∧
      placement.nodes[p.ackedAt idx]? = some node ∧ σ.metadata.nodes.contains node = true ∧
      τ = {(σ.setStore node ((σ.stores node).insertBlock ⟨p.ino,idx,0⟩ data)).setClient c
          {σ.clients c with task := some (.publishing (p.ack idx))} with
        writes := σ.writes ++ p.background idx placement data} := by
  unfold send at sent
  split at sent
  next p task =>
    split at sent
    next data placement dirty placed =>
      split at sent
      next waiting =>
        split at sent
        · cases sent
        next node chosen =>
          split at sent
          next known =>
            refine ⟨p,data,placement,node,task,dirty,placed,waiting,chosen,known,?_⟩
            rcases StoreState.writeBlock_cases ⟨p.ino,idx,0⟩ data (σ.stores node) with ⟨_,refused⟩ | accepted
            · rw [refused] at sent
              cases sent
            · rw [accepted] at sent
              exact (Option.some.inj sent).symm
          next => cases sent
      next => cases sent
    next => cases sent
  next => cases sent

/-- The `WriteBlock` of a send has been accepted by the store. -/
theorem send_accepts {idx : BlockIdx} (sent : send c idx σ = some τ) {p : Publish} {data : Bytes} {placement : BlockPlacement} {node : NodeId}
    (task : (σ.clients c).task = some (.publishing p)) (dirty : p.dirty[idx]? = some data) (placed : p.blockMap[idx]? = some placement)
    (chosen : placement.nodes[p.ackedAt idx]? = some node) :
    ∃ size, (σ.stores node).writeBlock ⟨p.ino,idx,0⟩ data = (.ok size,(σ.stores node).insertBlock ⟨p.ino,idx,0⟩ data) := by
  obtain ⟨_,_,_,_,task',_,placed',waiting,chosen',known,_⟩ := send_steps sent
  rw [task] at task'
  cases task'
  rw [placed] at placed'
  cases placed'
  rw [chosen] at chosen'
  cases chosen'
  rcases StoreState.writeBlock_cases ⟨p.ino,idx,0⟩ data (σ.stores node) with ⟨status,refused⟩ | accepted
  · simp only [send,task,dirty,placed,waiting,chosen,known,if_true,refused] at sent
    cases sent
  · exact ⟨_,accepted⟩

theorem close_steps {host : Host} {clock : SystemTime} (closed : close c host clock σ = some τ) :
    ∃ p file, (σ.clients c).task = some (.publishing p) ∧ (σ.clients c).openFiles[p.fh]? = some file ∧
      p.finished = true ∧ clock < 10^9 * 2^63 ∧
      let served := MetaService.close host (closeReq p file.sizeHint clock) σ.metadata
      τ = setClient {σ with metadata := served.state} c (settled (σ.clients c) p.fh file served.reply) := by
  unfold close at closed
  split at closed
  next p task =>
    split at closed
    · cases closed
    next file found =>
      split at closed
      next ready => exact ⟨p,file,task,found,ready.1,ready.2,(Option.some.inj closed).symm⟩
      next => cases closed
  next => cases closed

theorem abort_steps {stray : List BlockIdx} (aborted : abort c stray σ = some τ) :
    ∃ p, (σ.clients c).task = some (.publishing p) ∧
      τ = {σ.setClient c {σ.clients c with task := none} with writes := σ.writes ++ stray.filterMap (nextWrite p)} := by
  unfold abort at aborted
  split at aborted
  next p task => exact ⟨p,task,(Option.some.inj aborted).symm⟩
  next => cases aborted

theorem release_steps {fh : Fh} (released : release c fh σ = some τ) :
    (σ.clients c).task = none ∧
      τ = σ.setClient c {σ.clients c with openFiles := (σ.clients c).openFiles.erase fh} := by
  unfold release at released
  split at released
  next idle _ =>
    split at released
    · exact ⟨idle,(Option.some.inj released).symm⟩
    · cases released
  next => cases released

theorem deliver_steps {message : WriteBlock} (delivered : deliver message σ = some τ) :
    message ∈ σ.writes ∧ ∃ store, (store = σ.stores message.node ∨
        store = (σ.stores message.node).insertBlock message.key message.data) ∧
      τ = {σ.setStore message.node store with writes := σ.writes.erase message} := by
  unfold deliver at delivered
  split at delivered
  next waiting =>
    refine ⟨waiting,_,?_,(Option.some.inj delivered).symm⟩
    rcases StoreState.writeBlock_cases message.key message.data (σ.stores message.node) with ⟨_,refused⟩ | accepted
    · exact .inl (by rw [refused])
    · exact .inr (by rw [accepted])
  next => cases delivered

theorem lose_steps {message : WriteBlock} (lost : lose message σ = some τ) :
    message ∈ σ.writes ∧ τ = {σ with writes := σ.writes.erase message} := by
  unfold lose at lost
  split at lost
  next waiting => exact ⟨waiting,(Option.some.inj lost).symm⟩
  next => cases lost

theorem deliverDelete_steps {message : DeleteBlock} (delivered : deliverDelete message σ = some τ) :
    message ∈ σ.deletes ∧
      τ = {σ.setStore message.node ((σ.stores message.node).deleteBlock message.key) with
        deletes := σ.deletes.erase message} := by
  unfold deliverDelete at delivered
  split at delivered
  next waiting => exact ⟨waiting,(Option.some.inj delivered).symm⟩
  next => cases delivered

theorem loseDelete_steps {message : DeleteBlock} (lost : loseDelete message σ = some τ) :
    message ∈ σ.deletes ∧ τ = {σ with deletes := σ.deletes.erase message} := by
  unfold loseDelete at lost
  split at lost
  next waiting => exact ⟨waiting,(Option.some.inj lost).symm⟩
  next => cases lost

theorem call_steps {host : Host} {request : Call} (served : call host request σ = some τ) :
    request.plain = true ∧ τ = {σ with
      metadata := serve host request σ.metadata
      deletes := σ.deletes ++ fired host request σ.metadata} := by
  unfold call at served
  split at served
  next plain => exact ⟨plain,(Option.some.inj served).symm⟩
  next => cases served

/-- The node a read is answered by, and the answer. -/
theorem tryNodes_answer {up : NodeId → Bool} {f : InodeId} {idx : BlockIdx} (nodes : List NodeId) (last : DtmpfsError)
    {bytes : Bytes} {cached : Bool} (asked : OpenFile.tryNodes bs (σ.answer up f idx) nodes last = .ok (bytes,cached)) :
    ∃ node, nodes.find? (fun n => up n && σ.metadata.nodes.contains n) = some node ∧
      (σ.slot node f idx = some bytes ∨ (σ.slot node f idx = none ∧ bytes = zeros bs)) := by
  induction nodes generalizing last with
  | nil => cases asked
  | cons node rest ih =>
    simp only [OpenFile.tryNodes,answer] at asked
    by_cases reached : up node = true ∧ σ.metadata.nodes.contains node = true
    · refine ⟨node,by simp [List.find?,reached],?_⟩
      rw [if_pos reached] at asked
      cases held : (σ.stores node).blocks[(⟨f,idx,0⟩ : BlockKey)]? with
      | some data =>
        simp only [StoreState.readBlock,held,Except.ok.injEq,Prod.mk.injEq] at asked
        exact .inl (held.trans (congrArg some asked.1))
      | none =>
        simp only [StoreState.readBlock,held,Except.ok.injEq,Prod.mk.injEq] at asked
        exact .inr ⟨held,asked.1.symm⟩
    · rw [if_neg reached] at asked
      obtain ⟨found,where_,answered⟩ := ih _ asked
      refine ⟨found,?_,answered⟩
      have skipped : (up node && σ.metadata.nodes.contains node) = false := by
        rw [Bool.and_eq_false_iff]
        by_contra both
        simp only [not_or,Bool.not_eq_false] at both
        exact reached both
      rw [List.find?_cons,skipped]
      exact where_

/-- With a reachable node in the list, a read is answered. -/
theorem tryNodes_reached {up : NodeId → Bool} {f : InodeId} {idx : BlockIdx} (nodes : List NodeId) (last : DtmpfsError)
    {node : NodeId} (listed : node ∈ nodes) (reached : up node = true ∧ σ.metadata.nodes.contains node = true) :
    ∃ result, OpenFile.tryNodes bs (σ.answer up f idx) nodes last = .ok result := by
  induction nodes generalizing last with
  | nil => cases listed
  | cons head rest ih =>
    simp only [OpenFile.tryNodes]
    split
    · exact ⟨_,rfl⟩
    · exact ⟨_,rfl⟩
    all_goals
      next silent =>
        refine ih _ ?_
        rcases List.mem_cons.mp listed with same | later
        · subst same
          simp only [answer,if_pos reached] at silent
          split at silent <;> cases silent
        · exact later

theorem run_append (first second : List Label) (σ : Cluster) :
    run bs (first ++ second) σ = (run bs first σ).bind (run bs second) := by
  induction first generalizing σ with
  | nil => rfl
  | cons label rest ih =>
    simp only [List.cons_append,run,Option.bind_assoc]
    congr
    funext τ
    exact ih τ

/-- What a step makes of the one client that takes it. -/
inductive Turn (bs : Nat) (σ : Cluster) : Label → ClientId → Client → Prop
  | created (c : ClientId) (host : Host) (r : CreateReq) (flags : Nat) (idle : (σ.clients c).task = none) :
    Turn bs σ (.create c host r flags) c (installed (σ.clients c) σ.metadata.nextFh
      (buildOpenFile σ.metadata.nextIno (buildAttr (freshInode host r .file σ.metadata.nextIno)) [] flags))
  | opening (c : ClientId) (r : OpenReq) (snapshot : OpenSnapshot) (idle : (σ.clients c).task = none)
    (read : MetaService.openRead r σ.metadata = .ok snapshot) :
    Turn bs σ (.openRead c r) c {σ.clients c with task := some (.opening snapshot)}
  | opened (c : ClientId) (snapshot : OpenSnapshot) (task : (σ.clients c).task = some (.opening snapshot)) :
    Turn bs σ (.openInsert c) c (installed (σ.clients c) σ.metadata.nextFh (snapshotFile snapshot))
  | fetched (c : ClientId) (fh : Fh) (idx : BlockIdx) (up : NodeId → Bool) (handle : OpenFile) (idle : (σ.clients c).task = none)
    (found : (σ.clients c).openFiles[fh]? = some handle) :
    Turn bs σ (.fetch c fh idx up) c {σ.clients c with
      blockCache := (handle.fetchBlock bs (σ.answer up handle.ino) idx (σ.clients c).blockCache).2}
  | writing (c : ClientId) (fh : Fh) (offset : Nat) (data : Bytes) (idle : (σ.clients c).task = none) :
    Turn bs σ (.write c fh offset data) c {σ.clients c with task := some (.writing fh offset data 0)}
  | stopped (c : ClientId) (up : NodeId → Bool) (fh : Fh) (offset : Nat) (data : Bytes) (done : Nat) (handle : OpenFile)
    (task : (σ.clients c).task = some (.writing fh offset data done)) (found : (σ.clients c).openFiles[fh]? = some handle) :
    Turn bs σ (.chunk c up) c {σ.clients c with
      blockCache := (handle.writeChunk bs (σ.answer up handle.ino) offset data done (σ.clients c).blockCache).2, task := none}
  | wrote (c : ClientId) (up : NodeId → Bool) (fh : Fh) (offset : Nat) (data : Bytes) (done : Nat) (handle handle' : OpenFile)
    (left : Option Task) (task : (σ.clients c).task = some (.writing fh offset data done))
    (found : (σ.clients c).openFiles[fh]? = some handle) (ino : handle'.ino = handle.ino)
    (generation : handle'.generation = handle.generation) (blockMap : handle'.blockMap = handle.blockMap)
    (rest : left = none ∨ ∃ done', left = some (.writing fh offset data done')) :
    Turn bs σ (.chunk c up) c ⟨(σ.clients c).openFiles.insert fh handle',
      (handle.writeChunk bs (σ.answer up handle.ino) offset data done (σ.clients c).blockCache).2,left⟩
  | begun (c : ClientId) (fh : Fh) (wait : WaitPolicy) (host : Host) (handle : OpenFile) (locs : List BlockLoc)
    (idle : (σ.clients c).task = none) (found : (σ.clients c).openFiles[fh]? = some handle) :
    Turn bs σ (.publish c fh wait host) c (publishing (σ.clients c) fh wait handle (insertLocs handle.blockMap locs))
  | sent (c : ClientId) (idx : BlockIdx) (p : Publish) (task : (σ.clients c).task = some (.publishing p)) :
    Turn bs σ (.send c idx) c {σ.clients c with task := some (.publishing (p.ack idx))}
  | closed (c : ClientId) (host : Host) (clock : SystemTime) (p : Publish) (handle : OpenFile) (reply : Except Fault Attr)
    (task : (σ.clients c).task = some (.publishing p)) (found : (σ.clients c).openFiles[p.fh]? = some handle) :
    Turn bs σ (.close c host clock) c (settled (σ.clients c) p.fh handle reply)
  | aborted (c : ClientId) (stray : List BlockIdx) : Turn bs σ (.abort c stray) c {σ.clients c with task := none}
  | released (c : ClientId) (fh : Fh) (idle : (σ.clients c).task = none) :
    Turn bs σ (.release c fh) c {σ.clients c with openFiles := (σ.clients c).openFiles.erase fh}
  | evicted (c : ClientId) (keep : BlockKey → Bool) :
    Turn bs σ (.evict c keep) c {σ.clients c with blockCache := (σ.clients c).blockCache.filter (fun key _ => keep key)}

theorem turn_setClient {label : Label} (other : ClientId) {υ : Cluster} {client : Client} (clients : υ.clients = σ.clients)
    (turn : Turn bs σ label c client) :
    (υ.setClient c client).clients other = σ.clients other ∨ Turn bs σ label other ((υ.setClient c client).clients other) := by
  rcases Classical.em (other = c) with rfl | apart
  · right
    rw [setClient_same]
    exact turn
  · left
    rw [setClient_other υ client apart,clients]

theorem step_turn {label : Label} (stepped : step bs label σ = some τ) (other : ClientId) :
    τ.clients other = σ.clients other ∨ Turn bs σ label other (τ.clients other) := by
  cases label with
  | call host request =>
    obtain ⟨_,rfl⟩ := call_steps stepped
    exact .inl rfl
  | create c host r flags =>
    obtain ⟨idle,⟨rfl,_⟩ | ⟨_,rfl⟩⟩ := create_steps stepped
    · exact .inl rfl
    · exact turn_setClient other rfl (.created c host r flags idle)
  | openRead c r =>
    obtain ⟨idle,rfl | ⟨snapshot,read,rfl⟩⟩ := openRead_steps stepped
    · exact .inl rfl
    · exact turn_setClient other rfl (.opening c r snapshot idle read)
  | openInsert c =>
    obtain ⟨snapshot,task,rfl⟩ := openInsert_steps stepped
    exact turn_setClient other rfl (.opened c snapshot task)
  | fetch c fh idx up =>
    obtain ⟨handle,idle,found,rfl⟩ := fetch_steps stepped
    exact turn_setClient other rfl (.fetched c fh idx up handle idle found)
  | write c fh offset data =>
    obtain ⟨_,idle,_,_,rfl⟩ := write_steps stepped
    exact turn_setClient other rfl (.writing c fh offset data idle)
  | chunk c up =>
    obtain ⟨fh,offset,data,done,handle,task,found,outcome⟩ := chunk_steps stepped
    have kept (handle' : OpenFile) (done' : Nat) (ok : (handle.writeChunk bs (σ.answer up handle.ino) offset data done
        (σ.clients c).blockCache).1 = .ok (handle',done')) :
        handle'.ino = handle.ino ∧ handle'.generation = handle.generation ∧ handle'.blockMap = handle.blockMap := by
      rcases (OpenFile.writeChunk_cases bs (σ.answer up handle.ino) handle offset data done (σ.clients c).blockCache).2 with
        ⟨_,failed⟩ | ⟨buf,same,_⟩
      · rw [failed] at ok
        cases ok
      · rw [same] at ok
        cases ok
        exact ⟨rfl,rfl,rfl⟩
    rcases outcome with ⟨_,rfl⟩ | ⟨handle',done',ok,_,rfl⟩ | ⟨handle',done',ok,_,rfl⟩
    · exact turn_setClient other rfl (.stopped c up fh offset data done handle task found)
    · obtain ⟨ino,generation,blockMap⟩ := kept handle' done' ok
      exact turn_setClient other rfl
        (.wrote c up fh offset data done handle handle' _ task found ino generation blockMap (.inr ⟨done',rfl⟩))
    · obtain ⟨ino,generation,blockMap⟩ := kept handle' done' ok
      exact turn_setClient other rfl
        (.wrote c up fh offset data done handle _ none task found ino generation blockMap (.inl rfl))
  | publish c fh wait host =>
    obtain ⟨handle,idle,found,⟨_,rfl⟩ | ⟨_,_,rfl⟩ | ⟨_,locs,_,rfl⟩⟩ := publish_steps stepped
    · exact .inl rfl
    · exact .inl rfl
    · exact turn_setClient other rfl (.begun c fh wait host handle locs idle found)
  | send c idx =>
    obtain ⟨p,data,placement,node,task,_,_,_,_,_,rfl⟩ := send_steps stepped
    exact turn_setClient (υ := σ.setStore node _) other rfl (.sent c idx p task)
  | close c host clock =>
    obtain ⟨p,handle,task,found,_,_,rfl⟩ := close_steps stepped
    exact turn_setClient other rfl (.closed c host clock p handle _ task found)
  | abort c stray =>
    obtain ⟨p,_,rfl⟩ := abort_steps stepped
    exact turn_setClient (υ := σ) other rfl (.aborted c stray)
  | release c fh =>
    obtain ⟨idle,rfl⟩ := release_steps stepped
    exact turn_setClient other rfl (.released c fh idle)
  | evict c keep =>
    cases Option.some.inj stepped
    exact turn_setClient other rfl (.evicted c keep)
  | deliver message =>
    obtain ⟨_,_,_,rfl⟩ := deliver_steps stepped
    exact .inl rfl
  | lose message =>
    obtain ⟨_,rfl⟩ := lose_steps stepped
    exact .inl rfl
  | deliverDelete message =>
    obtain ⟨_,rfl⟩ := deliverDelete_steps stepped
    exact .inl rfl
  | loseDelete message =>
    obtain ⟨_,rfl⟩ := loseDelete_steps stepped
    exact .inl rfl
  | restart node =>
    cases Option.some.inj stepped
    exact .inl rfl

/-- How a step gives a client its task. -/
inductive Busy (σ : Cluster) (c : ClientId) : Label → Task → Prop
  | opening (r : OpenReq) (snapshot : OpenSnapshot) (read : MetaService.openRead r σ.metadata = .ok snapshot) :
    Busy σ c (.openRead c r) (.opening snapshot)
  | writing (fh : Fh) (offset : Nat) (data : Bytes) : Busy σ c (.write c fh offset data) (.writing fh offset data 0)
  | wrote (up : NodeId → Bool) (fh : Fh) (offset : Nat) (data : Bytes) (done done' : Nat)
    (before : (σ.clients c).task = some (.writing fh offset data done)) : Busy σ c (.chunk c up) (.writing fh offset data done')
  | begun (fh : Fh) (wait : WaitPolicy) (host : Host) (handle : OpenFile) (blockMap : Map BlockIdx BlockPlacement)
    (found : (σ.clients c).openFiles[fh]? = some handle) :
    Busy σ c (.publish c fh wait host) (.publishing ⟨fh,wait,handle.ino,handle.generation,blockMap,handle.dirty,∅⟩)
  | sent (idx : BlockIdx) (p : Publish) (before : (σ.clients c).task = some (.publishing p)) :
    Busy σ c (.send c idx) (.publishing (p.ack idx))

/-- What a client is busy with after a step, it was busy with before, or the step has
made it so. -/
theorem step_task {label : Label} {task : Task} (stepped : step bs label σ = some τ) (busy : (τ.clients c).task = some task) :
    (σ.clients c).task = some task ∨ Busy σ c label task := by
  rcases step_turn stepped c with same | turn
  · rw [same] at busy
    exact .inl busy
  · generalize τ.clients c = client at turn busy
    cases turn with
    | opening _ r snapshot idle read =>
      cases busy
      exact .inr (.opening r snapshot read)
    | writing _ fh offset data idle =>
      cases busy
      exact .inr (.writing fh offset data)
    | wrote _ up fh offset data done handle handle' left before found ino generation blockMap rest =>
      rcases rest with rfl | ⟨done',rfl⟩
      · cases busy
      · cases busy
        exact .inr (.wrote up fh offset data done done' before)
    | begun _ fh wait host handle locs idle found =>
      cases busy
      exact .inr (.begun fh wait host handle _ found)
    | sent _ idx p before =>
      cases busy
      exact .inr (.sent idx p before)
    | closed _ host clock p handle reply before found =>
      cases reply with
      | error fault => cases busy
      | ok attr => cases busy
    | fetched _ fh idx up handle idle found => exact .inl busy
    | released _ fh idle => exact .inl busy
    | evicted _ keep => exact .inl busy
    | created _ host r flags idle => cases busy
    | opened _ snapshot before => cases busy
    | stopped _ up fh offset data done handle before found => cases busy
    | aborted _ stray => cases busy

/-- How a step puts a handle into a client's table. -/
inductive Renews (σ : Cluster) (c : ClientId) : Label → Fh → OpenFile → Prop
  | created (host : Host) (r : CreateReq) (flags : Nat)
    (ok : (MetaService.create host r σ.metadata).reply = .ok
      ⟨buildAttr (freshInode host r .file σ.metadata.nextIno),σ.metadata.nextFh,[]⟩) :
    Renews σ c (.create c host r flags) σ.metadata.nextFh
      (buildOpenFile σ.metadata.nextIno (buildAttr (freshInode host r .file σ.metadata.nextIno)) [] flags)
  | opened (snapshot : OpenSnapshot) (task : (σ.clients c).task = some (.opening snapshot)) :
    Renews σ c (.openInsert c) σ.metadata.nextFh (snapshotFile snapshot)
  | wrote (up : NodeId → Bool) (fh : Fh) (offset : Nat) (data : Bytes) (done : Nat) (handle handle' : OpenFile)
    (task : (σ.clients c).task = some (.writing fh offset data done)) (found : (σ.clients c).openFiles[fh]? = some handle)
    (ino : handle'.ino = handle.ino) (generation : handle'.generation = handle.generation)
    (blockMap : handle'.blockMap = handle.blockMap) : Renews σ c (.chunk c up) fh handle'
  | begun (fh : Fh) (wait : WaitPolicy) (host : Host) (handle : OpenFile) (locs : List BlockLoc)
    (found : (σ.clients c).openFiles[fh]? = some handle) (dirty : handle.dirty.isEmpty = false)
    (told : (allocated host handle σ.metadata).reply = .ok locs) :
    Renews σ c (.publish c fh wait host) fh {handle with blockMap := insertLocs handle.blockMap locs, dirty := ∅}
  | closed (host : Host) (clock : SystemTime) (p : Publish) (handle : OpenFile) (attr : Attr)
    (task : (σ.clients c).task = some (.publishing p)) (found : (σ.clients c).openFiles[p.fh]? = some handle) :
    Renews σ c (.close c host clock) p.fh {handle with generation := attr.generation}

/-- A handle a client has after a step, it had before, or the step has put it there. -/
theorem step_openFile {label : Label} {fh : Fh} {file : OpenFile} (stepped : step bs label σ = some τ)
    (held : (τ.clients c).openFiles[fh]? = some file) : (σ.clients c).openFiles[fh]? = some file ∨ Renews σ c label fh file := by
  rcases step_turn stepped c with same | turn
  · rw [same] at held
    exact .inl held
  · generalize after : τ.clients c = client at turn held
    cases turn with
    | created _ host r flags idle =>
      obtain ⟨_,⟨rfl,_⟩ | ⟨ok,_⟩⟩ := create_steps stepped
      · rw [← after] at held
        exact .inl held
      · rcases insert_some held with ⟨rfl,rfl⟩ | ⟨_,before⟩
        · exact .inr (.created host r flags ok)
        · exact .inl before
    | opened _ snapshot task =>
      rcases insert_some held with ⟨rfl,rfl⟩ | ⟨_,before⟩
      · exact .inr (.opened snapshot task)
      · exact .inl before
    | wrote _ up fh' offset data done handle handle' left task found ino generation blockMap =>
      rcases insert_some held with ⟨rfl,rfl⟩ | ⟨_,before⟩
      · exact .inr (.wrote up fh offset data done handle file task found ino generation blockMap)
      · exact .inl before
    | begun _ fh' wait host handle locs idle found =>
      obtain ⟨handle',_,found',⟨_,rfl⟩ | ⟨_,_,rfl⟩ | ⟨dirty,locs',told,rfl⟩⟩ := publish_steps stepped
      · rw [← after] at held
        exact .inl held
      · rw [← after] at held
        exact .inl held
      · rw [setClient_same] at after
        rw [← after] at held
        rcases insert_some held with ⟨rfl,rfl⟩ | ⟨_,before⟩
        · exact .inr (.begun fh wait host handle' locs' found' dirty told)
        · exact .inl before
    | closed _ host clock p handle reply task found =>
      cases reply with
      | error fault => exact .inl held
      | ok attr =>
        rcases insert_some held with ⟨rfl,rfl⟩ | ⟨_,before⟩
        · exact .inr (.closed host clock p handle attr task found)
        · exact .inl before
    | released _ fh' idle =>
      simp only [get_erase] at held
      split at held
      · cases held
      · exact .inl held
    | opening _ r snapshot idle read => exact .inl held
    | fetched _ fh' idx up handle idle found => exact .inl held
    | writing _ fh' offset data idle => exact .inl held
    | stopped _ up fh' offset data done handle task found => exact .inl held
    | sent _ idx p task => exact .inl held
    | aborted _ stray => exact .inl held
    | evicted _ keep => exact .inl held

/-- A block in a client's cache after a step was there before, or the client has just
fetched it, for a read or for a write. -/
theorem step_cached {label : Label} {key : BlockKey} {bytes : Bytes} (stepped : step bs label σ = some τ)
    (cached : (τ.clients c).blockCache[key]? = some bytes) :
    (σ.clients c).blockCache[key]? = some bytes ∨
    (∃ fh idx up handle, label = .fetch c fh idx up ∧ (σ.clients c).openFiles[fh]? = some handle ∧
      (handle.fetchBlock bs (σ.answer up handle.ino) idx (σ.clients c).blockCache).2[key]? = some bytes) ∨
    ∃ up fh offset data done handle, label = .chunk c up ∧ (σ.clients c).task = some (.writing fh offset data done) ∧
      (σ.clients c).openFiles[fh]? = some handle ∧
      (handle.writeChunk bs (σ.answer up handle.ino) offset data done (σ.clients c).blockCache).2[key]? = some bytes := by
  rcases step_turn stepped c with same | turn
  · rw [same] at cached
    exact .inl cached
  · generalize τ.clients c = client at turn cached
    cases turn with
    | fetched _ fh idx up handle idle found => exact .inr (.inl ⟨fh,idx,up,handle,rfl,found,cached⟩)
    | stopped _ up fh offset data done handle task found =>
      exact .inr (.inr ⟨up,fh,offset,data,done,handle,rfl,task,found,cached⟩)
    | wrote _ up fh offset data done handle handle' left task found ino generation blockMap rest =>
      exact .inr (.inr ⟨up,fh,offset,data,done,handle,rfl,task,found,cached⟩)
    | evicted _ keep =>
      simp only [get_filter,Option.filter_eq_some_iff] at cached
      exact .inl cached.1
    | closed _ host clock p handle reply task found =>
      cases reply with
      | error fault => exact .inl cached
      | ok attr => exact .inl cached
    | created _ host r flags idle => exact .inl cached
    | opening _ r snapshot idle read => exact .inl cached
    | opened _ snapshot task => exact .inl cached
    | writing _ fh offset data idle => exact .inl cached
    | begun _ fh wait host handle locs idle found => exact .inl cached
    | sent _ idx p task => exact .inl cached
    | aborted _ stray => exact .inl cached
    | released _ fh idle => exact .inl cached

/-- The request a step has the metadata server serve. The first half of `open` reads only. -/
def requested (label : Label) (σ : Cluster) : Option (Host × Call) :=
  match label with
  | .call host request => some (host,request)
  | .create _ host r _ => some (host,.create r)
  | .openInsert c =>
    match (σ.clients c).task with
    | some (.opening snapshot) => some (Host.still,.openInsert snapshot)
    | _ => none
  | .publish c fh _ host =>
    match (σ.clients c).openFiles[fh]? with
    | some file => if file.dirty.isEmpty || (newIdxs file).isEmpty then none else some (host,.allocateBlocks file.ino (newIdxs file))
    | none => none
  | .close c host clock =>
    match (σ.clients c).task with
    | some (.publishing p) => (σ.clients c).openFiles[p.fh]?.map fun file => (host,.close (closeReq p file.sizeHint clock))
    | _ => none
  | _ => none

/-- The metadata server after the request, if there is one. -/
def served (request : Option (Host × Call)) (s : MetaState) : MetaState :=
  match request with
  | some (host,call) => serve host call s
  | none => s

theorem allocated_served (host : Host) {file : OpenFile} (dirty : file.dirty.isEmpty = false) {fh : Fh} (wait : WaitPolicy)
    (found : (σ.clients c).openFiles[fh]? = some file) :
    (allocated host file σ.metadata).state = served (requested (.publish c fh wait host) σ) σ.metadata := by
  simp only [requested,found,dirty,Bool.false_or]
  unfold allocated
  split
  · rfl
  · rfl

theorem step_metadata {label : Label} (stepped : step bs label σ = some τ) : τ.metadata = served (requested label σ) σ.metadata := by
  cases label with
  | call host request =>
    obtain ⟨_,rfl⟩ := call_steps stepped
    rfl
  | create c host r flags =>
    obtain ⟨_,⟨rfl,_,failed⟩ | ⟨_,rfl⟩⟩ := create_steps stepped
    · rcases create_cases host r τ.metadata with ⟨_,_,refused⟩ | ⟨_,_,_,made⟩
      · simp only [requested,served,serve,refused]
      · rw [made] at failed
        cases failed
    · rfl
  | openRead c r =>
    obtain ⟨_,rfl | ⟨_,_,rfl⟩⟩ := openRead_steps stepped
    · rfl
    · rfl
  | openInsert c =>
    obtain ⟨snapshot,task,rfl⟩ := openInsert_steps stepped
    simp only [requested,task]
    rfl
  | fetch c fh idx up =>
    obtain ⟨_,_,_,rfl⟩ := fetch_steps stepped
    rfl
  | write c fh offset data =>
    obtain ⟨_,_,_,_,rfl⟩ := write_steps stepped
    rfl
  | chunk c up =>
    obtain ⟨_,_,_,_,_,_,_,⟨_,rfl⟩ | ⟨_,_,_,_,rfl⟩ | ⟨_,_,_,_,rfl⟩⟩ := chunk_steps stepped
    · rfl
    · rfl
    · rfl
  | publish c fh wait host =>
    obtain ⟨file,_,found,⟨clean,rfl⟩ | ⟨dirty,_,rfl⟩ | ⟨dirty,_,_,rfl⟩⟩ := publish_steps stepped
    · simp only [requested,found,clean,Bool.true_or,if_true,served]
    · exact allocated_served host dirty wait found
    · exact allocated_served host dirty wait found
  | send c idx =>
    obtain ⟨_,_,_,_,_,_,_,_,_,_,rfl⟩ := send_steps stepped
    rfl
  | close c host clock =>
    obtain ⟨p,file,task,found,_,_,rfl⟩ := close_steps stepped
    simp only [requested,task,found,Option.map_some]
    rfl
  | abort c stray =>
    obtain ⟨_,_,rfl⟩ := abort_steps stepped
    rfl
  | release c fh =>
    obtain ⟨_,rfl⟩ := release_steps stepped
    rfl
  | evict c keep =>
    cases Option.some.inj stepped
    rfl
  | deliver message =>
    obtain ⟨_,_,_,rfl⟩ := deliver_steps stepped
    rfl
  | lose message =>
    obtain ⟨_,rfl⟩ := lose_steps stepped
    rfl
  | deliverDelete message =>
    obtain ⟨_,rfl⟩ := deliverDelete_steps stepped
    rfl
  | loseDelete message =>
    obtain ⟨_,rfl⟩ := loseDelete_steps stepped
    rfl
  | restart node =>
    cases Option.some.inj stepped
    rfl

/-- The step executes a `WriteBlock` of `bytes` for `key` at `node`. -/
def Executes (node : NodeId) (key : BlockKey) (bytes : Bytes) (label : Label) (σ : Cluster) : Prop :=
  match label with
  | .send c idx => ∃ p placement, (σ.clients c).task = some (.publishing p) ∧ key = ⟨p.ino,idx,0⟩ ∧
      p.dirty[idx]? = some bytes ∧ p.blockMap[idx]? = some placement ∧ placement.nodes[p.ackedAt idx]? = some node
  | .deliver message => message = ⟨node,key,bytes⟩
  | _ => False

/-- What a step does to the block a store holds under `key`. -/
theorem step_block {label : Label} (stepped : step bs label σ = some τ) (node : NodeId) (key : BlockKey) :
    (τ.stores node).blocks[key]? = (σ.stores node).blocks[key]? ∨
    (∃ bytes, Executes node key bytes label σ ∧ (τ.stores node).blocks[key]? = some bytes) ∨
    (∃ message ∈ σ.deletes, label = .deliverDelete message ∧ message.node = node ∧ message.key = key) ∨
    label = .restart node := by
  cases label with
  | send c idx =>
    obtain ⟨p,data,placement,target,task,dirty,placed,_,chosen,_,rfl⟩ := send_steps stepped
    simp only [setClient,setStore_stores]
    split
    next here =>
      rw [StoreState.insertBlock_get]
      split
      next same =>
        subst here
        exact .inr (.inl ⟨data,⟨p,placement,task,same.symm,dirty,placed,chosen⟩,rfl⟩)
      next =>
        subst here
        exact .inl rfl
    next => exact .inl rfl
  | deliver message =>
    obtain ⟨_,store,written,rfl⟩ := deliver_steps stepped
    simp only [setStore_stores]
    split
    next here =>
      subst here
      rcases written with rfl | rfl
      · exact .inl rfl
      · rw [StoreState.insertBlock_get]
        split
        next same =>
          subst same
          exact .inr (.inl ⟨message.data,rfl,rfl⟩)
        next => exact .inl rfl
    next => exact .inl rfl
  | deliverDelete message =>
    obtain ⟨waiting,rfl⟩ := deliverDelete_steps stepped
    simp only [setStore_stores]
    split
    next here =>
      subst here
      rw [StoreState.deleteBlock_get]
      split
      next same => exact .inr (.inr (.inl ⟨message,waiting,rfl,rfl,same⟩))
      next => exact .inl rfl
    next => exact .inl rfl
  | restart other =>
    cases Option.some.inj stepped
    simp only [setStore_stores]
    split
    next here =>
      subst here
      exact .inr (.inr (.inr rfl))
    next => exact .inl rfl
  | call host request =>
    obtain ⟨_,rfl⟩ := call_steps stepped
    exact .inl rfl
  | create c host r flags =>
    obtain ⟨_,⟨rfl,_⟩ | ⟨_,rfl⟩⟩ := create_steps stepped <;> exact .inl rfl
  | openRead c r =>
    obtain ⟨_,rfl | ⟨_,_,rfl⟩⟩ := openRead_steps stepped <;> exact .inl rfl
  | openInsert c =>
    obtain ⟨_,_,rfl⟩ := openInsert_steps stepped
    exact .inl rfl
  | fetch c fh idx up =>
    obtain ⟨_,_,_,rfl⟩ := fetch_steps stepped
    exact .inl rfl
  | write c fh offset data =>
    obtain ⟨_,_,_,_,rfl⟩ := write_steps stepped
    exact .inl rfl
  | chunk c up =>
    obtain ⟨_,_,_,_,_,_,_,⟨_,rfl⟩ | ⟨_,_,_,_,rfl⟩ | ⟨_,_,_,_,rfl⟩⟩ := chunk_steps stepped <;> exact .inl rfl
  | publish c fh wait host =>
    obtain ⟨_,_,_,⟨_,rfl⟩ | ⟨_,_,rfl⟩ | ⟨_,_,_,rfl⟩⟩ := publish_steps stepped <;> exact .inl rfl
  | close c host clock =>
    obtain ⟨_,_,_,_,_,_,rfl⟩ := close_steps stepped
    exact .inl rfl
  | abort c stray =>
    obtain ⟨_,_,rfl⟩ := abort_steps stepped
    exact .inl rfl
  | release c fh =>
    obtain ⟨_,rfl⟩ := release_steps stepped
    exact .inl rfl
  | evict c keep =>
    cases Option.some.inj stepped
    exact .inl rfl
  | lose message =>
    obtain ⟨_,rfl⟩ := lose_steps stepped
    exact .inl rfl
  | loseDelete message =>
    obtain ⟨_,rfl⟩ := loseDelete_steps stepped
    exact .inl rfl

/-- What a step does to the `DeleteBlock` messages in flight. -/
theorem deletes_cases {label : Label} (stepped : step bs label σ = some τ) :
    τ.deletes = σ.deletes ∨
    (∃ host request, label = .call host request ∧ τ.deletes = σ.deletes ++ fired host request σ.metadata) ∨
    ∃ message ∈ σ.deletes, (label = .deliverDelete message ∨ label = .loseDelete message) ∧ τ.deletes = σ.deletes.erase message := by
  cases label with
  | call host request =>
    obtain ⟨_,rfl⟩ := call_steps stepped
    exact .inr (.inl ⟨host,request,rfl,rfl⟩)
  | deliverDelete message =>
    obtain ⟨waiting,rfl⟩ := deliverDelete_steps stepped
    exact .inr (.inr ⟨message,waiting,.inl rfl,rfl⟩)
  | loseDelete message =>
    obtain ⟨waiting,rfl⟩ := loseDelete_steps stepped
    exact .inr (.inr ⟨message,waiting,.inr rfl,rfl⟩)
  | create c host r flags =>
    obtain ⟨_,⟨rfl,_⟩ | ⟨_,rfl⟩⟩ := create_steps stepped <;> exact .inl rfl
  | openRead c r =>
    obtain ⟨_,rfl | ⟨_,_,rfl⟩⟩ := openRead_steps stepped <;> exact .inl rfl
  | openInsert c =>
    obtain ⟨_,_,rfl⟩ := openInsert_steps stepped
    exact .inl rfl
  | fetch c fh idx up =>
    obtain ⟨_,_,_,rfl⟩ := fetch_steps stepped
    exact .inl rfl
  | write c fh offset data =>
    obtain ⟨_,_,_,_,rfl⟩ := write_steps stepped
    exact .inl rfl
  | chunk c up =>
    obtain ⟨_,_,_,_,_,_,_,⟨_,rfl⟩ | ⟨_,_,_,_,rfl⟩ | ⟨_,_,_,_,rfl⟩⟩ := chunk_steps stepped <;> exact .inl rfl
  | publish c fh wait host =>
    obtain ⟨_,_,_,⟨_,rfl⟩ | ⟨_,_,rfl⟩ | ⟨_,_,_,rfl⟩⟩ := publish_steps stepped <;> exact .inl rfl
  | send c idx =>
    obtain ⟨_,_,_,_,_,_,_,_,_,_,rfl⟩ := send_steps stepped
    exact .inl rfl
  | close c host clock =>
    obtain ⟨_,_,_,_,_,_,rfl⟩ := close_steps stepped
    exact .inl rfl
  | abort c stray =>
    obtain ⟨_,_,rfl⟩ := abort_steps stepped
    exact .inl rfl
  | release c fh =>
    obtain ⟨_,rfl⟩ := release_steps stepped
    exact .inl rfl
  | evict c keep =>
    cases Option.some.inj stepped
    exact .inl rfl
  | deliver message =>
    obtain ⟨_,_,_,rfl⟩ := deliver_steps stepped
    exact .inl rfl
  | lose message =>
    obtain ⟨_,rfl⟩ := lose_steps stepped
    exact .inl rfl
  | restart node =>
    cases Option.some.inj stepped
    exact .inl rfl

/-- A `DeleteBlock` in flight was in flight before the step, or the step fired it. -/
theorem step_deletes {label : Label} (stepped : step bs label σ = some τ) {message : DeleteBlock} (waiting : message ∈ τ.deletes) :
    message ∈ σ.deletes ∨ ∃ host request, label = .call host request ∧ message ∈ fired host request σ.metadata := by
  rcases deletes_cases stepped with same | ⟨host,request,called,more⟩ | ⟨_,_,_,fewer⟩
  · exact .inl (same ▸ waiting)
  · rw [more] at waiting
    rcases List.mem_append.mp waiting with old | new
    · exact .inl old
    · exact .inr ⟨host,request,called,new⟩
  · rw [fewer] at waiting
    exact .inl (List.mem_of_mem_erase waiting)

/-- It waits until it is delivered or lost. -/
theorem step_waits {label : Label} (stepped : step bs label σ = some τ) {message : DeleteBlock} (waiting : message ∈ σ.deletes)
    (kept : label ≠ .loseDelete message) : message ∈ τ.deletes ∨ label = .deliverDelete message := by
  rcases deletes_cases stepped with same | ⟨_,_,_,more⟩ | ⟨other,_,taken,fewer⟩
  · rw [same]
    exact .inl waiting
  · rw [more]
    exact .inl (List.mem_append_left _ waiting)
  · rcases Classical.em (other = message) with rfl | apart
    · rcases taken with delivered | lost
      · exact .inr delivered
      · exact absurd lost kept
    · rw [fewer]
      exact .inl ((List.mem_erase_of_ne (Ne.symm apart)).mpr waiting)

/-- The publish of client `c` ends with the step. -/
def EndsPublish (c : ClientId) (label : Label) : Prop :=
  match label with
  | .close c' _ _ | .abort c' _ => c' = c
  | _ => False

/-- While a publish is under way, its client only acknowledges blocks. -/
theorem publishing_step {label : Label} {p : Publish} (task : (σ.clients c).task = some (.publishing p))
    (open_ : ¬ EndsPublish c label) (stepped : step bs label σ = some τ) :
    (τ.clients c).task = some (.publishing p) ∨
      ∃ idx, label = .send c idx ∧ (τ.clients c).task = some (.publishing (p.ack idx)) := by
  rcases step_turn stepped c with same | turn
  · rw [same]
    exact .inl task
  · generalize τ.clients c = client at turn
    cases turn with
    | sent _ idx q before =>
      rw [task] at before
      cases before
      exact .inr ⟨idx,rfl,rfl⟩
    | evicted _ keep => exact .inl task
    | closed _ host clock q handle reply before found => exact absurd rfl open_
    | aborted _ stray => exact absurd rfl open_
    | created _ host r flags idle =>
      rw [idle] at task
      cases task
    | opening _ r snapshot idle read =>
      rw [idle] at task
      cases task
    | opened _ snapshot before =>
      rw [before] at task
      cases task
    | fetched _ fh idx up handle idle found =>
      rw [idle] at task
      cases task
    | writing _ fh offset data idle =>
      rw [idle] at task
      cases task
    | stopped _ up fh offset data done handle before found =>
      rw [before] at task
      cases task
    | wrote _ up fh offset data done handle handle' left before found ino generation blockMap rest =>
      rw [before] at task
      cases task
    | begun _ fh wait host handle locs idle found =>
      rw [idle] at task
      cases task
    | released _ fh idle =>
      rw [idle] at task
      cases task

/-- What a step does to the background writes in flight. -/
theorem step_writes {label : Label} (stepped : step bs label σ = some τ) :
    τ.writes = σ.writes ∨
    (∃ c idx p placement data, label = .send c idx ∧ (σ.clients c).task = some (.publishing p) ∧ p.dirty[idx]? = some data ∧
      p.blockMap[idx]? = some placement ∧ τ.writes = σ.writes ++ p.background idx placement data) ∨
    (∃ c stray p, label = .abort c stray ∧ (σ.clients c).task = some (.publishing p) ∧
      τ.writes = σ.writes ++ stray.filterMap (nextWrite p)) ∨
    ∃ message ∈ σ.writes, (label = .deliver message ∨ label = .lose message) ∧ τ.writes = σ.writes.erase message := by
  cases label with
  | send c idx =>
    obtain ⟨p,data,placement,_,task,dirty,placed,_,_,_,rfl⟩ := send_steps stepped
    exact .inr (.inl ⟨c,idx,p,placement,data,rfl,task,dirty,placed,rfl⟩)
  | abort c stray =>
    obtain ⟨p,task,rfl⟩ := abort_steps stepped
    exact .inr (.inr (.inl ⟨c,stray,p,rfl,task,rfl⟩))
  | deliver message =>
    obtain ⟨waiting,_,_,rfl⟩ := deliver_steps stepped
    exact .inr (.inr (.inr ⟨message,waiting,.inl rfl,rfl⟩))
  | lose message =>
    obtain ⟨waiting,rfl⟩ := lose_steps stepped
    exact .inr (.inr (.inr ⟨message,waiting,.inr rfl,rfl⟩))
  | call host request =>
    obtain ⟨_,rfl⟩ := call_steps stepped
    exact .inl rfl
  | create c host r flags =>
    obtain ⟨_,⟨rfl,_⟩ | ⟨_,rfl⟩⟩ := create_steps stepped <;> exact .inl rfl
  | openRead c r =>
    obtain ⟨_,rfl | ⟨_,_,rfl⟩⟩ := openRead_steps stepped <;> exact .inl rfl
  | openInsert c =>
    obtain ⟨_,_,rfl⟩ := openInsert_steps stepped
    exact .inl rfl
  | fetch c fh idx up =>
    obtain ⟨_,_,_,rfl⟩ := fetch_steps stepped
    exact .inl rfl
  | write c fh offset data =>
    obtain ⟨_,_,_,_,rfl⟩ := write_steps stepped
    exact .inl rfl
  | chunk c up =>
    obtain ⟨_,_,_,_,_,_,_,⟨_,rfl⟩ | ⟨_,_,_,_,rfl⟩ | ⟨_,_,_,_,rfl⟩⟩ := chunk_steps stepped <;> exact .inl rfl
  | publish c fh wait host =>
    obtain ⟨_,_,_,⟨_,rfl⟩ | ⟨_,_,rfl⟩ | ⟨_,_,_,rfl⟩⟩ := publish_steps stepped <;> exact .inl rfl
  | close c host clock =>
    obtain ⟨_,_,_,_,_,_,rfl⟩ := close_steps stepped
    exact .inl rfl
  | release c fh =>
    obtain ⟨_,rfl⟩ := release_steps stepped
    exact .inl rfl
  | evict c keep =>
    cases Option.some.inj stepped
    exact .inl rfl
  | deliverDelete message =>
    obtain ⟨_,rfl⟩ := deliverDelete_steps stepped
    exact .inl rfl
  | loseDelete message =>
    obtain ⟨_,rfl⟩ := loseDelete_steps stepped
    exact .inl rfl
  | restart node =>
    cases Option.some.inj stepped
    exact .inl rfl

end Cluster

end Dtmpfs
