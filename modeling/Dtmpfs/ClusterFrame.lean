import Dtmpfs.Republishing
import Dtmpfs.Semantics.Runs

/-! What a step leaves alone: it does not look at other clients, nor at background writes
on their way but the one it takes. -/
namespace Dtmpfs
open MetaService OrderedMap

namespace Cluster

/-- The cluster with another client in the place of `c`, and other writes on their way. -/
def framed (c : ClientId) (client : Client) (writes : List WriteBlock) (σ : Cluster) : Cluster :=
  {σ.setClient c client with writes := writes}

theorem send_eq {c : ClientId} {idx : BlockIdx} {σ : Cluster} {p : Publish} {data : Bytes} {placement : BlockPlacement} {node : NodeId}
    {size : Nat} {store : StoreState} (task : (σ.clients c).task = some (.publishing p)) (dirty : p.dirty[idx]? = some data)
    (placed : p.blockMap[idx]? = some placement) (waiting : p.ackedAt idx < p.awaited idx)
    (chosen : placement.nodes[p.ackedAt idx]? = some node) (known : σ.metadata.nodes.contains node = true)
    (written : (σ.stores node).writeBlock ⟨p.ino,idx,0⟩ data = (.ok size,store)) :
    send c idx σ = some {(σ.setStore node store).setClient c {σ.clients c with task := some (.publishing (p.ack idx))} with
      writes := σ.writes ++ p.background idx placement data} := by
  simp only [send,task,dirty,placed,waiting,chosen,known,written,if_true]

theorem close_eq {c : ClientId} {host : Host} {clock : SystemTime} {σ : Cluster} {p : Publish} {file : OpenFile}
    (task : (σ.clients c).task = some (.publishing p)) (found : (σ.clients c).openFiles[p.fh]? = some file) (finished : p.finished = true)
    (clocked : clock < 10^9 * 2^63) :
    close c host clock σ = some (setClient {σ with
        metadata := (MetaService.close host (closeReq p file.sizeHint clock) σ.metadata).state} c
      (settled (σ.clients c) p.fh file (MetaService.close host (closeReq p file.sizeHint clock) σ.metadata).reply)) := by
  unfold close
  simp only [task,found]
  exact if_pos ⟨finished,clocked⟩

section Frames

variable {bs : Nat} {c d : ClientId} {client : Client} {writes : List WriteBlock} {σ τ : Cluster}

theorem framed_client (apart : d ≠ c) : (σ.framed c client writes).clients d = σ.clients d := if_neg apart

theorem framed_setClient (apart : d ≠ c) (other : Client) :
    (σ.framed c client writes).setClient d other = (σ.setClient d other).framed c client writes := by
  unfold framed setClient
  congr
  funext e
  by_cases here : e = d
  · subst here
    simp [apart]
  · simp [here]

theorem withMetadata_framed (s : MetaState) :
    {σ.framed c client writes with metadata := s} = ({σ with metadata := s} : Cluster).framed c client writes := rfl

theorem create_framed (apart : d ≠ c) (host : Host) (r : CreateReq) (flags : Nat) :
    create d host r flags (σ.framed c client writes) = (create d host r flags σ).map (framed c client writes) := by
  have same : (σ.framed c client writes).metadata = σ.metadata := rfl
  unfold create
  rw [framed_client apart,same]
  cases (σ.clients d).task with
  | some task => rfl
  | none =>
    dsimp only
    cases (MetaService.create host r σ.metadata).reply with
    | error fault => rfl
    | ok resp =>
      dsimp only
      rw [framed_client apart,withMetadata_framed]
      exact congrArg some (framed_setClient apart _)

theorem openRead_framed (apart : d ≠ c) (r : OpenReq) :
    openRead d r (σ.framed c client writes) = (openRead d r σ).map (framed c client writes) := by
  have same : (σ.framed c client writes).metadata = σ.metadata := rfl
  unfold openRead
  rw [framed_client apart,same]
  cases (σ.clients d).task with
  | some task => rfl
  | none =>
    dsimp only
    cases MetaService.openRead r σ.metadata with
    | error fault => rfl
    | ok snapshot => exact congrArg some (framed_setClient apart _)

theorem openInsert_framed (apart : d ≠ c) :
    openInsert d (σ.framed c client writes) = (openInsert d σ).map (framed c client writes) := by
  have same : (σ.framed c client writes).metadata = σ.metadata := rfl
  unfold openInsert
  rw [framed_client apart,same]
  split
  next snapshot _ =>
    dsimp only
    rw [withMetadata_framed]
    exact congrArg some (framed_setClient apart _)
  next => rfl

theorem fetch_framed (apart : d ≠ c) (fh : Fh) (idx : BlockIdx) (up : NodeId → Bool) :
    fetch bs d fh idx up (σ.framed c client writes) = (fetch bs d fh idx up σ).map (framed c client writes) := by
  have same : (σ.framed c client writes).answer = σ.answer := rfl
  unfold fetch
  rw [framed_client apart,same]
  split
  next => exact congrArg some (framed_setClient apart _)
  next => rfl

theorem write_framed (apart : d ≠ c) (fh : Fh) (offset : Nat) (data : Bytes) :
    write d fh offset data (σ.framed c client writes) = (write d fh offset data σ).map (framed c client writes) := by
  unfold write
  rw [framed_client apart]
  split
  next =>
    split
    next => rfl
    next => exact congrArg some (framed_setClient apart _)
  next => rfl

theorem chunk_framed (apart : d ≠ c) (up : NodeId → Bool) :
    chunk bs d up (σ.framed c client writes) = (chunk bs d up σ).map (framed c client writes) := by
  have same : (σ.framed c client writes).answer = σ.answer := rfl
  unfold chunk
  rw [framed_client apart,same]
  split
  next =>
    split
    next => rfl
    next =>
      split
      next => exact congrArg some (framed_setClient apart _)
      next =>
        split
        next => exact congrArg some (framed_setClient apart _)
        next => exact congrArg some (framed_setClient apart _)
  next => rfl

theorem publish_framed (apart : d ≠ c) (fh : Fh) (wait : WaitPolicy) (host : Host) :
    publish d fh wait host (σ.framed c client writes) = (publish d fh wait host σ).map (framed c client writes) := by
  have same : (σ.framed c client writes).metadata = σ.metadata := rfl
  unfold publish
  rw [framed_client apart,same]
  split
  next file _ found =>
    by_cases clean : file.dirty.isEmpty = true
    · rw [if_pos clean,if_pos clean]
      rfl
    · rw [if_neg clean,if_neg clean]
      dsimp only
      generalize (if (file.dirty.keys.filter fun idx => !file.blockMap.contains idx).isEmpty = true then
        (⟨.ok [],σ.metadata,[]⟩ : Served (List BlockLoc)) else
        MetaService.allocateBlocks host file.ino (file.dirty.keys.filter fun idx => !file.blockMap.contains idx) σ.metadata) = served
      cases served.reply with
      | error fault => rfl
      | ok locs =>
        dsimp only
        rw [framed_client apart,withMetadata_framed]
        exact congrArg some (framed_setClient apart _)
  next => rfl

theorem close_framed (apart : d ≠ c) (host : Host) (clock : SystemTime) :
    close d host clock (σ.framed c client writes) = (close d host clock σ).map (framed c client writes) := by
  have same : (σ.framed c client writes).metadata = σ.metadata := rfl
  unfold close
  rw [framed_client apart,same]
  split
  next p _ =>
    split
    next => rfl
    next =>
      split
      next =>
        dsimp only
        rw [withMetadata_framed]
        exact congrArg some (framed_setClient apart _)
      next => rfl
  next => rfl

theorem release_framed (apart : d ≠ c) (fh : Fh) :
    release d fh (σ.framed c client writes) = (release d fh σ).map (framed c client writes) := by
  unfold release
  rw [framed_client apart]
  split
  next =>
    split
    next => exact congrArg some (framed_setClient apart _)
    next => rfl
  next => rfl

theorem withStore_framed (node : NodeId) (store : StoreState) :
    (σ.framed c client writes).setStore node store = (σ.setStore node store).framed c client writes := rfl

theorem call_framed (host : Host) (request : Call) :
    call host request (σ.framed c client writes) = (call host request σ).map (framed c client writes) := by
  unfold call
  split
  next => rfl
  next => rfl

theorem evict_framed (apart : d ≠ c) (keep : BlockKey → Bool) :
    evict d keep (σ.framed c client writes) = (evict d keep σ).map (framed c client writes) := by
  unfold evict
  rw [framed_client apart]
  exact congrArg some (framed_setClient apart _)

theorem deliverDelete_framed (message : DeleteBlock) :
    deliverDelete message (σ.framed c client writes) = (deliverDelete message σ).map (framed c client writes) := by
  have same : (σ.framed c client writes).deletes = σ.deletes := rfl
  unfold deliverDelete
  rw [same]
  split
  next => rfl
  next => rfl

theorem loseDelete_framed (message : DeleteBlock) :
    loseDelete message (σ.framed c client writes) = (loseDelete message σ).map (framed c client writes) := by
  have same : (σ.framed c client writes).deletes = σ.deletes := rfl
  unfold loseDelete
  rw [same]
  split
  next => rfl
  next => rfl

/-- The step does the same in the framed cluster; `extra` more writes are on their way there. -/
def StepsFramed (bs : Nat) (c : ClientId) (client : Client) (writes extra : List WriteBlock) (label : Label) (σ τ : Cluster) : Prop :=
  ∃ writes', step bs label (σ.framed c client writes) = some (τ.framed c client writes') ∧ writes'.Perm (τ.writes ++ extra)

/-- A step that neither sends nor takes a background write. -/
theorem quiet_framed {label : Label} {extra : List WriteBlock} (more : writes.Perm (σ.writes ++ extra))
    (stepped : step bs label σ = some τ) (unsent : ∀ d idx, label ≠ .send d idx) (kept : ∀ d stray, label ≠ .abort d stray)
    (undelivered : ∀ m, label ≠ .deliver m) (unlost : ∀ m, label ≠ .lose m)
    (same : step bs label (σ.framed c client writes) = (step bs label σ).map (framed c client writes)) :
    StepsFramed bs c client writes extra label σ τ := by
  refine ⟨writes,?_,?_⟩
  · rw [same,stepped]
    rfl
  · rcases step_writes stepped with still | ⟨d,idx,_,_,_,named,_⟩ | ⟨d,stray,_,named,_⟩ | ⟨m,_,named | named,_⟩
    · rw [still]
      exact more
    · exact absurd named (unsent d idx)
    · exact absurd named (kept d stray)
    · exact absurd named (undelivered m)
    · exact absurd named (unlost m)

theorem sent_more {extra sent : List WriteBlock} (more : writes.Perm (σ.writes ++ extra)) :
    (writes ++ sent).Perm ((σ.writes ++ sent) ++ extra) := by
  have swapped : (writes ++ sent).Perm ((σ.writes ++ extra) ++ sent) := more.append_right _
  refine swapped.trans ?_
  rw [List.append_assoc,List.append_assoc]
  exact List.perm_append_comm.append_left _

theorem send_framed {idx : BlockIdx} {extra : List WriteBlock} (apart : d ≠ c) (more : writes.Perm (σ.writes ++ extra))
    (sent : send d idx σ = some τ) : StepsFramed bs c client writes extra (.send d idx) σ τ := by
  obtain ⟨p,data,placement,node,task,dirty,placed,waiting,chosen,known,rfl⟩ := send_steps sent
  obtain ⟨size,accepted⟩ := send_accepts sent task dirty placed chosen
  have stores : (σ.framed c client writes).stores node = σ.stores node := rfl
  have registered : (σ.framed c client writes).metadata.nodes.contains node = true := known
  refine ⟨writes ++ p.background idx placement data,?_,sent_more more⟩
  simp only [step,send,framed_client apart,task,dirty,placed,waiting,chosen,registered,stores,accepted,if_true]
  rw [withStore_framed,framed_setClient apart]
  rfl

theorem abort_framed {stray : List BlockIdx} {extra : List WriteBlock} (apart : d ≠ c) (more : writes.Perm (σ.writes ++ extra))
    (aborted : abort d stray σ = some τ) : StepsFramed bs c client writes extra (.abort d stray) σ τ := by
  obtain ⟨p,task,rfl⟩ := abort_steps aborted
  refine ⟨writes ++ stray.filterMap (nextWrite p),?_,sent_more more⟩
  simp only [step,abort,framed_client apart,task]
  rw [framed_setClient apart]
  rfl

/-- A background write that arrives or gets lost is on its way in the framed cluster too. -/
theorem taken_more {message : WriteBlock} {extra : List WriteBlock} (more : writes.Perm (σ.writes ++ extra))
    (waiting : message ∈ σ.writes) :
    message ∈ writes ∧ (writes.erase message).Perm (σ.writes.erase message ++ extra) := by
  have fewer := more.erase message
  rw [List.erase_append_left _ waiting] at fewer
  exact ⟨more.mem_iff.mpr (List.mem_append_left _ waiting),fewer⟩

theorem deliver_framed {message : WriteBlock} {extra : List WriteBlock} (more : writes.Perm (σ.writes ++ extra))
    (delivered : deliver message σ = some τ) : StepsFramed bs c client writes extra (.deliver message) σ τ := by
  unfold deliver at delivered
  split at delivered
  next waiting =>
    cases Option.some.inj delivered
    obtain ⟨there,fewer⟩ := taken_more more waiting
    have here : message ∈ (σ.framed c client writes).writes := there
    refine ⟨writes.erase message,?_,fewer⟩
    simp only [step,deliver,if_pos here]
    rfl
  next => cases delivered

theorem lose_framed {message : WriteBlock} {extra : List WriteBlock} (more : writes.Perm (σ.writes ++ extra))
    (lost : lose message σ = some τ) : StepsFramed bs c client writes extra (.lose message) σ τ := by
  unfold lose at lost
  split at lost
  next waiting =>
    cases Option.some.inj lost
    obtain ⟨there,fewer⟩ := taken_more more waiting
    have here : message ∈ (σ.framed c client writes).writes := there
    refine ⟨writes.erase message,?_,fewer⟩
    simp only [step,lose,if_pos here]
    rfl
  next => cases lost

/-- A step of another client, or of none, is as possible with client `c` replaced and more
writes on their way, and does the same. -/
theorem step_framed {label : Label} (apart : label.client ≠ some c) (stepped : step bs label σ = some τ) {extra : List WriteBlock}
    (more : writes.Perm (σ.writes ++ extra)) :
    ∃ writes', step bs label (σ.framed c client writes) = some (τ.framed c client writes') ∧ writes'.Perm (τ.writes ++ extra) := by
  have other {d : ClientId} (mine : label.client = some d) : d ≠ c := by
    rintro rfl
    exact apart mine
  cases label with
  | call host request => exact quiet_framed more stepped nofun nofun nofun nofun (call_framed host request)
  | create d host r flags => exact quiet_framed more stepped nofun nofun nofun nofun (create_framed (other rfl) host r flags)
  | openRead d r => exact quiet_framed more stepped nofun nofun nofun nofun (openRead_framed (other rfl) r)
  | openInsert d => exact quiet_framed more stepped nofun nofun nofun nofun (openInsert_framed (other rfl))
  | fetch d fh idx up => exact quiet_framed more stepped nofun nofun nofun nofun (fetch_framed (other rfl) fh idx up)
  | write d fh offset data => exact quiet_framed more stepped nofun nofun nofun nofun (write_framed (other rfl) fh offset data)
  | chunk d up => exact quiet_framed more stepped nofun nofun nofun nofun (chunk_framed (other rfl) up)
  | publish d fh wait host => exact quiet_framed more stepped nofun nofun nofun nofun (publish_framed (other rfl) fh wait host)
  | close d host clock => exact quiet_framed more stepped nofun nofun nofun nofun (close_framed (other rfl) host clock)
  | release d fh => exact quiet_framed more stepped nofun nofun nofun nofun (release_framed (other rfl) fh)
  | evict d keep => exact quiet_framed more stepped nofun nofun nofun nofun (evict_framed (other rfl) keep)
  | send d idx => exact send_framed (other rfl) more stepped
  | abort d stray => exact abort_framed (other rfl) more stepped
  | deliver message => exact deliver_framed more stepped
  | lose message => exact lose_framed more stepped
  | deliverDelete message => exact quiet_framed more stepped nofun nofun nofun nofun (deliverDelete_framed message)
  | loseDelete message => exact quiet_framed more stepped nofun nofun nofun nofun (loseDelete_framed message)
  | restart node => exact quiet_framed more stepped nofun nofun nofun nofun rfl

end Frames

end Cluster

end Dtmpfs
