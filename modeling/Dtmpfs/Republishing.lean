import Dtmpfs.Truncation

/-! One handle flushed over and over. `Meta.Close` drops the handle at the metadata
server, while the client goes on using it. -/
namespace Dtmpfs
open MetaService MetaState FlatFile OrderedMap Cluster

variable {bs : Nat} {f : InodeId} {c : ClientId} {fh : Fh} {σ τ : Cluster} {file : FileRecord} {F : Flat} {G H : History}

/-- The client whose callback a step is part of. -/
def Label.client : Label → Option ClientId
  | .create c _ _ _ | .openRead c _ | .openInsert c | .fetch c _ _ _ | .write c _ _ _ | .chunk c _ | .publish c _ _ _
  | .send c _ | .close c _ _ | .abort c _ | .release c _ | .evict c _ => some c
  | .call _ _ | .deliver _ | .lose _ | .deliverDelete _ | .loseDelete _ | .restart _ => none

theorem Cluster.Turn.client {label : Label} {client : Client} (turn : Turn bs σ label c client) : label.client = some c := by
  cases turn <;> rfl

theorem client_kept {label : Label} (stepped : step bs label σ = some τ) (other : label.client ≠ some c) :
    τ.clients c = σ.clients c := by
  rcases step_turn stepped c with same | turn
  · exact same
  · exact absurd turn.client other

theorem pending_kept {label : Label} (other : label.client ≠ some c) : (G.next bs f label σ).pending c = G.pending c := by
  have apart {c' : ClientId} (named : label.client = some c') : c ≠ c' := by
    intro same
    exact other (same ▸ named)
  unfold History.next
  split
  next c' host r flags =>
    split
    · exact set_other _ _ _ _ _ (apart rfl)
    · rfl
  next c' => exact set_other _ _ _ _ _ (apart rfl)
  next c' up =>
    split
    · split
      · rfl
      · split
        · exact set_other _ _ _ _ _ (apart rfl)
        · split
          · rfl
          · exact set_other _ _ _ _ _ (apart rfl)
    · rfl
  next c' host clock =>
    split
    · split
      · rfl
      · split
        · exact set_other _ _ _ _ _ (apart rfl)
        · exact set_other _ _ _ _ _ (apart rfl)
    · rfl
  next c' stray =>
    split
    · split
      · rfl
      · exact set_other _ _ _ _ _ (apart rfl)
    · rfl
  next => rfl

/-- A step of the writes, flushes and reads of client `c` through handle `fh`. Every
node answers, and there is a store to place blocks on. -/
def Own (c : ClientId) (fh : Fh) (label : Label) (σ : Cluster) : Prop :=
  match label with
  | .write c' fh' _ _ => c' = c ∧ fh' = fh
  | .chunk c' up | .fetch c' _ _ up => c' = c ∧ Reaches up σ.metadata
  | .publish c' fh' _ host => c' = c ∧ fh' = fh ∧ σ.metadata.liveNodes host ≠ []
  | .send c' _ | .close c' _ _ | .evict c' _ => c' = c
  | _ => False

/-- A step of anybody else, which touches neither the file nor the handle. -/
def Aside (bs : Nat) (f : InodeId) (c : ClientId) (fh : Fh) (label : Label) (σ : Cluster) : Prop :=
  label.client ≠ some c ∧ Conform f label σ ∧ ∀ τ, step bs label σ = some τ →
    τ.metadata.fileAt f = σ.metadata.fileAt f ∧ τ.metadata.openHandles[fh]? = σ.metadata.openHandles[fh]? ∧
      ∀ c', c' ≠ c → (τ.clients c').publishes f = none

def Solo (bs : Nat) (f : InodeId) (c : ClientId) (fh : Fh) (label : Label) (σ : Cluster) : Prop :=
  Own c fh label σ ∨ Aside bs f c fh label σ

/-- The calls of a client so far: whether it has written since the last flush, how many
flushes had something to flush, how many of them have come to their `Close`, and the
writes. -/
structure Calls where
  dirty : Bool
  flushes : Nat
  closes : Nat
  written : List Patch

namespace Calls

def none : Calls := ⟨false,0,0,[]⟩

def next (c : ClientId) (calls : Calls) (label : Label) : Calls :=
  match label with
  | .write c' _ offset data =>
    if c' = c then {calls with dirty := true, written := calls.written ++ [History.whole offset data]} else calls
  | .publish c' _ _ _ => if c' = c ∧ calls.dirty then {calls with dirty := false, flushes := calls.flushes + 1} else calls
  | .close c' _ _ => if c' = c then {calls with closes := calls.closes + 1} else calls
  | _ => calls

theorem next_other {label : Label} (calls : Calls) (other : label.client ≠ some c) : calls.next c label = calls := by
  have apart {c' : ClientId} (named : label.client = some c') : c' ≠ c := by
    intro same
    exact other (same ▸ named)
  unfold next
  split
  next => rw [if_neg (apart rfl)]
  next => rw [if_neg (fun both => apart rfl both.1)]
  next => rw [if_neg (apart rfl)]
  next => rfl

theorem flushes_le (labels : List Label) (calls : Calls) : calls.flushes ≤ (labels.foldl (next c) calls).flushes := by
  induction labels generalizing calls with
  | nil => exact Nat.le_refl _
  | cons label rest ih =>
    refine Nat.le_trans ?_ (ih (calls.next c label))
    unfold next
    split
    · split <;> exact Nat.le_refl _
    · split
      · exact Nat.le_succ _
      · exact Nat.le_refl _
    · split <;> exact Nat.le_refl _
    · exact Nat.le_refl _

end Calls

/-- Where the client is in its calls. Until the first `Close` the writes are those
waiting to be published. -/
inductive Stage (fh : Fh) (calls : Calls) (pending : List Patch) (handle : OpenFile) : Option Task → Prop
  | idle (dirty : calls.dirty = !handle.dirty.isEmpty) (flushes : calls.flushes = calls.closes)
    (written : calls.closes = 0 → calls.written = pending) : Stage fh calls pending handle none
  | writing (offset : Nat) (data : Bytes) (done : Nat) (dirty : calls.dirty = true) (flushes : calls.flushes = calls.closes)
    (written : calls.closes = 0 → calls.written = pending ++ [History.whole offset data]) :
    Stage fh calls pending handle (some (.writing fh offset data done))
  | publishing (p : Publish) (same : p.fh = fh) (dirty : calls.dirty = false) (clean : handle.dirty.isEmpty = true)
    (flushes : calls.flushes = calls.closes + 1) (written : calls.closes = 0 → calls.written = pending) :
    Stage fh calls pending handle (some (.publishing p))

theorem close_drops (host : Host) (r : CloseReq) (s : MetaState) : (MetaService.close host r s).state.openHandles[r.fh]? = none := by
  have dropped : (s.dropHandle r.fh).openHandles[r.fh]? = none := by
    simp only [dropHandle,Std.ExtTreeMap.getElem?_erase_self]
  rcases close_cases host r s with ⟨missing,refused⟩ | ⟨_,_,⟨_,refused⟩ | ⟨_,_,⟨_,served⟩ | ⟨_,_,_,served⟩⟩⟩
  · rw [refused]
    exact missing
  · rw [refused]
    exact dropped
  · rw [served]
    exact dropped
  · rw [served]
    exact dropped

/-- Client `c` uses its handle `fh` of file `f`, which was `F` when the handle was opened. -/
structure Session (bs : Nat) (f : InodeId) (c : ClientId) (fh : Fh) (F : Flat) (calls : Calls) (σ : Cluster) (file : FileRecord)
    (G : History) : Prop where
  inv : Inv bs f σ file G
  others : ∀ c', c' ≠ c → (σ.clients c').publishes f = none
  once : calls.closes ≤ 1
  entry : calls.closes = 0 → ∃ entry, σ.metadata.openHandles[fh]? = some entry ∧ entry.ino = f
  gone : calls.closes ≠ 0 → σ.metadata.openHandles[fh]? = none
  published : calls.closes = 0 → G.published = F
  handle : ∃ handle, (σ.clients c).openFiles[fh]? = some handle ∧ handle.ino = f ∧
    (calls.closes = 0 → handle.generation = file.generation) ∧ Stage fh calls (G.pending c fh) handle (σ.clients c).task

namespace Session

variable {calls : Calls}

theorem aside {label : Label} (positive : 0 < bs) (session : Session bs f c fh F calls σ file G) (aside : Aside bs f c fh label σ)
    (stepped : step bs label σ = some τ) : Session bs f c fh F (calls.next c label) τ file (G.next bs f label σ) := by
  obtain ⟨other,conform,untouched⟩ := aside
  obtain ⟨same,entry,others⟩ := untouched τ stepped
  obtain ⟨file',inv,evolves⟩ := inv_step positive session.inv (Conform.orderly conform session.inv) stepped
  have unchanged : file' = file := by
    have alive := inv.base.alive
    rw [same,session.inv.base.alive] at alive
    exact (Option.some.inj alive).symm
  subst unchanged
  have published : (G.next bs f label σ).published = G.published := by
    rcases evolves with ⟨_,_,same,_⟩ | ⟨c',host,clock,p,handle,rfl,closed,_⟩
    · exact same
    · have quiet := session.others c' (fun same => other (same ▸ rfl))
      rw [publishes_of closed.task closed.mine] at quiet
      cases quiet
  rw [calls.next_other other]
  refine ⟨inv,others,session.once,?_,?_,?_,?_⟩
  · rw [entry]
    exact session.entry
  · rw [entry]
    exact session.gone
  · rw [published]
    exact session.published
  · rw [client_kept stepped other,pending_kept other]
    exact session.handle

/-- A step of the client's own that is not a `Close`. -/
theorem keep {label : Label} (positive : 0 < bs) (session : Session bs f c fh F calls σ file G) (mine : label.client = some c)
    (unclosed : ∀ c host clock, label ≠ .close c host clock) (conform : Conform f label σ) (stepped : step bs label σ = some τ)
    (entry : τ.metadata.openHandles = σ.metadata.openHandles) (closes : (calls.next c label).closes = calls.closes)
    (handle : ∃ handle, (τ.clients c).openFiles[fh]? = some handle ∧ handle.ino = f ∧
      (calls.closes = 0 → handle.generation = file.generation) ∧
      Stage fh (calls.next c label) ((G.next bs f label σ).pending c fh) handle (τ.clients c).task) :
    ∃ file', Session bs f c fh F (calls.next c label) τ file' (G.next bs f label σ) := by
  obtain ⟨file',inv,evolves⟩ := inv_step positive session.inv (Conform.orderly conform session.inv) stepped
  have generation : file'.generation = file.generation := by
    rcases evolves with ⟨same,_⟩ | ⟨c',host,clock,_,_,named,_⟩
    · exact same
    · exact absurd named (unclosed c' host clock)
  refine ⟨file',inv,?_,?_,?_,?_,?_,?_⟩
  · intro c' apart
    have still := client_kept stepped (fun named => apart (Option.some.inj (named.symm.trans mine)))
    rw [still]
    exact session.others c' apart
  · rw [closes]
    exact session.once
  · rw [closes,entry]
    exact session.entry
  · rw [closes,entry]
    exact session.gone
  · rw [closes,next_published unclosed]
    exact session.published
  · rw [closes,generation]
    exact handle

theorem write {offset : Nat} {data : Bytes} (positive : 0 < bs) (session : Session bs f c fh F calls σ file G)
    (stepped : step bs (.write c fh offset data) σ = some τ) :
    ∃ file', Session bs f c fh F (calls.next c (.write c fh offset data)) τ file' (G.next bs f (.write c fh offset data) σ) := by
  obtain ⟨handle,found,mine,current,stage⟩ := session.handle
  obtain ⟨_,idle,_,_,rfl⟩ := write_steps stepped
  rw [idle] at stage
  cases stage with
  | idle dirty flushes written =>
    refine session.keep positive rfl nofun trivial stepped rfl ?_ ⟨handle,?_,mine,current,?_⟩
    · simp only [Calls.next,if_true]
    · rw [setClient_same]
      exact found
    · rw [setClient_same]
      refine .writing offset data 0 ?_ ?_ ?_
      · simp only [Calls.next,if_true]
      · simp only [Calls.next,if_true]
        exact flushes
      · simp only [Calls.next,if_true]
        intro first
        rw [written first]
        rfl

theorem chunk {up : NodeId → Bool} (positive : 0 < bs) (session : Session bs f c fh F calls σ file G) (reaches : Reaches up σ.metadata)
    (stepped : step bs (.chunk c up) σ = some τ) :
    ∃ file', Session bs f c fh F (calls.next c (.chunk c up)) τ file' (G.next bs f (.chunk c up) σ) := by
  obtain ⟨handle,found,mine,current,stage⟩ := session.handle
  obtain ⟨fh',offset,data,done,handle',task,found',outcome⟩ := chunk_steps stepped
  rw [task] at stage
  cases stage with
  | writing _ _ _ dirty flushes written =>
    rw [found] at found'
    cases found'
    have agrees := ((session.inv.base.clients c).held handle (.inl ⟨fh,found⟩) mine).2
    have reached := (session.inv.base.reached reaches).2
    have known (idx : BlockIdx) (placement : BlockPlacement) (placed : handle.blockMap[idx]? = some placement) :
        ∃ result, OpenFile.tryNodes bs (σ.answer up handle.ino idx) placement.nodes (.storeUnavailable placement.primary) =
          .ok result := by
      rw [mine]
      exact session.inv.base.answers reached agrees idx placement placed _
    have succeeds : ∃ result, (handle.writeChunk bs (σ.answer up handle.ino) offset data done (σ.clients c).blockCache).1 =
        .ok result := OpenFile.writeChunk_ok known offset data done
    obtain ⟨result,succeeded⟩ := succeeds
    have wrote (after : OpenFile) (count : Nat)
        (ok : (handle.writeChunk bs (σ.answer up handle.ino) offset data done (σ.clients c).blockCache).1 = .ok (after,count)) :
        after.ino = f ∧ after.generation = handle.generation ∧ after.dirty.isEmpty = false := by
      rcases (OpenFile.writeChunk_cases bs (σ.answer up handle.ino) handle offset data done (σ.clients c).blockCache).2 with
        ⟨_,failed⟩ | ⟨buf,same,_⟩
      · rw [failed] at ok
        cases ok
      · rw [same] at ok
        cases ok
        exact ⟨mine,rfl,Std.ExtTreeMap.isEmpty_eq_false_iff.mpr Std.ExtTreeMap.insert_ne_empty⟩
    refine session.keep positive rfl nofun reaches stepped ?_ rfl ?_
    · rcases outcome with ⟨_,rfl⟩ | ⟨_,_,_,_,rfl⟩ | ⟨_,_,_,_,rfl⟩ <;> rfl
    · rcases outcome with ⟨⟨_,failed⟩,_⟩ | ⟨after,count,ok,more,rfl⟩ | ⟨after,count,ok,full,rfl⟩
      · rw [failed] at succeeded
        cases succeeded
      · obtain ⟨ino,generation,_⟩ := wrote after count ok
        refine ⟨after,?_,ino,?_,?_⟩
        · rw [setClient_same,get_insert,if_pos rfl]
        · rw [generation]
          exact current
        · simp only [setClient_same,History.next,task,found,ok,if_pos more]
          exact .writing offset data count dirty flushes written
      · obtain ⟨ino,generation,some_⟩ := wrote after count ok
        refine ⟨after.growTo (offset + data.length),?_,ino,?_,?_⟩
        · rw [setClient_same,get_insert,if_pos rfl]
        · intro first
          exact generation.trans (current first)
        · simp only [setClient_same,History.next,task,found,ok,if_neg full,set_pending,if_true]
          refine .idle ?_ flushes written
          simp only [OpenFile.growTo,some_]
          exact dirty

theorem cached {label : Label} {cache : BlockCache} (positive : 0 < bs) (session : Session bs f c fh F calls σ file G)
    (mine : label.client = some c) (unclosed : ∀ c host clock, label ≠ .close c host clock) (conform : Conform f label σ)
    (stepped : step bs label σ = some τ) (shape : τ = σ.setClient c {σ.clients c with blockCache := cache})
    (calls_ : calls.next c label = calls) (pending : G.next bs f label σ = G) :
    ∃ file', Session bs f c fh F (calls.next c label) τ file' (G.next bs f label σ) := by
  refine session.keep positive mine unclosed conform stepped ?_ ?_ ?_
  · rw [shape]
    rfl
  · rw [calls_]
  · rw [shape,calls_,pending,setClient_same]
    exact session.handle

theorem publish {wait : WaitPolicy} {host : Host} (positive : 0 < bs) (session : Session bs f c fh F calls σ file G)
    (live : σ.metadata.liveNodes host ≠ []) (stepped : step bs (.publish c fh wait host) σ = some τ) :
    ∃ file', Session bs f c fh F (calls.next c (.publish c fh wait host)) τ file'
      (G.next bs f (.publish c fh wait host) σ) := by
  obtain ⟨handle,found,mine,current,stage⟩ := session.handle
  obtain ⟨handle',idle,found',outcome⟩ := publish_steps stepped
  rw [found] at found'
  cases found'
  rw [idle] at stage
  cases stage with
  | idle dirty flushes written =>
    rcases outcome with ⟨clean,rfl⟩ | ⟨_,⟨fault,failed⟩,_⟩ | ⟨some_,locs,told,rfl⟩
    · -- nothing to flush
      have none : calls.next c (.publish c fh wait host) = calls := by
        rw [clean] at dirty
        simp only [Calls.next,dirty,Bool.not_true,Bool.false_eq_true,and_false,if_false]
      rw [none]
      exact ⟨file,session⟩
    · obtain ⟨inode,present,_⟩ := fileAt_some session.inv.base.alive
      rw [← mine] at present
      unfold allocated at failed
      split at failed
      · cases failed
      · rcases allocateBlocks_cases host handle.ino (newIdxs handle) σ.metadata with ⟨missing,_⟩ | ⟨_,_,_,_,served,_⟩
        · rw [present] at missing
          cases missing
        · rw [served] at failed
          cases failed
    · obtain ⟨_,_,_,tables,_⟩ := allocated_grows session.inv.base.alive told
      have flushed : calls.next c (.publish c fh wait host) = {calls with dirty := false, flushes := calls.flushes + 1} := by
        rw [some_] at dirty
        simp only [Calls.next,dirty,Bool.not_false,and_true,if_true]
      refine session.keep positive rfl nofun live stepped tables.openHandles ?_ ?_
      · rw [flushed]
      · rw [flushed]
        refine ⟨{handle with blockMap := insertLocs handle.blockMap locs, dirty := ∅},?_,mine,current,?_⟩
        · rw [setClient_same,publishing,get_insert,if_pos rfl]
        · rw [setClient_same]
          refine .publishing _ rfl rfl (Std.ExtTreeMap.isEmpty_iff.mpr rfl) ?_ written
          simp only [flushes]

theorem send {idx : BlockIdx} (positive : 0 < bs) (session : Session bs f c fh F calls σ file G)
    (stepped : step bs (.send c idx) σ = some τ) :
    ∃ file', Session bs f c fh F (calls.next c (.send c idx)) τ file' (G.next bs f (.send c idx) σ) := by
  obtain ⟨handle,found,mine,current,stage⟩ := session.handle
  obtain ⟨p,data,placement,node,task,_,_,_,_,_,rfl⟩ := send_steps stepped
  rw [task] at stage
  cases stage with
  | publishing _ same dirty clean flushes written =>
    refine session.keep positive rfl nofun trivial stepped rfl rfl ⟨handle,?_,mine,current,?_⟩
    · simp only [setClient_same]
      exact found
    · simp only [setClient_same]
      exact .publishing (p.ack idx) same dirty clean flushes written

/-- What `flush` returned `Ok` for can be seen: whoever opens the file now and reaches
the stores reads `D`. -/
def Seen (bs : Nat) (f : InodeId) (D : Flat) (σ : Cluster) : Prop :=
  ∀ c flags up, Reaches up σ.metadata → ∃ snapshot, MetaService.openRead ⟨f,flags⟩ σ.metadata = .ok snapshot ∧
    Reads bs up σ (σ.clients c).blockCache (snapshotFile snapshot) D

theorem flushing {p : Publish} (session : Session bs f c fh F calls σ file G) (task : (σ.clients c).task = some (.publishing p)) :
    p.fh = fh ∧ p.ino = f ∧ (calls.closes = 0 → p.generation = file.generation) ∧ calls.flushes = calls.closes + 1 ∧
      (calls.closes = 0 → calls.written = G.pending c fh) := by
  obtain ⟨handle,found,mine,current,stage⟩ := session.handle
  obtain ⟨⟨handle',found',ino,generation,_⟩,_⟩ := (session.inv.base.clients c).publishing p task
  rw [task] at stage
  cases stage with
  | publishing _ same dirty clean flushes written =>
    rw [same,found] at found'
    cases found'
    refine ⟨same,ino.symm.trans mine,?_,flushes,written⟩
    intro first
    exact generation.symm.trans (current first)

theorem refused {host : Host} {clock : SystemTime} (session : Session bs f c fh F calls σ file G) (closed : calls.closes ≠ 0)
    (stepped : step bs (.close c host clock) σ = some τ) : ¬ Accepted c host clock σ := by
  intro accepted
  obtain ⟨p,handle,task,found,_⟩ := close_steps stepped
  obtain ⟨same,_⟩ := session.flushing task
  have ok := accepted p task handle found
  have missing : σ.metadata.openHandles[p.fh]? = none := by
    rw [same]
    exact session.gone closed
  rcases close_cases host (closeReq p handle.sizeHint clock) σ.metadata with ⟨_,refused⟩ | ⟨entry,entered,_⟩
  · rw [refused] at ok
    cases ok
  · rw [show σ.metadata.openHandles[(closeReq p handle.sizeHint clock).fh]? = none from missing] at entered
    cases entered

/-- The first one is accepted, and publishes all that was written. -/
theorem close {host : Host} {clock : SystemTime} (positive : 0 < bs) (session : Session bs f c fh F calls σ file G)
    (first : calls.closes = 0) (stepped : step bs (.close c host clock) σ = some τ) :
    Accepted c host clock σ ∧ Seen bs f (F.applyAll calls.written) τ ∧
      ∃ file', Session bs f c fh F (calls.next c (.close c host clock)) τ file' (G.next bs f (.close c host clock) σ) := by
  obtain ⟨p,handle,task,found,finished,early,shape⟩ := close_steps stepped
  obtain ⟨same,mine,current,flushes,written⟩ := session.flushing task
  obtain ⟨entry,entered,owner⟩ := session.entry first
  rw [← same] at entered
  have orderly : Orderly f (.close c host clock) σ := by
    intro q underway
    rw [Option.mem_def,publishes_of task mine] at underway
    cases underway
    refine ⟨(contains_iff _ _).mpr ⟨entry,entered⟩,?_⟩
    intro record alive
    rw [Option.mem_def,session.inv.base.alive] at alive
    cases alive
    exact (current first).symm
  obtain ⟨file',inv,evolves⟩ := inv_step positive session.inv orderly stepped
  rcases evolves with ⟨_,_,_,idle⟩ | ⟨c',host',clock',q,handle',named,closed,_,published,emptied⟩
  · have quiet := idle c host clock rfl
    rw [publishes_of task mine] at quiet
    cases quiet
  · cases named
    have same_ := closed.task
    rw [task] at same_
    cases same_
    have still (other : ClientId) (apart : other ≠ c) : (τ.clients other).publishes f = none := by
      rw [closed.others other apart]
      exact session.others other apart
    have settled : (τ.clients c).task = none := by rw [closed.client]
    have calm : Calm f τ := by
      intro other acting
      obtain ⟨q,underway,_⟩ := acting
      rcases Classical.em (other = c) with rfl | apart
      · obtain ⟨busy,_⟩ := publishes_some underway
        rw [settled] at busy
        cases busy
      · rw [still other apart] at underway
        cases underway
    have told : (G.next bs f (.close c host clock) σ).published = F.applyAll calls.written := by
      rw [published,session.published first,written first,same]
    have closes : (calls.next c (.close c host clock)).closes = 1 := by
      simp only [Calls.next,if_true,first]
    refine ⟨?_,?_,file',inv,still,?_,?_,?_,?_,?_⟩
    · intro q task' handle'' found'
      rw [task] at task'
      cases task'
      obtain ⟨_,⟨idx,data,dirty⟩,_⟩ := (session.inv.base.clients c).publishing p task
      obtain ⟨attr,ok,_⟩ := close_matched host handle''.sizeHint session.inv.base.alive entered owner (keys_ne_nil dirty)
        (current first).symm early
      rw [ok]
      rfl
    · intro reader flags up reaches
      obtain ⟨sync,reached⟩ := inv.base.reached reaches
      obtain ⟨snapshot,opened,_,reads⟩ := inv.opens positive calm sync reached reader flags
      rw [told] at reads
      exact ⟨snapshot,opened,reads⟩
    · exact Nat.le_of_eq closes
    · intro none
      rw [closes] at none
      cases none
    · intro _
      rw [shape]
      exact same ▸ close_drops host (closeReq p handle.sizeHint clock) σ.metadata
    · intro none
      rw [closes] at none
      cases none
    · obtain ⟨handle₀,found₀,mine₀,_,stage⟩ := session.handle
      rw [task] at stage
      cases stage with
      | publishing _ _ dirty clean _ _ =>
        rw [closed.client,same]
        have again := closed.found
        rw [same,found₀] at again
        cases again
        refine ⟨{handle' with generation := file.generation + 1},?_,mine₀,?_,?_⟩
        · rw [get_insert,if_pos rfl]
        · intro none
          rw [closes] at none
          cases none
        · refine .idle ?_ ?_ ?_
          · simp only [Calls.next,if_true,dirty,clean,Bool.not_true]
          · simp only [Calls.next,if_true]
            exact flushes
          · intro none
            rw [closes] at none
            cases none

theorem step {label : Label} (positive : 0 < bs) (session : Session bs f c fh F calls σ file G) (solo : Solo bs f c fh label σ)
    (unclosed : ∀ host clock, label ≠ .close c host clock) (stepped : step bs label σ = some τ) :
    ∃ file', Session bs f c fh F (calls.next c label) τ file' (G.next bs f label σ) := by
  rcases solo with own | aside
  · cases label with
    | write c' fh' offset data =>
      obtain ⟨rfl,rfl⟩ := own
      exact session.write positive stepped
    | chunk c' up =>
      obtain ⟨rfl,reaches⟩ := own
      exact session.chunk positive reaches stepped
    | fetch c' fh' idx up =>
      obtain ⟨rfl,reaches⟩ := own
      obtain ⟨_,_,_,shape⟩ := fetch_steps stepped
      exact session.cached positive rfl nofun reaches stepped shape rfl rfl
    | evict c' keep =>
      cases own
      exact session.cached positive rfl nofun trivial stepped (Option.some.inj stepped).symm rfl rfl
    | publish c' fh' wait host =>
      obtain ⟨rfl,rfl,live⟩ := own
      exact session.publish positive live stepped
    | send c' idx =>
      cases own
      exact session.send positive stepped
    | close c' host clock =>
      cases own
      exact absurd rfl (unclosed host clock)
    | _ => exact own.elim
  · exact ⟨file,session.aside positive aside stepped⟩

end Session

/-- Every `flush` and `fsync` of client `c` along the run that gets to its `Close`
returns `Ok`, and from then on the file is seen with all the writes made so far. -/
def Republished (bs : Nat) (f : InodeId) (c : ClientId) (F : Flat) (calls : Calls) (labels : List Label) (σ : Cluster) : Prop :=
  ∀ done rest host clock υ ω, labels = done ++ .close c host clock :: rest → run bs done σ = some υ →
    step bs (.close c host clock) υ = some ω →
      Accepted c host clock υ ∧ Session.Seen bs f (F.applyAll (done.foldl (Calls.next c) calls).written) ω

theorem Republished.cons {calls : Calls} {label : Label} {rest : List Label}
    (first : ∀ host clock, label = .close c host clock → Accepted c host clock σ ∧ Session.Seen bs f (F.applyAll calls.written) τ)
    (later : Republished bs f c F (calls.next c label) rest τ) (stepped : step bs label σ = some τ) :
    Republished bs f c F calls (label::rest) σ := by
  intro done rest' host clock υ ω split ran closed
  cases done with
  | nil =>
    cases split
    cases ran
    rw [stepped] at closed
    cases closed
    exact first host clock rfl
  | cons head more =>
    cases split
    obtain ⟨middle,stepped',ran⟩ := Option.bind_eq_some_iff.mp ran
    rw [stepped] at stepped'
    cases stepped'
    exact later more rest' host clock υ ω rfl ran closed

theorem Republished.tail {calls : Calls} {label : Label} {rest : List Label} (all : Republished bs f c F calls (label::rest) σ)
    (stepped : step bs label σ = some τ) : Republished bs f c F (calls.next c label) rest τ := by
  intro done rest' host clock υ ω split ran closed
  refine all (label::done) rest' host clock υ ω ?_ ?_ closed
  · rw [split]
    rfl
  · simp only [Cluster.run,stepped,Option.bind_some]
    exact ran

namespace Session

variable {calls : Calls}

theorem flushes_of_republished (positive : 0 < bs) (labels : List Label) (session : Session bs f c fh F calls σ file G)
    (solo : Throughout bs (Solo bs f c fh) labels σ) (ran : run bs labels σ = some τ) (idle : (τ.clients c).task = none)
    (all : Republished bs f c F calls labels σ) : (labels.foldl (Calls.next c) calls).flushes ≤ 1 := by
  induction labels generalizing σ file G calls with
  | nil =>
    cases ran
    obtain ⟨handle,_,_,_,stage⟩ := session.handle
    rw [idle] at stage
    cases stage with
    | idle dirty flushes written => exact flushes ▸ session.once
  | cons label rest ih =>
    obtain ⟨middle,stepped,later⟩ := Option.bind_eq_some_iff.mp ran
    rcases Classical.em (∃ host clock, label = .close c host clock) with ⟨host,clock,rfl⟩ | unclosed
    · have accepted := (all [] rest host clock σ middle rfl rfl stepped).1
      have first : calls.closes = 0 := by
        by_contra closed
        exact session.refused closed stepped accepted
      obtain ⟨_,_,file',moved⟩ := session.close positive first stepped
      exact ih moved (solo.2 middle stepped) later (all.tail stepped)
    · obtain ⟨file',moved⟩ := session.step positive solo.1 (fun host clock named => unclosed ⟨host,clock,named⟩) stepped
      exact ih moved (solo.2 middle stepped) later (all.tail stepped)

theorem republished_of_flushes (positive : 0 < bs) (labels : List Label) (session : Session bs f c fh F calls σ file G)
    (solo : Throughout bs (Solo bs f c fh) labels σ) (ran : run bs labels σ = some τ)
    (few : (labels.foldl (Calls.next c) calls).flushes ≤ 1) : Republished bs f c F calls labels σ := by
  induction labels generalizing σ file G calls with
  | nil =>
    intro done rest host clock υ ω split
    cases done <;> cases split
  | cons label rest ih =>
    obtain ⟨middle,stepped,later⟩ := Option.bind_eq_some_iff.mp ran
    rcases Classical.em (∃ host clock, label = .close c host clock) with ⟨host,clock,rfl⟩ | unclosed
    · have first : calls.closes = 0 := by
        obtain ⟨p,_,task,_⟩ := close_steps stepped
        obtain ⟨_,_,_,flushes,_⟩ := session.flushing task
        have grows := Calls.flushes_le (c := c) (.close c host clock::rest) calls
        omega
      obtain ⟨accepted,seen,file',moved⟩ := session.close positive first stepped
      refine .cons ?_ (ih moved (solo.2 middle stepped) later few) stepped
      intro host' clock' named
      cases named
      exact ⟨accepted,seen⟩
    · obtain ⟨file',moved⟩ := session.step positive solo.1 (fun host clock named => unclosed ⟨host,clock,named⟩) stepped
      refine .cons ?_ (ih moved (solo.2 middle stepped) later few) stepped
      intro host clock named
      exact absurd ⟨host,clock,named⟩ unclosed

end Session

/-- What `open` and `create` leave client `c` with: a clean handle of the file as it is,
known to the metadata server, while nobody is publishing the file. -/
structure Opened (f : InodeId) (c : ClientId) (fh : Fh) (σ : Cluster) (G : History) : Prop where
  idle : (σ.clients c).task = none
  others : ∀ c', c' ≠ c → (σ.clients c').publishes f = none
  entry : ∃ entry, σ.metadata.openHandles[fh]? = some entry ∧ entry.ino = f
  handle : ∃ handle, (σ.clients c).openFiles[fh]? = some handle ∧ handle.ino = f ∧ handle.dirty.isEmpty = true ∧
    ∀ file, σ.metadata.fileAt f = some file → handle.generation = file.generation
  pending : G.pending c fh = []

theorem Opened.session (opened : Opened f c fh σ G) (inv : Inv bs f σ file G) : Session bs f c fh G.published .none σ file G := by
  obtain ⟨handle,found,mine,clean,current⟩ := opened.handle
  refine ⟨inv,opened.others,Nat.zero_le 1,fun _ => opened.entry,fun none => absurd rfl none,fun _ => rfl,
    handle,found,mine,fun _ => current file inv.base.alive,?_⟩
  rw [opened.idle]
  refine .idle ?_ rfl (fun _ => opened.pending.symm)
  rw [clean]
  rfl

/-- A client that writes and flushes one handle, while nobody else touches the file,
finds every flush returning `Ok` and publishing all its writes exactly when at most one
of the flushes has something to flush. -/
theorem republished_iff {start : Cluster} (positive : 0 < bs) (created : Created f start) (before : List Label)
    (conform : Throughout bs (Conform f) before start) (reached : trace bs f before start .blank = some (σ,G))
    (opened : Opened f c fh σ G) (labels : List Label) (solo : Throughout bs (Solo bs f c fh) labels σ)
    (ran : run bs labels σ = some τ) (idle : (τ.clients c).task = none) :
    Republished bs f c G.published .none labels σ ↔ (labels.foldl (Calls.next c) .none).flushes ≤ 1 := by
  obtain ⟨file,inv⟩ := trace_inv positive before created.inv (fun inv conform => Conform.orderly conform inv) conform reached
  have session := opened.session inv
  exact ⟨session.flushes_of_republished positive labels solo ran idle,session.republished_of_flushes positive labels solo ran⟩

/-- Client 0 writes, flushes, flushes again and writes on. -/
def flushedOnce : List Label := writeByte 0 1 0 7 ++ flushBlock 0 1 0 ++ [.publish 0 1 .allReplicas Host.still] ++ writeByte 0 1 0 8

theorem withFile_opened : Opened 2 0 1 (withFile 1 ["n"]) .blank := by
  refine ⟨rfl,?_,⟨_,rfl,rfl⟩,⟨_,rfl,rfl,rfl,?_⟩,rfl⟩
  · intro c' apart
    match c' with
    | 0 => exact absurd rfl apart
    | _ + 1 => rfl
  · intro file alive
    cases alive
    rfl

theorem flushedOnce_solo : Throughout 1 (Solo 1 2 0 1) flushedOnce (withFile 1 ["n"]) := by
  have own : Throughout 1 (Own 0 1) flushedOnce (withFile 1 ["n"]) := by
    refine throughout_cons rfl ⟨rfl,rfl⟩ ?_
    refine throughout_cons rfl ⟨rfl,by decide⟩ ?_
    refine throughout_cons rfl ⟨rfl,rfl,by decide⟩ ?_
    refine throughout_cons rfl rfl ?_
    refine throughout_cons rfl rfl ?_
    refine throughout_cons rfl ⟨rfl,rfl,by decide⟩ ?_
    refine throughout_cons rfl ⟨rfl,rfl⟩ ?_
    exact throughout_cons rfl ⟨rfl,by decide⟩ trivial
  exact own.mono _ _ (fun _ _ own => .inl own)

theorem republished_iff_once : Republished 1 2 0 .empty .none flushedOnce (withFile 1 ["n"]) := by
  have created : Created 2 (withFile 1 ["n"]) := withFile_created (by decide) (by decide) (by decide) (by decide)
  have ran : ∃ τ, run 1 flushedOnce (withFile 1 ["n"]) = some τ ∧ (τ.clients 0).task = none := ⟨_,rfl,rfl⟩
  obtain ⟨τ,ran,idle⟩ := ran
  exact (republished_iff Nat.one_pos created [] trivial rfl withFile_opened flushedOnce flushedOnce_solo ran idle).mpr (by decide)

/-- Client 0 writes and flushes, and writes and flushes again. -/
def flushedTwice : List Label := writeByte 0 1 0 7 ++ flushBlock 0 1 0 ++ writeByte 0 1 0 8 ++ flushBlock 0 1 0

theorem second_flush_fails : (∃ τ, run 1 flushedTwice (withFile 1 ["n"]) = some τ) ∧
    ¬ Republished 1 2 0 .empty .none flushedTwice (withFile 1 ["n"]) := by
  refine ⟨⟨_,rfl⟩,?_⟩
  intro all
  have accepted := (all (writeByte 0 1 0 7 ++ flushBlock 0 1 0 ++ writeByte 0 1 0 8 ++
    [.publish 0 1 .primariesOnly Host.still,.send 0 0]) [] Host.still 0 _ _ rfl rfl rfl).1
  cases accepted _ rfl _ rfl

end Dtmpfs
