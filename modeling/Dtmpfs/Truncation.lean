import Dtmpfs.Visibility

/-! The size a flush records. The client keeps the size of an open file in its size
hint, which writes raise and `setattr` does not touch. -/
namespace Dtmpfs
open MetaService MetaState OrderedMap Cluster

variable {bs : Nat} {f : InodeId} {σ τ υ : Cluster} {c : ClientId} {fh : Fh}

/-- A step of the callbacks `write` through handle `fh` and `setattr(size = n)` on its file. -/
def Edits (f : InodeId) (c : ClientId) (fh : Fh) (label : Label) : Prop :=
  match label with
  | .write c' fh' _ _ => c' = c ∧ fh' = fh
  | .chunk c' _ => c' = c
  | .call _ (.setAttr r) => r.ino = f ∧ r.size.isSome = true
  | _ => False

instance (f : InodeId) (c : ClientId) (fh : Fh) (label : Label) : Decidable (Edits f c fh label) := by
  unfold Edits
  split <;> infer_instance

/-- The round of `apply_write` the client is at does not fail. -/
def RoundOk (bs : Nat) (up : NodeId → Bool) (client : Client) (σ : Cluster) : Prop :=
  match client.task with
  | some (.writing fh offset data done) => ∀ handle ∈ client.openFiles[fh]?,
      (handle.writeChunk bs (σ.answer up handle.ino) offset data done client.blockCache).1.isOk = true
  | _ => True

instance (bs : Nat) (up : NodeId → Bool) (client : Client) (σ : Cluster) : Decidable (RoundOk bs up client σ) := by
  unfold RoundOk
  split <;> infer_instance

/-- The step does not fail. -/
def Succeeds (bs : Nat) (label : Label) (σ : Cluster) : Prop :=
  match label with
  | .chunk c up => RoundOk bs up (σ.clients c) σ
  | .call host (.setAttr r) => (setAttr host r σ.metadata).reply.isOk = true
  | _ => True

instance (bs : Nat) (label : Label) (σ : Cluster) : Decidable (Succeeds bs label σ) := by
  unfold Succeeds
  split <;> infer_instance

/-- The size of a file after the callback that begins with the step. -/
def resized (size : Nat) (label : Label) : Nat :=
  match label with
  | .write _ _ offset data => max size (offset + data.length)
  | .call _ (.setAttr r) => r.size.getD size
  | _ => size

/-- The size hint after it. -/
def hinted (size : Nat) (label : Label) : Nat :=
  match label with
  | .write _ _ offset data => max size (offset + data.length)
  | _ => size

/-- How far the writes before and after the last truncation reach, the size at open
counting as a write before it. -/
structure Extent where
  before : Nat
  cut : Option Nat
  after : Nat

namespace Extent

def next (extent : Extent) (label : Label) : Extent :=
  match label with
  | .write _ _ offset data =>
    match extent.cut with
    | none => {extent with before := max extent.before (offset + data.length)}
    | some _ => {extent with after := max extent.after (offset + data.length)}
  | .call _ (.setAttr r) =>
    match r.size with
    | none => extent
    | some n => ⟨max extent.before extent.after,some n,0⟩
  | _ => extent

/-- There is no truncation, or it is to the size that was there, or the writes after
it reach as far as either. -/
def Respected (extent : Extent) : Prop :=
  ∀ n ∈ extent.cut, n = extent.before ∨ (n ≤ extent.after ∧ extent.before ≤ extent.after)

instance (extent : Extent) : Decidable extent.Respected :=
  inferInstanceAs (Decidable (∀ n ∈ extent.cut, n = extent.before ∨ (n ≤ extent.after ∧ extent.before ≤ extent.after)))

/-- What the sizes are in terms of the extent. -/
structure Measures (extent : Extent) (size hint : Nat) : Prop where
  uncut : extent.cut = none → size = extent.before ∧ extent.after = 0
  cut : ∀ n, extent.cut = some n → size = max n extent.after
  hint : hint = max extent.before extent.after

theorem Measures.next {extent : Extent} {size hint : Nat} (measures : Measures extent size hint) (label : Label) :
    Measures (extent.next label) (resized size label) (hinted hint label) := by
  have hint := measures.hint
  cases label with
  | write c fh offset data =>
    simp only [Extent.next,resized,hinted]
    cases cut : extent.cut with
    | none =>
      obtain ⟨same,none⟩ := measures.uncut cut
      refine ⟨?_,nofun,?_⟩
      · intro _
        exact ⟨by rw [same],none⟩
      · dsimp only
        omega
    | some n =>
      have same := measures.cut n cut
      refine ⟨nofun,?_,?_⟩
      · intro m found
        cases found
        dsimp only
        omega
      · dsimp only
        omega
  | call host request =>
    cases request with
    | setAttr r =>
      simp only [Extent.next,resized,hinted]
      cases size : r.size with
      | none => exact measures
      | some n =>
        refine ⟨nofun,?_,?_⟩
        · intro m found
          cases found
          exact (Nat.max_zero n).symm
        · dsimp only
          omega
    | _ => exact measures
  | _ => exact measures

theorem Measures.foldl {extent : Extent} {size hint : Nat} (measures : Measures extent size hint) (labels : List Label) :
    Measures (labels.foldl Extent.next extent) (labels.foldl resized size) (labels.foldl hinted hint) := by
  induction labels generalizing extent size hint with
  | nil => exact measures
  | cons label rest ih => exact ih (measures.next label)

theorem Measures.respected_iff {extent : Extent} {size hint : Nat} (measures : Measures extent size hint) :
    hint = size ↔ extent.Respected := by
  have hinted := measures.hint
  unfold Respected
  cases cut : extent.cut with
  | none =>
    obtain ⟨same,none⟩ := measures.uncut cut
    refine ⟨fun _ => nofun,?_⟩
    intro _
    omega
  | some n =>
    have same := measures.cut n cut
    simp only [Option.mem_def,Option.some.injEq,forall_eq']
    omega

end Extent

/-- Client `c` has the file open under `fh`, and once the write in progress is through
its size hint is `hint`. -/
structure Editing (f : InodeId) (c : ClientId) (fh : Fh) (hint : Nat) (σ : Cluster) : Prop where
  alive : ∃ file, σ.metadata.fileAt f = some file
  owner : ∀ entry, σ.metadata.openHandles[fh]? = some entry → entry.ino = f
  handle : ∃ handle, (σ.clients c).openFiles[fh]? = some handle ∧ handle.ino = f ∧
    (((σ.clients c).task = none ∧ handle.sizeHint = hint) ∨
      ∃ offset data done, (σ.clients c).task = some (.writing fh offset data done) ∧
        max handle.sizeHint (offset + data.length) = hint)

theorem setAttr_alive {host : Host} {r : SetAttrReq} {s : MetaState} {file : FileRecord} (alive : s.fileAt f = some file) :
    ∃ file', (setAttr host r s).state.fileAt f = some file' := by
  rcases setAttr_cases host r s with ⟨_,missing⟩ | ⟨inode,after,found,kind,_,state,_⟩
  · rw [missing]
    exact ⟨file,alive⟩
  · rw [state,fileAt_putInode]
    split
    next same =>
      obtain ⟨inode',found',isFile,_⟩ := fileAt_some alive
      rw [same,found'] at found
      cases found
      exact ⟨_,by rw [record,if_pos (kind.trans isFile)]⟩
    next => exact ⟨file,alive⟩

theorem Editing.edit {hint : Nat} {label : Label} (editing : Editing f c fh hint σ) (edits : Edits f c fh label)
    (succeeds : Succeeds bs label σ) (stepped : step bs label σ = some τ) : Editing f c fh (hinted hint label) τ := by
  obtain ⟨file,alive⟩ := editing.alive
  obtain ⟨handle,found,mine,state⟩ := editing.handle
  unfold Edits at edits
  split at edits
  next offset data =>
    obtain ⟨rfl,rfl⟩ := edits
    obtain ⟨_,idle,_,_,rfl⟩ := write_steps stepped
    rcases state with ⟨_,hinted⟩ | ⟨_,_,_,task,_⟩
    · refine ⟨⟨file,alive⟩,editing.owner,handle,?_,mine,.inr ⟨offset,data,0,?_,?_⟩⟩
      · rw [setClient_same]
        exact found
      · rw [setClient_same]
      · rw [hinted]
        rfl
    · rw [idle] at task
      cases task
  next c' up =>
    subst edits
    obtain ⟨fh',offset,data,done,handle',task,found',outcome⟩ := chunk_steps stepped
    have ok : (handle'.writeChunk bs (σ.answer up handle'.ino) offset data done (σ.clients c').blockCache).1.isOk = true := by
      simp only [Succeeds,RoundOk,task] at succeeds
      exact succeeds handle' found'
    rcases state with ⟨idle,_⟩ | ⟨offset',data',done',task',hinted⟩
    · rw [idle] at task
      cases task
    · rw [task] at task'
      cases task'
      rw [found] at found'
      cases found'
      have kept (after : OpenFile) (count : Nat)
          (wrote : (handle.writeChunk bs (σ.answer up handle.ino) offset data done (σ.clients c').blockCache).1 = .ok (after,count)) :
          after.ino = handle.ino ∧ after.sizeHint = handle.sizeHint := by
        rcases (OpenFile.writeChunk_cases bs (σ.answer up handle.ino) handle offset data done (σ.clients c').blockCache).2 with
          ⟨_,failed⟩ | ⟨buf,same,_⟩
        · rw [failed] at wrote
          cases wrote
        · rw [same] at wrote
          cases wrote
          exact ⟨rfl,rfl⟩
      rcases outcome with ⟨⟨_,failed⟩,_⟩ | ⟨after,count,wrote,_,rfl⟩ | ⟨after,count,wrote,_,rfl⟩
      · rw [failed] at ok
        cases ok
      · obtain ⟨ino,size⟩ := kept after count wrote
        refine ⟨⟨file,alive⟩,editing.owner,after,?_,ino.trans mine,.inr ⟨offset,data,count,?_,?_⟩⟩
        · rw [setClient_same,get_insert,if_pos rfl]
        · rw [setClient_same]
        · rw [size]
          exact hinted
      · obtain ⟨ino,size⟩ := kept after count wrote
        refine ⟨⟨file,alive⟩,editing.owner,after.growTo (offset + data.length),?_,ino.trans mine,.inl ⟨?_,?_⟩⟩
        · rw [setClient_same,get_insert,if_pos rfl]
        · rw [setClient_same]
        · simp only [OpenFile.growTo,size]
          exact hinted
  next host r =>
    obtain ⟨_,rfl⟩ := call_steps stepped
    have tables := setAttr_tables host r σ.metadata
    refine ⟨setAttr_alive alive,?_,handle,found,mine,state⟩
    intro entry entered
    exact editing.owner entry (tables.openHandles ▸ entered)
  next => exact edits.elim

theorem Editing.run {hint : Nat} (labels : List Label) (editing : Editing f c fh hint σ)
    (edits : ∀ label ∈ labels, Edits f c fh label) (succeeds : Throughout bs (Succeeds bs) labels σ)
    (ran : run bs labels σ = some τ) : Editing f c fh (labels.foldl hinted hint) τ := by
  induction labels generalizing σ hint with
  | nil =>
    cases ran
    exact editing
  | cons label rest ih =>
    obtain ⟨middle,stepped,later⟩ := Option.bind_eq_some_iff.mp ran
    have moved := editing.edit (edits label List.mem_cons_self) succeeds.1 stepped
    exact ih moved (fun label member => edits label (List.mem_cons_of_mem _ member)) (succeeds.2 middle stepped) later

/-- `flush` or `fsync` of handle `fh` is under way. -/
structure Flushing (f : InodeId) (c : ClientId) (fh : Fh) (hint : Nat) (σ : Cluster) : Prop where
  alive : ∃ file, σ.metadata.fileAt f = some file
  owner : ∀ entry, σ.metadata.openHandles[fh]? = some entry → entry.ino = f
  handle : ∃ handle p, (σ.clients c).openFiles[fh]? = some handle ∧ handle.sizeHint = hint ∧
    (σ.clients c).task = some (.publishing p) ∧ p.fh = fh ∧ p.dirty.isEmpty = false

theorem Editing.publish {hint : Nat} {wait : WaitPolicy} {host : Host} (editing : Editing f c fh hint σ)
    (begun : publish c fh wait host σ = some τ) :
    Flushing f c fh hint τ ∨ (τ.clients c).task = none := by
  obtain ⟨file,alive⟩ := editing.alive
  obtain ⟨handle,found,mine,state⟩ := editing.handle
  obtain ⟨handle',idle,found',outcome⟩ := publish_steps begun
  rw [found] at found'
  cases found'
  have hinted : handle.sizeHint = hint := by
    rcases state with ⟨_,hinted⟩ | ⟨_,_,_,task,_⟩
    · exact hinted
    · rw [idle] at task
      cases task
  rcases outcome with ⟨_,rfl⟩ | ⟨_,_,rfl⟩ | ⟨dirty,locs,told,rfl⟩
  · exact .inr idle
  · exact .inr idle
  · obtain ⟨blocks,alive',_,tables,_⟩ := allocated_grows alive told
    refine .inl ⟨⟨_,alive'⟩,?_,{handle with blockMap := insertLocs handle.blockMap locs, dirty := ∅},
      ⟨fh,wait,handle.ino,handle.generation,insertLocs handle.blockMap locs,handle.dirty,∅⟩,?_,hinted,?_,rfl,dirty⟩
    · intro entry entered
      exact editing.owner entry (tables.openHandles ▸ entered)
    · rw [setClient_same,publishing,get_insert,if_pos rfl]
    · rw [setClient_same]
      rfl

theorem Flushing.send {hint : Nat} {idx : BlockIdx} (flushing : Flushing f c fh hint σ) (sent : send c idx σ = some τ) :
    Flushing f c fh hint τ := by
  obtain ⟨handle,p,found,hinted,task,same,dirty⟩ := flushing.handle
  obtain ⟨q,data,placement,node,task',_,_,_,_,_,rfl⟩ := send_steps sent
  rw [task] at task'
  cases task'
  refine ⟨flushing.alive,flushing.owner,handle,p.ack idx,?_,hinted,?_,same,dirty⟩
  · simp only [setClient_same]
    exact found
  · simp only [setClient_same]

theorem sends_flush {hint : Nat} (idxs : List BlockIdx) (started : Flushing f c fh hint σ ∨ (σ.clients c).task = none)
    (ran : run bs (idxs.map (.send c)) σ = some τ) : Flushing f c fh hint τ ∨ (τ.clients c).task = none := by
  induction idxs generalizing σ with
  | nil =>
    cases ran
    exact started
  | cons idx rest ih =>
    obtain ⟨middle,stepped,later⟩ := Option.bind_eq_some_iff.mp ran
    rcases started with flushing | idle
    · exact ih (.inl (flushing.send stepped)) later
    · obtain ⟨p,_,_,_,task,_⟩ := send_steps stepped
      rw [idle] at task
      cases task

/-- The `Close` of the publish of client `c` is accepted: `flush` returns `Ok`. -/
def Accepted (c : ClientId) (host : Host) (clock : SystemTime) (σ : Cluster) : Prop :=
  ∀ p, (σ.clients c).task = some (.publishing p) → ∀ handle, (σ.clients c).openFiles[p.fh]? = some handle →
    (MetaService.close host (closeReq p handle.sizeHint clock) σ.metadata).reply.isOk = true

/-- The size an accepted `Close` records is the size hint. -/
theorem Flushing.close {hint : Nat} {host : Host} {clock : SystemTime} (flushing : Flushing f c fh hint σ)
    (accepted : Accepted c host clock σ) (closed : close c host clock σ = some τ) :
    ∃ file, τ.metadata.fileAt f = some file ∧ file.size = hint := by
  obtain ⟨file,alive⟩ := flushing.alive
  obtain ⟨handle,p,found,hinted,task,rfl,dirty⟩ := flushing.handle
  obtain ⟨q,handle',task',found',_,_,rfl⟩ := close_steps closed
  rw [task] at task'
  cases task'
  rw [found] at found'
  cases found'
  have ok := accepted p task handle found
  have written : p.dirty.keys ≠ [] := by
    intro none
    rw [← Std.ExtTreeMap.isEmpty_keys,none] at dirty
    cases dirty
  rcases close_cases host (closeReq p handle.sizeHint clock) σ.metadata with
    ⟨_,missing⟩ | ⟨entry,entered,⟨_,refused⟩ | ⟨inode,present,⟨unwritten,_⟩ | ⟨_,_,requested,served⟩⟩⟩
  · rw [missing] at ok
    cases ok
  · rw [refused] at ok
    cases ok
  · exact absurd unwritten written
  · have mine := flushing.owner entry entered
    obtain ⟨inode',present',kind,_⟩ := fileAt_some alive
    rw [mine,present'] at present
    cases present
    refine ⟨⟨handle.sizeHint,Generation.bump inode.generation,inode.blocks⟩,?_,hinted⟩
    simp only [served,setClient,fileAt_putInode,if_pos mine,record,publishedInode,kind,if_true]
    rfl

theorem opened_editing {file : FileRecord} {flags : Nat} (alive : σ.metadata.fileAt f = some file)
    (ran : run bs [.openRead c ⟨f,flags⟩,.openInsert c] σ = some τ) : Editing f c σ.metadata.nextFh file.size τ := by
  obtain ⟨middle,read,later⟩ := Option.bind_eq_some_iff.mp ran
  obtain ⟨last,inserted,done⟩ := Option.bind_eq_some_iff.mp later
  cases done
  obtain ⟨snapshot,told⟩ := openRead_file (r := ⟨f,flags⟩) alive
  obtain ⟨record,alive',ino,_,_,size,_⟩ := openRead_ok told
  rw [alive] at alive'
  cases alive'
  obtain ⟨idle,unread | ⟨snapshot',told',rfl⟩⟩ := openRead_steps read
  · obtain ⟨_,task,_⟩ := openInsert_steps inserted
    rw [unread,idle] at task
    cases task
  · rw [told] at told'
    cases told'
    obtain ⟨snapshot',task,rfl⟩ := openInsert_steps inserted
    rw [setClient_same] at task
    cases task
    refine ⟨⟨file,alive⟩,?_,snapshotFile snapshot,?_,ino,.inl ⟨?_,size⟩⟩
    · intro entry entered
      simp only [setClient,MetaService.openInsert,allocFh,get_insert,if_true] at entered
      cases entered
      exact ino
    · simp only [setClient_same,installed,get_insert]
      exact if_pos rfl
    · simp only [setClient_same,installed]

theorem created_editing {host : Host} {r : CreateReq} {flags : Nat} (made : (MetaService.create host r σ.metadata).reply.isOk = true)
    (ran : run bs [.create c host r flags] σ = some τ) : Editing σ.metadata.nextIno c σ.metadata.nextFh 0 τ := by
  obtain ⟨middle,stepped,done⟩ := Option.bind_eq_some_iff.mp ran
  cases done
  obtain ⟨_,⟨_,fault,failed⟩ | ⟨_,rfl⟩⟩ := create_steps stepped
  · rw [failed] at made
    cases made
  · rcases create_cases host r σ.metadata with ⟨_,_,failed⟩ | ⟨dir,_,_,served⟩
    · rw [failed] at made
      cases made
    · rw [served]
      refine ⟨⟨⟨0,0,∅⟩,?_⟩,?_,buildOpenFile σ.metadata.nextIno (buildAttr (freshInode host r .file σ.metadata.nextIno)) [] flags,
        ?_,rfl,.inl ⟨?_,rfl⟩⟩
      · simp [setClient,fileAt,created,record,freshInode]
      · intro entry entered
        simp only [setClient,created,get_insert,if_true] at entered
        cases entered
        rfl
      · simp only [setClient_same,installed,get_insert,if_true]
      · simp only [setClient_same,installed]

/-- The steps in which client `c` gets handle `nextFh` on `f`, and the size of `f` then: an
`open`, or a `create` that succeeds. -/
inductive Obtains (f : InodeId) (c : ClientId) (σ : Cluster) : List Label → Nat → Prop
  | opened {file : FileRecord} (flags : Nat) (alive : σ.metadata.fileAt f = some file) :
      Obtains f c σ [.openRead c ⟨f,flags⟩,.openInsert c] file.size
  | created (host : Host) (r : CreateReq) (flags : Nat) (made : (MetaService.create host r σ.metadata).reply.isOk = true)
      (numbered : σ.metadata.nextIno = f) : Obtains f c σ [.create c host r flags] 0

theorem Obtains.editing {opens : List Label} {size : Nat} (obtains : Obtains f c σ opens size) (ran : run bs opens σ = some τ) :
    Editing f c σ.metadata.nextFh size τ := by
  cases obtains with
  | opened flags alive => exact opened_editing alive ran
  | created host r flags made numbered => exact numbered ▸ created_editing made ran

/-- A client opens or creates a file, writes through the handle and truncates the file in
any order, and flushes: the size that is recorded is the one these calls ask for exactly
when the last truncation is respected. -/
theorem truncation_respected_iff {opens : List Label} {size : Nat} (obtains : Obtains f c σ opens size) (edits : List Label)
    (wait : WaitPolicy) (host closing : Host) (idxs : List BlockIdx) (clock : SystemTime)
    (own : ∀ label ∈ edits, Edits f c σ.metadata.nextFh label) (succeeds : Throughout bs (Succeeds bs) (opens ++ edits) σ)
    (ran : run bs (opens ++ edits ++ .publish c σ.metadata.nextFh wait host :: idxs.map (.send c)) σ = some υ)
    (accepted : Accepted c closing clock υ) (closed : step bs (.close c closing clock) υ = some τ) :
    (∃ record, τ.metadata.fileAt f = some record ∧ record.size = edits.foldl resized size) ↔
      (edits.foldl Extent.next ⟨size,none,0⟩).Respected := by
  rw [Cluster.run_append,Cluster.run_append] at ran
  obtain ⟨edited,ran,flushed⟩ := Option.bind_eq_some_iff.mp ran
  obtain ⟨opened,first,ran⟩ := Option.bind_eq_some_iff.mp ran
  obtain ⟨begun,published,sent⟩ := Option.bind_eq_some_iff.mp flushed
  have editing := (obtains.editing first).run edits own (succeeds.append first) ran
  have start : Extent.Measures ⟨size,none,0⟩ size size := ⟨fun _ => ⟨rfl,rfl⟩,nofun,(Nat.max_zero _).symm⟩
  have measured := start.foldl edits
  have recorded : ∃ record, τ.metadata.fileAt f = some record ∧ record.size = edits.foldl hinted size := by
    rcases sends_flush idxs (editing.publish published) sent with flushing | idle
    · exact flushing.close accepted closed
    · obtain ⟨p,_,task,_⟩ := close_steps closed
      rw [idle] at task
      cases task
  obtain ⟨record,present,size⟩ := recorded
  rw [← measured.respected_iff]
  constructor
  · intro kept
    obtain ⟨record',present',size'⟩ := kept
    rw [present] at present'
    cases present'
    exact size.symm.trans size'
  · intro same
    exact ⟨record,present,size.trans same⟩

/-- `setattr(size = n)` on inode 2. -/
def truncateTo (n : Nat) : Label := .call Host.still (.setAttr ⟨2,some n,none,none,none,none,none,none,none⟩)

/-- Client 0 has published a file of two bytes. -/
def twoBytes : Cluster := (run 1 (writeByte 0 1 0 7 ++ writeByte 0 1 1 7 ++
  [.publish 0 1 .primariesOnly Host.still,.send 0 0,.send 0 1,.close 0 Host.still 0]) (withFile 1 ["n"])).getD (withFile 1 ["n"])

theorem twoBytes_file : ∃ file, twoBytes.metadata.fileAt 2 = some file ∧ file.size = 2 := ⟨_,rfl,rfl⟩

/-- The client truncates the file and writes up to its old end again. -/
def truncateThenFill : List Label := truncateTo 0::(writeByte 1 2 0 9 ++ writeByte 1 2 1 9)

theorem truncation_respected_iff_filled : ∃ υ τ,
    run 1 (openFile 1 ++ truncateThenFill ++ .publish 1 2 .primariesOnly Host.still::[0,1].map (.send 1)) twoBytes = some υ ∧
    step 1 (.close 1 Host.still 0) υ = some τ ∧ ∃ record, τ.metadata.fileAt 2 = some record ∧ record.size = 2 := by
  obtain ⟨file,alive,size⟩ := twoBytes_file
  have ran : ∃ υ, run 1 (openFile 1 ++ truncateThenFill ++ .publish 1 2 .primariesOnly Host.still::[0,1].map (.send 1)) twoBytes =
      some υ ∧ Accepted 1 Host.still 0 υ ∧ ∃ τ, step 1 (.close 1 Host.still 0) υ = some τ := by
    refine ⟨_,rfl,?_,_,rfl⟩
    intro p task handle found
    cases task
    cases found
    rfl
  obtain ⟨υ,ran,accepted,τ,closed⟩ := ran
  have recorded := (truncation_respected_iff (.opened 0 alive) truncateThenFill .primariesOnly Host.still Host.still [0,1] 0
    (by decide) (by decide) ran accepted closed).mpr (by rw [size]; decide)
  rw [size] at recorded
  exact ⟨υ,τ,ran,closed,recorded⟩

/-- `echo hi > f` on a longer file: the size at open comes back. -/
theorem truncation_undone : ∃ τ, (twoBytes.metadata.fileAt 2).map (·.size) = some 2 ∧
    run 1 (openFile 1 ++ (truncateTo 0::writeByte 1 2 0 9) ++ flushBlock 1 2 0) twoBytes = some τ ∧
    (truncateTo 0::writeByte 1 2 0 9).foldl resized 2 = 1 ∧ (τ.metadata.fileAt 2).map (·.size) = some 2 := by
  refine ⟨_,rfl,rfl,rfl,rfl⟩

end Dtmpfs
