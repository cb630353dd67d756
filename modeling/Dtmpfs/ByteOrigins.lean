import Dtmpfs.BlockRanges
import Dtmpfs.Semantics.Origins

/-! Where the bytes of a read come from, whatever has failed, come back empty, come late
or been given up: they are zeros, or some client wrote them to that file at that offset. -/
namespace Dtmpfs
open FlatFile OrderedMap

/-- Where the bytes of each inode may come from. -/
abbrev Origin := InodeId → Nat → UInt8 → Prop

namespace OpenFile

def CacheFrom (origin : Origin) (bs : Nat) (cache : BlockCache) : Prop :=
  ∀ (key : BlockKey) (bytes : Bytes), cache[key]? = some bytes → From (origin key.ino) (key.blockIdx * bs) bytes

/-- What the handle has and what it can be told comes from `origin`. -/
structure Sourced (origin : Origin) (bs : Nat) (answer : BlockIdx → NodeId → NodeAnswer) (file : OpenFile) : Prop where
  dirty : ∀ (idx : BlockIdx) (buf : Bytes), file.dirty[idx]? = some buf → From (origin file.ino) (idx * bs) buf
  told : ∀ (idx : BlockIdx) (node : NodeId) (bytes : Bytes), answer idx node = .data bytes → From (origin file.ino) (idx * bs) bytes

section Handles

variable {origin : Origin} {bs : Nat} {answer : BlockIdx → NodeId → NodeAnswer} {file : OpenFile} {cache : BlockCache}

theorem tryNodes_from {near : Nat → UInt8 → Prop} {start : Nat} {answer : NodeId → NodeAnswer}
    (told : ∀ node bytes, answer node = .data bytes → From near start bytes) (nodes : List NodeId) (e : DtmpfsError) {bytes : Bytes}
    {cached : Bool} (asked : tryNodes bs answer nodes e = .ok (bytes,cached)) : From near start bytes := by
  induction nodes generalizing e with
  | nil => cases asked
  | cons node rest ih =>
    unfold tryNodes at asked
    split at asked
    next data heard =>
      cases asked
      exact told node _ heard
    next =>
      cases asked
      exact from_zeros bs
    next => exact ih _ asked
    next => exact ih _ asked

theorem fetchBlock_from (sourced : Sourced origin bs answer file) (cached : CacheFrom origin bs cache) (idx : BlockIdx) {block : Bytes}
    (fetched : (fetchBlock bs answer file idx cache).1 = .ok block) : From (origin file.ino) (idx * bs) block := by
  rcases fetchBlock_source fetched with dirty | known | ⟨_,placement,flag,_,asked⟩
  · exact sourced.dirty idx block dirty
  · exact cached (file.cacheKey idx) block known
  · exact tryNodes_from (sourced.told idx) placement.nodes _ asked

theorem fetchBlock_cacheFrom (sourced : Sourced origin bs answer file) (cached : CacheFrom origin bs cache) (idx : BlockIdx) :
    CacheFrom origin bs (fetchBlock bs answer file idx cache).2 := by
  rcases fetchBlock_cache bs answer file idx cache with same | ⟨placement,bytes,_,asked,filled⟩
  · rw [same]
    exact cached
  · rw [filled]
    intro key block found
    rcases insert_some found with ⟨rfl,rfl⟩ | ⟨_,before⟩
    · exact tryNodes_from (sourced.told idx) placement.nodes _ asked
    · exact cached key block before

theorem started_from (sourced : Sourced origin bs answer file) (cached : CacheFrom origin bs cache) {idx inBlock chunkLen : Nat} {buf : Bytes}
    (started : file.dirty[(idx : BlockIdx)]? = some buf ∨
      (file.dirty[(idx : BlockIdx)]? = none ∧ (initialBlock bs answer file idx inBlock chunkLen cache).1 = .ok buf)) :
    From (origin file.ino) (idx * bs) buf := by
  rcases started with dirty | ⟨_,initial⟩
  · exact sourced.dirty idx buf dirty
  · unfold initialBlock at initial
    split at initial
    next =>
      cases initial
      exact from_zeros bs
    next =>
      split at initial
      next =>
        have fetch {block : Bytes} := @fetchBlock_from origin bs answer file cache sourced cached idx block
        split at initial
        next => cases initial
        next block cache' fetched =>
          cases initial
          rw [fetched] at fetch
          exact (fetch rfl).append (from_zeros _)
      next =>
        cases initial
        exact from_zeros bs

/-- A round of `apply_write` patches its block with bytes of the write. -/
theorem afterChunk_from (positive : 0 < bs) {offset done : Nat} {data buf : Bytes} (sourced : Sourced origin bs answer file)
    (room : bs ≤ buf.length) (old : From (origin file.ino) ((offset + done) / bs * bs) buf)
    (new : ∀ (k : Nat) (byte : UInt8), data[k]? = some byte → origin file.ino (offset + k) byte) (idx : BlockIdx) (bytes : Bytes)
    (found : (file.afterChunk bs offset data done buf).dirty[idx]? = some bytes) : From (origin file.ino) (idx * bs) bytes := by
  rcases insert_some found with ⟨rfl,rfl⟩ | ⟨_,before⟩
  · obtain ⟨low,high⟩ := block_bounds positive (offset + done)
    have place : (offset + done) / bs * bs + (offset + done - (offset + done) / bs * bs) = offset + done := Nat.add_sub_cancel' low
    apply old.splice
    · omega
    · rw [place]
      intro k byte copied
      rw [chunkOf,List.getElem?_take] at copied
      split at copied
      · rw [List.getElem?_drop] at copied
        rw [Nat.add_assoc]
        exact .inr (new (done + k) byte copied)
      · cases copied
  · exact sourced.dirty idx bytes before

theorem readLoop_from (positive : 0 < bs) (sourced : Sourced origin bs answer file) (stop fuel cur : Nat)
    (cached : CacheFrom origin bs cache) {bytes : Bytes} (done : (readLoop bs answer file stop fuel cur cache).1 = .ok bytes) :
    From (origin file.ino) cur bytes := by
  refine readLoop_rule positive (From (origin file.ino)) cached done
    (fun idx _ cached => fetchBlock_cacheFrom sourced cached idx) ?_ ?_ (fun _ => .nil) (fun _ _ _ front back => front.append back)
  · intro idx cache block cached _ fetched inBlock want _
    have part := (fetchBlock_from sourced cached idx fetched).drop inBlock
    exact (part.take _).append (from_zeros _)
  · intro idx _ _ inBlock want _
    exact from_zeros want

end Handles

end OpenFile

/-- A write asked for through a handle on inode `ino`. -/
structure Draft where
  ino : InodeId
  offset : Nat
  data : Bytes

/-- The bytes of the write are among those of `origin`. -/
def Draft.Allowed (origin : Origin) (d : Draft) : Prop :=
  ∀ (k : Nat) (byte : UInt8), d.data[k]? = some byte → origin d.ino (d.offset + k) byte

/-- One of the writes has the byte at the offset of the inode. -/
def Wrote (drafts : List Draft) (ino : InodeId) (offset : Nat) (byte : UInt8) : Prop :=
  ∃ d ∈ drafts, d.ino = ino ∧ d.offset ≤ offset ∧ d.data[offset - d.offset]? = some byte

namespace Cluster

/-- The write a step begins. -/
def noted (label : Label) (σ : Cluster) : List Draft :=
  match label with
  | .write c fh offset data => ((σ.clients c).openFiles[fh]?.map fun file => ⟨file.ino,offset,data⟩).toList
  | _ => []

/-- The writes begun in a run. -/
def drafted (bs : Nat) : List Label → Cluster → List Draft
  | [],_ => []
  | label::rest,σ => noted label σ ++ (step bs label σ).elim [] (drafted bs rest)

/-- Every byte there is, in the stores, on its way to them or with the clients, comes from `origin`. -/
structure Sourced (bs : Nat) (origin : Origin) (σ : Cluster) : Prop where
  stored : ∀ (node : NodeId) (key : BlockKey) (bytes : Bytes), (σ.stores node).blocks[key]? = some bytes →
    From (origin key.ino) (key.blockIdx * bs) bytes
  flying : ∀ message ∈ σ.writes, From (origin message.key.ino) (message.key.blockIdx * bs) message.data
  cached : ∀ c : ClientId, OpenFile.CacheFrom origin bs (σ.clients c).blockCache
  dirty : ∀ (c : ClientId) (fh : Fh) (file : OpenFile), (σ.clients c).openFiles[fh]? = some file →
    ∀ (idx : BlockIdx) (buf : Bytes), file.dirty[idx]? = some buf → From (origin file.ino) (idx * bs) buf
  publishing : ∀ (c : ClientId) (p : Publish), (σ.clients c).task = some (.publishing p) →
    ∀ (idx : BlockIdx) (buf : Bytes), p.dirty[idx]? = some buf → From (origin p.ino) (idx * bs) buf
  writing : ∀ (c : ClientId) (fh : Fh) (offset : Nat) (data : Bytes) (done : Nat), (σ.clients c).task = some (.writing fh offset data done) →
    ∀ file : OpenFile, (σ.clients c).openFiles[fh]? = some file → Draft.Allowed origin ⟨file.ino,offset,data⟩

section Steps

variable {bs : Nat} {origin : Origin} {c : ClientId} {label : Label} {σ τ : Cluster}

/-- And so does all a handle can be told. -/
theorem Sourced.file (sourced : Sourced bs origin σ) {fh : Fh} {file : OpenFile} (held : (σ.clients c).openFiles[fh]? = some file)
    (up : NodeId → Bool) : file.Sourced origin bs (σ.answer up file.ino) := by
  apply OpenFile.Sourced.mk
  · exact sourced.dirty c fh file held
  · intro idx node bytes told
    unfold answer at told
    split at told
    next =>
      split at told
      next data found =>
        cases told
        unfold StoreState.readBlock at found
        split at found
        next => cases found
        next stored =>
          cases found
          exact sourced.stored node _ _ stored
      next => cases told
    next => cases told

/-- A round of `apply_write` leaves dirty and cached only what was there, and bytes of the write. -/
theorem writeChunk_from (positive : 0 < bs) {answer : BlockIdx → NodeId → NodeAnswer} {file : OpenFile} {cache : BlockCache}
    (sourced : file.Sourced origin bs answer) (cached : OpenFile.CacheFrom origin bs cache) (roomy : file.Roomy bs) {offset : Nat}
    {data : Bytes} (allowed : Draft.Allowed origin ⟨file.ino,offset,data⟩) (done : Nat) :
    OpenFile.CacheFrom origin bs (file.writeChunk bs answer offset data done cache).2 ∧
    ∀ file' done', (file.writeChunk bs answer offset data done cache).1 = .ok (file',done') →
      file'.ino = file.ino ∧ ∀ (idx : BlockIdx) (buf : Bytes), file'.dirty[idx]? = some buf → From (origin file.ino) (idx * bs) buf := by
  obtain ⟨caches,outcome⟩ := OpenFile.writeChunk_cases bs answer file offset data done cache
  constructor
  · rcases caches with same | fetched
    · rw [same]
      exact cached
    · rw [fetched]
      exact OpenFile.fetchBlock_cacheFrom sourced cached _
  · intro file' done' wrote
    rcases outcome with ⟨e,failed⟩ | ⟨buf,result,started⟩
    · rw [failed] at wrote
      cases wrote
    · rw [result] at wrote
      cases wrote
      exact ⟨rfl,OpenFile.afterChunk_from positive sourced (OpenFile.started_room (roomy _) started)
        (OpenFile.started_from sourced cached started) allowed⟩

theorem step_stored (stepped : step bs label σ = some τ) (sourced : Sourced bs origin σ) (node : NodeId) (key : BlockKey) (bytes : Bytes)
    (held : (τ.stores node).blocks[key]? = some bytes) : From (origin key.ino) (key.blockIdx * bs) bytes := by
  rcases step_block stepped node key with same | ⟨data,executes,wrote⟩ | ⟨message,_,rfl,rfl,rfl⟩ | rfl
  · rw [same] at held
    exact sourced.stored node key bytes held
  · rw [wrote] at held
    cases held
    cases label with
    | send c idx =>
      obtain ⟨p,_,task,rfl,dirty,_⟩ := executes
      exact sourced.publishing c p task idx bytes dirty
    | deliver message =>
      cases executes
      obtain ⟨waiting,_⟩ := deliver_steps stepped
      exact sourced.flying _ waiting
    | _ => cases executes
  · obtain ⟨_,rfl⟩ := deliverDelete_steps stepped
    rw [setStore_stores,if_pos rfl,StoreState.deleteBlock_get,if_pos rfl] at held
    cases held
  · cases Option.some.inj stepped
    rw [setStore_stores,if_pos rfl] at held
    simp [StoreState.new] at held

theorem step_flying (stepped : step bs label σ = some τ) (sourced : Sourced bs origin σ) (message : WriteBlock)
    (waiting : message ∈ τ.writes) : From (origin message.key.ino) (message.key.blockIdx * bs) message.data := by
  rcases step_writes stepped with same | ⟨c,idx,p,placement,data,_,task,dirty,_,more⟩ | ⟨c,stray,p,_,task,more⟩ | ⟨_,_,_,fewer⟩
  · rw [same] at waiting
    exact sourced.flying message waiting
  · rw [more] at waiting
    rcases List.mem_append.mp waiting with old | new
    · exact sourced.flying message old
    · unfold Publish.background at new
      split at new
      next =>
        obtain ⟨replica,_,rfl⟩ := List.mem_map.mp new
        exact sourced.publishing c p task idx data dirty
      next => cases new
  · rw [more] at waiting
    rcases List.mem_append.mp waiting with old | new
    · exact sourced.flying message old
    · obtain ⟨idx,_,next⟩ := List.mem_filterMap.mp new
      unfold nextWrite at next
      split at next
      next data placement dirty _ =>
        split at next
        next =>
          obtain ⟨node,_,rfl⟩ := Option.map_eq_some_iff.mp next
          exact sourced.publishing c p task idx data dirty
        next => cases next
      next => cases next
  · rw [fewer] at waiting
    exact sourced.flying message (List.mem_of_mem_erase waiting)

theorem step_cacheFrom (positive : 0 < bs) (stepped : step bs label σ = some τ) (roomy : AllRoomy bs σ) (sourced : Sourced bs origin σ)
    (c : ClientId) : OpenFile.CacheFrom origin bs (τ.clients c).blockCache := by
  intro key bytes found
  rcases step_cached stepped found with before | ⟨fh,idx,up,handle,_,held,filled⟩ |
    ⟨up,fh,offset,data,done,handle,_,task,held,filled⟩
  · exact sourced.cached c key bytes before
  · exact OpenFile.fetchBlock_cacheFrom (sourced.file held up) (sourced.cached c) idx key bytes filled
  · have allowed := sourced.writing c fh offset data done task handle held
    exact (writeChunk_from positive (sourced.file held up) (sourced.cached c) (roomy c fh handle held) allowed done).1 key bytes filled

/-- What a round of a write leaves in the handles. -/
theorem chunk_dirty (positive : 0 < bs) {up : NodeId → Bool} (round : step bs (.chunk c up) σ = some τ) (roomy : AllRoomy bs σ)
    (sourced : Sourced bs origin σ) {fh : Fh} {file : OpenFile} (held : (τ.clients c).openFiles[fh]? = some file) (idx : BlockIdx)
    (buf : Bytes) (found : file.dirty[idx]? = some buf) : From (origin file.ino) (idx * bs) buf := by
  obtain ⟨fh',offset,data,done,handle,task,had,outcome⟩ := chunk_steps round
  have allowed := sourced.writing c fh' offset data done task handle had
  obtain ⟨_,kept⟩ := writeChunk_from positive (sourced.file had up) (sourced.cached c) (roomy c fh' handle had) allowed done
  rcases outcome with ⟨_,rfl⟩ | ⟨file',done',wrote,_,rfl⟩ | ⟨file',done',wrote,_,rfl⟩
  · rw [setClient_same] at held
    exact sourced.dirty c fh file held idx buf found
  · obtain ⟨ino,from_⟩ := kept file' done' wrote
    rw [setClient_same] at held
    rcases insert_some held with ⟨_,rfl⟩ | ⟨_,before⟩
    · rw [ino]
      exact from_ idx buf found
    · exact sourced.dirty c fh file before idx buf found
  · obtain ⟨ino,from_⟩ := kept file' done' wrote
    rw [setClient_same] at held
    rcases insert_some held with ⟨_,rfl⟩ | ⟨_,before⟩
    · exact ino ▸ from_ idx buf found
    · exact sourced.dirty c fh file before idx buf found

theorem step_dirty (positive : 0 < bs) (stepped : step bs label σ = some τ) (roomy : AllRoomy bs σ) (sourced : Sourced bs origin σ)
    {fh : Fh} {file : OpenFile} (held : (τ.clients c).openFiles[fh]? = some file) (idx : BlockIdx) (buf : Bytes)
    (found : file.dirty[idx]? = some buf) : From (origin file.ino) (idx * bs) buf := by
  have clean (same : file.dirty = ∅) : From (origin file.ino) (idx * bs) buf := by
    rw [same] at found
    simp at found
  rcases step_openFile stepped held with before | renews
  · exact sourced.dirty c fh file before idx buf found
  · cases renews with
    | created host r flags ok => exact clean rfl
    | opened snapshot task => exact clean rfl
    | begun fh wait host handle locs had dirty told => exact clean rfl
    | closed host clock p handle attr task had => exact sourced.dirty c p.fh handle had idx buf found
    | wrote up _ offset data done _ _ task _ => exact chunk_dirty positive stepped roomy sourced held idx buf found

theorem step_publishing (stepped : step bs label σ = some τ) (sourced : Sourced bs origin σ) {p : Publish}
    (task : (τ.clients c).task = some (.publishing p)) (idx : BlockIdx) (buf : Bytes) (found : p.dirty[idx]? = some buf) :
    From (origin p.ino) (idx * bs) buf := by
  rcases step_task stepped task with before | busy
  · exact sourced.publishing c p before idx buf found
  · cases busy with
    | begun fh wait host handle blockMap had => exact sourced.dirty c fh handle had idx buf found
    | sent _ p before => exact sourced.publishing c p before idx buf found

/-- A handle that is written to stays the same file's. -/
theorem step_writing (stepped : step bs label σ = some τ) (sourced : Sourced bs origin σ)
    (known : ∀ d ∈ noted label σ, Draft.Allowed origin d) {fh : Fh} {offset done : Nat} {data : Bytes}
    (task : (τ.clients c).task = some (.writing fh offset data done)) {file : OpenFile}
    (held : (τ.clients c).openFiles[fh]? = some file) : Draft.Allowed origin ⟨file.ino,offset,data⟩ := by
  rcases step_task stepped task with before | busy
  · rcases step_openFile stepped held with had | renews
    · exact sourced.writing c fh offset data done before file had
    · cases renews with
      | created host r flags ok =>
        obtain ⟨idle,_⟩ := create_steps stepped
        rw [idle] at before
        cases before
      | opened snapshot opening =>
        rw [opening] at before
        cases before
      | begun fh wait host handle locs had dirty told =>
        obtain ⟨_,idle,_⟩ := publish_steps stepped
        rw [idle] at before
        cases before
      | closed host clock p handle attr publishing had =>
        rw [publishing] at before
        cases before
      | wrote up _ _ _ _ handle _ writing had ino =>
        rw [ino]
        rw [writing] at before
        cases before
        exact sourced.writing c fh offset data done writing handle had
  · cases busy with
    | writing fh offset data =>
      obtain ⟨handle,_,had,_,rfl⟩ := write_steps stepped
      rw [setClient_same] at held
      apply known
      rw [noted,held]
      exact List.mem_singleton.mpr rfl
    | wrote up fh offset data done done' before =>
      rcases step_openFile stepped held with had | renews
      · exact sourced.writing c fh offset data done before file had
      · cases renews with
        | wrote _ _ _ _ _ handle _ writing had ino =>
          rw [ino]
          rw [writing] at before
          cases before
          exact sourced.writing c fh offset data done writing handle had

theorem step_sourced (positive : 0 < bs) (stepped : step bs label σ = some τ) (roomy : AllRoomy bs σ)
    (known : ∀ d ∈ noted label σ, Draft.Allowed origin d) (sourced : Sourced bs origin σ) : Sourced bs origin τ where
  stored := step_stored stepped sourced
  flying := step_flying stepped sourced
  cached := step_cacheFrom positive stepped roomy sourced
  dirty _ _ _ held := step_dirty positive stepped roomy sourced held
  publishing _ _ task := step_publishing stepped sourced task
  writing _ _ _ _ _ task _ held := step_writing stepped sourced known task held

theorem run_sourced (positive : 0 < bs) (labels : List Label) (ran : run bs labels σ = some τ) (roomy : AllRoomy bs σ)
    (known : ∀ d ∈ drafted bs labels σ, Draft.Allowed origin d) (sourced : Sourced bs origin σ) : Sourced bs origin τ := by
  induction labels generalizing σ with
  | nil =>
    cases ran
    exact sourced
  | cons label rest ih =>
    obtain ⟨υ,stepped,ran⟩ := Option.bind_eq_some_iff.mp ran
    rw [drafted,stepped,Option.elim_some,List.forall_mem_append] at known
    exact ih ran (step_roomy positive stepped roomy) known.2 (step_sourced positive stepped roomy known.1 sourced)

end Steps

theorem new_sourced (bs : Nat) (origin : Origin) (now : SystemTime) (replicationFactor ramBudget : Nat) :
    Sourced bs origin (.new now replicationFactor ramBudget) where
  stored node key bytes held := by simp [new,StoreState.new] at held
  flying _ waiting := absurd waiting List.not_mem_nil
  cached c key bytes held := by simp [new] at held
  dirty c fh file held := by simp [new] at held
  publishing c p task := by cases task
  writing c fh offset data done task := by cases task

/-- In any run, with clients, servers and messages failing at will, each byte a block
fetch or a read returns is zero or was written before, at its place in that file. -/
theorem no_thin_air {bs : Nat} (positive : 0 < bs) {now : SystemTime} {replicationFactor ramBudget : Nat} {labels : List Label} {τ : Cluster}
    (ran : run bs labels (.new now replicationFactor ramBudget) = some τ) {c : ClientId} {fh : Fh} {file : OpenFile}
    (held : (τ.clients c).openFiles[fh]? = some file) (up : NodeId → Bool) :
    (∀ idx block, (file.fetchBlock bs (τ.answer up file.ino) idx (τ.clients c).blockCache).1 = .ok block →
      From (Wrote (drafted bs labels (.new now replicationFactor ramBudget)) file.ino) (idx * bs) block) ∧
    ∀ off size bytes, (file.read bs (τ.answer up file.ino) off size (τ.clients c).blockCache).1 = .ok bytes →
      From (Wrote (drafted bs labels (.new now replicationFactor ramBudget)) file.ino) off bytes := by
  have known : ∀ d ∈ drafted bs labels (.new now replicationFactor ramBudget),
      Draft.Allowed (Wrote (drafted bs labels (.new now replicationFactor ramBudget))) d := by
    intro d member k byte found
    refine ⟨d,member,rfl,Nat.le_add_right d.offset k,?_⟩
    rw [Nat.add_sub_cancel_left]
    exact found
  have sourced := run_sourced positive labels ran (new_roomy bs now replicationFactor ramBudget) known
    (new_sourced bs _ now replicationFactor ramBudget)
  constructor
  · intro idx block fetched
    exact OpenFile.fetchBlock_from (sourced.file held up) (sourced.cached c) idx fetched
  · intro off size bytes done
    exact OpenFile.readLoop_from positive (sourced.file held up) _ _ off (sourced.cached c) done

/-- A client writes a byte and stops in the middle of its flush. -/
def stoppedFlush : List Label :=
  [.call Host.still (.heartbeatNode 0 ⟨"n","a",0,0,0⟩),.create 0 Host.still ⟨ROOT,"f",0,0,0⟩ 0,.write 0 1 3 [7],
    .chunk 0 (fun _ => true),.publish 0 1 .primariesOnly Host.still,.send 0 1,.abort 0 []]

theorem no_thin_air_stopped : ∃ τ file, run 2 stoppedFlush (.new 0 1 64) = some τ ∧ (τ.clients 0).openFiles[(1 : Fh)]? = some file ∧
    (file.read 2 (τ.answer (fun _ => true) file.ino) 2 2 (τ.clients 0).blockCache).1 = .ok [0,7] ∧
    ((7 : UInt8) = 0 ∨ Wrote (drafted 2 stoppedFlush (.new 0 1 64)) file.ino (2 + 1) 7) := by
  have ran : (run 2 stoppedFlush (.new 0 1 64)).isSome = true := by decide
  have held : ((((run 2 stoppedFlush (.new 0 1 64)).get ran).clients 0).openFiles[(1 : Fh)]?).isSome = true := rfl
  refine ⟨_,_,(Option.some_get ran).symm,(Option.some_get held).symm,rfl,?_⟩
  obtain ⟨_,reads⟩ := no_thin_air (by decide) (Option.some_get ran).symm (Option.some_get held).symm (fun _ => true)
  exact reads 2 2 [0,7] rfl 1 7 rfl

end Cluster

end Dtmpfs
