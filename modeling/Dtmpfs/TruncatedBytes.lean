import Dtmpfs.FailedWrite
import Dtmpfs.ResizedBlocks

/-! Bytes that a truncation has cut off, when the file grows again. One offset is followed
through every place its byte can be kept in: dirty buffers, publishes, messages, stores
and caches. -/
namespace Dtmpfs
open MetaService MetaState OrderedMap FlatFile Cluster

/-- A copy of the block of `offset` has a zero there. -/
def ZeroAt (bs offset : Nat) (bytes : Bytes) : Prop := bytes.getD (offset % bs) 0 = 0

namespace OpenFile

variable {bs o : Nat} {answer : BlockIdx → NodeId → NodeAnswer} {file : OpenFile} {cache : BlockCache}

/-- What a handle gets for a block that it does not hold itself. -/
def copyOf (bs : Nat) (answer : BlockIdx → NodeId → NodeAnswer) (file : OpenFile) (cache : BlockCache) (idx : BlockIdx) : Bytes :=
  match cache[file.cacheKey idx]? with
  | some bytes => bytes
  | none =>
    match file.blockMap[idx]? with
    | none => []
    | some placement =>
      match tryNodes bs (answer idx) placement.nodes (.storeUnavailable placement.primary) with
      | .ok (bytes,_) => bytes
      | .error _ => []

theorem steady_copyOf : Steady bs (copyOf bs answer file cache) answer file cache := by
  intro idx placement placed
  unfold copyOf
  cases cache[file.cacheKey idx]? with
  | some bytes => rfl
  | none =>
    intro bytes flag asked
    simp only [placed,asked]

theorem content_dirty {stored : BlockIdx → Bytes} {buf : Bytes} (dirty : file.dirty[o / bs]? = some buf) :
    content bs stored file o = 0 ↔ ZeroAt bs o buf := by
  unfold content
  rw [dirty]
  rfl

/-- A round of a write elsewhere puts no byte at the offset. -/
theorem round_zero (positive : 0 < bs) {offset done done' : Nat} {data : Bytes} {file' : OpenFile}
    (outside : ¬ (offset ≤ o ∧ o < offset + data.length))
    (held : ∀ buf, file.dirty[o / bs]? = some buf → bs ≤ buf.length ∧ ZeroAt bs o buf)
    (zero : (offset + done) / bs = o / bs → content bs (copyOf bs answer file cache) file o = 0)
    (round : (writeChunk bs answer file offset data done cache).1 = .ok (file',done')) (buf : Bytes)
    (dirty : file'.dirty[o / bs]? = some buf) : bs ≤ buf.length ∧ ZeroAt bs o buf := by
  obtain ⟨low,high⟩ := block_bounds positive (offset + done)
  have length := chunkOf_length bs offset data done
  rcases (writeChunk_cases bs answer file offset data done cache).2 with ⟨e,failed⟩ | ⟨before,written,started⟩
  · rw [failed] at round
    cases round
  · rw [written] at round
    cases round
    rcases Classical.em ((offset + done) / bs = o / bs) with here | elsewhere
    · have small : o % bs < bs := Nat.mod_lt o positive
      have place : o / bs * bs + o % bs = o := Nat.div_add_mod' o bs
      have none := zero here
      have room : bs ≤ before.length := started_room (here ▸ fun buf dirty => (held buf dirty).1) started
      have rest := @started_content bs _ answer file cache steady_copyOf _ _ _ _ started
      simp only [afterChunk,get_insert] at dirty
      rw [if_pos here] at dirty
      cases dirty
      generalize (offset + done) / bs = idx at *
      subst here
      have fits : offset + done - o / bs * bs + (chunkOf bs offset data done).length ≤ before.length := by omega
      refine ⟨by rw [splice_length fits]; exact room,?_⟩
      unfold ZeroAt
      rw [splice_getD fits,if_neg (by omega)]
      have partly : ¬ (offset + done - o / bs * bs = 0 ∧ (chunkOf bs offset data done).length = bs) := by omega
      rw [rest partly small,place]
      exact none
    · rw [afterChunk_dirty file data before elsewhere] at dirty
      exact held buf dirty

end OpenFile

/-- The metadata server has block `idx` of `f` without a placement, and no client knows one. -/
structure Unlearned (f : InodeId) (idx : BlockIdx) (σ : Cluster) : Prop where
  unplaced : placementOf σ.metadata f idx = none
  handles : ∀ c (fh : Fh) handle, (σ.clients c).openFiles[fh]? = some handle → handle.ino = f → handle.blockMap[idx]? = none
  opens : ∀ c snapshot, (σ.clients c).task = some (.opening snapshot) → snapshot.ino = f → (insertLocs ∅ snapshot.blockMap)[idx]? = none

/-- A copy in a cache is from before the file was cut behind block `last` at generation
`generation`, and not of a block that was kept then. -/
def Outdated (last : BlockIdx) (generation : Generation) (key : BlockKey) : Prop :=
  key.generation < generation ∨ (key.generation = generation ∧ last < key.blockIdx)

/-- The handle would get the block from such a copy. -/
def TakesOutdated (last : BlockIdx) (generation : Generation) (client : Client) (handle : OpenFile) (idx : BlockIdx) : Prop :=
  handle.dirty[idx]? = none ∧ handle.blockMap.contains idx = true ∧ client.blockCache.contains (handle.cacheKey idx) = true ∧
    Outdated last generation (handle.cacheKey idx)

/-- A `DeleteBlock` of the block is on its way to the node. -/
def Doomed (f : InodeId) (idx : BlockIdx) (node : NodeId) (σ : Cluster) : Prop := ∃ d ∈ σ.deletes, d.node = node ∧ d.key = ⟨f,idx,0⟩

/-- Wherever the byte at offset `o` of `f` can come from, it is zero: copies that are not
are out of use. -/
structure Wiped (bs : Nat) (f : InodeId) (o : Nat) (last : BlockIdx) (generation : Generation) (σ : Cluster) : Prop where
  handles : ∀ c (fh : Fh) handle, (σ.clients c).openFiles[fh]? = some handle → handle.ino = f →
    ∀ buf, handle.dirty[o / bs]? = some buf → bs ≤ buf.length ∧ ZeroAt bs o buf
  writing : ∀ c fh offset data done handle, (σ.clients c).task = some (.writing fh offset data done) →
    (σ.clients c).openFiles[fh]? = some handle → handle.ino = f → ¬ (offset ≤ o ∧ o < offset + data.length)
  publishing : ∀ c p data, (σ.clients c).task = some (.publishing p) → p.ino = f → p.dirty[o / bs]? = some data → ZeroAt bs o data
  messages : ∀ m ∈ σ.writes, m.key = ⟨f,o / bs,0⟩ → ZeroAt bs o m.data
  slots : ∀ node bytes, σ.slot node f (o / bs) = some bytes →
    ZeroAt bs o bytes ∨ (Unlearned f (o / bs) σ ∧ Doomed f (o / bs) node σ)
  caches : ∀ c key bytes, (σ.clients c).blockCache[key]? = some bytes → key.ino = f → key.blockIdx = o / bs →
    ZeroAt bs o bytes ∨ Outdated last generation key

/-- A write to offset `o` of `f` begins. -/
def WritesTo (f : InodeId) (o : Nat) (label : Label) (σ : Cluster) : Prop :=
  match label with
  | .write c fh offset data => (∃ handle, (σ.clients c).openFiles[fh]? = some handle ∧ handle.ino = f) ∧
      offset ≤ o ∧ o < offset + data.length
  | _ => False

/-- Blocks of `f` are placed once its `DeleteBlock` messages have all been delivered, and
its read-modify-writes do not start from copies older than the truncation. -/
def AfterCut (bs : Nat) (f : InodeId) (last : BlockIdx) (generation : Generation) (label : Label) (σ : Cluster) : Prop :=
  match label with
  | .publish c fh _ _ => ∀ handle, (σ.clients c).openFiles[fh]? = some handle → handle.ino = f → ∀ d ∈ σ.deletes, d.key.ino ≠ f
  | .loseDelete d => d.key.ino ≠ f
  | .chunk c _ => ∀ fh offset data done handle, (σ.clients c).task = some (.writing fh offset data done) →
      (σ.clients c).openFiles[fh]? = some handle → handle.ino = f →
      ¬ TakesOutdated last generation (σ.clients c) handle ((offset + done) / bs)
  | _ => True

section Steps

variable {bs : Nat} {f : InodeId} {o : Nat} {last : BlockIdx} {generation : Generation} {σ τ : Cluster} {c : ClientId} {label : Label}

/-- Only `AllocateBlocks` places a block. -/
theorem serve_unplaced {host : Host} {call : Call} {s : MetaState} {idx : BlockIdx} (unplaced : placementOf s f idx = none)
    (other : ∀ idxs, call ≠ .allocateBlocks f idxs) : placementOf (serve host call s) f idx = none := by
  have change := serve_change host call s f
  unfold placementOf at unplaced ⊢
  revert unplaced
  generalize (serve host call s).inodes[f]? = after at change ⊢
  generalize s.inodes[f]? = before at change ⊢
  intro unplaced
  cases change with
  | absent => rfl
  | kept old new kind generation blocks =>
    simpa [blocks] using unplaced
  | drawn before new drew number generation blocks =>
    simp [blocks]
  | removed old cause => rfl
  | resized old new r n request mine size kind generation blocks =>
    simp only [Option.bind_some] at unplaced ⊢
    rw [blocks,get_filter,unplaced]
    rfl
  | published old new r handle request found mine written matched accepted kind generation blocks =>
    simpa [blocks] using unplaced
  | placed old new idxs request kind generation extended => exact absurd request (other idxs)

theorem requested_allocate {host : Host} {idxs : List BlockIdx} (stepped : step bs label σ = some τ)
    (asked : requested label σ = some (host,.allocateBlocks f idxs)) :
    ∃ c fh wait handle, label = .publish c fh wait host ∧ (σ.clients c).openFiles[fh]? = some handle ∧ handle.ino = f := by
  unfold requested at asked
  split at asked
  next host' request =>
    cases asked
    cases (call_steps stepped).1
  next => cases asked
  next =>
    split at asked
    next => cases asked
    next => cases asked
  next c fh wait host' =>
    split at asked
    next handle found =>
      split at asked
      next => cases asked
      next =>
        cases asked
        exact ⟨c,fh,wait,handle,rfl,found,rfl⟩
    next => cases asked
  next =>
    split at asked
    next =>
      obtain ⟨_,_,same⟩ := Option.map_eq_some_iff.mp asked
      cases same
    next => cases asked
  next => cases asked

theorem Unlearned.step {idx : BlockIdx} (unlearned : Unlearned f idx σ) (stepped : step bs label σ = some τ)
    (quiet : ∀ c fh wait host handle, label = .publish c fh wait host → (σ.clients c).openFiles[fh]? = some handle → handle.ino ≠ f) :
    Unlearned f idx τ := by
  refine ⟨?_,?_,?_⟩
  · rw [step_metadata stepped]
    cases asked : requested label σ with
    | none => exact unlearned.unplaced
    | some request =>
      obtain ⟨host,call⟩ := request
      refine serve_unplaced unlearned.unplaced ?_
      intro idxs same
      subst same
      obtain ⟨c,fh,wait,handle,publish,held,mine⟩ := requested_allocate stepped asked
      exact quiet c fh wait host handle publish held mine
  · intro c fh handle held mine
    by_cases new : label.client = some c ∧ given label σ = some fh
    · rcases given_handle stepped new.1 new.2 held with ⟨empty,_⟩ | ⟨snapshot,_,task,same⟩
      · rw [empty]
        exact Std.ExtTreeMap.getElem?_empty
      · subst same
        exact unlearned.opens c snapshot task mine
    · obtain ⟨file,found,ino,same | ⟨wait,host,_,publish,_⟩⟩ := kept_handle stepped new held
      · rw [same]
        exact unlearned.handles c fh file found (ino ▸ mine)
      · exact absurd (ino ▸ mine) (quiet c fh wait host file publish found)
  · intro c snapshot task mine
    rcases step_task stepped task with before | begun
    · exact unlearned.opens c snapshot before mine
    · cases begun with | opening r _ read =>
      obtain ⟨ino,placed⟩ := openRead_placed read
      rw [placed,← ino,mine]
      exact unlearned.unplaced

/-- The dirty blocks of a handle are taken over, unless the step is a round of a write. -/
theorem step_dirty {fh : Fh} {handle' : OpenFile} (stepped : step bs label σ = some τ) (other : ∀ c' up, label ≠ .chunk c' up)
    (held : (τ.clients c).openFiles[fh]? = some handle') : handle'.dirty = ∅ ∨
    ∃ handle, (σ.clients c).openFiles[fh]? = some handle ∧ handle'.ino = handle.ino ∧ handle'.dirty = handle.dirty := by
  rcases step_openFile stepped held with before | renewed
  · exact .inr ⟨handle',before,rfl,rfl⟩
  · cases renewed with
    | created host r flags ok => exact .inl rfl
    | opened snapshot task => exact .inl rfl
    | begun _ wait host handle locs found dirty told => exact .inl rfl
    | wrote up _ offset data done handle _ task found ino generation blockMap => exact absurd rfl (other c up)
    | closed host clock p handle attr task found => exact .inr ⟨handle,found,rfl,rfl⟩

namespace Wiped

/-- What a handle has at the offset, if it does not get the block from an old cached copy. -/
theorem content_zero (wiped : Wiped bs f o last generation σ) {fh : Fh} {handle : OpenFile}
    (held : (σ.clients c).openFiles[fh]? = some handle) (mine : handle.ino = f)
    (fresh : ¬ TakesOutdated last generation (σ.clients c) handle (o / bs)) (up : NodeId → Bool) :
    OpenFile.content bs (OpenFile.copyOf bs (σ.answer up f) handle (σ.clients c).blockCache) handle o = 0 := by
  cases dirty : handle.dirty[o / bs]? with
  | some buf => exact (OpenFile.content_dirty dirty).mpr (wiped.handles c fh handle held mine buf dirty).2
  | none =>
    unfold OpenFile.content
    rw [dirty]
    dsimp only
    split
    next known =>
      obtain ⟨placement,placed⟩ := (contains_iff _ _).mp known
      unfold OpenFile.copyOf
      cases cached : (σ.clients c).blockCache[handle.cacheKey (o / bs)]? with
      | some bytes =>
        rcases wiped.caches c _ bytes cached mine rfl with zero | old
        · exact zero
        · exact absurd ⟨dirty,known,(contains_iff _ _).mpr ⟨bytes,cached⟩,old⟩ fresh
      | none =>
        simp only [placed]
        split
        next bytes flag asked =>
          obtain ⟨node,_,told | ⟨_,hole⟩⟩ := tryNodes_answer placement.nodes _ asked
          · rcases wiped.slots node bytes told with zero | ⟨unlearned,_⟩
            · exact zero
            · rw [unlearned.handles c fh handle held mine] at placed
              cases placed
          · rw [hole]
            exact OpenFile.getD_zeros _ _
        next => rfl
    next => rfl

theorem step_handles (positive : 0 < bs) (wiped : Wiped bs f o last generation σ) (stepped : step bs label σ = some τ)
    (after : AfterCut bs f last generation label σ) {fh : Fh} {handle' : OpenFile} (held : (τ.clients c).openFiles[fh]? = some handle')
    (mine : handle'.ino = f) (buf : Bytes) (dirty : handle'.dirty[o / bs]? = some buf) : bs ≤ buf.length ∧ ZeroAt bs o buf := by
  by_cases round : ∃ c' up, label = .chunk c' up
  · obtain ⟨c',up,rfl⟩ := round
    obtain ⟨fh',offset,data,done,handle,task,found,outcome⟩ := chunk_steps stepped
    dsimp only at outcome
    have old (held : (σ.clients c).openFiles[fh]? = some handle') : bs ≤ buf.length ∧ ZeroAt bs o buf :=
      wiped.handles c fh handle' held mine buf dirty
    have written {file' : OpenFile} {done' : Nat} (ok : (handle.writeChunk bs (σ.answer up handle.ino) offset data done
        (σ.clients c').blockCache).1 = .ok (file',done')) (same : file'.dirty = handle'.dirty) (ino : handle.ino = f) :
        bs ≤ buf.length ∧ ZeroAt bs o buf := by
      subst ino
      refine OpenFile.round_zero positive (wiped.writing c' fh' offset data done handle task found rfl)
        (wiped.handles c' fh' handle found rfl) ?_ ok buf (same ▸ dirty)
      intro here
      exact wiped.content_zero found rfl (here ▸ after fh' offset data done handle task found rfl) up
    have kept {file' : OpenFile} {done' : Nat} (ok : (handle.writeChunk bs (σ.answer up handle.ino) offset data done
        (σ.clients c').blockCache).1 = .ok (file',done')) : file'.ino = handle.ino := by
      rcases (OpenFile.writeChunk_cases bs (σ.answer up handle.ino) handle offset data done (σ.clients c').blockCache).2 with
        ⟨_,failed⟩ | ⟨_,same,_⟩
      · rw [failed] at ok
        cases ok
      · rw [same] at ok
        cases ok
        rfl
    rcases Classical.em (c = c') with rfl | apart
    · rcases outcome with ⟨_,rfl⟩ | ⟨file',done',ok,_,rfl⟩ | ⟨file',done',ok,_,rfl⟩
      · rw [setClient_same] at held
        exact old held
      · simp only [setClient_same,get_insert] at held
        split at held
        next =>
          cases held
          exact written ok rfl ((kept ok).symm.trans mine)
        next => exact old held
      · simp only [setClient_same,get_insert] at held
        split at held
        next =>
          cases held
          exact written ok rfl ((kept ok).symm.trans mine)
        next => exact old held
    · rcases outcome with ⟨_,rfl⟩ | ⟨_,_,_,_,rfl⟩ | ⟨_,_,_,_,rfl⟩
      all_goals
        rw [setClient_other _ _ apart] at held
        exact old held
  · rcases step_dirty stepped (fun c' up same => round ⟨c',up,same⟩) held with clean | ⟨handle,found,ino,same⟩
    · rw [clean,Std.ExtTreeMap.getElem?_empty] at dirty
      cases dirty
    · exact wiped.handles c fh handle found (ino ▸ mine) buf (same ▸ dirty)

theorem step_writing (wiped : Wiped bs f o last generation σ) (stepped : step bs label σ = some τ) (elsewhere : ¬ WritesTo f o label σ)
    {fh : Fh} {offset done : Nat} {data : Bytes} {handle' : OpenFile} (task : (τ.clients c).task = some (.writing fh offset data done))
    (held : (τ.clients c).openFiles[fh]? = some handle') (mine : handle'.ino = f) : ¬ (offset ≤ o ∧ o < offset + data.length) := by
  rcases step_turn stepped c with same | turn
  · rw [same] at task held
    exact wiped.writing c fh offset data done handle' task held mine
  · generalize τ.clients c = client at turn task held
    cases turn with
    | writing _ fh' offset' data' idle =>
      cases task
      exact fun inside => elsewhere ⟨⟨handle',held,mine⟩,inside⟩
    | evicted _ keep => exact wiped.writing c fh offset data done handle' task held mine
    | wrote _ up fh' offset' data' done' handle handle'' left before found ino _ blockMap rest =>
      rcases rest with rfl | ⟨_,rfl⟩
      · cases task
      · cases task
        simp only [get_insert,if_true] at held
        cases held
        exact wiped.writing c fh offset data done' handle before found (ino ▸ mine)
    | fetched _ fh' idx up handle idle found =>
      rw [idle] at task
      cases task
    | released _ fh' idle =>
      rw [idle] at task
      cases task
    | closed _ host clock p handle reply before found =>
      cases reply with
      | error fault => cases task
      | ok attr => cases task
    | _ => cases task

theorem step_publishing (wiped : Wiped bs f o last generation σ) (stepped : step bs label σ = some τ) {p : Publish} {data : Bytes}
    (task : (τ.clients c).task = some (.publishing p)) (mine : p.ino = f) (dirty : p.dirty[o / bs]? = some data) : ZeroAt bs o data := by
  rcases step_task stepped task with before | busy
  · exact wiped.publishing c p data before mine dirty
  · cases busy with
    | begun fh wait host handle blockMap found => exact (wiped.handles c fh handle found mine data dirty).2
    | sent idx p before => exact wiped.publishing c p data before mine dirty

theorem step_messages (wiped : Wiped bs f o last generation σ) (stepped : step bs label σ = some τ) {m : WriteBlock} (sent : m ∈ τ.writes)
    (key : m.key = ⟨f,o / bs,0⟩) : ZeroAt bs o m.data := by
  rcases step_writes stepped with same | ⟨c,idx,p,placement,data,_,task,dirty,_,more⟩ | ⟨c,stray,p,_,task,more⟩ | ⟨_,_,_,fewer⟩
  · exact wiped.messages m (same ▸ sent) key
  · rw [more] at sent
    rcases List.mem_append.mp sent with old | new
    · exact wiped.messages m old key
    · unfold Publish.background at new
      split at new
      next =>
        obtain ⟨_,_,rfl⟩ := List.mem_map.mp new
        cases key
        exact wiped.publishing c p data task rfl dirty
      next => cases new
  · rw [more] at sent
    rcases List.mem_append.mp sent with old | new
    · exact wiped.messages m old key
    · obtain ⟨idx,_,made⟩ := List.mem_filterMap.mp new
      unfold nextWrite at made
      split at made
      next data placement dirty _ =>
        split at made
        next =>
          obtain ⟨_,_,rfl⟩ := Option.map_eq_some_iff.mp made
          cases key
          exact wiped.publishing c p data task rfl dirty
        next => cases made
      next => cases made
  · rw [fewer] at sent
    exact wiped.messages m (List.mem_of_mem_erase sent) key

theorem step_slots (wiped : Wiped bs f o last generation σ) (stepped : step bs label σ = some τ)
    (after : AfterCut bs f last generation label σ) {node : NodeId} {bytes : Bytes} (told : τ.slot node f (o / bs) = some bytes) :
    ZeroAt bs o bytes ∨ (Unlearned f (o / bs) τ ∧ Doomed f (o / bs) node τ) := by
  have emptied {message : DeleteBlock} (delivered : label = .deliverDelete message) (here : message.node = node)
      (named : message.key = ⟨f,o / bs,0⟩) : False := by
    subst delivered
    obtain ⟨_,rfl⟩ := deliverDelete_steps stepped
    simp only [slot,setStore_stores,here,if_true,StoreState.deleteBlock_get,named] at told
    cases told
  rcases step_block stepped node ⟨f,o / bs,0⟩ with same | ⟨sent,executes,stored⟩ | ⟨message,_,delivered,here,named⟩ | restarted
  · rcases wiped.slots node bytes (same.symm.trans told) with zero | ⟨unlearned,d,waiting,here,named⟩
    · exact .inl zero
    · right
      have mine : d.key.ino = f := by rw [named]
      refine ⟨unlearned.step stepped ?_,d,?_,here,named⟩
      · intro c fh wait host handle publish held own
        subst publish
        exact after handle held own d waiting mine
      · rcases step_waits stepped waiting (fun lost => by subst lost; exact after mine) with still | delivered
        · exact still
        · exact absurd (emptied delivered here named) not_false
  · left
    rw [slot,stored] at told
    cases told
    unfold Executes at executes
    split at executes
    next c idx =>
      obtain ⟨p,placement,task,key,dirty,_⟩ := executes
      cases key
      exact wiped.publishing c p bytes task rfl dirty
    next message =>
      subst executes
      exact wiped.messages _ (deliver_steps stepped).1 rfl
    next => cases executes
  · exact absurd (emptied delivered here named) not_false
  · subst restarted
    cases Option.some.inj stepped
    simp only [slot,setStore_stores,if_true] at told
    cases told

theorem step_caches (wiped : Wiped bs f o last generation σ) (stepped : step bs label σ = some τ) {key : BlockKey} {bytes : Bytes}
    (cached : (τ.clients c).blockCache[key]? = some bytes) (mine : key.ino = f) (block : key.blockIdx = o / bs) :
    ZeroAt bs o bytes ∨ Outdated last generation key := by
  have fetched {handle : OpenFile} {fh : Fh} {idx : BlockIdx} {up : NodeId → Bool} (held : (σ.clients c).openFiles[fh]? = some handle)
      (cached : (handle.fetchBlock bs (σ.answer up handle.ino) idx (σ.clients c).blockCache).2[key]? = some bytes) :
      ZeroAt bs o bytes ∨ Outdated last generation key := by
    rcases OpenFile.fetchBlock_cache bs (σ.answer up handle.ino) handle idx (σ.clients c).blockCache with
      same | ⟨placement,told,placed,asked,filled⟩
    · exact wiped.caches c key bytes (same ▸ cached) mine block
    · rw [filled,get_insert] at cached
      split at cached
      next here =>
        cases cached
        subst here
        change handle.ino = f at mine
        change idx = o / bs at block
        rw [block] at asked placed
        left
        obtain ⟨node,_,stored | ⟨_,hole⟩⟩ := tryNodes_answer placement.nodes _ asked
        · rcases wiped.slots node bytes (mine ▸ stored) with zero | ⟨unlearned,_⟩
          · exact zero
          · rw [unlearned.handles c fh handle held mine] at placed
            cases placed
        · rw [hole]
          exact OpenFile.getD_zeros _ _
      next => exact wiped.caches c key bytes cached mine block
  rcases step_cached stepped cached with before | ⟨fh,idx,up,handle,_,held,told⟩ | ⟨up,fh,offset,data,done,handle,_,_,held,told⟩
  · exact wiped.caches c key bytes before mine block
  · exact fetched held told
  · rcases (OpenFile.writeChunk_cases bs (σ.answer up handle.ino) handle offset data done (σ.clients c).blockCache).1 with same | same
    · exact wiped.caches c key bytes (same ▸ told) mine block
    · rw [same] at told
      exact fetched held told

/-- A step after the truncation that does not write to the offset leaves it zero. -/
theorem step (positive : 0 < bs) (wiped : Wiped bs f o last generation σ) (stepped : Cluster.step bs label σ = some τ)
    (after : AfterCut bs f last generation label σ) (elsewhere : ¬ WritesTo f o label σ) : Wiped bs f o last generation τ where
  handles _ _ _ held mine buf dirty := wiped.step_handles positive stepped after held mine buf dirty
  writing _ _ _ _ _ _ task held mine := wiped.step_writing stepped elsewhere task held mine
  publishing _ _ _ task mine dirty := wiped.step_publishing stepped task mine dirty
  messages _ sent key := wiped.step_messages stepped sent key
  slots _ _ told := wiped.step_slots stepped after told
  caches _ _ _ cached mine block := wiped.step_caches stepped cached mine block

theorem run (positive : 0 < bs) (labels : List Label) (wiped : Wiped bs f o last generation σ)
    (ran : Runs.run (Cluster.step bs) labels σ = some τ)
    (after : Runs.Each (Cluster.step bs) (AfterCut bs f last generation) labels σ)
    (elsewhere : Runs.Each (Cluster.step bs) (fun label σ => ¬ WritesTo f o label σ) labels σ) : Wiped bs f o last generation τ := by
  induction labels generalizing σ with
  | nil =>
    cases ran
    exact wiped
  | cons label rest ih =>
    obtain ⟨υ,stepped,rest_ran⟩ := Runs.run_cons ran
    obtain ⟨now,later⟩ := (Runs.each_cons stepped rest).mp after
    obtain ⟨here,beyond⟩ := (Runs.each_cons stepped rest).mp elsewhere
    exact ih (wiped.step positive stepped now here) rest_ran later beyond

end Wiped

end Steps

/-- What a client leaves behind that has created a file, written its blocks, flushed and
released it. -/
def published (size : Nat) (blocks : List (BlockIdx × Bytes)) : Cluster :=
  {Cluster.new 0 1 (2^30) with
    metadata := MetaService.run [(Host.still,Call.heartbeatNode 0 ⟨"n","a",0,0,0⟩),(Host.still,Call.create ⟨ROOT,"f",0,0,0⟩),
      (Host.still,Call.allocateBlocks 2 (blocks.map (·.1))),(Host.still,Call.close ⟨1,2,0,size,0,0,blocks.map (·.1)⟩)] (MetaState.new 0 1)
    stores := fun node => if node = "n" then blocks.foldl (fun store block => store.insertBlock ⟨2,block.1,0⟩ block.2) (.new "n" (2^30))
      else .new node (2^30)}

end Dtmpfs
