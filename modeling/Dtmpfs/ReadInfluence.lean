import Dtmpfs.ClusterCases
import Dtmpfs.Semantics.Runs
import Dtmpfs.ValidPlacements

/-! What can change the reads through an open handle. Requests to the metadata server are
not among it, nor is what clients do to other files, or have not published yet. -/
namespace Dtmpfs
open OrderedMap

namespace OpenFile

variable {bs : Nat} {answer : BlockIdx → NodeId → NodeAnswer} {file : OpenFile} {first second : BlockCache}

/-- The caches have the same blocks for the handle. -/
def Agree (file : OpenFile) (first second : BlockCache) : Prop :=
  ∀ idx, second[file.cacheKey idx]? = first[file.cacheKey idx]?

theorem fetchBlock_agree (agree : file.Agree first second) (idx : BlockIdx) :
    (fetchBlock bs answer file idx second).1 = (fetchBlock bs answer file idx first).1 ∧
      file.Agree (fetchBlock bs answer file idx first).2 (fetchBlock bs answer file idx second).2 := by
  unfold fetchBlock
  rw [agree idx]
  split
  · exact ⟨rfl,agree⟩
  · split
    · exact ⟨rfl,agree⟩
    · split
      · exact ⟨rfl,agree⟩
      · split
        · exact ⟨rfl,agree⟩
        · refine ⟨rfl,?_⟩
          intro other
          simp only [get_insert,agree other]
        · exact ⟨rfl,agree⟩

/-- What one round of `read` adds to the buffer. -/
def readPiece (bs : Nat) (answer : BlockIdx → NodeId → NodeAnswer) (file : OpenFile) (stop cur : Nat) (cache : BlockCache) :
    Except DtmpfsError Bytes × BlockCache :=
  let idx := cur / bs
  let inBlock := cur - idx * bs
  let want := min (idx * bs + bs) stop - cur
  if file.blockMap.contains idx || file.dirty.contains idx then
    let fetched := fetchBlock bs answer file idx cache
    (fetched.1.map (fun block => (block.drop inBlock).take (min want (block.length - inBlock)) ++
      zeros (want - min want (block.length - inBlock))),fetched.2)
  else (.ok (zeros want),cache)

theorem readLoop_succ (bs : Nat) (answer : BlockIdx → NodeId → NodeAnswer) (file : OpenFile) (stop fuel cur : Nat) (cache : BlockCache) :
    (readLoop bs answer file stop (fuel + 1) cur cache).1 =
      if cur < stop then
        (readPiece bs answer file stop cur cache).1.bind (fun piece =>
          (readLoop bs answer file stop fuel (cur + (min (cur / bs * bs + bs) stop - cur)) (readPiece bs answer file stop cur cache).2).1.map
            (piece ++ ·))
      else .ok [] := by
  rw [readLoop]
  split
  · simp only [readPiece]
    cases file.blockMap.contains (cur / bs) || file.dirty.contains (cur / bs) with
    | true =>
      simp only [if_true]
      rcases fetchBlock bs answer file (cur / bs) cache with ⟨_ | block,kept⟩
      · rfl
      · simp only [Except.map,Except.bind]
        rcases readLoop bs answer file stop fuel (cur + (min (cur / bs * bs + bs) stop - cur)) kept with ⟨_ | _,_⟩ <;> rfl
    | false =>
      simp only [Bool.false_eq_true,if_false]
      rcases readLoop bs answer file stop fuel (cur + (min (cur / bs * bs + bs) stop - cur)) cache with ⟨_ | _,_⟩ <;> rfl
  · rfl

theorem readPiece_agree (agree : file.Agree first second) (stop cur : Nat) :
    (readPiece bs answer file stop cur second).1 = (readPiece bs answer file stop cur first).1 ∧
      file.Agree (readPiece bs answer file stop cur first).2 (readPiece bs answer file stop cur second).2 := by
  have fetched := @fetchBlock_agree bs answer file first second agree (cur / bs)
  unfold readPiece
  dsimp only
  split
  · rw [fetched.1]
    exact ⟨rfl,fetched.2⟩
  · exact ⟨rfl,agree⟩

theorem readLoop_agree (agree : file.Agree first second) (stop fuel cur : Nat) :
    (readLoop bs answer file stop fuel cur second).1 = (readLoop bs answer file stop fuel cur first).1 := by
  induction fuel generalizing cur first second with
  | zero => rfl
  | succ fuel ih =>
    obtain ⟨same,kept⟩ := @readPiece_agree bs answer file first second agree stop cur
    rw [readLoop_succ,readLoop_succ,same]
    split
    · congr
      funext piece
      rw [ih kept]
    · rfl

end OpenFile

namespace Cluster

/-- The steps that can change what is read through handle `fh` of client `c`, a handle of inode `f`. -/
def Influences (c : ClientId) (fh : Fh) (f : InodeId) (label : Label) (σ : Cluster) : Prop :=
  match label with
  | .create d _ _ _ | .openInsert d => d = c ∧ σ.metadata.nextFh = fh
  | .fetch d other _ _ => d = c ∧ ∃ handle, (σ.clients c).openFiles[other]? = some handle ∧ handle.ino = f
  | .chunk d _ => d = c ∧ ∃ other offset data done handle, (σ.clients c).task = some (.writing other offset data done) ∧
      (σ.clients c).openFiles[other]? = some handle ∧ handle.ino = f
  | .publish d other _ _ | .release d other => d = c ∧ other = fh
  | .close d _ _ => d = c ∧ ∃ p, (σ.clients c).task = some (.publishing p) ∧ p.fh = fh
  | .evict d keep => d = c ∧ ∃ key, key.ino = f ∧ keep key = false
  | .send d _ => ∃ p, (σ.clients d).task = some (.publishing p) ∧ p.ino = f
  | .deliver message => message.key.ino = f
  | .deliverDelete message => message.key.ino = f
  | .restart node => ∃ idx bytes, σ.slot node f idx = some bytes
  | .call _ _ | .openRead _ _ | .write _ _ _ _ | .abort _ _ | .lose _ | .loseDelete _ => False

/-- All that reads through the handle depend on is the same in both states. -/
structure SameReads (c : ClientId) (fh : Fh) (file : OpenFile) (σ τ : Cluster) : Prop where
  handle : (τ.clients c).openFiles[fh]? = some file
  cached : file.Agree (σ.clients c).blockCache (τ.clients c).blockCache
  stored : ∀ node idx, τ.slot node file.ino idx = σ.slot node file.ino idx
  known : ∀ node, σ.metadata.nodes.contains node = true → τ.metadata.nodes.contains node = true

variable {bs : Nat} {c : ClientId} {fh : Fh} {file : OpenFile} {σ τ υ : Cluster} {label : Label}

theorem SameReads.trans (first : SameReads c fh file σ τ) (second : SameReads c fh file τ υ) : SameReads c fh file σ υ where
  handle := second.handle
  cached idx := (second.cached idx).trans (first.cached idx)
  stored node idx := (second.stored node idx).trans (first.stored node idx)
  known node there := second.known node (first.known node there)

theorem step_known (stepped : step bs label σ = some τ) (node : NodeId) (there : σ.metadata.nodes.contains node = true) :
    τ.metadata.nodes.contains node = true := by
  rw [step_metadata stepped]
  cases requested label σ with
  | none => exact there
  | some request => exact (serve_nodesKept request.1 request.2 σ.metadata).registered node there

theorem step_slots (calm : ¬ Influences c fh file.ino label σ) (stepped : step bs label σ = some τ) (node : NodeId) (idx : BlockIdx) :
    τ.slot node file.ino idx = σ.slot node file.ino idx := by
  rcases step_block stepped node ⟨file.ino,idx,0⟩ with same | ⟨bytes,executed,_⟩ | ⟨message,_,rfl,_,key⟩ | rfl
  · exact same
  · cases label with
    | send d sent =>
      obtain ⟨p,_,task,key,_⟩ := executed
      exact absurd ⟨p,task,(congrArg BlockKey.ino key).symm⟩ calm
    | deliver message =>
      have same : message = ⟨node,⟨file.ino,idx,0⟩,bytes⟩ := executed
      have mine : message.key.ino = file.ino := by rw [same]
      exact absurd mine calm
    | _ => exact executed.elim
  · have mine : message.key.ino = file.ino := by rw [key]
    exact absurd mine calm
  · cases Option.some.inj stepped
    unfold slot
    simp only [setStore_stores]
    split
    next =>
      cases held : (σ.stores node).blocks[(⟨file.ino,idx,0⟩ : BlockKey)]? with
      | none => simp [StoreState.new]
      | some bytes => exact absurd ⟨idx,bytes,held⟩ calm
    next => rfl

/-- Another file's blocks come and go in the cache without touching this one's. -/
theorem fetchBlock_elsewhere {answer : BlockIdx → NodeId → NodeAnswer} {handle : OpenFile} (apart : handle.ino ≠ file.ino) (idx : BlockIdx)
    (cache : BlockCache) : file.Agree cache (handle.fetchBlock bs answer idx cache).2 := by
  intro other
  rcases OpenFile.fetchBlock_cache bs answer handle idx cache with same | ⟨_,bytes,_,_,filled⟩
  · rw [same]
  · have different : handle.cacheKey idx ≠ file.cacheKey other := fun same => apart (congrArg BlockKey.ino same)
    rw [filled,get_insert,if_neg different]

theorem writeChunk_elsewhere {answer : BlockIdx → NodeId → NodeAnswer} {handle : OpenFile} (apart : handle.ino ≠ file.ino) (offset : Nat)
    (data : Bytes) (done : Nat) (cache : BlockCache) : file.Agree cache (handle.writeChunk bs answer offset data done cache).2 := by
  rcases (OpenFile.writeChunk_cases bs answer handle offset data done cache).1 with same | fetched
  · rw [same]
    exact fun _ => rfl
  · rw [fetched]
    exact fetchBlock_elsewhere apart _ cache

theorem step_client (found : (σ.clients c).openFiles[fh]? = some file) (calm : ¬ Influences c fh file.ino label σ)
    (stepped : step bs label σ = some τ) :
    (τ.clients c).openFiles[fh]? = some file ∧ file.Agree (σ.clients c).blockCache (τ.clients c).blockCache := by
  have still : file.Agree (σ.clients c).blockCache (σ.clients c).blockCache := fun _ => rfl
  have kept {other : Fh} (apart : other ≠ fh) (handle : OpenFile) : ((σ.clients c).openFiles.insert other handle)[fh]? = some file := by
    rw [get_insert,if_neg apart]
    exact found
  rcases step_turn stepped c with same | turn
  · rw [same]
    exact ⟨found,still⟩
  · generalize τ.clients c = client at turn
    cases turn with
    | created _ host r flags idle => exact ⟨kept (fun same => calm ⟨rfl,same⟩) _,still⟩
    | opening _ r snapshot idle read => exact ⟨found,still⟩
    | opened _ snapshot task => exact ⟨kept (fun same => calm ⟨rfl,same⟩) _,still⟩
    | fetched _ other idx up handle idle there =>
      exact ⟨found,fetchBlock_elsewhere (fun same => calm ⟨rfl,handle,there,same⟩) _ _⟩
    | writing _ other offset data idle => exact ⟨found,still⟩
    | stopped _ up other offset data done handle task there =>
      exact ⟨found,writeChunk_elsewhere (fun same => calm ⟨rfl,other,offset,data,done,handle,task,there,same⟩) _ _ _ _⟩
    | wrote _ up other offset data done handle handle' left task there ino generation blockMap rest =>
      have apart : handle.ino ≠ file.ino := fun same => calm ⟨rfl,other,offset,data,done,handle,task,there,same⟩
      refine ⟨kept ?_ handle',writeChunk_elsewhere apart _ _ _ _⟩
      rintro rfl
      rw [found] at there
      cases there
      exact apart rfl
    | begun _ other wait host handle locs idle there => exact ⟨kept (fun same => calm ⟨rfl,same⟩) _,still⟩
    | sent _ idx p task => exact ⟨found,still⟩
    | closed _ host clock p handle reply task there =>
      cases reply with
      | ok attr => exact ⟨kept (fun same => calm ⟨rfl,p,task,same⟩) _,still⟩
      | error fault => exact ⟨found,still⟩
    | aborted _ stray => exact ⟨found,still⟩
    | released _ other idle =>
      have apart : other ≠ fh := fun same => calm ⟨rfl,same⟩
      refine ⟨?_,still⟩
      simp only [get_erase,apart,if_false]
      exact found
    | evicted _ keep =>
      refine ⟨found,?_⟩
      intro idx
      have stays : keep (file.cacheKey idx) = true := by
        by_contra dropped
        exact calm ⟨rfl,file.cacheKey idx,rfl,Bool.eq_false_iff.mpr dropped⟩
      rw [get_filter]
      cases (σ.clients c).blockCache[file.cacheKey idx]? with
      | none => rfl
      | some bytes => simp only [Option.filter_some,stays,if_true]

theorem step_reads (found : (σ.clients c).openFiles[fh]? = some file) (calm : ¬ Influences c fh file.ino label σ)
    (stepped : step bs label σ = some τ) : SameReads c fh file σ τ where
  handle := (step_client found calm stepped).1
  cached := (step_client found calm stepped).2
  stored := step_slots calm stepped
  known := step_known stepped

theorem run_reads (labels : List Label) (found : (σ.clients c).openFiles[fh]? = some file)
    (calm : Runs.Each (step bs) (fun label σ => ¬ Influences c fh file.ino label σ) labels σ)
    (ran : Runs.run (step bs) labels σ = some τ) : SameReads c fh file σ τ := by
  induction labels generalizing σ with
  | nil =>
    cases ran
    exact ⟨found,fun _ => rfl,fun _ _ => rfl,fun _ known => known⟩
  | cons label rest ih =>
    obtain ⟨υ,stepped,later⟩ := Runs.run_cons ran
    obtain ⟨first,calm⟩ := (Runs.each_cons stepped rest).mp calm
    have one := step_reads found first stepped
    exact one.trans (ih one.handle calm later)

theorem SameReads.answer {up : NodeId → Bool} (same : SameReads c fh file σ τ)
    (reached : ∀ node, up node = true → σ.metadata.nodes.contains node = true) : τ.answer up file.ino = σ.answer up file.ino := by
  funext idx node
  have stored := same.stored node idx
  unfold slot at stored
  simp only [Cluster.answer,StoreState.readBlock,stored]
  cases reaches : up node with
  | false => simp
  | true => simp only [reached node reaches,same.known node (reached node reaches)]

/-- Reads through an open handle are influenced by nothing else: whatever else happens, who
reaches the same nodes reads the same bytes, or fails in the same way. -/
theorem reads_undisturbed (bs : Nat) (labels : List Label) (found : (σ.clients c).openFiles[fh]? = some file)
    (calm : Runs.Each (step bs) (fun label σ => ¬ Influences c fh file.ino label σ) labels σ)
    (ran : Runs.run (step bs) labels σ = some τ) :
    (τ.clients c).openFiles[fh]? = some file ∧
      ∀ up off size, (∀ node, up node = true → σ.metadata.nodes.contains node = true) →
        (file.read bs (τ.answer up file.ino) off size (τ.clients c).blockCache).1 =
          (file.read bs (σ.answer up file.ino) off size (σ.clients c).blockCache).1 := by
  have same := run_reads labels found calm ran
  refine ⟨same.handle,?_⟩
  intro up off size reached
  rw [same.answer reached]
  exact OpenFile.readLoop_agree same.cached (off + size) size off

/-- Client 0 has made a file and published a byte of it. -/
def oneByte : Cluster := (Runs.run (step 1)
  [.call Host.still (.heartbeatNode 0 ⟨"n","a",0,64,0⟩),.create 0 Host.still ⟨ROOT,"f",0,0,0⟩ 0,.write 0 1 0 [7],.chunk 0 (· == "n"),
    .publish 0 1 .primariesOnly Host.still,.send 0 0,.close 0 Host.still 0] (new 0 1 64)).getD (new 0 1 64)

/-- The file is truncated and removed, and another client makes a new one. -/
def removedBehind : List Label :=
  [.call Host.still (.setAttr ⟨2,some 0,none,none,none,none,none,none,none⟩),.call Host.still (.unlink ROOT "f"),
    .create 1 Host.still ⟨ROOT,"f",0,0,0⟩ 0]

theorem oneByte_open : ((oneByte.clients 0).openFiles[(1 : Fh)]?).isSome = true := by decide

theorem reads_undisturbed_removed : ∃ τ file, Runs.run (step 1) removedBehind oneByte = some τ ∧
    (oneByte.clients 0).openFiles[(1 : Fh)]? = some file ∧
    (file.read 1 (oneByte.answer (· == "n") file.ino) 0 1 (oneByte.clients 0).blockCache).1 = .ok [7] ∧
    (file.read 1 (τ.answer (· == "n") file.ino) 0 1 (τ.clients 0).blockCache).1 =
      (file.read 1 (oneByte.answer (· == "n") file.ino) 0 1 (oneByte.clients 0).blockCache).1 := by
  obtain ⟨τ,ran⟩ := Option.isSome_iff_exists.mp (show (Runs.run (step 1) removedBehind oneByte).isSome = true by decide)
  have calm (f : InodeId) : Runs.Each (step 1) (fun label σ => ¬ Influences 0 1 f label σ) removedBehind oneByte := by
    intro before label after υ split _
    have member : label ∈ removedBehind := by simp [split]
    simp only [removedBehind,List.mem_cons,List.not_mem_nil,or_false] at member
    rcases member with rfl | rfl | rfl
    · exact id
    · exact id
    · exact fun mine => absurd mine.1 (by decide)
  have same := (reads_undisturbed 1 removedBehind (Option.some_get oneByte_open).symm (calm _) ran).2 (· == "n") 0 1
  refine ⟨τ,_,ran,(Option.some_get oneByte_open).symm,by decide,same ?_⟩
  intro node reached
  rw [eq_of_beq reached]
  decide

end Cluster

end Dtmpfs
