import Dtmpfs.FailedWrite
import Dtmpfs.ClusterCases
import Dtmpfs.Semantics.Checked
import Dtmpfs.Semantics.Tiling

/-! The loops of `apply_write` and `read` in the integers of the source, where every
operation may overflow and every slice may be out of bounds. The `usize` has `w` bits. -/
namespace Dtmpfs
open FlatFile OrderedMap Checked Tiling

namespace OpenFile

/-- The first lines of a round of either loop: `idx`, `in_block` and how much to take. -/
def chunkAt (w bs stop cur : Nat) : Option Piece := do
  let idx ← div cur bs
  let blockOff ← mul 64 idx bs
  let inBlock ← sub cur blockOff
  let blockEnd ← add 64 blockOff bs
  let chunkLen ← sub (min blockEnd stop) cur
  return ⟨idx,cast w inBlock,cast w chunkLen⟩

section Chunks

variable {w bs stop cur : Nat}

/-- The numbers both loops compute with. -/
structure Fits (w bs stop : Nat) : Prop where
  wide : 32 ≤ w
  positive : 0 < bs
  small : bs < 2^32
  low : stop < 2^63 + 2^32

theorem Fits.word (fits : Fits w bs stop) {n : Nat} (small : n < 2^32) : n < 2^w :=
  Nat.lt_of_lt_of_le small (Nat.pow_le_pow_right (by decide) fits.wide)

theorem chunkAt_eq (fits : Fits w bs stop) (more : cur < stop) : chunkAt w bs stop cur = some (pieceAt bs stop cur) := by
  obtain ⟨below,above⟩ := block_bounds fits.positive cur
  obtain ⟨_,inside,_⟩ := pieceAt_spec fits.positive more
  have small := fits.small
  have low := fits.low
  have product : mul 64 (cur / bs) bs = some (cur / bs * bs) := mul_eq (by omega)
  have difference : sub cur (cur / bs * bs) = some (cur - cur / bs * bs) := sub_eq below
  have edge : add 64 (cur / bs * bs) bs = some (cur / bs * bs + bs) := add_eq (by omega)
  have length : sub (min (cur / bs * bs + bs) stop) cur = some (min (cur / bs * bs + bs) stop - cur) := sub_eq (by omega)
  simp only [pieceAt] at inside ⊢
  have place : cast w (cur - cur / bs * bs) = cur - cur / bs * bs := cast_eq (fits.word (by omega))
  have count : cast w (min (cur / bs * bs + bs) stop - cur) = min (cur / bs * bs + bs) stop - cur := cast_eq (fits.word (by omega))
  simp only [chunkAt,div_eq fits.positive,product,difference,edge,length,place,count,Option.bind_eq_bind,Option.bind_some,Option.pure_def]

end Chunks

/-- The end of a round of `apply_write`: the buffer, `cur` and `written`. -/
def copyChunk (w : Nat) (chunk : Piece) (data : Bytes) (cur written : Nat) (buf : Bytes) : Option (Bytes × Nat × Nat) := do
  let bufEnd ← add w chunk.inBlock chunk.len
  let dataEnd ← add w (cast w written) chunk.len
  let source ← slice data (cast w written) dataEnd
  let buf ← overwrite buf chunk.inBlock bufEnd source
  let written ← add 32 written (cast 32 chunk.len)
  let cur ← add 64 cur (cast 64 chunk.len)
  return (buf,cur,written)

/-- A round of `apply_write`: its chunk, then the file, `cur` and `written`. -/
def writeRound (w bs : Nat) (answer : BlockIdx → NodeId → NodeAnswer) (stop : Nat) (data : Bytes) (cur written : Nat) (file : OpenFile)
    (cache : BlockCache) : Option (Piece × Except DtmpfsError (OpenFile × Nat × Nat) × BlockCache) := do
  let chunk ← chunkAt w bs stop cur
  let init : Except DtmpfsError Bytes × BlockCache := match file.dirty[chunk.idx]? with
    | some buf => (.ok buf,cache)
    | none => initialBlock bs answer file chunk.idx chunk.inBlock chunk.len cache
  match init with
  | (.error e,cache) => return (chunk,.error e,cache)
  | (.ok buf,cache) =>
    let (buf,cur,written) ← copyChunk w chunk data cur written buf
    return (chunk,.ok ({file with dirty := file.dirty.insert chunk.idx buf},cur,written),cache)

/-- The loop of `apply_write` with the chunks it visits; `none` is a panic, or a loop that
is not through after `fuel` rounds. -/
def writeRounds (w bs : Nat) (answer : BlockIdx → NodeId → NodeAnswer) (stop : Nat) (data : Bytes) :
    Nat → Nat → Nat → OpenFile → BlockCache → Option (List Piece × Except DtmpfsError Nat × OpenFile × BlockCache)
  | 0,_,_,_,_ => none
  | fuel + 1,cur,written,file,cache =>
    if cur < stop then do
      match ← writeRound w bs answer stop data cur written file cache with
      | (chunk,.error e,cache) => return ([chunk],.error e,file,cache)
      | (chunk,.ok (file,cur,written),cache) =>
        let (chunks,result) ← writeRounds w bs answer stop data fuel cur written file cache
        return (chunk::chunks,result)
    else return ([],.ok written,file,cache)

/-- `apply_write`. -/
def machineWrite (w bs : Nat) (answer : BlockIdx → NodeId → NodeAnswer) (fuel : Nat) (file : OpenFile) (offset : Nat) (data : Bytes)
    (cache : BlockCache) : Option (List Piece × Except DtmpfsError Nat × OpenFile × BlockCache) := do
  let stop ← add 64 offset (cast 64 data.length)
  match ← writeRounds w bs answer stop data fuel offset 0 file cache with
  | (chunks,.error e,file,cache) => return (chunks,.error e,file,cache)
  | (chunks,.ok written,file,cache) => return (chunks,.ok written,file.growTo stop,cache)

/-- What a round of `read` takes of a block, which may end before the chunk does. -/
def takeChunk (w : Nat) (chunk : Piece) (block : Bytes) : Option Bytes := do
  let avail := block.length - chunk.inBlock
  let take := min chunk.len avail
  let piece ← (if 0 < take then (add w chunk.inBlock take).bind (slice block chunk.inBlock) else some [])
  let rest ← (if take < chunk.len then (sub chunk.len take).map zeros else some [])
  return piece ++ rest

/-- A round of `read`: its chunk, then the bytes it adds and `cur`. -/
def readRound (w bs : Nat) (answer : BlockIdx → NodeId → NodeAnswer) (stop cur : Nat) (file : OpenFile) (cache : BlockCache) :
    Option (Piece × Except DtmpfsError (Bytes × Nat) × BlockCache) := do
  let chunk ← chunkAt w bs stop cur
  if file.blockMap.contains chunk.idx || file.dirty.contains chunk.idx then
    match fetchBlock bs answer file chunk.idx cache with
    | (.error e,cache) => return (chunk,.error e,cache)
    | (.ok block,cache) =>
      let piece ← takeChunk w chunk block
      let cur ← add 64 cur (cast 64 chunk.len)
      return (chunk,.ok (piece,cur),cache)
  else
    let cur ← add 64 cur (cast 64 chunk.len)
    return (chunk,.ok (zeros chunk.len,cur),cache)

/-- The loop of `read` with the chunks it visits. -/
def readRounds (w bs : Nat) (answer : BlockIdx → NodeId → NodeAnswer) (stop : Nat) (file : OpenFile) :
    Nat → Nat → BlockCache → Option (List Piece × Except DtmpfsError Bytes × BlockCache)
  | 0,_,_ => none
  | fuel + 1,cur,cache =>
    if cur < stop then do
      match ← readRound w bs answer stop cur file cache with
      | (chunk,.error e,cache) => return ([chunk],.error e,cache)
      | (chunk,.ok (piece,cur),cache) =>
        match ← readRounds w bs answer stop file fuel cur cache with
        | (chunks,.error e,cache) => return (chunk::chunks,.error e,cache)
        | (chunks,.ok rest,cache) => return (chunk::chunks,.ok (piece ++ rest),cache)
    else return ([],.ok [],cache)

/-- `read`. -/
def machineRead (w bs : Nat) (answer : BlockIdx → NodeId → NodeAnswer) (fuel : Nat) (file : OpenFile) (off size : Nat) (cache : BlockCache) :
    Option (List Piece × Except DtmpfsError Bytes × BlockCache) := do
  let stop ← add 64 off (cast 64 size)
  readRounds w bs answer stop file fuel off cache

section Writing

variable {w bs offset done fuel : Nat} {answer : BlockIdx → NodeId → NodeAnswer} {file : OpenFile} {cache : BlockCache} {data : Bytes}

theorem copyChunk_eq (fits : Fits w bs (offset + data.length)) (few : data.length < 2^32) (more : done < data.length) {buf : Bytes}
    (room : bs ≤ buf.length) :
    copyChunk w (pieceAt bs (offset + data.length) (offset + done)) data (offset + done) done buf =
      some (splice buf (offset + done - (offset + done) / bs * bs) (chunkOf bs offset data done),
        offset + (done + (chunkOf bs offset data done).length),done + (chunkOf bs offset data done).length) := by
  have going : offset + done < offset + data.length := Nat.add_lt_add_left more offset
  obtain ⟨_,inside,_,before,_⟩ := pieceAt_spec fits.positive going
  have length : (chunkOf bs offset data done).length = (pieceAt bs (offset + data.length) (offset + done)).len :=
    chunkOf_length bs offset data done
  have copied : (data.drop done).take (pieceAt bs (offset + data.length) (offset + done)).len = chunkOf bs offset data done := rfl
  have place : offset + done - (offset + done) / bs * bs = (pieceAt bs (offset + data.length) (offset + done)).inBlock := rfl
  rw [place,length]
  generalize pieceAt bs (offset + data.length) (offset + done) = chunk at *
  have small := fits.small
  have low := fits.low
  have bufEnd : add w chunk.inBlock chunk.len = some (chunk.inBlock + chunk.len) := add_eq (fits.word (by omega))
  have kept : cast w done = done := cast_eq (fits.word (by omega))
  have dataEnd : add w done chunk.len = some (done + chunk.len) := add_eq (fits.word (by omega))
  have taken : slice data done (done + chunk.len) = some (chunkOf bs offset data done) := by
    rw [slice_eq (by omega),copied]
  have written : add 32 done chunk.len = some (done + chunk.len) := add_eq (by omega)
  have next : add 64 (offset + done) chunk.len = some (offset + (done + chunk.len)) := by
    rw [add_eq (by omega),Nat.add_assoc]
  have narrow : cast 32 chunk.len = chunk.len := cast_eq (by omega)
  have wide : cast 64 chunk.len = chunk.len := cast_eq (by omega)
  have overwritten : overwrite buf chunk.inBlock (chunk.inBlock + chunk.len) (chunkOf bs offset data done) =
      some (splice buf chunk.inBlock (chunkOf bs offset data done)) := overwrite_eq (by omega) length
  simp only [copyChunk,bufEnd,kept,dataEnd,taken,overwritten,narrow,wide,written,next,Option.bind_eq_bind,Option.bind_some,Option.pure_def]

/-- A round does what `writeChunk` does with unbounded numbers. -/
theorem writeRound_eq (fits : Fits w bs (offset + data.length)) (few : data.length < 2^32) (more : done < data.length)
    (roomy : Roomy bs file) :
    writeRound w bs answer (offset + data.length) data (offset + done) done file cache =
      some (pieceAt bs (offset + data.length) (offset + done),
        match writeChunk bs answer file offset data done cache with
        | (.error e,cache) => (.error e,cache)
        | (.ok (file,done),cache) => (.ok (file,offset + done,done),cache)) := by
  have going : offset + done < offset + data.length := Nat.add_lt_add_left more offset
  have length : (chunkOf bs offset data done).length = (pieceAt bs (offset + data.length) (offset + done)).len :=
    chunkOf_length bs offset data done
  have start {buf : Bytes} := @started_room bs answer file cache (pieceAt bs (offset + data.length) (offset + done)).idx
    (pieceAt bs (offset + data.length) (offset + done)).inBlock (pieceAt bs (offset + data.length) (offset + done)).len buf (roomy _)
  have copy {buf : Bytes} (room : bs ≤ buf.length) := copyChunk_eq fits few more room
  rw [length] at copy
  unfold writeRound
  rw [chunkAt_eq fits going]
  simp only [Option.bind_eq_bind,Option.bind_some]
  unfold writeChunk
  dsimp only [pieceAt] at *
  cases dirty : file.dirty[(offset + done) / bs]? with
  | some buf =>
    dsimp only
    rw [copy (start (.inl dirty))]
    rfl
  | none =>
    dsimp only
    rcases begun : initialBlock bs answer file ((offset + done) / bs) (offset + done - (offset + done) / bs * bs)
      (min ((offset + done) / bs * bs + bs) (offset + data.length) - (offset + done)) cache with ⟨result,cache'⟩
    rw [begun] at start
    cases result with
    | error e => rfl
    | ok buf =>
      dsimp only
      rw [copy (start (.inr ⟨dirty,rfl⟩))]
      rfl

/-- The loop ends as `writeLoop` does, and has visited the pieces up to the one where it
has failed, if it has. -/
theorem writeRounds_eq {rounds : Nat} (fits : Fits w bs (offset + data.length)) (few : data.length < 2^32) (roomy : Roomy bs file)
    (bounded : done ≤ data.length) (enough : data.length - done ≤ rounds) (spare : data.length - done < fuel) :
    ∃ visited, writeRounds w bs answer (offset + data.length) data fuel (offset + done) done file cache =
        some (visited,writeLoop bs answer offset data rounds done file cache) ∧
      visited <+: pieces bs (offset + data.length) rounds (offset + done) ∧
      ∀ written, (writeLoop bs answer offset data rounds done file cache).1 = .ok written →
        visited = pieces bs (offset + data.length) rounds (offset + done) := by
  induction fuel generalizing done file cache rounds with
  | zero => omega
  | succ fuel ih =>
    unfold writeRounds
    by_cases more : done < data.length
    · have going : offset + done < offset + data.length := Nat.add_lt_add_left more offset
      obtain ⟨rounds,rfl⟩ : ∃ fewer, rounds = fewer + 1 := ⟨rounds - 1,by omega⟩
      have length : (chunkOf bs offset data done).length = (pieceAt bs (offset + data.length) (offset + done)).len :=
        chunkOf_length bs offset data done
      obtain ⟨nonempty,inside⟩ := chunkOf_pos fits.positive offset more
      obtain ⟨_,outcome⟩ := writeChunk_cases bs answer file offset data done cache
      rw [if_pos going,writeRound_eq fits few more roomy,writeLoop,if_pos going,pieces,if_pos going]
      simp only [Option.bind_eq_bind,Option.bind_some]
      rcases round : writeChunk bs answer file offset data done cache with ⟨result,cache'⟩
      rw [round] at outcome
      rcases outcome with ⟨e,failed⟩ | ⟨buf,result,started⟩
      · cases failed
        refine ⟨_,rfl,List.cons_prefix_cons.mpr ⟨rfl,List.nil_prefix⟩,?_⟩
        intro written ended
        cases ended
      · cases result
        obtain ⟨visited,looped,before,all⟩ := @ih (done + (chunkOf bs offset data done).length)
          (file.afterChunk bs offset data done buf) cache' rounds
          (afterChunk_roomy fits.positive roomy (started_room (roomy _) started)) inside (by omega) (by omega)
        rw [← length,Nat.add_assoc]
        dsimp only
        rw [looped]
        refine ⟨_,rfl,List.cons_prefix_cons.mpr ⟨rfl,before⟩,?_⟩
        intro written finished
        rw [all written finished]
    · have through : ¬ offset + done < offset + data.length := by omega
      have nothing : writeLoop bs answer offset data rounds done file cache = (.ok done,file,cache) := by
        cases rounds with
        | zero => rfl
        | succ rounds => rw [writeLoop,if_neg through]
      rw [if_neg through,nothing,pieces_past through]
      exact ⟨[],rfl,List.nil_prefix,fun _ _ => rfl⟩

end Writing

section Reading

variable {w bs stop cur fuel : Nat} {answer : BlockIdx → NodeId → NodeAnswer} {file : OpenFile} {cache : BlockCache}

theorem takeChunk_eq (block : Bytes) {chunk : Piece} (small : chunk.inBlock + chunk.len < 2^w) :
    takeChunk w chunk block = some ((block.drop chunk.inBlock).take (min chunk.len (block.length - chunk.inBlock)) ++
      zeros (chunk.len - min chunk.len (block.length - chunk.inBlock))) := by
  unfold takeChunk
  dsimp only
  generalize take_eq : min chunk.len (block.length - chunk.inBlock) = take
  have piece : (if 0 < take then (add w chunk.inBlock take).bind (slice block chunk.inBlock) else some []) =
      some ((block.drop chunk.inBlock).take take) := by
    split
    next some_ => rw [add_eq (by omega),Option.bind_some,slice_eq (by omega)]
    next none =>
      rw [Nat.eq_zero_of_not_pos none]
      rfl
  have rest : (if take < chunk.len then (sub chunk.len take).map zeros else some []) = some (zeros (chunk.len - take)) := by
    split
    next short => rw [sub_eq (by omega),Option.map_some]
    next full =>
      rw [Nat.sub_eq_zero_of_le (Nat.le_of_not_lt full)]
      rfl
  rw [piece,rest]
  rfl

/-- A round fails as the one of `readLoop` does, or adds the same bytes. -/
theorem readRound_eq (fits : Fits w bs stop) (more : cur < stop) :
    ∃ outcome cache', readRound w bs answer stop cur file cache = some (pieceAt bs stop cur,outcome,cache') ∧
      ((∃ e, outcome = .error e ∧ ∀ rounds, readLoop bs answer file stop (rounds + 1) cur cache = (.error e,cache')) ∨
      ∃ piece, outcome = .ok (piece,cur + (pieceAt bs stop cur).len) ∧ ∀ rounds,
        readLoop bs answer file stop (rounds + 1) cur cache =
          match readLoop bs answer file stop rounds (cur + (pieceAt bs stop cur).len) cache' with
          | (.error e,cache) => (.error e,cache)
          | (.ok rest,cache) => (.ok (piece ++ rest),cache)) := by
  obtain ⟨nonempty,inside,_,before,_⟩ := pieceAt_spec fits.positive more
  have small := fits.small
  have low := fits.low
  have wide : cast 64 (pieceAt bs stop cur).len = (pieceAt bs stop cur).len := cast_eq (by omega)
  have next : add 64 cur (pieceAt bs stop cur).len = some (cur + (pieceAt bs stop cur).len) := add_eq (by omega)
  unfold readRound
  rw [chunkAt_eq fits more]
  simp only [readLoop,if_pos more,Option.bind_eq_bind,Option.bind_some,wide,next]
  have idx : (pieceAt bs stop cur).idx = cur / bs := rfl
  have place : cur - cur / bs * bs = (pieceAt bs stop cur).inBlock := rfl
  have want : min (cur / bs * bs + bs) stop - cur = (pieceAt bs stop cur).len := rfl
  rw [idx,want,place]
  generalize pieceAt bs stop cur = chunk at *
  by_cases known : (file.blockMap.contains (cur / bs) || file.dirty.contains (cur / bs)) = true
  · simp only [if_pos known]
    rcases fetched : fetchBlock bs answer file (cur / bs) cache with ⟨result,cache'⟩
    cases result with
    | error e => exact ⟨.error e,cache',rfl,.inl ⟨e,rfl,fun _ => rfl⟩⟩
    | ok block =>
      have room : chunk.inBlock + chunk.len < 2^w := fits.word (by omega)
      simp only [takeChunk_eq block room,Option.bind_some]
      exact ⟨_,cache',rfl,.inr ⟨_,rfl,fun _ => rfl⟩⟩
  · simp only [if_neg known]
    exact ⟨_,cache,rfl,.inr ⟨_,rfl,fun _ => rfl⟩⟩

theorem readRounds_eq {rounds : Nat} (fits : Fits w bs stop) (bounded : cur ≤ stop) (enough : stop - cur ≤ rounds)
    (spare : stop - cur < fuel) :
    ∃ visited, readRounds w bs answer stop file fuel cur cache = some (visited,readLoop bs answer file stop rounds cur cache) ∧
      visited <+: pieces bs stop rounds cur ∧
      ∀ bytes, (readLoop bs answer file stop rounds cur cache).1 = .ok bytes → visited = pieces bs stop rounds cur := by
  induction fuel generalizing cur cache rounds with
  | zero => omega
  | succ fuel ih =>
    unfold readRounds
    by_cases more : cur < stop
    · obtain ⟨rounds,rfl⟩ : ∃ fewer, rounds = fewer + 1 := ⟨rounds - 1,by omega⟩
      obtain ⟨nonempty,_,_,before,_⟩ := pieceAt_spec fits.positive more
      obtain ⟨outcome,cache',round,result⟩ := @readRound_eq w bs stop cur answer file cache fits more
      rw [if_pos more,round,pieces,if_pos more]
      simp only [Option.bind_eq_bind,Option.bind_some]
      rcases result with ⟨e,rfl,failed⟩ | ⟨piece,rfl,going⟩
      · rw [failed rounds]
        refine ⟨_,rfl,List.cons_prefix_cons.mpr ⟨rfl,List.nil_prefix⟩,?_⟩
        intro bytes ended
        cases ended
      · obtain ⟨visited,looped,front,all⟩ := @ih (cur + (pieceAt bs stop cur).len) cache' rounds before (by omega) (by omega)
        rw [going rounds]
        dsimp only
        rw [looped]
        rcases rest : readLoop bs answer file stop rounds (cur + (pieceAt bs stop cur).len) cache' with ⟨result,cache''⟩
        rw [rest] at all
        cases result with
        | error e =>
          refine ⟨_,rfl,List.cons_prefix_cons.mpr ⟨rfl,front⟩,?_⟩
          intro bytes ended
          cases ended
        | ok bytes =>
          refine ⟨_,rfl,List.cons_prefix_cons.mpr ⟨rfl,front⟩,?_⟩
          intro _ _
          rw [all bytes rfl]
    · have nothing : readLoop bs answer file stop rounds cur cache = (.ok [],cache) := by
        cases rounds with
        | zero => rfl
        | succ rounds => rw [readLoop,if_neg more]
      rw [if_neg more,nothing,pieces_past more]
      exact ⟨[],rfl,List.nil_prefix,fun _ _ => rfl⟩

end Reading

theorem roomy_of_clean {bs : Nat} {file : OpenFile} (clean : file.dirty = ∅) : Roomy bs file := by
  intro idx buf found
  simp [clean] at found

end OpenFile

namespace Cluster

/-- Dirty buffers of every handle of every client have room for a block. -/
def AllRoomy (bs : Nat) (σ : Cluster) : Prop :=
  ∀ (c : ClientId) (fh : Fh) (file : OpenFile), (σ.clients c).openFiles[fh]? = some file → file.Roomy bs

theorem step_roomy {bs : Nat} {label : Label} {σ τ : Cluster} (positive : 0 < bs) (stepped : step bs label σ = some τ)
    (roomy : AllRoomy bs σ) : AllRoomy bs τ := by
  intro c fh file held
  rcases step_openFile stepped held with before | renews
  · exact roomy c fh file before
  · cases renews with
    | created host r flags ok => exact OpenFile.roomy_of_clean rfl
    | opened snapshot task => exact OpenFile.roomy_of_clean rfl
    | begun fh wait host handle locs found dirty told => exact OpenFile.roomy_of_clean rfl
    | closed host clock p handle attr task found => exact roomy c p.fh handle found
    | wrote up _ offset data done _ _ task _ =>
      obtain ⟨_,_,_,_,handle,task',found,result⟩ := chunk_steps stepped
      rw [task] at task'
      cases task'
      have kept (file' : OpenFile) (done' : Nat) (wrote : (handle.writeChunk bs (σ.answer up handle.ino) offset data done
          (σ.clients c).blockCache).1 = .ok (file',done')) : file'.Roomy bs := by
        obtain ⟨_,⟨e,failed⟩ | ⟨buf,result,started⟩⟩ :=
          OpenFile.writeChunk_cases bs (σ.answer up handle.ino) handle offset data done (σ.clients c).blockCache
        · rw [failed] at wrote
          cases wrote
        · rw [result] at wrote
          cases wrote
          exact OpenFile.afterChunk_roomy positive (roomy c fh handle found) (OpenFile.started_room (roomy c fh handle found _) started)
      rcases result with ⟨_,rfl⟩ | ⟨file',done',wrote,_,rfl⟩ | ⟨file',done',wrote,_,rfl⟩
      · rw [setClient_same] at held
        exact roomy c fh file held
      · rw [setClient_same] at held
        rcases insert_some held with ⟨_,rfl⟩ | ⟨_,before⟩
        · exact kept file done' wrote
        · exact roomy c fh file before
      · rw [setClient_same] at held
        rcases insert_some held with ⟨_,rfl⟩ | ⟨_,before⟩
        · exact kept file' done' wrote
        · exact roomy c fh file before

theorem run_roomy {bs : Nat} (positive : 0 < bs) (labels : List Label) {σ τ : Cluster} (ran : run bs labels σ = some τ)
    (roomy : AllRoomy bs σ) : AllRoomy bs τ := by
  induction labels generalizing σ with
  | nil =>
    cases ran
    exact roomy
  | cons label rest ih =>
    obtain ⟨υ,stepped,ran⟩ := Option.bind_eq_some_iff.mp ran
    exact ih ran (step_roomy positive stepped roomy)

theorem new_roomy (bs : Nat) (now : SystemTime) (replicationFactor ramBudget : Nat) : AllRoomy bs (.new now replicationFactor ramBudget) := by
  intro c fh file held
  simp [Cluster.new] at held

end Cluster

open OpenFile in
/-- Both loops go through the pieces of what is written or read, without a panic and with
the results of the unbounded ones. An error stops them at one of the pieces. -/
theorem block_ranges {w bs : Nat} (wide : 32 ≤ w) (positive : 1 ≤ bs) (small : bs < 2^32) :
    (∀ now replicationFactor ramBudget labels σ, Cluster.run bs labels (.new now replicationFactor ramBudget) = some σ →
      Cluster.AllRoomy bs σ) ∧
    ∀ offset length, offset < 2^63 → length < 2^32 → ∃ chunks, Cuts bs offset (offset + length) chunks ∧
      ∀ answer file cache fuel, length < fuel →
        (∀ data, data.length = length → Roomy bs file → ∃ visited,
          machineWrite w bs answer fuel file offset data cache = some (visited,applyWrite bs answer file offset data cache) ∧
          visited <+: chunks ∧ ∀ written, (applyWrite bs answer file offset data cache).1 = .ok written → visited = chunks) ∧
        ∃ visited, machineRead w bs answer fuel file offset length cache = some (visited,read bs answer file offset length cache) ∧
          visited <+: chunks ∧ ∀ bytes, (read bs answer file offset length cache).1 = .ok bytes → visited = chunks := by
  refine ⟨?_,?_⟩
  · intro now replicationFactor ramBudget labels σ ran
    exact Cluster.run_roomy positive labels ran (Cluster.new_roomy bs now replicationFactor ramBudget)
  intro offset length low few
  have fits : Fits w bs (offset + length) := ⟨wide,positive,small,Nat.add_lt_add low few⟩
  have whole : length < 2^64 := Nat.lt_trans few (by decide)
  have stop : add 64 offset (cast 64 length) = some (offset + length) := by
    rw [cast_eq whole,add_eq (by omega)]
  refine ⟨pieces bs (offset + length) length offset,pieces_cuts positive (Nat.le_add_right offset length) (by omega),?_⟩
  intro answer file cache fuel spare
  refine ⟨?_,?_⟩
  · intro data sized roomy
    subst sized
    obtain ⟨visited,looped,before,all⟩ := @writeRounds_eq w bs offset 0 fuel answer file cache data data.length fits few roomy
      (Nat.zero_le _) (Nat.le_refl _) spare
    refine ⟨visited,?_,before,?_⟩
    · simp only [machineWrite,stop,applyWrite,Option.bind_eq_bind,Option.bind_some]
      rw [Nat.add_zero] at looped
      rw [looped]
      rcases writeLoop bs answer offset data data.length 0 file cache with ⟨result,file',cache'⟩
      cases result <;> rfl
    · intro written done
      unfold applyWrite at done
      split at done
      next => cases done
      next looped => exact all _ (by rw [looped])
  · obtain ⟨visited,looped,before,all⟩ := @readRounds_eq w bs (offset + length) offset fuel answer file cache length fits
      (Nat.le_add_right offset length) (by omega) (by omega)
    refine ⟨visited,?_,before,all⟩
    simp only [machineRead,stop,Option.bind_eq_bind,Option.bind_some]
    exact looped

open OpenFile in
/-- Three bytes from the middle of a block of two on. -/
theorem block_ranges_three : ∃ chunks, Cuts 2 1 4 chunks ∧
    (machineWrite 64 2 (fun _ _ => .failed) 4 (buildOpenFile 2 ⟨2,0,0,1,0,1,0,0,0,0,0,0,0,0⟩ [] 2) 1 [7,8,9] ∅).isSome = true ∧
    (machineRead 64 2 (fun _ _ => .failed) 4 (buildOpenFile 2 ⟨2,0,0,1,0,1,0,0,0,0,0,0,0,0⟩ [] 2) 1 3 ∅).isSome = true := by
  obtain ⟨_,ranges⟩ := @block_ranges 64 2 (by decide) (by decide) (by decide)
  obtain ⟨chunks,cut,loops⟩ := ranges 1 3 (by decide) (by decide)
  obtain ⟨writes,visited,done,_⟩ := loops (fun _ _ => .failed) (buildOpenFile 2 ⟨2,0,0,1,0,1,0,0,0,0,0,0,0,0⟩ [] 2) ∅ 4 (by decide)
  obtain ⟨visited',written,_⟩ := writes [7,8,9] rfl (roomy_of_clean rfl)
  exact ⟨chunks,cut,by rw [written]; rfl,by rw [done]; rfl⟩

end Dtmpfs
