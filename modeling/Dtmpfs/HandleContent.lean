import Dtmpfs.OpenFile

/-! A handle as a flat array of bytes. Dirty blocks come first, then the stored blocks,
which may be shorter than the block size, and zeros where there is neither. -/
namespace Dtmpfs
open FlatFile OrderedMap

namespace OpenFile

/-- The loop of `apply_write`, with `done` bytes behind it. After an error the rounds
before it stay. -/
def writeLoop (bs : Nat) (answer : BlockIdx → NodeId → NodeAnswer) (offset : Nat) (data : Bytes) :
    Nat → Nat → OpenFile → BlockCache → Except DtmpfsError Nat × OpenFile × BlockCache
  | 0,done,file,cache => (.ok done,file,cache)
  | fuel + 1,done,file,cache =>
    if offset + done < offset + data.length then
      match writeChunk bs answer file offset data done cache with
      | (.error e,cache) => (.error e,file,cache)
      | (.ok (file,done),cache) => writeLoop bs answer offset data fuel done file cache
    else (.ok done,file,cache)

/-- `apply_write`: every round moves on by a byte at least, so `data.length` rounds are
enough. -/
def applyWrite (bs : Nat) (answer : BlockIdx → NodeId → NodeAnswer) (file : OpenFile) (offset : Nat) (data : Bytes)
    (cache : BlockCache) : Except DtmpfsError Nat × OpenFile × BlockCache :=
  match writeLoop bs answer offset data data.length 0 file cache with
  | (.error e,file,cache) => (.error e,file,cache)
  | (.ok written,file,cache) => (.ok written,file.growTo (offset + data.length),cache)

/-- No node and no cache entry has a block of more than `bs` bytes. -/
structure Short (bs : Nat) (answer : BlockIdx → NodeId → NodeAnswer) (cache : BlockCache) : Prop where
  nodes : ∀ idx node bytes, answer idx node = .data bytes → bytes.length ≤ bs
  cached : ∀ (key : BlockKey) (bytes : Bytes), cache[key]? = some bytes → bytes.length ≤ bs

/-- Handles as clients come to hold them: opened, written to with any outcome, and
published. -/
inductive Held (bs : Nat) : OpenFile → Prop
  | opened (ino : InodeId) (attr : Attr) (blockMap : List BlockLoc) (flags : Nat) : Held bs (buildOpenFile ino attr blockMap flags)
  | written (answer : BlockIdx → NodeId → NodeAnswer) (file : OpenFile) (offset : Nat) (data : Bytes) (cache : BlockCache)
      (short : Short bs answer cache) (held : Held bs file) : Held bs (applyWrite bs answer file offset data cache).2.1
  | published (file : OpenFile) (blockMap : Map BlockIdx BlockPlacement) (generation : Generation) (held : Held bs file) :
      Held bs {file with blockMap := blockMap, dirty := ∅, generation := generation}

/-- Dirty buffers are whole blocks. -/
def Sized (bs : Nat) (file : OpenFile) : Prop := ∀ (idx : BlockIdx) (buf : Bytes), file.dirty[idx]? = some buf → buf.length = bs

/-- Whenever the handle's block is fetched, from the cache or from a node, it is the one
of `stored`. -/
def Steady (bs : Nat) (stored : BlockIdx → Bytes) (answer : BlockIdx → NodeId → NodeAnswer) (file : OpenFile) (cache : BlockCache) : Prop :=
  ∀ (idx : BlockIdx) (placement : BlockPlacement), file.blockMap[idx]? = some placement →
    match cache[file.cacheKey idx]? with
    | some bytes => bytes = stored idx
    | none => ∀ bytes flag, tryNodes bs (answer idx) placement.nodes (.storeUnavailable placement.primary) = .ok (bytes,flag) →
        bytes = stored idx

/-- The byte of the handle at an offset. -/
def content (bs : Nat) (stored : BlockIdx → Bytes) (file : OpenFile) (offset : Nat) : UInt8 :=
  match file.dirty[offset / bs]? with
  | some buf => buf.getD (offset % bs) 0
  | none => if file.blockMap.contains (offset / bs) then (stored (offset / bs)).getD (offset % bs) 0 else 0

/-- The handle as a flat file. -/
def flat (bs : Nat) (stored : BlockIdx → Bytes) (file : OpenFile) : Flat := ⟨file.sizeHint,content bs stored file⟩

section Fetching

variable {bs : Nat} {stored : BlockIdx → Bytes} {answer : BlockIdx → NodeId → NodeAnswer} {file : OpenFile} {cache : BlockCache}

theorem fetchBlock_stored (steady : Steady bs stored answer file cache) {idx : BlockIdx} (clean : file.dirty[idx]? = none)
    (known : file.blockMap.contains idx = true) (block : Bytes) (fetched : (fetchBlock bs answer file idx cache).1 = .ok block) :
    block = stored idx := by
  obtain ⟨placement,placed⟩ := (contains_iff _ _).mp known
  have fixed := steady idx placement placed
  unfold fetchBlock at fetched
  rw [clean] at fetched
  dsimp only at fetched
  split at fetched
  next bytes cached =>
    rw [cached] at fixed
    cases fetched
    exact fixed
  next uncached =>
    rw [uncached] at fixed
    rw [placed] at fetched
    dsimp only at fetched
    split at fetched
    next => cases fetched
    next bytes asked =>
      cases fetched
      exact fixed _ true asked
    next bytes asked =>
      cases fetched
      exact fixed _ false asked

theorem fetchBlock_steady (steady : Steady bs stored answer file cache) (idx : BlockIdx) :
    Steady bs stored answer file (fetchBlock bs answer file idx cache).2 := by
  rcases fetchBlock_cache bs answer file idx cache with same | ⟨placement,bytes,placed,asked,filled⟩
  · rw [same]
    exact steady
  · have result : (fetchBlock bs answer file idx cache).2 = cache ∨ cache[file.cacheKey idx]? = none := by
      cases cached : cache[file.cacheKey idx]? with
      | none => exact .inr rfl
      | some block =>
        left
        unfold fetchBlock
        split
        next => rfl
        next => rw [cached]
    rcases result with same | uncached
    · rw [same]
      exact steady
    · rw [filled]
      intro other place found
      have fixed := steady other place found
      rw [get_insert]
      split
      next bytes' entry =>
        split at entry
        next same =>
          cases entry
          have here : idx = other := cacheKey_inj same
          subst here
          rw [uncached] at fixed
          rw [placed] at found
          cases found
          exact fixed _ true asked
        next =>
          rw [entry] at fixed
          exact fixed
      next entry =>
        split at entry
        next => cases entry
        next =>
          rw [entry] at fixed
          exact fixed

end Fetching

section Writing

variable {bs : Nat} {stored : BlockIdx → Bytes} {answer : BlockIdx → NodeId → NodeAnswer} {file : OpenFile} {cache : BlockCache}

/-- The bytes of block `idx`. -/
theorem content_block {idx k : Nat} (small : k < bs) : content bs stored file (idx * bs + k) =
    match file.dirty[idx]? with
    | some buf => buf.getD k 0
    | none => if file.blockMap.contains idx then (stored idx).getD k 0 else 0 := by
  have quotient : (idx * bs + k) / bs = idx := by
    rw [Nat.mul_comm,Nat.mul_add_div (by omega),Nat.div_eq_of_lt small,Nat.add_zero]
  have remainder : (idx * bs + k) % bs = k := by
    rw [Nat.mul_comm,Nat.mul_add_mod,Nat.mod_eq_of_lt small]
  unfold content
  rw [quotient,remainder]

theorem getD_zeros (n k : Nat) : (zeros n).getD k 0 = 0 := by
  simp only [zeros,List.getD_eq_getElem?_getD,List.getElem?_replicate]
  split <;> rfl

theorem getD_pad (bs k : Nat) (block : Bytes) : (pad bs block).getD k 0 = block.getD k 0 := by
  unfold pad
  by_cases inside : k < block.length
  · exact List.getD_append _ _ _ _ inside
  · rw [List.getD_append_right _ _ _ _ (by omega),getD_zeros,List.getD_eq_default _ _ (by omega)]

theorem pad_length {block : Bytes} (short : block.length ≤ bs) : (pad bs block).length = bs := by
  simp only [pad,zeros,List.length_append,List.length_replicate]
  omega

theorem started_length (sized : Sized bs file) {idx inBlock chunkLen : Nat} (short : file.dirty[idx]? = none →
      file.blockMap.contains idx = true → ∀ block, (fetchBlock bs answer file idx cache).1 = .ok block → block.length ≤ bs)
    {buf : Bytes} (started : file.dirty[idx]? = some buf ∨
      (file.dirty[idx]? = none ∧ (initialBlock bs answer file idx inBlock chunkLen cache).1 = .ok buf)) : buf.length = bs := by
  rcases started with dirty | ⟨clean,initial⟩
  · exact sized idx buf dirty
  · unfold initialBlock at initial
    split at initial
    next =>
      cases initial
      exact List.length_replicate
    next =>
      split at initial
      next known =>
        have told := short clean known
        split at initial
        next => cases initial
        next block cache' asked =>
          cases initial
          rw [asked] at told
          exact pad_length (told block rfl)
      next =>
        cases initial
        exact List.length_replicate

/-- Unless the round overwrites all of its block, the buffer it starts from holds what
the handle has there. -/
theorem started_content (steady : Steady bs stored answer file cache) {idx inBlock chunkLen : Nat} {buf : Bytes}
    (started : file.dirty[idx]? = some buf ∨
      (file.dirty[idx]? = none ∧ (initialBlock bs answer file idx inBlock chunkLen cache).1 = .ok buf))
    (partly : ¬ (inBlock = 0 ∧ chunkLen = bs)) {k : Nat} (small : k < bs) :
    buf.getD k 0 = content bs stored file (idx * bs + k) := by
  rw [content_block small]
  rcases started with dirty | ⟨clean,initial⟩
  · rw [dirty]
  · rw [clean]
    dsimp only
    unfold initialBlock at initial
    rw [if_neg partly] at initial
    split at initial
    next known =>
      have told := fetchBlock_stored steady clean known
      rw [if_pos known]
      split at initial
      next => cases initial
      next block cache' asked =>
        cases initial
        rw [asked] at told
        rw [getD_pad,told block rfl]
    next unknown =>
      cases initial
      rw [if_neg unknown,getD_zeros]

/-- One round patches the bytes of its chunk. -/
theorem afterChunk_content (positive : 0 < bs) (sized : Sized bs file) (steady : Steady bs stored answer file cache)
    (short : ∀ idx, (stored idx).length ≤ bs) {offset done : Nat} {data buf : Bytes}
    (started : file.dirty[(offset + done) / bs]? = some buf ∨
      (file.dirty[(offset + done) / bs]? = none ∧ (initialBlock bs answer file ((offset + done) / bs)
        (offset + done - (offset + done) / bs * bs) (chunkOf bs offset data done).length cache).1 = .ok buf)) (extent : Nat) :
    content bs stored (file.afterChunk bs offset data done buf) =
      ((flat bs stored file).apply ⟨offset + done,chunkOf bs offset data done,extent⟩).byte := by
  obtain ⟨low,high⟩ := block_bounds positive (offset + done)
  have length := chunkOf_length bs offset data done
  have whole := started_length sized (fun clean known block fetched => fetchBlock_stored steady clean known block fetched ▸ short _) started
  have same {k : Nat} := started_content (k := k) steady started
  generalize at_eq : (offset + done) / bs = idx at *
  generalize from_eq : offset + done - idx * bs = inBlock at *
  have start : idx * bs + inBlock = offset + done := by omega
  have fits : inBlock + (chunkOf bs offset data done).length ≤ buf.length := by omega
  generalize chunk_eq : chunkOf bs offset data done = chunk at *
  clear length low high
  funext o
  obtain ⟨below,above⟩ := block_bounds positive o
  have place : o / bs * bs + o % bs = o := Nat.div_add_mod' o bs
  have small : o % bs < bs := Nat.mod_lt o positive
  have dirty : (file.afterChunk bs offset data done buf).dirty =
      file.dirty.insert idx (splice buf inBlock chunk) := by
    simp only [afterChunk,at_eq,from_eq,chunk_eq]
  simp only [Flat.apply,flat]
  by_cases here : idx = o / bs
  · have block : idx * bs = o / bs * bs := by rw [here]
    have new : content bs stored (file.afterChunk bs offset data done buf) o = (splice buf inBlock chunk).getD (o % bs) 0 := by
      unfold content
      rw [dirty,get_insert,if_pos here]
    rw [new,splice_getD fits]
    by_cases inside : inBlock ≤ o % bs ∧ o % bs < inBlock + chunk.length
    · rw [if_pos inside,if_pos (by omega)]
      congr 1
      omega
    · have partly : ¬ (inBlock = 0 ∧ chunk.length = bs) := by omega
      rw [if_neg inside,if_neg (by omega),same partly small,here,place]
  · have old : content bs stored (file.afterChunk bs offset data done buf) o = content bs stored file o := by
      unfold content
      rw [dirty,get_insert,if_neg here]
      rfl
    have outside : ¬ (offset + done ≤ o ∧ o < offset + done + chunk.length) := by
      intro inside
      apply here
      rw [eq_comm,Nat.div_eq_iff positive]
      omega
    rw [old,if_neg outside]

theorem writeChunk_steady (steady : Steady bs stored answer file cache) (offset : Nat) (data : Bytes) (done : Nat) :
    Steady bs stored answer file (writeChunk bs answer file offset data done cache).2 := by
  rcases (writeChunk_cases bs answer file offset data done cache).1 with same | fetched
  · rw [same]
    exact steady
  · rw [fetched]
    exact fetchBlock_steady steady _

theorem afterChunk_sized (sized : Sized bs file) {offset done : Nat} {data buf : Bytes} (positive : 0 < bs) (whole : buf.length = bs) :
    Sized bs (file.afterChunk bs offset data done buf) := by
  obtain ⟨low,high⟩ := block_bounds positive (offset + done)
  have length := chunkOf_length bs offset data done
  intro idx block found
  simp only [afterChunk,get_insert] at found
  split at found
  next =>
    cases found
    rw [splice_length (by omega),whole]
  next => exact sized idx block found

/-- The rounds of a write that succeeds patch the rest of its data. -/
theorem writeLoop_content (positive : 0 < bs) (short : ∀ idx, (stored idx).length ≤ bs) {offset fuel done written : Nat} {data : Bytes}
    {file' : OpenFile} {cache' : BlockCache} (sized : Sized bs file) (steady : Steady bs stored answer file cache)
    (bounded : done ≤ data.length) (enough : data.length - done ≤ fuel)
    (looped : writeLoop bs answer offset data fuel done file cache = (.ok written,file',cache')) :
    written = data.length ∧ file'.sizeHint = file.sizeHint ∧ Sized bs file' ∧
      content bs stored file' = ((flat bs stored file).apply ⟨offset + done,data.drop done,0⟩).byte := by
  induction fuel generalizing done file cache with
  | zero =>
    have finished : done = data.length := by omega
    cases looped
    subst finished
    rw [List.drop_length,Flat.byte_apply_nil]
    exact ⟨rfl,rfl,sized,rfl⟩
  | succ fuel ih =>
    unfold writeLoop at looped
    split at looped
    next more =>
      obtain ⟨_,outcome⟩ := writeChunk_cases bs answer file offset data done cache
      have kept := writeChunk_steady steady offset data done
      have below : done < data.length := by omega
      obtain ⟨step,inside⟩ := chunkOf_pos positive offset below
      split at looped
      next => cases looped
      next next' done' cache'' round =>
        rw [round] at outcome kept
        rcases outcome with ⟨e,failed⟩ | ⟨buf,result,started⟩
        · cases failed
        · cases result
          have image := afterChunk_content positive sized steady short started 0
          have whole := started_length sized
            (fun clean known block fetched => fetchBlock_stored steady clean known block fetched ▸ short _) started
          obtain ⟨count,hint,blocks,rest⟩ := ih (afterChunk_sized sized positive whole) kept inside (by omega) looped
          refine ⟨count,hint,blocks,?_⟩
          have joined : data.drop done = chunkOf bs offset data done ++ data.drop (done + (chunkOf bs offset data done).length) := by
            rw [← List.drop_drop,chunkOf_length]
            exact (List.take_append_drop _ _).symm
          rw [rest,joined,← Flat.byte_apply_apply _ (offset + done) 0 0]
          have bytes : (flat bs stored (file.afterChunk bs offset data done buf)).byte =
              ((flat bs stored file).apply ⟨offset + done,chunkOf bs offset data done,0⟩).byte := image
          rw [Nat.add_assoc]
          exact Flat.byte_apply_congr bytes _ 0
    next finished =>
      have all : done = data.length := by omega
      cases looped
      subst all
      rw [List.drop_length,Flat.byte_apply_nil]
      exact ⟨rfl,rfl,sized,rfl⟩

theorem tryNodes_short {ask : NodeId → NodeAnswer} (short : ∀ node bytes, ask node = .data bytes → bytes.length ≤ bs) {nodes : List NodeId}
    {e : DtmpfsError} {bytes : Bytes} {flag : Bool} (asked : tryNodes bs ask nodes e = .ok (bytes,flag)) : bytes.length ≤ bs := by
  induction nodes generalizing e with
  | nil => cases asked
  | cons node rest ih =>
    unfold tryNodes at asked
    split at asked
    next told =>
      cases asked
      exact short node _ told
    next =>
      cases asked
      exact Nat.le_of_eq List.length_replicate
    next => exact ih asked
    next => exact ih asked

theorem fetchBlock_short (short : Short bs answer cache) {idx : BlockIdx} (clean : file.dirty[idx]? = none) {block : Bytes}
    (fetched : (fetchBlock bs answer file idx cache).1 = .ok block) : block.length ≤ bs := by
  rcases fetchBlock_source fetched with dirty | cached | ⟨_,placement,flag,_,asked⟩
  · rw [clean] at dirty
    cases dirty
  · exact short.cached _ block cached
  · exact tryNodes_short (short.nodes idx) asked

theorem writeChunk_short (file : OpenFile) (short : Short bs answer cache) (offset : Nat) (data : Bytes) (done : Nat) :
    Short bs answer (writeChunk bs answer file offset data done cache).2 := by
  rcases (writeChunk_cases bs answer file offset data done cache).1 with same | fetched
  · rw [same]
    exact short
  · rw [fetched]
    rcases fetchBlock_cache bs answer file ((offset + done) / bs) cache with same | ⟨placement,bytes,_,asked,filled⟩
    · rw [same]
      exact short
    · rw [filled]
      refine ⟨short.nodes,?_⟩
      intro key block found
      rw [get_insert] at found
      split at found
      next =>
        cases found
        exact tryNodes_short (short.nodes _) asked
      next => exact short.cached key block found

/-- Writes leave whole blocks behind, also when they fail. -/
theorem writeLoop_sized (positive : 0 < bs) {offset fuel done : Nat} {data : Bytes} (short : Short bs answer cache) (sized : Sized bs file) :
    Sized bs (writeLoop bs answer offset data fuel done file cache).2.1 := by
  induction fuel generalizing done file cache with
  | zero => exact sized
  | succ fuel ih =>
    unfold writeLoop
    split
    next =>
      obtain ⟨_,outcome⟩ := writeChunk_cases bs answer file offset data done cache
      have kept := writeChunk_short file short offset data done
      split
      next => exact sized
      next next' done' cache' round =>
        rw [round] at outcome kept
        rcases outcome with ⟨e,failed⟩ | ⟨buf,result,started⟩
        · cases failed
        · cases result
          have whole := started_length sized (fun clean _ block fetched => fetchBlock_short short clean fetched) started
          exact ih kept (afterChunk_sized sized positive whole)
    next => exact sized

theorem applyWrite_sized (positive : 0 < bs) (short : Short bs answer cache) (sized : Sized bs file) (offset : Nat) (data : Bytes) :
    Sized bs (applyWrite bs answer file offset data cache).2.1 := by
  have looped : Sized bs (writeLoop bs answer offset data data.length 0 file cache).2.1 := writeLoop_sized positive short sized
  unfold applyWrite
  split
  next result =>
    rw [result] at looped
    exact looped
  next result =>
    rw [result] at looped
    exact looped

theorem Held.sized (positive : 0 < bs) (held : Held bs file) : Sized bs file := by
  have none (idx : BlockIdx) (buf : Bytes) (found : (∅ : Map BlockIdx Bytes)[idx]? = some buf) : buf.length = bs := by
    simp at found
  induction held with
  | opened ino attr blockMap flags => exact none
  | written answer file offset data cache short _ ih => exact applyWrite_sized positive short ih offset data
  | published file blockMap generation _ _ => exact none

/-- A write that succeeds is one patch of the flat file. -/
theorem applyWrite_flat (positive : 0 < bs) (short : ∀ idx, (stored idx).length ≤ bs) (sized : Sized bs file)
    (steady : Steady bs stored answer file cache) {offset written : Nat} {data : Bytes} {file' : OpenFile} {cache' : BlockCache}
    (done : applyWrite bs answer file offset data cache = (.ok written,file',cache')) :
    written = data.length ∧ Sized bs file' ∧
      flat bs stored file' = (flat bs stored file).apply ⟨offset,data,offset + data.length⟩ := by
  unfold applyWrite at done
  split at done
  next => cases done
  next count grown cache'' looped =>
    cases done
    obtain ⟨all,hint,blocks,bytes⟩ := writeLoop_content positive short sized steady (Nat.zero_le _) (by omega) looped
    refine ⟨all,blocks,?_⟩
    apply Flat.ext
    · change max grown.sizeHint (offset + data.length) = max file.sizeHint (offset + data.length)
      rw [hint]
    · exact bytes

end Writing

section Reading

variable {bs : Nat} {stored : BlockIdx → Bytes} {answer : BlockIdx → NodeId → NodeAnswer} {file : OpenFile} {cache : BlockCache}

/-- What a fetch of a block in use returns is the handle's content there. -/
theorem fetchBlock_content (steady : Steady bs stored answer file cache) {idx : BlockIdx}
    (known : (file.blockMap.contains idx || file.dirty.contains idx) = true) (block : Bytes)
    (fetched : (fetchBlock bs answer file idx cache).1 = .ok block) :
    ∀ k < bs, block.getD k 0 = content bs stored file (idx * bs + k) := by
  intro k small
  rw [content_block small]
  cases dirty : file.dirty[idx]? with
  | some buf =>
    have same : block = buf := by
      unfold fetchBlock at fetched
      rw [dirty] at fetched
      exact (Except.ok.inj fetched).symm
    rw [same]
  | none =>
    have placed : file.blockMap.contains idx = true := by
      have clean : file.dirty.contains idx = false := (vacant_iff file.dirty idx).mpr dirty
      rwa [clean,Bool.or_false] at known
    rw [fetchBlock_stored steady dirty placed block fetched]
    exact (if_pos placed).symm

theorem readLoop_content (positive : 0 < bs) {stop fuel cur : Nat} (steady : Steady bs stored answer file cache)
    (enough : stop - cur ≤ fuel) {bytes : Bytes} (done : (readLoop bs answer file stop fuel cur cache).1 = .ok bytes) :
    bytes = (flat bs stored file).slice cur (stop - cur) := by
  rw [← readLoop_length positive enough done]
  refine readLoop_rule positive (fun cur bytes => bytes = (flat bs stored file).slice cur bytes.length) steady done
    (fun idx _ steady => fetchBlock_steady steady idx) ?_ ?_ (fun _ => rfl) ?_
  · intro idx cache block steady known fetched inBlock want fits
    have image : ∀ k < bs, block.getD k 0 = (flat bs stored file).byte (idx * bs + k) := fetchBlock_content steady known block fetched
    rw [piece_slice image fits,Flat.length_slice]
  · intro idx unplaced clean inBlock want fits
    have blank : Blank bs (flat bs stored file) idx := by
      intro k small
      show content bs stored file (idx * bs + k) = 0
      rw [content_block small,clean]
      rw [(vacant_iff file.blockMap idx).mpr unplaced]
      rfl
    rw [zeros,blank.stretch fits,Flat.length_slice]
  · intro cur front back first second
    rw [List.length_append,Flat.slice_add,← first,← second]

theorem read_flat (positive : 0 < bs) (steady : Steady bs stored answer file cache) {off size : Nat} {bytes : Bytes}
    (done : (read bs answer file off size cache).1 = .ok bytes) : bytes = (flat bs stored file).slice off size := by
  have looped := readLoop_content positive steady (by omega) done
  rwa [Nat.add_sub_cancel_left] at looped

end Reading

/-- One `write` callback: what the nodes answer to it and what is cached when it begins. -/
structure WriteOp where
  answer : BlockIdx → NodeId → NodeAnswer
  cache : BlockCache
  offset : Nat
  data : Bytes

/-- A sequence of writes that all succeed. -/
def writeAll (bs : Nat) : List WriteOp → OpenFile → Option OpenFile
  | [],file => some file
  | op::rest,file =>
    match applyWrite bs op.answer file op.offset op.data op.cache with
    | (.error _,_,_) => none
    | (.ok _,file,_) => writeAll bs rest file

section Sequences

variable {bs : Nat} {stored : BlockIdx → Bytes} {answer : BlockIdx → NodeId → NodeAnswer} {file : OpenFile} {cache : BlockCache}

/-- A write keeps what decides where blocks are fetched from. -/
theorem writeLoop_fields {offset fuel done : Nat} {data : Bytes} :
    (writeLoop bs answer offset data fuel done file cache).2.1.blockMap = file.blockMap ∧
      (writeLoop bs answer offset data fuel done file cache).2.1.ino = file.ino ∧
      (writeLoop bs answer offset data fuel done file cache).2.1.generation = file.generation := by
  induction fuel generalizing done file cache with
  | zero => exact ⟨rfl,rfl,rfl⟩
  | succ fuel ih =>
    unfold writeLoop
    split
    next =>
      obtain ⟨_,outcome⟩ := writeChunk_cases bs answer file offset data done cache
      split
      next => exact ⟨rfl,rfl,rfl⟩
      next next' done' cache' round =>
        rw [round] at outcome
        rcases outcome with ⟨e,failed⟩ | ⟨buf,result,_⟩
        · cases failed
        · cases result
          exact ih
    next => exact ⟨rfl,rfl,rfl⟩

theorem Steady.applyWrite {other : BlockIdx → NodeId → NodeAnswer} {kept cache' : BlockCache} {offset written : Nat} {data : Bytes}
    {file' : OpenFile} (steady : Steady bs stored other file kept)
    (done : applyWrite bs answer file offset data cache = (.ok written,file',cache')) : Steady bs stored other file' kept := by
  have fields := @writeLoop_fields bs answer file cache offset data.length 0 data
  unfold OpenFile.applyWrite at done
  split at done
  next => cases done
  next grown cache'' looped =>
    rw [looped] at fields
    obtain ⟨map,ino,generation⟩ := fields
    cases done
    dsimp only at map ino generation
    intro idx placement found
    have key : (grown.growTo (offset + data.length)).cacheKey idx = file.cacheKey idx := by
      simp only [cacheKey,growTo,ino,generation]
    rw [key]
    exact steady idx placement (map ▸ found)

theorem writeAll_flat (positive : 0 < bs) (short : ∀ idx, (stored idx).length ≤ bs) (ops : List WriteOp) {file' : OpenFile}
    (sized : Sized bs file) (steady : ∀ op ∈ ops, Steady bs stored op.answer file op.cache)
    (written : writeAll bs ops file = some file') :
    Sized bs file' ∧ flat bs stored file' =
      (flat bs stored file).applyAll (ops.map fun op => ⟨op.offset,op.data,op.offset + op.data.length⟩) := by
  induction ops generalizing file with
  | nil =>
    cases written
    exact ⟨sized,rfl⟩
  | cons op rest ih =>
    unfold writeAll at written
    split at written
    next => cases written
    next count next' cache' done =>
      obtain ⟨_,sizedNext,image⟩ := applyWrite_flat positive short sized (steady op (List.mem_cons_self ..)) done
      have steadyNext : ∀ op ∈ rest, Steady bs stored op.answer next' op.cache := by
        intro later member
        exact (steady later (List.mem_cons_of_mem _ member)).applyWrite done
      obtain ⟨sizedEnd,final⟩ := ih sizedNext steadyNext written
      refine ⟨sizedEnd,?_⟩
      rw [final,image]
      rfl

/-- After any sequence of writes, a write overlays its data on the content of the handle
and grows the size, and a read returns the content. -/
theorem handle_refines_flat (positive : 0 < bs) (short : ∀ idx, (stored idx).length ≤ bs) (held : Held bs file) (ops : List WriteOp)
    (steady : ∀ op ∈ ops, Steady bs stored op.answer file op.cache) {reached : OpenFile} (written : writeAll bs ops file = some reached) :
    flat bs stored reached = (flat bs stored file).applyAll (ops.map fun op => ⟨op.offset,op.data,op.offset + op.data.length⟩) ∧
    (∀ answer cache offset data count next cache', Steady bs stored answer reached cache →
      applyWrite bs answer reached offset data cache = (.ok count,next,cache') →
        count = data.length ∧ next.sizeHint = max reached.sizeHint (offset + data.length) ∧
        ∀ o, content bs stored next o =
          if offset ≤ o ∧ o < offset + data.length then data.getD (o - offset) 0 else content bs stored reached o) ∧
    ∀ answer cache off size bytes, Steady bs stored answer reached cache → (read bs answer reached off size cache).1 = .ok bytes →
      bytes.length = size ∧ ∀ k < size, bytes[k]? = some (content bs stored reached (off + k)) := by
  obtain ⟨sized,image⟩ := writeAll_flat positive short ops (held.sized positive) steady written
  refine ⟨image,?_,?_⟩
  · intro answer cache offset data count next cache' now done
    obtain ⟨all,_,patched⟩ := applyWrite_flat positive short sized now done
    refine ⟨all,congrArg Flat.size patched,?_⟩
    intro o
    exact congrFun (congrArg Flat.byte patched) o
  · intro answer cache off size bytes now done
    rw [read_flat positive now done]
    refine ⟨by simp [Flat.slice],?_⟩
    intro k small
    simp only [Flat.slice,flat,List.getElem?_map,List.getElem?_range small,Option.map_some]

end Sequences

/-- A file of one stored byte in blocks of two: the byte after it is written. -/
theorem handle_refines_flat_short :
    let file := buildOpenFile 2 ⟨2,1,1,1,0,1,0,0,0,0,0,0,0,0⟩ [⟨0,"n",[]⟩] 0
    ∃ reached, writeAll 2 [⟨fun _ _ => .data [7],∅,1,[9]⟩] file = some reached ∧ reached.sizeHint = 2 ∧
      content 2 (fun _ => [7]) reached 0 = 7 ∧ content 2 (fun _ => [7]) reached 1 = 9 := by
  intro file
  have steady (opened : OpenFile) : Steady 2 (fun _ => [7]) (fun _ _ => .data [7]) opened ∅ := by
    intro idx placement _
    simp [tryNodes,BlockPlacement.nodes]
  have succeeds : (writeAll 2 [⟨fun _ _ => .data [7],∅,1,[9]⟩] file).isSome = true := by decide
  obtain ⟨reached,written⟩ := Option.isSome_iff_exists.mp succeeds
  obtain ⟨image,_,_⟩ := @handle_refines_flat 2 (fun _ => [7]) _ (by decide) (fun _ => by decide) (.opened 2 _ _ 0)
    [⟨fun _ _ => .data [7],∅,1,[9]⟩] (by simpa using steady file) _ written
  refine ⟨reached,written,congrArg Flat.size image,?_,?_⟩
  · exact congrFun (congrArg Flat.byte image) 0
  · exact congrFun (congrArg Flat.byte image) 1

end OpenFile

end Dtmpfs
