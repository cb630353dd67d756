import Dtmpfs.MetaService
import Dtmpfs.Store
import Dtmpfs.Semantics.FlatFile

/-! An open file of a client, `dtmpfs-client::open_file`, with the block fetch, the
write loop and the read loop of `dtmpfs-client::fs`. -/
namespace Dtmpfs
open FlatFile OrderedMap

structure OpenFile where
  ino : InodeId
  generation : Generation
  blockMap : Map BlockIdx BlockPlacement
  dirty : Map BlockIdx Bytes
  sizeHint : Nat
  flags : Nat

/-- The block cache; its keys are the triples `(ino, generation, idx)`. -/
abbrev BlockCache := Map BlockKey Bytes

/-- What asking one node for a block comes to: no channel, an error status other
than `NotFound`, `NotFound`, or the data. -/
inductive NodeAnswer where
  | noClient
  | failed
  | notFound
  | data (bytes : Bytes)

def BlockLoc.placement (loc : BlockLoc) : BlockPlacement := ⟨loc.primary,loc.replicas⟩

def insertLocs (blockMap : Map BlockIdx BlockPlacement) (locs : List BlockLoc) : Map BlockIdx BlockPlacement :=
  locs.foldl (fun known loc => known.insert loc.blockIdx loc.placement) blockMap

def buildOpenFile (ino : InodeId) (attr : Attr) (blockMap : List BlockLoc) (flags : Nat) : OpenFile where
  ino := ino
  generation := attr.generation
  blockMap := insertLocs ∅ blockMap
  dirty := ∅
  sizeHint := attr.size
  flags := flags

def zeros (n : Nat) : Bytes := List.replicate n 0

namespace OpenFile

/-- The replica loop of `fetch_block`; the flag says whether the answer is cached. -/
def tryNodes (bs : Nat) (answer : NodeId → NodeAnswer) :
    List NodeId → DtmpfsError → Except DtmpfsError (Bytes × Bool)
  | [],lastErr => .error lastErr
  | node::rest,_ =>
    match answer node with
    | .data bytes => .ok (bytes,true)
    | .notFound => .ok (zeros bs,false)
    | .noClient | .failed => tryNodes bs answer rest (.storeUnavailable node)

/-- The key of a block in the cache. -/
def cacheKey (file : OpenFile) (idx : BlockIdx) : BlockKey := ⟨file.ino,idx,file.generation⟩

def fetchBlock (bs : Nat) (answer : BlockIdx → NodeId → NodeAnswer) (file : OpenFile) (idx : BlockIdx) (cache : BlockCache) :
    Except DtmpfsError Bytes × BlockCache :=
  match file.dirty[idx]? with
  | some buf => (.ok buf,cache)
  | none =>
    match cache[file.cacheKey idx]? with
    | some bytes => (.ok bytes,cache)
    | none =>
      match file.blockMap[idx]? with
      | none => (.error .notFound,cache)
      | some placement =>
        match tryNodes bs (answer idx) placement.nodes (.storeUnavailable placement.primary) with
        | .error e => (.error e,cache)
        | .ok (bytes,true) => (.ok bytes,cache.insert (file.cacheKey idx) bytes)
        | .ok (bytes,false) => (.ok bytes,cache)

/-- `bm.resize(self.block_size, 0)` of a block that is too short. -/
def pad (bs : Nat) (block : Bytes) : Bytes := block ++ zeros (bs - block.length)

/-- What a block that is not dirty yet starts from in `apply_write`. -/
def initialBlock (bs : Nat) (answer : BlockIdx → NodeId → NodeAnswer) (file : OpenFile) (idx : BlockIdx)
    (inBlock chunkLen : Nat) (cache : BlockCache) : Except DtmpfsError Bytes × BlockCache :=
  if inBlock = 0 ∧ chunkLen = bs then (.ok (zeros bs),cache)
  else if file.blockMap.contains idx then
    match fetchBlock bs answer file idx cache with
    | (.error e,cache) => (.error e,cache)
    | (.ok block,cache) => (.ok (pad bs block),cache)
  else (.ok (zeros bs),cache)

/-- One round of the loop of `apply_write`, with `done` bytes behind it: the file
and the number of bytes written so far. -/
def writeChunk (bs : Nat) (answer : BlockIdx → NodeId → NodeAnswer) (file : OpenFile) (offset : Nat) (data : Bytes) (done : Nat)
    (cache : BlockCache) : Except DtmpfsError (OpenFile × Nat) × BlockCache :=
  let cur := offset + done
  let idx := cur / bs
  let blockOff := idx * bs
  let inBlock := cur - blockOff
  let chunkLen := min (blockOff + bs) (offset + data.length) - cur
  let chunk := (data.drop done).take chunkLen
  match file.dirty[idx]? with
  | some buf => (.ok ({file with dirty := file.dirty.insert idx (splice buf inBlock chunk)},done + chunkLen),cache)
  | none =>
    match initialBlock bs answer file idx inBlock chunkLen cache with
    | (.error e,cache) => (.error e,cache)
    | (.ok buf,cache) =>
      (.ok ({file with dirty := file.dirty.insert idx (splice buf inBlock chunk)},done + chunkLen),cache)

/-- The end of `apply_write`. -/
def growTo (stop : Nat) (file : OpenFile) : OpenFile := {file with sizeHint := max file.sizeHint stop}

/-- The loop of `read` from `cur` to `stop`. -/
def readLoop (bs : Nat) (answer : BlockIdx → NodeId → NodeAnswer) (file : OpenFile) (stop : Nat) :
    Nat → Nat → BlockCache → Except DtmpfsError Bytes × BlockCache
  | 0,_,cache => (.ok [],cache)
  | fuel + 1,cur,cache =>
    if cur < stop then
      let idx := cur / bs
      let blkOff := idx * bs
      let inBlock := cur - blkOff
      let want := min (blkOff + bs) stop - cur
      let fetched : Except DtmpfsError Bytes × BlockCache :=
        if file.blockMap.contains idx || file.dirty.contains idx then
          match fetchBlock bs answer file idx cache with
          | (.error e,cache) => (.error e,cache)
          | (.ok block,cache) =>
            let take := min want (block.length - inBlock)
            (.ok ((block.drop inBlock).take take ++ zeros (want - take)),cache)
        else (.ok (zeros want),cache)
      match fetched with
      | (.error e,cache) => (.error e,cache)
      | (.ok piece,cache) =>
        match readLoop bs answer file stop fuel (cur + want) cache with
        | (.error e,cache) => (.error e,cache)
        | (.ok rest,cache) => (.ok (piece ++ rest),cache)
    else (.ok [],cache)

/-- `read`: every round moves on by a byte at least, so `size` rounds are enough. -/
def read (bs : Nat) (answer : BlockIdx → NodeId → NodeAnswer) (file : OpenFile) (off size : Nat) (cache : BlockCache) :
    Except DtmpfsError Bytes × BlockCache :=
  readLoop bs answer file (off + size) size off cache

theorem fetchBlock_cache (bs : Nat) (answer : BlockIdx → NodeId → NodeAnswer) (file : OpenFile) (idx : BlockIdx) (cache : BlockCache) :
    (fetchBlock bs answer file idx cache).2 = cache ∨
    ∃ placement bytes, file.blockMap[idx]? = some placement ∧
      tryNodes bs (answer idx) placement.nodes (.storeUnavailable placement.primary) = .ok (bytes,true) ∧
      (fetchBlock bs answer file idx cache).2 = cache.insert (file.cacheKey idx) bytes := by
  unfold fetchBlock
  split
  · exact .inl rfl
  · split
    · exact .inl rfl
    · split
      · exact .inl rfl
      next placement placed =>
        split
        · exact .inl rfl
        next bytes asked => exact .inr ⟨placement,bytes,placed,asked,rfl⟩
        · exact .inl rfl

/-- `fetch_block` gets as far as asking the stores: the block is neither dirty nor
cached, and it has a placement. -/
def asks (file : OpenFile) (idx : BlockIdx) (cache : BlockCache) : Bool :=
  !file.dirty.contains idx && !cache.contains (file.cacheKey idx) && file.blockMap.contains idx

theorem asks_iff (file : OpenFile) (idx : BlockIdx) (cache : BlockCache) : file.asks idx cache = true ↔
    file.dirty[idx]? = none ∧ cache[file.cacheKey idx]? = none ∧ ∃ placement, file.blockMap[idx]? = some placement := by
  simp only [asks,Bool.and_eq_true,Bool.not_eq_true',and_assoc,Std.ExtTreeMap.contains_eq_isSome_getElem?,
    Option.isSome_eq_false_iff,Option.isNone_iff_eq_none,Option.isSome_iff_exists]

theorem fetchBlock_silent {bs : Nat} {answer : BlockIdx → NodeId → NodeAnswer} {file : OpenFile} {idx : BlockIdx} {cache : BlockCache}
    (silent : file.asks idx cache ≠ true) : (fetchBlock bs answer file idx cache).2 = cache := by
  rw [Ne,asks_iff] at silent
  unfold fetchBlock
  split
  · rfl
  next clean =>
    split
    · rfl
    next uncached =>
      split
      · rfl
      next placement placed => exact absurd ⟨clean,uncached,placement,placed⟩ silent

/-- Where the bytes of a fetch come from. -/
theorem fetchBlock_source {bs : Nat} {answer : BlockIdx → NodeId → NodeAnswer} {file : OpenFile} {idx : BlockIdx} {cache : BlockCache}
    {bytes : Bytes} (fetched : (fetchBlock bs answer file idx cache).1 = .ok bytes) :
    file.dirty[idx]? = some bytes ∨ cache[file.cacheKey idx]? = some bytes ∨
    (file.asks idx cache = true ∧ ∃ placement flag, file.blockMap[idx]? = some placement ∧
      tryNodes bs (answer idx) placement.nodes (.storeUnavailable placement.primary) = .ok (bytes,flag)) := by
  unfold fetchBlock at fetched
  split at fetched
  next buf dirty =>
    cases fetched
    exact .inl dirty
  next clean =>
    split at fetched
    next block cached =>
      cases fetched
      exact .inr (.inl cached)
    next uncached =>
      split at fetched
      · cases fetched
      next placement placed =>
        have asked : file.asks idx cache = true := (asks_iff file idx cache).mpr ⟨clean,uncached,placement,placed⟩
        split at fetched
        · cases fetched
        next block told =>
          cases fetched
          exact .inr (.inr ⟨asked,placement,true,placed,told⟩)
        next block told =>
          cases fetched
          exact .inr (.inr ⟨asked,placement,false,placed,told⟩)

/-- The handle drafts `D` over the published file `F`: its dirty blocks do, blocks
it does not know are blank, and those it knows come back as `F` has them. -/
structure Drafts (bs : Nat) (answer : BlockIdx → NodeId → NodeAnswer) (F D : Flat) (file : OpenFile) : Prop where
  overlay : Overlay bs F D (fun idx => file.dirty[idx]?)
  unplaced : ∀ idx : BlockIdx, file.blockMap[idx]? = none → Blank bs F idx
  answered : ∀ (idx : BlockIdx) (placement : BlockPlacement), file.blockMap[idx]? = some placement →
    ∀ bytes cached, tryNodes bs (answer idx) placement.nodes (.storeUnavailable placement.primary) = .ok (bytes,cached) →
      Shows bs F idx bytes

/-- Cached blocks of the handle's generation are those of `F`. -/
def CacheShows (bs : Nat) (F : Flat) (file : OpenFile) (cache : BlockCache) : Prop :=
  ∀ (idx : BlockIdx) (bytes : Bytes), cache[file.cacheKey idx]? = some bytes → Shows bs F idx bytes

section Faithful

variable {bs : Nat} {answer : BlockIdx → NodeId → NodeAnswer} {F D : Flat} {file : OpenFile} {cache : BlockCache}

theorem cacheKey_inj {idx other : BlockIdx} (same : file.cacheKey idx = file.cacheKey other) : idx = other :=
  congrArg BlockKey.blockIdx same

theorem fetchBlock_keeps (h : Drafts bs answer F D file) (cached : CacheShows bs F file cache) (idx : BlockIdx) :
    CacheShows bs F file (fetchBlock bs answer file idx cache).2 := by
  rcases fetchBlock_cache bs answer file idx cache with same | ⟨placement,bytes,placed,asked,filled⟩
  · rw [same]
    exact cached
  · rw [filled]
    intro other block found
    rw [get_insert] at found
    split at found
    next same =>
      cases found
      exact cacheKey_inj same ▸ h.answered idx placement placed bytes true asked
    next => exact cached other block found

/-- A fetched block is that of the drafted file, if what is cached of it and what the
nodes say of it is. -/
theorem fetchBlock_image (overlay : Overlay bs F D (fun idx => file.dirty[idx]?)) {idx : BlockIdx}
    (cached : ∀ bytes, cache[file.cacheKey idx]? = some bytes → Shows bs F idx bytes)
    (told : file.asks idx cache = true → ∀ placement bytes flag, file.blockMap[idx]? = some placement →
      tryNodes bs (answer idx) placement.nodes (.storeUnavailable placement.primary) = .ok (bytes,flag) → Shows bs F idx bytes)
    (block : Bytes) (fetched : (fetchBlock bs answer file idx cache).1 = .ok block) : Shows bs D idx block := by
  cases dirty : file.dirty[idx]? with
  | some buf =>
    have own : (fetchBlock bs answer file idx cache).1 = .ok buf := by
      unfold fetchBlock
      rw [dirty]
    rw [own] at fetched
    cases fetched
    exact overlay.dirtied idx _ dirty
  | none =>
    have agree := overlay.clean idx dirty
    rcases fetchBlock_source fetched with own | held | ⟨asked,placement,flag,placed,answered⟩
    · rw [dirty] at own
      cases own
    · exact (cached block held).congr agree
    · exact (told asked placement block flag placed answered).congr agree

theorem fetchBlock_shows (h : Drafts bs answer F D file) (cached : CacheShows bs F file cache) (idx : BlockIdx)
    (block : Bytes) (fetched : (fetchBlock bs answer file idx cache).1 = .ok block) : Shows bs D idx block :=
  fetchBlock_image h.overlay (cached idx) (fun _ placement bytes flag placed asked => h.answered idx placement placed bytes flag asked)
    block fetched

theorem fetchBlock_ok {idx : BlockIdx} (known : file.dirty[idx]? ≠ none ∨ ∃ placement, file.blockMap[idx]? = some placement ∧
      ∃ result, tryNodes bs (answer idx) placement.nodes (.storeUnavailable placement.primary) = .ok result) :
    ∃ block, (fetchBlock bs answer file idx cache).1 = .ok block := by
  unfold fetchBlock
  split
  next buf _ => exact ⟨buf,rfl⟩
  next clean =>
    split
    next bytes _ => exact ⟨bytes,rfl⟩
    next =>
      rcases known with dirty | ⟨placement,placed,⟨bytes,flag⟩,asked⟩
      · exact absurd clean dirty
      · simp only [placed,asked]
        cases flag <;> exact ⟨bytes,rfl⟩

theorem block_bounds {bs : Nat} (positive : 0 < bs) (cur : Nat) :
    cur / bs * bs ≤ cur ∧ cur < cur / bs * bs + bs := by
  have division := Nat.div_add_mod cur bs
  have remainder := Nat.mod_lt cur positive
  rw [Nat.mul_comm] at division
  omega

/-- A stretch of one block, padded with zeros where the block ends. -/
theorem piece_slice {idx inBlock want : Nat} {block : Bytes} (image : ∀ k < bs, block.getD k 0 = F.byte (idx * bs + k))
    (fits : inBlock + want ≤ bs) :
    (block.drop inBlock).take (min want (block.length - inBlock)) ++ zeros (want - min want (block.length - inBlock)) =
      F.slice (idx * bs + inBlock) want := by
  apply List.ext_getElem
  · simp only [zeros,Flat.slice,List.length_append,List.length_take,List.length_drop,List.length_replicate,List.length_map,
      List.length_range]
    omega
  · intro k first second
    have small : k < want := by simpa [Flat.slice] using second
    have byte := image (inBlock + k) (by omega)
    have right : (F.slice (idx * bs + inBlock) want)[k] = F.byte (idx * bs + (inBlock + k)) := by
      simp only [Flat.slice,List.getElem_map,List.getElem_range,Nat.add_assoc]
    rw [right,← byte]
    by_cases inside : k < block.length - inBlock
    · have present : inBlock + k < block.length := by omega
      rw [List.getElem_append_left (by simp only [List.length_take,List.length_drop]; omega),List.getElem_take,List.getElem_drop,
        List.getD_eq_getElem _ _ present]
    · rw [List.getElem_append_right (by simp only [List.length_take,List.length_drop]; omega),List.getD_eq_default _ _ (by omega)]
      exact List.getElem_replicate _

/-- The rule for reads. What holds of the stretches of the blocks that are fetched, of zeros
where there is no block, and of stretches one after the other, holds of what is read. -/
theorem readLoop_rule (positive : 0 < bs) {kept : BlockCache → Prop} (good : Nat → Bytes → Prop) {stop fuel cur : Nat} {bytes : Bytes}
    (begun : kept cache) (done : (readLoop bs answer file stop fuel cur cache).1 = .ok bytes)
    (keeps : ∀ idx cache, kept cache → kept (fetchBlock bs answer file idx cache).2)
    (fetched : ∀ idx cache block, kept cache → (file.blockMap.contains idx || file.dirty.contains idx) = true →
      (fetchBlock bs answer file idx cache).1 = .ok block → ∀ inBlock want, inBlock + want ≤ bs → good (idx * bs + inBlock)
        ((block.drop inBlock).take (min want (block.length - inBlock)) ++ zeros (want - min want (block.length - inBlock))))
    (hole : ∀ idx : BlockIdx, file.blockMap[idx]? = none → file.dirty[idx]? = none → ∀ inBlock want, inBlock + want ≤ bs →
      good (idx * bs + inBlock) (zeros want))
    (empty : ∀ cur, good cur [])
    (append : ∀ cur front back, good cur front → good (cur + front.length) back → good cur (front ++ back)) : good cur bytes := by
  induction fuel generalizing cur cache bytes with
  | zero =>
    cases done
    exact empty cur
  | succ fuel ih =>
    unfold readLoop at done
    split at done
    next more =>
      dsimp only at done
      obtain ⟨low,high⟩ := block_bounds positive cur
      generalize idx_eq : cur / bs = idx at *
      generalize want_eq : min (idx * bs + bs) stop - cur = want at *
      have start : idx * bs + (cur - idx * bs) = cur := by omega
      have fits : cur - idx * bs + want ≤ bs := by omega
      split at done
      · cases done
      next piece cache' got =>
        have first : piece.length = want ∧ good cur piece ∧ kept cache' := by
          split at got
          next known =>
            have after := keeps idx cache begun
            have image {block : Bytes} := fetched idx cache block begun known
            split at got
            · cases got
            next block cache'' asked =>
              cases got
              rw [asked] at after image
              have part := image rfl (cur - idx * bs) want fits
              rw [start] at part
              refine ⟨?_,part,after⟩
              simp only [zeros,List.length_append,List.length_take,List.length_drop,List.length_replicate]
              omega
          next unknown =>
            cases got
            simp only [Bool.or_eq_true,not_or,contains_iff,not_exists] at unknown
            have blank := hole idx (Option.eq_none_iff_forall_ne_some.mpr unknown.1) (Option.eq_none_iff_forall_ne_some.mpr unknown.2)
              (cur - idx * bs) want fits
            rw [start] at blank
            exact ⟨List.length_replicate,blank,begun⟩
        obtain ⟨sized,front,after⟩ := first
        split at done
        · cases done
        next rest cache'' looped =>
          cases done
          apply append cur piece rest front
          rw [sized]
          exact ih after (by rw [looped])
    next finished =>
      cases done
      exact empty cur

/-- Whatever the blocks are like, the loop replies every byte it was asked for. -/
theorem readLoop_length (positive : 0 < bs) {stop fuel cur : Nat} (enough : stop - cur ≤ fuel) {bytes : Bytes}
    (done : (readLoop bs answer file stop fuel cur cache).1 = .ok bytes) : bytes.length = stop - cur := by
  induction fuel generalizing cur cache bytes with
  | zero =>
    cases done
    exact (Nat.eq_zero_of_le_zero enough).symm
  | succ fuel ih =>
    unfold readLoop at done
    split at done
    next more =>
      obtain ⟨low,high⟩ := block_bounds positive cur
      dsimp only at done
      generalize idx_eq : cur / bs = idx at *
      split at done
      next => cases done
      next piece cache' fetched =>
        have wanted : piece.length = min (idx * bs + bs) stop - cur := by
          split at fetched
          next =>
            split at fetched
            next => cases fetched
            next block cache'' _ =>
              cases fetched
              simp only [zeros,List.length_append,List.length_take,List.length_drop,List.length_replicate]
              omega
          next =>
            cases fetched
            exact List.length_replicate
        split at done
        next => cases done
        next rest cache'' looped =>
          cases done
          have left : stop - (cur + (min (idx * bs + bs) stop - cur)) ≤ fuel := by omega
          have tail : rest.length = stop - (cur + (min (idx * bs + bs) stop - cur)) := ih left (by rw [looped])
          rw [List.length_append,wanted,tail]
          omega
    next finished =>
      cases done
      exact (Nat.sub_eq_zero_of_le (Nat.le_of_not_lt finished)).symm

theorem read_length (positive : 0 < bs) {off size : Nat} {bytes : Bytes} (done : (read bs answer file off size cache).1 = .ok bytes) :
    bytes.length = size := by
  have all := readLoop_length positive (Nat.le_of_eq (Nat.add_sub_cancel_left off size)) done
  rw [all,Nat.add_sub_cancel_left]

theorem readLoop_shows (positive : 0 < bs) (h : Drafts bs answer F D file) (stop fuel cur : Nat)
    (cached : CacheShows bs F file cache) (enough : stop - cur ≤ fuel) (bytes : Bytes)
    (done : (readLoop bs answer file stop fuel cur cache).1 = .ok bytes) : bytes = D.slice cur (stop - cur) := by
  rw [← readLoop_length positive enough done]
  refine readLoop_rule positive (fun cur bytes => bytes = D.slice cur bytes.length) cached done
    (fun idx _ cached => fetchBlock_keeps h cached idx) ?_ ?_ (fun _ => rfl) ?_
  · intro idx cache block cached _ asked inBlock want fits
    rw [piece_slice (fetchBlock_shows h cached idx block asked).bytes fits,Flat.length_slice]
  · intro idx unplaced clean inBlock want fits
    have blank := (h.unplaced idx unplaced).congr (h.overlay.clean idx clean)
    rw [zeros,blank.stretch fits,Flat.length_slice]
  · intro cur front back first second
    rw [List.length_append,Flat.slice_add,← first,← second]

/-- A read that succeeds returns the drafted bytes. -/
theorem read_shows (positive : 0 < bs) (h : Drafts bs answer F D file) (cached : CacheShows bs F file cache)
    (off size : Nat) (bytes : Bytes) (done : (read bs answer file off size cache).1 = .ok bytes) :
    bytes = D.slice off size := by
  have result := readLoop_shows positive h (off + size) size off cached (by omega) bytes done
  rwa [Nat.add_sub_cancel_left] at result

theorem readLoop_ok (known : ∀ (idx : BlockIdx) (placement : BlockPlacement), file.blockMap[idx]? = some placement →
      ∃ result, tryNodes bs (answer idx) placement.nodes (.storeUnavailable placement.primary) = .ok result)
    (stop fuel cur : Nat) : ∃ bytes, (readLoop bs answer file stop fuel cur cache).1 = .ok bytes := by
  induction fuel generalizing cur cache with
  | zero => exact ⟨[],rfl⟩
  | succ fuel ih =>
    unfold readLoop
    split
    next =>
      dsimp only
      generalize cur / bs = idx
      split
      next e cache' failed =>
        split at failed
        next present =>
          have fetched : ∃ block, (fetchBlock bs answer file idx cache).1 = .ok block := by
            refine fetchBlock_ok ?_
            rw [Bool.or_eq_true,contains_iff,contains_iff] at present
            rcases present with ⟨placement,placed⟩ | ⟨buf,dirty⟩
            · exact .inr ⟨placement,placed,known idx placement placed⟩
            · exact .inl (by simp [dirty])
          obtain ⟨block,fetched⟩ := fetched
          split at failed
          next asked =>
            rw [asked] at fetched
            cases fetched
          next => cases failed
        next => cases failed
      next piece cache' _ =>
        have looped : ∃ rest, (readLoop bs answer file stop fuel (cur + (min (idx * bs + bs) stop - cur)) cache').1 =
            .ok rest := ih _
        obtain ⟨rest,tail⟩ := looped
        split
        next looped =>
          rw [looped] at tail
          cases tail
        next => exact ⟨_,rfl⟩
    next => exact ⟨[],rfl⟩

/-- The bytes one round of `apply_write` copies. -/
def chunkOf (bs offset : Nat) (data : Bytes) (done : Nat) : Bytes :=
  (data.drop done).take (min ((offset + done) / bs * bs + bs) (offset + data.length) - (offset + done))

theorem chunkOf_length (bs offset : Nat) (data : Bytes) (done : Nat) :
    (chunkOf bs offset data done).length =
      min ((offset + done) / bs * bs + bs) (offset + data.length) - (offset + done) := by
  simp only [chunkOf,List.length_take,List.length_drop]
  omega

theorem chunkOf_pos (positive : 0 < bs) (offset : Nat) {done : Nat} {data : Bytes} (more : done < data.length) :
    0 < (chunkOf bs offset data done).length ∧ done + (chunkOf bs offset data done).length ≤ data.length := by
  obtain ⟨low,high⟩ := block_bounds positive (offset + done)
  rw [chunkOf_length]
  omega

/-- The file after a round that started from `buf` in the block it writes to. -/
def afterChunk (bs : Nat) (file : OpenFile) (offset : Nat) (data : Bytes) (done : Nat) (buf : Bytes) : OpenFile :=
  let idx := (offset + done) / bs
  let block := splice buf (offset + done - idx * bs) (chunkOf bs offset data done)
  {file with dirty := file.dirty.insert idx block}

theorem writeChunk_cases (bs : Nat) (answer : BlockIdx → NodeId → NodeAnswer) (file : OpenFile) (offset : Nat) (data : Bytes)
    (done : Nat) (cache : BlockCache) :
    let idx := (offset + done) / bs
    ((writeChunk bs answer file offset data done cache).2 = cache ∨
      (writeChunk bs answer file offset data done cache).2 = (fetchBlock bs answer file idx cache).2) ∧
    ((∃ e, (writeChunk bs answer file offset data done cache).1 = .error e) ∨
    ∃ buf, (writeChunk bs answer file offset data done cache).1 =
        .ok (file.afterChunk bs offset data done buf,done + (chunkOf bs offset data done).length) ∧
      (file.dirty[idx]? = some buf ∨ (file.dirty[idx]? = none ∧ (initialBlock bs answer file idx
        (offset + done - idx * bs) (chunkOf bs offset data done).length cache).1 = .ok buf))) := by
  intro idx
  have length := chunkOf_length bs offset data done
  unfold writeChunk
  dsimp only
  cases dirty : file.dirty[(offset + done) / bs]? with
  | some buf =>
    dsimp only
    exact ⟨.inl rfl,.inr ⟨buf,by rw [length]; rfl,.inl rfl⟩⟩
  | none =>
    have caches : (initialBlock bs answer file idx (offset + done - idx * bs)
          (min (idx * bs + bs) (offset + data.length) - (offset + done)) cache).2 = cache ∨
        (initialBlock bs answer file idx (offset + done - idx * bs)
          (min (idx * bs + bs) (offset + data.length) - (offset + done)) cache).2 =
            (fetchBlock bs answer file idx cache).2 := by
      unfold initialBlock
      split
      · exact .inl rfl
      · split
        · right
          split <;> simp_all
        · exact .inl rfl
    rcases outcome : initialBlock bs answer file idx (offset + done - idx * bs)
      (min (idx * bs + bs) (offset + data.length) - (offset + done)) cache with ⟨result,cache'⟩
    rw [outcome] at caches
    cases result with
    | error e => exact ⟨caches,.inl ⟨e,rfl⟩⟩
    | ok buf =>
      refine ⟨caches,.inr ⟨buf,?_,.inr ⟨rfl,?_⟩⟩⟩
      · rw [length]
        rfl
      · rw [length,outcome]

theorem writeChunk_whole (positive : 0 < bs) {offset done : Nat} {data : Bytes} (whole : (chunkOf bs offset data done).length = bs) :
    (writeChunk bs answer file offset data done cache).2 = cache := by
  rw [chunkOf_length] at whole
  obtain ⟨low,high⟩ := block_bounds positive (offset + done)
  have start : offset + done - (offset + done) / bs * bs = 0 := by omega
  unfold writeChunk
  dsimp only
  cases dirty : file.dirty[(offset + done) / bs]? with
  | some buf => rfl
  | none => simp only [initialBlock,start,whole,and_self,if_true]

theorem writeChunk_ok (known : ∀ (idx : BlockIdx) (placement : BlockPlacement), file.blockMap[idx]? = some placement →
      ∃ result, tryNodes bs (answer idx) placement.nodes (.storeUnavailable placement.primary) = .ok result)
    (offset : Nat) (data : Bytes) (done : Nat) : ∃ result, (writeChunk bs answer file offset data done cache).1 = .ok result := by
  unfold writeChunk
  dsimp only
  generalize (offset + done) / bs = idx
  split
  next => exact ⟨_,rfl⟩
  next =>
    split
    next e cache' failed =>
      unfold initialBlock at failed
      split at failed
      next => cases failed
      next =>
        split at failed
        next present =>
          obtain ⟨placement,placed⟩ := (contains_iff _ _).mp present
          obtain ⟨block,fetched⟩ := fetchBlock_ok (.inr ⟨placement,placed,known idx placement placed⟩)
          split at failed
          next asked =>
            rw [asked] at fetched
            cases fetched
          next => cases failed
        next => cases failed
    next => exact ⟨_,rfl⟩

/-- A round of `apply_write` drafts the patch of its chunk. -/
theorem afterChunk_overlay (positive : 0 < bs) (overlay : Overlay bs F D (fun idx => file.dirty[idx]?))
    (unplaced : ∀ idx : BlockIdx, file.blockMap[idx]? = none → Blank bs F idx) (cached : CacheShows bs F file cache)
    {offset done : Nat} {data buf : Bytes} (extent : Nat)
    (told : (chunkOf bs offset data done).length ≠ bs → file.asks ((offset + done) / bs) cache = true → ∀ placement bytes flag,
      file.blockMap[(offset + done) / bs]? = some placement →
        tryNodes bs (answer ((offset + done) / bs)) placement.nodes (.storeUnavailable placement.primary) = .ok (bytes,flag) →
          Shows bs F ((offset + done) / bs) bytes)
    (started : file.dirty[(offset + done) / bs]? = some buf ∨
      (file.dirty[(offset + done) / bs]? = none ∧ (initialBlock bs answer file ((offset + done) / bs)
        (offset + done - (offset + done) / bs * bs) (chunkOf bs offset data done).length cache).1 = .ok buf)) :
    Overlay bs F (D.apply ⟨offset + done,chunkOf bs offset data done,extent⟩)
      (fun idx => (file.afterChunk bs offset data done buf).dirty[idx]?) := by
  obtain ⟨low,high⟩ := block_bounds positive (offset + done)
  have length := chunkOf_length bs offset data done
  have start : (offset + done) / bs * bs + (offset + done - (offset + done) / bs * bs) = offset + done := by omega
  have fits : offset + done - (offset + done) / bs * bs + (chunkOf bs offset data done).length ≤ bs := by omega
  have image : Shows bs (D.apply ⟨(offset + done) / bs * bs + (offset + done - (offset + done) / bs * bs),
      chunkOf bs offset data done,extent⟩) ((offset + done) / bs)
      (splice buf (offset + done - (offset + done) / bs * bs) (chunkOf bs offset data done)) := by
    rcases started with dirty | ⟨clean,initial⟩
    · exact (overlay.dirtied _ buf dirty).splice fits
    · unfold initialBlock at initial
      split at initial
      next whole =>
        cases initial
        rw [whole.1]
        exact shows_overwrite List.length_replicate whole.2
      next partial_ =>
        split at initial
        next placed =>
          have part : (chunkOf bs offset data done).length ≠ bs := by
            intro whole
            exact partial_ ⟨by omega,whole⟩
          have shown := fetchBlock_image overlay (cached ((offset + done) / bs)) (told part)
          split at initial
          · cases initial
          next block cache' asked =>
            cases initial
            rw [asked] at shown
            have sized := (shown block rfl).length
            simp only [pad,sized,Nat.sub_self,zeros,List.replicate_zero,List.append_nil]
            exact (shown block rfl).splice fits
        next unknown =>
          cases initial
          have absent : file.blockMap[(offset + done) / bs]? = none := by
            rw [contains_iff,not_exists] at unknown
            exact Option.eq_none_iff_forall_ne_some.mpr unknown
          have blank := (unplaced _ absent).congr (overlay.clean _ clean)
          exact blank.shows.splice fits
  have drafted : Overlay bs F (D.apply ⟨(offset + done) / bs * bs + (offset + done - (offset + done) / bs * bs),
      chunkOf bs offset data done,extent⟩) (fun idx => (file.afterChunk bs offset data done buf).dirty[idx]?) :=
    overlay.chunk fits image (by simp [afterChunk]) (fun other apart => by simp [afterChunk,get_insert,apart.symm])
  rwa [start] at drafted

end Faithful

end OpenFile

end Dtmpfs
