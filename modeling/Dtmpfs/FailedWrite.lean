import Dtmpfs.HandleContent
import Dtmpfs.ReadReply

/-! A write that fails. `apply_write` goes through its blocks one by one and returns at
the first one it cannot read; the blocks before it keep what was written to them. -/
namespace Dtmpfs
open FlatFile OrderedMap

namespace OpenFile

/-- Block `idx` has bytes from `start` up to `stop`. -/
def InWrite (bs start stop : Nat) (idx : BlockIdx) : Prop := start < stop ∧ start / bs ≤ idx ∧ idx * bs < stop

/-- The block is not overwritten as a whole and has to be read first, and no node has
anything to tell about it. -/
def Unreadable (bs : Nat) (answer : BlockIdx → NodeId → NodeAnswer) (file : OpenFile) (start stop : Nat) (cache : BlockCache)
    (idx : BlockIdx) : Prop :=
  ¬ (start ≤ idx * bs ∧ idx * bs + bs ≤ stop) ∧ file.asks idx cache = true ∧
    ∀ placement, file.blockMap[idx]? = some placement → ∀ node ∈ placement.nodes,
      answer idx node ≠ .notFound ∧ ∀ bytes, answer idx node ≠ .data bytes

/-- Dirty buffers have room for a whole block, as those of every handle have. -/
def Roomy (bs : Nat) (file : OpenFile) : Prop := ∀ (idx : BlockIdx) (buf : Bytes), file.dirty[idx]? = some buf → bs ≤ buf.length

/-- The block is dirty and has the bytes of the write from `start` on already. -/
def AlreadyWritten (bs : Nat) (file : OpenFile) (offset : Nat) (data : Bytes) (start : Nat) (idx : BlockIdx) : Prop :=
  ∃ buf, file.dirty[idx]? = some buf ∧ ∀ o, idx * bs ≤ o → o < idx * bs + bs → start ≤ o → o < offset + data.length →
    buf[o - idx * bs]? = data[o - offset]?

section Rounds

variable {bs : Nat} {answer : BlockIdx → NodeId → NodeAnswer} {file : OpenFile} {cache : BlockCache} {offset done : Nat} {data : Bytes}

theorem ok_not_failed {α : Type} (value : α) : ¬ ∃ e : DtmpfsError, Except.ok value = Except.error e := by
  intro failed
  obtain ⟨e,failed⟩ := failed
  cases failed

theorem tryNodes_failed_iff (bs : Nat) {ask : NodeId → NodeAnswer} (nodes : List NodeId) (lastErr : DtmpfsError) :
    (∃ e, tryNodes bs ask nodes lastErr = .error e) ↔ ∀ node ∈ nodes, ask node ≠ .notFound ∧ ∀ bytes, ask node ≠ .data bytes := by
  constructor
  · intro failed
    obtain ⟨e,failed⟩ := failed
    exact tryNodes_failed failed
  · intro silent
    obtain ⟨e,skipped⟩ := tryNodes_skip bs silent [] lastErr
    rw [List.append_nil] at skipped
    exact ⟨e,skipped⟩

/-- A fetch of a placed block fails exactly when the stores are asked in vain. -/
theorem fetchBlock_failed_iff {idx : BlockIdx} (clean : file.dirty[idx]? = none) {placement : BlockPlacement}
    (placed : file.blockMap[idx]? = some placement) :
    (∃ e, (fetchBlock bs answer file idx cache).1 = .error e) ↔ file.asks idx cache = true ∧
      ∀ node ∈ placement.nodes, answer idx node ≠ .notFound ∧ ∀ bytes, answer idx node ≠ .data bytes := by
  cases cached : cache[file.cacheKey idx]? with
  | some bytes =>
    have told : (fetchBlock bs answer file idx cache).1 = .ok bytes := by
      unfold fetchBlock
      rw [clean,cached]
    rw [told]
    refine iff_of_false (ok_not_failed bytes) ?_
    intro asked
    have uncached := ((asks_iff file idx cache).mp asked.1).2.1
    rw [cached] at uncached
    cases uncached
  | none =>
    have asks : file.asks idx cache = true := (asks_iff file idx cache).mpr ⟨clean,cached,placement,placed⟩
    rw [fetchBlock_asked asks placed,← tryNodes_failed_iff bs _ (.storeUnavailable placement.primary)]
    split
    next e asked => exact ⟨fun _ => ⟨asks,e,asked⟩,fun _ => ⟨e,rfl⟩⟩
    next bytes asked =>
      rw [asked]
      exact iff_of_false (ok_not_failed bytes) (fun both => ok_not_failed _ both.2)
    next bytes asked =>
      rw [asked]
      exact iff_of_false (ok_not_failed bytes) (fun both => ok_not_failed _ both.2)

/-- A round fails exactly when its block cannot be read. -/
theorem writeChunk_failed_iff (positive : 0 < bs) (answer : BlockIdx → NodeId → NodeAnswer) (file : OpenFile) (cache : BlockCache)
    (offset done : Nat) (data : Bytes) :
    (∃ e, (writeChunk bs answer file offset data done cache).1 = .error e) ↔
      Unreadable bs answer file (offset + done) (offset + data.length) cache ((offset + done) / bs) := by
  obtain ⟨low,high⟩ := block_bounds positive (offset + done)
  unfold writeChunk Unreadable
  dsimp only
  generalize idx_eq : (offset + done) / bs = idx at *
  cases dirty : file.dirty[idx]? with
  | some buf =>
    refine iff_of_false (ok_not_failed _) ?_
    intro unreadable
    have clean := ((asks_iff file idx cache).mp unreadable.2.1).1
    rw [dirty] at clean
    cases clean
  | none =>
    have whole : (offset + done - idx * bs = 0 ∧ min (idx * bs + bs) (offset + data.length) - (offset + done) = bs) ↔
        (offset + done ≤ idx * bs ∧ idx * bs + bs ≤ offset + data.length) := by omega
    have failed_iff : (∃ e, (initialBlock bs answer file idx (offset + done - idx * bs)
          (min (idx * bs + bs) (offset + data.length) - (offset + done)) cache).1 = .error e) ↔
        ¬ (offset + done ≤ idx * bs ∧ idx * bs + bs ≤ offset + data.length) ∧ file.asks idx cache = true ∧
          ∀ placement, file.blockMap[idx]? = some placement → ∀ node ∈ placement.nodes,
            answer idx node ≠ .notFound ∧ ∀ bytes, answer idx node ≠ .data bytes := by
      unfold initialBlock
      by_cases all : offset + done ≤ idx * bs ∧ idx * bs + bs ≤ offset + data.length
      · rw [if_pos (whole.mpr all)]
        exact iff_of_false (ok_not_failed _) (fun unreadable => unreadable.1 all)
      · rw [if_neg (fun same => all (whole.mp same)),and_iff_right all]
        cases placed : file.blockMap[idx]? with
        | none =>
          have unknown : ¬ file.blockMap.contains idx = true := by
            rw [contains_iff,placed]
            exact fun found => nomatch found
          rw [if_neg unknown]
          refine iff_of_false (ok_not_failed _) ?_
          intro asked
          obtain ⟨_,_,placement,known⟩ := (asks_iff file idx cache).mp asked.1
          rw [placed] at known
          cases known
        | some placement =>
          rw [if_pos ((contains_iff _ _).mpr ⟨placement,placed⟩)]
          have fetched := @fetchBlock_failed_iff bs answer file cache idx dirty placement placed
          simp only [Option.some.injEq,forall_eq']
          rw [← fetched]
          split
          next e cache' failed => exact ⟨fun _ => ⟨e,by rw [failed]⟩,fun _ => ⟨e,rfl⟩⟩
          next block cache' told =>
            rw [told]
            exact iff_of_false (ok_not_failed _) (ok_not_failed block)
    rw [← failed_iff]
    dsimp only
    split
    next e cache' failed => exact ⟨fun _ => ⟨e,by rw [failed]⟩,fun _ => ⟨e,rfl⟩⟩
    next buf cache' told =>
      rw [told]
      exact iff_of_false (ok_not_failed _) (ok_not_failed buf)

theorem chunkOf_reach (bs offset : Nat) (data : Bytes) (done o : Nat) (from_ : offset + done ≤ o) :
    o < offset + done + (chunkOf bs offset data done).length ↔ o < (offset + done) / bs * bs + bs ∧ o < offset + data.length := by
  rw [chunkOf_length]
  have both : o < min ((offset + done) / bs * bs + bs) (offset + data.length) ↔
      o < (offset + done) / bs * bs + bs ∧ o < offset + data.length := Nat.lt_min
  rw [← both]
  omega

theorem chunkOf_getElem? (bs offset : Nat) (data : Bytes) (done k : Nat) (inside : k < (chunkOf bs offset data done).length) :
    (chunkOf bs offset data done)[k]? = data[done + k]? := by
  rw [chunkOf_length] at inside
  rw [chunkOf,List.getElem?_take,if_pos inside,List.getElem?_drop]

/-- A round leaves its block as it was exactly when the bytes were there already. -/
theorem round_silent_iff (positive : 0 < bs) (roomy : Roomy bs file) {buf : Bytes}
    (started : file.dirty[(offset + done) / bs]? = some buf ∨ file.dirty[(offset + done) / bs]? = none) :
    (file.afterChunk bs offset data done buf).dirty[(offset + done) / bs]? = file.dirty[(offset + done) / bs]? ↔
      AlreadyWritten bs file offset data (offset + done) ((offset + done) / bs) := by
  obtain ⟨low,high⟩ := block_bounds positive (offset + done)
  have reach := chunkOf_reach bs offset data done
  have bytes := chunkOf_getElem? bs offset data done
  simp only [afterChunk,get_insert,if_true]
  generalize (offset + done) / bs = idx at *
  generalize chunkOf bs offset data done = chunk at *
  rcases started with dirty | clean
  · have room := roomy idx buf dirty
    have fits : offset + done - idx * bs + chunk.length ≤ buf.length := by
      have last := reach (offset + done + (chunk.length - 1)) (by omega)
      omega
    rw [dirty,Option.some.injEq]
    constructor
    · intro same
      refine ⟨buf,dirty,?_⟩
      intro o first last later before
      have here := congrArg (fun block : Bytes => block[o - idx * bs]?) same
      have hit := (reach o later).mpr ⟨last,before⟩
      simp only [splice_getElem? fits] at here
      rw [if_pos (by omega),bytes _ (by omega)] at here
      rw [← here]
      congr 1
      omega
    · intro written
      obtain ⟨buf',dirty',there⟩ := written
      cases dirty.symm.trans dirty'
      apply List.ext_getElem?
      intro k
      rw [splice_getElem? fits]
      split
      next inside =>
        have inside_first : offset + done ≤ idx * bs + k := by omega
        have inside_last : idx * bs + k < offset + done + chunk.length := by omega
        have hit := (reach (idx * bs + k) inside_first).mp inside_last
        have same := there (idx * bs + k) (Nat.le_add_right _ _) hit.1 inside_first hit.2
        have here : k - (offset + done - idx * bs) < chunk.length := by omega
        have place : done + (k - (offset + done - idx * bs)) = idx * bs + k - offset := by omega
        rw [Nat.add_sub_cancel_left] at same
        rw [bytes _ here,same,place]
      next => rfl
  · rw [clean]
    refine iff_of_false (Option.some_ne_none _) ?_
    intro written
    obtain ⟨buf',dirty',_⟩ := written
    rw [clean] at dirty'
    cases dirty'

/-- The blocks a round has left to the rounds after it. -/
theorem inWrite_step (positive : 0 < bs) (more : done < data.length) (j : BlockIdx) :
    InWrite bs (offset + (done + (chunkOf bs offset data done).length)) (offset + data.length) j ↔
      InWrite bs (offset + done) (offset + data.length) j ∧ (offset + done) / bs < j := by
  obtain ⟨low,high⟩ := block_bounds positive (offset + done)
  have end_ := chunkOf_length bs offset data done
  unfold InWrite
  rw [← Nat.add_assoc]
  generalize (offset + done) / bs = idx at *
  generalize chunkOf bs offset data done = chunk at *
  have successor : idx < j ↔ idx * bs + bs ≤ j * bs := by
    rw [← Nat.succ_mul]
    exact (Nat.mul_le_mul_right_iff positive).symm
  rcases Nat.lt_or_ge (idx * bs + bs) (offset + data.length) with inside | beyond
  · rw [Nat.min_eq_left (Nat.le_of_lt inside)] at end_
    have start : offset + done + chunk.length = idx * bs + bs := by omega
    have quotient : (offset + done + chunk.length) / bs = idx + 1 := by
      rw [start,← Nat.succ_mul]
      exact Nat.mul_div_cancel _ positive
    rw [quotient,start]
    constructor
    · intro left
      obtain ⟨_,after,below⟩ := left
      exact ⟨⟨Nat.add_lt_add_left more offset,Nat.le_of_lt after,below⟩,after⟩
    · intro left
      obtain ⟨⟨_,_,below⟩,after⟩ := left
      exact ⟨inside,after,below⟩
  · rw [Nat.min_eq_right beyond] at end_
    refine iff_of_false ?_ ?_
    · intro left
      have open_ := left.1
      omega
    · intro left
      obtain ⟨⟨_,_,below⟩,after⟩ := left
      have far := successor.mp after
      exact Nat.not_lt_of_le (Nat.le_trans beyond far) below

theorem chunk_before (positive : 0 < bs) (data : Bytes) {j : BlockIdx} (later : (offset + done) / bs < j) :
    offset + done ≤ j * bs ∧ offset + (done + (chunkOf bs offset data done).length) ≤ j * bs := by
  obtain ⟨low,high⟩ := block_bounds positive (offset + done)
  have inside := Nat.min_le_left ((offset + done) / bs * bs + bs) (offset + data.length)
  have far : (offset + done) / bs * bs + bs ≤ j * bs := by
    rw [← Nat.succ_mul]
    exact Nat.mul_le_mul_right bs later
  rw [chunkOf_length]
  omega

theorem afterChunk_dirty (file : OpenFile) (data buf : Bytes) {j : BlockIdx} (other : (offset + done) / bs ≠ j) :
    (file.afterChunk bs offset data done buf).dirty[j]? = file.dirty[j]? := by
  simp only [afterChunk,get_insert]
  rw [if_neg other]

/-- A round leaves the blocks after its own as they are. -/
theorem unreadable_step (positive : 0 < bs) {buf : Bytes} {cache' : BlockCache} {j : BlockIdx} (later : (offset + done) / bs < j)
    (caches : cache' = cache ∨ cache' = (fetchBlock bs answer file ((offset + done) / bs) cache).2) :
    Unreadable bs answer (file.afterChunk bs offset data done buf) (offset + (done + (chunkOf bs offset data done).length))
        (offset + data.length) cache' j ↔
      Unreadable bs answer file (offset + done) (offset + data.length) cache j := by
  obtain ⟨below,after⟩ := chunk_before positive data later
  have keys : (file.afterChunk bs offset data done buf).cacheKey j = file.cacheKey j := rfl
  have placed : (file.afterChunk bs offset data done buf).blockMap = file.blockMap := rfl
  have dirty := afterChunk_dirty file data buf (Nat.ne_of_lt later)
  have cached : cache'[file.cacheKey j]? = cache[file.cacheKey j]? := by
    rcases caches with same | fetched
    · rw [same]
    · rw [fetched]
      rcases fetchBlock_cache bs answer file ((offset + done) / bs) cache with same | ⟨_,bytes,_,_,filled⟩
      · rw [same]
      · rw [filled,get_insert,if_neg]
        intro same
        exact Nat.ne_of_lt later (BlockKey.mk.inj same).2.1
  have asks : (file.afterChunk bs offset data done buf).asks j cache' = true ↔ file.asks j cache = true := by
    rw [asks_iff,asks_iff,keys,placed,dirty,cached]
  have ahead : offset + (done + (chunkOf bs offset data done).length) ≤ j * bs ↔ offset + done ≤ j * bs := iff_of_true after below
  unfold Unreadable
  rw [ahead,asks,placed]

theorem started_room {idx inBlock chunkLen : Nat} {buf : Bytes} (roomy : ∀ buf, file.dirty[idx]? = some buf → bs ≤ buf.length)
    (started : file.dirty[idx]? = some buf ∨
      (file.dirty[idx]? = none ∧ (initialBlock bs answer file idx inBlock chunkLen cache).1 = .ok buf)) : bs ≤ buf.length := by
  rcases started with dirty | ⟨_,initial⟩
  · exact roomy buf dirty
  · have blank : bs ≤ (zeros bs).length := Nat.le_of_eq List.length_replicate.symm
    unfold initialBlock at initial
    split at initial
    next =>
      cases initial
      exact blank
    next =>
      split at initial
      next =>
        split at initial
        next => cases initial
        next block _ _ =>
          cases initial
          simp only [pad,zeros,List.length_append,List.length_replicate]
          omega
      next =>
        cases initial
        exact blank

theorem afterChunk_roomy (positive : 0 < bs) (roomy : Roomy bs file) {buf : Bytes} (room : bs ≤ buf.length) :
    Roomy bs (file.afterChunk bs offset data done buf) := by
  obtain ⟨low,high⟩ := block_bounds positive (offset + done)
  have length := chunkOf_length bs offset data done
  intro idx block found
  simp only [afterChunk,get_insert] at found
  split at found
  next =>
    cases found
    rw [splice_length (by omega)]
    exact room
  next => exact roomy idx block found

theorem Held.roomy (positive : 0 < bs) (held : Held bs file) : Roomy bs file :=
  fun idx buf dirty => Nat.le_of_eq (held.sized positive idx buf dirty).symm

/-- A round that fails leaves the file to its caller, one that succeeds goes on with the
blocks after its own. -/
theorem writeLoop_round (bs : Nat) (answer : BlockIdx → NodeId → NodeAnswer) (file : OpenFile) (cache : BlockCache) (offset fuel : Nat)
    (more : done < data.length) :
    ((∃ e, (writeChunk bs answer file offset data done cache).1 = .error e) ∧
      (∃ e, (writeLoop bs answer offset data (fuel + 1) done file cache).1 = .error e) ∧
      (writeLoop bs answer offset data (fuel + 1) done file cache).2.1 = file) ∨
    ∃ buf cache', (¬ ∃ e, (writeChunk bs answer file offset data done cache).1 = .error e) ∧
      (file.dirty[(offset + done) / bs]? = some buf ∨ (file.dirty[(offset + done) / bs]? = none ∧
        (initialBlock bs answer file ((offset + done) / bs) (offset + done - (offset + done) / bs * bs)
          (chunkOf bs offset data done).length cache).1 = .ok buf)) ∧
      (cache' = cache ∨ cache' = (fetchBlock bs answer file ((offset + done) / bs) cache).2) ∧
      writeLoop bs answer offset data (fuel + 1) done file cache =
        writeLoop bs answer offset data fuel (done + (chunkOf bs offset data done).length)
          (file.afterChunk bs offset data done buf) cache' := by
  obtain ⟨caches,outcome⟩ := writeChunk_cases bs answer file offset data done cache
  have going : offset + done < offset + data.length := Nat.add_lt_add_left more offset
  rw [writeLoop,if_pos going]
  rcases round : writeChunk bs answer file offset data done cache with ⟨result,cache'⟩
  rw [round] at caches outcome
  rcases outcome with ⟨e,failed⟩ | ⟨buf,written,started⟩
  · cases failed
    exact .inl ⟨⟨e,rfl⟩,⟨e,rfl⟩,rfl⟩
  · cases written
    exact .inr ⟨buf,cache',ok_not_failed _,started,caches,rfl⟩

theorem inWrite_own (positive : 0 < bs) (offset : Nat) (more : done < data.length) :
    InWrite bs (offset + done) (offset + data.length) ((offset + done) / bs) := by
  obtain ⟨low,high⟩ := block_bounds positive (offset + done)
  have open_ : offset + done < offset + data.length := Nat.add_lt_add_left more offset
  exact ⟨open_,Nat.le_refl _,Nat.lt_of_le_of_lt low open_⟩

/-- After a round that has passed, the blocks that cannot be read are still to come. -/
theorem unreadable_later (positive : 0 < bs) (passed : ¬ ∃ e, (writeChunk bs answer file offset data done cache).1 = .error e)
    {idx : BlockIdx} (inside : InWrite bs (offset + done) (offset + data.length) idx)
    (unreadable : Unreadable bs answer file (offset + done) (offset + data.length) cache idx) : (offset + done) / bs < idx := by
  rcases Nat.lt_or_eq_of_le inside.2.1 with later | same
  · exact later
  · rw [← same] at unreadable
    exact absurd ((writeChunk_failed_iff positive answer file cache offset done data).mpr unreadable) passed

/-- The loop fails exactly when one of its blocks cannot be read. -/
theorem writeLoop_failed_iff (positive : 0 < bs) {fuel : Nat} (enough : data.length - done ≤ fuel) :
    (∃ e, (writeLoop bs answer offset data fuel done file cache).1 = .error e) ↔
      ∃ idx, InWrite bs (offset + done) (offset + data.length) idx ∧
        Unreadable bs answer file (offset + done) (offset + data.length) cache idx := by
  induction fuel generalizing done file cache with
  | zero =>
    refine iff_of_false (ok_not_failed _) ?_
    intro unreadable
    obtain ⟨idx,inside,_⟩ := unreadable
    have open_ := inside.1
    omega
  | succ fuel ih =>
    rcases Nat.lt_or_ge done data.length with more | beyond
    · rcases writeLoop_round bs answer file cache offset fuel more with
        ⟨failed,stopped,_⟩ | ⟨buf,cache',passed,_,caches,rest⟩
      · exact iff_of_true stopped ⟨_,inWrite_own positive offset more,(writeChunk_failed_iff positive answer file cache offset done data).mp failed⟩
      · obtain ⟨some,_⟩ := chunkOf_pos positive offset more
        rw [rest,ih (by omega)]
        constructor
        · intro unreadable
          obtain ⟨idx,inside,unreadable⟩ := unreadable
          obtain ⟨inside,later⟩ := (inWrite_step positive more idx).mp inside
          exact ⟨idx,inside,(unreadable_step positive later caches).mp unreadable⟩
        · intro unreadable
          obtain ⟨idx,inside,unreadable⟩ := unreadable
          have later := unreadable_later positive passed inside unreadable
          exact ⟨idx,(inWrite_step positive more idx).mpr ⟨inside,later⟩,(unreadable_step positive later caches).mpr unreadable⟩
    · have finished : ¬ offset + done < offset + data.length := by omega
      rw [writeLoop,if_neg finished]
      refine iff_of_false (ok_not_failed _) ?_
      intro unreadable
      obtain ⟨idx,inside,_⟩ := unreadable
      exact finished inside.1

theorem alreadyWritten_step (positive : 0 < bs) {buf : Bytes} {j : BlockIdx} (later : (offset + done) / bs < j) :
    AlreadyWritten bs (file.afterChunk bs offset data done buf) offset data (offset + (done + (chunkOf bs offset data done).length)) j ↔
      AlreadyWritten bs file offset data (offset + done) j := by
  obtain ⟨below,after⟩ := chunk_before positive data later
  have dirty := afterChunk_dirty file data buf (Nat.ne_of_lt later)
  have ahead (o : Nat) (inside : j * bs ≤ o) : offset + (done + (chunkOf bs offset data done).length) ≤ o ↔ offset + done ≤ o :=
    iff_of_true (Nat.le_trans after inside) (Nat.le_trans below inside)
  unfold AlreadyWritten
  rw [dirty]
  constructor
  · intro written
    obtain ⟨buf,found,there⟩ := written
    exact ⟨buf,found,fun o inside short from_ => there o inside short ((ahead o inside).mpr from_)⟩
  · intro written
    obtain ⟨buf,found,there⟩ := written
    exact ⟨buf,found,fun o inside short from_ => there o inside short ((ahead o inside).mp from_)⟩

/-- The first block that cannot be read. -/
def FirstUnreadable (bs : Nat) (answer : BlockIdx → NodeId → NodeAnswer) (file : OpenFile) (start stop : Nat) (cache : BlockCache)
    (idx : BlockIdx) : Prop :=
  InWrite bs start stop idx ∧ Unreadable bs answer file start stop cache idx ∧
    ∀ before < idx, InWrite bs start stop before → ¬ Unreadable bs answer file start stop cache before

/-- A write that fails at block `idx` leaves a block as it was exactly when it had not
come to it, or had nothing new to put there. -/
theorem writeLoop_stopped (positive : 0 < bs) {fuel : Nat} (enough : data.length - done ≤ fuel) (roomy : Roomy bs file) {idx : BlockIdx}
    (first : FirstUnreadable bs answer file (offset + done) (offset + data.length) cache idx) (j : BlockIdx) :
    (writeLoop bs answer offset data fuel done file cache).2.1.dirty[j]? = file.dirty[j]? ↔
      (InWrite bs (offset + done) (offset + data.length) j → j < idx → AlreadyWritten bs file offset data (offset + done) j) := by
  induction fuel generalizing done file cache with
  | zero =>
    have open_ := first.1.1
    omega
  | succ fuel ih =>
    obtain ⟨inside,unreadable,before⟩ := first
    have open_ := inside.1
    have more : done < data.length := by omega
    have here := inWrite_own positive offset more
    rcases writeLoop_round bs answer file cache offset fuel more with
      ⟨failed,_,same⟩ | ⟨buf,cache',passed,started,caches,rest⟩
    · rw [same]
      refine iff_of_true rfl ?_
      intro earlier short
      have blocked := (writeChunk_failed_iff positive answer file cache offset done data).mp failed
      exact absurd blocked (before _ (Nat.lt_of_le_of_lt earlier.2.1 short) here)
    · obtain ⟨some,_⟩ := chunkOf_pos positive offset more
      have later := unreadable_later positive passed inside unreadable
      have next : FirstUnreadable bs answer (file.afterChunk bs offset data done buf)
          (offset + (done + (chunkOf bs offset data done).length)) (offset + data.length) cache' idx := by
        refine ⟨(inWrite_step positive more idx).mpr ⟨inside,later⟩,(unreadable_step positive later caches).mpr unreadable,?_⟩
        intro between early inWrite
        obtain ⟨inWrite,past⟩ := (inWrite_step positive more between).mp inWrite
        rw [unreadable_step positive past caches]
        exact before between early inWrite
      have tail := ih (by omega) (afterChunk_roomy positive roomy (started_room (roomy _) started)) next
      rw [inWrite_step positive more j] at tail
      rw [rest]
      by_cases own_block : (offset + done) / bs = j
      · subst own_block
        have final := tail.mpr (fun inWrite => absurd inWrite.2 (Nat.lt_irrefl _))
        rw [final,round_silent_iff positive roomy (started.imp_right And.left)]
        exact ⟨fun written _ _ => written,fun written => written here later⟩
      · rw [afterChunk_dirty file data buf own_block] at tail
        rw [tail]
        constructor
        · intro written inWrite early
          have past := Nat.lt_of_le_of_ne inWrite.2.1 own_block
          exact (alreadyWritten_step positive past).mp (written ⟨inWrite,past⟩ early)
        · intro written inWrite early
          exact (alreadyWritten_step positive inWrite.2).mpr (written inWrite.1 early)

theorem writeLoop_hint {fuel : Nat} : (writeLoop bs answer offset data fuel done file cache).2.1.sizeHint = file.sizeHint := by
  induction fuel generalizing done file cache with
  | zero => rfl
  | succ fuel ih =>
    rcases Nat.lt_or_ge done data.length with more | beyond
    · rcases writeLoop_round bs answer file cache offset fuel more with
        ⟨_,_,same⟩ | ⟨buf,cache',_,_,_,rest⟩
      · rw [same]
      · rw [rest]
        exact ih
    · have finished : ¬ offset + done < offset + data.length := by omega
      rw [writeLoop,if_neg finished]

end Rounds

theorem exists_first {bs : Nat} {answer : BlockIdx → NodeId → NodeAnswer} {file : OpenFile} {start stop : Nat} {cache : BlockCache}
    (some : ∃ idx, InWrite bs start stop idx ∧ Unreadable bs answer file start stop cache idx) :
    ∃ idx, FirstUnreadable bs answer file start stop cache idx := by
  classical
  refine ⟨Nat.find some,(Nat.find_spec some).1,(Nat.find_spec some).2,?_⟩
  intro before early inWrite unreadable
  exact Nat.find_min some early ⟨inWrite,unreadable⟩

/-- If the write fails, the handle is as before, for readers and for the next flush. -/
def WriteUndone (bs : Nat) (answer : BlockIdx → NodeId → NodeAnswer) (file : OpenFile) (offset : Nat) (data : Bytes)
    (cache : BlockCache) : Prop :=
  ∀ e file' cache', applyWrite bs answer file offset data cache = (.error e,file',cache') →
    (∀ stored o, content bs stored file' o = content bs stored file o) ∧ file'.dirty = file.dirty ∧ file'.sizeHint = file.sizeHint

/-- Whether a write that fails is undone is decided by the blocks before the first one
that cannot be read. -/
theorem failed_write_undone_iff {bs : Nat} (positive : 0 < bs) (answer : BlockIdx → NodeId → NodeAnswer) (file : OpenFile)
    (roomy : Roomy bs file) (offset : Nat) (data : Bytes) (cache : BlockCache) :
    WriteUndone bs answer file offset data cache ↔
      ∀ idx, FirstUnreadable bs answer file offset (offset + data.length) cache idx →
        ∀ before < idx, InWrite bs offset (offset + data.length) before → AlreadyWritten bs file offset data offset before := by
  have failed := @writeLoop_failed_iff bs answer file cache offset 0 data positive data.length (Nat.le_refl _)
  have stopped {idx : BlockIdx} := @writeLoop_stopped bs answer file cache offset 0 data positive data.length (Nat.le_refl _) roomy idx
  have hint := @writeLoop_hint bs answer file cache offset 0 data data.length
  have fields := @writeLoop_fields bs answer file cache offset data.length 0 data
  simp only [Nat.add_zero] at failed stopped
  have result : ∀ e file' cache', applyWrite bs answer file offset data cache = (.error e,file',cache') ↔
      writeLoop bs answer offset data data.length 0 file cache = (.error e,file',cache') := by
    intro e file' cache'
    unfold applyWrite
    split
    next same => rw [same]
    next same =>
      rw [same]
      exact iff_of_false nofun nofun
  constructor
  · intro undone idx first before early inWrite
    obtain ⟨e,error⟩ := failed.mpr ⟨idx,first.1,first.2.1⟩
    have outcome := (result e _ _).mpr (Prod.ext error rfl)
    have dirty := (undone e _ _ outcome).2.1
    exact (stopped first before).mp (by rw [dirty]) inWrite early
  · intro nothing_new e file' cache' outcome
    have looped := (result e file' cache').mp outcome
    rw [looped] at failed stopped hint fields
    obtain ⟨idx,first⟩ := exists_first (failed.mp ⟨e,rfl⟩)
    have dirty : file'.dirty = file.dirty := by
      apply Std.ExtTreeMap.ext_getElem?
      intro j
      exact (stopped first j).mpr (fun inWrite early => nothing_new idx first j early inWrite)
    refine ⟨?_,dirty,hint⟩
    intro stored o
    unfold content
    rw [dirty,fields.1]

/-- Two blocks of two bytes, placed on a node that does not answer. -/
def unreachablePair : OpenFile := buildOpenFile 2 ⟨2,4,2,1,0,1,0,0,0,0,0,0,0,0⟩ [⟨0,"n",[]⟩,⟨1,"n",[]⟩] 2

/-- The first block of this write is the one that fails. -/
theorem failed_write_undone_iff_first : WriteUndone 2 (fun _ _ => .failed) unreachablePair 1 [7,8] ∅ := by
  have roomy : Roomy 2 unreachablePair := Held.roomy (by decide) (.opened _ _ _ _)
  refine (failed_write_undone_iff (by decide) _ _ roomy 1 [7,8] ∅).mpr ?_
  intro idx first before early _
  have here : Unreadable 2 (fun _ _ => .failed) unreachablePair 1 3 ∅ 0 := ⟨by decide,rfl,fun _ _ _ _ => ⟨nofun,nofun⟩⟩
  exact absurd here (first.2.2 0 (Nat.lt_of_le_of_lt (Nat.zero_le _) early) ⟨by decide,Nat.le_refl _,by decide⟩)

/-- Block 0 is overwritten before block 1 turns out to be out of reach. -/
theorem failed_write_stays : (applyWrite 2 (fun _ _ => .failed) unreachablePair 0 [7,8,9] ∅).1 = .error (.storeUnavailable "n") ∧
    (applyWrite 2 (fun _ _ => .failed) unreachablePair 0 [7,8,9] ∅).2.1.dirty[0]? = some [7,8] ∧
    unreachablePair.dirty[0]? = none ∧ ¬ WriteUndone 2 (fun _ _ => .failed) unreachablePair 0 [7,8,9] ∅ := by
  have dirty : (applyWrite 2 (fun _ _ => .failed) unreachablePair 0 [7,8,9] ∅).2.1.dirty[0]? = some [7,8] := rfl
  refine ⟨rfl,dirty,rfl,?_⟩
  intro undone
  have same : (applyWrite 2 (fun _ _ => .failed) unreachablePair 0 [7,8,9] ∅).2.1.dirty = unreachablePair.dirty :=
    (undone _ _ _ rfl).2.1
  rw [same] at dirty
  cases dirty

end OpenFile

end Dtmpfs
