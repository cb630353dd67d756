import Dtmpfs.Visibility

/-! One version of a file per handle. Blocks are overwritten in place, so a handle that
fetches a block after it was overwritten sees a newer version than the one it was
opened at. What follows is the reads that never do. -/
namespace Dtmpfs
open MetaService MetaState FlatFile OrderedMap Cluster

variable {bs : Nat} {f : InodeId} {σ τ : Cluster} {file : FileRecord} {G H : History} {c : ClientId}

/-- The generation each block of `f` was last overwritten for: a `WriteBlock` executed
at generation `g` of the record belongs to the publish that will make it `g + 1`. -/
def overwritten (f : InodeId) (label : Label) (σ : Cluster) (last : BlockIdx → Generation) (idx : BlockIdx) : Generation :=
  match label with
  | .send c written =>
    match (σ.clients c).publishes f,σ.metadata.fileAt f with
    | some _,some file => if written = idx then file.generation + 1 else last idx
    | _,_ => last idx
  | _ => last idx

/-- Asked for through `handle`, block `idx` has not been overwritten since the
generation of the handle. -/
def InTime (f : InodeId) (up : NodeId → Bool) (last : BlockIdx → Generation) (handle : OpenFile) (idx : BlockIdx)
    (cache : BlockCache) (σ : Cluster) : Prop :=
  handle.ino = f → handle.asks idx cache = true → last idx ≤ handle.generation ∧ SyncedAt f up idx σ

instance (f : InodeId) (up : NodeId → Bool) (last : BlockIdx → Generation) (handle : OpenFile) (idx : BlockIdx)
    (cache : BlockCache) (σ : Cluster) : Decidable (InTime f up last handle idx cache σ) :=
  inferInstanceAs (Decidable (handle.ino = f → handle.asks idx cache = true → last idx ≤ handle.generation ∧ SyncedAt f up idx σ))

/-- One writer at a time, and client `c` asks the stores in time. -/
def Steady (bs : Nat) (f : InodeId) (c : ClientId) (last : BlockIdx → Generation) (label : Label) (σ : Cluster) : Prop :=
  match label with
  | .fetch c' fh idx up => c' = c → ∀ handle ∈ (σ.clients c).openFiles[fh]?,
      InTime f up last handle idx (σ.clients c).blockCache σ
  | .chunk c' up => c' = c → ∀ fh offset data done handle, (σ.clients c).task = some (.writing fh offset data done) →
      (σ.clients c).openFiles[fh]? = some handle → (OpenFile.chunkOf bs offset data done).length ≠ bs →
      InTime f up last handle ((offset + done) / bs) (σ.clients c).blockCache σ
  | .send c' idx => Alone f (.send c' idx) σ
  | _ => True

/-- A run of steady steps, the overwritten blocks being those of `last` so far. -/
def Steadily (bs : Nat) (f : InodeId) (c : ClientId) : List Label → Cluster → (BlockIdx → Generation) → Prop
  | [],_,_ => True
  | label::rest,σ,last => Steady bs f c last label σ ∧
      ∀ τ ∈ step bs label σ, Steadily bs f c rest τ (overwritten f label σ last)

theorem Steady.alone {label : Label} {last : BlockIdx → Generation} (steady : Steady bs f c last label σ) : Alone f label σ := by
  cases label with
  | send c' idx => exact steady
  | _ => trivial

theorem overwritten_le {label : Label} {last : BlockIdx → Generation} (alive : σ.metadata.fileAt f = some file) {g : Generation}
    {idx : BlockIdx} (early : overwritten f label σ last idx ≤ g) (past : g ≤ file.generation) : last idx ≤ g := by
  unfold overwritten at early
  split at early
  · split at early
    next record _ alive' =>
      rw [alive] at alive'
      cases alive'
      split at early
      · exact absurd (Nat.le_trans early past) (Nat.not_succ_le_self _)
      · exact early
    next => exact early
  · exact early

theorem lt_overwritten {label : Label} {last : BlockIdx → Generation} (alive : σ.metadata.fileAt f = some file)
    {idx : BlockIdx} (late : file.generation < last idx) : file.generation < overwritten f label σ last idx := by
  unfold overwritten
  split
  · split
    next record _ alive' =>
      rw [alive] at alive'
      cases alive'
      split
      · exact Nat.lt_succ_self _
      · exact late
    next => exact late
  · exact late

/-- Through `handle`, a store tells client `c` the bytes of block `idx` in time. -/
structure Told (bs : Nat) (f : InodeId) (c : ClientId) (σ : Cluster) (last : BlockIdx → Generation) (handle : OpenFile)
    (idx : BlockIdx) (bytes : Bytes) : Prop where
  held : ∃ fh : Fh, (σ.clients c).openFiles[fh]? = some handle
  mine : handle.ino = f
  early : last idx ≤ handle.generation
  answered : ∃ up placement flag, handle.blockMap[idx]? = some placement ∧ SyncedAt f up idx σ ∧
    OpenFile.tryNodes bs (σ.answer up f idx) placement.nodes (.storeUnavailable placement.primary) = .ok (bytes,flag)

section Caches

variable {last : BlockIdx → Generation} {fh : Fh} {handle : OpenFile} {idx : BlockIdx} {up : NodeId → Bool}
  {key : BlockKey} {bytes : Bytes} {label : Label}

/-- In the step client `c` asks the stores for block `idx` through `handle` and keeps what they answer. -/
structure Fetches (bs : Nat) (c : ClientId) (label : Label) (σ : Cluster) (handle : OpenFile) (idx : BlockIdx)
    (up : NodeId → Bool) (bytes : Bytes) : Prop where
  held : ∃ fh : Fh, (σ.clients c).openFiles[fh]? = some handle
  own : (∃ fh, label = .fetch c fh idx up) ∨ label = .chunk c up
  asks : asked bs label σ = some (handle,idx,up)
  answered : ∃ placement, handle.blockMap[idx]? = some placement ∧
    OpenFile.tryNodes bs (σ.answer up handle.ino idx) placement.nodes (.storeUnavailable placement.primary) = .ok (bytes,true)

theorem fetchBlock_fetches (found : (σ.clients c).openFiles[fh]? = some handle)
    (own : (∃ fh, label = .fetch c fh idx up) ∨ label = .chunk c up)
    (asks : handle.asks idx (σ.clients c).blockCache = true → asked bs label σ = some (handle,idx,up))
    (cached : (handle.fetchBlock bs (σ.answer up handle.ino) idx (σ.clients c).blockCache).2[key]? = some bytes) :
    (σ.clients c).blockCache[key]? = some bytes ∨
      ∃ handle idx up, key = OpenFile.cacheKey handle idx ∧ Fetches bs c label σ handle idx up bytes := by
  rcases Classical.em (handle.asks idx (σ.clients c).blockCache = true) with asked | silent
  · rcases OpenFile.fetchBlock_cache bs (σ.answer up handle.ino) handle idx (σ.clients c).blockCache with
      same | ⟨placement,data,placed,told,filled⟩
    · rw [same] at cached
      exact .inl cached
    · rw [filled,get_insert] at cached
      split at cached
      next same =>
        cases cached
        exact .inr ⟨handle,idx,up,same.symm,⟨fh,found⟩,own,asks asked,placement,placed,told⟩
      next => exact .inl cached
  · rw [OpenFile.fetchBlock_silent silent] at cached
    exact .inl cached

/-- A cache entry was there before the step, or the step fetches it. -/
theorem cache_fetches (positive : 0 < bs) (stepped : step bs label σ = some τ)
    (cached : (τ.clients c).blockCache[key]? = some bytes) :
    (σ.clients c).blockCache[key]? = some bytes ∨
      ∃ handle idx up, key = OpenFile.cacheKey handle idx ∧ Fetches bs c label σ handle idx up bytes := by
  rcases step_cached stepped cached with before | ⟨fh,idx,up,handle,rfl,found,told⟩ | ⟨up,fh,offset,data,done,handle,rfl,task,found,told⟩
  · exact .inl before
  · exact fetchBlock_fetches found (.inl ⟨fh,rfl⟩) (fun asks => asked_fetch found asks) told
  · rcases Classical.em ((OpenFile.chunkOf bs offset data done).length = bs) with whole | part
    · rw [OpenFile.writeChunk_whole positive whole] at told
      exact .inl told
    · rcases (OpenFile.writeChunk_cases bs (σ.answer up handle.ino) handle offset data done (σ.clients c).blockCache).1 with
        same | fetched
      · rw [same] at told
        exact .inl told
      · rw [fetched] at told
        exact fetchBlock_fetches found (.inr rfl) (fun asks => asked_chunk task found part asks) told

theorem Steady.inTime (steady : Steady bs f c last label σ) (own : (∃ fh, label = .fetch c fh idx up) ∨ label = .chunk c up)
    (asks : asked bs label σ = some (handle,idx,up)) (mine : handle.ino = f) :
    last idx ≤ handle.generation ∧ SyncedAt f up idx σ := by
  rcases own with ⟨fh,rfl⟩ | rfl
  · obtain ⟨handle',filtered,same⟩ := Option.map_eq_some_iff.mp asks
    obtain ⟨found,asked⟩ := Option.filter_eq_some_iff.mp filtered
    cases same
    exact steady rfl handle found mine asked
  · simp only [asked] at asks
    split at asks
    next fh offset data done task =>
      obtain ⟨handle',filtered,same⟩ := Option.map_eq_some_iff.mp asks
      obtain ⟨found,asked⟩ := Option.filter_eq_some_iff.mp filtered
      cases same
      simp only [Bool.and_eq_true,decide_eq_true_iff] at asked
      exact steady rfl fh offset data done handle task found asked.1 mine asked.2
    next => cases asks

/-- A cache entry was there before the step, or the step was told it by a store. -/
theorem cache_step (positive : 0 < bs) (stepped : step bs label σ = some τ) (steady : Steady bs f c last label σ)
    (cached : (τ.clients c).blockCache[key]? = some bytes) (mine : key.ino = f) :
    (σ.clients c).blockCache[key]? = some bytes ∨
      ∃ handle idx, key = OpenFile.cacheKey handle idx ∧ Told bs f c σ last handle idx bytes := by
  rcases cache_fetches positive stepped cached with before | ⟨handle,idx,up,rfl,fetches⟩
  · exact .inl before
  · obtain ⟨placement,placed,told⟩ := fetches.answered
    obtain ⟨early,synced⟩ := steady.inTime fetches.own fetches.asks mine
    rw [show handle.ino = f from mine] at told
    exact .inr ⟨handle,idx,rfl,fetches.held,mine,early,up,placement,true,placed,synced,told⟩

end Caches

/-- A handle of a client was there before the step up to its dirty blocks and more
placements, or it is what `Meta.Open` or `Meta.Create` tell, or what `Meta.Close` makes of it. -/
theorem holds_step {label : Label} (stepped : step bs label σ = some τ) {handle : OpenFile} (held : (τ.clients c).Holds handle) :
    (∃ old, (σ.clients c).Holds old ∧ old.ino = handle.ino ∧ old.generation = handle.generation ∧
      ∀ idx : BlockIdx, handle.blockMap[idx]? = none → old.blockMap[idx]? = none) ∨
    (∃ r snapshot, MetaService.openRead r σ.metadata = .ok snapshot ∧ handle = snapshotFile snapshot) ∨
    (∃ host r flags, label = .create c host r flags ∧ handle.ino = σ.metadata.nextIno) ∨
    ∃ host clock p old, label = .close c host clock ∧ (σ.clients c).task = some (.publishing p) ∧
      (σ.clients c).openFiles[p.fh]? = some old ∧ handle.ino = old.ino := by
  have kept (held : (σ.clients c).Holds handle) : ∃ old, (σ.clients c).Holds old ∧ old.ino = handle.ino ∧
      old.generation = handle.generation ∧ ∀ idx : BlockIdx, handle.blockMap[idx]? = none → old.blockMap[idx]? = none :=
    ⟨handle,held,rfl,rfl,fun _ unplaced => unplaced⟩
  rcases held with ⟨fh,opened⟩ | ⟨snapshot,task,rfl⟩
  · rcases step_openFile stepped opened with old | renewed
    · exact .inl (kept (.inl ⟨fh,old⟩))
    · cases renewed with
      | created host r flags ok => exact .inr (.inr (.inl ⟨host,r,flags,rfl,rfl⟩))
      | opened snapshot task => exact .inl (kept (.inr ⟨snapshot,task,rfl⟩))
      | wrote up _ offset data done file _ task found ino generation blockMap =>
        refine .inl ⟨file,.inl ⟨fh,found⟩,ino.symm,generation.symm,?_⟩
        intro idx unplaced
        rw [← blockMap]
        exact unplaced
      | begun _ wait host file locs found dirty told =>
        refine .inl ⟨file,.inl ⟨fh,found⟩,rfl,rfl,?_⟩
        intro idx unplaced
        exact ((insertLocs_known locs idx).mp unplaced).1
      | closed host clock p file attr task found => exact .inr (.inr (.inr ⟨host,clock,p,file,rfl,task,found,rfl⟩))
  · rcases step_task stepped task with before | busy
    · exact .inl (kept (.inr ⟨snapshot,before,rfl⟩))
    · cases busy with
      | opening r _ read => exact .inr (.inl ⟨r,snapshot,read,rfl⟩)

/-- The same of a file that the step neither makes nor closes a publish of. -/
theorem holds_unclosed {label : Label} (base : Base f σ file) (stepped : step bs label σ = some τ)
    (undrawn : ∀ host r flags, label = .create c host r flags → σ.metadata.nextIno ≠ f)
    (unclosed : ∀ c host clock, label = .close c host clock → (σ.clients c).publishes f = none)
    {handle : OpenFile} (held : (τ.clients c).Holds handle) (mine : handle.ino = f) :
    (∃ old, (σ.clients c).Holds old ∧ old.ino = f ∧ old.generation = handle.generation ∧
      ∀ idx : BlockIdx, handle.blockMap[idx]? = none → old.blockMap[idx]? = none) ∨
    (handle.generation = file.generation ∧ handle.blockMap = file.blocks) := by
  rcases holds_step stepped held with ⟨old,before,ino,generation,wider⟩ | ⟨r,snapshot,read,rfl⟩ | ⟨host,r,flags,created,drawn⟩ |
    ⟨host,clock,p,old,closed,task,found,ino⟩
  · exact .inl ⟨old,before,ino.trans mine,generation,wider⟩
  · obtain ⟨record,present,number,_,generation,_,blocks⟩ := openRead_ok read
    rw [← number,show snapshot.ino = f from mine,base.alive] at present
    cases present
    exact .inr ⟨generation,blocks⟩
  · exact absurd (drawn.symm.trans mine) (undrawn host r flags created)
  · obtain ⟨handle',found',number,_⟩ := ((base.clients c).publishing p task).handle
    rw [found] at found'
    cases found'
    have silent := unclosed c host clock closed
    rw [publishes_of task (number.symm.trans (ino.symm.trans mine))] at silent
    cases silent

/-- The blocks of a publish that stores have executed are marked after the step, if they were before it. -/
theorem marked_step {label : Label} {last : BlockIdx → Generation} (alive : σ.metadata.fileAt f = some file)
    (marked : ∀ c' p, (σ.clients c').publishes f = some p → ∀ idx, 0 < p.ackedAt idx → file.generation < last idx)
    (stepped : step bs label σ = some τ) {c' : ClientId} {q : Publish} (underway : (τ.clients c').publishes f = some q)
    {idx : BlockIdx} (acked : 0 < q.ackedAt idx) : file.generation < overwritten f label σ last idx := by
  rcases publishes_step stepped underway with old | none | ⟨sent,p,rfl,before,rfl⟩
  · exact lt_overwritten alive (marked c' q old idx acked)
  · rw [none idx] at acked
    cases acked
  · rw [ackedAt_ack] at acked
    split at acked
    next same =>
      simp only [overwritten,before,alive,if_pos same]
      exact Nat.lt_succ_self _
    next => exact lt_overwritten alive (marked c' p before idx acked)

/-- A block that is not marked is one that no publish in progress has written. -/
theorem unmarked_untouched {last : BlockIdx → Generation}
    (marked : ∀ c' p, (σ.clients c').publishes f = some p → ∀ idx, 0 < p.ackedAt idx → file.generation < last idx)
    {idx : BlockIdx} (early : last idx ≤ file.generation) (c' : ClientId) (p : Publish)
    (underway : (σ.clients c').publishes f = some p) : p.ackedAt idx = 0 := by
  by_contra some_
  exact absurd early (Nat.not_le_of_lt (marked c' p underway idx (Nat.pos_of_ne_zero some_)))

namespace Closed

variable {c' : ClientId} {p : Publish} {handle : OpenFile}

theorem cache (closed : Closed f c' p handle σ τ file) (c : ClientId) : (τ.clients c).blockCache = (σ.clients c).blockCache := by
  rcases Classical.em (c = c') with rfl | differ
  · rw [closed.client]
  · rw [closed.others c differ]

/-- Only the handle that was published is of the new generation. -/
theorem held (closed : Closed f c' p handle σ τ file) {opened : OpenFile} (held : (τ.clients c).Holds opened) :
    opened.generation = file.generation + 1 ∨ (σ.clients c).Holds opened := by
  rcases Classical.em (c = c') with rfl | differ
  · rw [closed.client] at held
    rcases held with ⟨fh,found⟩ | ⟨_,task,_⟩
    · simp only [get_insert] at found
      split at found
      · cases found
        exact .inl rfl
      · exact .inr (.inl ⟨fh,found⟩)
    · cases task
  · rw [closed.others c differ] at held
    exact .inr held

/-- A block that is not marked is left as it was. -/
theorem unmarked {last : BlockIdx → Generation} (closed : Closed f c' p handle σ τ file) (base : Base f σ file)
    (coherent : Coherent bs f σ file G) (published : H.published = G.published.applyAll (G.pending c' p.fh))
    (marked : ∀ c' p, (σ.clients c').publishes f = some p → ∀ idx, 0 < p.ackedAt idx → file.generation < last idx)
    {idx : BlockIdx} (early : last idx ≤ file.generation) : Agree bs G.published H.published idx := by
  have clean : p.dirty[idx]? = none := by
    cases dirty : p.dirty[idx]? with
    | none => rfl
    | some data =>
      have acked := finished_acked closed.finished dirty
      have untouched := unmarked_untouched marked early c' p (publishes_of closed.task closed.mine)
      exact absurd untouched (Nat.ne_of_gt acked)
  rw [published]
  exact (closed.overlay base coherent).clean idx clean

end Closed

/-- What client `c` keeps of file `f` is pinned to versions: `image g` is the file at
generation `g`, and `last` says which generation overwrote each block last. -/
structure Pinned (bs : Nat) (f : InodeId) (c : ClientId) (σ : Cluster) (file : FileRecord) (F : Flat)
    (image : Generation → Flat) (last : BlockIdx → Generation) : Prop where
  now : image file.generation = F
  since : ∀ (g : Generation) (idx : BlockIdx), last idx ≤ g → g ≤ file.generation → Agree bs F (image g) idx
  marked : ∀ c' p, (σ.clients c').publishes f = some p → ∀ idx, 0 < p.ackedAt idx → file.generation < last idx
  apart : ¬ Stuck f σ file
  cached : ∀ (key : BlockKey) (bytes : Bytes), (σ.clients c).blockCache[key]? = some bytes → key.ino = f →
    Shows bs (image key.generation) key.blockIdx bytes
  holes : ∀ handle, (σ.clients c).Holds handle → handle.ino = f → ∀ idx : BlockIdx, handle.blockMap[idx]? = none →
    Blank bs (image handle.generation) idx

namespace Pinned

variable {image image' : Generation → Flat} {last : BlockIdx → Generation}

theorem coherent (pinned : Pinned bs f c σ file G.published image last) (inv : Inv bs f σ file G) : Coherent bs f σ file G :=
  inv.coherent.resolve_left pinned.apart

/-- Only the images up to the current generation matter. -/
theorem congr {F : Flat} (pinned : Pinned bs f c σ file F image last) (base : Base f σ file)
    (same : ∀ g ≤ file.generation, image' g = image g) : Pinned bs f c σ file F image' last := by
  have known := base.clients c
  refine ⟨?_,?_,pinned.marked,pinned.apart,?_,?_⟩
  · rw [same _ (Nat.le_refl _)]
    exact pinned.now
  · intro g idx early past
    rw [same g past]
    exact pinned.since g idx early past
  · intro key bytes cached mine
    rw [same _ (known.cached key bytes cached mine)]
    exact pinned.cached key bytes cached mine
  · intro handle held mine
    rw [same _ (known.held handle held mine).1]
    exact pinned.holes handle held mine

/-- What a store tells in time is the block of the handle's version. -/
theorem told (pinned : Pinned bs f c σ file G.published image last) (inv : Inv bs f σ file G) {handle : OpenFile} {idx : BlockIdx}
    {bytes : Bytes} (told : Told bs f c σ last handle idx bytes) : Shows bs (image handle.generation) idx bytes := by
  obtain ⟨up,placement,flag,placed,synced,answered⟩ := told.answered
  obtain ⟨older,agrees⟩ := (inv.base.clients c).held handle (.inl told.held) told.mine
  have recorded := agrees idx placement placed
  have untouched := unmarked_untouched pinned.marked (Nat.le_trans told.early older)
  have shown := (pinned.coherent inv).shown idx placement recorded untouched
  obtain ⟨node,found,said⟩ := tryNodes_answer placement.nodes _ answered
  rw [← synced file inv.base.alive placement recorded node found] at shown
  have agree := pinned.since handle.generation idx told.early older
  rcases said with held | ⟨empty,rfl⟩
  · rw [held] at shown
    exact Shows.congr shown agree
  · rw [empty] at shown
    exact (Blank.shows shown).congr agree

/-- A step that closes no publish of the file. -/
theorem stays {label : Label} {file' : FileRecord} (pinned : Pinned bs f c σ file G.published image last) (positive : 0 < bs)
    (inv : Inv bs f σ file G) (orderly : Orderly f label σ) (steady : Steady bs f c last label σ)
    (stepped : step bs label σ = some τ) (same : file'.generation = file.generation)
    (unclosed : ∀ c host clock, label = .close c host clock → (σ.clients c).publishes f = none) :
    Pinned bs f c τ file' G.published image (overwritten f label σ last) := by
  have alive := inv.base.alive
  refine ⟨?_,?_,?_,apart_step pinned.apart alive stepped steady.alone same,?_,?_⟩
  · rw [same]
    exact pinned.now
  · intro g idx early past
    rw [same] at past
    exact pinned.since g idx (overwritten_le alive early past) past
  · intro c' q underway idx acked
    rw [same]
    exact marked_step alive pinned.marked stepped underway acked
  · intro key bytes cached mine
    rcases cache_step positive stepped steady cached mine with old | ⟨handle,idx,rfl,told⟩
    · exact pinned.cached key bytes old mine
    · exact pinned.told inv told
  · intro handle held mine idx unplaced
    have undrawn (host : Host) (r : CreateReq) (flags : Nat) (named : label = .create c host r flags) : σ.metadata.nextIno ≠ f := by
      subst named
      exact orderly.1
    rcases holds_unclosed inv.base stepped undrawn unclosed held mine with ⟨old,before,ino,generation,wider⟩ | ⟨current,blocks⟩
    · rw [← generation]
      exact pinned.holes old before ino idx (wider idx unplaced)
    · rw [current,pinned.now]
      exact (pinned.coherent inv).unplaced idx (blocks ▸ unplaced)

/-- An accepted `Close` of the file: its version is a new one. -/
theorem closes {p : Publish} {handle : OpenFile} {c' : ClientId} (pinned : Pinned bs f c σ file G.published image last)
    (inv : Inv bs f σ file G) (closed : Closed f c' p handle σ τ file)
    (published : H.published = G.published.applyAll (G.pending c' p.fh)) (emptied : H.pending c' p.fh = []) :
    Pinned bs f c τ ⟨handle.sizeHint,file.generation + 1,file.blocks⟩ H.published
      (Function.update image (file.generation + 1) H.published) last := by
  have coherent := pinned.coherent inv
  have known := inv.base.clients c
  have idle := closed.idle inv.base coherent
  have fresh := closed.coherent inv.base coherent published emptied
  have earlier (g : Generation) (past : g ≤ file.generation) :
      Function.update image (file.generation + 1) H.published g = image g := by
    rw [Function.update_of_ne (Nat.ne_of_lt (Nat.lt_succ_of_le past))]
  refine ⟨Function.update_self _ _ _,?_,?_,?_,?_,?_⟩
  · intro g idx early past
    rcases Nat.lt_or_ge file.generation g with new | old
    · have newest : g = file.generation + 1 := Nat.le_antisymm past new
      rw [newest,Function.update_self]
      exact .refl _
    · rw [earlier g old]
      have unchanged := closed.unmarked inv.base coherent published pinned.marked (Nat.le_trans early old)
      have before := pinned.since g idx early old
      intro k inside
      rw [← unchanged k inside]
      exact before k inside
  · intro other q underway idx acked
    exact absurd ⟨q,underway,idx,acked⟩ (idle other)
  · intro stuck
    rcases stuck with ⟨other,q,underway,acked,_⟩ | ⟨other,_,_,acting,_⟩
    · exact absurd ⟨q,underway,acked⟩ (idle other)
    · exact absurd acting (idle other)
  · intro key bytes cached mine
    rw [closed.cache c] at cached
    rw [earlier _ (known.cached key bytes cached mine)]
    exact pinned.cached key bytes cached mine
  · intro opened held mine idx unplaced
    rcases Classical.em (opened.generation = file.generation + 1) with current | older
    · rw [current,Function.update_self]
      exact (fresh.tracks c).covers opened held mine current idx unplaced
    · have before := (closed.held held).resolve_left older
      rw [earlier _ (known.held opened before mine).1]
      exact pinned.holes opened before mine idx unplaced

end Pinned

variable {image : Generation → Flat} {last : BlockIdx → Generation}

theorem pinned_step {label : Label} (positive : 0 < bs) (inv : Inv bs f σ file G)
    (pinned : Pinned bs f c σ file G.published image last) (orderly : Orderly f label σ) (steady : Steady bs f c last label σ)
    (stepped : step bs label σ = some τ) :
    ∃ file' image', Inv bs f τ file' (G.next bs f label σ) ∧
      Pinned bs f c τ file' (G.next bs f label σ).published image' (overwritten f label σ last) ∧
      file.generation ≤ file'.generation ∧ file'.generation ≤ file.generation + 1 ∧ ∀ g ≤ file.generation, image' g = image g := by
  obtain ⟨file',moved,evolved⟩ := inv_step positive inv orderly stepped
  rcases evolved with ⟨same,_,published,unclosed⟩ | ⟨c',host,clock,p,handle,rfl,closed,rfl,published,emptied⟩
  · refine ⟨file',image,moved,?_,Nat.le_of_eq same.symm,?_,fun _ _ => rfl⟩
    · rw [published]
      exact pinned.stays positive inv orderly steady stepped same unclosed
    · rw [same]
      exact Nat.le_succ _
  · refine ⟨_,_,moved,pinned.closes inv closed published emptied,Nat.le_succ _,Nat.le_refl _,?_⟩
    intro g past
    rw [Function.update_of_ne (Nat.ne_of_lt (Nat.lt_succ_of_le past))]

/-- Along a steady run there is one image per generation: at every point of the run
what the client keeps is pinned to them, and each has been the published file. -/
theorem pinned_run (positive : 0 < bs) (labels : List Label) (inv : Inv bs f σ file G)
    (pinned : Pinned bs f c σ file G.published image last) (orderly : Throughout bs (Orderly f) labels σ)
    (steady : Steadily bs f c labels σ last) :
    ∃ image' : Generation → Flat, (∀ g ≤ file.generation, image' g = image g) ∧
      ∀ (done rest : List Label) τ H, labels = done ++ rest → trace bs f done σ G = some (τ,H) →
        ∃ file' last', Inv bs f τ file' H ∧ Pinned bs f c τ file' H.published image' last' ∧ Steadily bs f c rest τ last' ∧
          ∀ g, file.generation ≤ g → g ≤ file'.generation →
            ∃ start υ K, start <+: done ∧ trace bs f start σ G = some (υ,K) ∧ K.published = image' g := by
  induction labels generalizing σ file G image last with
  | nil =>
    refine ⟨image,fun _ _ => rfl,?_⟩
    intro done rest τ H split_ ran
    obtain ⟨rfl,rfl⟩ := List.append_eq_nil_iff.mp split_.symm
    cases ran
    refine ⟨file,last,inv,pinned,trivial,?_⟩
    intro g low high
    refine ⟨[],σ,G,List.prefix_rfl,rfl,?_⟩
    rw [Nat.le_antisymm high low]
    exact pinned.now.symm
  | cons label rest ih =>
    -- what holds before the first step, whatever images the rest of the run adds
    have first (image' : Generation → Flat) (same : ∀ g ≤ file.generation, image' g = image g) :
        ∃ file' last', Inv bs f σ file' G ∧ Pinned bs f c σ file' G.published image' last' ∧
          Steadily bs f c (label::rest) σ last' ∧ ∀ g, file.generation ≤ g → g ≤ file'.generation →
            ∃ start υ K, start <+: [] ∧ trace bs f start σ G = some (υ,K) ∧ K.published = image' g := by
      have kept := pinned.congr inv.base same
      refine ⟨file,last,inv,kept,steady,?_⟩
      intro g low high
      refine ⟨[],σ,G,List.prefix_rfl,rfl,?_⟩
      rw [Nat.le_antisymm high low]
      exact kept.now.symm
    cases stepped : step bs label σ with
    | none =>
      refine ⟨image,fun _ _ => rfl,?_⟩
      intro done more τ H split_ ran
      cases done with
      | nil =>
        cases ran
        cases split_
        exact first image (fun _ _ => rfl)
      | cons head done =>
        cases split_
        simp only [trace,stepped,Option.bind_none] at ran
        cases ran
    | some middle =>
      obtain ⟨file₁,image₁,moved,pinned₁,grown,atMost,kept₁⟩ := pinned_step positive inv pinned orderly.1 steady.1 stepped
      obtain ⟨image₂,kept₂,later⟩ := ih moved pinned₁ (orderly.2 middle stepped) (steady.2 middle stepped)
      have same (g : Generation) (past : g ≤ file.generation) : image₂ g = image g := by
        rw [kept₂ g (Nat.le_trans past grown),kept₁ g past]
      refine ⟨image₂,same,?_⟩
      intro done more τ H split_ ran
      cases done with
      | nil =>
        cases ran
        cases split_
        exact first image₂ same
      | cons head done =>
        cases split_
        simp only [trace,stepped,Option.bind_some] at ran
        obtain ⟨file₃,last₃,inv₃,pinned₃,steady₃,published⟩ := later done more τ H rfl ran
        refine ⟨file₃,last₃,inv₃,pinned₃,steady₃,?_⟩
        intro g low high
        rcases Nat.lt_or_ge g file₁.generation with before | after
        · have start : g = file.generation := Nat.le_antisymm (Nat.le_of_lt_succ (Nat.lt_of_lt_of_le before atMost)) low
          refine ⟨[],σ,G,List.nil_prefix,rfl,?_⟩
          rw [start,same _ (Nat.le_refl _)]
          exact pinned.now.symm
        · obtain ⟨start,υ,K,within,reached,version⟩ := published g after high
          refine ⟨label::start,υ,K,List.cons_prefix_cons.mpr ⟨rfl,within⟩,?_,version⟩
          simp only [trace,stepped,Option.bind_some]
          exact reached

theorem Created.pinned (created : Created f σ) : Pinned bs f c σ ⟨0,0,∅⟩ .empty (fun _ => .empty) (fun _ => 0) := by
  have silent (c' : ClientId) : ¬ (σ.clients c').Acting f := by
    intro acting
    obtain ⟨p,underway,_⟩ := acting
    rw [created.silent c'] at underway
    cases underway
  refine ⟨rfl,fun _ _ _ _ => .refl _,?_,?_,?_,fun _ _ _ _ _ _ _ => rfl⟩
  · intro c' p underway
    rw [created.silent c'] at underway
    cases underway
  · intro stuck
    rcases stuck with ⟨c',p,underway,acked,_⟩ | ⟨c',_,_,acting,_⟩
    · exact silent c' ⟨p,underway,acked⟩
    · exact silent c' acting
  · intro key bytes cached mine
    exact absurd mine (created.caches c key bytes cached)

/-- In a steady run every handle shows one version of the file: one that was published
by the time of `τ`, and every block that `fetch_block` returns through the handle from
then on, as long as the handle is what it was, is a block of it. -/
theorem reads_one_version {fh : Fh} {handle : OpenFile} (positive : 0 < bs) (created : Created f σ) (before after : List Label)
    (orderly : Throughout bs (Orderly f) (before ++ after) σ) (steady : Steadily bs f c (before ++ after) σ (fun _ => 0))
    (ran : trace bs f before σ .blank = some (τ,H)) (opened : (τ.clients c).openFiles[fh]? = some handle) (mine : handle.ino = f) :
    ∃ F, (∃ start υ K, start <+: before ∧ trace bs f start σ .blank = some (υ,K) ∧ K.published = F) ∧
      (∀ idx : BlockIdx, handle.blockMap[idx]? = none → Blank bs F idx) ∧
      ∀ done rest idx up υ bytes, after = done ++ .fetch c fh idx up :: rest → run bs done τ = some υ →
        (υ.clients c).openFiles[fh]? = some handle → handle.dirty[idx]? = none →
        (handle.fetchBlock bs (υ.answer up f) idx (υ.clients c).blockCache).1 = .ok bytes → Shows bs F idx bytes := by
  obtain ⟨image,_,pinned⟩ := pinned_run positive (before ++ after) created.inv created.pinned orderly steady
  obtain ⟨file,last,inv,here,_,published⟩ := pinned before after τ H rfl ran
  have held : (τ.clients c).Holds handle := .inl ⟨fh,opened⟩
  obtain ⟨older,_⟩ := (inv.base.clients c).held handle held mine
  refine ⟨image handle.generation,published handle.generation (Nat.zero_le _) older,here.holes handle held mine,?_⟩
  intro done rest idx up υ bytes split_ reached still clean fetched
  obtain ⟨K,traced⟩ := trace_of_run (f := f) done H reached
  have whole : before ++ after = (before ++ done) ++ (.fetch c fh idx up :: rest) := by rw [split_,List.append_assoc]
  have arrived : trace bs f (before ++ done) σ .blank = some (υ,K) := by
    rw [trace_append,ran]
    exact traced
  obtain ⟨record,last',inv',there,next,_⟩ := pinned (before ++ done) _ υ K whole arrived
  rcases OpenFile.fetchBlock_source fetched with dirty | cached | ⟨asked,placement,flag,placed,told⟩
  · rw [clean] at dirty
    cases dirty
  · exact there.cached (handle.cacheKey idx) bytes cached mine
  · obtain ⟨early,synced⟩ := next.1 rfl handle still mine asked
    exact there.told inv' ⟨⟨fh,still⟩,mine,early,up,placement,flag,placed,synced,told⟩

/-- Client 0 writes the two blocks of the file and flushes them. -/
def publishTwo (fh : Fh) (first second : UInt8) : List Label :=
  [.write 0 fh 0 [first,second],.chunk 0 everyNode,.chunk 0 everyNode,.publish 0 fh .primariesOnly Host.still,
    .send 0 0,.send 0 1,.close 0 Host.still 0]

/-- The reader, client 1, has the file open at generation 1. -/
def readerOpened : List Label := publishTwo 1 1 2 ++ openFile 1

/-- It fetches both blocks, and again once they have been overwritten. -/
def readsBeforeAndAfter : List Label :=
  [.fetch 1 2 0 everyNode,.fetch 1 2 1 everyNode] ++ openFile 0 ++ publishTwo 3 3 4 ++
    [.fetch 1 2 0 everyNode,.fetch 1 2 1 everyNode]

theorem steadily_cons {label : Label} {rest : List Label} (stepped : (step bs label σ).isSome = true)
    (first : Steady bs f c last label σ)
    (later : Steadily bs f c rest ((step bs label σ).get stepped) (overwritten f label σ last)) :
    Steadily bs f c (label::rest) σ last := by
  refine ⟨first,?_⟩
  intro τ reached
  cases Option.get_of_mem stepped reached
  exact later

theorem orderly_of_conform (positive : 0 < bs) (labels : List Label) (inv : Inv bs f σ file G)
    (conform : Throughout bs (Conform f) labels σ) : Throughout bs (Orderly f) labels σ := by
  induction labels generalizing σ file G with
  | nil => exact trivial
  | cons label rest ih =>
    have orderly := Conform.orderly conform.1 inv
    refine ⟨orderly,?_⟩
    intro τ stepped
    obtain ⟨file',moved,_⟩ := inv_step positive inv orderly stepped
    exact ih moved (conform.2 τ stepped)

theorem readsBeforeAndAfter_steadily :
    Steadily 1 2 1 (readerOpened ++ readsBeforeAndAfter) (withFile 1 ["n"]) (fun _ => 0) := by
  refine steadily_cons rfl trivial ?_
  refine steadily_cons rfl nofun ?_
  refine steadily_cons rfl nofun ?_
  refine steadily_cons rfl trivial ?_
  refine steadily_cons rfl (alone_send 0 (by decide) rfl (fun _ => rfl)) ?_
  refine steadily_cons rfl (alone_send 1 (by decide) rfl (fun _ => rfl)) ?_
  refine steadily_cons rfl trivial ?_
  refine steadily_cons rfl trivial ?_
  refine steadily_cons rfl trivial ?_
  refine steadily_cons rfl (fun _ => by decide) ?_
  refine steadily_cons rfl (fun _ => by decide) ?_
  refine steadily_cons rfl trivial ?_
  refine steadily_cons rfl trivial ?_
  refine steadily_cons rfl trivial ?_
  refine steadily_cons rfl nofun ?_
  refine steadily_cons rfl nofun ?_
  refine steadily_cons rfl trivial ?_
  refine steadily_cons rfl (alone_send 0 (by decide) rfl (fun _ => rfl)) ?_
  refine steadily_cons rfl (alone_send 1 (by decide) rfl (fun _ => rfl)) ?_
  refine steadily_cons rfl trivial ?_
  refine steadily_cons rfl (fun _ => by decide) ?_
  exact steadily_cons rfl (fun _ => by decide) trivial

theorem readerOpened_runs : (trace 1 2 readerOpened (withFile 1 ["n"]) .blank).isSome = true := by decide

/-- The overwritten blocks come from the cache of the reader, as they were. -/
theorem reads_one_version_cached : ∃ τ H handle, trace 1 2 readerOpened (withFile 1 ["n"]) .blank = some (τ,H) ∧
    (τ.clients 1).openFiles[(2 : Fh)]? = some handle ∧
    ∃ F, (∃ start υ K, start <+: readerOpened ∧ trace 1 2 start (withFile 1 ["n"]) .blank = some (υ,K) ∧ K.published = F) ∧
      (∀ idx : BlockIdx, handle.blockMap[idx]? = none → Blank 1 F idx) ∧
      ∀ done rest idx up υ bytes, readsBeforeAndAfter = done ++ .fetch 1 2 idx up :: rest → run 1 done τ = some υ →
        (υ.clients 1).openFiles[(2 : Fh)]? = some handle → handle.dirty[idx]? = none →
        (handle.fetchBlock 1 (υ.answer up 2) idx (υ.clients 1).blockCache).1 = .ok bytes → Shows 1 F idx bytes := by
  have created : Created 2 (withFile 1 ["n"]) := withFile_created (by decide) (by decide) (by decide) (by decide)
  have conform : Throughout 1 (Conform 2) (readerOpened ++ readsBeforeAndAfter) (withFile 1 ["n"]) := by decide
  have orderly := orderly_of_conform Nat.one_pos _ created.inv conform
  have opened : ((((trace 1 2 readerOpened (withFile 1 ["n"]) .blank).get readerOpened_runs).1.clients 1).openFiles[(2 : Fh)]?).isSome = true := by
    decide
  refine ⟨_,_,_,(Option.some_get readerOpened_runs).symm,(Option.some_get opened).symm,?_⟩
  exact reads_one_version Nat.one_pos created readerOpened readsBeforeAndAfter orderly readsBeforeAndAfter_steadily
    (Option.some_get readerOpened_runs).symm (Option.some_get opened).symm rfl

/-- The reader fetches block 0, then the writer overwrites both blocks. -/
def overwrittenBetween : List Label := [.fetch 1 2 0 everyNode] ++ openFile 0 ++ publishTwo 3 3 4

theorem fetches_stitch_versions : ∃ τ υ handle, run 1 readerOpened (withFile 1 ["n"]) = some τ ∧
    (τ.clients 1).openFiles[(2 : Fh)]? = some handle ∧
    (handle.fetchBlock 1 (τ.answer everyNode 2) 0 (τ.clients 1).blockCache).1 = .ok [1] ∧
    run 1 overwrittenBetween τ = some υ ∧ (υ.clients 1).openFiles[(2 : Fh)]? = some handle ∧
    (handle.fetchBlock 1 (υ.answer everyNode 2) 1 (υ.clients 1).blockCache).1 = .ok [4] ∧
    ∀ start ω K, start <+: readerOpened ++ overwrittenBetween → trace 1 2 start (withFile 1 ["n"]) .blank = some (ω,K) →
      ¬ (Shows 1 K.published 0 [1] ∧ Shows 1 K.published 1 [4]) := by
  have versions : ∀ start ∈ (readerOpened ++ overwrittenBetween).inits,
      ∀ reached ∈ trace 1 2 start (withFile 1 ["n"]) .blank,
        ¬ (reached.2.published.byte 0 = 1 ∧ reached.2.published.byte 1 = 4) := by decide
  refine ⟨_,_,_,rfl,rfl,rfl,rfl,rfl,rfl,?_⟩
  intro start ω K within traced shown
  exact versions start ((List.mem_inits start _).mpr within) (ω,K) traced
    ⟨(shown.1.bytes 0 Nat.one_pos).symm,(shown.2.bytes 0 Nat.one_pos).symm⟩

end Dtmpfs
