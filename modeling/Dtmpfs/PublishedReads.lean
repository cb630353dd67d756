import Dtmpfs.Replicas
import Dtmpfs.OneVersion

/-! Reads of published blocks: in every state of a run and through handles of every age
they return what is published or fail, where the stores that answer are up to date. -/
namespace Dtmpfs
open MetaService MetaState FlatFile OrderedMap Cluster

namespace OpenFile

/-- Whatever `handle` is told of block `idx`, by its cache or by the stores, is the block of `F`. -/
structure Images (bs : Nat) (answer : BlockIdx → NodeId → NodeAnswer) (F : Flat) (handle : OpenFile) (idx : BlockIdx)
    (cache : BlockCache) : Prop where
  clean : handle.dirty[idx]? = none
  cached : ∀ bytes, cache[handle.cacheKey idx]? = some bytes → Shows bs F idx bytes
  told : handle.asks idx cache = true → ∀ placement bytes flag, handle.blockMap[idx]? = some placement →
    tryNodes bs (answer idx) placement.nodes (.storeUnavailable placement.primary) = .ok (bytes,flag) → Shows bs F idx bytes
  hole : handle.blockMap[idx]? = none → Blank bs F idx

section Images

variable {bs : Nat} {answer : BlockIdx → NodeId → NodeAnswer} {F : Flat} {handle : OpenFile} {idx : BlockIdx} {cache : BlockCache}

theorem Images.fetched (images : Images bs answer F handle idx cache) {block : Bytes}
    (fetched : (fetchBlock bs answer handle idx cache).1 = .ok block) : Shows bs F idx block := by
  rcases fetchBlock_source fetched with dirty | cached | ⟨asked,placement,flag,placed,told⟩
  · rw [images.clean] at dirty
    cases dirty
  · exact images.cached block cached
  · exact images.told asked placement block flag placed told

/-- Fetching any block of the handle leaves it so. -/
theorem Images.keeps (images : Images bs answer F handle idx cache) (other : BlockIdx) :
    Images bs answer F handle idx (fetchBlock bs answer handle other cache).2 := by
  rcases Classical.em (handle.asks other cache = true) with asked | silent
  · rcases fetchBlock_cache bs answer handle other cache with same | ⟨placement,data,placed,told,filled⟩
    · rw [same]
      exact images
    · rw [filled]
      refine ⟨images.clean,?_,?_,images.hole⟩
      · intro bytes found
        rw [get_insert] at found
        split at found
        next same =>
          cases found
          cases cacheKey_inj same
          exact images.told asked placement data true placed told
        next => exact images.cached bytes found
      · intro asks
        obtain ⟨clean,uncached,known⟩ := (asks_iff handle idx _).mp asks
        rw [get_insert] at uncached
        split at uncached
        · cases uncached
        · exact images.told ((asks_iff handle idx cache).mpr ⟨clean,uncached,known⟩)
  · rw [fetchBlock_silent silent]
    exact images

end Images

end OpenFile

variable {bs : Nat} {f : InodeId} {σ τ : Cluster} {file file' : FileRecord} {F : Flat} {G H : History} {T : NodeId → Prop}
  {last : BlockIdx → Generation}

/-- The steps under which reads are right: paced, and whoever asks for a block that no
publish in progress has written is answered by a fresh node. -/
def Watched (bs : Nat) (T : NodeId → Prop) (f : InodeId) (label : Label) (σ : Cluster) : Prop :=
  Paced T f label σ ∧ ∀ handle idx up, asked bs label σ = some (handle,idx,up) → handle.ino = f → Untouched f idx σ → FreshAt T f up idx σ

theorem Watched.sync {label : Label} (watched : Watched bs T f label σ) (replicated : Replicated T f σ file)
    (alive : σ.metadata.fileAt f = some file) : AskedInSync bs f label σ := by
  intro calm handle idx up asks mine
  exact replicated.syncedAt alive (calm.untouched idx) (watched.2 handle idx up asks mine (calm.untouched idx))

/-- `overwritten` along a run. -/
def overwrites (bs : Nat) (f : InodeId) : List Label → Cluster → (BlockIdx → Generation) → BlockIdx → Generation
  | [],_,last => last
  | label::rest,σ,last =>
    match step bs label σ with
    | some τ => overwrites bs f rest τ (overwritten f label σ last)
    | none => last

theorem overwritten_cases (label : Label) (alive : σ.metadata.fileAt f = some file) (last : BlockIdx → Generation) (idx : BlockIdx) :
    overwritten f label σ last idx = last idx ∨
      ∃ c p, label = .send c idx ∧ (σ.clients c).publishes f = some p ∧ overwritten f label σ last idx = file.generation + 1 := by
  unfold overwritten
  split
  next c written =>
    split
    next p record underway present =>
      rw [alive] at present
      cases present
      split
      next same =>
        subst same
        exact .inr ⟨c,p,rfl,underway,rfl⟩
      next => exact .inl rfl
    next => exact .inl rfl
  next => exact .inl rfl

/-- What clients keep of the blocks of `F` is right, unless the block was overwritten
later than what they keep. -/
structure Enduring (bs : Nat) (f : InodeId) (σ : Cluster) (file : FileRecord) (F : Flat) (last : BlockIdx → Generation) : Prop where
  marked : ∀ c p, (σ.clients c).publishes f = some p → ∀ idx, 0 < p.ackedAt idx → file.generation < last idx
  begun : ∀ idx, file.generation < last idx → last idx = file.generation + 1 ∧
    ∃ c p, (σ.clients c).publishes f = some p ∧ 0 < p.ackedAt idx
  cached : ∀ c (key : BlockKey) (bytes : Bytes), (σ.clients c).blockCache[key]? = some bytes → key.ino = f →
    last key.blockIdx ≤ key.generation → Shows bs F key.blockIdx bytes
  holes : ∀ c handle, (σ.clients c).Holds handle → handle.ino = f → ∀ idx : BlockIdx, last idx ≤ handle.generation →
    handle.blockMap[idx]? = none → Blank bs F idx

namespace Enduring

/-- The marked blocks are those a publish in progress has written. -/
theorem unmarked (enduring : Enduring bs f σ file F last) {idx : BlockIdx} (untouched : Untouched f idx σ) :
    last idx ≤ file.generation := by
  by_contra late
  obtain ⟨_,c,p,underway,acked⟩ := enduring.begun idx (Nat.lt_of_not_le late)
  exact absurd (untouched c p underway) (Nat.ne_of_gt acked)

/-- Whoever has written a block goes on, or the publish ends. -/
theorem begun_step {label : Label} (enduring : Enduring bs f σ file F last) (alive : σ.metadata.fileAt f = some file)
    (paced : Paced T f label σ) (stepped : step bs label σ = some τ)
    (unclosed : ∀ c host clock, label = .close c host clock → (σ.clients c).publishes f = none) {idx : BlockIdx}
    (late : file.generation < overwritten f label σ last idx) :
    overwritten f label σ last idx = file.generation + 1 ∧ ∃ c p, (τ.clients c).publishes f = some p ∧ 0 < p.ackedAt idx := by
  rcases overwritten_cases label alive last idx with same | ⟨c,p,rfl,underway,marked⟩
  · rw [same] at late ⊢
    obtain ⟨marked,c,p,underway,acked⟩ := enduring.begun idx late
    obtain ⟨task,mine⟩ := publishes_some underway
    have going : ¬ EndsPublish c label := by
      intro ends
      unfold EndsPublish at ends
      split at ends
      next c' host clock =>
        subst ends
        rw [unclosed _ host clock rfl] at underway
        cases underway
      next c' stray =>
        subst ends
        have empty := (paced nofun nofun p underway).1
        rw [Publish.ackedAt,Std.ExtTreeMap.isEmpty_iff.mp empty,Std.ExtTreeMap.getElem?_empty] at acked
        exact absurd acked (Nat.lt_irrefl 0)
      next => exact ends
    refine ⟨marked,c,?_⟩
    rcases publishing_step task going stepped with still | ⟨sent,_,still⟩
    · exact ⟨p,publishes_of still mine,acked⟩
    · exact ⟨p.ack sent,publishes_of still mine,Nat.lt_of_lt_of_le acked (ackedAt_le_ack p sent idx)⟩
  · obtain ⟨_,_,_,sending⟩ := send_sending underway stepped
    refine ⟨marked,c,p.ack idx,sending.advanced,?_⟩
    rw [ackedAt_ack,if_pos rfl]
    exact Nat.succ_pos _

/-- A step that closes no publish of the file. -/
theorem stays {label : Label} (enduring : Enduring bs f σ file G.published last) (positive : 0 < bs) (inv : Inv bs f σ file G)
    (apart : ¬ Stuck f σ file) (replicated : Replicated T f σ file) (watched : Watched bs T f label σ)
    (stepped : step bs label σ = some τ) (same : file'.generation = file.generation)
    (unclosed : ∀ c host clock, label = .close c host clock → (σ.clients c).publishes f = none) :
    Enduring bs f τ file' G.published (overwritten f label σ last) := by
  have alive := inv.base.alive
  have coherent := inv.coherent.resolve_left apart
  refine ⟨?_,?_,?_,?_⟩
  · intro c q underway idx acked
    rw [same]
    exact marked_step alive enduring.marked stepped underway acked
  · intro idx late
    rw [same] at late ⊢
    exact enduring.begun_step alive watched.1 stepped unclosed late
  · intro c key bytes cached mine early
    rcases cache_fetches positive stepped cached with old | ⟨handle,idx,up,rfl,fetches⟩
    · have past := (inv.base.clients c).cached key bytes old mine
      exact enduring.cached c key bytes old mine (overwritten_le alive early past)
    · have ino : handle.ino = f := mine
      obtain ⟨older,agrees⟩ := (inv.base.clients c).held handle (.inl fetches.held) ino
      obtain ⟨placement,placed,told⟩ := fetches.answered
      have unmarked : last idx ≤ file.generation := Nat.le_trans (overwritten_le alive early older) older
      have untouched : Untouched f idx σ := unmarked_untouched enduring.marked unmarked
      have synced := replicated.syncedAt alive untouched (watched.2 handle idx up fetches.asks ino untouched)
      rw [ino] at told
      exact answered_image inv.base coherent untouched synced agrees placed _ bytes true told
  · intro c handle held mine idx early unplaced
    have undrawn (host : Host) (r : CreateReq) (flags : Nat) (named : label = .create c host r flags) : σ.metadata.nextIno ≠ f := by
      subst named
      exact (watched.1 nofun nofun).1
    rcases holds_unclosed inv.base stepped undrawn unclosed held mine with ⟨old,before,ino,generation,wider⟩ | ⟨_,blocks⟩
    · rw [← generation] at early
      have past := ((inv.base.clients c).held old before ino).1
      exact enduring.holes c old before ino idx (overwritten_le alive early past) (wider idx unplaced)
    · exact coherent.unplaced idx (blocks ▸ unplaced)

/-- An accepted `Close` of the file: the blocks it does not write are as they were. -/
theorem closes {c : ClientId} {p : Publish} {handle : OpenFile} (enduring : Enduring bs f σ file G.published last) (inv : Inv bs f σ file G)
    (apart : ¬ Stuck f σ file) (closed : Closed f c p handle σ τ file)
    (published : H.published = G.published.applyAll (G.pending c p.fh)) (emptied : H.pending c p.fh = []) :
    Enduring bs f τ ⟨handle.sizeHint,file.generation + 1,file.blocks⟩ H.published last := by
  have coherent := inv.coherent.resolve_left apart
  have fresh := closed.coherent inv.base coherent published emptied
  have unmarked {idx : BlockIdx} (early : last idx ≤ file.generation) : Agree bs G.published H.published idx :=
    closed.unmarked inv.base coherent published enduring.marked early
  refine ⟨?_,?_,?_,?_⟩
  · intro c' q underway idx acked
    exact absurd ⟨q,underway,idx,acked⟩ (closed.idle inv.base coherent c')
  · intro idx late
    have marked := (enduring.begun idx (Nat.lt_of_succ_lt late)).1
    rw [marked] at late
    exact absurd late (Nat.lt_irrefl _)
  · intro c' key bytes cached mine early
    rw [closed.cache c'] at cached
    have past := (inv.base.clients c').cached key bytes cached mine
    exact (enduring.cached c' key bytes cached mine early).congr (unmarked (Nat.le_trans early past))
  · intro c' opened held mine idx early unplaced
    rcases closed.held held with current | before
    · exact (fresh.tracks c').covers opened held mine current idx unplaced
    · have past := ((inv.base.clients c').held opened before mine).1
      exact (enduring.holes c' opened before mine idx early unplaced).congr (unmarked (Nat.le_trans early past))

end Enduring

theorem Created.enduring (created : Created f σ) : Enduring bs f σ ⟨0,0,∅⟩ .empty (fun _ => 0) := by
  refine ⟨?_,fun _ late => absurd late (Nat.not_lt_zero 0),?_,fun _ _ _ _ _ _ _ _ _ => rfl⟩
  · intro c p underway
    rw [created.silent c] at underway
    cases underway
  · intro c key bytes cached mine
    exact absurd mine (created.caches c key bytes cached)

theorem Enduring.images {c : ClientId} {handle : OpenFile} {idx : BlockIdx} {up : NodeId → Bool} (enduring : Enduring bs f σ file G.published last)
    (inv : Inv bs f σ file G) (apart : ¬ Stuck f σ file) (replicated : Replicated T f σ file) (mine : handle.ino = f)
    (agrees : Agrees handle.blockMap file.blocks) (clean : handle.dirty[idx]? = none) (untouched : Untouched f idx σ)
    (recent : last idx ≤ handle.generation ∨ handle.asks idx (σ.clients c).blockCache = true)
    (hole : last idx ≤ handle.generation → handle.blockMap[idx]? = none → Blank bs G.published idx)
    (fresh : handle.asks idx (σ.clients c).blockCache = true → FreshAt T f up idx σ) :
    OpenFile.Images bs (σ.answer up f) G.published handle idx (σ.clients c).blockCache := by
  refine ⟨clean,?_,?_,?_⟩
  · intro bytes cached
    rcases recent with early | asks
    · exact enduring.cached c (handle.cacheKey idx) bytes cached mine early
    · rw [((OpenFile.asks_iff handle idx _).mp asks).2.1] at cached
      cases cached
  · intro asks placement bytes flag placed told
    have synced := replicated.syncedAt inv.base.alive untouched (fresh asks)
    exact answered_image inv.base (inv.coherent.resolve_left apart) untouched synced agrees placed _ bytes flag told
  · intro unplaced
    rcases recent with early | asks
    · exact hole early unplaced
    · obtain ⟨_,_,placement,placed⟩ := (OpenFile.asks_iff handle idx _).mp asks
      rw [unplaced] at placed
      cases placed

theorem Watched.silent {label : Label} (sequenced : Sequenced T f label σ) (silent : asked bs label σ = none) : Watched bs T f label σ := by
  refine ⟨fun _ _ => sequenced,?_⟩
  intro handle idx up asks
  rw [silent] at asks
  cases asks

theorem Watched.fetch {c : ClientId} {fh : Fh} {idx : BlockIdx} {up : NodeId → Bool} (fresh : FreshAt T f up idx σ) :
    Watched bs T f (.fetch c fh idx up) σ := by
  refine ⟨fun unfetched _ => absurd rfl (unfetched c fh idx up),?_⟩
  intro handle idx' up' asks _ _
  obtain ⟨_,_,same⟩ := Option.map_eq_some_iff.mp asks
  cases same
  exact fresh

end Dtmpfs
