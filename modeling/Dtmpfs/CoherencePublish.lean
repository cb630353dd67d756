import Dtmpfs.CoherenceSteps

/-! The steps of a publish keep the invariant of a file: placements are added, stores
execute its writes, and an accepted `Close` makes the drafted file the published one. -/
namespace Dtmpfs
open MetaService MetaState FlatFile OrderedMap Cluster

variable {bs : Nat} {f : InodeId} {σ τ : Cluster} {file : FileRecord} {G H : History} {c : ClientId}

section Allocation

theorem allocated_cases (host : Host) (handle : OpenFile) (s : MetaState) :
    (∃ fault, allocated host handle s = ⟨.error fault,s,[]⟩) ∨
    (newIdxs handle = [] ∧ allocated host handle s = ⟨.ok [],s,[]⟩) ∨
    ∃ inode blocks locs, s.inodes[handle.ino]? = some inode ∧
      allocated host handle s = ⟨.ok locs,s.putInode handle.ino {inode with blocks := blocks},[]⟩ ∧
      Extends host s handle.ino inode.blocks blocks ∧ locs.map (·.blockIdx) = newIdxs handle ∧
      ∀ loc ∈ locs, blocks[loc.blockIdx]? = some loc.placement := by
  unfold allocated
  split
  next none => exact .inr (.inl ⟨List.isEmpty_iff.mp none,rfl⟩)
  next =>
    rcases allocateBlocks_cases host handle.ino (newIdxs handle) s with ⟨_,failed⟩ | served
    · exact .inl ⟨_,failed⟩
    · exact .inr (.inr served)

/-- What an accepted `AllocateBlocks` of any file does to the record of file `f`. -/
theorem allocated_grows {host : Host} {handle : OpenFile} {s : MetaState} {locs : List BlockLoc}
    (alive : s.fileAt f = some file) (told : (allocated host handle s).reply = .ok locs) :
    ∃ blocks, (allocated host handle s).state.fileAt f = some {file with blocks := blocks} ∧
      Extends host s f file.blocks blocks ∧ SameTables s (allocated host handle s).state ∧
      locs.map (·.blockIdx) = newIdxs handle ∧
      (handle.ino = f → ∀ loc ∈ locs, blocks[loc.blockIdx]? = some loc.placement) := by
  have unchanged : Extends host s f file.blocks file.blocks := ⟨.refl _,fun _ _ found => .inl found⟩
  rcases allocated_cases host handle s with ⟨fault,failed⟩ | ⟨none,served⟩ | ⟨inode,blocks,locs',found,served,grown,order,known⟩
  · rw [failed] at told
    cases told
  · rw [served] at told ⊢
    cases told
    exact ⟨file.blocks,alive,unchanged,.refl s,none.symm,fun _ => nofun⟩
  · rw [served] at told ⊢
    cases told
    rcases Classical.em (handle.ino = f) with same | other
    · subst same
      obtain ⟨inode',found',kind,rfl⟩ := fileAt_some alive
      rw [found] at found'
      cases found'
      refine ⟨blocks,?_,grown,⟨rfl,rfl,rfl⟩,order,fun _ => known⟩
      rw [fileAt_putInode,if_pos rfl]
      simp only [record,kind,if_true]
    · refine ⟨file.blocks,?_,unchanged,⟨rfl,rfl,rfl⟩,order,fun same => absurd same other⟩
      rw [fileAt_putInode,if_neg other]
      exact alive

theorem agrees_none {known blocks : Map BlockIdx BlockPlacement} (agrees : Agrees known blocks) {idx : BlockIdx}
    (unplaced : blocks[idx]? = none) : known[idx]? = none := by
  cases found : known[idx]? with
  | none => rfl
  | some placement =>
    rw [agrees idx placement found] at unplaced
    cases unplaced

/-- The placement a publish uses for a block is the one on record. -/
theorem Base.recorded (base : Base f σ file) {p : Publish} (task : (σ.clients c).task = some (.publishing p))
    (mine : p.ino = f) {idx : BlockIdx} {placement : BlockPlacement} (placed : p.blockMap[idx]? = some placement) :
    file.blocks[idx]? = some placement := by
  obtain ⟨handle,found,ino,_,blockMap,_⟩ := ((base.clients c).publishing p task).handle
  have agrees := ((base.clients c).held handle (.inl ⟨p.fh,found⟩) (ino.trans mine)).2
  exact agrees idx placement (blockMap ▸ placed)

theorem publishes_some {client : Client} {p : Publish} (underway : client.publishes f = some p) :
    client.task = some (.publishing p) ∧ p.ino = f := by
  unfold Client.publishes at underway
  split at underway
  next q task =>
    split at underway
    next mine =>
      cases underway
      exact ⟨task,mine⟩
    next => cases underway
  next => cases underway

theorem publishes_of {client : Client} {p : Publish} (task : client.task = some (.publishing p)) (mine : p.ino = f) :
    client.publishes f = some p := by
  simp only [Client.publishes,task,if_pos mine]

theorem publishes_none {client : Client} {p : Publish} (task : client.task = some (.publishing p)) (other : p.ino ≠ f) :
    client.publishes f = none := by
  simp only [Client.publishes,task,if_neg other]

theorem Known.grow {client : Client} (known : Known f file client) {blocks : Map BlockIdx BlockPlacement}
    (keeps : Agrees file.blocks blocks) : Known f {file with blocks := blocks} client := by
  refine ⟨?_,known.cached,known.publishing⟩
  intro handle held mine
  obtain ⟨older,agrees⟩ := known.held handle held mine
  exact ⟨older,agrees.trans keeps⟩

/-- Placements are added to the record of the file. -/
theorem Tied.grow (inv : Tied bs f σ file G) {s : MetaState} {blocks : Map BlockIdx BlockPlacement}
    (alive : s.fileAt f = some {file with blocks := blocks}) (keeps : Agrees file.blocks blocks)
    (nodes : NodesKept σ.metadata s)
    (fresh : ∀ (idx : BlockIdx) (placement : BlockPlacement), blocks[idx]? = some placement →
      file.blocks[idx]? = some placement ∨ WellPlaced s placement) :
    Tied bs f {σ with metadata := s} {file with blocks := blocks} G := by
  have base := inv.base
  refine ⟨⟨alive,fun c => (base.clients c).grow keeps,?_,?_,base.deletes,?_,nodes.filed base.filed,?_⟩,?_⟩
  · intro idx placement placed
    rcases fresh idx placement placed with old | new
    · exact (base.placed idx placement old).mono nodes
    · exact new
  · intro m waiting mine
    obtain ⟨generation,placement,placed,replica⟩ := base.messages m waiting mine
    exact ⟨generation,placement,keeps _ _ placed,replica⟩
  · intro node idx unplaced
    exact base.vacant node idx (agrees_none keeps unplaced)
  · exact nodes.factor ▸ base.factor
  · rcases inv.coherent with stuck | coherent
    · exact .inl stuck
    · refine .inr ⟨coherent.size,coherent.single,coherent.current,?_,?_,?_,?_⟩
      · intro idx unplaced
        exact coherent.unplaced idx (agrees_none keeps unplaced)
      · intro idx placement placed c p data underway wrote dirty
        obtain ⟨task,mine⟩ := publishes_some underway
        obtain ⟨placement',used⟩ := ((base.clients c).publishing p task).placed idx data dirty
        have old := base.recorded task mine used
        have same := keeps idx placement' old
        rw [placed] at same
        cases same
        exact coherent.written idx placement old c p data underway wrote dirty
      · intro idx placement placed untouched
        cases old : file.blocks[idx]? with
        | some placement' =>
          have same := keeps idx placement' old
          rw [placed] at same
          cases same
          exact coherent.shown idx placement old untouched
        | none =>
          have empty : Cluster.slot {σ with metadata := s} placement.primary f idx = none :=
            base.vacant placement.primary idx old
          rw [empty]
          exact coherent.unplaced idx old
      · intro c
        have tracks := coherent.tracks c
        exact ⟨tracks.covers,tracks.sizes,tracks.fresh,tracks.drafts,tracks.caches⟩

end Allocation

section Begin

theorem publishing_get {client : Client} {fh fh' : Fh} {wait : WaitPolicy} {handle other : OpenFile}
    {blockMap : Map BlockIdx BlockPlacement}
    (found : (publishing client fh wait handle blockMap).openFiles[fh']? = some other) :
    (fh' = fh ∧ other = {handle with blockMap := blockMap, dirty := ∅}) ∨ (fh' ≠ fh ∧ client.openFiles[fh']? = some other) :=
  insert_some found

theorem Known.begun {client : Client} (known : Known f file client) {fh : Fh} (wait : WaitPolicy) {handle : OpenFile}
    {blockMap : Map BlockIdx BlockPlacement} (found : client.openFiles[fh]? = some handle)
    (agrees : handle.ino = f → Agrees blockMap file.blocks) (dirty : handle.dirty.isEmpty = false)
    (placed : ∀ (idx : BlockIdx) (data : Bytes), handle.dirty[idx]? = some data → blockMap[idx]? ≠ none) :
    Known f file (Cluster.publishing client fh wait handle blockMap) := by
  refine ⟨?_,known.cached,?_⟩
  · intro other held mine
    rcases held with ⟨fh',opened⟩ | ⟨_,task,_⟩
    · rcases publishing_get opened with ⟨_,rfl⟩ | ⟨_,old⟩
      · exact ⟨(known.held handle (.inl ⟨fh,found⟩) mine).1,agrees mine⟩
      · exact known.held other (.inl ⟨fh',old⟩) mine
    · cases task
  · intro p task
    cases task
    refine ⟨⟨{handle with blockMap := blockMap, dirty := ∅},?_,rfl,rfl,rfl,fun idx => by simp⟩,?_,?_,?_⟩
    · simp [Cluster.publishing]
    · by_contra none
      have empty : handle.dirty.isEmpty = true := by
        rw [OrderedMap.isEmpty_iff]
        intro idx
        refine Option.eq_none_iff_forall_ne_some.mpr ?_
        intro data held
        exact none ⟨idx,data,held⟩
      rw [empty] at dirty
      cases dirty
    · intro idx data held
      exact Option.ne_none_iff_exists'.mp (placed idx data held)
    · intro idx wrote
      simp [Publish.ackedAt] at wrote

/-- A publish that has begun drafts what its handle drafted. -/
theorem Tracks.begun {F : Flat} {pending : Fh → List Patch} {client : Client} {quiet calm : Prop}
    (tracks : Tracks bs f file F pending client quiet calm) (idle : client.task = none) {fh : Fh} (wait : WaitPolicy)
    {handle : OpenFile} {blockMap : Map BlockIdx BlockPlacement} (found : client.openFiles[fh]? = some handle)
    (wider : ∀ idx : BlockIdx, blockMap[idx]? = none → handle.blockMap[idx]? = none) :
    Tracks bs f file F pending (publishing client fh wait handle blockMap) quiet calm := by
  refine ⟨?_,?_,nofun,?_,tracks.caches⟩
  · intro other held mine current idx unplaced
    rcases held with ⟨fh',opened⟩ | ⟨_,task,_⟩
    · rcases publishing_get opened with ⟨_,rfl⟩ | ⟨_,old⟩
      · exact tracks.covers handle (.inl ⟨fh,found⟩) mine current idx (wider idx unplaced)
      · exact tracks.covers other (.inl ⟨fh',old⟩) mine current idx unplaced
    · cases task
  · intro fh' other opened mine current
    rcases publishing_get opened with ⟨rfl,rfl⟩ | ⟨_,old⟩
    · exact tracks.sizes fh' handle found mine current
    · exact tracks.sizes fh' other old mine current
  · intro quiet fh' other opened mine current
    rw [Client.inFlight_none (by simp [publishing])]
    have drafted (handle : OpenFile) (old : client.openFiles[fh']? = some handle) (mine : handle.ino = f)
        (current : handle.generation = file.generation) :
        Overlay bs F (F.applyAll (pending fh' ++ [])) (fun idx => handle.dirty[idx]?) := by
      have before := tracks.drafts quiet fh' handle old mine current
      rw [Client.inFlight_none (by simp [idle]),Client.dirtyOf_own (by simp [idle])] at before
      exact before
    rcases publishing_get opened with ⟨rfl,rfl⟩ | ⟨apart,old⟩
    · have taken : (publishing client fh' wait handle blockMap).dirtyOf fh' {handle with blockMap := blockMap, dirty := ∅} =
          fun idx => handle.dirty[idx]? := by
        funext idx
        simp only [Client.dirtyOf,publishing,if_true]
      rw [taken]
      exact drafted handle found mine current
    · have own : (publishing client fh wait handle blockMap).dirtyOf fh' other = fun idx => other.dirty[idx]? := by
        funext idx
        simp only [Client.dirtyOf,publishing,if_neg (Ne.symm apart)]
      rw [own]
      exact drafted other old mine current

theorem newIdxs_placed {handle : OpenFile} {locs : List BlockLoc} (order : locs.map (·.blockIdx) = newIdxs handle)
    (idx : BlockIdx) (data : Bytes) (dirty : handle.dirty[idx]? = some data) :
    (insertLocs handle.blockMap locs)[idx]? ≠ none := by
  intro unplaced
  obtain ⟨unknown,untold⟩ := (insertLocs_known locs idx).mp unplaced
  have new : idx ∈ newIdxs handle := by
    refine List.mem_filter.mpr ⟨?_,?_⟩
    · exact Std.ExtTreeMap.mem_keys.mpr ((contains_iff _ _).mpr ⟨data,dirty⟩)
    · simp [Std.ExtTreeMap.contains_eq_isSome_getElem?,unknown]
  rw [← order] at new
  obtain ⟨loc,member,same⟩ := List.mem_map.mp new
  exact untold loc member same

theorem tied_publish {fh : Fh} {wait : WaitPolicy} {host : Host} (inv : Tied bs f σ file G)
    (live : σ.metadata.liveNodes host ≠ []) (begun : publish c fh wait host σ = some τ) :
    ∃ file', Tied bs f τ file' G ∧ file'.generation = file.generation ∧ Agrees file.blocks file'.blocks := by
  obtain ⟨handle,idle,found,outcome⟩ := publish_steps begun
  rcases outcome with ⟨_,rfl⟩ | ⟨_,⟨fault,failed⟩,rfl⟩ | ⟨dirty,locs,told,rfl⟩
  · exact ⟨file,inv,rfl,.refl _⟩
  · have same : (allocated host handle σ.metadata).state = σ.metadata := by
      rcases allocated_cases host handle σ.metadata with ⟨_,refused⟩ | ⟨_,served⟩ | ⟨_,_,_,_,served,_⟩
      · rw [refused]
      · rw [served] at failed
        cases failed
      · rw [served] at failed
        cases failed
    rw [same]
    exact ⟨file,inv,rfl,.refl _⟩
  · obtain ⟨blocks,alive,grown,tables,order,known⟩ := allocated_grows inv.base.alive told
    have nodes : NodesKept σ.metadata (allocated host handle σ.metadata).state := .of_eq tables.nodes tables.factor
    have moved := inv.grow alive grown.keeps nodes (by
      intro idx placement placed
      rcases grown.chosen idx placement placed with old | rfl
      · exact .inl old
      · exact .inr ((place_wellPlaced host inv.base.filed f idx live inv.base.factor).mono nodes))
    have held : (σ.clients c).Holds handle := .inl ⟨fh,found⟩
    refine ⟨{file with blocks := blocks},moved.client _ ?_ ?_ rfl (fun _ _ => rfl) ?_,rfl,grown.keeps⟩
    · refine (moved.base.clients c).begun wait found ?_ dirty (newIdxs_placed order)
      intro mine
      exact insertLocs_agrees locs (((inv.base.clients c).held handle held mine).2.trans grown.keeps) (known mine)
    · intro p wrote
      obtain ⟨idx,wrote⟩ := wrote
      constructor
      · intro underway
        obtain ⟨task,_⟩ := publishes_some underway
        cases task
        simp [Publish.ackedAt] at wrote
      · intro underway
        obtain ⟨task,_⟩ := publishes_some underway
        rw [idle] at task
        cases task
    · intro coherent
      refine (coherent.tracks c).begun idle wait found ?_
      intro idx unplaced
      exact ((insertLocs_known locs idx).mp unplaced).1

end Begin

section Send

theorem ackedAt_ack (p : Publish) (idx other : BlockIdx) :
    (p.ack idx).ackedAt other = if idx = other then p.ackedAt idx + 1 else p.ackedAt other := by
  simp only [Publish.ack,Publish.ackedAt,get_insert]
  split <;> rfl

theorem ackedAt_le_ack (p : Publish) (idx other : BlockIdx) : p.ackedAt other ≤ (p.ack idx).ackedAt other := by
  rw [ackedAt_ack]
  split
  next same =>
    subst same
    exact Nat.le_succ _
  next => exact Nat.le_refl _

theorem background_mem {p : Publish} {idx : BlockIdx} {placement : BlockPlacement} {data : Bytes} {m : WriteBlock}
    (sent : m ∈ p.background idx placement data) :
    m.key = ⟨p.ino,idx,0⟩ ∧ m.data = data ∧ m.node ∈ placement.replicas := by
  unfold Publish.background at sent
  split at sent
  · obtain ⟨replica,member,rfl⟩ := List.mem_map.mp sent
    exact ⟨rfl,rfl,member⟩
  · cases sent

/-- The client with one more acknowledgement of its publish. -/
theorem Known.acked {client : Client} (known : Known f file client) {p : Publish}
    (task : client.task = some (.publishing p)) {idx : BlockIdx} {data : Bytes} (dirty : p.dirty[idx]? = some data) :
    Known f file {client with task := some (.publishing (p.ack idx))} := by
  refine ⟨?_,known.cached,?_⟩
  · intro handle held mine
    rcases held with opened | ⟨_,opening,_⟩
    · exact known.held handle (.inl opened) mine
    · cases opening
  · intro q publishing
    cases publishing
    have underway := known.publishing p task
    refine ⟨underway.handle,underway.some,underway.placed,?_⟩
    intro other wrote
    rw [ackedAt_ack] at wrote
    split at wrote
    next same => exact same ▸ ⟨data,dirty⟩
    next => exact underway.acked other wrote

theorem Tracks.acked {F : Flat} {pending : Fh → List Patch} {client : Client} {quiet quiet' calm calm' : Prop} {p : Publish}
    (tracks : Tracks bs f file F pending client quiet calm) (task : client.task = some (.publishing p)) (idx : BlockIdx)
    (still : quiet' → quiet) (still' : calm' → calm) :
    Tracks bs f file F pending {client with task := some (.publishing (p.ack idx))} quiet' calm' := by
  refine ⟨?_,tracks.sizes,nofun,?_,fun calm => tracks.caches (still' calm)⟩
  · intro handle held
    rcases held with opened | ⟨_,opening,_⟩
    · exact tracks.covers handle (.inl opened)
    · cases opening
  · intro quiet fh handle opened mine current
    have drafted := tracks.drafts (still quiet) fh handle opened mine current
    rw [Client.inFlight_none (by simp [task])] at drafted
    rw [Client.inFlight_none (by simp)]
    have same : Client.dirtyOf {client with task := some (.publishing (p.ack idx))} fh handle = client.dirtyOf fh handle := by
      funext other
      simp only [Client.dirtyOf,task,Publish.ack]
      rfl
    rw [same]
    exact drafted

theorem tied_send_other {idx : BlockIdx} (inv : Tied bs f σ file G) {p : Publish} {data : Bytes} {placement : BlockPlacement}
    {node : NodeId} (task : (σ.clients c).task = some (.publishing p)) (dirty : p.dirty[idx]? = some data) (other : p.ino ≠ f) :
    Tied bs f {(σ.setStore node ((σ.stores node).insertBlock ⟨p.ino,idx,0⟩ data)).setClient c
        {σ.clients c with task := some (.publishing (p.ack idx))} with
      writes := σ.writes ++ p.background idx placement data} file G := by
  have elsewhere (n : NodeId) (i : BlockIdx) :
      (σ.setStore node ((σ.stores node).insertBlock ⟨p.ino,idx,0⟩ data)).slot n f i = σ.slot n f i := by
    rw [slot_setStore]
    split
    next here =>
      have away : (⟨p.ino,idx,0⟩ : BlockKey) ≠ ⟨f,i,0⟩ := fun same => other (congrArg BlockKey.ino same)
      rw [StoreState.insertBlock_get,if_neg away]
      simp only [slot,here]
    next => rfl
  refine inv.local_ (c := c) ⟨rfl,.of_eq rfl rfl,fun i placement _ => elsewhere placement.primary i,?_,?_,fun d still _ => still⟩
    (fun c' apart => setClient_other _ _ apart) ?_ ?_ rfl (fun _ _ => rfl) ?_
  · intro n i _ empty
    exact (elsewhere n i).trans empty
  · intro m waiting mine
    rcases List.mem_append.mp waiting with old | new
    · exact old
    · rw [(background_mem new).1] at mine
      exact absurd mine other
  · simp only [setClient,if_true]
    exact (inv.base.clients c).acked task dirty
  · refine .of_eq ?_
    simp only [setClient,if_true]
    have before : (σ.clients c).publishes f = none := publishes_none task other
    rw [before]
    simp only [Client.publishes]
    exact if_neg other
  · intro coherent
    simp only [setClient,if_true]
    exact (coherent.tracks c).acked task idx (fun quiet => quiet) (fun calm => calm)

/-- Only the slot written changes. -/
theorem slot_insertBlock (σ : Cluster) (node other : NodeId) (f : InodeId) (idx i : BlockIdx) (data : Bytes) :
    (σ.setStore node ((σ.stores node).insertBlock ⟨f,idx,0⟩ data)).slot other f i =
      if other = node ∧ i = idx then some data else σ.slot other f i := by
  rw [slot_setStore]
  split
  next here =>
    rw [StoreState.insertBlock_get]
    rcases Classical.em (i = idx) with same | apart
    · rw [if_pos (by rw [same]),if_pos ⟨here,same⟩]
    · have away : (⟨f,idx,0⟩ : BlockKey) ≠ ⟨f,i,0⟩ := fun same => apart (congrArg BlockKey.blockIdx same).symm
      rw [if_neg away,if_neg (fun both => apart both.2)]
      simp only [slot,here]
  next there => rw [if_neg (fun both => there both.1)]

theorem base_send {idx : BlockIdx} (base : Base f σ file) {p : Publish} {data : Bytes} {placement : BlockPlacement}
    {node : NodeId} (task : (σ.clients c).task = some (.publishing p)) (dirty : p.dirty[idx]? = some data)
    (recorded : file.blocks[idx]? = some placement) :
    Base f {(σ.setStore node ((σ.stores node).insertBlock ⟨f,idx,0⟩ data)).setClient c
        {σ.clients c with task := some (.publishing (p.ack idx))} with
      writes := σ.writes ++ p.background idx placement data} file := by
  refine ⟨base.alive,?_,base.placed,?_,base.deletes,?_,base.filed,base.factor⟩
  · intro c'
    rcases Classical.em (c' = c) with rfl | apart
    · simp only [setClient,if_true]
      exact (base.clients c').acked task dirty
    · simp only [setClient,if_neg apart]
      exact base.clients c'
  · intro m waiting same
    rcases List.mem_append.mp waiting with old | new
    · exact base.messages m old same
    · obtain ⟨key,_,replica⟩ := background_mem new
      rw [key]
      exact ⟨rfl,placement,recorded,replica⟩
  · intro n i unplaced
    have apart : i ≠ idx := by
      intro same
      rw [same,recorded] at unplaced
      cases unplaced
    refine (slot_insertBlock σ node n f idx i data).trans ?_
    rw [if_neg (fun both => apart both.2)]
    exact base.vacant n i unplaced

/-- The first write goes to the primary, the later ones do not. -/
theorem send_target {s : MetaState} {placement : BlockPlacement} {node : NodeId} {k : Nat} (placed : WellPlaced s placement)
    (chosen : placement.nodes[k]? = some node) : if k = 0 then node = placement.primary else node ≠ placement.primary := by
  cases k with
  | zero => exact (Option.some.inj chosen).symm
  | succ k =>
    have replica : node ∈ placement.replicas := List.mem_of_getElem? chosen
    simp only [Nat.add_one_ne_zero,if_false]
    intro same
    exact placed.apart (same ▸ replica)

/-- Client `c` goes on with the same publish, one acknowledgement further. -/
structure Advances (f : InodeId) (c : ClientId) (p : Publish) (idx : BlockIdx) (σ τ : Cluster) : Prop where
  before : (σ.clients c).publishes f = some p
  after : (τ.clients c).publishes f = some (p.ack idx)
  others : ∀ c', c' ≠ c → τ.clients c' = σ.clients c'

namespace Advances

variable {p : Publish} {idx : BlockIdx}

theorem acting (advance : Advances f c p idx σ τ) : (τ.clients c).Acting f := by
  refine ⟨p.ack idx,advance.after,idx,?_⟩
  rw [ackedAt_ack,if_pos rfl]
  exact Nat.succ_pos _

theorem keeps (advance : Advances f c p idx σ τ) {c' : ClientId} (acting : (σ.clients c').Acting f) :
    (τ.clients c').Acting f := by
  rcases Classical.em (c' = c) with rfl | apart
  · exact advance.acting
  · rw [advance.others c' apart]
    exact acting

theorem stuck (advance : Advances f c p idx σ τ) (stuck : Stuck f σ file) : Stuck f τ file := by
  rcases stuck with ⟨c',q,underway,⟨i,wrote⟩,behind⟩ | ⟨c₁,c₂,apart,first,second⟩
  · left
    rcases Classical.em (c' = c) with rfl | apart
    · rw [advance.before] at underway
      cases underway
      exact ⟨c',p.ack idx,advance.after,⟨i,Nat.lt_of_lt_of_le wrote (ackedAt_le_ack p idx i)⟩,behind⟩
    · exact ⟨c',q,advance.others c' apart ▸ underway,⟨i,wrote⟩,behind⟩
  · exact .inr ⟨c₁,c₂,apart,advance.keeps first,advance.keeps second⟩

end Advances

theorem coherent_send {idx : BlockIdx} {p : Publish} {data : Bytes} {placement : BlockPlacement} {node : NodeId}
    (base : Base f σ file) (coherent : Coherent bs f σ file G) (advance : Advances f c p idx σ τ)
    (client : τ.clients c = {σ.clients c with task := some (.publishing (p.ack idx))})
    (slots : ∀ n i, τ.slot n f i = if n = node ∧ i = idx then some data else σ.slot n f i)
    (dirty : p.dirty[idx]? = some data) (recorded : file.blocks[idx]? = some placement)
    (chosen : placement.nodes[p.ackedAt idx]? = some node) (current : p.generation = file.generation)
    (alone : ∀ c', c' ≠ c → ¬ (σ.clients c').Acting f) : Coherent bs f τ file G := by
  have task := (publishes_some advance.before).1
  have target := send_target (base.placed idx placement recorded) chosen
  have single (c' : ClientId) (acting : (τ.clients c').Acting f) : c' = c := by
    by_contra apart
    rw [advance.others c' apart] at acting
    exact alone c' apart acting
  refine ⟨coherent.size,?_,?_,coherent.unplaced,?_,?_,?_⟩
  · intro c₁ c₂ first second
    rw [single c₁ first,single c₂ second]
  · intro c' q underway wrote
    cases single c' ⟨q,underway,wrote⟩
    rw [advance.after] at underway
    cases underway
    exact current
  · intro i placement' placed c' q block underway wrote taken
    cases single c' ⟨q,underway,i,wrote⟩
    rw [advance.after] at underway
    cases underway
    rw [slots]
    rcases Classical.em (i = idx) with rfl | apart
    · rw [recorded] at placed
      cases placed
      have same : block = data := Option.some.inj (taken.symm.trans dirty)
      rcases Nat.eq_zero_or_pos (p.ackedAt i) with first | later
      · rw [if_pos first] at target
        rw [if_pos ⟨target.symm,rfl⟩,same]
      · rw [if_neg (Nat.ne_of_gt later)] at target
        rw [if_neg (fun both => target both.1.symm)]
        exact coherent.written i placement recorded c p block advance.before later taken
    · rw [ackedAt_ack,if_neg (Ne.symm apart)] at wrote
      rw [if_neg (fun both => apart both.2)]
      exact coherent.written i placement' placed c p block advance.before wrote taken
  · intro i placement' placed untouched
    have apart : i ≠ idx := by
      intro same
      have none := untouched c (p.ack idx) advance.after
      rw [same,ackedAt_ack,if_pos rfl] at none
      exact Nat.succ_ne_zero _ none
    rw [slots,if_neg (fun both => apart both.2)]
    refine coherent.shown i placement' placed ?_
    intro c' q underway
    rcases Classical.em (c' = c) with rfl | elsewhere
    · rw [advance.before] at underway
      cases underway
      have none := untouched c' (p.ack idx) advance.after
      rwa [ackedAt_ack,if_neg (Ne.symm apart)] at none
    · exact untouched c' q (advance.others c' elsewhere ▸ underway)
  · intro c'
    have tracks := coherent.tracks c'
    rcases Classical.em (c' = c) with rfl | apart
    · rw [client]
      exact tracks.acked task idx (fun _ => alone) (fun calm => absurd advance.acting (calm c'))
    · rw [advance.others c' apart]
      exact ⟨tracks.covers,tracks.sizes,tracks.fresh,fun quiet => absurd advance.acting (quiet c (Ne.symm apart)),
        fun calm => absurd advance.acting (calm c)⟩

theorem tied_send {idx : BlockIdx} (inv : Tied bs f σ file G) (sent : send c idx σ = some τ) : Tied bs f τ file G := by
  obtain ⟨p,data,placement,node,task,dirty,placed,_,chosen,_,rfl⟩ := send_steps sent
  rcases Classical.em (p.ino = f) with mine | other
  · subst mine
    have recorded := inv.base.recorded task rfl placed
    refine ⟨base_send inv.base task dirty recorded,?_⟩
    have advance : Advances p.ino c p idx σ {(σ.setStore node ((σ.stores node).insertBlock ⟨p.ino,idx,0⟩ data)).setClient c
        {σ.clients c with task := some (.publishing (p.ack idx))} with
        writes := σ.writes ++ p.background idx placement data} := by
      refine ⟨publishes_of task rfl,?_,fun c' apart => setClient_other _ _ apart⟩
      refine publishes_of ?_ rfl
      simp only [setClient,if_true]
    rcases inv.coherent with stuck | coherent
    · exact .inl (advance.stuck stuck)
    · rcases Classical.em (p.generation = file.generation ∧ ∀ c', c' ≠ c → ¬ (σ.clients c').Acting p.ino) with
        ⟨current,alone⟩ | trouble
      · right
        exact coherent_send inv.base coherent advance (setClient_same _ _ _) (fun n i => slot_insertBlock σ node n p.ino idx i data)
          dirty recorded chosen current alone
      · left
        rcases Classical.em (p.generation = file.generation) with current | behind
        · have crowded : ∃ c', c' ≠ c ∧ (σ.clients c').Acting p.ino := by
            by_contra none
            exact trouble ⟨current,fun c' apart acting => none ⟨c',apart,acting⟩⟩
          obtain ⟨c',apart,acting⟩ := crowded
          exact .inr ⟨c',c,apart,advance.keeps acting,advance.acting⟩
        · refine .inl ⟨c,p.ack idx,advance.after,⟨idx,?_⟩,behind⟩
          rw [ackedAt_ack,if_pos rfl]
          exact Nat.succ_pos _
  · exact tied_send_other inv task dirty other

end Send

section End

/-- A `Close` of written blocks at the generation of the file is accepted. -/
theorem close_matched (host : Host) (sizeHint : Nat) {s : MetaState} {p : Publish} {handle : OpenHandleSt} {clock : SystemTime}
    (alive : s.fileAt f = some file) (found : s.openHandles[p.fh]? = some handle) (mine : handle.ino = f)
    (written : p.dirty.keys ≠ []) (matched : file.generation = p.generation) (early : clock < 10^9 * 2^63) :
    ∃ attr, (MetaService.close host (closeReq p sizeHint clock) s).reply = .ok attr ∧ attr.generation = file.generation + 1 ∧
      (MetaService.close host (closeReq p sizeHint clock) s).state.fileAt f =
        some ⟨sizeHint,file.generation + 1,file.blocks⟩ := by
  obtain ⟨inode,present,kind,rfl⟩ := fileAt_some alive
  have valid := epochPlus_timestamp early
  have nonempty : p.dirty.keys.isEmpty = false := by simpa using written
  have served : MetaService.close host (closeReq p sizeHint clock) s =
      ⟨.ok (buildAttr (publishedInode host (closeReq p sizeHint clock) (max clock 0) inode)),
        (s.dropHandle p.fh).putInode f (publishedInode host (closeReq p sizeHint clock) (max clock 0) inode),[]⟩ := by
    subst mine
    simp only [MetaService.close,closeReq,found,present,nonempty,valid]
    rw [if_neg (by simp),if_neg (not_not.mpr matched)]
    rfl
  rw [served]
  refine ⟨_,rfl,rfl,?_⟩
  rw [fileAt_putInode,if_pos rfl]
  simp only [record,publishedInode,kind,if_true,Generation.bump]
  rfl

theorem close_nodes (host : Host) (r : CloseReq) (s : MetaState) : NodesKept s (MetaService.close host r s).state := by
  rcases close_cases host r s with ⟨_,missing⟩ | ⟨handle,_,⟨_,refused⟩ | ⟨_,_,⟨_,served⟩ | ⟨_,_,_,served⟩⟩⟩
  · rw [missing]
    exact .of_eq rfl rfl
  · rw [refused]
    exact .of_eq rfl rfl
  · rw [served]
    exact .of_eq rfl rfl
  · rw [served]
    exact .of_eq rfl rfl

theorem close_other (host : Host) {r : CloseReq} {s : MetaState}
    (others : ∀ handle, s.openHandles[r.fh]? = some handle → handle.ino ≠ f) :
    (MetaService.close host r s).state.fileAt f = s.fileAt f := by
  rcases close_cases host r s with ⟨_,missing⟩ | ⟨handle,found,⟨_,refused⟩ | ⟨_,_,⟨_,served⟩ | ⟨_,_,_,served⟩⟩⟩
  · rw [missing]
  · rw [refused]
    rfl
  · rw [served]
    rfl
  · rw [served,fileAt_putInode,if_neg (others handle found)]
    rfl

/-- The publish of another file ends: the handle it came from may change, file `f`
does not. -/
theorem tied_settle_other {handle : OpenFile} (handle' : OpenFile) {p : Publish} (patches : List Patch) (inv : Tied bs f σ file G)
    (task : (σ.clients c).task = some (.publishing p)) (found : (σ.clients c).openFiles[p.fh]? = some handle)
    (other : p.ino ≠ f) (ino : handle'.ino = handle.ino)
    (client : τ.clients c = ⟨(σ.clients c).openFiles.insert p.fh handle',(σ.clients c).blockCache,none⟩)
    (others : ∀ c', c' ≠ c → τ.clients c' = σ.clients c') (frame : Frame f σ τ file) :
    Tied bs f τ file (G.set c p.fh patches) := by
  have known := inv.base.clients c
  obtain ⟨from_,found',owner,_⟩ := (known.publishing p task).handle
  rw [found] at found'
  cases found'
  have foreign : handle'.ino ≠ f := ino ▸ owner ▸ other
  have silent : (σ.clients c).publishes f = none := publishes_none task other
  refine inv.local_ frame others ?_ ?_ rfl (set_other G c p.fh patches) ?_
  · rw [client]
    exact known.rewritten found (fun mine => absurd mine foreign) _ known.cached none (by simp) (by simp)
  · rw [client]
    exact .of_eq silent.symm
  · intro coherent
    have tracks := coherent.tracks c
    rw [client]
    refine tracks.rewritten found ?_ (fun mine => absurd mine foreign) _ none (by simp) (by simp) ?_ ?_ ?_ tracks.caches
    · intro fh' apart
      refine ⟨Client.inFlight_none (by simp [task]) fh',?_⟩
      intro handle
      funext idx
      simp only [Client.dirtyOf,task,if_neg (Ne.symm apart)]
    · intro fh' apart
      exact ⟨by rw [set_pending,if_neg apart],Client.inFlight_none (by simp) fh'⟩
    · intro mine
      exact absurd (owner.symm.trans mine) other
    · intro _ mine
      exact absurd (owner.symm.trans mine) other

theorem finished_acked {p : Publish} (finished : p.finished = true) {idx : BlockIdx} {data : Bytes}
    (dirty : p.dirty[idx]? = some data) : 0 < p.ackedAt idx := by
  have member : idx ∈ p.dirty.keys := Std.ExtTreeMap.mem_keys.mpr ((contains_iff _ _).mpr ⟨data,dirty⟩)
  have enough := List.all_eq_true.mp finished idx member
  have awaited : 0 < p.awaited idx := by
    unfold Publish.awaited
    split
    · exact Nat.one_pos
    · cases p.blockMap[idx]? with
      | none => exact Nat.one_pos
      | some placement => exact Nat.succ_pos _
  exact Nat.lt_of_lt_of_le awaited (of_decide_eq_true enough)

/-- The state after the `Close` of a publish `p` of `f` was accepted. -/
structure Closed (f : InodeId) (c : ClientId) (p : Publish) (handle : OpenFile) (σ τ : Cluster) (file : FileRecord) : Prop where
  task : (σ.clients c).task = some (.publishing p)
  mine : p.ino = f
  found : (σ.clients c).openFiles[p.fh]? = some handle
  finished : p.finished = true
  matched : file.generation = p.generation
  record : τ.metadata.fileAt f = some ⟨handle.sizeHint,file.generation + 1,file.blocks⟩
  nodes : NodesKept σ.metadata τ.metadata
  client : τ.clients c = ⟨(σ.clients c).openFiles.insert p.fh {handle with generation := file.generation + 1},
    (σ.clients c).blockCache,none⟩
  others : ∀ c', c' ≠ c → τ.clients c' = σ.clients c'
  stores : τ.stores = σ.stores
  writes : τ.writes = σ.writes
  deletes : τ.deletes = σ.deletes

namespace Closed

variable {p : Publish} {handle : OpenFile}

theorem underway (closed : Closed f c p handle σ τ file) (base : Base f σ file) :
    Underway (σ.clients c) p ∧ handle.ino = f ∧ handle.generation = file.generation ∧ handle.blockMap = p.blockMap ∧
      ∀ idx : BlockIdx, handle.dirty[idx]? = none := by
  have publishing := (base.clients c).publishing p closed.task
  obtain ⟨handle',found,ino,generation,blockMap,clean⟩ := publishing.handle
  rw [closed.found] at found
  cases found
  exact ⟨publishing,ino.trans closed.mine,generation.trans closed.matched.symm,blockMap,clean⟩

/-- Everything a client knew of the file is now behind. -/
theorem known_other (closed : Closed f c p handle σ τ file) (base : Base f σ file) (c' : ClientId) (apart : c' ≠ c) :
    Known f ⟨handle.sizeHint,file.generation + 1,file.blocks⟩ (τ.clients c') := by
  have known := base.clients c'
  rw [closed.others c' apart]
  refine ⟨?_,?_,known.publishing⟩
  · intro other held mine
    obtain ⟨older,agrees⟩ := known.held other held mine
    exact ⟨Nat.le_succ_of_le older,agrees⟩
  · intro key bytes cached mine
    exact Nat.le_succ_of_le (known.cached key bytes cached mine)

theorem known_own (closed : Closed f c p handle σ τ file) (base : Base f σ file) :
    Known f ⟨handle.sizeHint,file.generation + 1,file.blocks⟩ (τ.clients c) := by
  have known := base.clients c
  rw [closed.client]
  refine ⟨?_,fun key bytes cached mine => Nat.le_succ_of_le (known.cached key bytes cached mine),nofun⟩
  intro other held mine
  rcases held with ⟨fh,opened⟩ | ⟨_,task,_⟩
  · simp only [get_insert] at opened
    split at opened
    next =>
      cases opened
      exact ⟨Nat.le_refl _,(known.held handle (.inl ⟨p.fh,closed.found⟩) mine).2⟩
    next =>
      obtain ⟨older,agrees⟩ := known.held other (.inl ⟨fh,opened⟩) mine
      exact ⟨Nat.le_succ_of_le older,agrees⟩
  · cases task

theorem slot_eq (closed : Closed f c p handle σ τ file) (node : NodeId) (idx : BlockIdx) :
    τ.slot node f idx = σ.slot node f idx := by
  simp only [slot,closed.stores]

theorem base (closed : Closed f c p handle σ τ file) (base : Base f σ file) :
    Base f τ ⟨handle.sizeHint,file.generation + 1,file.blocks⟩ := by
  refine ⟨closed.record,?_,?_,closed.writes ▸ base.messages,closed.deletes ▸ base.deletes,?_,closed.nodes.filed base.filed,
    closed.nodes.factor ▸ base.factor⟩
  · intro c'
    rcases Classical.em (c' = c) with rfl | apart
    · exact closed.known_own base
    · exact closed.known_other base c' apart
  · intro idx placement placed
    exact (base.placed idx placement placed).mono closed.nodes
  · intro node idx unplaced
    rw [closed.slot_eq]
    exact base.vacant node idx unplaced

/-- A publish of another client was begun at an older generation. -/
theorem behind (base : Base f σ file) {c' : ClientId} {q : Publish} (underway : (σ.clients c').publishes f = some q) :
    q.generation ≠ file.generation + 1 := by
  obtain ⟨task,mine⟩ := publishes_some underway
  obtain ⟨other,found,ino,generation,_⟩ := ((base.clients c').publishing q task).handle
  have older := ((base.clients c').held other (.inl ⟨q.fh,found⟩) (ino.trans mine)).1
  rw [generation] at older
  exact Nat.ne_of_lt (Nat.lt_succ_of_le older)

theorem stuck (closed : Closed f c p handle σ τ file) (base : Base f σ file) (stuck : Stuck f σ file) :
    Stuck f τ ⟨handle.sizeHint,file.generation + 1,file.blocks⟩ := by
  have left_behind (c' : ClientId) (apart : c' ≠ c) (acting : (σ.clients c').Acting f) :
      Stuck f τ ⟨handle.sizeHint,file.generation + 1,file.blocks⟩ := by
    obtain ⟨q,underway,wrote⟩ := acting
    exact .inl ⟨c',q,closed.others c' apart ▸ underway,wrote,behind base underway⟩
  rcases stuck with ⟨c',q,underway,wrote,older⟩ | ⟨c₁,c₂,apart,first,second⟩
  · refine left_behind c' ?_ ⟨q,underway,wrote⟩
    intro same
    rw [same,publishes_of closed.task closed.mine] at underway
    cases underway
    exact older closed.matched.symm
  · rcases Classical.em (c₁ = c) with rfl | elsewhere
    · exact left_behind c₂ (Ne.symm apart) second
    · exact left_behind c₁ elsewhere first

theorem acting (closed : Closed f c p handle σ τ file) (base : Base f σ file) : (σ.clients c).Acting f := by
  obtain ⟨idx,data,dirty⟩ := (closed.underway base).1.some
  exact ⟨p,publishes_of closed.task closed.mine,idx,finished_acked closed.finished dirty⟩

theorem idle (closed : Closed f c p handle σ τ file) (base : Base f σ file) (coherent : Coherent bs f σ file G)
    (c' : ClientId) : ¬ (τ.clients c').Acting f := by
  intro acting
  rcases Classical.em (c' = c) with rfl | apart
  · obtain ⟨q,underway,_⟩ := acting
    have task := (publishes_some underway).1
    rw [closed.client] at task
    cases task
  · rw [closed.others c' apart] at acting
    exact apart (coherent.single c' c acting (closed.acting base))

/-- What the publish drafted. -/
theorem overlay (closed : Closed f c p handle σ τ file) (base : Base f σ file) (coherent : Coherent bs f σ file G) :
    Overlay bs G.published (G.published.applyAll (G.pending c p.fh)) (fun idx => p.dirty[idx]?) := by
  obtain ⟨_,mine,current,_⟩ := closed.underway base
  have quiet (c' : ClientId) (apart : c' ≠ c) : ¬ (σ.clients c').Acting f :=
    fun acting => apart (coherent.single c' c acting (closed.acting base))
  have drafted := (coherent.tracks c).drafts quiet p.fh handle closed.found mine current
  rw [Client.inFlight_none (by simp [closed.task]),List.append_nil] at drafted
  have taken : (σ.clients c).dirtyOf p.fh handle = fun idx => p.dirty[idx]? := by
    funext idx
    simp only [Client.dirtyOf,closed.task,if_true]
  rw [taken] at drafted
  exact drafted

theorem slotShows_congr {F D : Flat} {idx : BlockIdx} {held : Option Bytes} (shown : SlotShows bs F idx held)
    (agree : Agree bs F D idx) : SlotShows bs D idx held := by
  cases held with
  | some bytes => exact Shows.congr shown agree
  | none => exact Blank.congr shown agree

/-- A publish has data for the blocks it has placed only. -/
theorem unwritten (closed : Closed f c p handle σ τ file) (base : Base f σ file) (idx : BlockIdx)
    (unplaced : p.blockMap[idx]? = none) : p.dirty[idx]? = none := by
  refine Option.eq_none_iff_forall_ne_some.mpr ?_
  intro data dirty
  obtain ⟨placement,placed⟩ := (closed.underway base).1.placed idx data dirty
  rw [placed] at unplaced
  cases unplaced

/-- The client that has closed its publish knows the new version through that handle only. -/
theorem tracks_own (closed : Closed f c p handle σ τ file) (base : Base f σ file) (coherent : Coherent bs f σ file G)
    (published : H.published = G.published.applyAll (G.pending c p.fh)) (emptied : H.pending c p.fh = []) (size : Nat)
    (blocks : Map BlockIdx BlockPlacement) (quiet calm : Prop) :
    Tracks bs f ⟨size,file.generation + 1,blocks⟩ H.published (H.pending c) (τ.clients c) quiet calm := by
  obtain ⟨_,mine,current,blockMap,clean⟩ := closed.underway base
  have drafted := closed.overlay base coherent
  rw [← published] at drafted
  have tracks := coherent.tracks c
  have known := base.clients c
  have older {n : Generation} (bound : n ≤ file.generation) : n ≠ file.generation + 1 := Nat.ne_of_lt (Nat.lt_succ_of_le bound)
  rw [closed.client]
  have handles (fh : Fh) (other : OpenFile)
      (opened : ((σ.clients c).openFiles.insert p.fh {handle with generation := file.generation + 1})[fh]? = some other)
      (same : other.ino = f) (newest : other.generation = file.generation + 1) :
      fh = p.fh ∧ other = {handle with generation := file.generation + 1} := by
    rw [get_insert] at opened
    split at opened
    next here => exact ⟨here.symm,(Option.some.inj opened).symm⟩
    next => exact absurd newest (older (known.held other (.inl ⟨fh,opened⟩) same).1)
  refine ⟨?_,?_,nofun,?_,?_⟩
  · intro other held same newest idx unplaced
    rcases held with ⟨fh,opened⟩ | ⟨_,task,_⟩
    · obtain ⟨_,rfl⟩ := handles fh other opened same newest
      have unknown : handle.blockMap[idx]? = none := unplaced
      have blank := tracks.covers handle (.inl ⟨p.fh,closed.found⟩) mine current idx unknown
      rw [blockMap] at unknown
      exact blank.congr (drafted.clean idx (closed.unwritten base idx unknown))
    · cases task
  · intro fh other opened same newest
    obtain ⟨rfl,rfl⟩ := handles fh other opened same newest
    rw [emptied,published]
    exact tracks.sizes p.fh handle closed.found mine current
  · intro _ fh other opened same newest
    obtain ⟨rfl,rfl⟩ := handles fh other opened same newest
    rw [emptied,Client.inFlight_none (by simp),Client.dirtyOf_own (by simp)]
    have none : (fun idx : BlockIdx => handle.dirty[idx]?) = fun _ => Option.none := funext clean
    refine Overlay.congr (D := H.published) ?_ rfl
    rw [none]
    exact .none _
  · intro _ key bytes cached same newest
    exact absurd newest (older (known.cached key bytes cached same))

/-- The other clients know nothing of the new version yet. -/
theorem tracks_other (closed : Closed f c p handle σ τ file) (base : Base f σ file) {c' : ClientId} (apart : c' ≠ c) (size : Nat)
    (blocks : Map BlockIdx BlockPlacement) (quiet calm : Prop) :
    Tracks bs f ⟨size,file.generation + 1,blocks⟩ H.published (H.pending c') (τ.clients c') quiet calm := by
  have known := base.clients c'
  have older {n : Generation} (bound : n ≤ file.generation) : n ≠ file.generation + 1 := Nat.ne_of_lt (Nat.lt_succ_of_le bound)
  rw [closed.others c' apart]
  have held (other : OpenFile) (held : (σ.clients c').Holds other) (same : other.ino = f) :
      other.generation ≠ file.generation + 1 := older (known.held other held same).1
  refine ⟨?_,?_,?_,?_,?_⟩
  · intro other opened same newest
    exact absurd newest (held other opened same)
  · intro fh other opened same newest
    exact absurd newest (held other (.inl ⟨fh,opened⟩) same)
  · intro snapshot task same newest
    exact absurd newest (held (snapshotFile snapshot) (.inr ⟨snapshot,task,rfl⟩) same)
  · intro _ fh other opened same newest
    exact absurd newest (held other (.inl ⟨fh,opened⟩) same)
  · intro _ key bytes cached same newest
    exact absurd newest (older (known.cached key bytes cached same))

theorem coherent (closed : Closed f c p handle σ τ file) (base : Base f σ file) (coherent : Coherent bs f σ file G)
    (published : H.published = G.published.applyAll (G.pending c p.fh)) (emptied : H.pending c p.fh = []) :
    Coherent bs f τ ⟨handle.sizeHint,file.generation + 1,file.blocks⟩ H := by
  obtain ⟨publishing,mine,current,blockMap,_⟩ := closed.underway base
  have drafted := closed.overlay base coherent
  have calm := closed.idle base coherent
  have agrees := (base.clients c).held handle (.inl ⟨p.fh,closed.found⟩) mine
  rw [← published] at drafted
  refine ⟨?_,?_,?_,?_,?_,?_,?_⟩
  · rw [published]
    exact (coherent.tracks c).sizes p.fh handle closed.found mine current
  · intro c₁ _ first
    exact absurd first (calm c₁)
  · intro c' q underway wrote
    exact absurd ⟨q,underway,wrote⟩ (calm c')
  · intro idx unplaced
    have unknown := agrees_none agrees.2 unplaced
    rw [blockMap] at unknown
    exact (coherent.unplaced idx unplaced).congr (drafted.clean idx (closed.unwritten base idx unknown))
  · intro idx _ _ c' q _ underway wrote
    exact absurd ⟨q,underway,idx,wrote⟩ (calm c')
  · intro idx placement placed _
    rw [closed.slot_eq]
    cases taken : p.dirty[idx]? with
    | some data =>
      have held := coherent.written idx placement placed c p data (publishes_of closed.task closed.mine)
        (finished_acked closed.finished taken) taken
      rw [held]
      exact drafted.dirtied idx data taken
    | none =>
      refine slotShows_congr (coherent.shown idx placement placed ?_) (drafted.clean idx taken)
      intro c' q underway
      by_contra wrote
      have positive := Nat.pos_of_ne_zero wrote
      have same := coherent.single c' c ⟨q,underway,idx,positive⟩ (closed.acting base)
      rw [same,publishes_of closed.task closed.mine] at underway
      cases underway
      obtain ⟨data,dirty⟩ := publishing.acked idx positive
      rw [dirty] at taken
      cases taken
  · intro c'
    rcases Classical.em (c' = c) with rfl | apart
    · exact closed.tracks_own base coherent published emptied _ _ _ _
    · exact closed.tracks_other base apart _ _ _ _

end Closed

theorem keys_ne_nil {map : Map BlockIdx Bytes} {idx : BlockIdx} {data : Bytes} (found : map[idx]? = some data) : map.keys ≠ [] :=
  List.ne_nil_of_mem (Std.ExtTreeMap.mem_keys.mpr ((contains_iff _ _).mpr ⟨data,found⟩))

/-- The metadata server's handle of a publish is of the file that is published. -/
theorem HandlesOwn.entry (own : HandlesOwn σ) {p : Publish} (underway : Underway (σ.clients c) p) {entry : OpenHandleSt}
    (entered : σ.metadata.openHandles[p.fh]? = some entry) : entry.ino = p.ino := by
  obtain ⟨handle,found,ino,_⟩ := underway.handle
  exact ((own.held c p.fh handle found).2 entry entered).trans ino

/-- A matching `Close` of the file is accepted. -/
theorem closed_of_close {host : Host} {clock : SystemTime} (base : Base f σ file) (own : HandlesOwn σ) (orderly : Orderly f (.close c host clock) σ)
    (closed : close c host clock σ = some τ) {p : Publish} (underway : (σ.clients c).publishes f = some p) :
    ∃ handle, Closed f c p handle σ τ file ∧ G.next bs f (.close c host clock) σ =
      History.set {G with published := G.published.applyAll (G.pending c p.fh)} c p.fh [] := by
  obtain ⟨task,mine⟩ := publishes_some underway
  obtain ⟨q,handle,task',found,finished,early,rfl⟩ := close_steps closed
  rw [task] at task'
  cases task'
  obtain ⟨known,current⟩ := orderly p underway
  obtain ⟨entry,entered⟩ := (contains_iff _ _).mp known
  have publishing := (base.clients c).publishing p task
  obtain ⟨idx,data,dirty⟩ := publishing.some
  have matched := current file base.alive
  obtain ⟨attr,reply,bumped,record⟩ := close_matched host handle.sizeHint base.alive entered
    ((own.entry publishing entered).trans mine) (keys_ne_nil dirty) matched early
  have kept := close_nodes host (closeReq p handle.sizeHint clock) σ.metadata
  refine ⟨handle,⟨task,mine,found,finished,matched,record,kept,?_,fun c' apart => setClient_other _ _ apart,rfl,rfl,rfl⟩,?_⟩
  · rw [setClient_same,reply,← bumped]
    rfl
  · simp only [History.next,task,found,reply,if_pos mine]

theorem tied_close_other {host : Host} {clock : SystemTime} (inv : Tied bs f σ file G) (own : HandlesOwn σ)
    (closed : close c host clock σ = some τ) (silent : (σ.clients c).publishes f = none) :
    Tied bs f τ file (G.next bs f (.close c host clock) σ) ∧
      (G.next bs f (.close c host clock) σ).published = G.published := by
  obtain ⟨p,handle,task,found,finished,early,rfl⟩ := close_steps closed
  have other : p.ino ≠ f := by
    intro mine
    rw [publishes_of task mine] at silent
    cases silent
  simp only [History.next,task,found]
  have foreign (entry : OpenHandleSt) (entered : σ.metadata.openHandles[p.fh]? = some entry) : entry.ino ≠ f :=
    fun same => other ((own.entry ((inv.base.clients c).publishing p task) entered).symm.trans same)
  have record := close_other host (r := closeReq p handle.sizeHint clock) foreign
  have nodes := close_nodes host (closeReq p handle.sizeHint clock) σ.metadata
  have frame (client : Client) :
      Frame f σ (setClient {σ with metadata := (MetaService.close host (closeReq p handle.sizeHint clock) σ.metadata).state} c client) file :=
    ⟨record,nodes,fun _ _ _ => rfl,fun _ _ _ empty => empty,fun m still _ => still,fun d still _ => still⟩
  cases reply : (MetaService.close host (closeReq p handle.sizeHint clock) σ.metadata).reply with
  | ok attr =>
    simp only [if_neg other]
    exact ⟨tied_settle_other {handle with generation := attr.generation} [] inv task found other rfl (setClient_same _ _ _)
      (fun c' apart => setClient_other _ _ apart) (frame _),rfl⟩
  | error fault =>
    refine ⟨tied_settle_other handle _ inv task found other rfl ?_ (fun c' apart => setClient_other _ _ apart) (frame _),rfl⟩
    rw [setClient_same,insert_get _ _ _ found]
    rfl

theorem nextWrite_ino {p : Publish} {idx : BlockIdx} {m : WriteBlock} (next : nextWrite p idx = some m) : m.key.ino = p.ino := by
  unfold nextWrite at next
  split at next
  · split at next
    · obtain ⟨node,_,rfl⟩ := Option.map_eq_some_iff.mp next
      rfl
    · cases next
  · cases next

/-- A publish that no store has seen is called off. -/
theorem tied_abort {stray : List BlockIdx} (inv : Tied bs f σ file G) (orderly : Orderly f (.abort c stray) σ)
    (aborted : abort c stray σ = some τ) : Tied bs f τ file (G.next bs f (.abort c stray) σ) := by
  obtain ⟨p,task,rfl⟩ := abort_steps aborted
  have known := inv.base.clients c
  obtain ⟨handle,found,ino,generation,blockMap,clean⟩ := (known.publishing p task).handle
  simp only [History.next,task,found]
  have unchanged : (σ.clients c).openFiles.insert p.fh handle = (σ.clients c).openFiles := insert_get _ _ _ found
  rcases Classical.em (p.ino = f) with mine | other
  · obtain ⟨untouched,rfl⟩ := orderly p (publishes_of task mine)
    simp only [List.filterMap_nil,List.append_nil]
    rw [← unchanged]
    refine inv.client _ (known.rewritten found (fun _ => ⟨rfl,rfl,rfl⟩) _ known.cached none (by simp) (by simp)) ?_ rfl
      (set_other G c p.fh _) ?_
    · intro q wrote
      constructor
      · intro underway
        have task := (publishes_some underway).1
        cases task
      · intro underway
        rw [publishes_of task mine] at underway
        cases underway
        obtain ⟨idx,wrote⟩ := wrote
        rw [Publish.ackedAt,(OrderedMap.isEmpty_iff _).mp untouched idx] at wrote
        exact absurd wrote (Nat.lt_irrefl 0)
    · intro coherent
      have tracks := coherent.tracks c
      refine tracks.rewritten found ?_ (fun _ => ⟨rfl,rfl,rfl⟩) _ none (by simp) (by simp) ?_ ?_ ?_ tracks.caches
      · intro fh' apart
        refine ⟨Client.inFlight_none (by simp [task]) fh',?_⟩
        intro handle
        funext idx
        simp only [Client.dirtyOf,task,if_neg (Ne.symm apart)]
      · intro fh' apart
        exact ⟨by rw [set_pending,if_neg apart],Client.inFlight_none (by simp) fh'⟩
      · intro same current
        rw [set_pending,if_pos rfl]
        have grown := Flat.size_le_applyAll G.published (G.pending c p.fh)
        rw [← tracks.sizes p.fh handle found same current] at grown
        exact (Nat.max_eq_right grown).symm
      · intro _ _ _
        rw [set_pending,if_pos rfl,Client.inFlight_none (by simp),List.append_nil]
        have none : (fun idx : BlockIdx => handle.dirty[idx]?) = fun _ => Option.none := funext clean
        rw [none]
        exact (Overlay.none G.published).congr (Flat.byte_apply_nil _ _ _).symm
  · refine tied_settle_other handle _ inv task found other rfl ?_ (fun c' apart => setClient_other _ _ apart) ?_
    · rw [unchanged]
      exact setClient_same _ _ _
    · refine ⟨rfl,.of_eq rfl rfl,fun _ _ _ => rfl,fun _ _ _ empty => empty,?_,fun d still _ => still⟩
      intro m waiting mine
      rcases List.mem_append.mp waiting with old | new
      · exact old
      · obtain ⟨idx,_,next⟩ := List.mem_filterMap.mp new
        exact absurd ((nextWrite_ino next).symm.trans mine) other

end End

/-- How a step takes the published file on: it stays the version it was, or a publish
of the file is closed. -/
def Evolves (f : InodeId) (label : Label) (σ τ : Cluster) (file file' : FileRecord) (G H : History) : Prop :=
  (file'.generation = file.generation ∧ Agrees file.blocks file'.blocks ∧ H.published = G.published ∧
      ∀ c host clock, label = .close c host clock → (σ.clients c).publishes f = none) ∨
    ∃ c host clock p handle, label = .close c host clock ∧ Closed f c p handle σ τ file ∧
      file' = ⟨handle.sizeHint,file.generation + 1,file.blocks⟩ ∧
      H.published = G.published.applyAll (G.pending c p.fh) ∧ H.pending c p.fh = []

theorem tied_close {host : Host} {clock : SystemTime} (inv : Tied bs f σ file G) (own : HandlesOwn σ) (orderly : Orderly f (.close c host clock) σ)
    (closed : close c host clock σ = some τ) : ∃ file', Tied bs f τ file' (G.next bs f (.close c host clock) σ) ∧
      Evolves f (.close c host clock) σ τ file file' G (G.next bs f (.close c host clock) σ) := by
  cases underway : (σ.clients c).publishes f with
  | none =>
    obtain ⟨kept,same⟩ := tied_close_other inv own closed underway
    refine ⟨file,kept,.inl ⟨rfl,.refl _,same,?_⟩⟩
    intro c' host' clock' closed
    cases closed
    exact underway
  | some p =>
    obtain ⟨handle,done,next⟩ := @closed_of_close bs f σ τ file G c host clock inv.base own orderly closed p underway
    have emptied : (G.next bs f (.close c host clock) σ).pending c p.fh = [] := by
      rw [next,set_pending,if_pos rfl]
    have published : (G.next bs f (.close c host clock) σ).published = G.published.applyAll (G.pending c p.fh) := by
      rw [next]
      rfl
    refine ⟨_,⟨done.base inv.base,?_⟩,.inr ⟨c,host,clock,p,handle,rfl,done,rfl,published,emptied⟩⟩
    rcases inv.coherent with stuck | coherent
    · exact .inl (done.stuck inv.base stuck)
    · exact .inr (done.coherent inv.base coherent published emptied)

theorem next_published {label : Label} (unclosed : ∀ c host clock, label ≠ .close c host clock) :
    (G.next bs f label σ).published = G.published := by
  unfold History.next
  split
  · split <;> rfl
  · rfl
  · split
    · split
      · rfl
      · split
        · rfl
        · split <;> rfl
    · rfl
  next c host clock => exact absurd rfl (unclosed c host clock)
  · split
    · split <;> rfl
    · rfl
  · rfl

/-- Orderly but for what the stores answer where they are asked. -/
def Undamaged (f : InodeId) (label : Label) (σ : Cluster) : Prop :=
  (∀ c fh idx up, label ≠ .fetch c fh idx up) → (∀ c up, label ≠ .chunk c up) → Orderly f label σ

theorem Orderly.asked {label : Label} (orderly : Orderly f label σ) : AskedInSync bs f label σ := by
  intro calm handle idx up asks mine
  cases label with
  | fetch c fh i up' =>
    obtain ⟨file,_,same⟩ := Option.map_eq_some_iff.mp asks
    cases same
    exact (orderly calm).syncedAt idx
  | chunk c up' =>
    simp only [Dtmpfs.asked] at asks
    split at asks
    next fh offset data done _ =>
      obtain ⟨file,_,same⟩ := Option.map_eq_some_iff.mp asks
      cases same
      exact (orderly calm).syncedAt _
    next => cases asks
  | _ => cases asks

theorem tied_step (positive : 0 < bs) (tied : Tied bs f σ file G) (own : HandlesOwn σ) {label : Label} (undamaged : Undamaged f label σ)
    (sync : AskedInSync bs f label σ) (stepped : step bs label σ = some τ) :
    ∃ file', Tied bs f τ file' (G.next bs f label σ) ∧ Evolves f label σ τ file file' G (G.next bs f label σ) := by
  have stays {label : Label} (unclosed : ∀ c host clock, label ≠ .close c host clock) {H : History}
      (next : H = G.next bs f label σ) (kept : Tied bs f τ file H) :
      ∃ file', Tied bs f τ file' (G.next bs f label σ) ∧ Evolves f label σ τ file file' G (G.next bs f label σ) := by
    subst next
    exact ⟨file,kept,.inl ⟨rfl,.refl _,next_published unclosed,fun c host clock closed => absurd closed (unclosed c host clock)⟩⟩
  cases label with
  | call host request => exact stays nofun rfl (tied_call tied (undamaged nofun nofun) stepped)
  | create c host r flags => exact stays nofun rfl (tied_create tied (undamaged nofun nofun).1 stepped)
  | openRead c r => exact stays nofun rfl (tied_openRead tied stepped)
  | openInsert c => exact stays nofun rfl (tied_openInsert tied stepped)
  | fetch c fh idx up => exact stays nofun rfl (tied_fetch tied sync stepped)
  | write c fh offset data => exact stays nofun rfl (tied_write tied stepped)
  | chunk c up => exact stays nofun rfl (tied_chunk positive tied sync stepped)
  | publish c fh wait host =>
    obtain ⟨file',kept,same,grown⟩ := tied_publish tied (undamaged nofun nofun) stepped
    exact ⟨file',kept,.inl ⟨same,grown,rfl,nofun⟩⟩
  | send c idx => exact stays nofun rfl (tied_send tied stepped)
  | close c host clock => exact tied_close tied own (undamaged nofun nofun) stepped
  | abort c stray => exact stays nofun rfl (tied_abort tied (undamaged nofun nofun) stepped)
  | release c fh => exact stays nofun rfl (tied_release tied stepped)
  | evict c keep => exact stays nofun rfl (tied_evict tied stepped)
  | deliver message => exact stays nofun rfl (tied_deliver tied stepped)
  | lose message => exact stays nofun rfl (tied_lose tied stepped)
  | deliverDelete message => exact stays nofun rfl (tied_deliverDelete tied stepped)
  | loseDelete message => exact stays nofun rfl (tied_loseDelete tied stepped)
  | restart node => exact stays nofun rfl (tied_restart tied (Unused.notPrimary (undamaged nofun nofun)) stepped)

theorem Undamaged.left {label : Label} (undamaged : Undamaged f label σ) (draws : Draws label) : HandlesLeft σ.metadata := by
  cases label with
  | create c host r flags => exact (undamaged nofun nofun).2
  | openInsert c => exact undamaged nofun nofun
  | _ => exact draws.elim

/-- Reads may be answered by any store but where the block is as published and asked for. -/
theorem inv_step_asked (positive : 0 < bs) (inv : Inv bs f σ file G) {label : Label} (undamaged : Undamaged f label σ)
    (sync : AskedInSync bs f label σ) (stepped : step bs label σ = some τ) :
    ∃ file', Inv bs f τ file' (G.next bs f label σ) ∧ Evolves f label σ τ file file' G (G.next bs f label σ) := by
  obtain ⟨file',tied,evolves⟩ := tied_step positive inv.toTied inv.own undamaged sync stepped
  exact ⟨file',⟨tied,handlesOwn_step inv.own undamaged.left stepped⟩,evolves⟩

theorem inv_step (positive : 0 < bs) (inv : Inv bs f σ file G) {label : Label} (orderly : Orderly f label σ)
    (stepped : step bs label σ = some τ) :
    ∃ file', Inv bs f τ file' (G.next bs f label σ) ∧ Evolves f label σ τ file file' G (G.next bs f label σ) :=
  inv_step_asked positive inv (fun _ _ => orderly) orderly.asked stepped

/-- A publish with an acknowledged block was there before the step, or the step is
its `WriteBlock`. -/
theorem publishes_step {label : Label} (stepped : step bs label σ = some τ) {c' : ClientId} {q : Publish}
    (underway : (τ.clients c').publishes f = some q) :
    (σ.clients c').publishes f = some q ∨ (∀ idx, q.ackedAt idx = 0) ∨
      ∃ idx p, label = .send c' idx ∧ (σ.clients c').publishes f = some p ∧ q = p.ack idx := by
  obtain ⟨task,mine⟩ := publishes_some underway
  rcases step_task stepped task with before | busy
  · exact .inl (publishes_of before mine)
  · cases busy with
    | begun fh wait host handle blockMap found =>
      refine .inr (.inl ?_)
      intro idx
      simp [Publish.ackedAt]
    | sent idx p before => exact .inr (.inr ⟨idx,p,rfl,publishes_of before mine,rfl⟩)

/-- Whoever has written to a store after the step did so before, or does in it. -/
theorem acting_step {label : Label} (stepped : step bs label σ = some τ) {c' : ClientId} (acting : (τ.clients c').Acting f) :
    (σ.clients c').Acting f ∨ ∃ idx p, label = .send c' idx ∧ (σ.clients c').publishes f = some p := by
  obtain ⟨q,underway,idx,acked⟩ := acting
  rcases publishes_step stepped underway with old | none | ⟨sent,p,named,before,_⟩
  · exact .inl ⟨q,old,idx,acked⟩
  · rw [none idx] at acked
    cases acked
  · exact .inr ⟨sent,p,named,before⟩

/-- One writer at a time: a store executes a `WriteBlock` of the file only for a publish
of the current generation, while no other client has begun to write. -/
def Alone (f : InodeId) (label : Label) (σ : Cluster) : Prop :=
  match label with
  | .send c _ => ∀ p, (σ.clients c).publishes f = some p →
      (∀ file, σ.metadata.fileAt f = some file → p.generation = file.generation) ∧
      ∀ other, other ≠ c → ¬ (σ.clients other).Acting f
  | _ => True

theorem apart_step {label : Label} {file' : FileRecord} (apart : ¬ Stuck f σ file)
    (alive : σ.metadata.fileAt f = some file) (stepped : step bs label σ = some τ) (alone : Alone f label σ)
    (same : file'.generation = file.generation) : ¬ Stuck f τ file' := by
  intro stuck
  apply apart
  rcases stuck with ⟨c',q,underway,⟨idx,acked⟩,behind⟩ | ⟨first,second,differ,one,two⟩
  · rw [same] at behind
    rcases publishes_step stepped underway with old | none | ⟨sent,p,rfl,before,rfl⟩
    · exact .inl ⟨c',q,old,⟨idx,acked⟩,behind⟩
    · rw [none idx] at acked
      cases acked
    · exact absurd ((alone p before).1 file alive) behind
  · rcases acting_step stepped one with one | ⟨idx,p,rfl,before⟩
    · rcases acting_step stepped two with two | ⟨idx,p,rfl,before⟩
      · exact .inr ⟨first,second,differ,one,two⟩
      · exact absurd one ((alone p before).2 first differ)
    · rcases acting_step stepped two with two | ⟨_,_,named,_⟩
      · exact absurd two ((alone p before).2 second (Ne.symm differ))
      · cases named
        exact absurd rfl differ

/-- With one writer at a time no publish gets stuck. -/
theorem apart_evolves {label : Label} {file' : FileRecord} (inv : Inv bs f σ file G) (apart : ¬ Stuck f σ file)
    (stepped : step bs label σ = some τ) (alone : Alone f label σ) (evolves : Evolves f label σ τ file file' G H) :
    ¬ Stuck f τ file' := by
  rcases evolves with ⟨same,_⟩ | ⟨c,host,clock,p,handle,_,closed,rfl,_⟩
  · exact apart_step apart inv.base.alive stepped alone same
  · have idle := closed.idle inv.base (inv.coherent.resolve_left apart)
    intro stuck
    rcases stuck with ⟨other,q,underway,acked,_⟩ | ⟨other,_,_,acting,_⟩
    · exact idle other ⟨q,underway,acked⟩
    · exact idle other acting

end Dtmpfs
