import Dtmpfs.Coherence

/-! Every orderly step keeps the invariant of a file. -/
namespace Dtmpfs
open MetaService MetaState FlatFile OrderedMap Cluster

variable {bs : Nat} {f : InodeId} {σ τ : Cluster} {file : FileRecord} {G H : History} {c : ClientId}

/-- Outside the clients, nothing of file `f` has changed but replica slots. -/
structure Frame (f : InodeId) (σ τ : Cluster) (file : FileRecord) : Prop where
  record : τ.metadata.fileAt f = σ.metadata.fileAt f
  nodes : NodesKept σ.metadata τ.metadata
  primary : ∀ (idx : BlockIdx) (placement : BlockPlacement), file.blocks[idx]? = some placement →
    τ.slot placement.primary f idx = σ.slot placement.primary f idx
  vacant : ∀ (node : NodeId) (idx : BlockIdx), file.blocks[idx]? = none → σ.slot node f idx = none →
    τ.slot node f idx = none
  writes : ∀ m ∈ τ.writes, m.key.ino = f → m ∈ σ.writes
  deletes : ∀ d ∈ τ.deletes, d.key.ino = f → d ∈ σ.deletes

theorem Frame.of_eq (metadata : τ.metadata = σ.metadata) (stores : τ.stores = σ.stores) (writes : τ.writes = σ.writes)
    (deletes : τ.deletes = σ.deletes) : Frame f σ τ file := by
  have slots (node : NodeId) (idx : BlockIdx) : τ.slot node f idx = σ.slot node f idx := by simp only [slot,stores]
  refine ⟨by rw [metadata],metadata ▸ .of_eq rfl rfl,fun idx placement _ => slots _ _,?_,?_,?_⟩
  · intro node idx _ empty
    rw [slots,empty]
  · intro m waiting _
    exact writes ▸ waiting
  · intro d waiting _
    exact deletes ▸ waiting

theorem WellPlaced.mono {s t : MetaState} {placement : BlockPlacement} (placed : WellPlaced s placement)
    (nodes : NodesKept s t) : WellPlaced t placement :=
  ⟨placed.apart,placed.distinct,fun node listed => nodes.registered node (placed.registered node listed)⟩

theorem Base.frame (base : Base f σ file) (frame : Frame f σ τ file) (known : ∀ c, Known f file (τ.clients c)) :
    Base f τ file where
  alive := frame.record.trans base.alive
  clients := known
  placed idx placement found := (base.placed idx placement found).mono frame.nodes
  messages m waiting mine := base.messages m (frame.writes m waiting mine) mine
  deletes d waiting mine := base.deletes d (frame.deletes d waiting mine) mine
  vacant node idx unplaced := frame.vacant node idx unplaced (base.vacant node idx unplaced)
  filed := frame.nodes.filed base.filed
  factor := frame.nodes.factor ▸ base.factor

/-- The client is in the middle of the same publishes of `f` that have written. -/
def SameActing (f : InodeId) (client client' : Client) : Prop :=
  ∀ p, (∃ idx, 0 < p.ackedAt idx) → (client'.publishes f = some p ↔ client.publishes f = some p)

theorem SameActing.of_eq {client client' : Client} (same : client'.publishes f = client.publishes f) :
    SameActing f client client' := fun p _ => by rw [same]

theorem SameActing.acting {client client' : Client} (same : SameActing f client client') :
    client'.Acting f ↔ client.Acting f :=
  ⟨fun ⟨p,underway,wrote⟩ => ⟨p,(same p wrote).mp underway,wrote⟩,
    fun ⟨p,underway,wrote⟩ => ⟨p,(same p wrote).mpr underway,wrote⟩⟩

/-- Steps that neither begin nor end a publish that has written. -/
theorem Tied.frame (inv : Tied bs f σ file G) (frame : Frame f σ τ file) (known : ∀ c, Known f file (τ.clients c))
    (publishes : ∀ c, SameActing f (σ.clients c) (τ.clients c)) (published : H.published = G.published)
    (tracks : Coherent bs f σ file G → ∀ c, Tracks bs f file G.published (H.pending c) (τ.clients c)
      (∀ c', c' ≠ c → ¬ (σ.clients c').Acting f) (Calm f σ)) :
    Tied bs f τ file H := by
  have acting (c : ClientId) := (publishes c).acting
  refine ⟨inv.base.frame frame known,?_⟩
  rcases inv.coherent with stuck | coherent
  · left
    rcases stuck with ⟨c,p,underway,wrote,behind⟩ | ⟨c,c',apart,first,second⟩
    · exact .inl ⟨c,p,(publishes c p wrote).mpr underway,wrote,behind⟩
    · exact .inr ⟨c,c',apart,(acting c).mpr first,(acting c').mpr second⟩
  · right
    have kept := tracks coherent
    refine ⟨published ▸ coherent.size,?_,?_,published ▸ coherent.unplaced,?_,?_,?_⟩
    · intro c c' first second
      exact coherent.single c c' ((acting c).mp first) ((acting c').mp second)
    · intro c p underway wrote
      exact coherent.current c p ((publishes c p wrote).mp underway) wrote
    · intro idx placement placed c p data underway wrote dirty
      rw [frame.primary idx placement placed]
      exact coherent.written idx placement placed c p data ((publishes c p ⟨idx,wrote⟩).mp underway) wrote dirty
    · intro idx placement placed untouched
      rw [frame.primary idx placement placed,published]
      refine coherent.shown idx placement placed ?_
      intro c p underway
      by_contra wrote
      have acted : ∃ idx, 0 < p.ackedAt idx := ⟨idx,Nat.pos_of_ne_zero wrote⟩
      exact wrote (untouched c p ((publishes c p acted).mpr underway))
    · intro c
      simp only [Calm,acting,published]
      exact kept c

theorem Tied.around (inv : Tied bs f σ file G) (frame : Frame f σ τ file) (clients : τ.clients = σ.clients) :
    Tied bs f τ file G := by
  refine inv.frame frame ?_ ?_ rfl ?_
  · intro c
    exact clients ▸ inv.base.clients c
  · intro c
    exact .of_eq (by rw [clients])
  · intro coherent c
    exact clients ▸ coherent.tracks c

/-- Steps of client `c` alone. -/
theorem Tied.local_ (inv : Tied bs f σ file G) (frame : Frame f σ τ file)
    (others : ∀ c', c' ≠ c → τ.clients c' = σ.clients c') (known : Known f file (τ.clients c))
    (publishes : SameActing f (σ.clients c) (τ.clients c)) (published : H.published = G.published)
    (pending : ∀ c', c' ≠ c → H.pending c' = G.pending c')
    (tracks : Coherent bs f σ file G → Tracks bs f file G.published (H.pending c) (τ.clients c)
      (∀ c', c' ≠ c → ¬ (σ.clients c').Acting f) (Calm f σ)) :
    Tied bs f τ file H := by
  refine inv.frame frame ?_ ?_ published ?_
  · intro c'
    rcases Classical.em (c' = c) with same | apart
    · exact same ▸ known
    · exact others c' apart ▸ inv.base.clients c'
  · intro c'
    rcases Classical.em (c' = c) with same | apart
    · exact same ▸ publishes
    · exact .of_eq (by rw [others c' apart])
  · intro coherent c'
    rcases Classical.em (c' = c) with same | apart
    · exact same ▸ tracks coherent
    · rw [others c' apart,pending c' apart]
      exact coherent.tracks c'

theorem slot_setStore (σ : Cluster) (node other : NodeId) (store : StoreState) (f : InodeId) (idx : BlockIdx) :
    (σ.setStore node store).slot other f idx =
      if other = node then store.blocks[(⟨f,idx,0⟩ : BlockKey)]? else σ.slot other f idx := by
  simp only [slot,setStore]
  split <;> rfl

section Messages

theorem tied_call {host : Host} {request : Call} (inv : Tied bs f σ file G)
    (spared : Spares f request σ.metadata) (served : call host request σ = some τ) : Tied bs f τ file G := by
  obtain ⟨plain,rfl⟩ := call_steps served
  obtain ⟨record,_,nodes,others⟩ := serve_spares host request σ.metadata plain spared
  refine inv.around ⟨record,nodes,fun _ _ _ => rfl,fun _ _ _ empty => empty,fun m waiting _ => waiting,?_⟩ rfl
  intro d waiting mine
  rcases List.mem_append.mp waiting with old | new
  · exact old
  · exact absurd mine (others d new)

theorem tied_deliver {message : WriteBlock} (inv : Tied bs f σ file G) (delivered : deliver message σ = some τ) :
    Tied bs f τ file G := by
  obtain ⟨waiting,store,written,rfl⟩ := deliver_steps delivered
  have elsewhere (node : NodeId) (idx : BlockIdx) (away : node = message.node → (⟨f,idx,0⟩ : BlockKey) ≠ message.key) :
      (σ.setStore message.node store).slot node f idx = σ.slot node f idx := by
    rw [slot_setStore]
    split
    next here =>
      rcases written with rfl | rfl
      · simp only [slot,here]
      · rw [StoreState.insertBlock_get,if_neg (away here).symm]
        simp only [slot,here]
    next => rfl
  refine inv.around ⟨rfl,.of_eq rfl rfl,?_,?_,?_,fun d still _ => still⟩ rfl
  · intro idx placement placed
    refine elsewhere placement.primary idx ?_
    intro here same
    have mine : message.key.ino = f := by rw [← same]
    obtain ⟨_,placement',placed',replica⟩ := inv.base.messages message waiting mine
    have index : message.key.blockIdx = idx := by rw [← same]
    rw [index,placed] at placed'
    cases placed'
    exact (inv.base.placed idx placement placed).apart (here ▸ replica)
  · intro node idx unplaced empty
    refine (elsewhere node idx ?_).trans empty
    intro here same
    have mine : message.key.ino = f := by rw [← same]
    obtain ⟨_,placement',placed',_⟩ := inv.base.messages message waiting mine
    have index : message.key.blockIdx = idx := by rw [← same]
    rw [index,unplaced] at placed'
    cases placed'
  · intro m still _
    exact List.mem_of_mem_erase still

theorem tied_lose {message : WriteBlock} (inv : Tied bs f σ file G) (lost : lose message σ = some τ) :
    Tied bs f τ file G := by
  obtain ⟨_,rfl⟩ := lose_steps lost
  refine inv.around ⟨rfl,.of_eq rfl rfl,fun _ _ _ => rfl,fun _ _ _ empty => empty,?_,fun d still _ => still⟩ rfl
  intro m still _
  exact List.mem_of_mem_erase still

theorem tied_deliverDelete {message : DeleteBlock} (inv : Tied bs f σ file G)
    (delivered : deliverDelete message σ = some τ) : Tied bs f τ file G := by
  obtain ⟨waiting,rfl⟩ := deliverDelete_steps delivered
  have foreign := inv.base.deletes message waiting
  have elsewhere (node : NodeId) (idx : BlockIdx) :
      (σ.setStore message.node ((σ.stores message.node).deleteBlock message.key)).slot node f idx = σ.slot node f idx := by
    rw [slot_setStore]
    split
    next here =>
      have away : message.key ≠ ⟨f,idx,0⟩ := fun same => foreign (by rw [same])
      rw [StoreState.deleteBlock_get,if_neg away]
      simp only [slot,here]
    next => rfl
  refine inv.around ⟨rfl,.of_eq rfl rfl,fun idx placement _ => elsewhere _ _,?_,fun m still _ => still,?_⟩ rfl
  · intro node idx _ empty
    exact (elsewhere node idx).trans empty
  · intro d still _
    exact List.mem_of_mem_erase still

theorem tied_loseDelete {message : DeleteBlock} (inv : Tied bs f σ file G) (lost : loseDelete message σ = some τ) :
    Tied bs f τ file G := by
  obtain ⟨_,rfl⟩ := loseDelete_steps lost
  refine inv.around ⟨rfl,.of_eq rfl rfl,fun _ _ _ => rfl,fun _ _ _ empty => empty,fun m still _ => still,?_⟩ rfl
  intro d still _
  exact List.mem_of_mem_erase still

/-- No block of `f` has its primary on `node`. -/
def NotPrimary (f : InodeId) (node : NodeId) (s : MetaState) : Prop :=
  ∀ file ∈ s.fileAt f, ∀ entry ∈ file.blocks.toList, entry.2.primary ≠ node

instance (f : InodeId) (node : NodeId) (s : MetaState) : Decidable (NotPrimary f node s) :=
  inferInstanceAs (Decidable (∀ file ∈ s.fileAt f, ∀ entry ∈ file.blocks.toList, entry.2.primary ≠ node))

theorem Unused.notPrimary {node : NodeId} {s : MetaState} (unused : Unused f node s) : NotPrimary f node s := by
  intro file alive entry member same
  exact unused file alive entry member (same ▸ List.mem_cons_self)

theorem tied_restart {node : NodeId} (inv : Tied bs f σ file G) (spared : NotPrimary f node σ.metadata)
    (restarted : restart node σ = some τ) : Tied bs f τ file G := by
  cases Option.some.inj restarted
  refine inv.around ⟨rfl,.of_eq rfl rfl,?_,?_,fun m still _ => still,fun d still _ => still⟩ rfl
  · intro idx placement placed
    rw [slot_setStore]
    have member := Std.ExtTreeMap.mem_toList_iff_getElem?_eq_some.mpr placed
    rw [if_neg (spared file inv.base.alive (idx,placement) member)]
  · intro other idx _ empty
    rw [slot_setStore]
    split
    · simp [StoreState.new]
    · exact empty

end Messages

section Clients

/-- A step that replaces one client and nothing else. -/
theorem Tied.client (inv : Tied bs f σ file G) (client : Client) (known : Known f file client)
    (publishes : SameActing f (σ.clients c) client) (published : H.published = G.published)
    (pending : ∀ c', c' ≠ c → H.pending c' = G.pending c')
    (tracks : Coherent bs f σ file G → Tracks bs f file G.published (H.pending c) client
      (∀ c', c' ≠ c → ¬ (σ.clients c').Acting f) (Calm f σ)) :
    Tied bs f (σ.setClient c client) file H := by
  have here : (σ.setClient c client).clients c = client := setClient_same σ c client
  refine inv.local_ (.of_eq rfl rfl rfl rfl) (fun c' apart => setClient_other σ client apart) ?_ ?_ published pending ?_
  · rw [here]
    exact known
  · rw [here]
    exact publishes
  · intro coherent
    rw [here]
    exact tracks coherent

/-- The nodes tell of a block that no publish in progress has written what is published
of it, if the one that answers is in sync. -/
theorem answered_image {up : NodeId → Bool} {idx : BlockIdx} (base : Base f σ file) (coherent : Coherent bs f σ file G)
    (untouched : ∀ c p, (σ.clients c).publishes f = some p → p.ackedAt idx = 0) (synced : SyncedAt f up idx σ)
    {known : Map BlockIdx BlockPlacement} (agrees : Agrees known file.blocks) {placement : BlockPlacement}
    (placed : known[idx]? = some placement) (last : DtmpfsError) (bytes : Bytes) (cached : Bool)
    (asked : OpenFile.tryNodes bs (σ.answer up f idx) placement.nodes last = .ok (bytes,cached)) :
    Shows bs G.published idx bytes := by
  have recorded := agrees idx placement placed
  obtain ⟨node,found,answered⟩ := tryNodes_answer placement.nodes last asked
  have same := synced file base.alive placement recorded node found
  have shown := coherent.shown idx placement recorded untouched
  rw [← same] at shown
  rcases answered with held | ⟨empty,rfl⟩
  · rw [held] at shown
    exact shown
  · rw [empty] at shown
    exact Blank.shows shown

theorem Calm.untouched (calm : Calm f σ) (idx : BlockIdx) (c : ClientId) (p : Publish) (underway : (σ.clients c).publishes f = some p) :
    p.ackedAt idx = 0 := by
  by_contra some_
  exact calm c ⟨p,underway,idx,Nat.pos_of_ne_zero some_⟩

theorem InSync.syncedAt {up : NodeId → Bool} (sync : InSync f up σ) (idx : BlockIdx) : SyncedAt f up idx σ := by
  intro record alive placement placed
  exact sync record alive (idx,placement) (Std.ExtTreeMap.mem_toList_iff_getElem?_eq_some.mpr placed)

theorem answered_shows {up : NodeId → Bool} (base : Base f σ file) (coherent : Coherent bs f σ file G)
    (calm : Calm f σ) (sync : InSync f up σ) {known : Map BlockIdx BlockPlacement}
    (agrees : Agrees known file.blocks) (idx : BlockIdx) (placement : BlockPlacement) (placed : known[idx]? = some placement)
    (last : DtmpfsError) (bytes : Bytes) (cached : Bool)
    (asked : OpenFile.tryNodes bs (σ.answer up f idx) placement.nodes last = .ok (bytes,cached)) :
    Shows bs G.published idx bytes :=
  answered_image base coherent (calm.untouched idx) (sync.syncedAt idx) agrees placed last bytes cached asked

theorem fetched_cache {client : Client} {handle : OpenFile} {up : NodeId → Bool} {idx : BlockIdx} (calm : Prop)
    (known : Known f file client) (held : client.Holds handle)
    (answered : calm → handle.ino = f → handle.asks idx client.blockCache = true → ∀ placement bytes,
      handle.blockMap[idx]? = some placement →
      OpenFile.tryNodes bs (σ.answer up handle.ino idx) placement.nodes (.storeUnavailable placement.primary) =
        .ok (bytes,true) → Shows bs G.published idx bytes)
    (caches : calm → ∀ (key : BlockKey) (bytes : Bytes), client.blockCache[key]? = some bytes → key.ino = f →
      key.generation = file.generation → Shows bs G.published key.blockIdx bytes)
    (key : BlockKey) (bytes : Bytes)
    (found : (handle.fetchBlock bs (σ.answer up handle.ino) idx client.blockCache).2[key]? = some bytes) (mine : key.ino = f) :
    key.generation ≤ file.generation ∧
      (calm → key.generation = file.generation → Shows bs G.published key.blockIdx bytes) := by
  have before (old : client.blockCache[key]? = some bytes) : key.generation ≤ file.generation ∧
      (calm → key.generation = file.generation → Shows bs G.published key.blockIdx bytes) :=
    ⟨known.cached key bytes old mine,fun calm current => caches calm key bytes old mine current⟩
  rcases Classical.em (handle.asks idx client.blockCache = true) with asks | silent
  · rcases OpenFile.fetchBlock_cache bs (σ.answer up handle.ino) handle idx client.blockCache with
      same | ⟨placement,data,placed,told,filled⟩
    · rw [same] at found
      exact before found
    · rw [filled,get_insert] at found
      split at found
      next same =>
        cases found
        subst same
        exact ⟨(known.held handle held mine).1,fun calm _ => answered calm mine asks placement bytes placed told⟩
      next => exact before found
  · rw [OpenFile.fetchBlock_silent silent] at found
    exact before found

theorem tied_evict {keep : BlockKey → Bool} (inv : Tied bs f σ file G) (evicted : evict c keep σ = some τ) :
    Tied bs f τ file G := by
  cases Option.some.inj evicted
  have known := inv.base.clients c
  have old (key : BlockKey) (bytes : Bytes)
      (found : ((σ.clients c).blockCache.filter (fun key _ => keep key))[key]? = some bytes) :
      (σ.clients c).blockCache[key]? = some bytes := by
    rw [get_filter,Option.filter_eq_some_iff] at found
    exact found.1
  refine inv.client _ ⟨known.held,fun key bytes found => known.cached key bytes (old key bytes found),?_⟩ (.of_eq rfl) rfl
    (fun _ _ => rfl) ?_
  · intro p task
    obtain ⟨handle,some_,placed,acked⟩ := known.publishing p task
    exact ⟨handle,some_,placed,acked⟩
  · intro coherent
    have tracks := coherent.tracks c
    exact ⟨tracks.covers,tracks.sizes,tracks.fresh,tracks.drafts,
      fun calm key bytes found => tracks.caches calm key bytes (old key bytes found)⟩

theorem asked_fetch {fh : Fh} {idx : BlockIdx} {up : NodeId → Bool} {handle : OpenFile}
    (found : (σ.clients c).openFiles[fh]? = some handle) (asks : handle.asks idx (σ.clients c).blockCache = true) :
    asked bs (.fetch c fh idx up) σ = some (handle,idx,up) := by
  simp only [asked,found,Option.filter_some,asks,if_true,Option.map_some]

theorem tied_fetch {fh : Fh} {idx : BlockIdx} {up : NodeId → Bool} (inv : Tied bs f σ file G)
    (sync : AskedInSync bs f (.fetch c fh idx up) σ) (fetched : fetch bs c fh idx up σ = some τ) : Tied bs f τ file G := by
  obtain ⟨handle,idle,found,rfl⟩ := fetch_steps fetched
  have known := inv.base.clients c
  have held : (σ.clients c).Holds handle := .inl ⟨fh,found⟩
  refine inv.client _ ⟨known.held,?_,?_⟩ (.of_eq rfl) rfl (fun _ _ => rfl) ?_
  · intro key bytes cached mine
    exact (fetched_cache (G := G) False known held nofun nofun key bytes cached mine).1
  · intro p task
    rw [idle] at task
    cases task
  · intro coherent
    have tracks := coherent.tracks c
    refine ⟨tracks.covers,tracks.sizes,tracks.fresh,tracks.drafts,?_⟩
    intro calm key bytes cached mine current
    refine (fetched_cache (Calm f σ) known held ?_ tracks.caches key bytes cached mine).2 calm current
    intro calm mine asks placement data placed told
    rw [mine] at told
    have synced := sync calm handle idx up (asked_fetch found asks) mine
    exact answered_image inv.base coherent (calm.untouched idx) synced (known.held handle held mine).2 placed _ data true told

theorem tied_release {fh : Fh} (inv : Tied bs f σ file G) (released : release c fh σ = some τ) : Tied bs f τ file G := by
  obtain ⟨idle,rfl⟩ := release_steps released
  have known := inv.base.clients c
  have old (fh' : Fh) (handle : OpenFile) (found : ((σ.clients c).openFiles.erase fh)[fh']? = some handle) :
      (σ.clients c).openFiles[fh']? = some handle := by
    rw [get_erase] at found
    split at found
    · cases found
    · exact found
  have holds (handle : OpenFile) (held : Client.Holds {σ.clients c with openFiles := (σ.clients c).openFiles.erase fh} handle) :
      (σ.clients c).Holds handle := by
    rcases held with ⟨fh',found⟩ | opening
    · exact .inl ⟨fh',old fh' handle found⟩
    · exact .inr opening
  refine inv.client _ ⟨fun handle held => known.held handle (holds handle held),known.cached,?_⟩ (.of_eq rfl) rfl
    (fun _ _ => rfl) ?_
  · intro p task
    rw [idle] at task
    cases task
  · intro coherent
    have tracks := coherent.tracks c
    exact ⟨fun handle held => tracks.covers handle (holds handle held),
      fun fh' handle found => tracks.sizes fh' handle (old fh' handle found),tracks.fresh,
      fun quiet fh' handle found => tracks.drafts quiet fh' handle (old fh' handle found),tracks.caches⟩

theorem tied_write {fh : Fh} {offset : Nat} {data : Bytes} (inv : Tied bs f σ file G)
    (written : write c fh offset data σ = some τ) : Tied bs f τ file G := by
  obtain ⟨handle,idle,found,_,rfl⟩ := write_steps written
  have known := inv.base.clients c
  have holds (handle : OpenFile)
      (held : Client.Holds {σ.clients c with task := some (.writing fh offset data 0)} handle) :
      (σ.clients c).Holds handle := by
    rcases held with opened | ⟨_,task,_⟩
    · exact .inl opened
    · cases task
  have silent : (σ.clients c).publishes f = none := by simp only [Client.publishes,idle]
  refine inv.client _ ⟨fun handle held => known.held handle (holds handle held),known.cached,nofun⟩ (.of_eq silent.symm) rfl
    (fun _ _ => rfl) ?_
  intro coherent
  have tracks := coherent.tracks c
  refine ⟨fun handle held => tracks.covers handle (holds handle held),tracks.sizes,nofun,?_,tracks.caches⟩
  intro quiet fh' handle opened mine current
  have drafted := tracks.drafts quiet fh' handle opened mine current
  rw [Client.inFlight_none (by simp [idle]),List.append_nil,Client.dirtyOf_own (by simp [idle])] at drafted
  rw [Client.dirtyOf_own (by simp)]
  refine drafted.congr ?_
  simp only [Client.inFlight]
  split
  · rw [Flat.applyAll_concat]
    exact (Flat.byte_apply_nil _ _ _).symm
  · rw [List.append_nil]

theorem tied_openRead {r : OpenReq} (inv : Tied bs f σ file G) (opened : openRead c r σ = some τ) :
    Tied bs f τ file G := by
  obtain ⟨idle,rfl | ⟨snapshot,read,rfl⟩⟩ := openRead_steps opened
  · exact inv
  · have known := inv.base.clients c
    obtain ⟨record,alive,ino,_,generation,size,blocks⟩ := openRead_ok read
    have mine (same : snapshot.ino = f) : record = file := by
      rw [← ino,same,inv.base.alive] at alive
      exact (Option.some.inj alive).symm
    have silent : (σ.clients c).publishes f = none := by simp only [Client.publishes,idle]
    refine inv.client _ ⟨?_,known.cached,nofun⟩ (.of_eq silent.symm) rfl (fun _ _ => rfl) ?_
    · intro handle held same
      rcases held with opened | ⟨_,task,rfl⟩
      · exact known.held handle (.inl opened) same
      · cases task
        cases mine same
        refine ⟨Nat.le_of_eq generation,?_⟩
        rw [← blocks]
        exact .refl _
    · intro coherent
      have tracks := coherent.tracks c
      refine ⟨?_,tracks.sizes,?_,?_,tracks.caches⟩
      · intro handle held same current idx unplaced
        rcases held with opened | ⟨_,task,rfl⟩
        · exact tracks.covers handle (.inl opened) same current idx unplaced
        · cases task
          cases mine same
          refine coherent.unplaced idx ?_
          rw [← blocks]
          exact unplaced
      · intro snapshot' task same _
        cases task
        cases mine same
        exact size.trans coherent.size
      · intro quiet fh' handle opened same current
        have drafted := tracks.drafts quiet fh' handle opened same current
        rw [Client.inFlight_none (by simp [idle]),Client.dirtyOf_own (by simp [idle])] at drafted
        rw [Client.inFlight_none (by simp),Client.dirtyOf_own (by simp)]
        exact drafted

theorem set_other (G : History) (c : ClientId) (fh : Fh) (patches : List Patch) (c' : ClientId) (apart : c' ≠ c) :
    (G.set c fh patches).pending c' = G.pending c' := by
  funext fh'
  simp only [History.set,apart,false_and,if_false]

theorem set_pending (G : History) (c : ClientId) (fh fh' : Fh) (patches : List Patch) :
    (G.set c fh patches).pending c fh' = if fh' = fh then patches else G.pending c fh' := by
  simp only [History.set,true_and]

theorem installed_get (client : Client) (fh fh' : Fh) (new handle : OpenFile)
    (found : (installed client fh new).openFiles[fh']? = some handle) :
    (fh' = fh ∧ handle = new) ∨ (fh' ≠ fh ∧ client.openFiles[fh']? = some handle) := insert_some found

theorem Known.installed {client : Client} (known : Known f file client) (fh : Fh) (new : OpenFile)
    (fits : new.ino = f → new.generation ≤ file.generation ∧ Agrees new.blockMap file.blocks) :
    Known f file (installed client fh new) := by
  refine ⟨?_,known.cached,nofun⟩
  intro handle held mine
  rcases held with ⟨fh',found⟩ | ⟨_,task,_⟩
  · rcases installed_get client fh fh' new handle found with ⟨_,rfl⟩ | ⟨_,old⟩
    · exact fits mine
    · exact known.held handle (.inl ⟨fh',old⟩) mine
  · cases task

theorem Tracks.installed {F : Flat} {client : Client} {quiet calm : Prop} (tracks : Tracks bs f file F (G.pending c) client quiet calm)
    (fh : Fh) (new : OpenFile) (unwriting : ∀ fh offset data done, client.task ≠ some (.writing fh offset data done))
    (unpublishing : ∀ p, client.task ≠ some (.publishing p)) (empty : ∀ idx : BlockIdx, new.dirty[idx]? = none)
    (fits : new.ino = f → new.generation = file.generation →
      (∀ idx : BlockIdx, new.blockMap[idx]? = none → Blank bs F idx) ∧ new.sizeHint = F.size) :
    Tracks bs f file F ((G.set c fh []).pending c) (installed client fh new) quiet calm := by
  refine ⟨?_,?_,nofun,?_,tracks.caches⟩
  · intro handle held mine current
    rcases held with ⟨fh',found⟩ | ⟨_,task,_⟩
    · rcases installed_get client fh fh' new handle found with ⟨_,rfl⟩ | ⟨_,old⟩
      · exact (fits mine current).1
      · exact tracks.covers handle (.inl ⟨fh',old⟩) mine current
    · cases task
  · intro fh' handle found mine current
    rw [set_pending]
    rcases installed_get client fh fh' new handle found with ⟨same,rfl⟩ | ⟨apart,old⟩
    · rw [if_pos same]
      exact (fits mine current).2
    · rw [if_neg apart]
      exact tracks.sizes fh' handle old mine current
  · intro quiet fh' handle found mine current
    rw [set_pending]
    rcases installed_get client fh fh' new handle found with ⟨same,rfl⟩ | ⟨apart,old⟩
    · rw [if_pos same]
      have dirty : (Cluster.installed client fh handle).dirtyOf fh' handle = fun _ => none := by
        funext idx
        exact empty idx
      rw [dirty]
      exact .none F
    · rw [if_neg apart]
      have drafted := tracks.drafts quiet fh' handle old mine current
      rw [Client.inFlight_none unwriting,Client.dirtyOf_own unpublishing] at drafted
      rw [Client.inFlight_none (by simp [Cluster.installed]),Client.dirtyOf_own (by simp [Cluster.installed])]
      exact drafted

theorem tied_openInsert (inv : Tied bs f σ file G) (opened : openInsert c σ = some τ) :
    Tied bs f τ file (G.set c σ.metadata.nextFh []) := by
  obtain ⟨snapshot,task,rfl⟩ := openInsert_steps opened
  have known := inv.base.clients c
  have held : (σ.clients c).Holds (snapshotFile snapshot) := .inr ⟨snapshot,task,rfl⟩
  have silent : (σ.clients c).publishes f = none := by simp only [Client.publishes,task]
  have moved : Tied bs f {σ with metadata := (MetaService.openInsert snapshot σ.metadata).2} file G :=
    inv.around ⟨rfl,.of_eq rfl rfl,fun _ _ _ => rfl,fun _ _ _ empty => empty,fun m still _ => still,fun d still _ => still⟩ rfl
  refine moved.client _ (known.installed _ _ (known.held _ held)) (.of_eq silent.symm) rfl (set_other G c _ _) ?_
  intro coherent
  refine (coherent.tracks c).installed _ _ (by simp [task]) (by simp [task]) ?_ ?_
  · intro idx
    simp [snapshotFile,buildOpenFile]
  · intro mine current
    exact ⟨(coherent.tracks c).covers _ held mine current,(coherent.tracks c).fresh snapshot task mine current⟩

theorem tied_create {host : Host} {r : CreateReq} {flags : Nat} (inv : Tied bs f σ file G)
    (spared : σ.metadata.nextIno ≠ f) (made : create c host r flags σ = some τ) :
    Tied bs f τ file (G.next bs f (.create c host r flags) σ) := by
  obtain ⟨idle,⟨rfl,fault,failed⟩ | ⟨replied,rfl⟩⟩ := create_steps made
  · simp only [History.next,failed]
    exact inv
  · simp only [History.next,replied]
    have known := inv.base.clients c
    have silent : (σ.clients c).publishes f = none := by simp only [Client.publishes,idle]
    have moved : Tied bs f {σ with metadata := (MetaService.create host r σ.metadata).state} file G := by
      refine inv.around ⟨?_,?_,fun _ _ _ => rfl,fun _ _ _ empty => empty,fun m still _ => still,fun d still _ => still⟩ rfl
      · rcases create_cases host r σ.metadata with ⟨_,_,failed⟩ | ⟨dir,_,_,served⟩
        · rw [failed]
        · rw [served]
          refine fileAt_congr ?_
          simp only [created,get_insert,if_neg spared]
      · rcases create_cases host r σ.metadata with ⟨_,_,failed⟩ | ⟨dir,_,_,served⟩
        · rw [failed]
          exact .of_eq rfl rfl
        · rw [served]
          exact .of_eq rfl rfl
    refine moved.client _ (known.installed _ _ (fun mine => absurd mine spared)) (.of_eq silent.symm) rfl (set_other G c _ _) ?_
    intro coherent
    refine (coherent.tracks c).installed _ _ (by simp [idle]) (by simp [idle]) ?_ (fun mine => absurd mine spared)
    intro idx
    simp [buildOpenFile]

end Clients

section Writing

/-- The bytes of a write after one more round. -/
theorem byte_partWay (F : Flat) (offset extent : Nat) (data : Bytes) (done : Nat) :
    ((F.apply (History.partWay offset data done)).apply ⟨offset + done,OpenFile.chunkOf bs offset data done,extent⟩).byte =
      (F.apply (History.partWay offset data (done + (OpenFile.chunkOf bs offset data done).length))).byte := by
  rcases Nat.lt_or_ge data.length done with past | within
  · have none : OpenFile.chunkOf bs offset data done = [] := by
      rw [← List.length_eq_zero_iff,OpenFile.chunkOf_length]
      omega
    rw [none,Flat.byte_apply_nil]
    rfl
  · have first : (data.take done).length = done := List.length_take_of_le within
    have joined : data.take done ++ OpenFile.chunkOf bs offset data done =
        data.take (done + (OpenFile.chunkOf bs offset data done).length) := by
      rw [List.take_add,OpenFile.chunkOf_length]
      rfl
    have bytes := Flat.byte_apply_apply F offset 0 extent 0 (data.take done) (OpenFile.chunkOf bs offset data done)
    rw [first,joined] at bytes
    exact bytes

theorem chunk_cache {client : Client} {handle : OpenFile} {up : NodeId → Bool} (positive : 0 < bs) (calm : Prop)
    (known : Known f file client) (held : client.Holds handle) {offset : Nat} {data : Bytes} {done : Nat}
    (answered : calm → handle.ino = f → (OpenFile.chunkOf bs offset data done).length ≠ bs →
      handle.asks ((offset + done) / bs) client.blockCache = true → ∀ placement bytes,
      handle.blockMap[(offset + done) / bs]? = some placement →
      OpenFile.tryNodes bs (σ.answer up handle.ino ((offset + done) / bs)) placement.nodes (.storeUnavailable placement.primary) =
        .ok (bytes,true) → Shows bs G.published ((offset + done) / bs) bytes)
    (caches : calm → ∀ (key : BlockKey) (bytes : Bytes), client.blockCache[key]? = some bytes → key.ino = f →
      key.generation = file.generation → Shows bs G.published key.blockIdx bytes)
    (key : BlockKey) (bytes : Bytes)
    (found : (handle.writeChunk bs (σ.answer up handle.ino) offset data done client.blockCache).2[key]? = some bytes)
    (mine : key.ino = f) :
    key.generation ≤ file.generation ∧
      (calm → key.generation = file.generation → Shows bs G.published key.blockIdx bytes) := by
  have before (old : client.blockCache[key]? = some bytes) : key.generation ≤ file.generation ∧
      (calm → key.generation = file.generation → Shows bs G.published key.blockIdx bytes) :=
    ⟨known.cached key bytes old mine,fun calm current => caches calm key bytes old mine current⟩
  rcases Classical.em ((OpenFile.chunkOf bs offset data done).length = bs) with whole | part
  · rw [OpenFile.writeChunk_whole positive whole] at found
    exact before found
  · rcases (OpenFile.writeChunk_cases bs (σ.answer up handle.ino) handle offset data done client.blockCache).1 with same | fetched
    · rw [same] at found
      exact before found
    · rw [fetched] at found
      exact fetched_cache calm known held (fun calm mine => answered calm mine part) caches key bytes found mine

/-- The handle is the same up to dirty blocks and size hint. -/
structure SameHandle (handle handle' : OpenFile) : Prop where
  ino : handle'.ino = handle.ino
  generation : handle'.generation = handle.generation
  blockMap : handle'.blockMap = handle.blockMap

theorem Known.rewritten {client : Client} {fh : Fh} {handle handle' : OpenFile} (known : Known f file client)
    (found : client.openFiles[fh]? = some handle) (same : handle'.ino = f → SameHandle handle handle') (cache : BlockCache)
    (cached : ∀ (key : BlockKey) (bytes : Bytes), cache[key]? = some bytes → key.ino = f → key.generation ≤ file.generation)
    (task : Option Task) (unopening : ∀ snapshot, task ≠ some (.opening snapshot)) (unpublishing : ∀ p, task ≠ some (.publishing p)) :
    Known f file ⟨client.openFiles.insert fh handle',cache,task⟩ := by
  refine ⟨?_,cached,fun p task => absurd task (unpublishing p)⟩
  intro other held mine
  rcases held with ⟨fh',opened⟩ | ⟨snapshot,opening,_⟩
  · simp only [get_insert] at opened
    split at opened
    next =>
      cases opened
      have kept := same mine
      rw [kept.generation,kept.blockMap]
      exact known.held handle (.inl ⟨fh,found⟩) (kept.ino ▸ mine)
    next => exact known.held other (.inl ⟨fh',opened⟩) mine
  · exact absurd opening (unopening snapshot)

/-- One handle changes its dirty blocks and size hint; the others are as before. -/
theorem Tracks.rewritten {client : Client} {fh : Fh} {handle handle' : OpenFile} {quiet calm : Prop} {H : History}
    (tracks : Tracks bs f file G.published (G.pending c) client quiet calm) (found : client.openFiles[fh]? = some handle)
    (apart : ∀ fh', fh' ≠ fh → client.inFlight fh' = [] ∧ ∀ other, client.dirtyOf fh' other = fun idx => other.dirty[idx]?)
    (same : handle'.ino = f → SameHandle handle handle') (cache : BlockCache) (task : Option Task)
    (unopening : ∀ snapshot, task ≠ some (.opening snapshot)) (unpublishing : ∀ p, task ≠ some (.publishing p))
    (others : ∀ fh', fh' ≠ fh → H.pending c fh' = G.pending c fh' ∧
      Client.inFlight ⟨client.openFiles.insert fh handle',cache,task⟩ fh' = [])
    (size : handle.ino = f → handle.generation = file.generation →
      handle'.sizeHint = (G.published.applyAll (H.pending c fh)).size)
    (overlay : quiet → handle.ino = f → handle.generation = file.generation → Overlay bs G.published
      (G.published.applyAll (H.pending c fh ++ Client.inFlight ⟨client.openFiles.insert fh handle',cache,task⟩ fh))
      (fun idx => handle'.dirty[idx]?))
    (caches : calm → ∀ (key : BlockKey) (bytes : Bytes), cache[key]? = some bytes → key.ino = f →
      key.generation = file.generation → Shows bs G.published key.blockIdx bytes) :
    Tracks bs f file G.published (H.pending c) ⟨client.openFiles.insert fh handle',cache,task⟩ quiet calm := by
  refine ⟨?_,?_,fun snapshot opening => absurd opening (unopening snapshot),?_,caches⟩
  · intro other held mine current
    rcases held with ⟨fh',opened⟩ | ⟨snapshot,opening,_⟩
    · simp only [get_insert] at opened
      split at opened
      next =>
        cases opened
        have kept := same mine
        rw [kept.blockMap]
        exact tracks.covers handle (.inl ⟨fh,found⟩) (kept.ino ▸ mine) (kept.generation ▸ current)
      next => exact tracks.covers other (.inl ⟨fh',opened⟩) mine current
    · exact absurd opening (unopening snapshot)
  · intro fh' other opened mine current
    simp only [get_insert] at opened
    split at opened
    next here =>
      cases opened
      subst here
      exact size ((same mine).ino ▸ mine) ((same mine).generation ▸ current)
    next other_ =>
      rw [(others fh' (Ne.symm other_)).1]
      exact tracks.sizes fh' other opened mine current
  · intro quiet fh' other opened mine current
    rw [Client.dirtyOf_own unpublishing]
    simp only [get_insert] at opened
    split at opened
    next here =>
      cases opened
      subst here
      exact overlay quiet ((same mine).ino ▸ mine) ((same mine).generation ▸ current)
    next other_ =>
      have drafted := tracks.drafts quiet fh' other opened mine current
      obtain ⟨flight,dirty⟩ := apart fh' (Ne.symm other_)
      rw [flight,dirty] at drafted
      rw [(others fh' (Ne.symm other_)).1,(others fh' (Ne.symm other_)).2]
      exact drafted

theorem calm_of_writing {fh : Fh} {offset done : Nat} {data : Bytes}
    (writing : (σ.clients c).task = some (.writing fh offset data done))
    (quiet : ∀ c', c' ≠ c → ¬ (σ.clients c').Acting f) (c' : ClientId) : ¬ (σ.clients c').Acting f := by
  rcases Classical.em (c' = c) with rfl | apart
  · intro acting
    obtain ⟨p,underway,_⟩ := acting
    simp only [Client.publishes,writing] at underway
    cases underway
  · exact quiet c' apart

/-- While no other client is acting, a handle of the current generation that is written
to drafts the published file with what has been written. -/
theorem drafts_of_tracks (coherent : Coherent bs f σ file G)
    {fh : Fh} {handle : OpenFile} {offset done : Nat} {data : Bytes}
    (writing : (σ.clients c).task = some (.writing fh offset data done)) (found : (σ.clients c).openFiles[fh]? = some handle)
    (quiet : ∀ c', c' ≠ c → ¬ (σ.clients c').Acting f) (mine : handle.ino = f) (current : handle.generation = file.generation) :
    Overlay bs G.published (G.published.applyAll (G.pending c fh ++ [History.partWay offset data done]))
        (fun idx => handle.dirty[idx]?) ∧
      (∀ idx : BlockIdx, handle.blockMap[idx]? = none → Blank bs G.published idx) ∧
      OpenFile.CacheShows bs G.published handle (σ.clients c).blockCache := by
  have tracks := coherent.tracks c
  have calm := calm_of_writing writing quiet
  have held : (σ.clients c).Holds handle := .inl ⟨fh,found⟩
  have drafted := tracks.drafts quiet fh handle found mine current
  have flight : (σ.clients c).inFlight fh = [History.partWay offset data done] := by
    simp only [Client.inFlight,writing,if_pos]
  rw [flight,Client.dirtyOf_own (by simp [writing])] at drafted
  refine ⟨drafted,tracks.covers handle held mine current,?_⟩
  intro idx bytes cached
  exact tracks.caches calm (handle.cacheKey idx) bytes cached mine current

theorem asked_chunk {up : NodeId → Bool} {fh : Fh} {offset done : Nat} {data : Bytes} {handle : OpenFile}
    (writing : (σ.clients c).task = some (.writing fh offset data done)) (found : (σ.clients c).openFiles[fh]? = some handle)
    (part : (OpenFile.chunkOf bs offset data done).length ≠ bs)
    (asks : handle.asks ((offset + done) / bs) (σ.clients c).blockCache = true) :
    asked bs (.chunk c up) σ = some (handle,(offset + done) / bs,up) := by
  simp [asked,writing,found,part,asks]

theorem tied_chunk {up : NodeId → Bool} (positive : 0 < bs) (inv : Tied bs f σ file G) (sync : AskedInSync bs f (.chunk c up) σ)
    (round : chunk bs c up σ = some τ) : Tied bs f τ file (G.next bs f (.chunk c up) σ) := by
  obtain ⟨fh,offset,data,done,handle,writing,found,outcome⟩ := chunk_steps round
  have known := inv.base.clients c
  have held : (σ.clients c).Holds handle := .inl ⟨fh,found⟩
  have silent : (σ.clients c).publishes f = none := by simp only [Client.publishes,writing]
  have apart (fh' : Fh) (other : fh' ≠ fh) : (σ.clients c).inFlight fh' = [] ∧
      ∀ handle, (σ.clients c).dirtyOf fh' handle = fun idx => handle.dirty[idx]? := by
    refine ⟨?_,fun handle => Client.dirtyOf_own (by simp [writing]) fh' handle⟩
    simp only [Client.inFlight,writing,if_neg (Ne.symm other)]
  simp only [History.next,writing,found]
  dsimp only at outcome
  generalize cached_eq : (handle.writeChunk bs (σ.answer up handle.ino) offset data done (σ.clients c).blockCache).2 = cache at outcome
  have cached (key : BlockKey) (bytes : Bytes) (present : cache[key]? = some bytes) (mine : key.ino = f) :
      key.generation ≤ file.generation := by
    rw [← cached_eq] at present
    exact (chunk_cache (G := G) positive False known held nofun nofun key bytes present mine).1
  have told (coherent : Coherent bs f σ file G) (calm : Calm f σ) (mine : handle.ino = f)
      (part : (OpenFile.chunkOf bs offset data done).length ≠ bs)
      (asks : handle.asks ((offset + done) / bs) (σ.clients c).blockCache = true) (placement : BlockPlacement) (bytes : Bytes) (flag : Bool)
      (placed : handle.blockMap[(offset + done) / bs]? = some placement)
      (answered : OpenFile.tryNodes bs (σ.answer up handle.ino ((offset + done) / bs)) placement.nodes
        (.storeUnavailable placement.primary) = .ok (bytes,flag)) : Shows bs G.published ((offset + done) / bs) bytes := by
    rw [mine] at answered
    have synced := sync calm handle ((offset + done) / bs) up (asked_chunk writing found part asks) mine
    exact answered_image inv.base coherent (calm.untouched _) synced (known.held handle held mine).2 placed _ bytes flag answered
  have caches (coherent : Coherent bs f σ file G) (calm : Calm f σ) (key : BlockKey) (bytes : Bytes)
      (present : cache[key]? = some bytes) (mine : key.ino = f) (current : key.generation = file.generation) :
      Shows bs G.published key.blockIdx bytes := by
    rw [← cached_eq] at present
    refine (chunk_cache positive (Calm f σ) known held ?_ (coherent.tracks c).caches key bytes present mine).2 calm current
    intro calm same part asks placement block placed answered
    exact told coherent calm same part asks placement block true placed answered
  have cases_ := (OpenFile.writeChunk_cases bs (σ.answer up handle.ino) handle offset data done (σ.clients c).blockCache).2
  have wrote (file' : OpenFile) (done' : Nat)
      (ok : (handle.writeChunk bs (σ.answer up handle.ino) offset data done (σ.clients c).blockCache).1 = .ok (file',done')) :
      SameHandle handle file' ∧ file'.sizeHint = handle.sizeHint ∧
        (Coherent bs f σ file G → (∀ c', c' ≠ c → ¬ (σ.clients c').Acting f) → handle.ino = f →
          handle.generation = file.generation → Overlay bs G.published
            (G.published.applyAll (G.pending c fh ++ [History.partWay offset data done'])) (fun idx => file'.dirty[idx]?)) := by
    rcases cases_ with ⟨e,failed⟩ | ⟨buf,done_eq,started⟩
    · rw [failed] at ok
      cases ok
    · rw [done_eq] at ok
      cases ok
      refine ⟨⟨rfl,rfl,rfl⟩,rfl,?_⟩
      intro coherent quiet mine current
      obtain ⟨drafts,unplaced,shown⟩ := drafts_of_tracks coherent writing found quiet mine current
      have drafted := OpenFile.afterChunk_overlay positive drafts unplaced shown 0
        (told coherent (calm_of_writing writing quiet) mine) started
      refine drafted.congr ?_
      rw [Flat.applyAll_concat,Flat.applyAll_concat]
      exact byte_partWay _ offset 0 data done
  rcases outcome with ⟨⟨e,failed⟩,rfl⟩ | ⟨file',done',ok,more,rfl⟩ | ⟨file',done',ok,last,rfl⟩
  · simp only [failed]
    have unchanged : (σ.clients c).openFiles.insert fh handle = (σ.clients c).openFiles := insert_get _ _ _ found
    rw [← unchanged]
    refine inv.client _ (known.rewritten found (fun _ => ⟨rfl,rfl,rfl⟩) cache cached none (by simp) (by simp)) (.of_eq silent.symm) rfl
      (set_other G c fh _) ?_
    intro coherent
    have tracks := coherent.tracks c
    refine tracks.rewritten found apart (fun _ => ⟨rfl,rfl,rfl⟩) cache none (by simp) (by simp) ?_ ?_ ?_ (caches coherent)
    · intro fh' apart
      exact ⟨by rw [set_pending,if_neg apart],Client.inFlight_none (by simp) fh'⟩
    · intro mine current
      rw [set_pending,if_pos rfl,Flat.applyAll_concat,tracks.sizes fh handle found mine current]
      simp [Flat.apply,History.partWay]
    · intro quiet mine current
      rw [set_pending,if_pos rfl,Client.inFlight_none (by simp),List.append_nil]
      exact (drafts_of_tracks coherent writing found quiet mine current).1
  · simp only [ok,if_pos more]
    obtain ⟨same,size,overlay⟩ := wrote file' done' ok
    refine inv.client _ (known.rewritten found (fun _ => same) cache cached _ (by simp) (by simp)) (.of_eq silent.symm) rfl (fun _ _ => rfl) ?_
    intro coherent
    have tracks := coherent.tracks c
    refine tracks.rewritten found apart (fun _ => same) cache _ (by simp) (by simp) ?_ ?_ ?_ (caches coherent)
    · intro fh' apart
      refine ⟨rfl,?_⟩
      simp only [Client.inFlight,if_neg (Ne.symm apart)]
    · intro mine current
      rw [size]
      exact tracks.sizes fh handle found mine current
    · intro quiet mine current
      simp only [Client.inFlight,if_true]
      exact overlay coherent quiet mine current
  · simp only [ok,if_neg last]
    obtain ⟨same,size,overlay⟩ := wrote file' done' ok
    have grown : SameHandle handle (file'.growTo (offset + data.length)) := ⟨same.ino,same.generation,same.blockMap⟩
    refine inv.client _ (known.rewritten found (fun _ => grown) cache cached none (by simp) (by simp)) (.of_eq silent.symm) rfl
      (set_other G c fh _) ?_
    intro coherent
    have tracks := coherent.tracks c
    refine tracks.rewritten found apart (fun _ => grown) cache none (by simp) (by simp) ?_ ?_ ?_ (caches coherent)
    · intro fh' apart
      exact ⟨by rw [set_pending,if_neg apart],Client.inFlight_none (by simp) fh'⟩
    · intro mine current
      rw [set_pending,if_pos rfl,Flat.applyAll_concat]
      simp only [OpenFile.growTo,size,tracks.sizes fh handle found mine current]
      rfl
    · intro quiet mine current
      rw [set_pending,if_pos rfl,Client.inFlight_none (by simp),List.append_nil]
      refine (overlay coherent quiet mine current).congr ?_
      rw [Flat.applyAll_concat,Flat.applyAll_concat,History.partWay,List.take_of_length_le (Nat.le_of_not_lt last)]
      exact Flat.byte_apply_congr rfl _ _

end Writing

end Dtmpfs
