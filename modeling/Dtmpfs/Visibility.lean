import Dtmpfs.CoherencePublish

/-! Close-to-open visibility: what is read between two publishes of a file. -/
namespace Dtmpfs
open MetaService MetaState FlatFile OrderedMap Cluster

variable {bs : Nat} {f : InodeId} {σ τ : Cluster} {file : FileRecord} {G H : History} {c : ClientId}

/-- Every step of the run satisfies `P` in the state it is taken in. -/
def Throughout (bs : Nat) (P : Label → Cluster → Prop) : List Label → Cluster → Prop
  | [],_ => True
  | label::rest,σ => P label σ ∧ ∀ τ ∈ step bs label σ, Throughout bs P rest τ

theorem throughout_cons {P : Label → Cluster → Prop} {label : Label} {rest : List Label}
    (stepped : (step bs label σ).isSome = true) (first : P label σ) (later : Throughout bs P rest ((step bs label σ).get stepped)) :
    Throughout bs P (label::rest) σ := by
  refine ⟨first,?_⟩
  intro τ reached
  cases Option.get_of_mem stepped reached
  exact later

def decideThroughout (bs : Nat) (P : Label → Cluster → Prop) (decideStep : ∀ label σ, Decidable (P label σ)) :
    (labels : List Label) → (σ : Cluster) → Decidable (Throughout bs P labels σ)
  | [],_ => .isTrue trivial
  | label::rest,σ =>
    have := decideStep label σ
    have := decideThroughout bs P decideStep rest
    inferInstanceAs (Decidable (P label σ ∧ ∀ τ ∈ step bs label σ, Throughout bs P rest τ))

instance (bs : Nat) (P : Label → Cluster → Prop) [h : ∀ label σ, Decidable (P label σ)] (labels : List Label) (σ : Cluster) :
    Decidable (Throughout bs P labels σ) := decideThroughout bs P h labels σ

theorem Throughout.mono {P Q : Label → Cluster → Prop} (labels : List Label) (σ : Cluster)
    (along : Throughout bs P labels σ) (weaker : ∀ label σ, P label σ → Q label σ) : Throughout bs Q labels σ := by
  induction labels generalizing σ with
  | nil => exact trivial
  | cons label rest ih =>
    obtain ⟨first,later⟩ := along
    refine ⟨weaker label σ first,?_⟩
    intro τ stepped
    exact ih τ (later τ stepped)

theorem Throughout.append {P : Label → Cluster → Prop} {first second : List Label} (along : Throughout bs P (first ++ second) σ)
    (ran : run bs first σ = some τ) : Throughout bs P second τ := by
  induction first generalizing σ with
  | nil =>
    cases ran
    exact along
  | cons label rest ih =>
    obtain ⟨middle,stepped,later⟩ := Option.bind_eq_some_iff.mp ran
    exact ih (along.2 middle stepped) later

theorem Throughout.prefix_ {P : Label → Cluster → Prop} {first second : List Label} (along : Throughout bs P (first ++ second) σ) :
    Throughout bs P first σ := by
  induction first generalizing σ with
  | nil => exact trivial
  | cons label rest ih =>
    refine ⟨along.1,?_⟩
    intro τ stepped
    exact ih (along.2 τ stepped)

/-- File `f` has just been created: it is empty, whoever has it open has a clean
handle, and nothing else in the cluster is about it. -/
structure Created (f : InodeId) (σ : Cluster) : Prop where
  record : σ.metadata.fileAt f = some ⟨0,0,∅⟩
  handles : ∀ c (fh : Fh) handle, (σ.clients c).openFiles[fh]? = some handle → handle.ino = f →
    handle.generation = 0 ∧ handle.blockMap = ∅ ∧ handle.dirty = ∅ ∧ handle.sizeHint = 0
  opening : ∀ c snapshot, (σ.clients c).task = some (.opening snapshot) → snapshot.ino ≠ f
  writing : ∀ c fh offset data done handle, (σ.clients c).task = some (.writing fh offset data done) →
    (σ.clients c).openFiles[fh]? = some handle → handle.ino ≠ f
  publishing : ∀ c p, (σ.clients c).task = some (.publishing p) → p.ino ≠ f ∧ Underway (σ.clients c) p
  caches : ∀ c (key : BlockKey) (bytes : Bytes), (σ.clients c).blockCache[key]? = some bytes → key.ino ≠ f
  slots : ∀ node idx, σ.slot node f idx = none
  writes : ∀ m ∈ σ.writes, m.key.ino ≠ f
  deletes : ∀ d ∈ σ.deletes, d.key.ino ≠ f
  filed : Filed σ.metadata
  factor : 0 < σ.metadata.replicationFactor
  own : HandlesOwn σ

/-- Nothing has happened yet but stores registering. -/
structure Booted (σ : Cluster) : Prop where
  clients : ∀ c, σ.clients c = ⟨∅,∅,none⟩
  stores : ∀ node, (σ.stores node).blocks = ∅
  writes : σ.writes = []
  deletes : σ.deletes = []
  filed : Filed σ.metadata
  factor : 0 < σ.metadata.replicationFactor
  handles : σ.metadata.openHandles = ∅
  left : HandlesLeft σ.metadata

theorem Booted.own (booted : Booted σ) : HandlesOwn σ := by
  constructor
  · intro c fh file found
    rw [booted.clients,Std.ExtTreeMap.getElem?_empty] at found
    cases found
  · intro fh entry entered
    rw [booted.handles,Std.ExtTreeMap.getElem?_empty] at entered
    cases entered

/-- A cluster whose stores `nodes` have registered. -/
def Cluster.up (replicationFactor ramBudget : Nat) (nodes : List NodeId) : Cluster :=
  {Cluster.new 0 replicationFactor ramBudget with
    metadata := nodes.foldl (fun s node => serve Host.still (.heartbeatNode 0 ⟨node,node,0,0,0⟩) s) (MetaState.new 0 replicationFactor)}

theorem up_booted (replicationFactor ramBudget : Nat) (nodes : List NodeId) (positive : 0 < replicationFactor) :
    Booted (Cluster.up replicationFactor ramBudget nodes) := by
  have kept (nodes : List NodeId) (s : MetaState) :
      NodesKept s (nodes.foldl (fun s node => serve Host.still (.heartbeatNode 0 ⟨node,node,0,0,0⟩) s) s) := by
    induction nodes generalizing s with
    | nil => exact .of_eq rfl rfl
    | cons node rest ih => exact (heartbeatNode_nodes Host.still 0 _ s).trans (ih _)
  have unopened (nodes : List NodeId) (s : MetaState) :
      (nodes.foldl (fun s node => serve Host.still (.heartbeatNode 0 ⟨node,node,0,0,0⟩) s) s).openHandles = s.openHandles ∧
        (nodes.foldl (fun s node => serve Host.still (.heartbeatNode 0 ⟨node,node,0,0,0⟩) s) s).nextFh = s.nextFh := by
    induction nodes generalizing s with
    | nil => exact ⟨rfl,rfl⟩
    | cons node rest ih => exact ih _
  have registered := kept nodes (MetaState.new 0 replicationFactor)
  obtain ⟨handles,nextFh⟩ := unopened nodes (MetaState.new 0 replicationFactor)
  refine ⟨fun _ => rfl,fun _ => rfl,rfl,rfl,registered.filed ?_,?_,handles,?_⟩
  · intro id info found
    simp [MetaState.new] at found
  · simp only [Cluster.up,registered.factor]
    exact positive
  · rw [HandlesLeft,Cluster.up,nextFh]
    exact (by decide : 1 + 1 < 2^64)

theorem created_of_create {host : Host} {r : CreateReq} {flags : Nat} (booted : Booted σ)
    (made : Cluster.create c host r flags σ = some τ) (accepted : (MetaService.create host r σ.metadata).reply.isOk = true) :
    Created σ.metadata.nextIno τ := by
  have own : HandlesOwn τ := @handlesOwn_create 1 σ τ c host r flags booted.own booted.left made
  obtain ⟨_,⟨_,fault,failed⟩ | ⟨_,rfl⟩⟩ := create_steps made
  · rw [failed] at accepted
    cases accepted
  · rcases create_cases host r σ.metadata with ⟨_,_,failed⟩ | ⟨dir,_,_,served⟩
    · rw [failed] at accepted
      cases accepted
    · rw [served]
      have clients (c' : ClientId) : ((setClient {σ with metadata := σ.metadata.created host r dir} c
          (installed (σ.clients c) σ.metadata.nextFh (buildOpenFile σ.metadata.nextIno
            (buildAttr (freshInode host r .file σ.metadata.nextIno)) [] flags))).clients c').task = none := by
        simp only [setClient]
        split
        · rfl
        · rw [booted.clients]
      refine ⟨?_,?_,?_,?_,?_,?_,?_,?_,?_,booted.filed,booted.factor,served ▸ own⟩
      · simp [setClient,fileAt,created,record,freshInode]
      · intro c' fh handle found _
        simp only [setClient] at found
        split at found
        · rcases installed_get _ _ _ _ _ found with ⟨_,rfl⟩ | ⟨_,old⟩
          · exact ⟨rfl,rfl,rfl,rfl⟩
          · rw [booted.clients] at old
            simp at old
        · rw [booted.clients] at found
          simp at found
      · intro c' snapshot task
        rw [clients] at task
        cases task
      · intro c' fh offset data done handle task
        rw [clients] at task
        cases task
      · intro c' p task
        rw [clients] at task
        cases task
      · intro c' key bytes cached
        simp only [setClient] at cached
        split at cached
        · simp [installed,booted.clients] at cached
        · simp [booted.clients] at cached
      · intro node idx
        simp [slot,setClient,booted.stores]
      · intro m waiting
        simp [setClient,booted.writes] at waiting
      · intro d waiting
        simp [setClient,booted.deletes] at waiting

/-- A cluster in which client 0 has just created its first file, inode 2. -/
def Cluster.withFile (replicationFactor : Nat) (nodes : List NodeId) : Cluster :=
  (Cluster.create 0 Host.still ⟨ROOT,"f",0,0,0⟩ 0 (up replicationFactor 100 nodes)).getD (up replicationFactor 100 nodes)

theorem withFile_created {replicationFactor : Nat} {nodes : List NodeId} (positive : 0 < replicationFactor)
    (made : (Cluster.create 0 Host.still ⟨ROOT,"f",0,0,0⟩ 0 (up replicationFactor 100 nodes)).isSome = true)
    (accepted : (MetaService.create Host.still ⟨ROOT,"f",0,0,0⟩ (up replicationFactor 100 nodes).metadata).reply.isOk = true)
    (drawn : (up replicationFactor 100 nodes).metadata.nextIno = 2) : Created 2 (withFile replicationFactor nodes) := by
  obtain ⟨τ,made⟩ := Option.isSome_iff_exists.mp made
  have created := created_of_create (up_booted replicationFactor 100 nodes positive) made accepted
  rw [drawn] at created
  simp only [withFile,made,Option.getD_some]
  exact created

/-- Every node answers. -/
def everyNode : NodeId → Bool := fun _ => true

namespace Created

theorem known (created : Created f σ) (c : ClientId) : Known f ⟨0,0,∅⟩ (σ.clients c) := by
  refine ⟨?_,?_,fun p task => (created.publishing c p task).2⟩
  · intro handle held mine
    rcases held with ⟨fh,found⟩ | ⟨snapshot,task,rfl⟩
    · obtain ⟨generation,blockMap,_⟩ := created.handles c fh handle found mine
      rw [generation,blockMap]
      exact ⟨Nat.le_refl 0,.refl _⟩
    · exact absurd mine (created.opening c snapshot task)
  · intro key bytes cached mine
    exact absurd mine (created.caches c key bytes cached)

theorem tracks (created : Created f σ) (c : ClientId) (quiet calm : Prop) :
    Tracks bs f ⟨0,0,∅⟩ .empty (fun _ => []) (σ.clients c) quiet calm := by
  refine ⟨fun _ _ _ _ _ _ _ _ => rfl,?_,?_,?_,?_⟩
  · intro fh handle found mine _
    exact (created.handles c fh handle found mine).2.2.2
  · intro snapshot task mine
    exact absurd mine (created.opening c snapshot task)
  · intro _ fh handle found mine _
    have still : (σ.clients c).inFlight fh = [] := by
      unfold Client.inFlight
      split
      next fh' offset data done task =>
        split
        next same => exact absurd mine (created.writing c fh' offset data done handle task (same ▸ found))
        next => rfl
      next => rfl
    have clean : (σ.clients c).dirtyOf fh handle = fun _ => none := by
      funext idx
      have own : handle.dirty[idx]? = none := by
        rw [(created.handles c fh handle found mine).2.2.1]
        exact Std.ExtTreeMap.getElem?_empty
      unfold Client.dirtyOf
      split
      next p task =>
        split
        next same =>
          obtain ⟨other,underway⟩ := created.publishing c p task
          obtain ⟨handle',found',ino,_⟩ := underway.handle
          rw [same,found] at found'
          cases found'
          exact absurd (ino.symm.trans mine) other
        next => exact own
      next => exact own
    rw [still,clean]
    exact .none _
  · intro _ key bytes cached mine
    exact absurd mine (created.caches c key bytes cached)

theorem silent (created : Created f σ) (c : ClientId) : (σ.clients c).publishes f = none := by
  cases underway : (σ.clients c).publishes f with
  | none => rfl
  | some p =>
    obtain ⟨task,mine⟩ := publishes_some underway
    exact absurd mine (created.publishing c p task).1

theorem inv (created : Created f σ) : Inv bs f σ ⟨0,0,∅⟩ .blank := by
  have empty (idx : BlockIdx) : (∅ : Map BlockIdx BlockPlacement)[idx]? = none := Std.ExtTreeMap.getElem?_empty
  have unplaced {idx : BlockIdx} {placement : BlockPlacement}
      (placed : (∅ : Map BlockIdx BlockPlacement)[idx]? = some placement) : False := by
    rw [empty] at placed
    cases placed
  have nobody (c : ClientId) : ¬ (σ.clients c).Acting f := by
    intro acting
    obtain ⟨p,underway,_⟩ := acting
    rw [created.silent c] at underway
    cases underway
  refine ⟨⟨⟨created.record,created.known,fun _ _ placed => (unplaced placed).elim,?_,created.deletes,?_,created.filed,
    created.factor⟩,.inr ⟨rfl,?_,?_,fun _ _ _ _ => rfl,fun _ _ placed => (unplaced placed).elim,
    fun _ _ placed => (unplaced placed).elim,fun c => created.tracks c _ _⟩⟩,created.own⟩
  · intro m waiting mine
    exact absurd mine (created.writes m waiting)
  · intro node idx _
    exact created.slots node idx
  · intro c _ first
    exact absurd first (nobody c)
  · intro c p underway wrote
    exact absurd ⟨p,underway,wrote⟩ (nobody c)

end Created

theorem trace_append (first second : List Label) (σ : Cluster) (G : History) :
    trace bs f (first ++ second) σ G = (trace bs f first σ G).bind (fun (τ,H) => trace bs f second τ H) := by
  induction first generalizing σ G with
  | nil => rfl
  | cons label rest ih =>
    simp only [List.cons_append,trace,Option.bind_assoc]
    congr
    funext τ
    exact ih τ _

theorem trace_of_run (labels : List Label) (G : History) (ran : run bs labels σ = some τ) :
    ∃ H, trace bs f labels σ G = some (τ,H) := by
  induction labels generalizing σ G with
  | nil =>
    cases ran
    exact ⟨G,rfl⟩
  | cons label rest ih =>
    obtain ⟨middle,stepped,later⟩ := Option.bind_eq_some_iff.mp ran
    obtain ⟨H,traced⟩ := ih (G.next bs f label σ) later
    exact ⟨H,by simp only [trace,stepped,Option.bind_some,traced]⟩

/-- Runs whose steps are orderly wherever the invariant holds keep the invariant. -/
theorem trace_inv {P : Label → Cluster → Prop} (positive : 0 < bs) (labels : List Label) (inv : Inv bs f σ file G)
    (orderly : ∀ {label σ file G}, Inv bs f σ file G → P label σ → Orderly f label σ)
    (along : Throughout bs P labels σ) (ran : trace bs f labels σ G = some (τ,H)) : ∃ file', Inv bs f τ file' H := by
  induction labels generalizing σ file G with
  | nil =>
    cases ran
    exact ⟨file,inv⟩
  | cons label rest ih =>
    obtain ⟨middle,stepped,later⟩ := Option.bind_eq_some_iff.mp ran
    obtain ⟨file',moved,_⟩ := inv_step positive inv (orderly inv along.1) stepped
    exact ih moved (along.2 middle stepped) later

theorem Inv.calm (inv : Inv bs f σ file G) (calm : Calm f σ) : Coherent bs f σ file G := by
  rcases inv.coherent with stuck | coherent
  · rcases stuck with ⟨c,p,underway,wrote,_⟩ | ⟨c,_,_,acting,_⟩
    · exact absurd ⟨p,underway,wrote⟩ (calm c)
    · exact absurd acting (calm c)
  · exact coherent

/-- A handle of the current generation, in the hands of an idle client, drafts the
published file with the handle's own writes on top. -/
theorem Inv.drafts {up : NodeId → Bool} (inv : Inv bs f σ file G) (calm : Calm f σ) (sync : InSync f up σ) {fh : Fh}
    {handle : OpenFile} (idle : (σ.clients c).task = none) (found : (σ.clients c).openFiles[fh]? = some handle)
    (mine : handle.ino = f) (current : handle.generation = file.generation) :
    OpenFile.Drafts bs (σ.answer up f) G.published (G.published.applyAll (G.pending c fh)) handle ∧
      OpenFile.CacheShows bs G.published handle (σ.clients c).blockCache ∧
      handle.sizeHint = (G.published.applyAll (G.pending c fh)).size := by
  have coherent := inv.calm calm
  have tracks := coherent.tracks c
  have held : (σ.clients c).Holds handle := .inl ⟨fh,found⟩
  have drafted := tracks.drafts (fun c' _ => calm c') fh handle found mine current
  rw [Client.inFlight_none (by simp [idle]),List.append_nil,Client.dirtyOf_own (by simp [idle])] at drafted
  refine ⟨⟨drafted,tracks.covers handle held mine current,?_⟩,?_,tracks.sizes fh handle found mine current⟩
  · intro idx placement placed bytes cached asked
    exact answered_shows inv.base coherent calm sync ((inv.base.clients c).held handle held mine).2 idx placement placed _
      bytes cached asked
  · intro idx bytes cached
    exact tracks.caches calm (handle.cacheKey idx) bytes cached mine current

/-- For every placement some node is reached. -/
def Reached (f : InodeId) (up : NodeId → Bool) (σ : Cluster) : Prop :=
  ∀ file, σ.metadata.fileAt f = some file → ∀ (idx : BlockIdx) (placement : BlockPlacement),
    file.blocks[idx]? = some placement → ∃ node ∈ placement.nodes, up node = true

theorem Base.answers {up : NodeId → Bool} (base : Base f σ file) (reached : Reached f up σ)
    {known : Map BlockIdx BlockPlacement} (agrees : Agrees known file.blocks) (idx : BlockIdx) (placement : BlockPlacement)
    (placed : known[idx]? = some placement) (last : DtmpfsError) :
    ∃ result, OpenFile.tryNodes bs (σ.answer up f idx) placement.nodes last = .ok result := by
  have recorded := agrees idx placement placed
  obtain ⟨node,listed,heard⟩ := reached file base.alive idx placement recorded
  exact tryNodes_reached placement.nodes last listed ⟨heard,(base.placed idx placement recorded).registered node listed⟩

/-- A client with `cache` that reaches the nodes of `up` reads file `D` through `handle`. -/
structure Reads (bs : Nat) (up : NodeId → Bool) (σ : Cluster) (cache : BlockCache) (handle : OpenFile) (D : Flat) : Prop where
  size : handle.sizeHint = D.size
  bytes : ∀ off size, (handle.read bs (σ.answer up handle.ino) off size cache).1 = .ok (D.slice off size)

theorem reads_of_drafts {up : NodeId → Bool} {F D : Flat} {handle : OpenFile} {cache : BlockCache} (positive : 0 < bs)
    (base : Base f σ file) (reached : Reached f up σ) (mine : handle.ino = f) (agrees : Agrees handle.blockMap file.blocks)
    (drafts : OpenFile.Drafts bs (σ.answer up f) F D handle) (cached : OpenFile.CacheShows bs F handle cache)
    (size : handle.sizeHint = D.size) : Reads bs up σ cache handle D := by
  refine ⟨size,?_⟩
  intro off size
  rw [mine]
  have answered : ∃ bytes, (handle.read bs (σ.answer up f) off size cache).1 = .ok bytes :=
    OpenFile.readLoop_ok (fun idx placement placed => base.answers reached agrees idx placement placed _) _ _ _
  obtain ⟨bytes,done⟩ := answered
  have shown := OpenFile.read_shows positive drafts cached off size bytes done
  rw [← shown]
  exact done

/-- Between publishes, whoever holds a handle of the current generation reads the
published file with the handle's own writes on top. -/
theorem Inv.reads {up : NodeId → Bool} (positive : 0 < bs) (inv : Inv bs f σ file G) (calm : Calm f σ) (sync : InSync f up σ)
    (reached : Reached f up σ) {fh : Fh} {handle : OpenFile} (idle : (σ.clients c).task = none)
    (found : (σ.clients c).openFiles[fh]? = some handle) (mine : handle.ino = f) (current : handle.generation = file.generation) :
    Reads bs up σ (σ.clients c).blockCache handle (G.published.applyAll (G.pending c fh)) := by
  obtain ⟨drafts,cached,size⟩ := inv.drafts calm sync idle found mine current
  have agrees := ((inv.base.clients c).held handle (.inl ⟨fh,found⟩) mine).2
  exact reads_of_drafts positive inv.base reached mine agrees drafts cached size

/-- Between publishes, `Meta.Open` succeeds and what it tells drafts the published file. -/
theorem Inv.opened {up : NodeId → Bool} (inv : Inv bs f σ file G) (calm : Calm f σ) (sync : InSync f up σ) (c : ClientId) (flags : Nat) :
    ∃ snapshot, MetaService.openRead ⟨f,flags⟩ σ.metadata = .ok snapshot ∧ snapshot.ino = f ∧
      snapshot.attr.generation = file.generation ∧ snapshot.attr.size = G.published.size ∧
      Agrees (snapshotFile snapshot).blockMap file.blocks ∧
      OpenFile.Drafts bs (σ.answer up f) G.published G.published (snapshotFile snapshot) ∧
      OpenFile.CacheShows bs G.published (snapshotFile snapshot) (σ.clients c).blockCache := by
  have coherent := inv.calm calm
  obtain ⟨snapshot,opened⟩ := openRead_file (r := ⟨f,flags⟩) inv.base.alive
  obtain ⟨record,alive,ino,_,generation,size,blocks⟩ := openRead_ok opened
  rw [inv.base.alive] at alive
  cases alive
  have agrees : Agrees (snapshotFile snapshot).blockMap file.blocks := by
    rw [← blocks]
    exact .refl _
  refine ⟨snapshot,opened,ino,generation,size.trans coherent.size,agrees,⟨?_,?_,?_⟩,?_⟩
  · have clean : (fun idx : BlockIdx => (snapshotFile snapshot).dirty[idx]?) = fun _ => none := by
      funext idx
      exact Std.ExtTreeMap.getElem?_empty
    rw [clean]
    exact .none _
  · intro idx unplaced
    refine coherent.unplaced idx ?_
    rw [← blocks]
    exact unplaced
  · intro idx placement placed bytes cached asked
    exact answered_shows inv.base coherent calm sync agrees idx placement placed _ bytes cached asked
  · intro idx bytes cached
    exact (coherent.tracks c).caches calm ((snapshotFile snapshot).cacheKey idx) bytes cached ino generation

/-- Between publishes, reads after a `Meta.Open` see the published file. -/
theorem Inv.opens {up : NodeId → Bool} (positive : 0 < bs) (inv : Inv bs f σ file G) (calm : Calm f σ) (sync : InSync f up σ)
    (reached : Reached f up σ) (c : ClientId) (flags : Nat) :
    ∃ snapshot, MetaService.openRead ⟨f,flags⟩ σ.metadata = .ok snapshot ∧ snapshot.attr.generation = file.generation ∧
      Reads bs up σ (σ.clients c).blockCache (snapshotFile snapshot) G.published := by
  obtain ⟨snapshot,opened,ino,generation,size,agrees,drafts,cached⟩ := inv.opened calm sync c flags
  exact ⟨snapshot,opened,generation,reads_of_drafts positive inv.base reached ino agrees drafts cached size⟩

/-- A client that reaches every registered node is answered by the primary. -/
def Reaches (up : NodeId → Bool) (s : MetaState) : Prop := ∀ node ∈ s.nodes.keys, up node = true

instance (up : NodeId → Bool) (s : MetaState) : Decidable (Reaches up s) :=
  inferInstanceAs (Decidable (∀ node ∈ s.nodes.keys, up node = true))

theorem Reaches.at {up : NodeId → Bool} {s : MetaState} (reaches : Reaches up s) {node : NodeId}
    (known : s.nodes.contains node = true) : up node = true :=
  reaches node (Std.ExtTreeMap.mem_keys.mpr known)

theorem Base.reached {up : NodeId → Bool} (base : Base f σ file) (reaches : Reaches up σ.metadata) :
    InSync f up σ ∧ Reached f up σ := by
  have primary (idx : BlockIdx) (placement : BlockPlacement) (placed : file.blocks[idx]? = some placement) :
      up placement.primary = true ∧ σ.metadata.nodes.contains placement.primary = true := by
    have known := (base.placed idx placement placed).registered placement.primary List.mem_cons_self
    exact ⟨reaches.at known,known⟩
  constructor
  · intro file' alive entry member node found
    have same : file' = file := Option.some.inj (alive.symm.trans base.alive)
    subst same
    obtain ⟨heard,known⟩ := primary entry.1 entry.2 (Std.ExtTreeMap.mem_toList_iff_getElem?_eq_some.mp member)
    have first : entry.2.nodes.find? (fun n => up n && σ.metadata.nodes.contains n) = some entry.2.primary := by
      simp only [BlockPlacement.nodes,List.find?_cons,heard,known,Bool.and_self]
    rw [Option.mem_def,first] at found
    cases found
    rfl
  · intro file' alive idx placement placed
    have same : file' = file := Option.some.inj (alive.symm.trans base.alive)
    subst same
    exact ⟨placement.primary,List.mem_cons_self,(primary idx placement placed).1⟩

/-- The runs of the close-to-open guarantee: nothing resizes, removes or replaces the
file, every publish of it ends in a `Close` that is accepted, there is always a store
to place a block on, stores answer and keep what they hold, and handle numbers do not
come round. Writers of one file cannot overlap in such a run, for the later `Close` would
be refused. -/
def Conform (f : InodeId) (label : Label) (σ : Cluster) : Prop :=
  match label with
  | .call _ request => Spares f request σ.metadata
  | .create _ _ r _ => Spares f (.create r) σ.metadata ∧ HandlesLeft σ.metadata
  | .openInsert _ => HandlesLeft σ.metadata
  | .fetch _ _ _ up | .chunk _ up => Reaches up σ.metadata
  | .publish _ _ _ host => σ.metadata.liveNodes host ≠ []
  | .close c host clock => ∀ p ∈ (σ.clients c).publishes f, ∀ handle ∈ (σ.clients c).openFiles[p.fh]?,
      (MetaService.close host (closeReq p handle.sizeHint clock) σ.metadata).reply.isOk = true
  | .abort c _ => (σ.clients c).publishes f = none
  | .restart node => Unused f node σ.metadata
  | _ => True

instance (f : InodeId) (label : Label) (σ : Cluster) : Decidable (Conform f label σ) :=
  match label with
  | .call _ request => inferInstanceAs (Decidable (Spares f request σ.metadata))
  | .create _ _ r _ => inferInstanceAs (Decidable (Spares f (.create r) σ.metadata ∧ HandlesLeft σ.metadata))
  | .openInsert _ => inferInstanceAs (Decidable (HandlesLeft σ.metadata))
  | .fetch _ _ _ up | .chunk _ up => inferInstanceAs (Decidable (Reaches up σ.metadata))
  | .publish _ _ _ host => inferInstanceAs (Decidable (σ.metadata.liveNodes host ≠ []))
  | .close c host clock => inferInstanceAs (Decidable (∀ p ∈ (σ.clients c).publishes f, ∀ handle ∈ (σ.clients c).openFiles[p.fh]?,
      (MetaService.close host (closeReq p handle.sizeHint clock) σ.metadata).reply.isOk = true))
  | .abort c _ => decidable_of_iff ((σ.clients c).publishes f).isNone Option.isNone_iff_eq_none
  | .restart node => inferInstanceAs (Decidable (Unused f node σ.metadata))
  | .openRead _ _ | .write _ _ _ _ | .send _ _ | .release _ _ | .evict _ _ | .deliver _ | .lose _
  | .deliverDelete _ | .loseDelete _ => inferInstanceAs (Decidable True)

theorem Conform.orderly {label : Label} (conform : Conform f label σ) (inv : Inv bs f σ file G) : Orderly f label σ := by
  cases label with
  | fetch c fh idx up => exact fun _ => (inv.base.reached conform).1
  | chunk c up => exact fun _ => (inv.base.reached conform).1
  | abort c stray =>
    intro p underway
    rw [Option.mem_def,show (σ.clients c).publishes f = none from conform] at underway
    cases underway
  | close c host clock =>
    intro p underway
    obtain ⟨task,mine⟩ := publishes_some underway
    have begun := (inv.base.clients c).publishing p task
    obtain ⟨handle,found,_⟩ := begun.handle
    obtain ⟨idx,data,dirty⟩ := begun.some
    have ok := conform p underway handle found
    rcases close_cases host (closeReq p handle.sizeHint clock) σ.metadata with
      ⟨_,missing⟩ | ⟨entry,entered,⟨_,refused⟩ | ⟨inode,present,⟨unwritten,_⟩ | ⟨_,matched,_⟩⟩⟩
    · rw [missing] at ok
      cases ok
    · rw [refused] at ok
      cases ok
    · exact absurd unwritten (keys_ne_nil dirty)
    · refine ⟨(contains_iff _ _).mpr ⟨entry,entered⟩,?_⟩
      intro record alive
      have own : entry.ino = f := (inv.own.entry begun entered).trans mine
      obtain ⟨inode',present',_,rfl⟩ := fileAt_some alive
      rw [own,present'] at present
      cases present
      exact matched
  | call host request => exact conform
  | create c host r flags => exact conform
  | publish c fh wait host => exact conform
  | restart node => exact conform
  | openRead c r => exact trivial
  | openInsert c => exact conform
  | write c fh offset data => exact trivial
  | send c idx => exact trivial
  | release c fh => exact trivial
  | evict c keep => exact trivial
  | deliver message => exact trivial
  | lose message => exact trivial
  | deliverDelete message => exact trivial
  | loseDelete message => exact trivial

/-- Close-to-open: from the creation of the file on, in every state in which nobody
is publishing it, the metadata server holds the size of the file as published, and
every handle of the current generation in the hands of an idle client shows the
published file with the handle's own writes on top. -/
theorem close_to_open (positive : 0 < bs) (created : Created f σ) (labels : List Label)
    (conform : Throughout bs (Conform f) labels σ) (ran : trace bs f labels σ .blank = some (τ,H))
    (settled : ∀ c, (τ.clients c).publishes f = none) :
    ∃ file, τ.metadata.fileAt f = some file ∧ file.size = H.published.size ∧
      ∀ c (fh : Fh) handle up, Reaches up τ.metadata → (τ.clients c).task = none →
        (τ.clients c).openFiles[fh]? = some handle → handle.ino = f → handle.generation = file.generation →
        Reads bs up τ (τ.clients c).blockCache handle (H.published.applyAll (H.pending c fh)) := by
  obtain ⟨file,inv⟩ := trace_inv positive labels created.inv (fun inv conform => Conform.orderly conform inv) conform ran
  have calm : Calm f τ := by
    intro c acting
    obtain ⟨p,underway,_⟩ := acting
    rw [settled c] at underway
    cases underway
  refine ⟨file,inv.base.alive,(inv.calm calm).size,?_⟩
  intro c fh handle up reaches idle found mine current
  obtain ⟨sync,reached⟩ := inv.base.reached reaches
  exact inv.reads positive calm sync reached idle found mine current

/-- A `WriteBlock` of client 0 while clients 1, 2, ... publish nothing. -/
theorem alone_send (idx : BlockIdx)
    (current : ∀ p ∈ (σ.clients 0).publishes f, ∀ file ∈ σ.metadata.fileAt f, p.generation = file.generation)
    (reader : (σ.clients 1).publishes f = none) (others : ∀ n, (σ.clients (n + 2)).publishes f = none) :
    Alone f (.send 0 idx) σ := by
  intro p underway
  refine ⟨current p underway,?_⟩
  intro other apart acting
  obtain ⟨q,publishing,_⟩ := acting
  match other with
  | 0 => exact apart rfl
  | 1 =>
    rw [reader] at publishing
    cases publishing
  | n + 2 =>
    rw [others n] at publishing
    cases publishing

/-- A write of one byte through `fh` by client `c`, in blocks of one byte. -/
def writeByte (c : ClientId) (fh : Fh) (offset : Nat) (byte : UInt8) : List Label := [.write c fh offset [byte],.chunk c everyNode]

/-- A flush of one dirty block, up to its `Close`. -/
def flushBlock (c : ClientId) (fh : Fh) (idx : BlockIdx) : List Label :=
  [.publish c fh .primariesOnly Host.still,.send c idx,.close c Host.still 0]

def openFile (c : ClientId) : List Label := [.openRead c ⟨2,0⟩,.openInsert c]

/-- Client 0 writes and flushes; client 1 opens the file and caches its block. -/
def writtenThenRead : List Label := writeByte 0 1 0 7 ++ flushBlock 0 1 0 ++ openFile 1 ++ [.fetch 1 2 0 everyNode]

theorem close_to_open_read : ∃ τ H, trace 1 2 writtenThenRead (withFile 1 ["n"]) .blank = some (τ,H) ∧
    H.published.slice 0 1 = [7] ∧ ∃ file, τ.metadata.fileAt 2 = some file ∧ file.size = H.published.size ∧
      ∀ c (fh : Fh) handle up, Reaches up τ.metadata → (τ.clients c).task = none →
        (τ.clients c).openFiles[fh]? = some handle → handle.ino = 2 → handle.generation = file.generation →
        Reads 1 up τ (τ.clients c).blockCache handle (H.published.applyAll (H.pending c fh)) := by
  have ran : (trace 1 2 writtenThenRead (withFile 1 ["n"]) .blank).isSome = true := by decide
  refine ⟨_,_,(Option.some_get ran).symm,by decide,?_⟩
  refine close_to_open (by decide) (withFile_created (by decide) (by decide) (by decide) (by decide)) writtenThenRead
    (by decide) (Option.some_get ran).symm ?_
  intro c
  match c with
  | 0 => rfl
  | 1 => rfl
  | _ + 2 => rfl

/-- In a run whose steps are orderly, whenever no publish that has written to a store
is in progress, `Meta.Open` and reads after it return the file as the accepted
`Close`s left it. -/
theorem unclosed_publish_unseen (positive : 0 < bs) (created : Created f σ) (labels : List Label)
    (orderly : Throughout bs (Orderly f) labels σ) (ran : trace bs f labels σ .blank = some (τ,H)) (calm : Calm f τ)
    (c : ClientId) (flags : Nat) (up : NodeId → Bool) (sync : InSync f up τ) (reached : Reached f up τ) :
    ∃ snapshot, MetaService.openRead ⟨f,flags⟩ τ.metadata = .ok snapshot ∧
      Reads bs up τ (τ.clients c).blockCache (snapshotFile snapshot) H.published := by
  obtain ⟨file,inv⟩ := trace_inv positive labels created.inv (fun _ orderly => orderly) orderly ran
  obtain ⟨snapshot,opened,_,reads⟩ := inv.opens positive calm sync reached c flags
  exact ⟨snapshot,opened,reads⟩

/-- Client 1 gives a publish up before any store has executed a write of it. -/
def calledOff : List Label := writeByte 0 1 0 7 ++ flushBlock 0 1 0 ++ openFile 1 ++ writeByte 1 2 0 8 ++
  [.publish 1 2 .primariesOnly Host.still,.abort 1 []]

theorem calledOff_orderly : Throughout 1 (Orderly 2) calledOff (withFile 1 ["n"]) := by
  refine throughout_cons rfl trivial ?_
  refine throughout_cons rfl (fun _ => by decide) ?_
  refine throughout_cons rfl (by decide : _ ≠ _) ?_
  refine throughout_cons rfl trivial ?_
  refine throughout_cons rfl (by decide : ∀ p ∈ Client.publishes _ 2, Matches 2 p _) ?_
  refine throughout_cons rfl trivial ?_
  refine throughout_cons rfl (by decide : HandlesLeft _) ?_
  refine throughout_cons rfl trivial ?_
  refine throughout_cons rfl (fun _ => by decide) ?_
  refine throughout_cons rfl (by decide : _ ≠ _) ?_
  exact throughout_cons rfl (by decide : ∀ p ∈ Client.publishes _ 2, p.acked.isEmpty = true ∧ _ = []) trivial

theorem calledOff_runs : (trace 1 2 calledOff (withFile 1 ["n"]) .blank).isSome = true := by decide

theorem unclosed_publish_unseen_aborted : ∃ τ H, trace 1 2 calledOff (withFile 1 ["n"]) .blank = some (τ,H) ∧
    H.published.slice 0 1 = [7] ∧ ∃ snapshot, MetaService.openRead ⟨2,0⟩ τ.metadata = .ok snapshot ∧
      Reads 1 everyNode τ (τ.clients 2).blockCache (snapshotFile snapshot) H.published := by
  have created : Created 2 (withFile 1 ["n"]) := withFile_created (by decide) (by decide) (by decide) (by decide)
  have calm : Calm 2 ((trace 1 2 calledOff (withFile 1 ["n"]) .blank).get calledOff_runs).1 := by
    intro c acting
    obtain ⟨p,underway,_⟩ := acting
    match c with
    | 0 => cases underway
    | 1 => cases underway
    | _ + 2 => cases underway
  have sync : InSync 2 everyNode ((trace 1 2 calledOff (withFile 1 ["n"]) .blank).get calledOff_runs).1 := by decide
  refine ⟨_,_,(Option.some_get calledOff_runs).symm,by decide,?_⟩
  refine unclosed_publish_unseen Nat.one_pos created calledOff calledOff_orderly (Option.some_get calledOff_runs).symm calm 2 0
    everyNode sync ?_
  intro file alive idx placement placed
  exact ⟨placement.primary,List.mem_cons_self,rfl⟩

/-- Clients 1 and 2 open the same generation. Client 2 publishes first, so the `Close`
of client 1 is refused, but its block is already in the store. -/
def lateWriter : List Label := writeByte 0 1 0 7 ++ flushBlock 0 1 0 ++ openFile 1 ++ openFile 2 ++
  writeByte 2 3 0 9 ++ flushBlock 2 3 0 ++ writeByte 1 2 0 8 ++ flushBlock 1 2 0

theorem rejected_close_seen : ∃ τ H, trace 1 2 lateWriter (withFile 1 ["n"]) .blank = some (τ,H) ∧
    (∀ c, (τ.clients c).publishes 2 = none) ∧ H.published.slice 0 1 = [9] ∧
    ∃ snapshot, MetaService.openRead ⟨2,0⟩ τ.metadata = .ok snapshot ∧
      ((snapshotFile snapshot).read 1 (τ.answer everyNode 2) 0 1 (τ.clients 3).blockCache).1 = .ok [8] := by
  have ran : (trace 1 2 lateWriter (withFile 1 ["n"]) .blank).isSome = true := by decide
  refine ⟨_,_,(Option.some_get ran).symm,?_,by decide,_,rfl,rfl⟩
  intro c
  match c with
  | 0 => rfl
  | 1 => rfl
  | 2 => rfl
  | _ + 3 => rfl

end Dtmpfs
