import Dtmpfs.Visibility

/-! Replicas against their primary. The background writes of a flush reach the replicas
of a block in any order; a store keeps whatever it was sent last. -/
namespace Dtmpfs
open MetaService MetaState FlatFile OrderedMap Cluster

variable {bs : Nat} {f : InodeId} {σ τ : Cluster} {file file' : FileRecord} {G H : History} {T : NodeId → Prop}

namespace Cluster

/-- The background writes of block `idx` of `f` on their way to `node`, in the order sent. -/
def flight (σ : Cluster) (node : NodeId) (f : InodeId) (idx : BlockIdx) : List WriteBlock :=
  σ.writes.filter (fun m => decide (m.node = node ∧ m.key = ⟨f,idx,0⟩))

/-- What `node` holds of the block once they have arrived in that order. -/
def latest (σ : Cluster) (node : NodeId) (f : InodeId) (idx : BlockIdx) : Option Bytes :=
  match (σ.flight node f idx).getLast? with
  | some m => some m.data
  | none => σ.slot node f idx

theorem mem_flight {σ : Cluster} {node : NodeId} {f : InodeId} {idx : BlockIdx} {m : WriteBlock} :
    m ∈ σ.flight node f idx ↔ m ∈ σ.writes ∧ m.node = node ∧ m.key = ⟨f,idx,0⟩ := by
  simp only [flight,List.mem_filter,decide_eq_true_iff]

theorem latest_congr {node : NodeId} {idx : BlockIdx} (flights : τ.flight node f idx = σ.flight node f idx)
    (slots : τ.slot node f idx = σ.slot node f idx) : τ.latest node f idx = σ.latest node f idx := by
  simp only [latest,flights,slots]

theorem latest_landed {node : NodeId} {idx : BlockIdx} (landed : σ.flight node f idx = []) :
    σ.latest node f idx = σ.slot node f idx := by
  simp only [latest,landed,List.getLast?_nil]

end Cluster

/-- An `fsync` under way has written the primary of block `idx` but not yet `node`. -/
def Unsent (f : InodeId) (σ : Cluster) (idx : BlockIdx) (placement : BlockPlacement) (node : NodeId) : Prop :=
  ∃ c p j, (σ.clients c).publishes f = some p ∧ p.wait = .allReplicas ∧ 0 < p.ackedAt idx ∧
    placement.nodes[j]? = some node ∧ p.ackedAt idx ≤ j

/-- The replicas among the nodes of `T` will hold what the primary holds once the
background writes have arrived in order. -/
structure Replicated (T : NodeId → Prop) (f : InodeId) (σ : Cluster) (file : FileRecord) : Prop where
  current : ∀ (idx : BlockIdx) (placement : BlockPlacement), file.blocks[idx]? = some placement →
    ∀ node ∈ placement.replicas, T node → ¬ Unsent f σ idx placement node →
      σ.latest node f idx = σ.slot placement.primary f idx
  direct : ∀ c p, (σ.clients c).publishes f = some p → p.wait = .allReplicas →
    ∀ (idx : BlockIdx) (placement : BlockPlacement), file.blocks[idx]? = some placement →
    ∀ j node, placement.nodes[j]? = some node → T node → 0 < j → j < p.ackedAt idx → σ.flight node f idx = []

/-- Reads of `f` are answered by a primary, or by a node of `T` that no write of the
block is on its way to. -/
def Fresh (T : NodeId → Prop) (f : InodeId) (up : NodeId → Bool) (σ : Cluster) : Prop :=
  ∀ file ∈ σ.metadata.fileAt f, ∀ entry ∈ file.blocks.toList,
    ∀ node ∈ entry.2.nodes.find? (fun n => up n && σ.metadata.nodes.contains n),
      node = entry.2.primary ∨ (T node ∧ σ.flight node f entry.1 = [])

instance [DecidablePred T] (up : NodeId → Bool) : Decidable (Fresh T f up σ) :=
  inferInstanceAs (Decidable (∀ file ∈ σ.metadata.fileAt f, ∀ entry ∈ file.blocks.toList,
    ∀ node ∈ entry.2.nodes.find? (fun n => up n && σ.metadata.nodes.contains n),
      node = entry.2.primary ∨ (T node ∧ σ.flight node f entry.1 = [])))

/-- The steps under which the replicas among the nodes of `T` follow their primary: one
writer at a time, background writes to them arrive in the order sent and are neither
lost nor refused, the writes of an `fsync` wait for those before them, and no primary and
no node of `T` with blocks of the file restarts. -/
def Sequenced (T : NodeId → Prop) (f : InodeId) (label : Label) (σ : Cluster) : Prop :=
  match label with
  | .deliver m => m.key.ino = f → T m.node → (σ.flight m.node f m.key.blockIdx).head? = some m ∧
      ((σ.stores m.node).writeBlock m.key m.data).1.isOk = true
  | .lose m => m.key.ino = f → ¬ T m.node
  | .send c idx => Alone f (.send c idx) σ ∧ ∀ p ∈ (σ.clients c).publishes f, 0 < p.ackedAt idx →
      ∀ placement ∈ p.blockMap[idx]?, ∀ node ∈ placement.nodes[p.ackedAt idx]?, T node → σ.flight node f idx = []
  | .restart node => NotPrimary f node σ.metadata ∧ (T node → Unused f node σ.metadata)
  | .fetch _ _ _ up | .chunk _ up => Calm f σ → Fresh T f up σ
  | .call host request => Orderly f (.call host request) σ
  | .create c host r flags => Orderly f (.create c host r flags) σ
  | .openInsert c => Orderly f (.openInsert c) σ
  | .publish c fh wait host => Orderly f (.publish c fh wait host) σ
  | .close c host clock => Orderly f (.close c host clock) σ
  | .abort c stray => Orderly f (.abort c stray) σ
  | _ => True

/-- No publish in progress has written block `idx` of `f` to a store. -/
def Untouched (f : InodeId) (idx : BlockIdx) (σ : Cluster) : Prop :=
  ∀ c p, (σ.clients c).publishes f = some p → p.ackedAt idx = 0

/-- The node that answers for block `idx` is its primary, or one of `T` that no write of
the block is on its way to. -/
def FreshAt (T : NodeId → Prop) (f : InodeId) (up : NodeId → Bool) (idx : BlockIdx) (σ : Cluster) : Prop :=
  ∀ file ∈ σ.metadata.fileAt f, ∀ placement ∈ file.blocks[idx]?,
    ∀ node ∈ placement.nodes.find? (fun n => up n && σ.metadata.nodes.contains n),
      node = placement.primary ∨ (T node ∧ σ.flight node f idx = [])

instance [DecidablePred T] (up : NodeId → Bool) (idx : BlockIdx) : Decidable (FreshAt T f up idx σ) :=
  inferInstanceAs (Decidable (∀ file ∈ σ.metadata.fileAt f, ∀ placement ∈ file.blocks[idx]?,
    ∀ node ∈ placement.nodes.find? (fun n => up n && σ.metadata.nodes.contains n),
      node = placement.primary ∨ (T node ∧ σ.flight node f idx = [])))

theorem Fresh.at {up : NodeId → Bool} (fresh : Fresh T f up σ) (idx : BlockIdx) : FreshAt T f up idx σ := by
  intro record alive placement placed
  exact fresh record alive (idx,placement) (Std.ExtTreeMap.mem_toList_iff_getElem?_eq_some.mpr placed)

theorem Replicated.syncedAt {up : NodeId → Bool} {idx : BlockIdx} (replicated : Replicated T f σ file)
    (alive : σ.metadata.fileAt f = some file) (untouched : Untouched f idx σ) (fresh : FreshAt T f up idx σ) : SyncedAt f up idx σ := by
  intro record present placement placed node found
  rcases fresh record present placement placed node found with rfl | ⟨trusted,landed⟩
  · rfl
  · rw [Option.mem_def,alive] at present
    cases present
    rcases List.mem_cons.mp (List.mem_of_find?_eq_some found) with rfl | replica
    · rfl
    · rw [← latest_landed landed]
      refine replicated.current idx placement placed node replica trusted ?_
      intro unsent
      obtain ⟨c,p,_,underway,_,acked,_⟩ := unsent
      exact absurd (untouched c p underway) (Nat.ne_of_gt acked)

theorem Replicated.inSync {up : NodeId → Bool} (replicated : Replicated T f σ file) (alive : σ.metadata.fileAt f = some file)
    (calm : Calm f σ) (fresh : Fresh T f up σ) : InSync f up σ := by
  intro record present entry member
  have placed : record.blocks[entry.1]? = some entry.2 := Std.ExtTreeMap.mem_toList_iff_getElem?_eq_some.mp member
  exact replicated.syncedAt alive (calm.untouched entry.1) (fresh.at entry.1) record present entry.2 placed

/-- Sequenced but for the nodes that answer reads. -/
def Paced (T : NodeId → Prop) (f : InodeId) (label : Label) (σ : Cluster) : Prop :=
  (∀ c fh idx up, label ≠ .fetch c fh idx up) → (∀ c up, label ≠ .chunk c up) → Sequenced T f label σ

/-- The restart of a replica is all that such a step allows beyond an orderly one. -/
theorem Paced.undamaged {label : Label} (paced : Paced T f label σ) (kept : ∀ node, label ≠ .restart node) : Undamaged f label σ := by
  intro unfetched unchunked
  have sequenced := paced unfetched unchunked
  cases label with
  | restart node => exact absurd rfl (kept node)
  | fetch c fh idx up => exact absurd rfl (unfetched c fh idx up)
  | chunk c up => exact absurd rfl (unchunked c up)
  | call host request => exact sequenced
  | create c host r flags => exact sequenced
  | openInsert c => exact sequenced
  | publish c fh wait host => exact sequenced
  | close c host clock => exact sequenced
  | abort c stray => exact sequenced
  | _ => exact trivial

theorem Sequenced.asked {label : Label} (sequenced : Sequenced T f label σ) (replicated : Replicated T f σ file)
    (alive : σ.metadata.fileAt f = some file) : AskedInSync bs f label σ := by
  cases label with
  | fetch c fh idx up => exact Orderly.asked (fun calm => replicated.inSync alive calm (sequenced calm))
  | chunk c up => exact Orderly.asked (fun calm => replicated.inSync alive calm (sequenced calm))
  | _ => exact fun _ _ _ _ asks => by cases asks

theorem paced_inv {label : Label} (positive : 0 < bs) (inv : Inv bs f σ file G) (paced : Paced T f label σ)
    (sync : AskedInSync bs f label σ) (stepped : step bs label σ = some τ) :
    ∃ file', Inv bs f τ file' (G.next bs f label σ) ∧ Evolves f label σ τ file file' G (G.next bs f label σ) := by
  rcases Classical.em (∃ node, label = .restart node) with ⟨node,rfl⟩ | kept
  · have own : HandlesOwn τ := handlesOwn_undrawn inv.own stepped (fun drawn => drawn)
    exact ⟨file,⟨tied_restart inv.toTied (paced nofun nofun).1 stepped,own⟩,.inl ⟨rfl,.refl _,rfl,nofun⟩⟩
  · refine inv_step_asked positive inv (paced.undamaged ?_) sync stepped
    intro node named
    exact kept ⟨node,named⟩

theorem Paced.alone {label : Label} (paced : Paced T f label σ) : Alone f label σ := by
  cases label with
  | send c idx => exact (paced nofun nofun).1
  | _ => trivial

/-- The step has nothing to do with writes of `f` that matter to `T`. -/
structure Quiet (T : NodeId → Prop) (f : InodeId) (label : Label) (σ : Cluster) : Prop where
  sent : ∀ c idx p, label = .send c idx → (σ.clients c).publishes f ≠ some p
  arrived : ∀ m, label = .deliver m → m.key.ino = f → ¬ T m.node

theorem flight_quiet {label : Label} (quiet : Quiet T f label σ) (paced : Paced T f label σ)
    (stepped : step bs label σ = some τ) {node : NodeId} (trusted : T node) (idx : BlockIdx) :
    τ.flight node f idx = σ.flight node f idx := by
  have foreign (more : List WriteBlock) (others : ∀ m ∈ more, m.key.ino ≠ f) :
      more.filter (fun m => decide (m.node = node ∧ m.key = ⟨f,idx,0⟩)) = [] := by
    rw [List.filter_eq_nil_iff]
    intro m member mine
    exact others m member (congrArg BlockKey.ino (of_decide_eq_true mine).2)
  rcases step_writes stepped with same | ⟨c,i,p,placement,data,rfl,task,_,_,grown⟩ | ⟨c,stray,p,rfl,task,grown⟩ |
    ⟨m,waiting,label_,shrunk⟩
  · simp only [flight,same]
  · have other : p.ino ≠ f := fun mine => quiet.sent c i p rfl (publishes_of task mine)
    rw [flight,grown,List.filter_append,foreign (p.background i placement data) ?_,List.append_nil]
    · rfl
    · intro m member mine
      exact other ((congrArg BlockKey.ino (background_mem member).1).symm.trans mine)
  · rw [flight,grown,List.filter_append,foreign (stray.filterMap (nextWrite p)) ?_,List.append_nil]
    · rfl
    · intro m member mine
      obtain ⟨i,strays,next⟩ := List.mem_filterMap.mp member
      have own : p.ino = f := (nextWrite_ino next).symm.trans mine
      obtain ⟨_,none⟩ := paced nofun nofun p (publishes_of task own)
      rw [none] at strays
      cases strays
  · rw [flight,shrunk,← List.erase_filter,List.erase_of_not_mem]
    · rfl
    · intro member
      obtain ⟨_,mine⟩ := List.mem_filter.mp member
      obtain ⟨here,named⟩ := of_decide_eq_true mine
      have own : m.key.ino = f := congrArg BlockKey.ino named
      rcases label_ with rfl | rfl
      · exact quiet.arrived m rfl own (here ▸ trusted)
      · exact paced nofun nofun own (here ▸ trusted)

/-- Nothing executes a write of a block at a node that matters. -/
theorem unwritten_quiet {label : Label} (quiet : Quiet T f label σ) (base : Base f σ file)
    (stepped : step bs label σ = some τ) {idx : BlockIdx} {node : NodeId}
    (matters : ∀ placement, file.blocks[idx]? = some placement → node ∈ placement.replicas → T node) (bytes : Bytes) :
    ¬ Executes node ⟨f,idx,0⟩ bytes label σ := by
  intro executed
  cases label with
  | send c i =>
    obtain ⟨p,placement,task,same,_⟩ := executed
    exact quiet.sent c i p rfl (publishes_of task (congrArg BlockKey.ino same).symm)
  | deliver m =>
    cases executed
    obtain ⟨waiting,_⟩ := deliver_steps stepped
    obtain ⟨_,placement,placed,replica⟩ := base.messages _ waiting rfl
    exact quiet.arrived _ rfl rfl (matters placement placed replica)
  | _ => exact executed

theorem slot_quiet {label : Label} (quiet : Quiet T f label σ) (paced : Paced T f label σ) (base : Base f σ file)
    (stepped : step bs label σ = some τ) {idx : BlockIdx} {placement : BlockPlacement} (placed : file.blocks[idx]? = some placement)
    {node : NodeId} (listed : node ∈ placement.nodes) (matters : node = placement.primary ∨ T node) :
    τ.slot node f idx = σ.slot node f idx := by
  have trusted (other : BlockPlacement) (found : file.blocks[idx]? = some other) (replica : node ∈ other.replicas) : T node := by
    rw [placed] at found
    cases found
    rcases matters with rfl | trusted
    · exact absurd replica (base.placed idx placement placed).apart
    · exact trusted
  rcases step_block stepped node ⟨f,idx,0⟩ with same | ⟨bytes,executed,_⟩ | ⟨message,waiting,_,_,named⟩ | rfl
  · exact same
  · exact absurd executed (unwritten_quiet quiet base stepped trusted bytes)
  · exact absurd (congrArg BlockKey.ino named) (base.deletes message waiting)
  · have member := Std.ExtTreeMap.mem_toList_iff_getElem?_eq_some.mpr placed
    rcases matters with rfl | trusted
    · exact absurd rfl ((paced nofun nofun).1 file base.alive (idx,placement) member)
    · exact absurd listed ((paced nofun nofun).2 trusted file base.alive (idx,placement) member)

/-- A block without a placement is nowhere. -/
theorem slot_unplaced {label : Label} (quiet : Quiet T f label σ) (base : Base f σ file) (stepped : step bs label σ = some τ)
    {idx : BlockIdx} (unplaced : file.blocks[idx]? = none) (node : NodeId) : τ.slot node f idx = none := by
  have empty := base.vacant node idx unplaced
  have nowhere (placement : BlockPlacement) (placed : file.blocks[idx]? = some placement) (_ : node ∈ placement.replicas) : T node := by
    rw [unplaced] at placed
    cases placed
  rcases step_block stepped node ⟨f,idx,0⟩ with same | ⟨bytes,executed,_⟩ | ⟨message,waiting,_,_,named⟩ | rfl
  · exact same.trans empty
  · exact absurd executed (unwritten_quiet quiet base stepped nowhere bytes)
  · exact absurd (congrArg BlockKey.ino named) (base.deletes message waiting)
  · cases Option.some.inj stepped
    rw [slot_setStore,if_pos rfl]
    simp [StoreState.new]

theorem flight_unplaced (base : Base f σ file) {idx : BlockIdx} (unplaced : file.blocks[idx]? = none) (node : NodeId) :
    σ.flight node f idx = [] := by
  rw [List.eq_nil_iff_forall_not_mem]
  intro m member
  obtain ⟨waiting,_,named⟩ := mem_flight.mp member
  obtain ⟨_,placement,placed,_⟩ := base.messages m waiting (congrArg BlockKey.ino named)
  rw [named,unplaced] at placed
  cases placed

theorem finished_awaited {p : Publish} (finished : p.finished = true) {idx : BlockIdx} {data : Bytes}
    (dirty : p.dirty[idx]? = some data) : p.awaited idx ≤ p.ackedAt idx := by
  have member : idx ∈ p.dirty.keys := Std.ExtTreeMap.mem_keys.mpr ((contains_iff _ _).mpr ⟨data,dirty⟩)
  exact of_decide_eq_true (List.all_eq_true.mp finished idx member)

/-- An `fsync` that has not reached a replica goes on. -/
theorem unsent_quiet {label : Label} (quiet : Quiet T f label σ) (paced : Paced T f label σ) (base : Base f σ file)
    (stepped : step bs label σ = some τ) {idx : BlockIdx} {placement : BlockPlacement} (placed : file.blocks[idx]? = some placement)
    {node : NodeId} (unsent : Unsent f σ idx placement node) : Unsent f τ idx placement node := by
  obtain ⟨c,p,j,underway,wait,acked,listed,behind⟩ := unsent
  obtain ⟨task,mine⟩ := publishes_some underway
  have going : ¬ EndsPublish c label := by
    intro ends
    unfold EndsPublish at ends
    split at ends
    next host clock =>
      subst ends
      obtain ⟨q,_,task',_,finished,_⟩ := close_steps stepped
      rw [task] at task'
      cases task'
      obtain ⟨data,dirty⟩ := ((base.clients _).publishing p task).acked idx acked
      obtain ⟨placement',placed'⟩ := ((base.clients _).publishing p task).placed idx data dirty
      have recorded := base.recorded task mine placed'
      rw [placed] at recorded
      cases recorded
      have all := finished_awaited finished dirty
      simp only [Publish.awaited,wait,placed',Option.map_some,Option.getD_some] at all
      have inside := (List.getElem?_eq_some_iff.mp listed).1
      omega
    next stray =>
      subst ends
      obtain ⟨none,_⟩ := paced nofun nofun p underway
      rw [Publish.ackedAt,Std.ExtTreeMap.isEmpty_iff.mp none,Std.ExtTreeMap.getElem?_empty] at acked
      cases acked
    next => exact ends
  rcases publishing_step task going stepped with same | ⟨i,rfl,_⟩
  · exact ⟨c,p,j,publishes_of same mine,wait,acked,listed,behind⟩
  · exact absurd underway (quiet.sent c i p rfl)

theorem replicated_quiet {label : Label} (replicated : Replicated T f σ file) (quiet : Quiet T f label σ)
    (paced : Paced T f label σ) (base : Base f σ file) (stepped : step bs label σ = some τ)
    (grown : Agrees file.blocks file'.blocks) : Replicated T f τ file' := by
  have before {idx : BlockIdx} {placement : BlockPlacement} (placed : file'.blocks[idx]? = some placement) :
      file.blocks[idx]? = some placement ∨ file.blocks[idx]? = none := by
    cases old : file.blocks[idx]? with
    | none => exact .inr rfl
    | some other =>
      have kept := grown idx other old
      rw [placed] at kept
      cases kept
      exact .inl rfl
  constructor
  · intro idx placement placed node replica trusted sent
    rcases before placed with old | unplaced
    · have flights := flight_quiet quiet paced stepped trusted idx
      have own := slot_quiet quiet paced base stepped old (List.mem_cons_of_mem _ replica) (.inr trusted)
      have primary := slot_quiet quiet paced base stepped old List.mem_cons_self (.inl rfl)
      rw [latest_congr flights own,primary]
      exact replicated.current idx placement old node replica trusted
        (fun unsent => sent (unsent_quiet quiet paced base stepped old unsent))
    · rw [latest_landed,slot_unplaced quiet base stepped unplaced,slot_unplaced quiet base stepped unplaced]
      rw [flight_quiet quiet paced stepped trusted,flight_unplaced base unplaced]
  · intro c p underway wait idx placement placed j node listed trusted later acked
    rw [flight_quiet quiet paced stepped trusted]
    rcases before placed with old | unplaced
    · rcases publishes_step stepped underway with same | none | ⟨i,q,rfl,before,_⟩
      · exact replicated.direct c p same wait idx placement old j node listed trusted later acked
      · rw [none idx] at acked
        cases acked
      · exact absurd before (quiet.sent c i q rfl)
    · exact flight_unplaced base unplaced node

section Deliver

/-- A background write arrives in its turn: what the node ends up with is the same. -/
theorem latest_deliver {m : WriteBlock} {idx : BlockIdx} (named : m.key = ⟨f,idx,0⟩)
    (first : (σ.flight m.node f idx).head? = some m) (accepted : ((σ.stores m.node).writeBlock m.key m.data).1.isOk = true)
    (stepped : deliver m σ = some τ) : τ.latest m.node f idx = σ.latest m.node f idx := by
  obtain ⟨rest,shape⟩ : ∃ rest, σ.flight m.node f idx = m::rest := by
    cases flights : σ.flight m.node f idx with
    | nil =>
      rw [flights] at first
      cases first
    | cons head rest =>
      rw [flights] at first
      cases first
      exact ⟨rest,rfl⟩
  unfold deliver at stepped
  split at stepped
  next waiting =>
    cases Option.some.inj stepped
    have left : (σ.writes.erase m).filter (fun m' => decide (m'.node = m.node ∧ m'.key = ⟨f,idx,0⟩)) = rest := by
      rw [← List.erase_filter]
      change (σ.flight m.node f idx).erase m = rest
      rw [shape,List.erase_cons_head]
    have held : ((σ.stores m.node).writeBlock m.key m.data).2.blocks[(⟨f,idx,0⟩ : BlockKey)]? = some m.data := by
      rcases StoreState.writeBlock_cases m.key m.data (σ.stores m.node) with ⟨_,refused⟩ | wrote
      · rw [refused] at accepted
        cases accepted
      · rw [wrote,StoreState.insertBlock_get,if_pos named]
    simp only [latest,flight,left,slot,setStore,if_true,held]
    change _ = match (σ.flight m.node f idx).getLast? with | some m => some m.data | none => σ.slot m.node f idx
    rw [shape]
    cases rest with
    | nil => rfl
    | cons next more =>
      have last := List.getLast?_eq_some_getLast (List.cons_ne_nil next more)
      rw [List.getLast?_cons_cons,last]
  next => cases stepped

theorem replicated_deliver {m : WriteBlock} (replicated : Replicated T f σ file) (base : Base f σ file)
    (paced : Paced T f (.deliver m) σ) (mine : m.key.ino = f) (trusted : T m.node) (stepped : deliver m σ = some τ) :
    Replicated T f τ file := by
  obtain ⟨waiting,store,written,shape⟩ := deliver_steps stepped
  obtain ⟨generation,_,_,_⟩ := base.messages m waiting mine
  obtain ⟨first,accepted⟩ := paced nofun nofun mine trusted
  have named : m.key = ⟨f,m.key.blockIdx,0⟩ := by rw [← mine,← generation]
  have clients : τ.clients = σ.clients := by
    rw [shape]
    rfl
  have flights {node : NodeId} {idx : BlockIdx} (other : ¬ (m.node = node ∧ m.key = ⟨f,idx,0⟩)) :
      τ.flight node f idx = σ.flight node f idx := by
    rw [flight,shape,← List.erase_filter,List.erase_of_not_mem]
    · rfl
    · intro member
      exact other (of_decide_eq_true (List.mem_filter.mp member).2)
  have slots {node : NodeId} {idx : BlockIdx} (other : ¬ (m.node = node ∧ m.key = ⟨f,idx,0⟩)) :
      τ.slot node f idx = σ.slot node f idx := by
    have moved : step 1 (.deliver m) σ = some τ := stepped
    rcases step_block moved node ⟨f,idx,0⟩ with same | ⟨bytes,executed,_⟩ | ⟨_,_,wrong,_⟩ | wrong
    · exact same
    · cases executed
      exact absurd ⟨rfl,rfl⟩ other
    · cases wrong
    · cases wrong
  have unsent {idx : BlockIdx} {placement : BlockPlacement} {node : NodeId} (before : Unsent f σ idx placement node) :
      Unsent f τ idx placement node := by
    unfold Unsent
    rw [clients]
    exact before
  constructor
  · intro idx placement placed node replica listed sent
    have primary : τ.slot placement.primary f idx = σ.slot placement.primary f idx := by
      refine slots ?_
      intro here
      obtain ⟨_,placement',placed',replica'⟩ := base.messages m waiting mine
      rw [here.2,placed] at placed'
      cases placed'
      rw [here.1] at replica'
      exact absurd replica' (base.placed idx placement placed).apart
    rw [primary,← replicated.current idx placement placed node replica listed (fun before => sent (unsent before))]
    rcases Classical.em (m.node = node ∧ m.key = ⟨f,idx,0⟩) with ⟨rfl,here⟩ | other
    · have same : m.key.blockIdx = idx := congrArg BlockKey.blockIdx here
      rw [same] at first
      exact latest_deliver here first accepted stepped
    · exact latest_congr (flights other) (slots other)
  · intro c p underway wait idx placement placed j node listed trusted' later acked
    rw [clients] at underway
    have none := replicated.direct c p underway wait idx placement placed j node listed trusted' later acked
    rw [List.eq_nil_iff_forall_not_mem]
    intro m' member
    obtain ⟨waiting',here⟩ := mem_flight.mp member
    rw [shape] at waiting'
    have old : m' ∈ σ.flight node f idx := mem_flight.mpr ⟨List.mem_of_mem_erase waiting',here⟩
    rw [none] at old
    cases old

end Deliver

section Send

variable {c : ClientId} {i idx : BlockIdx} {p : Publish} {placement : BlockPlacement} {node : NodeId}

theorem background_filter (p : Publish) (i : BlockIdx) (placement : BlockPlacement) (data : Bytes) (node : NodeId)
    (other : i ≠ idx ∨ p.wait = .allReplicas) :
    (p.background i placement data).filter (fun m => decide (m.node = node ∧ m.key = ⟨f,idx,0⟩)) = [] := by
  rw [List.filter_eq_nil_iff]
  intro m member mine
  rcases other with apart | wait
  · have named := (background_mem member).1.symm.trans (of_decide_eq_true mine).2
    exact apart (congrArg BlockKey.blockIdx named)
  · simp only [Publish.background,wait,List.not_mem_nil] at member

/-- After the background writes of a flush the last one to every replica has the data. -/
theorem background_last (flushed : p.wait = .primariesOnly) (mine : p.ino = f) (data : Bytes) (replica : node ∈ placement.replicas)
    (before : List WriteBlock) :
    ∃ m, (before ++ (p.background i placement data).filter (fun m => decide (m.node = node ∧ m.key = ⟨f,i,0⟩))).getLast? = some m ∧
      m.data = data := by
  have member : (⟨node,⟨p.ino,i,0⟩,data⟩ : WriteBlock) ∈
      (p.background i placement data).filter (fun m => decide (m.node = node ∧ m.key = ⟨f,i,0⟩)) := by
    rw [List.mem_filter,decide_eq_true_iff,mine]
    refine ⟨?_,rfl,rfl⟩
    simp only [Publish.background,flushed,mine]
    exact List.mem_map.mpr ⟨node,replica,rfl⟩
  have some_ := List.ne_nil_of_mem member
  refine ⟨List.getLast _ some_,?_,?_⟩
  · rw [List.getLast?_append_of_ne_nil _ some_,List.getLast?_eq_some_getLast some_]
  · have last := List.mem_of_mem_filter (List.getLast_mem some_)
    exact (background_mem last).2.1

/-- What a `WriteBlock` of a publish of `f` changes. -/
structure Sending (f : InodeId) (c : ClientId) (i : BlockIdx) (p : Publish) (placement : BlockPlacement) (data : Bytes) (target : NodeId)
    (σ τ : Cluster) : Prop where
  mine : p.ino = f
  dirty : p.dirty[i]? = some data
  placed : p.blockMap[i]? = some placement
  waiting : p.ackedAt i < p.awaited i
  chosen : placement.nodes[p.ackedAt i]? = some target
  advanced : (τ.clients c).publishes f = some (p.ack i)
  others : ∀ c', c' ≠ c → τ.clients c' = σ.clients c'
  slots : ∀ n j, τ.slot n f j = if n = target ∧ j = i then some data else σ.slot n f j
  flights : ∀ n j, τ.flight n f j =
    σ.flight n f j ++ (p.background i placement data).filter (fun m => decide (m.node = n ∧ m.key = ⟨f,j,0⟩))

theorem send_sending (underway : (σ.clients c).publishes f = some p) (stepped : send c i σ = some τ) :
    ∃ placement data target, Sending f c i p placement data target σ τ := by
  obtain ⟨task,mine⟩ := publishes_some underway
  obtain ⟨q,data,placement,target,task',dirty,placed,waiting,chosen,_,shape⟩ := send_steps stepped
  rw [task] at task'
  cases task'
  refine ⟨placement,data,target,mine,dirty,placed,waiting,chosen,?_,?_,?_,?_⟩
  · refine publishes_of ?_ mine
    rw [shape]
    simp only [setClient_same]
  · intro c' differ
    rw [shape]
    simp only [setClient,if_neg differ]
    rfl
  · intro n j
    have moved := slot_insertBlock σ target n f i j data
    rw [shape,← moved,mine]
    rfl
  · intro n j
    rw [shape]
    simp only [flight,List.filter_append]

/-- With one writer at a time, a publish that has written anything is the one at work. -/
theorem alone_publish (alone : Alone f (.send c i) σ) (underway : (σ.clients c).publishes f = some p) {c' : ClientId} {q : Publish}
    {j : BlockIdx} (publishing : (σ.clients c').publishes f = some q) (acked : 0 < q.ackedAt j) : c' = c ∧ q = p := by
  rcases Classical.em (c' = c) with rfl | differ
  · rw [underway] at publishing
    exact ⟨rfl,(Option.some.inj publishing).symm⟩
  · exact absurd ⟨q,publishing,j,acked⟩ ((alone p underway).2 c' differ)

namespace Sending

variable {data : Bytes} {target : NodeId} {j : BlockIdx} {pl : BlockPlacement} {n : NodeId}

theorem still (sending : Sending f c i p placement data target σ τ) (n : NodeId) (other : i ≠ j ∨ p.wait = .allReplicas) :
    τ.flight n f j = σ.flight n f j := by
  rw [sending.flights,background_filter p i placement data n other,List.append_nil]

/-- The nodes that are still to be written, but for the one written to. -/
theorem unsent (sending : Sending f c i p placement data target σ τ) (alone : Alone f (.send c i) σ)
    (underway : (σ.clients c).publishes f = some p) (away : j = i → pl.nodes[p.ackedAt i]? ≠ some n) (unsent : Unsent f σ j pl n) :
    Unsent f τ j pl n := by
  obtain ⟨c',q,k,publishing,waits,acked,listed,behind⟩ := unsent
  obtain ⟨rfl,rfl⟩ := alone_publish alone underway publishing acked
  refine ⟨c',q.ack i,k,sending.advanced,waits,?_,listed,?_⟩
  · rw [ackedAt_ack]
    split
    next => exact Nat.succ_pos _
    next => exact acked
  · rw [ackedAt_ack]
    split
    next same =>
      subst same
      have differ : q.ackedAt i ≠ k := by
        intro same
        exact away rfl (same ▸ listed)
      omega
    next => exact behind

/-- A flush writes the primary, and sends the data on to the replicas. -/
theorem current_flush (sending : Sending f c i p placement data target σ τ) (flushed : p.wait = .primariesOnly)
    (replica : n ∈ placement.replicas) : τ.latest n f i = τ.slot placement.primary f i := by
  have first : p.ackedAt i = 0 := by
    have waiting := sending.waiting
    simp only [Publish.awaited,flushed] at waiting
    omega
  have aimed : placement.primary = target := by
    have chosen := sending.chosen
    rw [first] at chosen
    exact Option.some.inj chosen
  obtain ⟨m,last,wrote⟩ := background_last (i := i) flushed sending.mine data replica (σ.flight n f i)
  rw [sending.slots,if_pos ⟨aimed,rfl⟩]
  simp only [latest,sending.flights,last,wrote]

/-- An `fsync` writes the next replica what the primary has. -/
theorem current_fsync (sending : Sending f c i p placement data target σ τ) (replicated : Replicated T f σ file) (inv : Inv bs f σ file G)
    (apart : ¬ Stuck f σ file) (paced : Paced T f (.send c i) σ) (underway : (σ.clients c).publishes f = some p)
    (waits : p.wait = .allReplicas) (replica : n ∈ placement.replicas) (trusted : T n) (sent : ¬ Unsent f τ i placement n) :
    τ.latest n f i = τ.slot placement.primary f i := by
  obtain ⟨alone,idle⟩ := paced nofun nofun
  have recorded := inv.base.recorded (publishes_some underway).1 sending.mine sending.placed
  have aimed := send_target (inv.base.placed i placement recorded) sending.chosen
  obtain ⟨k,listed⟩ := List.mem_iff_getElem?.mp replica
  rcases Nat.eq_zero_or_pos (p.ackedAt i) with first | later
  · refine absurd ⟨c,p.ack i,k + 1,sending.advanced,waits,?_,listed,?_⟩ sent
    · rw [ackedAt_ack,if_pos rfl]
      exact Nat.succ_pos _
    · rw [ackedAt_ack,if_pos rfl,first]
      omega
  · rw [if_neg (Nat.ne_of_gt later)] at aimed
    have held := (inv.coherent.resolve_left apart).written i placement recorded c p data underway later sending.dirty
    have primary : τ.slot placement.primary f i = some data := by
      rw [sending.slots,if_neg (fun here => aimed here.1.symm),held]
    rw [primary]
    rcases Classical.em (n = target) with rfl | away
    · rw [latest_landed,sending.slots,if_pos ⟨rfl,rfl⟩]
      rw [sending.still n (.inr waits)]
      exact idle p underway later placement sending.placed n sending.chosen trusted
    · have slot : τ.slot n f i = σ.slot n f i := by rw [sending.slots,if_neg (fun here => away here.1)]
      rw [latest_congr (sending.still n (.inr waits)) slot,← held]
      refine replicated.current i placement recorded n replica trusted (fun unsent => sent (sending.unsent alone underway ?_ unsent))
      intro _ chosen
      exact away (Option.some.inj (chosen.symm.trans sending.chosen))

end Sending

theorem replicated_send (replicated : Replicated T f σ file) (inv : Inv bs f σ file G) (apart : ¬ Stuck f σ file)
    (paced : Paced T f (.send c i) σ) (underway : (σ.clients c).publishes f = some p) (stepped : send c i σ = some τ) :
    Replicated T f τ file := by
  obtain ⟨placement,data,target,sending⟩ := send_sending underway stepped
  obtain ⟨alone,idle⟩ := paced nofun nofun
  have recorded := inv.base.recorded (publishes_some underway).1 sending.mine sending.placed
  constructor
  · intro j pl at_ n replica trusted sent
    rcases Classical.em (j = i) with rfl | elsewhere
    · rw [recorded] at at_
      cases at_
      cases wait : p.wait with
      | primariesOnly => exact sending.current_flush wait replica
      | allReplicas => exact sending.current_fsync replicated inv apart paced underway wait replica trusted sent
    · have unmoved (n' : NodeId) : τ.slot n' f j = σ.slot n' f j := by rw [sending.slots,if_neg (fun here => elsewhere here.2)]
      rw [latest_congr (sending.still n (.inl (Ne.symm elsewhere))) (unmoved n),unmoved]
      exact replicated.current j pl at_ n replica trusted
        (fun unsent => sent (sending.unsent alone underway (fun same => absurd same elsewhere) unsent))
  · intro c' q publishing waits j pl at_ k n listed trusted later acked
    rcases Classical.em (c' = c) with rfl | differ
    · rw [sending.advanced] at publishing
      cases publishing
      rw [sending.still n (.inr waits)]
      rw [ackedAt_ack] at acked
      split at acked
      next same =>
        subst same
        rw [recorded] at at_
        cases at_
        rcases Nat.lt_or_ge k (p.ackedAt i) with before | now
        · exact replicated.direct c' p underway waits i placement recorded k n listed trusted later before
        · have same : k = p.ackedAt i := by omega
          rw [same] at later listed
          exact idle p underway later placement sending.placed n listed trusted
      next => exact replicated.direct c' p underway waits j pl at_ k n listed trusted later acked
    · rw [sending.others c' differ] at publishing
      exact absurd (alone_publish alone underway publishing (Nat.lt_of_le_of_lt (Nat.zero_le k) acked)).1 differ

end Send

theorem replicated_step {label : Label} (positive : 0 < bs) (inv : Inv bs f σ file G) (apart : ¬ Stuck f σ file)
    (replicated : Replicated T f σ file) (paced : Paced T f label σ) (sync : AskedInSync bs f label σ) (stepped : step bs label σ = some τ) :
    ∃ file', Inv bs f τ file' (G.next bs f label σ) ∧ ¬ Stuck f τ file' ∧ Replicated T f τ file' ∧
      Evolves f label σ τ file file' G (G.next bs f label σ) := by
  obtain ⟨file',moved,evolves⟩ := paced_inv positive inv paced sync stepped
  refine ⟨file',moved,apart_evolves inv apart stepped paced.alone evolves,?_,evolves⟩
  have unchanged (same : τ.metadata = σ.metadata) : file' = file := by
    have alive := moved.base.alive
    rw [same,inv.base.alive] at alive
    exact (Option.some.inj alive).symm
  have grown : Agrees file.blocks file'.blocks := by
    rcases evolves with ⟨_,grown,_⟩ | ⟨_,_,_,_,_,_,_,rfl,_⟩
    · exact grown
    · exact .refl _
  rcases Classical.em (∃ c idx p, label = .send c idx ∧ (σ.clients c).publishes f = some p) with ⟨c,idx,p,rfl,underway⟩ | unsent
  · obtain ⟨_,_,_,_,_,_,_,_,_,_,shape⟩ := send_steps stepped
    rw [unchanged (by rw [shape]; rfl)]
    exact replicated_send replicated inv apart paced underway stepped
  · rcases Classical.em (∃ m, label = .deliver m ∧ m.key.ino = f ∧ T m.node) with ⟨m,rfl,mine,trusted⟩ | undelivered
    · obtain ⟨_,_,_,shape⟩ := deliver_steps stepped
      rw [unchanged (by rw [shape]; rfl)]
      exact replicated_deliver replicated inv.base paced mine trusted stepped
    · refine replicated_quiet replicated ⟨?_,?_⟩ paced inv.base stepped grown
      · intro c idx p named underway
        exact unsent ⟨c,idx,p,named,underway⟩
      · intro m named mine trusted
        exact undelivered ⟨m,named,mine,trusted⟩

theorem replicated_run (positive : 0 < bs) (labels : List Label) (inv : Inv bs f σ file G) (apart : ¬ Stuck f σ file)
    (replicated : Replicated T f σ file) (sequenced : Throughout bs (Sequenced T f) labels σ)
    (ran : trace bs f labels σ G = some (τ,H)) :
    ∃ file', Inv bs f τ file' H ∧ ¬ Stuck f τ file' ∧ Replicated T f τ file' := by
  induction labels generalizing σ file G with
  | nil =>
    cases ran
    exact ⟨file,inv,apart,replicated⟩
  | cons label rest ih =>
    obtain ⟨middle,stepped,later⟩ := Option.bind_eq_some_iff.mp ran
    obtain ⟨file',moved,apart',replicated',_⟩ := replicated_step positive inv apart replicated (fun _ _ => sequenced.1)
      (sequenced.1.asked replicated inv.base.alive) stepped
    exact ih moved apart' replicated' (sequenced.2 middle stepped) later

theorem Created.apart (created : Created f σ) : ¬ Stuck f σ ⟨0,0,∅⟩ := by
  intro stuck
  have silent (c : ClientId) (p : Publish) (underway : (σ.clients c).publishes f = some p) : False := by
    rw [created.silent c] at underway
    cases underway
  rcases stuck with ⟨c,p,underway,_⟩ | ⟨c,_,_,⟨p,underway,_⟩,_⟩
  · exact silent c p underway
  · exact silent c p underway

theorem Created.replicated (created : Created f σ) : Replicated T f σ ⟨0,0,∅⟩ := by
  constructor
  · intro idx placement placed
    rw [Std.ExtTreeMap.getElem?_empty] at placed
    cases placed
  · intro c p underway
    rw [created.silent c] at underway
    cases underway

/-- When an `fsync` is about to be closed it has reached every replica. -/
theorem fsync_sent {c : ClientId} {p : Publish} (apart : ¬ Stuck f σ file)
    (underway : (σ.clients c).publishes f = some p) (wait : p.wait = .allReplicas) (finished : p.finished = true)
    {idx : BlockIdx} {data : Bytes} {placement : BlockPlacement} (dirty : p.dirty[idx]? = some data)
    (placed : p.blockMap[idx]? = some placement) {node : NodeId} {j : Nat} (listed : placement.nodes[j]? = some node) :
    j < p.ackedAt idx ∧ ¬ Unsent f σ idx placement node := by
  have all := finished_awaited finished dirty
  simp only [Publish.awaited,wait,placed,Option.map_some,Option.getD_some] at all
  have inside := (List.getElem?_eq_some_iff.mp listed).1
  refine ⟨Nat.lt_of_lt_of_le inside all,?_⟩
  intro unsent
  obtain ⟨c',q,k,underway',_,acked,listed',behind⟩ := unsent
  have inside' := (List.getElem?_eq_some_iff.mp listed').1
  have same : c' = c := by
    by_contra differ
    exact apart (.inr ⟨c',c,differ,⟨q,underway',idx,acked⟩,p,underway,idx,finished_acked finished dirty⟩)
  rw [same,underway] at underway'
  cases underway'
  omega

/-- In every state of a sequenced run in which nobody is writing the file to the stores,
each replica holds what its primary holds once the writes on their way to it have arrived,
so at once where none are; and after an `fsync` none are, for the blocks it wrote. -/
theorem replicas_converge (positive : 0 < bs) (created : Created f σ) (labels : List Label)
    (sequenced : Throughout bs (Sequenced (fun _ => True) f) labels σ) (ran : run bs labels σ = some τ) :
    ∃ file, τ.metadata.fileAt f = some file ∧
      (Calm f τ → ∀ (idx : BlockIdx) (placement : BlockPlacement), file.blocks[idx]? = some placement →
        ∀ node ∈ placement.replicas, τ.latest node f idx = τ.slot placement.primary f idx ∧
          (τ.flight node f idx = [] → τ.slot node f idx = τ.slot placement.primary f idx)) ∧
      ∀ c host clock p υ, (τ.clients c).publishes f = some p → p.wait = .allReplicas → step bs (.close c host clock) τ = some υ →
        ∀ (idx : BlockIdx) (data : Bytes) (placement : BlockPlacement), p.dirty[idx]? = some data →
          p.blockMap[idx]? = some placement → ∀ node ∈ placement.replicas,
            υ.flight node f idx = [] ∧ υ.slot node f idx = υ.slot placement.primary f idx := by
  obtain ⟨H,traced⟩ := trace_of_run (f := f) labels .blank ran
  obtain ⟨file,inv,apart,replicated⟩ := replicated_run positive labels created.inv created.apart created.replicated sequenced traced
  refine ⟨file,inv.base.alive,?_,?_⟩
  · intro calm idx placement placed node replica
    have current := replicated.current idx placement placed node replica trivial (by
      intro unsent
      obtain ⟨c,p,_,underway,_,acked,_⟩ := unsent
      exact calm c ⟨p,underway,idx,acked⟩)
    refine ⟨current,?_⟩
    intro landed
    rw [← latest_landed landed]
    exact current
  · intro c host clock p υ underway wait closed idx data placement dirty placed node replica
    obtain ⟨task,mine⟩ := publishes_some underway
    obtain ⟨q,_,task',_,finished,_,rfl⟩ := close_steps closed
    rw [task] at task'
    cases task'
    have recorded := inv.base.recorded task mine placed
    obtain ⟨k,listed⟩ := List.mem_iff_getElem?.mp replica
    obtain ⟨reached,sent⟩ := fsync_sent apart underway wait finished dirty placed (j := k + 1) listed
    have landed := replicated.direct c p underway wait idx placement recorded (k + 1) node listed trivial (Nat.succ_pos k) reached
    have current := replicated.current idx placement recorded node replica trivial sent
    rw [latest_landed landed] at current
    exact ⟨landed,current⟩

/-- The background write of block 0 of the file to its replica. -/
def replicaWrite (byte : UInt8) : WriteBlock := ⟨"n",⟨2,0,0⟩,[byte]⟩

/-- Client 0 flushes and the write reaches the replica. -/
def flushedThrough : List Label := writeByte 0 1 0 7 ++ flushBlock 0 1 0 ++ [.deliver (replicaWrite 7)]

theorem flushedThrough_sequenced : Throughout 1 (Sequenced (fun _ => True) 2) flushedThrough (withFile 2 ["m","n"]) := by
  refine throughout_cons rfl trivial ?_
  refine throughout_cons rfl (fun _ => by decide) ?_
  refine throughout_cons rfl (by decide : _ ≠ _) ?_
  refine throughout_cons rfl ⟨alone_send 0 (by decide) rfl (fun _ => rfl),by decide⟩ ?_
  refine throughout_cons rfl (by decide : ∀ p ∈ Client.publishes _ 2, Matches 2 p _) ?_
  exact throughout_cons rfl (fun _ _ => by decide) trivial

theorem flushedThrough_runs : (trace 1 2 flushedThrough (withFile 2 ["m","n"]) .blank).isSome = true := by decide

theorem flushedThrough_ran : run 1 flushedThrough (withFile 2 ["m","n"]) =
    some ((trace 1 2 flushedThrough (withFile 2 ["m","n"]) .blank).get flushedThrough_runs).1 := rfl

theorem replicas_converge_delivered : ∃ τ file, run 1 flushedThrough (withFile 2 ["m","n"]) = some τ ∧
    τ.metadata.fileAt 2 = some file ∧ τ.slot "n" 2 0 = some [7] ∧
      (Calm 2 τ → ∀ (idx : BlockIdx) (placement : BlockPlacement), file.blocks[idx]? = some placement →
        ∀ node ∈ placement.replicas, τ.latest node 2 idx = τ.slot placement.primary 2 idx ∧
          (τ.flight node 2 idx = [] → τ.slot node 2 idx = τ.slot placement.primary 2 idx)) := by
  have created : Created 2 (withFile 2 ["m","n"]) := withFile_created (by decide) (by decide) (by decide) (by decide)
  obtain ⟨file,alive,converged,_⟩ :=
    replicas_converge Nat.one_pos created flushedThrough flushedThrough_sequenced flushedThrough_ran
  exact ⟨_,file,flushedThrough_ran,alive,by decide,converged⟩

/-- Client 1 flushes after client 0; the write of client 0 reaches the replica last. -/
def overtaken : List Label := writeByte 0 1 0 7 ++ flushBlock 0 1 0 ++ openFile 1 ++ writeByte 1 2 0 8 ++ flushBlock 1 2 0 ++
  [.deliver (replicaWrite 8),.deliver (replicaWrite 7)]

theorem replica_left_behind : ∃ τ H, trace 1 2 overtaken (withFile 2 ["m","n"]) .blank = some (τ,H) ∧
    H.published.slice 0 1 = [8] ∧ τ.writes = [] ∧ (∀ c, (τ.clients c).publishes 2 = none) ∧
    ∃ file placement, τ.metadata.fileAt 2 = some file ∧ file.blocks[(0 : BlockIdx)]? = some placement ∧
      "n" ∈ placement.replicas ∧ τ.slot placement.primary 2 0 = some [8] ∧ τ.slot "n" 2 0 = some [7] := by
  have ran : (trace 1 2 overtaken (withFile 2 ["m","n"]) .blank).isSome = true := by decide
  refine ⟨_,_,(Option.some_get ran).symm,by decide,by decide,?_,_,⟨"m",["n"]⟩,rfl,by decide,by decide,by decide,by decide⟩
  intro c
  match c with
  | 0 => rfl
  | 1 => rfl
  | _ + 2 => rfl

end Dtmpfs
