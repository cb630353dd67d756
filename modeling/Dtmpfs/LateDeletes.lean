import Dtmpfs.Visibility

/-! `DeleteBlock` messages of a truncation against the `WriteBlock`s of a later publish
of the same blocks: both name the block under generation 0, and the deletes travel on
their own. -/
namespace Dtmpfs
open MetaService MetaState OrderedMap Cluster

variable {bs : Nat} {f : InodeId} {σ τ υ : Cluster} {c : ClientId} {node : NodeId} {key : BlockKey}

/-- No `DeleteBlock` of `key` is on its way to `node`. -/
def Undeleted (node : NodeId) (key : BlockKey) (σ : Cluster) : Prop := ∀ message ∈ σ.deletes, ¬ (message.node = node ∧ message.key = key)

instance (node : NodeId) (key : BlockKey) (σ : Cluster) : Decidable (Undeleted node key σ) :=
  inferInstanceAs (Decidable (∀ message ∈ σ.deletes, ¬ (message.node = node ∧ message.key = key)))

/-- The truncation is behind: nothing drops blocks of `f` any more and no store that
holds some restarts; and the deletes it fired have reached the primary of a block
before client `c` writes the block there. -/
def Behind (f : InodeId) (c : ClientId) (label : Label) (σ : Cluster) : Prop :=
  match label with
  | .call host request => ∀ message ∈ fired host request σ.metadata, message.key.ino ≠ f
  | .restart node => ∀ key ∈ (σ.stores node).blocks.keys, key.ino ≠ f
  | .send c' idx => c' = c → ∀ p ∈ (σ.clients c).publishes f, p.ackedAt idx = 0 → ∀ placement ∈ p.blockMap[idx]?,
      Undeleted placement.primary ⟨f,idx,0⟩ σ
  | _ => True

instance (f : InodeId) (c : ClientId) (label : Label) (σ : Cluster) : Decidable (Behind f c label σ) := by
  unfold Behind
  split <;> infer_instance

/-- `node` holds `bytes` under `key`, and nothing in flight can take them away. -/
structure Kept (node : NodeId) (key : BlockKey) (bytes : Bytes) (σ : Cluster) : Prop where
  held : (σ.stores node).blocks[key]? = some bytes
  undeleted : Undeleted node key σ

theorem undeleted_step {label : Label} (undeleted : Undeleted node key σ) (behind : Behind key.ino c label σ)
    (stepped : step bs label σ = some τ) : Undeleted node key τ := by
  intro message waiting here
  rcases step_deletes stepped waiting with old | ⟨host,request,rfl,new⟩
  · exact undeleted message old here
  · exact behind message new (congrArg BlockKey.ino here.2)

/-- A block that is kept stays, but for another `WriteBlock` of it. -/
theorem kept_step {label : Label} {bytes : Bytes} (kept : Kept node key bytes σ) (behind : Behind key.ino c label σ)
    (stepped : step bs label σ = some τ) :
    ∃ bytes', Kept node key bytes' τ ∧ (bytes' = bytes ∨ Executes node key bytes' label σ) := by
  have undeleted := undeleted_step kept.undeleted behind stepped
  rcases step_block stepped node key with same | ⟨bytes',executed,held⟩ | ⟨message,waiting,_,here⟩ | rfl
  · exact ⟨bytes,⟨same.trans kept.held,undeleted⟩,.inl rfl⟩
  · exact ⟨bytes',⟨held,undeleted⟩,.inr executed⟩
  · exact absurd here (kept.undeleted message waiting)
  · have member : key ∈ (σ.stores node).blocks.keys := Std.ExtTreeMap.mem_keys.mpr ((contains_iff _ _).mpr ⟨bytes,kept.held⟩)
    exact absurd rfl (behind key member)

/-- Somewhere in the run another `WriteBlock` of `key` is executed at `node`. -/
def Rewritten (bs : Nat) (node : NodeId) (key : BlockKey) (P : Label → Prop) (labels : List Label) (σ : Cluster) : Prop :=
  ∃ done label rest τ bytes, labels = done ++ label::rest ∧ run bs done σ = some τ ∧ P label ∧ Executes node key bytes label τ

theorem Rewritten.cons {P : Label → Prop} {label : Label} {rest : List Label} (stepped : step bs label σ = some τ)
    (later : Rewritten bs node key P rest τ) : Rewritten bs node key P (label::rest) σ := by
  obtain ⟨done,other,more,υ,bytes,rfl,ran,other_,executed⟩ := later
  refine ⟨label::done,other,more,υ,bytes,rfl,?_,other_,executed⟩
  simp only [Cluster.run,stepped,Option.bind_some]
  exact ran

theorem kept_run {bytes : Bytes} (labels : List Label) (kept : Kept node key bytes σ)
    (behind : Throughout bs (Behind key.ino c) labels σ) (ran : run bs labels σ = some τ) :
    ∃ bytes', Kept node key bytes' τ ∧ (bytes' = bytes ∨ Rewritten bs node key (fun _ => True) labels σ) := by
  induction labels generalizing σ bytes with
  | nil =>
    cases ran
    exact ⟨bytes,kept,.inl rfl⟩
  | cons label rest ih =>
    obtain ⟨middle,stepped,later⟩ := Option.bind_eq_some_iff.mp ran
    obtain ⟨bytes₁,kept₁,first⟩ := kept_step kept behind.1 stepped
    obtain ⟨bytes₂,kept₂,second⟩ := ih kept₁ (behind.2 middle stepped) later
    refine ⟨bytes₂,kept₂,?_⟩
    rcases second with rfl | again
    · rcases first with same | executed
      · exact .inl same
      · exact .inr ⟨[],label,rest,σ,bytes₂,rfl,rfl,trivial,executed⟩
    · exact .inr (again.cons stepped)

/-- Block `idx` of the publish under way, and that it is kept once it is acknowledged. -/
structure Feeds (f : InodeId) (c : ClientId) (idx : BlockIdx) (data : Bytes) (placement : BlockPlacement) (rewritten : Prop)
    (σ : Cluster) (p : Publish) : Prop where
  task : (σ.clients c).task = some (.publishing p)
  mine : p.ino = f
  dirty : p.dirty[idx]? = some data
  placed : p.blockMap[idx]? = some placement
  kept : 0 < p.ackedAt idx → ∃ bytes, Kept placement.primary ⟨f,idx,0⟩ bytes σ ∧ (bytes = data ∨ rewritten)

variable {idx : BlockIdx} {data : Bytes} {placement : BlockPlacement} {rewritten : Prop} {p : Publish}

/-- The `WriteBlock` of a publish to the primary of a block. -/
theorem kept_first (feeds : Feeds f c idx data placement rewritten σ p) (first : p.ackedAt idx = 0)
    (behind : Behind f c (.send c idx) σ) (stepped : step bs (.send c idx) σ = some τ) :
    Kept placement.primary ⟨f,idx,0⟩ data τ := by
  have undeleted := behind rfl p (publishes_of feeds.task feeds.mine) first placement feeds.placed
  refine ⟨?_,undeleted_step undeleted behind stepped⟩
  obtain ⟨q,data',placement',node,task,dirty,placed,_,chosen,_,rfl⟩ := send_steps stepped
  rw [feeds.task] at task
  cases task
  rw [feeds.dirty] at dirty
  cases dirty
  rw [feeds.placed] at placed
  cases placed
  rw [first] at chosen
  cases chosen
  simp only [setClient,setStore_stores,if_true]
  rw [StoreState.insertBlock_get,if_pos (by rw [feeds.mine])]

theorem executes_own {label : Label} {bytes : Bytes} (feeds : Feeds f c idx data placement rewritten σ p) {node : NodeId}
    (executed : Executes node ⟨f,idx,0⟩ bytes label σ) : bytes = data ∨ ∀ i, label ≠ .send c i := by
  rcases Classical.em (∃ i, label = .send c i) with ⟨i,rfl⟩ | other
  · obtain ⟨q,_,task,same,dirty,_⟩ := executed
    rw [feeds.task] at task
    cases task
    cases congrArg BlockKey.blockIdx same
    rw [feeds.dirty] at dirty
    exact .inl (Option.some.inj dirty).symm
  · exact .inr (not_exists.mp other)

theorem feeds_step {label : Label} (feeds : Feeds f c idx data placement rewritten σ p) (open_ : ¬ EndsPublish c label)
    (behind : Behind f c label σ) (stepped : step bs label σ = some τ) :
    ∃ q, Feeds f c idx data placement (rewritten ∨ ∃ bytes, (∀ i, label ≠ .send c i) ∧
      Executes placement.primary ⟨f,idx,0⟩ bytes label σ) τ q := by
  have again (acked : 0 < p.ackedAt idx) : ∃ bytes, Kept placement.primary ⟨f,idx,0⟩ bytes τ ∧
      (bytes = data ∨ rewritten ∨ ∃ bytes, (∀ i, label ≠ .send c i) ∧ Executes placement.primary ⟨f,idx,0⟩ bytes label σ) := by
    obtain ⟨bytes,kept,source⟩ := feeds.kept acked
    obtain ⟨bytes',kept',same | executed⟩ := kept_step kept behind stepped
    · refine ⟨bytes',kept',?_⟩
      rw [same]
      exact source.imp_right .inl
    · rcases executes_own feeds executed with own | other
      · exact ⟨bytes',kept',.inl own⟩
      · exact ⟨bytes',kept',.inr (.inr ⟨bytes',other,executed⟩)⟩
  rcases publishing_step feeds.task open_ stepped with task | ⟨sent,rfl,task⟩
  · exact ⟨p,task,feeds.mine,feeds.dirty,feeds.placed,again⟩
  · refine ⟨p.ack sent,task,feeds.mine,feeds.dirty,feeds.placed,?_⟩
    intro acked
    rcases Nat.eq_zero_or_pos (p.ackedAt idx) with first | later
    · rw [ackedAt_ack] at acked
      split at acked
      next same =>
        subst same
        exact ⟨data,kept_first feeds first behind stepped,.inl rfl⟩
      next =>
        rw [first] at acked
        cases acked
    · exact again later

theorem feeds_run (labels : List Label) (feeds : Feeds f c idx data placement rewritten σ p)
    (open_ : ∀ label ∈ labels, ¬ EndsPublish c label) (behind : Throughout bs (Behind f c) labels σ)
    (ran : run bs labels σ = some τ) :
    ∃ q, Feeds f c idx data placement (rewritten ∨
      Rewritten bs placement.primary ⟨f,idx,0⟩ (fun label => ∀ i, label ≠ .send c i) labels σ) τ q := by
  induction labels generalizing σ p rewritten with
  | nil =>
    cases ran
    refine ⟨p,feeds.task,feeds.mine,feeds.dirty,feeds.placed,?_⟩
    intro acked
    obtain ⟨bytes,kept,source⟩ := feeds.kept acked
    exact ⟨bytes,kept,source.imp_right .inl⟩
  | cons label rest ih =>
    obtain ⟨middle,stepped,later⟩ := Option.bind_eq_some_iff.mp ran
    obtain ⟨q,moved⟩ := feeds_step feeds (open_ label List.mem_cons_self) behind.1 stepped
    obtain ⟨r,reached⟩ := ih moved (fun other member => open_ other (List.mem_cons_of_mem _ member)) (behind.2 middle stepped) later
    refine ⟨r,reached.task,reached.mine,reached.dirty,reached.placed,?_⟩
    intro acked
    obtain ⟨bytes,kept,source⟩ := reached.kept acked
    refine ⟨bytes,kept,?_⟩
    rcases source with same | (old | ⟨bytes',other,executed⟩) | again
    · exact .inl same
    · exact .inr (.inl old)
    · exact .inr (.inr ⟨[],label,rest,σ,bytes',rfl,rfl,other,executed⟩)
    · exact .inr (.inr (again.cons stepped))

/-- Once a publish that began after the truncation is closed, the primary of each of its
blocks holds the block, unless somebody else has written it since: then it holds that. -/
theorem delete_spares_publish {host : Host} {clock : SystemTime} (during after : List Label)
    (begun : (σ.clients c).task = some (.publishing p)) (mine : p.ino = f) (unacked : ∀ idx, p.ackedAt idx = 0)
    (open_ : ∀ label ∈ during, ¬ EndsPublish c label)
    (behind : Throughout bs (Behind f c) (during ++ .close c host clock::after) σ) (ran : run bs during σ = some υ)
    (closed : run bs (.close c host clock::after) υ = some τ) (idx : BlockIdx) (data : Bytes) (placement : BlockPlacement)
    (dirty : p.dirty[idx]? = some data) (placed : p.blockMap[idx]? = some placement) :
    ∃ bytes, τ.slot placement.primary f idx = some bytes ∧ (bytes = data ∨
      Rewritten bs placement.primary ⟨f,idx,0⟩ (fun label => ∀ i, label ≠ .send c i) during σ ∨
      Rewritten bs placement.primary ⟨f,idx,0⟩ (fun _ => True) (.close c host clock::after) υ) := by
  have feeds : Feeds f c idx data placement False σ p := by
    refine ⟨begun,mine,dirty,placed,?_⟩
    intro acked
    rw [unacked idx] at acked
    cases acked
  have later := behind.append ran
  have earlier : Throughout bs (Behind f c) during σ := behind.prefix_
  obtain ⟨q,reached⟩ := feeds_run during feeds open_ earlier ran
  have finished : q.finished = true := by
    obtain ⟨_,stepped,_⟩ := Option.bind_eq_some_iff.mp closed
    obtain ⟨q',_,task,_,finished,_⟩ := close_steps stepped
    rw [reached.task] at task
    cases task
    exact finished
  obtain ⟨bytes,kept,source⟩ := reached.kept (finished_acked finished reached.dirty)
  obtain ⟨bytes',kept',same⟩ := kept_run _ kept later closed
  refine ⟨bytes',kept'.held,?_⟩
  rcases same with rfl | again
  · rcases source with own | impossible | rewritten
    · exact .inl own
    · exact impossible.elim
    · exact .inr (.inl rewritten)
  · exact .inr (.inr again)

/-- Client 0 has published a file of two blocks and truncated it. -/
def truncatedFile : Cluster := (run 1 (writeByte 0 1 0 7 ++ writeByte 0 1 1 7 ++
  [.publish 0 1 .primariesOnly Host.still,.send 0 0,.send 0 1,.close 0 Host.still 0,
    .call Host.still (.setAttr ⟨2,some 0,none,none,none,none,none,none,none⟩)]) (withFile 1 ["n"])).getD (withFile 1 ["n"])

/-- The `DeleteBlock` of the truncation, the only message in flight. -/
def lateDelete : DeleteBlock := ⟨"n","http://n",⟨2,1,0⟩⟩

example : truncatedFile.deletes = [lateDelete] := by decide +kernel

/-- Client 1 opens the file and is about to write its second block to the store. -/
def rewriting : List Label := openFile 1 ++ writeByte 1 2 1 9 ++ [.publish 1 2 .primariesOnly Host.still]

theorem rewriting_begun : ∃ σ p, run 1 rewriting truncatedFile = some σ ∧ (σ.clients 1).task = some (.publishing p) ∧ p.ino = 2 ∧
    (∀ idx, p.ackedAt idx = 0) ∧ p.dirty[(1 : BlockIdx)]? = some [9] ∧ p.blockMap[(1 : BlockIdx)]? = some ⟨"n",[]⟩ := by
  have begun : ((run 1 rewriting truncatedFile).any (fun σ => ((σ.clients 1).publishes 2).any (fun p =>
      decide (p.acked.isEmpty = true ∧ p.dirty[(1 : BlockIdx)]? = some [9] ∧
        p.blockMap[(1 : BlockIdx)]? = some ⟨"n",[]⟩)))) = true := by
    decide +kernel
  obtain ⟨σ,ran,begun⟩ := (Option.any_eq_true _ _).mp begun
  obtain ⟨p,underway,facts⟩ := (Option.any_eq_true _ _).mp begun
  obtain ⟨unacked,dirty,placed⟩ := decide_eq_true_iff.mp facts
  obtain ⟨task,mine⟩ := publishes_some underway
  refine ⟨σ,p,ran,task,mine,?_,dirty,placed⟩
  intro idx
  rw [Publish.ackedAt,Std.ExtTreeMap.isEmpty_iff.mp unacked,Std.ExtTreeMap.getElem?_empty]
  rfl

theorem rewriting_closes : ∃ σ υ τ, run 1 rewriting truncatedFile = some σ ∧
    Throughout 1 (Behind 2 1) ([.deliverDelete lateDelete,.send 1 1] ++ [.close 1 Host.still 0]) σ ∧
    run 1 [.deliverDelete lateDelete,.send 1 1] σ = some υ ∧ run 1 [.close 1 Host.still 0] υ = some τ := by
  have closes : ((run 1 rewriting truncatedFile).any (fun σ =>
      decide (Throughout 1 (Behind 2 1) ([.deliverDelete lateDelete,.send 1 1] ++ [.close 1 Host.still 0]) σ) &&
      (run 1 [.deliverDelete lateDelete,.send 1 1] σ).any (fun υ => (run 1 [.close 1 Host.still 0] υ).isSome))) = true := by
    decide +kernel
  obtain ⟨σ,ran,closes⟩ := (Option.any_eq_true _ _).mp closes
  rw [Bool.and_eq_true,decide_eq_true_iff,Option.any_eq_true] at closes
  obtain ⟨behind,υ,sent,closed⟩ := closes
  obtain ⟨τ,closed⟩ := Option.isSome_iff_exists.mp closed
  exact ⟨σ,υ,τ,ran,behind,sent,closed⟩

theorem delete_spares_publish_delivered : ∃ σ υ τ, run 1 rewriting truncatedFile = some σ ∧
    run 1 [.deliverDelete lateDelete,.send 1 1] σ = some υ ∧ run 1 [.close 1 Host.still 0] υ = some τ ∧
    ∃ bytes, τ.slot "n" 2 1 = some bytes ∧ (bytes = [9] ∨
      Rewritten 1 "n" ⟨2,1,0⟩ (fun label => ∀ i, label ≠ .send 1 i) [.deliverDelete lateDelete,.send 1 1] σ ∨
      Rewritten 1 "n" ⟨2,1,0⟩ (fun _ => True) [.close 1 Host.still 0] υ) := by
  obtain ⟨σ,p,begun,task,mine,unacked,dirty,placed⟩ := rewriting_begun
  obtain ⟨σ',υ,τ,begun',behind,ran,closed⟩ := rewriting_closes
  rw [begun] at begun'
  cases begun'
  have open_ : ∀ label ∈ [Label.deliverDelete lateDelete,.send 1 1], ¬ EndsPublish 1 label := by
    intro label member ends
    rcases List.mem_cons.mp member with rfl | member
    · exact ends
    · cases List.mem_singleton.mp member
      exact ends
  exact ⟨σ,υ,τ,begun,ran,closed,delete_spares_publish [.deliverDelete lateDelete,.send 1 1] [] task mine unacked open_ behind ran
    closed 1 [9] ⟨"n",[]⟩ dirty placed⟩

/-- The delete arrives after the write: the `Close` is accepted, the block is placed, and
the store has nothing. -/
theorem late_delete_destroys : ∃ τ, run 1 (rewriting ++ [.send 1 1,.close 1 Host.still 0,.deliverDelete lateDelete]) truncatedFile =
    some τ ∧ τ.writes = [] ∧ τ.deletes = [] ∧ (τ.metadata.fileAt 2).map (·.generation) = some 2 ∧
    (τ.metadata.fileAt 2).map (fun file => file.blocks[(1 : BlockIdx)]?) = some (some ⟨"n",[]⟩) ∧ τ.slot "n" 2 1 = none := by
  have destroys : ((run 1 (rewriting ++ [.send 1 1,.close 1 Host.still 0,.deliverDelete lateDelete]) truncatedFile).any (fun τ =>
      decide (τ.writes = [] ∧ τ.deletes = [] ∧ (τ.metadata.fileAt 2).map (·.generation) = some 2 ∧
        (τ.metadata.fileAt 2).map (fun file => file.blocks[(1 : BlockIdx)]?) = some (some ⟨"n",[]⟩) ∧
        τ.slot "n" 2 1 = none))) = true := by
    decide +kernel
  obtain ⟨τ,ran,facts⟩ := (Option.any_eq_true _ _).mp destroys
  exact ⟨τ,ran,decide_eq_true_iff.mp facts⟩

end Dtmpfs
