import Dtmpfs.ClusterCases
import Dtmpfs.Reclamation

/-! Blocks that nothing refers to any more. A store keeps a block for good when a write
reaches it after the block's delete has, or when the delete is lost. Nothing else leaves
such a block behind: no restart, no truncation or removal, no publish that fails. -/
namespace Dtmpfs
open MetaService MetaState OrderedMap

namespace Cluster

/-- The requests that a run has the metadata server serve. -/
def requests (bs : Nat) : List Label → Cluster → List (Host × Call)
  | [],_ => []
  | label::rest,σ => (requested label σ).toList ++ (step bs label σ).elim [] (requests bs rest)

/-- The metadata server has the block at the node. -/
def PlacedAt (s : MetaState) (node : NodeId) (f : InodeId) (idx : BlockIdx) : Prop :=
  ∃ placement, placementOf s f idx = some placement ∧ node ∈ placement.nodes

/-- A delete of the block is on its way to the node. -/
def DeleteDue (deletes : List DeleteBlock) (node : NodeId) (f : InodeId) (idx : BlockIdx) : Prop :=
  ∃ message ∈ deletes, message.node = node ∧ message.key = ⟨f,idx,0⟩

/-- Every block a store holds is placed there, or about to be deleted. -/
def Accounted (σ : Cluster) : Prop :=
  ∀ node f idx bytes, σ.slot node f idx = some bytes → PlacedAt σ.metadata node f idx ∨ DeleteDue σ.deletes node f idx

/-- The step has a store take the block over. -/
def TakesOver (label : Label) (σ : Cluster) (node : NodeId) (f : InodeId) (idx : BlockIdx) : Prop :=
  ∃ bytes size, Executes node ⟨f,idx,0⟩ bytes label σ ∧ ((σ.stores node).writeBlock ⟨f,idx,0⟩ bytes).1 = .ok size

/-- The step neither writes a block that the metadata server has given up and the store has
deleted, nor loses the only delete of such a block. -/
def Timely (label : Label) (σ : Cluster) : Prop :=
  match label with
  | .send _ _ | .deliver _ => ∀ node f idx, TakesOver label σ node f idx → PlacedAt σ.metadata node f idx ∨ DeleteDue σ.deletes node f idx
  | .loseDelete message => ∀ f idx bytes, message.key = ⟨f,idx,0⟩ → σ.slot message.node f idx = some bytes →
      PlacedAt σ.metadata message.node f idx ∨ DeleteDue (σ.deletes.erase message) message.node f idx
  | _ => True

/-- The request of the step, if it has one, allocates blocks for regular files only, with some
node up, and within the room of the inode counter. -/
def Reclaimable (label : Label) (σ : Cluster) : Prop :=
  ∀ host call, requested label σ = some (host,call) → AllocatesFiles call σ.metadata ∧ PlacesStaffed call σ.metadata ∧
    σ.metadata.nextIno + (draws call σ.metadata).toNat < 2^64

section Steps

variable {bs : Nat} {label : Label} {σ τ : Cluster} {node : NodeId} {f : InodeId} {idx : BlockIdx}

theorem step_replicated (stepped : step bs label σ = some τ) : τ.metadata.replicationFactor = σ.metadata.replicationFactor := by
  rw [step_metadata stepped]
  unfold served
  split
  · exact (serve_nodesKept _ _ _).factor
  · rfl

theorem step_traceable (stepped : step bs label σ = some τ) (proper : Reclaimable label σ) (traceable : Traceable σ.metadata)
    (replicated : 0 < σ.metadata.replicationFactor) : Traceable τ.metadata := by
  rw [step_metadata stepped]
  unfold served
  split
  next host call asked =>
    obtain ⟨files,staffed,room⟩ := proper host call asked
    exact serve_traceable traceable replicated files staffed room
  next => exact traceable

/-- Only the requests that clients send as they are fire deletes. -/
theorem requested_fires {host : Host} {call : Call} (asked : requested label σ = some (host,call)) :
    label = .call host call ∨ fired host call σ.metadata = [] := by
  unfold requested at asked
  split at asked
  · cases asked
    exact .inl rfl
  · cases asked
    exact .inr rfl
  · split at asked
    · cases asked
      exact .inr rfl
    · cases asked
  · split at asked
    · split at asked
      · cases asked
      · cases asked
        exact .inr rfl
    · cases asked
  · split at asked
    · obtain ⟨_,_,same⟩ := Option.map_eq_some_iff.mp asked
      cases same
      exact .inr rfl
    · cases asked
  · cases asked

/-- A block that was placed at a node still is after a step, or its delete is on its way there. -/
theorem step_placedAt (stepped : step bs label σ = some τ) (traceable : Traceable σ.metadata) (placed : PlacedAt σ.metadata node f idx) :
    PlacedAt τ.metadata node f idx ∨ DeleteDue τ.deletes node f idx := by
  obtain ⟨placement,placed,listed⟩ := placed
  rw [step_metadata stepped]
  unfold served
  split
  next host call asked =>
    rcases @serve_deletes host call σ.metadata f idx placement traceable placed with kept | ⟨_,deleted⟩
    · exact .inl ⟨placement,kept,listed⟩
    · obtain ⟨info,_,sent⟩ := deleted node listed
      rcases requested_fires asked with rfl | none
      · obtain ⟨_,rfl⟩ := call_steps stepped
        exact .inr ⟨_,List.mem_append_right _ sent,rfl,rfl⟩
      · rw [none] at sent
        cases sent
  next => exact .inl ⟨placement,placed,listed⟩

/-- A delete on its way stays on its way, unless it is delivered or lost. -/
theorem step_deleteDue (stepped : step bs label σ = some τ) (due : DeleteDue σ.deletes node f idx) :
    DeleteDue τ.deletes node f idx ∨ ∃ message ∈ σ.deletes, message.node = node ∧ message.key = ⟨f,idx,0⟩ ∧
      (label = .deliverDelete message ∨ (label = .loseDelete message ∧ τ.deletes = σ.deletes.erase message)) := by
  obtain ⟨message,waiting,at_,key⟩ := due
  rcases Classical.em (label = .loseDelete message) with rfl | kept
  · obtain ⟨_,rfl⟩ := loseDelete_steps stepped
    exact .inr ⟨message,waiting,at_,key,.inr ⟨rfl,rfl⟩⟩
  · rcases step_waits stepped waiting kept with still | delivered
    · exact .inl ⟨message,still,at_,key⟩
    · exact .inr ⟨message,waiting,at_,key,.inl delivered⟩

theorem deliver_runs {message : WriteBlock} (stepped : step bs (.deliver message) σ = some τ) : message ∈ σ.writes ∧
    τ = {σ.setStore message.node ((σ.stores message.node).writeBlock message.key message.data).2 with writes := σ.writes.erase message} := by
  simp only [step,deliver] at stepped
  split at stepped
  next waiting => exact ⟨waiting,(Option.some.inj stepped).symm⟩
  next => cases stepped

/-- A block that a store takes over is there after the step, which does nothing else. -/
theorem takesOver_slot (stepped : step bs label σ = some τ) (taken : TakesOver label σ node f idx) :
    ∃ bytes, τ.slot node f idx = some bytes ∧ τ.metadata = σ.metadata ∧ τ.deletes = σ.deletes := by
  obtain ⟨bytes,size,executes,accepted⟩ := taken
  cases label with
  | send c i =>
    obtain ⟨p,placement,task,key,dirty,placed,chosen⟩ := executes
    cases key
    obtain ⟨_,_,_,_,task',dirty',placed',_,chosen',_,rfl⟩ := send_steps stepped
    rw [task] at task'
    cases task'
    rw [dirty] at dirty'
    cases dirty'
    rw [placed] at placed'
    cases placed'
    rw [chosen] at chosen'
    cases chosen'
    refine ⟨bytes,?_,rfl,rfl⟩
    unfold slot
    simp only [setClient,setStore_stores,if_true,StoreState.insertBlock_get]
  | deliver message =>
    cases executes
    obtain ⟨_,rfl⟩ := deliver_runs stepped
    refine ⟨bytes,?_,rfl,rfl⟩
    rcases StoreState.writeBlock_cases ⟨f,idx,0⟩ bytes (σ.stores node) with ⟨status,refused⟩ | done
    · rw [refused] at accepted
      cases accepted
    · unfold slot
      rw [setStore_stores,if_pos rfl,done,StoreState.insertBlock_get,if_pos rfl]
  | _ => cases executes

/-- A block that a store holds after a step, it held before or has just taken over. -/
theorem step_slot (stepped : step bs label σ = some τ) {bytes : Bytes} (held : τ.slot node f idx = some bytes) :
    (∃ old, σ.slot node f idx = some old) ∨ TakesOver label σ node f idx := by
  rcases step_block stepped node ⟨f,idx,0⟩ with same | ⟨data,executes,wrote⟩ | ⟨message,_,rfl,at_,key⟩ | rfl
  · exact .inl ⟨bytes,same.symm.trans held⟩
  · cases label with
    | send c i =>
      obtain ⟨p,placement,task,key,dirty,placed,chosen⟩ := executes
      cases key
      obtain ⟨size,accepted⟩ := send_accepts stepped task dirty placed chosen
      exact .inr ⟨data,size,⟨p,placement,task,rfl,dirty,placed,chosen⟩,by rw [accepted]⟩
    | deliver message =>
      obtain ⟨_,rfl⟩ := deliver_runs stepped
      cases executes
      rcases StoreState.writeBlock_cases ⟨f,idx,0⟩ data (σ.stores node) with ⟨status,refused⟩ | accepted
      · unfold slot at held ⊢
        rw [setStore_stores,if_pos rfl,refused] at held
        exact .inl ⟨bytes,held⟩
      · exact .inr ⟨data,_,rfl,by rw [accepted]⟩
    | _ => cases executes
  · obtain ⟨_,rfl⟩ := deliverDelete_steps stepped
    unfold slot at held
    rw [setStore_stores,if_pos at_.symm,StoreState.deleteBlock_get,if_pos key] at held
    cases held
  · cases Option.some.inj stepped
    unfold slot at held
    rw [setStore_stores,if_pos rfl] at held
    simp [StoreState.new] at held

/-- A block that a store is asked for after its delete is delivered is not there. -/
theorem deliverDelete_slot {message : DeleteBlock} (stepped : step bs (.deliverDelete message) σ = some τ)
    (key : message.key = ⟨f,idx,0⟩) : τ.slot message.node f idx = none := by
  obtain ⟨_,rfl⟩ := deliverDelete_steps stepped
  unfold slot
  rw [setStore_stores,if_pos rfl,StoreState.deleteBlock_get,if_pos key]

/-- A step keeps all blocks accounted for exactly when it is timely. -/
theorem accounted_iff (stepped : step bs label σ = some τ) (traceable : Traceable σ.metadata) (accounted : Accounted σ) :
    Accounted τ ↔ Timely label σ := by
  constructor
  · intro after
    have kept (node : NodeId) (f : InodeId) (idx : BlockIdx) (taken : TakesOver label σ node f idx) :
        PlacedAt σ.metadata node f idx ∨ DeleteDue σ.deletes node f idx := by
      obtain ⟨bytes,held,metadata,deletes⟩ := takesOver_slot stepped taken
      rw [← metadata,← deletes]
      exact after node f idx bytes held
    cases label with
    | send c i => exact kept
    | deliver message => exact kept
    | loseDelete message =>
      intro f idx bytes _ held
      obtain ⟨_,rfl⟩ := loseDelete_steps stepped
      exact after message.node f idx bytes held
    | _ => trivial
  · intro timely node f idx bytes held
    have carried (before : PlacedAt σ.metadata node f idx ∨ DeleteDue σ.deletes node f idx) :
        PlacedAt τ.metadata node f idx ∨ DeleteDue τ.deletes node f idx := by
      rcases before with placed | due
      · exact step_placedAt stepped traceable placed
      · rcases step_deleteDue stepped due with still | ⟨message,_,rfl,key,rfl | ⟨rfl,fewer⟩⟩
        · exact .inr still
        · rw [deliverDelete_slot stepped key] at held
          cases held
        · rcases step_slot stepped held with ⟨old,had⟩ | ⟨_,_,executes,_⟩
          · rcases timely f idx old key had with placed | due
            · exact step_placedAt stepped traceable placed
            · rw [fewer]
              exact .inr due
          · cases executes
    rcases step_slot stepped held with ⟨old,had⟩ | taken
    · exact carried (accounted node f idx old had)
    · cases label with
      | send c i => exact carried (timely node f idx taken)
      | deliver message => exact carried (timely node f idx taken)
      | _ =>
        obtain ⟨_,_,executes,_⟩ := taken
        cases executes

theorem run_reclaimable (labels : List Label) (regular : Regular (requests bs labels σ) σ.metadata) (traceable : Traceable σ.metadata)
    (replicated : 0 < σ.metadata.replicationFactor) (ran : Runs.run (step bs) labels σ = some τ) :
    Runs.Each (step bs) Reclaimable labels σ := by
  induction labels generalizing σ with
  | nil => exact Runs.each_nil σ
  | cons label rest ih =>
    obtain ⟨υ,stepped,ran⟩ := Runs.run_cons ran
    have after := step_metadata stepped
    rw [requests,stepped,Option.elim_some] at regular
    rw [Runs.each_cons stepped]
    cases asked : requested label σ with
    | none =>
      rw [asked,served] at after
      rw [asked,Option.toList_none,List.nil_append,← after] at regular
      refine ⟨?_,ih regular (by rw [after]; exact traceable) (by rw [after]; exact replicated) ran⟩
      intro host call some_
      rw [asked] at some_
      cases some_
    | some request =>
      obtain ⟨host,call⟩ := request
      rw [asked,served] at after
      rw [asked,Option.toList_some,List.singleton_append] at regular
      obtain ⟨next,factor,later⟩ := regular.next traceable replicated
      have room := regular.room
      have drew : drawn ((host,call)::requests bs rest υ) σ.metadata =
        (draws call σ.metadata).toNat + drawn (requests bs rest υ) (serve host call σ.metadata) := rfl
      rw [← after] at next factor later
      refine ⟨?_,ih later next factor ran⟩
      intro host' call' same
      rw [asked] at same
      cases same
      exact ⟨regular.files.1,regular.staffed.1,by omega⟩

end Steps

theorem new_accounted (now : SystemTime) (replicationFactor ramBudget : Nat) : Accounted (.new now replicationFactor ramBudget) := by
  intro node f idx bytes held
  simp [slot,new,StoreState.new] at held

/-- In every run, all that the stores hold is placed there or about to be deleted, up to the
first write that comes after its delete and the first delete that is lost. -/
theorem accounted_iff_timely (bs : Nat) (now : SystemTime) (replicationFactor ramBudget : Nat) (replicated : 0 < replicationFactor)
    (labels : List Label) {τ : Cluster} (ran : Runs.run (step bs) labels (.new now replicationFactor ramBudget) = some τ)
    (files : Along AllocatesFiles (requests bs labels (.new now replicationFactor ramBudget)) (MetaState.new now replicationFactor))
    (staffed : Along PlacesStaffed (requests bs labels (.new now replicationFactor ramBudget)) (MetaState.new now replicationFactor))
    (few : drawn (requests bs labels (.new now replicationFactor ramBudget)) (MetaState.new now replicationFactor) < 2^64 - 2) :
    (Runs.Always (step bs) Accounted labels (.new now replicationFactor ramBudget) ↔
      Runs.Each (step bs) Timely labels (.new now replicationFactor ramBudget)) ∧
    (Runs.Each (step bs) Timely labels (.new now replicationFactor ramBudget) → τ.deletes = [] →
      ∀ node f idx bytes, τ.slot node f idx = some bytes → PlacedAt τ.metadata node f idx) := by
  have start : (MetaState.new now replicationFactor).nextIno = 2 := rfl
  have traceable := traceable_new now replicationFactor
  have room : (MetaState.new now replicationFactor).nextIno +
      drawn (requests bs labels (.new now replicationFactor ramBudget)) (MetaState.new now replicationFactor) < 2^64 := by omega
  have sides := run_reclaimable labels ⟨files,staffed,room⟩ traceable replicated ran
  have equivalent : Runs.Always (step bs) Accounted labels (.new now replicationFactor ramBudget) ↔
      Runs.Each (step bs) Timely labels (.new now replicationFactor ramBudget) := by
    have inv : Traceable (new now replicationFactor ramBudget).metadata ∧ 0 < (new now replicationFactor ramBudget).metadata.replicationFactor :=
      ⟨traceable,replicated⟩
    refine @Runs.always_iff_each_where _ _ (step bs) (fun σ => Traceable σ.metadata ∧ 0 < σ.metadata.replicationFactor) _ _ _ ?_ labels _ _
      inv sides (new_accounted now replicationFactor ramBudget) ran
    intro label σ υ inv proper accounted stepped
    refine ⟨⟨step_traceable stepped proper inv.1 inv.2,?_⟩,accounted_iff stepped inv.1 accounted⟩
    rw [step_replicated stepped]
    exact inv.2
  refine ⟨equivalent,?_⟩
  intro timely quiet node f idx bytes held
  have accounted := equivalent.mpr timely labels [] τ (List.append_nil _).symm ran
  rcases accounted node f idx bytes held with placed | ⟨_,waiting,_⟩
  · exact placed
  · rw [quiet] at waiting
    cases waiting

/-- A file is unlinked between the allocation of its block and the write. -/
def unlinkedUnderneath : List Label :=
  [.call Host.still (.heartbeatNode 0 ⟨"n","a",0,0,0⟩),.create 0 Host.still ⟨ROOT,"f",0,0,0⟩ 0,.write 0 1 0 [7],
    .chunk 0 (fun _ => true),.publish 0 1 .primariesOnly Host.still,.call Host.still (.unlink ROOT "f"),
    .deliverDelete ⟨"n","http://a",⟨2,0,0⟩⟩,.send 0 0]

theorem unlinkedUnderneath_requests : requests 1 unlinkedUnderneath (.new 0 1 64) =
    [(Host.still,.heartbeatNode 0 ⟨"n","a",0,0,0⟩),(Host.still,.create ⟨ROOT,"f",0,0,0⟩),(Host.still,.allocateBlocks 2 [0]),
      (Host.still,.unlink ROOT "f")] := rfl

theorem accounted_iff_timely_unlinked :
    ¬ Runs.Always (step 1) Accounted unlinkedUnderneath (.new 0 1 64) ∧ (Runs.run (step 1) unlinkedUnderneath (.new 0 1 64)).isSome = true := by
  have ran : (Runs.run (step 1) unlinkedUnderneath (.new 0 1 64)).isSome = true := by decide
  refine ⟨?_,ran⟩
  intro always
  have files : Along AllocatesFiles (requests 1 unlinkedUnderneath (.new 0 1 64)) (MetaState.new 0 1) := by
    rw [unlinkedUnderneath_requests]
    refine ⟨trivial,trivial,?_,trivial,trivial⟩
    intro inode found
    cases found
    rfl
  have staffed : Along PlacesStaffed (requests 1 unlinkedUnderneath (.new 0 1 64)) (MetaState.new 0 1) := by
    rw [unlinkedUnderneath_requests]
    refine ⟨trivial,trivial,?_,trivial,trivial⟩
    intro _ _ _
    exact ⟨"n",⟨"n","a",0,0,.up⟩,rfl,rfl⟩
  have few : drawn (requests 1 unlinkedUnderneath (.new 0 1 64)) (MetaState.new 0 1) < 2^64 - 2 := by decide
  have each := (accounted_iff_timely 1 0 1 64 (by decide) unlinkedUnderneath (Option.some_get ran).symm files staffed few).1.mp always
  have before : ∃ σ, Runs.run (step 1) (unlinkedUnderneath.take 7) (.new 0 1 64) = some σ ∧ TakesOver (.send 0 0) σ "n" 2 0 ∧
      placementOf σ.metadata 2 0 = none ∧ σ.deletes = [] := ⟨_,rfl,⟨[7],1,⟨_,_,rfl,rfl,rfl,rfl,rfl⟩,rfl⟩,rfl,rfl⟩
  obtain ⟨σ,reached,taken,unplaced,quiet⟩ := before
  have timely : Timely (.send 0 0) σ := each (unlinkedUnderneath.take 7) (.send 0 0) [] σ rfl reached
  rcases timely "n" 2 0 taken with ⟨placement,placed,_⟩ | ⟨message,waiting,_⟩
  · rw [unplaced] at placed
    cases placed
  · rw [quiet] at waiting
    cases waiting

end Cluster

end Dtmpfs
