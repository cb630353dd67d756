import Dtmpfs.Generations

/-! A block that has been placed stays where it is: the membership map is read for a
new block only. -/
namespace Dtmpfs
open MetaService MetaState OrderedMap

/-- The placement the record of inode `ino` has for block `idx`. -/
def placementOf (s : MetaState) (ino : InodeId) (idx : BlockIdx) : Option BlockPlacement :=
  s.inodes[ino]?.bind (fun inode => inode.blocks[idx]?)

/-- The request takes the placement of block `idx` away: a `SetAttr` that shrinks the
file drops it, or the inode goes. An inode also goes when the counter has come round
to its number and a new one is stored over it. -/
inductive Ends (host : Host) (call : Call) (s : MetaState) (ino : InodeId) (idx : BlockIdx) : Prop
  | dropped (r : SetAttrReq) (n : Nat) (old : Inode) (request : call = .setAttr r) (mine : r.ino = ino) (size : r.size = some n)
      (found : s.inodes[ino]? = some old) (shrunk : drops old.size n idx = true)
      (gone : placementOf (serve host call s) ino idx = none)
  | removed (cause : Removes call) (gone : (serve host call s).inodes[ino]? = none)
  | replaced (drawn : drawsNumber ino call s = true)

/-- No request of the run takes the placement away. -/
def Lasting (ino : InodeId) (idx : BlockIdx) : List (Host × Call) → MetaState → Prop
  | [],_ => True
  | (host,call)::rest,s => ¬ Ends host call s ino idx ∧ Lasting ino idx rest (serve host call s)

/-- A response given in state `s` names `loc` for a block of `ino`: an `AllocResp`, or
an `OpenResp` whose first half ran in this state. -/
inductive Mentions (s : MetaState) (ino : InodeId) (loc : BlockLoc) : Prop
  | alloc (host : Host) (idxs : List BlockIdx) (locs : List BlockLoc)
      (answer : (MetaService.allocateBlocks host ino idxs s).reply = .ok locs) (member : loc ∈ locs)
  | opened (r : OpenReq) (snapshot : OpenSnapshot) (later : MetaState) (mine : r.ino = ino)
      (read : openRead r s = .ok snapshot) (member : loc ∈ (openInsert snapshot later).1.blockMap)

section Step

variable {host : Host} {call : Call} {s : MetaState} {ino : InodeId} {idx : BlockIdx} {placement : BlockPlacement}

theorem placementOf_some (placed : placementOf s ino idx = some placement) :
    ∃ inode, s.inodes[ino]? = some inode ∧ inode.blocks[idx]? = some placement :=
  Option.bind_eq_some_iff.mp placed

theorem placementOf_of {inode : Inode} (found : s.inodes[ino]? = some inode) : placementOf s ino idx = inode.blocks[idx]? := by
  rw [placementOf,found]
  rfl

theorem serve_placement (placed : placementOf s ino idx = some placement) (lasting : ¬ Ends host call s ino idx) :
    placementOf (serve host call s) ino idx = some placement := by
  obtain ⟨old,before,known⟩ := placementOf_some placed
  have change := serve_change host call s ino
  rw [before] at change
  cases after : (serve host call s).inodes[ino]? with
  | none =>
    rw [after] at change
    cases change with
    | removed _ cause => exact absurd (.removed cause after) lasting
  | some new =>
    rw [after] at change
    rw [placementOf_of after]
    cases change with
    | kept _ _ _ _ blocks => rw [blocks,known]
    | drawn _ _ drew number _ _ =>
      have drawn : drawsNumber ino call s = true := by
        rw [drawsNumber,drew,number,Bool.true_and,beq_self_eq_true]
      exact absurd (.replaced drawn) lasting
    | resized _ _ r n request mine size _ _ blocks =>
      have filtered : new.blocks[idx]? = (some placement).filter (fun _ => !drops old.size n idx) := by
        rw [blocks,get_filter,known]
      cases shrunk : drops old.size n idx with
      | false =>
        rw [filtered,shrunk]
        rfl
      | true =>
        have gone : placementOf (serve host call s) ino idx = none := by
          rw [placementOf_of after,filtered,shrunk]
          rfl
        exact absurd (.dropped r n old request mine size before shrunk gone) lasting
    | published _ _ _ _ _ _ _ _ _ _ _ _ blocks => rw [blocks,known]
    | placed _ _ _ _ _ _ extended => exact extended.keeps idx placement known

theorem run_placement (calls : List (Host × Call)) (s : MetaState) (placed : placementOf s ino idx = some placement)
    (lasting : Lasting ino idx calls s) : placementOf (run calls s) ino idx = some placement := by
  induction calls generalizing s with
  | nil => exact placed
  | cons head rest ih =>
    obtain ⟨host,call⟩ := head
    obtain ⟨now,later⟩ := lasting
    exact ih (serve host call s) (serve_placement placed now) later

end Step

section Answers

variable {s : MetaState} {ino : InodeId}

theorem allocated_recorded {host : Host} {idxs : List BlockIdx} {locs : List BlockLoc}
    (answer : (MetaService.allocateBlocks host ino idxs s).reply = .ok locs) :
    locs.map (·.blockIdx) = idxs ∧
      ∀ loc ∈ locs, placementOf (serve host (.allocateBlocks ino idxs) s) ino loc.blockIdx = some loc.placement := by
  rcases allocateBlocks_cases host ino idxs s with ⟨_,missing⟩ | ⟨inode,blocks,_,_,served,_,order,told⟩
  · rw [missing] at answer
    cases answer
  · have state : serve host (.allocateBlocks ino idxs) s = s.putInode ino {inode with blocks := blocks} := by
      rw [serve,served]
    rw [served] at answer
    cases answer
    refine ⟨order,?_⟩
    intro loc member
    rw [state,placementOf,putInode,get_insert,if_pos rfl]
    exact told loc member

/-- A response repeats what the record has. -/
theorem Mentions.recorded {loc : BlockLoc} {placement : BlockPlacement} (said : Mentions s ino loc)
    (placed : placementOf s ino loc.blockIdx = some placement) : loc.placement = placement := by
  cases said with
  | alloc host idxs locs answer member =>
    have lasting : ¬ Ends host (.allocateBlocks ino idxs) s ino loc.blockIdx := by
      intro ends
      cases ends with
      | dropped _ _ _ request => cases request
      | removed cause => exact cause
      | replaced drawn => cases drawn
    have told := (allocated_recorded answer).2 loc member
    rw [serve_placement placed lasting] at told
    exact (Option.some.inj told).symm
  | opened r snapshot later mine read member =>
    obtain ⟨inode,found,known⟩ := placementOf_some placed
    subst mine
    have listed : ∃ entry ∈ inode.blocks.toList, placementToBlockLoc entry.1 entry.2 = loc := by
      rw [openRead,found] at read
      simp only at read
      split at read
      · cases read
        exact List.mem_map.mp member
      · cases read
    obtain ⟨⟨idx,p⟩,entry,rfl⟩ := listed
    have stored : inode.blocks[idx]? = some p := Std.ExtTreeMap.mem_toList_iff_getElem?_eq_some.mp entry
    rw [show (placementToBlockLoc idx p).blockIdx = idx from rfl,stored] at known
    exact Option.some.inj known

/-- Where every requested block has its place, the loop only collects. -/
theorem allocate_settled (host : Host) (locs acc : List BlockLoc)
    (placed : ∀ loc ∈ locs, placementOf s ino loc.blockIdx = some loc.placement) :
    (locs.map (·.blockIdx)).foldl (allocateOne host ino) (.ok acc,s) = (.ok (acc ++ locs),s) := by
  induction locs generalizing acc with
  | nil => simp
  | cons loc rest ih =>
    have known : s.inodes[ino]?.bind (fun inode => inode.blocks[loc.blockIdx]?) = some loc.placement :=
      placed loc List.mem_cons_self
    have step : allocateOne host ino (.ok acc,s) loc.blockIdx = (.ok (acc ++ [loc]),s) := by
      simp only [allocateOne,known]
      rfl
    rw [List.map_cons,List.foldl_cons,step,ih (acc ++ [loc]) (fun other member => placed other (List.mem_cons_of_mem _ member)),
      List.append_assoc,List.singleton_append]

/-- A second `AllocateBlocks` for the same blocks, on whatever view of the host,
repeats the first. -/
theorem allocateBlocks_again (host again : Host) (idxs : List BlockIdx) (s : MetaState) :
    MetaService.allocateBlocks again ino idxs (serve host (.allocateBlocks ino idxs) s) =
      ⟨(MetaService.allocateBlocks host ino idxs s).reply,serve host (.allocateBlocks ino idxs) s,[]⟩ := by
  rcases allocateBlocks_cases host ino idxs s with ⟨absent,missing⟩ | ⟨inode,blocks,locs,_,served,_,order,_⟩
  · have state : serve host (.allocateBlocks ino idxs) s = s := by rw [serve,missing]
    rw [state,missing]
    rcases allocateBlocks_cases again ino idxs s with ⟨_,missing'⟩ | ⟨inode,_,_,present,_⟩
    · exact missing'
    · rw [absent] at present
      cases present
  · have reply : (MetaService.allocateBlocks host ino idxs s).reply = .ok locs := by rw [served]
    have placed := (allocated_recorded reply).2
    have state : serve host (.allocateBlocks ino idxs) s = s.putInode ino {inode with blocks := blocks} := by
      rw [serve,served]
    have present : (serve host (.allocateBlocks ino idxs) s).inodes.contains ino = true := by
      rw [state,putInode,contains_iff]
      exact ⟨_,by rw [get_insert,if_pos rfl]⟩
    have folded := allocate_settled again locs [] placed
    rw [order,List.nil_append] at folded
    rw [MetaService.allocateBlocks,if_pos present,folded,reply]

end Answers

/-- Placement is sticky. An `AllocResp` names each requested block once per request, in
the order asked for; asking again at once changes nothing and answers the same; and
from then on, until a shrink drops the block or the inode goes, every response that
names the block names the same nodes for it. -/
theorem placement_sticky (now : SystemTime) (replicationFactor : Nat) (before : List (Host × Call)) (host : Host) (ino : InodeId)
    (idxs : List BlockIdx) :
    let s := run before (new now replicationFactor)
    let t := serve host (.allocateBlocks ino idxs) s
    (∀ again, MetaService.allocateBlocks again ino idxs t = ⟨(MetaService.allocateBlocks host ino idxs s).reply,t,[]⟩) ∧
    ∀ locs, (MetaService.allocateBlocks host ino idxs s).reply = .ok locs →
      locs.map (·.blockIdx) = idxs ∧
      ∀ loc ∈ locs, (∀ other ∈ locs, other.blockIdx = loc.blockIdx → other = loc) ∧
        ∀ between, Lasting ino loc.blockIdx between t →
          ∀ other, other.blockIdx = loc.blockIdx → Mentions (run between t) ino other → other = loc := by
  intro s t
  refine ⟨fun again => allocateBlocks_again host again idxs s,?_⟩
  intro locs answer
  obtain ⟨order,placed⟩ := allocated_recorded answer
  have same {other loc : BlockLoc} (block : other.blockIdx = loc.blockIdx) (nodes : other.placement = loc.placement) :
      other = loc := by
    obtain ⟨primary,replicas⟩ := BlockPlacement.mk.inj nodes
    cases other
    cases loc
    cases block
    cases primary
    cases replicas
    rfl
  refine ⟨order,?_⟩
  intro loc member
  refine ⟨?_,?_⟩
  · intro other member' block
    have first := placed loc member
    have second := placed other member'
    rw [block,first] at second
    exact same block (Option.some.inj second).symm
  · intro between lasting other block said
    have later := run_placement between t (placed loc member) lasting
    rw [← block] at later
    exact same block (said.recorded later)

/-- The node `n` is up and a file has the number 2. -/
def upAndCreated : List (Host × Call) :=
  [(Host.still,Call.heartbeatNode 0 ⟨"n","a",0,0,0⟩),(Host.still,Call.create ⟨ROOT,"f",0,0,0⟩)]

/-- The node `m` joins and the node `n` goes down. -/
def moved : List (Host × Call) :=
  [(Host.still,Call.heartbeatNode 9 ⟨"m","b",0,0,0⟩),(Host.still,Call.watcherTick 9 5)]

theorem placement_sticky_moved :
    let s := run upAndCreated (new 0 1)
    let t := serve Host.still (.allocateBlocks 2 [0,0]) s
    (MetaService.allocateBlocks Host.still 2 [0,0] s).reply.toOption = some [⟨0,"n",[]⟩,⟨0,"n",[]⟩] ∧
      (run moved t).liveNodes Host.still = ["m"] ∧
      ∀ other, other.blockIdx = 0 → Mentions (run moved t) 2 other → other = ⟨0,"n",[]⟩ := by
  intro s t
  refine ⟨by decide,by decide,?_⟩
  have answer : (MetaService.allocateBlocks Host.still 2 [0,0] s).reply = .ok [⟨0,"n",[]⟩,⟨0,"n",[]⟩] := rfl
  obtain ⟨_,sticky⟩ := placement_sticky 0 1 upAndCreated Host.still 2 [0,0]
  obtain ⟨_,each⟩ := sticky _ answer
  refine (each ⟨0,"n",[]⟩ List.mem_cons_self).2 moved ⟨?_,?_,trivial⟩
  · intro ends
    cases ends with
    | dropped _ _ _ request => cases request
    | removed cause => exact cause
    | replaced drawn => cases drawn
  · intro ends
    cases ends with
    | dropped _ _ _ request => cases request
    | removed cause => exact cause
    | replaced drawn => cases drawn

end Dtmpfs
