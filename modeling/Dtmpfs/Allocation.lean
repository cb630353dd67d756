import Dtmpfs.FileRecord

/-! Placements: what `Meta.Open` and `Meta.AllocateBlocks` tell a client agrees with
the record of the file, and a placement names distinct registered nodes. -/
namespace Dtmpfs
open MetaService MetaState OrderedMap

/-- Every entry of `known` is an entry of `blocks`. -/
def Agrees (known blocks : Map BlockIdx BlockPlacement) : Prop :=
  ∀ (idx : BlockIdx) (placement : BlockPlacement), known[idx]? = some placement → blocks[idx]? = some placement

theorem Agrees.refl (blocks : Map BlockIdx BlockPlacement) : Agrees blocks blocks := fun _ _ found => found

theorem Agrees.trans {known middle blocks : Map BlockIdx BlockPlacement} (first : Agrees known middle)
    (second : Agrees middle blocks) : Agrees known blocks :=
  fun idx placement found => second idx placement (first idx placement found)

theorem insertLocs_agrees {blocks known : Map BlockIdx BlockPlacement} (locs : List BlockLoc)
    (agrees : Agrees known blocks) (told : ∀ loc ∈ locs, blocks[loc.blockIdx]? = some loc.placement) :
    Agrees (insertLocs known locs) blocks := by
  induction locs generalizing known with
  | nil => exact agrees
  | cons loc rest ih =>
    refine ih ?_ (fun other member => told other (List.mem_cons_of_mem _ member))
    intro idx placement found
    rw [get_insert] at found
    split at found
    next same =>
      cases found
      exact same ▸ told loc List.mem_cons_self
    next => exact agrees idx placement found

theorem insertLocs_known {known : Map BlockIdx BlockPlacement} (locs : List BlockLoc) (idx : BlockIdx) :
    (insertLocs known locs)[idx]? = none ↔ known[idx]? = none ∧ ∀ loc ∈ locs, loc.blockIdx ≠ idx := by
  induction locs generalizing known with
  | nil => simp [insertLocs]
  | cons loc rest ih =>
    have step : insertLocs known (loc::rest) = insertLocs (known.insert loc.blockIdx loc.placement) rest := rfl
    rw [step,ih,get_insert]
    simp only [List.mem_cons,forall_eq_or_imp]
    split
    next same => simp [same]
    next other => simp [other]

theorem insertLocs_toList (blocks : Map BlockIdx BlockPlacement) :
    insertLocs ∅ (blocks.toList.map (fun (idx,p) => placementToBlockLoc idx p)) = blocks := by
  have agrees : Agrees (insertLocs ∅ (blocks.toList.map (fun (idx,p) => placementToBlockLoc idx p))) blocks := by
    refine insertLocs_agrees _ (fun idx placement found => by simp at found) ?_
    intro loc told
    obtain ⟨⟨idx,placement⟩,member,rfl⟩ := List.mem_map.mp told
    exact Std.ExtTreeMap.mem_toList_iff_getElem?_eq_some.mp member
  ext idx placement
  refine ⟨agrees idx placement,?_⟩
  intro found
  cases present : (insertLocs ∅ (blocks.toList.map (fun (idx,p) => placementToBlockLoc idx p)))[idx]? with
  | some other =>
    have same := agrees idx other present
    rw [found] at same
    exact same.symm
  | none =>
    have absent := ((insertLocs_known _ idx).mp present).2
    have member := Std.ExtTreeMap.mem_toList_iff_getElem?_eq_some.mpr found
    exact absurd rfl (absent _ (List.mem_map.mpr ⟨(idx,placement),member,rfl⟩))

theorem openRead_ok {r : OpenReq} {s : MetaState} {snapshot : OpenSnapshot} (opened : openRead r s = .ok snapshot) :
    ∃ file, s.fileAt r.ino = some file ∧ snapshot.ino = r.ino ∧ snapshot.generation = file.generation ∧
      snapshot.attr.generation = file.generation ∧ snapshot.attr.size = file.size ∧
      insertLocs ∅ snapshot.blockMap = file.blocks := by
  unfold openRead at opened
  split at opened
  · cases opened
  next inode found =>
    split at opened
    next kind =>
      cases opened
      exact ⟨⟨inode.size,inode.generation,inode.blocks⟩,by simp [fileAt,found,record,kind],rfl,rfl,rfl,rfl,
        insertLocs_toList inode.blocks⟩
    next => cases opened

theorem openRead_file {r : OpenReq} {s : MetaState} {file : FileRecord} (alive : s.fileAt r.ino = some file) :
    ∃ snapshot, openRead r s = .ok snapshot := by
  obtain ⟨inode,found,kind,_⟩ := fileAt_some alive
  refine ⟨⟨r.ino,r.flags,buildAttr inode,inode.generation,
    inode.blocks.toList.map (fun (idx,p) => placementToBlockLoc idx p)⟩,?_⟩
  simp only [openRead,found,kind,if_true]

/-- Old placements stay and new ones are chosen among the live nodes. -/
structure Extends (host : Host) (s : MetaState) (ino : InodeId) (old new : Map BlockIdx BlockPlacement) : Prop where
  keeps : Agrees old new
  chosen : ∀ (idx : BlockIdx) (placement : BlockPlacement), new[idx]? = some placement →
    old[idx]? = some placement ∨ placement = s.place host ino idx

theorem allocateOne_spec (host : Host) (ino : InodeId) (s : MetaState) (inode : Inode)
    (blocks : Map BlockIdx BlockPlacement) (locs : List BlockLoc) (idx : BlockIdx)
    (extended : Extends host s ino inode.blocks blocks) (told : ∀ loc ∈ locs, blocks[loc.blockIdx]? = some loc.placement) :
    ∃ blocks' loc, allocateOne host ino (.ok locs,s.putInode ino {inode with blocks := blocks}) idx =
        (.ok (locs ++ [loc]),s.putInode ino {inode with blocks := blocks'}) ∧ loc.blockIdx = idx ∧
      Extends host s ino inode.blocks blocks' ∧ ∀ loc' ∈ locs ++ [loc], blocks'[loc'.blockIdx]? = some loc'.placement := by
  have present : (s.putInode ino {inode with blocks := blocks}).inodes[ino]? = some {inode with blocks := blocks} := by
    simp [putInode]
  cases placed : blocks[idx]? with
  | some placement =>
    refine ⟨blocks,placementToBlockLoc idx placement,?_,rfl,extended,?_⟩
    · simp only [allocateOne,present,Option.bind_some,placed]
    · intro loc member
      rcases List.mem_append.mp member with old | new
      · exact told loc old
      · rw [List.mem_singleton.mp new]
        exact placed
  | none =>
    refine ⟨blocks.insert idx (s.place host ino idx),placementToBlockLoc idx (s.place host ino idx),?_,rfl,?_,?_⟩
    · have same : (s.putInode ino {inode with blocks := blocks}).place host ino idx = s.place host ino idx := rfl
      simp only [allocateOne,present,Option.bind_some,placed,MetaState.allocateBlocks,List.map_cons,List.map_nil,
        List.foldl_cons,List.foldl_nil,insertPlacement,same]
      simp only [putInode,insert_insert]
    · refine ⟨?_,?_⟩
      · intro i placement found
        have known := extended.keeps i placement found
        rw [get_insert]
        split
        next same =>
          rw [same,known] at placed
          cases placed
        next => exact known
      · intro i placement found
        rw [get_insert] at found
        split at found
        next same =>
          cases found
          exact .inr (by rw [same])
        next => exact extended.chosen i placement found
    · intro loc member
      rw [get_insert]
      rcases List.mem_append.mp member with old | new
      · have known := told loc old
        split
        next same =>
          rw [same,known] at placed
          cases placed
        next => exact known
      · rw [List.mem_singleton.mp new]
        exact if_pos rfl

theorem allocateBlocks_cases (host : Host) (ino : InodeId) (idxs : List BlockIdx) (s : MetaState) :
    (s.inodes[ino]? = none ∧ MetaService.allocateBlocks host ino idxs s = ⟨inodeNotFound,s,[]⟩) ∨
    ∃ inode blocks locs, s.inodes[ino]? = some inode ∧
      MetaService.allocateBlocks host ino idxs s = ⟨.ok locs,s.putInode ino {inode with blocks := blocks},[]⟩ ∧
      Extends host s ino inode.blocks blocks ∧ locs.map (·.blockIdx) = idxs ∧
      ∀ loc ∈ locs, blocks[loc.blockIdx]? = some loc.placement := by
  have loop (idxs : List BlockIdx) (inode : Inode) (blocks : Map BlockIdx BlockPlacement) (locs : List BlockLoc)
      (extended : Extends host s ino inode.blocks blocks) (told : ∀ loc ∈ locs, blocks[loc.blockIdx]? = some loc.placement) :
      ∃ blocks' locs', idxs.foldl (allocateOne host ino) (.ok locs,s.putInode ino {inode with blocks := blocks}) =
          (.ok locs',s.putInode ino {inode with blocks := blocks'}) ∧ Extends host s ino inode.blocks blocks' ∧
        locs'.map (·.blockIdx) = locs.map (·.blockIdx) ++ idxs ∧ ∀ loc ∈ locs', blocks'[loc.blockIdx]? = some loc.placement := by
    induction idxs generalizing blocks locs with
    | nil => exact ⟨blocks,locs,rfl,extended,by simp,told⟩
    | cons idx rest ih =>
      obtain ⟨blocks',loc,step,named,grown,told'⟩ := allocateOne_spec host ino s inode blocks locs idx extended told
      obtain ⟨blocks'',locs',tail,grown',order,told''⟩ := ih blocks' (locs ++ [loc]) grown told'
      refine ⟨blocks'',locs',?_,grown',?_,told''⟩
      · rw [List.foldl_cons,step,tail]
      · rw [order,List.map_append,List.map_singleton,named,List.append_assoc,List.singleton_append]
  unfold MetaService.allocateBlocks
  cases found : s.inodes[ino]? with
  | none =>
    have absent : s.inodes.contains ino = false := (vacant_iff s.inodes ino).mpr found
    exact .inl ⟨rfl,by rw [absent]; rfl⟩
  | some inode =>
    have present : s.inodes.contains ino = true := (contains_iff s.inodes ino).mpr ⟨inode,found⟩
    have self : s.putInode ino {inode with blocks := inode.blocks} = s := by
      simp only [putInode,insert_get s.inodes ino inode found]
    obtain ⟨blocks,locs,folded,extended,order,told⟩ := loop idxs inode inode.blocks [] ⟨.refl _,fun _ _ found => .inl found⟩
      (List.forall_mem_nil _)
    rw [self] at folded
    refine .inr ⟨inode,blocks,locs,rfl,?_,extended,by simpa using order,told⟩
    simp only [present,if_true,folded]

/-- A placement names distinct nodes, all registered if some node is up. -/
structure WellPlaced (s : MetaState) (placement : BlockPlacement) : Prop where
  apart : placement.primary ∉ placement.replicas
  distinct : placement.replicas.Nodup
  registered : ∀ node ∈ placement.nodes, s.nodes.contains node = true

theorem mem_listNodes (host : Host) {s : MetaState} (filed : Filed s) (info : NodeInfo) :
    info ∈ listNodes host s ↔ s.nodes[info.nodeId]? = some info ∧ info.status = .up := by
  unfold listNodes
  rw [List.mem_filter,(host.arrange_perm s.nodeValues).mem_iff,nodeValues,List.mem_map,decide_eq_true_iff]
  constructor
  · intro both
    obtain ⟨⟨entry,listed,rfl⟩,live⟩ := both
    have stored := Std.ExtTreeMap.mem_toList_iff_getElem?_eq_some.mp listed
    rw [filed entry.1 entry.2 stored]
    exact ⟨stored,live⟩
  · intro both
    exact ⟨⟨(info.nodeId,info),Std.ExtTreeMap.mem_toList_iff_getElem?_eq_some.mpr both.1,rfl⟩,both.2⟩

theorem mem_liveNodes (host : Host) {s : MetaState} (filed : Filed s) (node : NodeId) :
    node ∈ s.liveNodes host ↔ ∃ info, s.nodes[node]? = some info ∧ info.status = .up := by
  have listed : s.liveNodes host = (listNodes host s).map (·.nodeId) := rfl
  rw [listed,List.mem_map]
  constructor
  · intro named
    obtain ⟨info,member,rfl⟩ := named
    exact ⟨info,(mem_listNodes host filed info).mp member⟩
  · intro up
    obtain ⟨info,found,status⟩ := up
    have own := filed node info found
    exact ⟨info,(mem_listNodes host filed info).mpr ⟨own.symm ▸ found,status⟩,own⟩

theorem liveNodes_nodup (host : Host) {s : MetaState} (filed : Filed s) : (s.liveNodes host).Nodup := by
  have ids : s.nodeValues.map (·.nodeId) = s.nodes.keys := by
    rw [← Std.ExtTreeMap.map_fst_toList_eq_keys,nodeValues,List.map_map]
    refine List.map_congr_left ?_
    intro entry member
    exact filed entry.1 entry.2 (Std.ExtTreeMap.mem_toList_iff_getElem?_eq_some.mp member)
  have distinct : (s.nodeValues.map (·.nodeId)).Nodup := ids ▸ Std.ExtTreeMap.nodup_keys
  have arranged : ((host.arrange s.nodeValues).map (·.nodeId)).Nodup :=
    ((host.arrange_perm s.nodeValues).map _).nodup_iff.mpr distinct
  exact arranged.sublist (List.filter_sublist.map _)

theorem liveNodes_registered (host : Host) {s : MetaState} (filed : Filed s) (node : NodeId)
    (live : node ∈ s.liveNodes host) : s.nodes.contains node = true := by
  obtain ⟨info,found,_⟩ := (mem_liveNodes host filed node).mp live
  exact (contains_iff _ _).mpr ⟨info,found⟩

theorem place_nodes (host : Host) {s : MetaState} (ino : InodeId) (idx : BlockIdx) (live : s.liveNodes host ≠ [])
    (replicated : 0 < s.replicationFactor) :
    (s.place host ino idx).nodes = pickNodes host.xxh3 ⟨ino,idx,0⟩ (s.liveNodes host) s.replicationFactor := by
  have length := pickNodes_length host.xxh3 ⟨ino,idx,0⟩ (s.liveNodes host) s.replicationFactor
  have up := List.length_pos_iff.mpr live
  unfold place
  cases chosen : pickNodes host.xxh3 ⟨ino,idx,0⟩ (s.liveNodes host) s.replicationFactor with
  | nil =>
    rw [chosen,List.length_nil] at length
    omega
  | cons primary replicas => rfl

theorem place_wellPlaced (host : Host) {s : MetaState} (filed : Filed s) (ino : InodeId) (idx : BlockIdx)
    (live : s.liveNodes host ≠ []) (replicated : 0 < s.replicationFactor) : WellPlaced s (s.place host ino idx) := by
  have nodes := place_nodes host ino idx live replicated
  have distinct : (s.place host ino idx).nodes.Nodup :=
    nodes ▸ pickNodes_nodup host.xxh3 ⟨ino,idx,0⟩ (s.liveNodes host) s.replicationFactor (liveNodes_nodup host filed)
  obtain ⟨apart,rest⟩ := List.nodup_cons.mp distinct
  refine ⟨apart,rest,?_⟩
  intro node member
  rw [nodes] at member
  exact liveNodes_registered host filed node (pickNodes_subset _ _ _ _ node member)

end Dtmpfs
