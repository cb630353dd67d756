import Dtmpfs.StickyPlacement
import Dtmpfs.NamespaceIntegrity
import Dtmpfs.RenameEffects
import Dtmpfs.Semantics.Runs

/-! Placements are made of nodes that are up, as many as there are. With no node up a
block is placed on a node that nobody has registered, for good. -/
namespace Dtmpfs
open MetaService MetaState OrderedMap

/-- The nodes that are up, in key order. -/
def MetaState.upNodes (s : MetaState) : List NodeInfo := s.nodeValues.filter (fun n => n.status = .up)

/-- The placement is made of nodes that are up in `s`, distinct ones, and of as many as the
replication factor asks for or there are. -/
structure Staffed (s : MetaState) (placement : BlockPlacement) : Prop where
  distinct : placement.nodes.Nodup
  up : ∀ node ∈ placement.nodes, ∃ info, s.nodes[node]? = some info ∧ info.status = .up
  count : placement.nodes.length = min s.replicationFactor s.upNodes.length

/-- The placement a block has after the run was made by the request after `before`, and
the block has had it ever since. -/
def Made (start : MetaState) (done before : List (Host × Call)) (ino : InodeId) (idx : BlockIdx) (placement : BlockPlacement) : Prop :=
  placementOf (run before start) ino idx = none ∧ ∃ request after, done = before ++ request::after ∧
    ∀ mid rest, after = mid ++ rest → placementOf (run (before ++ request::mid) start) ino idx = some placement

/-- A store has registered under this id. -/
def Registered (calls : List (Host × Call)) (node : NodeId) : Prop :=
  ∃ host instant r, (host,Call.heartbeatNode instant r) ∈ calls ∧ r.nodeId = node

/-- Every placement there is was valid when it was made. -/
def PlacementsValid (start : MetaState) (done : List (Host × Call)) : Prop :=
  ∀ ino idx placement, placementOf (run done start) ino idx = some placement →
    ∃ before, Made start done before ino idx placement ∧ Staffed (run before start) placement ∧
      ∀ node ∈ placement.nodes, Registered before node

/-- If the request places a block that has no placement yet, then some node is up. -/
def PlacesStaffed (call : Call) (s : MetaState) : Prop :=
  match call with
  | .allocateBlocks ino idxs =>
    ∀ inode : Inode, s.inodes[ino]? = some inode → (∃ idx ∈ idxs, inode.blocks[idx]? = none) →
      ∃ (node : NodeId) (info : NodeInfo), s.nodes[node]? = some info ∧ info.status = .up
  | _ => True

section Membership

variable {host : Host} {call : Call} {s : MetaState}

structure SameNodes (s t : MetaState) : Prop where
  nodes : t.nodes = s.nodes
  factor : t.replicationFactor = s.replicationFactor

theorem editNlink_nodes (s : MetaState) (change : Nat → Nat) (i : InodeId) : SameNodes s (s.editNlink change i) :=
  ⟨(tables_editNlink s change i).nodes,(tables_editNlink s change i).factor⟩

theorem rename_nodes (r : RenameReq) (s : MetaState) : SameNodes s (rename r s).state := by
  rcases rename_cases r s with ⟨_,failed⟩ | ⟨_,_,_,_,_,lost⟩ | ⟨src,replaced,cleared,srcDir,dstDir,_,removed,_,_,_,state⟩
  · rw [failed]
    exact ⟨rfl,rfl⟩
  · rw [lost]
    exact ⟨rfl,rfl⟩
  · obtain ⟨inodes,dirs,shape⟩ := (removeDestination_cleared removed).rest
    obtain ⟨inodes',adjusted⟩ := adjustLinks_rest r src ((cleared.putDir r.srcParentIno
      (srcDir.erase r.srcName)).putDir r.dstParentIno (dstDir.insert r.dstName src))
    rw [state,adjusted,shape]
    exact ⟨rfl,rfl⟩

/-- Only heartbeats and ticks of the watcher touch the nodes. -/
theorem serve_nodes (host : Host) (call : Call) (s : MetaState) : (∃ instant r, call = .heartbeatNode instant r) ∨
    (∃ now deadAfter, call = .watcherTick now deadAfter) ∨ SameNodes s (serve host call s) := by
  cases call with
  | heartbeatNode instant r => exact .inl ⟨instant,r,rfl⟩
  | watcherTick now deadAfter => exact .inr (.inl ⟨now,deadAfter,rfl⟩)
  | lookup parent name => exact .inr (.inr ⟨rfl,rfl⟩)
  | getAttr i => exact .inr (.inr ⟨rfl,rfl⟩)
  | readDir r => exact .inr (.inr ⟨rfl,rfl⟩)
  | listNodes => exact .inr (.inr ⟨rfl,rfl⟩)
  | openInsert snapshot => exact .inr (.inr ⟨rfl,rfl⟩)
  | «open» r =>
    simp only [serve]
    split <;> exact .inr (.inr ⟨rfl,rfl⟩)
  | setAttr r =>
    have tables := setAttr_tables host r s
    exact .inr (.inr ⟨tables.nodes,tables.factor⟩)
  | rename r => exact .inr (.inr (rename_nodes r s))
  | create r =>
    rcases create_cases host r s with ⟨_,_,failed⟩ | ⟨_,_,_,made⟩
    · simp only [serve,failed]
      exact .inr (.inr ⟨rfl,rfl⟩)
    · simp only [serve,made]
      exact .inr (.inr ⟨rfl,rfl⟩)
  | mkdir r =>
    rcases mkdir_cases host r s with ⟨_,_,failed⟩ | ⟨_,_,_,_,_,made⟩
    · simp only [serve,failed]
      exact .inr (.inr ⟨rfl,rfl⟩)
    · simp only [serve,made,madeDir]
      exact .inr (.inr ⟨(editNlink_nodes _ _ _).nodes,(editNlink_nodes _ _ _).factor⟩)
  | unlink parent name =>
    rcases unlink_cases parent name s with ⟨_,failed⟩ | ⟨_,_,_,_,_,_,_,gone⟩
    · simp only [serve,failed]
      exact .inr (.inr ⟨rfl,rfl⟩)
    · simp only [serve,gone]
      exact .inr (.inr ⟨rfl,rfl⟩)
  | rmdir parent name =>
    rcases rmdir_cases parent name s with ⟨_,failed⟩ | ⟨_,_,_,_,_,_,_,_,gone⟩
    · simp only [serve,failed]
      exact .inr (.inr ⟨rfl,rfl⟩)
    · simp only [serve,gone,removedDir]
      exact .inr (.inr ⟨(editNlink_nodes _ _ _).nodes,(editNlink_nodes _ _ _).factor⟩)
  | close r =>
    rcases close_cases host r s with ⟨_,missing⟩ | ⟨_,_,⟨_,refused⟩ | ⟨_,_,⟨_,served⟩ | ⟨_,_,_,served⟩⟩⟩
    · simp only [serve,missing]
      exact .inr (.inr ⟨rfl,rfl⟩)
    · simp only [serve,refused]
      exact .inr (.inr ⟨rfl,rfl⟩)
    · simp only [serve,served]
      exact .inr (.inr ⟨rfl,rfl⟩)
    · simp only [serve,served]
      exact .inr (.inr ⟨rfl,rfl⟩)
  | allocateBlocks ino idxs =>
    rcases allocateBlocks_cases host ino idxs s with ⟨_,missing⟩ | ⟨_,_,_,_,served,_⟩
    · simp only [serve,missing]
      exact .inr (.inr ⟨rfl,rfl⟩)
    · simp only [serve,served]
      exact .inr (.inr ⟨rfl,rfl⟩)

theorem serve_nodesKept (host : Host) (call : Call) (s : MetaState) : NodesKept s (serve host call s) := by
  rcases serve_nodes host call s with ⟨instant,r,rfl⟩ | ⟨now,deadAfter,rfl⟩ | same
  · exact heartbeatNode_nodes host instant r s
  · exact watcherTick_nodes now deadAfter s
  · exact .of_eq same.nodes same.factor

theorem serve_registered {node : NodeId} {info : NodeInfo} (found : (serve host call s).nodes[node]? = some info) :
    (∃ old, s.nodes[node]? = some old) ∨ ∃ instant r, call = .heartbeatNode instant r ∧ r.nodeId = node := by
  rcases serve_nodes host call s with ⟨instant,r,rfl⟩ | ⟨now,deadAfter,rfl⟩ | same
  · simp only [serve,heartbeatNode,get_insert] at found
    split at found
    next own => exact .inr ⟨instant,r,rfl,own⟩
    next => exact .inl ⟨info,found⟩
  · simp only [serve,watcherTick,Std.ExtTreeMap.getElem?_map,Option.map_eq_some_iff] at found
    obtain ⟨old,found,_⟩ := found
    exact .inl ⟨old,found⟩
  · rw [same.nodes] at found
    exact .inl ⟨info,found⟩

theorem run_nodesKept (calls : List (Host × Call)) (s : MetaState) : NodesKept s (run calls s) := by
  induction calls generalizing s with
  | nil => exact .of_eq rfl rfl
  | cons head rest ih =>
    obtain ⟨host,call⟩ := head
    exact (serve_nodesKept host call s).trans (ih (serve host call s))

theorem run_registered (calls : List (Host × Call)) (s : MetaState) {node : NodeId} {info : NodeInfo}
    (found : (run calls s).nodes[node]? = some info) : (∃ old, s.nodes[node]? = some old) ∨ Registered calls node := by
  induction calls generalizing s with
  | nil => exact .inl ⟨info,found⟩
  | cons head rest ih =>
    obtain ⟨host,call⟩ := head
    rcases ih (serve host call s) found with ⟨old,known⟩ | ⟨host',instant,r,member,own⟩
    · rcases serve_registered known with before | ⟨instant,r,rfl,own⟩
      · exact .inl before
      · exact .inr ⟨host,instant,r,List.mem_cons_self,own⟩
    · exact .inr ⟨host',instant,r,List.mem_cons_of_mem _ member,own⟩

theorem filed_new (now : SystemTime) (replicationFactor : Nat) : Filed (new now replicationFactor) := by
  intro id info found
  simp [new] at found

end Membership

section Placing

variable {host : Host} {call : Call} {s : MetaState} {ino : InodeId} {idx : BlockIdx} {placement : BlockPlacement}

theorem listNodes_perm (host : Host) (s : MetaState) : (listNodes host s).Perm s.upNodes :=
  (host.arrange_perm s.nodeValues).filter _

theorem liveNodes_length (host : Host) (s : MetaState) : (s.liveNodes host).length = s.upNodes.length := by
  have listed : s.liveNodes host = (listNodes host s).map (·.nodeId) := rfl
  rw [listed,List.length_map,(listNodes_perm host s).length_eq]

theorem liveNodes_nonempty (host : Host) (filed : Filed s) :
    s.liveNodes host ≠ [] ↔ ∃ (node : NodeId) (info : NodeInfo), s.nodes[node]? = some info ∧ info.status = .up := by
  constructor
  · intro some
    obtain ⟨node,live⟩ := List.exists_mem_of_ne_nil _ some
    exact ⟨node,(mem_liveNodes host filed node).mp live⟩
  · intro up empty
    obtain ⟨node,up⟩ := up
    have live := (mem_liveNodes host filed node).mpr up
    rw [empty] at live
    cases live

/-- What `allocate_blocks` picks is made of nodes that are up, unless there is none. -/
theorem place_staffed (host : Host) (filed : Filed s) (replicated : 0 < s.replicationFactor) (live : s.liveNodes host ≠ []) :
    Staffed s (s.place host ino idx) := by
  have nodes := place_nodes host ino idx live replicated
  refine ⟨?_,?_,?_⟩
  · rw [nodes]
    exact pickNodes_nodup _ _ _ _ (liveNodes_nodup host filed)
  · intro node member
    rw [nodes] at member
    exact (mem_liveNodes host filed node).mp (pickNodes_subset _ _ _ _ node member)
  · rw [nodes,pickNodes_length,liveNodes_length]

theorem insertPlacement_other (acc : Except Fault (List BlockLoc) × MetaState) {new : BlockIdx × BlockPlacement} (other : new.1 ≠ idx) :
    placementOf (insertPlacement ino acc new).2 ino idx = placementOf acc.2 ino idx := by
  unfold insertPlacement
  split
  next => rfl
  next =>
    split
    next => rfl
    next inode found =>
      simp only [placementOf,putInode,get_insert,if_true,Option.bind_some,if_neg other,found]

theorem allocateOne_other {acc : Except Fault (List BlockLoc) × MetaState} {i : BlockIdx} (other : i ≠ idx) :
    placementOf (allocateOne host ino acc i).2 ino idx = placementOf acc.2 ino idx := by
  unfold allocateOne
  split
  next => rfl
  next locs s =>
    split
    next => rfl
    next =>
      have new : (i,s.place host ino i).1 ≠ idx := other
      exact insertPlacement_other (.ok locs,s) new

/-- Blocks that are not asked for keep their placement, or their lack of one. -/
theorem allocateBlocks_other {idxs : List BlockIdx} (other : idx ∉ idxs) :
    placementOf (MetaService.allocateBlocks host ino idxs s).state ino idx = placementOf s ino idx := by
  have loop (idxs : List BlockIdx) (other : idx ∉ idxs) (acc : Except Fault (List BlockLoc) × MetaState) :
      placementOf (idxs.foldl (allocateOne host ino) acc).2 ino idx = placementOf acc.2 ino idx := by
    induction idxs generalizing acc with
    | nil => rfl
    | cons i rest ih =>
      rw [List.mem_cons,not_or] at other
      rw [List.foldl_cons,ih other.2,allocateOne_other (Ne.symm other.1)]
  unfold MetaService.allocateBlocks
  split
  · exact loop idxs other (.ok [],s)
  · rfl

/-- Where a placement comes from: it was there, or the request has just made it. -/
theorem serve_placed (placed : placementOf (serve host call s) ino idx = some placement) :
    placementOf s ino idx = some placement ∨
      ∃ inode idxs, placementOf s ino idx = none ∧ call = .allocateBlocks ino idxs ∧ idx ∈ idxs ∧ s.inodes[ino]? = some inode ∧
        placement = s.place host ino idx := by
  obtain ⟨new,after,known⟩ := placementOf_some placed
  have change := serve_change host call s ino
  rw [after] at change
  cases before : s.inodes[ino]? with
  | none =>
    rw [before] at change
    cases change with
    | drawn _ _ _ _ _ blocks => simp [blocks] at known
  | some old =>
    rw [before] at change
    rw [placementOf_of before]
    cases change with
    | kept _ _ _ _ blocks => exact .inl (blocks ▸ known)
    | drawn _ _ _ _ _ blocks => simp [blocks] at known
    | published _ _ _ _ _ _ _ _ _ _ _ _ blocks => exact .inl (blocks ▸ known)
    | resized _ _ r n _ _ _ _ _ blocks =>
      rw [blocks,get_filter] at known
      exact .inl (Option.filter_eq_some_iff.mp known).1
    | placed _ _ idxs request _ _ extended =>
      rcases extended.chosen idx placement known with had | chosen
      · exact .inl had
      · cases vacant : old.blocks[idx]? with
        | some had =>
          rw [extended.keeps idx had vacant] at known
          exact .inl known
        | none =>
          refine .inr ⟨old,idxs,rfl,request,?_,rfl,chosen⟩
          by_contra other
          subst request
          have same : placementOf (serve host (.allocateBlocks ino idxs) s) ino idx = placementOf s ino idx := allocateBlocks_other other
          rw [placed,placementOf_of before,vacant] at same
          cases same

theorem allocateBlocks_places (host : Host) {idxs : List BlockIdx} {inode : Inode} (found : s.inodes[ino]? = some inode) (asked : idx ∈ idxs) :
    ∃ placement, placementOf (serve host (.allocateBlocks ino idxs) s) ino idx = some placement := by
  rcases allocateBlocks_cases host ino idxs s with ⟨missing,_⟩ | ⟨_,_,locs,_,served,_,order,_⟩
  · rw [found] at missing
    cases missing
  · have answer : (MetaService.allocateBlocks host ino idxs s).reply = .ok locs := by rw [served]
    obtain ⟨named,placed⟩ := allocated_recorded answer
    rw [← named] at asked
    obtain ⟨loc,member,rfl⟩ := List.mem_map.mp asked
    exact ⟨loc.placement,placed loc member⟩

end Placing

section Histories

variable {start : MetaState} {done before : List (Host × Call)} {request : Host × Call} {ino : InodeId} {idx : BlockIdx}
  {placement : BlockPlacement}

theorem run_snoc (done : List (Host × Call)) (request : Host × Call) (start : MetaState) :
    run (done ++ [request]) start = serve request.1 request.2 (run done start) := run_append done [request] start

theorem Made.later (made : Made start done before ino idx placement)
    (kept : placementOf (run (done ++ [request]) start) ino idx = some placement) :
    Made start (done ++ [request]) before ino idx placement := by
  obtain ⟨vacant,first,after,split,since⟩ := made
  refine ⟨vacant,first,after ++ [request],?_,?_⟩
  · rw [split,List.append_assoc,List.cons_append]
  · intro mid rest halves
    rcases List.eq_nil_or_concat rest with rfl | ⟨rest,last,rfl⟩
    · rw [List.append_nil] at halves
      rw [← halves,← List.cons_append,← List.append_assoc,← split]
      exact kept
    · rw [List.concat_eq_append,← List.append_assoc] at halves
      exact since mid rest (List.append_inj' halves rfl).1

theorem Made.now (vacant : placementOf (run done start) ino idx = none)
    (placed : placementOf (run (done ++ [request]) start) ino idx = some placement) :
    Made start (done ++ [request]) done ino idx placement := by
  refine ⟨vacant,request,[],rfl,?_⟩
  intro mid rest halves
  rw [(List.append_eq_nil_iff.mp halves.symm).1]
  exact placed

/-- A block that has just been placed was placed just now. -/
theorem Made.unique (vacant : placementOf (run done start) ino idx = none)
    (made : Made start (done ++ [request]) before ino idx placement) : before = done := by
  obtain ⟨_,first,after,split,since⟩ := made
  rcases List.eq_nil_or_concat after with rfl | ⟨after,last,rfl⟩
  · exact (List.append_inj' split rfl).1.symm
  · rw [List.concat_eq_append] at split since
    have halves : done ++ [request] = (before ++ first::after) ++ [last] := by rw [split,List.append_assoc,List.cons_append]
    have held := since after [last] rfl
    rw [← (List.append_inj' halves rfl).1,vacant] at held
    cases held

theorem snoc_valid_iff (filed : Filed start) (empty : ∀ node : NodeId, start.nodes[node]? = none)
    (replicated : 0 < start.replicationFactor) (valid : PlacementsValid start done) :
    PlacementsValid start (done ++ [request]) ↔ PlacesStaffed request.2 (run done start) := by
  have kept := run_nodesKept done start
  have filed' : Filed (run done start) := kept.filed filed
  have replicated' : 0 < (run done start).replicationFactor := kept.factor ▸ replicated
  constructor
  · intro later
    unfold PlacesStaffed
    split
    next ino idxs call =>
      intro inode found unplaced
      obtain ⟨idx,asked,vacant⟩ := unplaced
      obtain ⟨placement,placed⟩ := allocateBlocks_places request.1 found asked
      rw [← call,← run_snoc] at placed
      obtain ⟨before,made,staffed,_⟩ := later ino idx placement placed
      have now : before = done := made.unique (by rw [placementOf_of found,vacant])
      rw [now] at staffed
      exact ⟨_,staffed.up placement.primary List.mem_cons_self⟩
    next => trivial
  · intro staffed ino idx placement placed
    have served := placed
    rw [run_snoc] at served
    rcases serve_placed served with had | ⟨inode,idxs,vacant,call,asked,found,chosen⟩
    · obtain ⟨before,made,rest⟩ := valid ino idx placement had
      exact ⟨before,made.later placed,rest⟩
    · rw [call] at staffed
      rw [placementOf_of found] at vacant
      have up := staffed inode found ⟨idx,asked,vacant⟩
      have live := (liveNodes_nonempty request.1 filed').mpr up
      have good : Staffed (run done start) placement := chosen ▸ place_staffed request.1 filed' replicated' live
      refine ⟨done,.now (by rw [placementOf_of found,vacant]) placed,good,?_⟩
      intro node member
      obtain ⟨info,known,_⟩ := good.up node member
      rcases run_registered done start known with ⟨old,early⟩ | registered
      · rw [empty node] at early
        cases early
      · exact registered

end Histories

/-- Every placement that a run comes to store was valid when it was made, exactly if the
requests that place blocks find a node that is up. -/
theorem placements_valid_iff (now : SystemTime) (replicationFactor : Nat) (replicated : 0 < replicationFactor)
    (calls : List (Host × Call)) :
    (∀ done rest, calls = done ++ rest → PlacementsValid (new now replicationFactor) done) ↔
      Along PlacesStaffed calls (new now replicationFactor) := by
  have nothing : PlacementsValid (new now replicationFactor) [] := by
    intro ino idx placement placed
    obtain ⟨inode,found,known⟩ := placementOf_some placed
    simp only [run,List.foldl_nil,new,get_insert] at found
    split at found
    · cases found
      simp [rootInode] at known
    · simp at found
  have step (seen : List (Host × Call)) (request : Host × Call) (rest : List (Host × Call))
      (valid : PlacementsValid (new now replicationFactor) seen) :
      Along PlacesStaffed (request::rest) (run seen (new now replicationFactor)) ↔
        PlacementsValid (new now replicationFactor) (seen ++ [request]) ∧
          Along PlacesStaffed rest (run (seen ++ [request]) (new now replicationFactor)) := by
    rw [snoc_valid_iff (filed_new now replicationFactor) (fun node => by simp [new]) replicated valid,run_snoc]
    rfl
  exact Runs.histories_iff (fun _ => trivial) step calls [] nothing

/-- Two nodes are up when a block of a new file is placed. -/
def placedOnTwo : List (Host × Call) :=
  [(Host.still,.heartbeatNode 0 ⟨"n","a",0,0,0⟩),(Host.still,.heartbeatNode 0 ⟨"m","b",0,0,0⟩),
    (Host.still,.create ⟨ROOT,"f",0,0,0⟩),(Host.still,.allocateBlocks 2 [0])]

theorem placements_valid_iff_two : placementOf (run placedOnTwo (new 0 2)) 2 0 = some ⟨"m",["n"]⟩ ∧
    ∃ before, Made (new 0 2) placedOnTwo before 2 0 ⟨"m",["n"]⟩ ∧ Staffed (run before (new 0 2)) ⟨"m",["n"]⟩ := by
  have staffed : Along PlacesStaffed placedOnTwo (new 0 2) := by
    refine ⟨trivial,trivial,trivial,?_,trivial⟩
    intro _ _ _
    exact ⟨"n",⟨"n","a",0,0,.up⟩,rfl,rfl⟩
  have placed : placementOf (run placedOnTwo (new 0 2)) 2 0 = some ⟨"m",["n"]⟩ := by decide
  have valid := (placements_valid_iff 0 2 (by decide) placedOnTwo).mpr staffed placedOnTwo [] rfl
  obtain ⟨before,made,good,_⟩ := valid 2 0 ⟨"m",["n"]⟩ placed
  exact ⟨placed,before,made,good⟩

/-- A block is placed before the first node comes up. -/
def placedOnNobody : List (Host × Call) :=
  [(Host.still,.create ⟨ROOT,"f",0,0,0⟩),(Host.still,.allocateBlocks 2 [0]),(Host.still,.heartbeatNode 0 ⟨"n","a",0,0,0⟩)]

/-- The placement names a node that does not exist, and later requests repeat it. -/
theorem nobody_placed : let s := run placedOnNobody (new 0 1)
    (MetaService.allocateBlocks Host.still 2 [0] s).reply.toOption = some [⟨0,"?",[]⟩] ∧ s.nodes.contains "?" = false ∧
      s.liveNodes Host.still = ["n"] ∧ ¬ PlacementsValid (new 0 1) placedOnNobody := by
  intro s
  refine ⟨by decide,by decide,by decide,?_⟩
  intro valid
  have placed : placementOf (run placedOnNobody (new 0 1)) 2 0 = some ⟨"?",[]⟩ := by decide
  obtain ⟨before,⟨_,request,after,split,_⟩,_,registered⟩ := valid 2 0 _ placed
  obtain ⟨host,instant,r,member,own⟩ := registered "?" List.mem_cons_self
  have beaten : (host,Call.heartbeatNode instant r) ∈ placedOnNobody := split ▸ List.mem_append_left _ member
  simp only [placedOnNobody,List.mem_cons,List.not_mem_nil,or_false,Prod.mk.injEq,reduceCtorEq,and_false,false_or,
    Call.heartbeatNode.injEq] at beaten
  rw [beaten.2.2] at own
  exact absurd own (by decide)

end Dtmpfs
