import Dtmpfs.NamespaceView
import Dtmpfs.OpenFile

/-! What the data path sees of the metadata: the record of one regular file, the
registered nodes and the table of handles, and what each request does to them. -/
namespace Dtmpfs
open MetaService MetaState OrderedMap

structure FileRecord where
  size : Nat
  generation : Generation
  blocks : Map BlockIdx BlockPlacement

namespace MetaState

def record (inode : Inode) : Option FileRecord :=
  if inode.kind = .file then some ⟨inode.size,inode.generation,inode.blocks⟩ else none

def fileAt (s : MetaState) (f : InodeId) : Option FileRecord := s.inodes[f]?.bind record

theorem fileAt_putInode (s : MetaState) (i f : InodeId) (inode : Inode) :
    (s.putInode i inode).fileAt f = if i = f then record inode else s.fileAt f := by
  simp only [fileAt,putInode,get_insert]
  split <;> rfl

theorem fileAt_congr {s t : MetaState} {f : InodeId} (same : t.inodes[f]? = s.inodes[f]?) : t.fileAt f = s.fileAt f := by
  simp only [fileAt,same]

theorem fileAt_editNlink (s : MetaState) (change : Nat → Nat) (i f : InodeId) :
    (s.editNlink change i).fileAt f = s.fileAt f := by
  unfold editNlink
  split
  next inode found =>
    rw [fileAt_putInode]
    split
    next same =>
      subst same
      simp [fileAt,found,record]
    next => rfl
  next => rfl

theorem fileAt_some {s : MetaState} {f : InodeId} {file : FileRecord} (alive : s.fileAt f = some file) :
    ∃ inode, s.inodes[f]? = some inode ∧ inode.kind = .file ∧ file = ⟨inode.size,inode.generation,inode.blocks⟩ := by
  obtain ⟨inode,found,recorded⟩ := Option.bind_eq_some_iff.mp alive
  unfold record at recorded
  split at recorded
  next kind => exact ⟨inode,found,kind,(Option.some.inj recorded).symm⟩
  next => cases recorded

/-- Handles, nodes and the replication factor are as before. -/
structure SameTables (s t : MetaState) : Prop where
  openHandles : t.openHandles = s.openHandles
  nodes : t.nodes = s.nodes
  factor : t.replicationFactor = s.replicationFactor

theorem SameTables.refl (s : MetaState) : SameTables s s := ⟨rfl,rfl,rfl⟩

theorem SameTables.trans {s t u : MetaState} (first : SameTables s t) (second : SameTables t u) : SameTables s u :=
  ⟨second.openHandles.trans first.openHandles,second.nodes.trans first.nodes,second.factor.trans first.factor⟩

theorem tables_editNlink (s : MetaState) (change : Nat → Nat) (i : InodeId) : SameTables s (s.editNlink change i) := by
  unfold editNlink
  split
  · exact ⟨rfl,rfl,rfl⟩
  · exact .refl s

end MetaState

/-- The request leaves the record of file `f` alone: it neither resizes nor removes
the file and draws another number. -/
def Spares (f : InodeId) (call : Call) (s : MetaState) : Prop :=
  match call with
  | .setAttr r => r.ino = f → r.size = none
  | .create _ | .mkdir _ => s.nextIno ≠ f
  | .unlink parent name | .rmdir parent name => s.resolve parent name ≠ some f
  | .rename r => s.resolve r.dstParentIno r.dstName ≠ some f
  | _ => True

theorem mem_fireDeleteBlocks {s : MetaState} {ino : InodeId} {blocks : List (BlockIdx × BlockPlacement)} {d : DeleteBlock} :
    d ∈ fireDeleteBlocks s ino blocks ↔ ∃ idx placement node info, (idx,placement) ∈ blocks ∧ node ∈ placement.nodes ∧
      s.nodes[node]? = some info ∧ d = ⟨node,"http://" ++ info.addr,⟨ino,idx,0⟩⟩ := by
  simp only [fireDeleteBlocks,List.mem_flatMap,List.mem_filterMap,Option.map_eq_some_iff,Prod.exists]
  constructor
  · intro sent
    obtain ⟨idx,placement,member,node,listed,info,registered,rfl⟩ := sent
    exact ⟨idx,placement,node,info,member,listed,registered,rfl⟩
  · intro due
    obtain ⟨idx,placement,node,info,member,listed,registered,rfl⟩ := due
    exact ⟨idx,placement,member,node,listed,info,registered,rfl⟩

theorem fireDeleteBlocks_ino (s : MetaState) (ino : InodeId) (blocks : List (BlockIdx × BlockPlacement))
    (d : DeleteBlock) (fired : d ∈ fireDeleteBlocks s ino blocks) : d.key.ino = ino := by
  obtain ⟨_,_,_,_,_,_,_,same⟩ := mem_fireDeleteBlocks.mp fired
  rw [same]

/-- `set_attr` on a missing inode, cut short by a time out of range, or through. -/
theorem setAttr_cases (host : Host) (r : SetAttrReq) (s : MetaState) :
    (s.inodes[r.ino]? = none ∧ setAttr host r s = ⟨inodeNotFound,s,[]⟩) ∨
    ∃ inode after : Inode, s.inodes[r.ino]? = some inode ∧ after.kind = inode.kind ∧
      after.generation = inode.generation ∧ (setAttr host r s).state = s.putInode r.ino after ∧
      (((setAttr host r s).reply = .error .panicked ∧ after.size = inode.size ∧ after.blocks = inode.blocks ∧
          (setAttr host r s).deletes = []) ∨
        ((setAttr host r s).reply = .ok (buildAttr after) ∧ after.size = r.size.getD inode.size ∧
          after.blocks = (resize r.size inode).1.blocks ∧
          (setAttr host r s).deletes = fireDeleteBlocks s r.ino (resize r.size inode).2)) := by
  unfold setAttr
  split
  next missing => exact .inl ⟨missing,rfl⟩
  next inode found =>
    right
    dsimp only
    split
    · refine ⟨inode,_,found,?_,?_,rfl,.inl ⟨rfl,?_,?_,rfl⟩⟩ <;> rfl
    · split
      · refine ⟨inode,_,found,?_,?_,rfl,.inl ⟨rfl,?_,?_,rfl⟩⟩ <;> rfl
      · cases r.size <;>
          (refine ⟨inode,_,found,?_,?_,rfl,.inr ⟨rfl,?_,?_,?_⟩⟩ <;> rfl)

theorem setAttr_tables (host : Host) (r : SetAttrReq) (s : MetaState) : SameTables s (setAttr host r s).state := by
  rcases setAttr_cases host r s with ⟨_,missing⟩ | ⟨_,after,_,_,_,state,_⟩
  · rw [missing]
    exact .refl s
  · rw [state]
    exact ⟨rfl,rfl,rfl⟩

theorem setAttr_spares {f : InodeId} (host : Host) (r : SetAttrReq) (s : MetaState) (spared : Spares f (.setAttr r) s) :
    (setAttr host r s).state.fileAt f = s.fileAt f ∧ ∀ d ∈ (setAttr host r s).deletes, d.key.ino ≠ f := by
  rcases setAttr_cases host r s with ⟨_,missing⟩ | ⟨inode,after,found,kind,generation,state,outcome⟩
  · rw [missing]
    exact ⟨rfl,nofun⟩
  · rcases Classical.em (r.ino = f) with same | other
    · have unsized := spared same
      rw [unsized] at outcome
      have kept : after.size = inode.size ∧ after.blocks = inode.blocks ∧ (setAttr host r s).deletes = [] := by
        rcases outcome with ⟨_,size,blocks,deletes⟩ | ⟨_,size,blocks,deletes⟩
        · exact ⟨size,blocks,deletes⟩
        · exact ⟨size,blocks,deletes⟩
      obtain ⟨size,blocks,deletes⟩ := kept
      rw [state,deletes,fileAt_putInode,if_pos same]
      refine ⟨?_,nofun⟩
      simp [fileAt,← same,found,record,kind,size,generation,blocks]
    · rw [state,fileAt_putInode,if_neg other]
      refine ⟨rfl,?_⟩
      intro d fired
      rcases outcome with ⟨_,_,_,deletes⟩ | ⟨_,_,_,deletes⟩
      · rw [deletes] at fired
        cases fired
      · rw [deletes] at fired
        exact fireDeleteBlocks_ino s r.ino _ d fired ▸ other

theorem unlinked_spares {s : MetaState} {f p i : InodeId} {n : String} {dir : Map String InodeId} (other : i ≠ f) :
    (s.unlinked p n dir i).fileAt f = s.fileAt f := by
  refine fileAt_congr ?_
  simp only [unlinked,get_erase,if_neg other]

theorem replacedDir_spares {s : MetaState} {f p i : InodeId} {n : String} {dir : Map String InodeId} (other : i ≠ f) :
    (s.replacedDir p n dir i).fileAt f = s.fileAt f := by
  have kept := fileAt_editNlink {s with dirs := s.dirs.erase i} (· - 1) p f
  have erased : (s.replacedDir p n dir i).fileAt f =
      (MetaState.editNlink (· - 1) p {s with dirs := s.dirs.erase i}).fileAt f := by
    refine fileAt_congr ?_
    simp only [replacedDir,putDir,get_erase,if_neg other]
  rw [erased,kept]
  rfl

theorem replacedDir_tables (s : MetaState) (p i : InodeId) (n : String) (dir : Map String InodeId) :
    SameTables s (s.replacedDir p n dir i) := by
  have edited := tables_editNlink {s with dirs := s.dirs.erase i} (· - 1) p
  exact ⟨edited.openHandles,edited.nodes,edited.factor⟩

theorem adjustLinks_spares (r : RenameReq) (src f : InodeId) (s : MetaState) :
    (adjustLinks r src s).fileAt f = s.fileAt f ∧ SameTables s (adjustLinks r src s) := by
  unfold adjustLinks
  split
  · exact ⟨by rw [fileAt_editNlink,fileAt_editNlink],(tables_editNlink _ _ _).trans (tables_editNlink _ _ _)⟩
  · exact ⟨rfl,.refl s⟩

theorem removeDestination_spares {s cleared : MetaState} {f : InodeId} {r : RenameReq}
    {replaced : Option (InodeId × List (BlockIdx × BlockPlacement))}
    (spared : s.resolve r.dstParentIno r.dstName ≠ some f) (removed : removeDestination r s = (.ok replaced,cleared)) :
    cleared.fileAt f = s.fileAt f ∧ SameTables s cleared ∧
      ∀ ino blocks, replaced = some (ino,blocks) → ino ≠ f := by
  rcases removeDestination_cases r s with ⟨_,failed⟩ | ⟨_,same⟩ | ⟨dir,dst,inode,found,slot,_,⟨_,result⟩ | ⟨_,_,_,result⟩⟩
  · rw [failed] at removed
    cases removed
  · rw [same] at removed
    cases removed
    exact ⟨rfl,.refl s,nofun⟩
  · have other : dst ≠ f := fun same => spared (by rw [resolve_of_dir found,slot,same])
    rw [result] at removed
    cases removed
    refine ⟨unlinked_spares other,⟨rfl,rfl,rfl⟩,?_⟩
    intro ino blocks named
    split at named
    · cases named
      exact other
    · cases named
  · have other : dst ≠ f := fun same => spared (by rw [resolve_of_dir found,slot,same])
    rw [result] at removed
    cases removed
    exact ⟨replacedDir_spares other,replacedDir_tables s _ _ _ _,nofun⟩

theorem rename_spares {f : InodeId} (r : RenameReq) (s : MetaState) (spared : Spares f (.rename r) s) :
    (rename r s).state.fileAt f = s.fileAt f ∧ SameTables s (rename r s).state ∧
      ∀ d ∈ (rename r s).deletes, d.key.ino ≠ f := by
  rcases rename_cases r s with ⟨_,failed⟩ | ⟨dir,src,_,_,_,lost⟩ |
    ⟨src,replaced,cleared,srcDir,dstDir,named,removed,owns,target,_,state⟩
  · rw [failed]
    exact ⟨rfl,.refl s,nofun⟩
  · rw [lost]
    exact ⟨rfl,⟨rfl,rfl,rfl⟩,nofun⟩
  · obtain ⟨kept,tables,others⟩ := removeDestination_spares spared removed
    obtain ⟨same,adjusted⟩ := adjustLinks_spares r src f ((cleared.putDir r.srcParentIno
      (srcDir.erase r.srcName)).putDir r.dstParentIno (dstDir.insert r.dstName src))
    refine ⟨?_,?_,?_⟩
    · rw [state,same]
      exact kept
    · rw [state]
      exact tables.trans ⟨adjusted.openHandles,adjusted.nodes,adjusted.factor⟩
    · intro d fired
      unfold rename at fired
      simp only [named,removed,owns,target] at fired
      split at fired
      next ino blocks => exact fireDeleteBlocks_ino _ ino blocks d fired ▸ others ino blocks rfl
      next => cases fired

/-- Every node is filed under its own id. -/
def Filed (s : MetaState) : Prop := ∀ (id : NodeId) (info : NodeInfo), s.nodes[id]? = some info → info.nodeId = id

/-- Registered nodes stay registered, under the same replication factor. -/
structure NodesKept (s t : MetaState) : Prop where
  factor : t.replicationFactor = s.replicationFactor
  registered : ∀ id : NodeId, s.nodes.contains id = true → t.nodes.contains id = true
  filed : Filed s → Filed t

theorem NodesKept.of_eq {s t : MetaState} (nodes : t.nodes = s.nodes)
    (factor : t.replicationFactor = s.replicationFactor) : NodesKept s t :=
  ⟨factor,fun id known => nodes ▸ known,fun filed id info found => filed id info (by rw [← nodes,found])⟩

theorem NodesKept.trans {s t u : MetaState} (first : NodesKept s t) (second : NodesKept t u) : NodesKept s u :=
  ⟨second.factor.trans first.factor,fun id known => second.registered id (first.registered id known),
    fun filed => second.filed (first.filed filed)⟩

theorem heartbeatNode_nodes (host : Host) (instant : Nat) (r : HeartbeatReq) (s : MetaState) :
    NodesKept s (heartbeatNode host instant r s).2 := by
  refine ⟨rfl,?_,?_⟩
  · intro id known
    simp [heartbeatNode,known]
  · intro filed id info found
    simp only [heartbeatNode,get_insert] at found
    split at found
    next same =>
      cases found
      exact same
    next => exact filed id info found

theorem watcherTick_nodes (now deadAfter : Nat) (s : MetaState) : NodesKept s (s.watcherTick now deadAfter) := by
  refine ⟨rfl,?_,?_⟩
  · intro id known
    simp only [watcherTick,Std.ExtTreeMap.contains_map]
    exact known
  · intro filed id info found
    simp only [watcherTick,Std.ExtTreeMap.getElem?_map,Option.map_eq_some_iff] at found
    obtain ⟨old,found,changed⟩ := found
    rw [← changed]
    split <;> exact filed id old found

/-- A plain request that spares the file changes neither its record nor the
handles, keeps the nodes, and fires no delete for the file. -/
theorem serve_spares {f : InodeId} (host : Host) (call : Call) (s : MetaState) (plain : call.plain = true)
    (spared : Spares f call s) :
    (serve host call s).fileAt f = s.fileAt f ∧ (serve host call s).openHandles = s.openHandles ∧
      NodesKept s (serve host call s) ∧ ∀ d ∈ fired host call s, d.key.ino ≠ f := by
  cases call with
  | lookup parent name => exact ⟨rfl,rfl,.of_eq rfl rfl,List.forall_mem_nil _⟩
  | getAttr i => exact ⟨rfl,rfl,.of_eq rfl rfl,List.forall_mem_nil _⟩
  | readDir r => exact ⟨rfl,rfl,.of_eq rfl rfl,List.forall_mem_nil _⟩
  | listNodes => exact ⟨rfl,rfl,.of_eq rfl rfl,List.forall_mem_nil _⟩
  | heartbeatNode instant r => exact ⟨rfl,rfl,heartbeatNode_nodes host instant r s,List.forall_mem_nil _⟩
  | watcherTick now deadAfter => exact ⟨rfl,rfl,watcherTick_nodes now deadAfter s,List.forall_mem_nil _⟩
  | create r => cases plain
  | «open» r => cases plain
  | openInsert snapshot => cases plain
  | close r => cases plain
  | allocateBlocks i idxs => cases plain
  | setAttr r =>
    obtain ⟨kept,others⟩ := setAttr_spares host r s spared
    have tables := setAttr_tables host r s
    exact ⟨kept,tables.openHandles,.of_eq tables.nodes tables.factor,others⟩
  | rename r =>
    obtain ⟨kept,tables,others⟩ := rename_spares r s spared
    exact ⟨kept,tables.openHandles,.of_eq tables.nodes tables.factor,others⟩
  | mkdir r =>
    rcases mkdir_cases host r s with ⟨_,_,failed⟩ | ⟨dir,placed,_,_,_,made⟩
    · have same : serve host (.mkdir r) s = s := by simp only [serve,failed]
      rw [same]
      exact ⟨rfl,rfl,.of_eq rfl rfl,List.forall_mem_nil _⟩
    · have other : s.nextIno ≠ f := spared
      simp only [serve,made,madeDir]
      obtain ⟨handles,nodes,factor⟩ := tables_editNlink {s with
        inodes := s.inodes.insert s.nextIno (freshInode host r .dir s.nextIno)
        dirs := (s.dirs.insert s.nextIno ∅).insert r.parentIno (placed.insert r.name s.nextIno)
        nextIno := (s.nextIno + 1) % 2^64} (· + 1) r.parentIno
      refine ⟨?_,handles,.of_eq nodes factor,List.forall_mem_nil _⟩
      rw [fileAt_editNlink]
      refine fileAt_congr ?_
      simp only [get_insert,if_neg other]
  | unlink parent name =>
    rcases unlink_cases parent name s with ⟨_,failed⟩ | ⟨dir,child,inode,found,slot,_,_,gone⟩
    · have same : serve host (.unlink parent name) s = s := by simp only [serve,failed]
      have silent : fired host (.unlink parent name) s = [] := by simp only [fired,failed]
      rw [same,silent]
      exact ⟨rfl,rfl,.of_eq rfl rfl,List.forall_mem_nil _⟩
    · have other : child ≠ f := fun same => spared (by rw [resolve_of_dir found,slot,same])
      simp only [serve,fired,gone]
      refine ⟨unlinked_spares other,rfl,.of_eq rfl rfl,?_⟩
      intro d sent
      exact fireDeleteBlocks_ino s child _ d sent ▸ other
  | rmdir parent name =>
    rcases rmdir_cases parent name s with ⟨_,failed⟩ | ⟨dir,child,_,found,slot,_,_,_,gone⟩
    · have same : serve host (.rmdir parent name) s = s := by simp only [serve,failed]
      rw [same]
      exact ⟨rfl,rfl,.of_eq rfl rfl,List.forall_mem_nil _⟩
    · have other : child ≠ f := fun same => spared (by rw [resolve_of_dir found,slot,same])
      simp only [serve,gone,removedDir]
      obtain ⟨handles,nodes,factor⟩ := tables_editNlink {s with
        dirs := (s.dirs.erase child).insert parent (dir.erase name)
        inodes := s.inodes.erase child} (· - 1) parent
      refine ⟨?_,handles,.of_eq nodes factor,List.forall_mem_nil _⟩
      rw [fileAt_editNlink]
      refine fileAt_congr ?_
      simp only [get_erase,if_neg other]

end Dtmpfs
