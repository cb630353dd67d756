import Dtmpfs.Allocation

/-! What one request can do to one inode, and what a run of requests then can. -/
namespace Dtmpfs
open MetaService MetaState OrderedMap

/-- Requests that take names, and inodes with them, away. -/
def Removes : Call → Prop
  | .unlink .. | .rmdir .. | .rename _ => True
  | _ => False

/-- The fate of inode `i` under a request, from what is stored under the number
before to what is stored there afterwards. -/
inductive Change (host : Host) (call : Call) (s : MetaState) (i : InodeId) : Option Inode → Option Inode → Prop
  | absent : Change host call s i none none
  | kept (old new : Inode) (kind : new.kind = old.kind) (generation : new.generation = old.generation)
      (blocks : new.blocks = old.blocks) : Change host call s i (some old) (some new)
  | drawn (before : Option Inode) (new : Inode) (drew : draws call s = true) (number : s.nextIno = i)
      (generation : new.generation = 0) (blocks : new.blocks = ∅) : Change host call s i before (some new)
  | removed (old : Inode) (cause : Removes call) : Change host call s i (some old) none
  | resized (old new : Inode) (r : SetAttrReq) (n : Nat) (request : call = .setAttr r) (mine : r.ino = i)
      (size : r.size = some n) (kind : new.kind = old.kind) (generation : new.generation = old.generation)
      (blocks : new.blocks = old.blocks.filter (fun idx _ => !drops old.size n idx)) : Change host call s i (some old) (some new)
  | published (old new : Inode) (r : CloseReq) (handle : OpenHandleSt) (request : call = .close r)
      (found : s.openHandles[r.fh]? = some handle) (mine : handle.ino = i) (written : r.writtenBlockIdxs ≠ [])
      (matched : old.generation = r.expectedGeneration) (accepted : (close host r s).reply.isOk = true)
      (kind : new.kind = old.kind) (generation : new.generation = old.generation + 1) (blocks : new.blocks = old.blocks) :
      Change host call s i (some old) (some new)
  | placed (old new : Inode) (idxs : List BlockIdx) (request : call = .allocateBlocks i idxs) (kind : new.kind = old.kind)
      (generation : new.generation = old.generation) (extended : Extends host s i old.blocks new.blocks) :
      Change host call s i (some old) (some new)

namespace Change

variable {host : Host} {call : Call} {s t : MetaState} {i : InodeId}

theorem refl (entry : Option Inode) : Change host call s i entry entry := by
  cases entry with
  | none => exact .absent
  | some inode => exact .kept inode inode rfl rfl rfl

theorem editNlink (before : Option Inode) (change : Nat → Nat) (j : InodeId)
    (changed : Change host call s i before t.inodes[i]?) : Change host call s i before (t.editNlink change j).inodes[i]? := by
  unfold MetaState.editNlink
  split
  next inode found =>
    simp only [putInode,get_insert]
    split
    next same =>
      subst same
      rw [found] at changed
      cases changed with
      | kept old _ kind generation blocks => exact .kept old _ kind generation blocks
      | drawn _ _ drew number generation blocks => exact .drawn _ _ drew number generation blocks
      | resized old _ r n request mine size kind generation blocks =>
        exact .resized old _ r n request mine size kind generation blocks
      | published old _ r handle request found mine written matched accepted kind generation blocks =>
        exact .published old _ r handle request found mine written matched accepted kind generation blocks
      | placed old _ idxs request kind generation extended => exact .placed old _ idxs request kind generation extended
    next => exact changed
  next => exact changed

theorem erased (cause : Removes call) (j : InodeId) : Change host call s i s.inodes[i]? (s.inodes.erase j)[i]? := by
  rw [get_erase]
  split
  next same =>
    cases s.inodes[i]? with
    | none => exact .absent
    | some old => exact .removed old cause
  next => exact .refl _

theorem setAttr (r : SetAttrReq) : Change host (.setAttr r) s i s.inodes[i]? (setAttr host r s).state.inodes[i]? := by
  rcases setAttr_cases host r s with ⟨_,missing⟩ | ⟨old,new,found,kind,generation,state,outcome⟩
  · rw [missing]
    exact .refl _
  · rw [state]
    simp only [putInode,get_insert]
    split
    next same =>
      subst same
      rw [found]
      rcases outcome with ⟨_,_,blocks,_⟩ | ⟨_,_,blocks,_⟩
      · exact .kept old new kind generation blocks
      · cases size : r.size with
        | none =>
          rw [size] at blocks
          exact .kept old new kind generation blocks
        | some n =>
          rw [size] at blocks
          exact .resized old new r n rfl rfl size kind generation blocks
    next => exact .refl _

theorem close (r : CloseReq) : Change host (.close r) s i s.inodes[i]? (close host r s).state.inodes[i]? := by
  rcases close_cases host r s with ⟨_,missing⟩ | ⟨handle,found,⟨_,refused⟩ | ⟨old,alive,⟨_,served⟩ | ⟨written,matched,_,served⟩⟩⟩
  · rw [missing]
    exact .refl _
  · rw [refused]
    exact .refl _
  · rw [served]
    exact .refl _
  · have accepted : (MetaService.close host r s).reply.isOk = true := by rw [served]; rfl
    rw [served]
    simp only [dropHandle,putInode,get_insert]
    split
    next same =>
      subst same
      rw [alive]
      exact .published old _ r handle rfl found rfl written matched accepted rfl rfl rfl
    next => exact .refl _

theorem allocateBlocks (j : InodeId) (idxs : List BlockIdx) :
    Change host (.allocateBlocks j idxs) s i s.inodes[i]? (allocateBlocks host j idxs s).state.inodes[i]? := by
  rcases allocateBlocks_cases host j idxs s with ⟨_,missing⟩ | ⟨old,blocks,_,found,served,extended,_⟩
  · rw [missing]
    exact .refl _
  · rw [served]
    simp only [putInode,get_insert]
    split
    next same =>
      subst same
      rw [found]
      exact .placed old _ idxs rfl rfl rfl extended
    next => exact .refl _

theorem create (r : CreateReq) : Change host (.create r) s i s.inodes[i]? (create host r s).state.inodes[i]? := by
  rcases create_cases host r s with ⟨_,_,failed⟩ | ⟨dir,found,vacant,made⟩
  · rw [failed]
    exact .refl _
  · rw [made]
    simp only [created,get_insert]
    split
    next number => exact .drawn _ _ (draws_of_vacant found vacant) number rfl rfl
    next => exact .refl _

theorem mkdir (r : CreateReq) : Change host (.mkdir r) s i s.inodes[i]? (mkdir host r s).state.inodes[i]? := by
  rcases mkdir_cases host r s with ⟨_,_,failed⟩ | ⟨dir,placed,found,vacant,_,made⟩
  · rw [failed]
    exact .refl _
  · rw [made]
    simp only [madeDir]
    refine editNlink _ _ _ ?_
    simp only [get_insert]
    split
    next number => exact .drawn _ _ (draws_of_vacant found vacant) number rfl rfl
    next => exact .refl _

theorem removeDestination {r : RenameReq} {cleared : MetaState}
    {replaced : Option (InodeId × List (BlockIdx × BlockPlacement))}
    (removed : removeDestination r s = (.ok replaced,cleared)) :
    Change host (.rename r) s i s.inodes[i]? cleared.inodes[i]? := by
  have cause : Removes (.rename r) := trivial
  rcases removeDestination_cases r s with ⟨_,failed⟩ | ⟨_,same⟩ | ⟨dir,dst,inode,_,_,_,⟨_,result⟩ | ⟨_,_,_,result⟩⟩
  · rw [failed] at removed
    cases removed
  · rw [same] at removed
    cases removed
    exact .refl _
  · rw [result] at removed
    cases removed
    exact erased cause dst
  · rw [result] at removed
    cases removed
    have edited : Change host (.rename r) s i s.inodes[i]?
        (MetaState.editNlink (· - 1) r.dstParentIno {s with dirs := s.dirs.erase dst}).inodes[i]? :=
      editNlink _ _ _ (.refl _)
    simp only [replacedDir,putDir,get_erase]
    split
    next same =>
      cases s.inodes[i]? with
      | none => exact .absent
      | some old => exact .removed old cause
    next => exact edited

theorem rename (r : RenameReq) : Change host (.rename r) s i s.inodes[i]? (rename r s).state.inodes[i]? := by
  rcases rename_cases r s with ⟨_,failed⟩ | ⟨_,_,_,_,_,lost⟩ | ⟨src,replaced,cleared,_,_,_,removed,_,_,_,state⟩
  · rw [failed]
    exact .refl _
  · rw [lost]
    exact .refl _
  · have changed : Change host (.rename r) s i s.inodes[i]? cleared.inodes[i]? := removeDestination removed
    rw [state]
    unfold adjustLinks
    split
    · exact editNlink _ _ _ (editNlink _ _ _ changed)
    · exact changed

end Change

/-- Every request does to every inode one of the things listed. -/
theorem serve_change (host : Host) (call : Call) (s : MetaState) (i : InodeId) :
    Change host call s i s.inodes[i]? (serve host call s).inodes[i]? := by
  cases call with
  | lookup parent name => exact .refl _
  | getAttr j => exact .refl _
  | readDir r => exact .refl _
  | listNodes => exact .refl _
  | heartbeatNode instant r => exact .refl _
  | watcherTick now deadAfter => exact .refl _
  | openInsert snapshot => exact .refl _
  | «open» r =>
    simp only [serve]
    split <;> exact .refl _
  | setAttr r => exact .setAttr r
  | close r => exact .close r
  | allocateBlocks j idxs => exact .allocateBlocks j idxs
  | create r => exact .create r
  | mkdir r => exact .mkdir r
  | rename r => exact .rename r
  | unlink parent name =>
    rcases unlink_cases parent name s with ⟨_,failed⟩ | ⟨dir,child,inode,_,_,_,_,gone⟩
    · simp only [serve,failed]
      exact .refl _
    · simp only [serve,gone]
      have cause : Removes (.unlink parent name) := trivial
      exact .erased cause child
  | rmdir parent name =>
    rcases rmdir_cases parent name s with ⟨_,failed⟩ | ⟨dir,child,_,_,_,_,_,_,gone⟩
    · simp only [serve,failed]
      exact .refl _
    · simp only [serve,gone,removedDir]
      have cause : Removes (.rmdir parent name) := trivial
      exact .editNlink _ _ _ (.erased cause child)

end Dtmpfs
