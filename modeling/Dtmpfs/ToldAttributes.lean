import Dtmpfs.Allocation
import Dtmpfs.NamespaceIntegrity

/-! Attributes change in the open: whatever request changes them replies with them. Only
link counts and block counts move unannounced, and what a `SetAttr` that dies has changed. -/
namespace Dtmpfs
open MetaService MetaState OrderedMap

namespace MetaService

/-- The attributes a request is answered with. -/
def tells (host : Host) (call : Call) (s : MetaState) : Option Attr :=
  match call with
  | .lookup parentIno name => (lookup parentIno name s).toOption
  | .getAttr ino => (getAttr ino s).toOption
  | .setAttr r => (setAttr host r s).reply.toOption
  | .create r => (create host r s).reply.toOption.map (·.attr)
  | .mkdir r => (mkdir host r s).reply.toOption
  | .open r => (openRead r s).toOption.map (·.attr)
  | .close r => (close host r s).reply.toOption
  | _ => none

/-- A `SetAttr` of inode `i` that panics over one of its times. -/
def Dies (i : InodeId) (host : Host) (call : Call) (s : MetaState) : Prop :=
  ∃ r, call = .setAttr r ∧ r.ino = i ∧ (setAttr host r s).reply = .error .panicked

end MetaService

/-- The inode is as before but for its link count, for what a `SetAttr` may have left behind
when it `died`, and for blocks that may have been `placed`. -/
structure Passed (died placed : Prop) (old new : Inode) : Prop where
  ino : new.ino = old.ino
  size : new.size = old.size
  generation : new.generation = old.generation
  mtime : new.mtime = old.mtime
  ctime : new.ctime = old.ctime
  owned : died ∨ new.mode = old.mode ∧ new.uid = old.uid ∧ new.gid = old.gid ∧ new.atime = old.atime
  blocks : placed ∨ new.blocks = old.blocks

namespace Passed

variable {died placed died' placed' : Prop} {old middle new : Inode}

theorem relinked (died placed : Prop) (old : Inode) (n : Nat) : Passed died placed old {old with nlink := n} :=
  ⟨rfl,rfl,rfl,rfl,rfl,.inr ⟨rfl,rfl,rfl,rfl⟩,.inr rfl⟩

theorem refl (died placed : Prop) (old : Inode) : Passed died placed old old := relinked died placed old old.nlink

theorem trans (first : Passed died placed old middle) (second : Passed died' placed' middle new) :
    Passed (died ∨ died') (placed ∨ placed') old new := by
  refine ⟨second.ino.trans first.ino,second.size.trans first.size,second.generation.trans first.generation,
    second.mtime.trans first.mtime,second.ctime.trans first.ctime,?_,?_⟩
  · rcases first.owned with dead | ⟨mode,uid,gid,atime⟩
    · exact .inl (.inl dead)
    · rcases second.owned with dead | ⟨mode',uid',gid',atime'⟩
      · exact .inl (.inr dead)
      · exact .inr ⟨mode'.trans mode,uid'.trans uid,gid'.trans gid,atime'.trans atime⟩
  · rcases first.blocks with more | same
    · exact .inl (.inl more)
    · rcases second.blocks with more | same'
      · exact .inl (.inr more)
      · exact .inr (same'.trans same)

theorem imp (dies : died → died') (places : placed → placed') (passed : Passed died placed old new) : Passed died' placed' old new :=
  {passed with
    owned := passed.owned.imp_left dies
    blocks := passed.blocks.imp_left places}

end Passed

/-- Inodes have at most gone or got another link count. -/
def Thinned (s t : MetaState) : Prop :=
  ∀ (i : InodeId) (new : Inode), t.inodes[i]? = some new → ∃ old n, s.inodes[i]? = some old ∧ new = {old with nlink := n}

namespace Thinned

variable {s t u : MetaState}

theorem congr (inodes : t.inodes = s.inodes) : Thinned s t := by
  intro i new found
  exact ⟨new,new.nlink,inodes ▸ found,rfl⟩

theorem erase {i : InodeId} (inodes : t.inodes = s.inodes.erase i) : Thinned s t := by
  intro j new found
  rw [inodes,get_erase] at found
  split at found
  · cases found
  · exact ⟨new,new.nlink,found,rfl⟩

theorem trans (first : Thinned s t) (second : Thinned t u) : Thinned s u := by
  intro i new found
  obtain ⟨middle,n,there,rfl⟩ := second i new found
  obtain ⟨old,m,here,rfl⟩ := first i middle there
  exact ⟨old,n,here,rfl⟩

theorem editNlink (s : MetaState) (change : Nat → Nat) (i : InodeId) : Thinned s (s.editNlink change i) := by
  unfold MetaState.editNlink
  split
  next inode here =>
    intro j new found
    simp only [putInode,get_insert] at found
    split at found
    next same =>
      cases found
      exact ⟨inode,_,same ▸ here,rfl⟩
    next => exact ⟨new,new.nlink,found,rfl⟩
  next => exact congr rfl

theorem removeDestination {r : RenameReq} {replaced : Option (InodeId × List (BlockIdx × BlockPlacement))}
    (removed : removeDestination r s = (.ok replaced,t)) : Thinned s t := by
  rcases removeDestination_cases r s with ⟨_,failed⟩ | ⟨_,same⟩ | ⟨_,dst,_,_,_,_,⟨_,result⟩ | ⟨_,_,_,result⟩⟩
  · rw [failed] at removed
    cases removed
  · rw [same] at removed
    cases removed
    exact congr rfl
  · rw [result] at removed
    cases removed
    exact erase rfl
  · rw [result] at removed
    cases removed
    have linked := editNlink {s with dirs := s.dirs.erase dst} (· - 1) r.dstParentIno
    exact (congr rfl).trans (linked.trans (erase rfl))

theorem adjustLinks (r : RenameReq) (src : InodeId) (s : MetaState) : Thinned s (adjustLinks r src s) := by
  unfold MetaService.adjustLinks
  split
  · exact (editNlink s (· - 1) r.srcParentIno).trans (editNlink _ (· + 1) r.dstParentIno)
  · exact congr rfl

theorem rename (r : RenameReq) (s : MetaState) : Thinned s (rename r s).state := by
  rcases rename_cases r s with ⟨_,failed⟩ | ⟨_,_,_,_,_,lost⟩ | ⟨src,_,cleared,srcDir,dstDir,_,removed,_,_,_,state⟩
  · rw [failed]
    exact congr rfl
  · rw [lost]
    exact congr rfl
  · rw [state]
    have moved : Thinned cleared ((cleared.putDir r.srcParentIno (srcDir.erase r.srcName)).putDir r.dstParentIno
        (dstDir.insert r.dstName src)) := congr rfl
    exact (removeDestination removed).trans (moved.trans (adjustLinks r src _))

theorem unlink (parent : InodeId) (name : String) (s : MetaState) : Thinned s (unlink parent name s).state := by
  rcases unlink_cases parent name s with ⟨_,failed⟩ | ⟨_,_,_,_,_,_,_,gone⟩
  · rw [failed]
    exact congr rfl
  · rw [gone]
    exact erase rfl

theorem rmdir (parent : InodeId) (name : String) (s : MetaState) : Thinned s (rmdir parent name s).state := by
  rcases rmdir_cases parent name s with ⟨_,failed⟩ | ⟨dir,child,_,_,_,_,_,_,gone⟩
  · rw [failed]
    exact congr rfl
  · rw [gone]
    have erased : Thinned s {s with dirs := (s.dirs.erase child).insert parent (dir.erase name), inodes := s.inodes.erase child} := erase rfl
    exact erased.trans (editNlink _ _ _)

end Thinned

section Served

variable {host : Host} {call : Call} {s : MetaState} {i : InodeId} {new : Inode}

/-- What is stored under `i` afterwards was there before, or the reply tells of it. -/
def Announced (host : Host) (call : Call) (s : MetaState) (i : InodeId) (new : Inode) : Prop :=
  (∃ attr, tells host call s = some attr ∧ attr.ino = i) ∨
    ∃ old, s.inodes[i]? = some old ∧ Passed (Dies i host call s) (∃ idxs, call = .allocateBlocks i idxs) old new

theorem Announced.same (found : s.inodes[i]? = some new) : Announced host call s i new := .inr ⟨new,found,.refl _ _ new⟩

theorem Announced.thinned {t : MetaState} (thinned : Thinned s t) (found : t.inodes[i]? = some new) : Announced host call s i new := by
  obtain ⟨old,n,there,rfl⟩ := thinned i new found
  exact .inr ⟨old,there,.relinked _ _ old n⟩

/-- A `set_attr` that dies has taken over the owner, and the access time at most. -/
theorem setAttr_died {r : SetAttrReq} {old : Inode} (alive : s.inodes[r.ino]? = some old) (died : (setAttr host r s).reply = .error .panicked) :
    ∃ new, (setAttr host r s).state = s.putInode r.ino new ∧ Passed True False old new := by
  unfold setAttr at died ⊢
  rw [alive] at died ⊢
  dsimp only at died ⊢
  split
  · exact ⟨_,rfl,rfl,rfl,rfl,rfl,rfl,.inl trivial,.inr rfl⟩
  · split
    · exact ⟨_,rfl,rfl,rfl,rfl,rfl,rfl,.inl trivial,.inr rfl⟩
    next requested _ _ modified =>
      rw [requested] at died
      dsimp only at died
      rw [modified] at died
      cases died

theorem setAttr_announced {r : SetAttrReq} (stamped : s.Stamped) (found : (setAttr host r s).state.inodes[i]? = some new) :
    Announced host (.setAttr r) s i new := by
  rcases setAttr_cases host r s with ⟨_,missing⟩ | ⟨old,after,alive,_,_,state,outcome⟩
  · rw [missing] at found
    exact .same found
  · by_cases mine : r.ino = i
    · subst mine
      rcases outcome with ⟨died,_⟩ | ⟨answered,_⟩
      · right
        obtain ⟨left,there,passed⟩ := setAttr_died alive died
        rw [there] at found
        simp only [putInode,get_insert,if_true] at found
        cases found
        have dies : Dies r.ino host (.setAttr r) s := ⟨r,rfl,rfl,died⟩
        exact ⟨old,alive,passed.imp (fun _ => dies) False.elim⟩
      · left
        have fresh := serve_stamped stamped host (.setAttr r) r.ino new found
        rw [state] at found
        simp only [putInode,get_insert,if_true] at found
        cases found
        exact ⟨buildAttr new,by simp only [tells,answered]; rfl,fresh⟩
    · rw [state] at found
      simp only [putInode,get_insert,mine,if_false] at found
      exact .same found

theorem create_announced {r : CreateReq} (found : (create host r s).state.inodes[i]? = some new) : Announced host (.create r) s i new := by
  rcases create_cases host r s with ⟨_,_,failed⟩ | ⟨_,_,_,made⟩
  · rw [failed] at found
    exact .same found
  · rw [made] at found
    simp only [created,get_insert] at found
    split at found
    next number =>
      exact .inl ⟨buildAttr (freshInode host r .file s.nextIno),by simp only [tells,made]; rfl,number⟩
    next => exact .same found

theorem mkdir_announced {r : CreateReq} (found : (mkdir host r s).state.inodes[i]? = some new) : Announced host (.mkdir r) s i new := by
  rcases mkdir_cases host r s with ⟨_,_,failed⟩ | ⟨_,placed,_,_,_,made⟩
  · rw [failed] at found
    exact .same found
  · rw [made] at found
    obtain ⟨old,n,there,rfl⟩ := Thinned.editNlink _ _ _ i new found
    simp only [get_insert] at there
    split at there
    next number =>
      exact .inl ⟨buildAttr (freshInode host r .dir s.nextIno),by simp only [tells,made]; rfl,number⟩
    next => exact .inr ⟨old,there,.relinked _ _ old n⟩

theorem close_announced {r : CloseReq} (stamped : s.Stamped) (found : (close host r s).state.inodes[i]? = some new) :
    Announced host (.close r) s i new := by
  have fresh := serve_stamped stamped host (.close r) i new found
  rcases close_cases host r s with ⟨_,missing⟩ | ⟨handle,_,⟨_,refused⟩ | ⟨old,alive,⟨_,served⟩ | ⟨_,_,requested,served⟩⟩⟩
  · rw [missing] at found
    exact .same found
  · rw [refused] at found
    exact .same found
  · rw [served] at found
    exact .same found
  · rw [served] at found
    simp only [dropHandle,putInode,get_insert] at found
    split at found
    next =>
      cases found
      exact .inl ⟨buildAttr (publishedInode host r requested old),by simp only [tells,served]; rfl,fresh⟩
    next => exact .same found

theorem allocateBlocks_announced {j : InodeId} {idxs : List BlockIdx} (found : (allocateBlocks host j idxs s).state.inodes[i]? = some new) :
    Announced host (.allocateBlocks j idxs) s i new := by
  rcases allocateBlocks_cases host j idxs s with ⟨_,missing⟩ | ⟨old,blocks,_,alive,served,_⟩
  · rw [missing] at found
    exact .same found
  · rw [served] at found
    simp only [putInode,get_insert] at found
    split at found
    next same =>
      cases found
      subst same
      exact .inr ⟨old,alive,rfl,rfl,rfl,rfl,rfl,.inr ⟨rfl,rfl,rfl,rfl⟩,.inl ⟨idxs,rfl⟩⟩
    next => exact .same found

theorem serve_announced (stamped : s.Stamped) (found : (serve host call s).inodes[i]? = some new) : Announced host call s i new := by
  cases call with
  | setAttr r => exact setAttr_announced stamped found
  | create r => exact create_announced found
  | mkdir r => exact mkdir_announced found
  | close r => exact close_announced stamped found
  | allocateBlocks j idxs => exact allocateBlocks_announced found
  | unlink parent name => exact .thinned (.unlink parent name s) found
  | rmdir parent name => exact .thinned (.rmdir parent name s) found
  | rename r => exact .thinned (.rename r s) found
  | «open» r =>
    simp only [serve] at found
    split at found
    · exact .same found
    · exact .same found
  | _ => exact .same found

/-- A reply tells the attributes as they are once the request is done. -/
theorem tells_current {attr : Attr} (stamped : s.Stamped) (told : tells host call s = some attr)
    (found : (serve host call s).inodes[attr.ino]? = some new) : ∃ inode, attr = buildAttr inode ∧ Passed False False inode new := by
  have known {j : InodeId} {inode stored : Inode} (same : attr = buildAttr inode) (there : (serve host call s).inodes[j]? = some stored)
      (passed : Passed False False inode stored) : ∃ inode, attr = buildAttr inode ∧ Passed False False inode new := by
    subst same
    have own : (buildAttr inode).ino = j := passed.ino.symm.trans (serve_stamped stamped host call j stored there)
    rw [own,there] at found
    cases found
    exact ⟨inode,rfl,passed⟩
  cases call with
  | lookup parent name =>
    simp only [tells,lookup] at told
    split at told
    · cases told
    · split at told
      · cases told
      next inode alive => exact known (Option.some.inj told).symm alive (.refl _ _ inode)
  | getAttr j =>
    simp only [tells,getAttr] at told
    split at told
    · cases told
    next inode alive => exact known (Option.some.inj told).symm alive (.refl _ _ inode)
  | «open» r =>
    simp only [tells,openRead] at told
    split at told
    · cases told
    next inode alive =>
      split at told
      next isFile =>
        have kept : (serve host (.open r) s).inodes[r.ino]? = some inode := by simp [serve,openRead,openInsert,allocFh,alive,isFile]
        exact known (Option.some.inj told).symm kept (.refl _ _ inode)
      · cases told
  | setAttr r =>
    rcases setAttr_cases host r s with ⟨_,missing⟩ | ⟨_,after,_,_,_,state,⟨died,_⟩ | ⟨answered,_⟩⟩
    · simp only [tells,missing] at told
      cases told
    · simp only [tells,died] at told
      cases told
    · simp only [tells,answered] at told
      have there : (serve host (.setAttr r) s).inodes[r.ino]? = some after := by simp only [serve,state,putInode,get_insert,if_true]
      exact known (Option.some.inj told).symm there (.refl _ _ after)
  | create r =>
    rcases create_cases host r s with ⟨_,_,failed⟩ | ⟨_,_,_,made⟩
    · simp only [tells,failed] at told
      cases told
    · simp only [tells,made] at told
      have there : (serve host (.create r) s).inodes[s.nextIno]? = some (freshInode host r .file s.nextIno) := by
        simp only [serve,made,created,get_insert,if_true]
      exact known (Option.some.inj told).symm there (.refl _ _ _)
  | mkdir r =>
    rcases mkdir_cases host r s with ⟨_,_,failed⟩ | ⟨_,placed,_,_,_,made⟩
    · simp only [tells,failed] at told
      cases told
    · simp only [tells,made] at told
      cases told
      simp only [serve,made] at found
      obtain ⟨old,n,there,rfl⟩ := Thinned.editNlink _ _ _ _ new found
      simp only [buildAttr,freshInode,get_insert,if_true] at there
      cases there
      exact ⟨freshInode host r .dir s.nextIno,rfl,.relinked _ _ _ n⟩
  | close r =>
    rcases close_cases host r s with ⟨_,missing⟩ | ⟨handle,_,⟨_,refused⟩ | ⟨old,alive,⟨_,served⟩ | ⟨_,_,requested,served⟩⟩⟩
    · simp only [tells,missing] at told
      cases told
    · simp only [tells,refused] at told
      cases told
    · simp only [tells,served] at told
      have there : (serve host (.close r) s).inodes[handle.ino]? = some old := by simp only [serve,served,dropHandle,alive]
      exact known (Option.some.inj told).symm there (.refl _ _ old)
    · simp only [tells,served] at told
      have there : (serve host (.close r) s).inodes[handle.ino]? = some (publishedInode host r requested old) := by
        simp only [serve,served,putInode,get_insert,if_true]
      exact known (Option.some.inj told).symm there (.refl _ _ _)
  | _ => cases told

end Served

theorem run_stamped {s : MetaState} (stamped : s.Stamped) (calls : List (Host × Call)) : (run calls s).Stamped := by
  induction calls generalizing s with
  | nil => exact stamped
  | cons head rest ih => exact ih (serve_stamped stamped head.1 head.2)

/-- No reply of the run tells of inode `i`. -/
def Untold (i : InodeId) (calls : List (Host × Call)) (s : MetaState) : Prop :=
  ∀ earlier host call later, calls = earlier ++ (host,call)::later → ∀ attr, tells host call (run earlier s) = some attr → attr.ino ≠ i

theorem untold_cons {i : InodeId} {host : Host} {call : Call} {rest : List (Host × Call)} {s : MetaState} :
    Untold i ((host,call)::rest) s ↔ (∀ attr, tells host call s = some attr → attr.ino ≠ i) ∧ Untold i rest (serve host call s) := by
  constructor
  · intro untold
    refine ⟨untold [] host call rest rfl,?_⟩
    intro earlier h c later split
    exact untold ((host,call)::earlier) h c later (by rw [split]; rfl)
  · intro both earlier h c later split
    cases earlier with
    | nil =>
      cases split
      exact both.1
    | cons first earlier =>
      cases split
      exact both.2 earlier h c later rfl

/-- Somewhere in the run a `SetAttr` of inode `i` dies. -/
def DiesWithin (i : InodeId) (calls : List (Host × Call)) (s : MetaState) : Prop :=
  ∃ earlier host call later, calls = earlier ++ (host,call)::later ∧ Dies i host call (run earlier s)

theorem run_passed {s : MetaState} {i : InodeId} {new : Inode} (calls : List (Host × Call)) (stamped : s.Stamped) (untold : Untold i calls s)
    (found : (run calls s).inodes[i]? = some new) : ∃ old, s.inodes[i]? = some old ∧
      Passed (DiesWithin i calls s) (∃ host idxs, (host,Call.allocateBlocks i idxs) ∈ calls) old new := by
  induction calls generalizing s with
  | nil => exact ⟨new,found,.refl _ _ new⟩
  | cons head rest ih =>
    obtain ⟨host,call⟩ := head
    obtain ⟨silent,later⟩ := untold_cons.mp untold
    obtain ⟨middle,there,after⟩ := ih (serve_stamped stamped host call) later found
    rcases serve_announced stamped there with ⟨attr,told,own⟩ | ⟨old,here,before⟩
    · exact absurd own (silent attr told)
    · refine ⟨old,here,(before.trans after).imp ?_ ?_⟩
      · rintro (dies | ⟨earlier,h,c,later,split,dies⟩)
        · exact ⟨[],host,call,rest,rfl,dies⟩
        · exact ⟨(host,call)::earlier,h,c,later,by rw [split]; rfl,dies⟩
      · rintro (⟨idxs,rfl⟩ | ⟨h,idxs,member⟩)
        · exact ⟨host,idxs,List.mem_cons_self⟩
        · exact ⟨h,idxs,List.mem_cons_of_mem _ member⟩

/-- Attributes change in the open: `GetAttr` answers what the last reply about the inode
told, link and block counts apart, unless a `SetAttr` of it has died since; and even then
the size, the generation and the times of the last change are those told. -/
theorem last_told (now : SystemTime) (replicationFactor : Nat) (before after : List (Host × Call)) (host : Host) (call : Call) {attr a : Attr}
    (told : tells host call (run before (new now replicationFactor)) = some attr)
    (untold : Untold attr.ino after (serve host call (run before (new now replicationFactor))))
    (answered : getAttr attr.ino (run (before ++ (host,call)::after) (new now replicationFactor)) = .ok a) :
    (a.size = attr.size ∧ a.generation = attr.generation ∧ a.mtimeS = attr.mtimeS ∧ a.mtimeNs = attr.mtimeNs ∧
      a.ctimeS = attr.ctimeS ∧ a.ctimeNs = attr.ctimeNs) ∧
    (DiesWithin attr.ino after (serve host call (run before (new now replicationFactor))) ∨
      a = {attr with nlink := a.nlink, blocks := a.blocks}) ∧
    ((∃ host idxs, (host,Call.allocateBlocks attr.ino idxs) ∈ after) ∨ a.blocks = attr.blocks) := by
  have stamped := run_stamped (sound_new now replicationFactor).stamped before
  rw [run_append] at answered
  unfold getAttr at answered
  split at answered
  · cases answered
  next final alive =>
    cases answered
    obtain ⟨middle,there,later⟩ := run_passed after (serve_stamped stamped host call) untold alive
    obtain ⟨inode,same,first⟩ := tells_current stamped told there
    obtain ⟨ino,size,generation,mtime,ctime,owned,blocks⟩ := first.trans later
    simp only [false_or] at owned blocks
    rw [same] at owned blocks ⊢
    refine ⟨⟨size,generation,?_,?_,?_,?_⟩,?_,?_⟩
    · simp only [buildAttr,mtime]
    · simp only [buildAttr,mtime]
    · simp only [buildAttr,ctime]
    · simp only [buildAttr,ctime]
    · rcases owned with dead | ⟨mode,uid,gid,atime⟩
      · exact .inl dead
      · right
        simp only [buildAttr,ino,size,generation,mtime,ctime,mode,uid,gid,atime]
    · rcases blocks with placed | kept
      · exact .inl placed
      · right
        simp only [buildAttr,kept]

/-- A file is made, written to and moved about. -/
def madeAndMoved : List (Host × Call) :=
  [(Host.still,.allocateBlocks 2 [0]),(Host.still,.mkdir ⟨ROOT,"d",0,0,0⟩),(Host.still,.rename ⟨ROOT,"f",3,"g"⟩)]

theorem last_told_moved : ∃ a, getAttr 2 (run ([] ++ (Host.still,.create ⟨ROOT,"f",0,7,7⟩)::madeAndMoved) (new 0 1)) = .ok a ∧
    a.blocks = 1 ∧ a.size = 0 ∧ a.generation = 0 := by
  have told : tells Host.still (.create ⟨ROOT,"f",0,7,7⟩) (run [] (new 0 1)) =
      some (buildAttr (freshInode Host.still ⟨ROOT,"f",0,7,7⟩ .file 2)) := by decide
  have untold : Untold 2 madeAndMoved (serve Host.still (.create ⟨ROOT,"f",0,7,7⟩) (run [] (new 0 1))) := by
    have quiet (host : Host) (call : Call) (s : MetaState) (none : (tells host call s).all (fun attr => attr.ino != 2) = true) :
        ∀ attr, tells host call s = some attr → attr.ino ≠ 2 := by
      intro attr told
      simpa [told] using none
    refine untold_cons.mpr ⟨quiet _ _ _ (by decide),untold_cons.mpr ⟨quiet _ _ _ (by decide),untold_cons.mpr ⟨quiet _ _ _ (by decide),?_⟩⟩⟩
    intro earlier h c later split
    cases (List.append_eq_nil_iff.mp split.symm).2
  obtain ⟨a,answered,blocks⟩ : ∃ a, getAttr 2 (run ([] ++ (Host.still,.create ⟨ROOT,"f",0,7,7⟩)::madeAndMoved) (new 0 1)) = .ok a ∧ a.blocks = 1 :=
    ⟨_,rfl,by decide⟩
  have kept := (last_told 0 1 [] madeAndMoved Host.still (.create ⟨ROOT,"f",0,7,7⟩) told untold answered).1
  exact ⟨a,answered,blocks,kept.1,kept.2.1⟩

end Dtmpfs
