import Dtmpfs.MetaService

/-! What each mutating request can do, for every state whatsoever: it answers a
status and leaves the state alone, or it ends in an explicit new state. No
`unwrap` of these handlers is ever reached with `None`. -/
namespace Dtmpfs
open MetaService OrderedMap

namespace MetaState

/-- The state after a `create` under the table `dir` of its parent. -/
def created (host : Host) (r : CreateReq) (dir : Map String InodeId) (s : MetaState) : MetaState :=
  {s with
    inodes := s.inodes.insert s.nextIno (freshInode host r .file s.nextIno)
    dirs := s.dirs.insert r.parentIno (dir.insert r.name s.nextIno)
    nextIno := (s.nextIno + 1) % 2^64
    openHandles := s.openHandles.insert s.nextFh ⟨s.nextFh,s.nextIno,0,0⟩
    nextFh := (s.nextFh + 1) % 2^64}

/-- The state after a `mkdir`. `dir` is the table its parent has once the new,
empty table is in place. -/
def madeDir (host : Host) (r : CreateReq) (dir : Map String InodeId) (s : MetaState) : MetaState :=
  MetaState.editNlink (· + 1) r.parentIno {s with
    inodes := s.inodes.insert s.nextIno (freshInode host r .dir s.nextIno)
    dirs := (s.dirs.insert s.nextIno ∅).insert r.parentIno (dir.insert r.name s.nextIno)
    nextIno := (s.nextIno + 1) % 2^64}

def unlinked (parent : InodeId) (name : String) (dir : Map String InodeId) (child : InodeId)
    (s : MetaState) : MetaState :=
  {s with dirs := s.dirs.insert parent (dir.erase name), inodes := s.inodes.erase child}

def removedDir (parent : InodeId) (name : String) (dir : Map String InodeId) (child : InodeId)
    (s : MetaState) : MetaState :=
  MetaState.editNlink (· - 1) parent {s with
    dirs := (s.dirs.erase child).insert parent (dir.erase name)
    inodes := s.inodes.erase child}

/-- The state after `rename` has removed the directory at its destination. -/
def replacedDir (parent : InodeId) (name : String) (dir : Map String InodeId) (dst : InodeId)
    (s : MetaState) : MetaState :=
  let cleared := MetaState.editNlink (· - 1) parent {s with dirs := s.dirs.erase dst}
  MetaState.putDir {cleared with inodes := cleared.inodes.erase dst} parent (dir.erase name)

end MetaState

open MetaState

theorem create_cases (host : Host) (r : CreateReq) (s : MetaState) :
    ((∀ dir, s.dirs[r.parentIno]? = some dir → dir.contains r.name = true) ∧
      ∃ status, create host r s = ⟨.error (.status status),s,[]⟩) ∨
    ∃ dir, s.dirs[r.parentIno]? = some dir ∧ dir[r.name]? = none ∧
      create host r s =
        ⟨.ok ⟨buildAttr (freshInode host r .file s.nextIno),s.nextFh,[]⟩,s.created host r dir,[]⟩ := by
  unfold create
  cases found : s.dirs[r.parentIno]? with
  | none => exact .inl ⟨nofun,_,rfl⟩
  | some dir =>
    by_cases taken : dir.contains r.name = true
    · exact .inl ⟨fun _ same => Option.some.inj same ▸ taken,_,by simp only [taken,if_true]; rfl⟩
    · refine .inr ⟨dir,rfl,?_,?_⟩
      · simpa [contains_iff] using taken
      · simp [taken,allocIno,allocFh,putInode,putDir,found,created]

theorem mkdir_cases (host : Host) (r : CreateReq) (s : MetaState) :
    ((∀ dir, s.dirs[r.parentIno]? = some dir → dir.contains r.name = true) ∧
      ∃ status, mkdir host r s = ⟨.error (.status status),s,[]⟩) ∨
    ∃ dir placed, s.dirs[r.parentIno]? = some dir ∧ dir[r.name]? = none ∧
      (s.dirs.insert s.nextIno ∅)[r.parentIno]? = some placed ∧
      mkdir host r s =
        ⟨.ok (buildAttr (freshInode host r .dir s.nextIno)),s.madeDir host r placed,[]⟩ := by
  unfold mkdir
  cases found : s.dirs[r.parentIno]? with
  | none => exact .inl ⟨nofun,_,rfl⟩
  | some dir =>
    by_cases taken : dir.contains r.name = true
    · exact .inl ⟨fun _ same => Option.some.inj same ▸ taken,_,by simp only [taken,if_true]; rfl⟩
    · have present : ∃ placed, (s.dirs.insert s.nextIno ∅)[r.parentIno]? = some placed := by
        rw [get_insert]
        split
        · exact ⟨_,rfl⟩
        · exact ⟨dir,found⟩
      obtain ⟨placed,kept⟩ := present
      refine .inr ⟨dir,placed,rfl,?_,kept,?_⟩
      · simpa [contains_iff] using taken
      · simp [taken,allocIno,putInode,putDir,kept,madeDir]

theorem unlink_cases (parent : InodeId) (name : String) (s : MetaState) :
    (∃ status, unlink parent name s = ⟨.error (.status status),s,[]⟩) ∨
    ∃ dir child inode, s.dirs[parent]? = some dir ∧ dir[name]? = some child ∧
      s.inodes[child]? = some inode ∧ inode.kind ≠ .dir ∧
      unlink parent name s = ⟨.ok (),s.unlinked parent name dir child,
        fireDeleteBlocks s child inode.blocks.toList⟩ := by
  unfold unlink resolve
  cases found : s.dirs[parent]? with
  | none => exact .inl ⟨_,rfl⟩
  | some dir =>
    cases named : dir[name]? with
    | none => exact .inl ⟨_,by simp only [Option.bind_some,named]; rfl⟩
    | some child =>
      cases alive : s.inodes[child]? with
      | none => exact .inl ⟨_,by simp only [Option.bind_some,named,alive]; rfl⟩
      | some inode =>
        by_cases isDir : inode.kind = .dir
        · exact .inl ⟨_,by simp only [Option.bind_some,named,alive,isDir,if_true]; rfl⟩
        · refine .inr ⟨dir,child,inode,rfl,named,alive,isDir,?_⟩
          simp only [Option.bind_some,named,alive,isDir,if_false,putDir]
          rfl

theorem rmdir_cases (parent : InodeId) (name : String) (s : MetaState) :
    (∃ status, rmdir parent name s = ⟨.error (.status status),s,[]⟩) ∨
    ∃ dir child childDir, s.dirs[parent]? = some dir ∧ dir[name]? = some child ∧
      s.dirs[child]? = some childDir ∧ childDir.isEmpty = true ∧ child ≠ parent ∧
      rmdir parent name s = ⟨.ok (),s.removedDir parent name dir child,[]⟩ := by
  unfold rmdir resolve
  cases found : s.dirs[parent]? with
  | none => exact .inl ⟨_,rfl⟩
  | some dir =>
    cases named : dir[name]? with
    | none => exact .inl ⟨_,by simp only [Option.bind_some,named]; rfl⟩
    | some child =>
      cases owns : s.dirs[child]? with
      | none => exact .inl ⟨_,by simp only [Option.bind_some,named,owns]; rfl⟩
      | some childDir =>
        by_cases empty : childDir.isEmpty = true
        · have other : child ≠ parent := by
            intro same
            rw [same,found] at owns
            cases Option.some.inj owns
            simp [(isEmpty_iff dir).mp empty name] at named
          refine .inr ⟨dir,child,childDir,rfl,named,owns,empty,other,?_⟩
          simp only [Option.bind_some,named,owns,empty,if_true,get_erase,other,if_false,found,putDir]
          rfl
        · exact .inl ⟨_,by simp only [Option.bind_some,named,owns,empty]; rfl⟩

/-- The three ways `rename` deals with its destination: refused, vacant, or
removed (a file, or a directory that is empty or has no table). -/
theorem removeDestination_cases (r : RenameReq) (s : MetaState) :
    (∃ status, removeDestination r s = (.error (.status status),s)) ∨
    (s.resolve r.dstParentIno r.dstName = none ∧ removeDestination r s = (.ok none,s)) ∨
    ∃ dir dst inode, s.dirs[r.dstParentIno]? = some dir ∧ dir[r.dstName]? = some dst ∧
      s.inodes[dst]? = some inode ∧
      ((inode.kind ≠ .dir ∧ removeDestination r s =
          (.ok (if inode.kind = .file then some (dst,inode.blocks.toList) else none),
            s.unlinked r.dstParentIno r.dstName dir dst)) ∨
        (inode.kind = .dir ∧ (∀ table, s.dirs[dst]? = some table → table.isEmpty = true) ∧
          dst ≠ r.dstParentIno ∧ removeDestination r s =
            (.ok none,s.replacedDir r.dstParentIno r.dstName dir dst))) := by
  unfold removeDestination resolve
  cases found : s.dirs[r.dstParentIno]? with
  | none => exact .inr (.inl ⟨rfl,rfl⟩)
  | some dir =>
    cases named : dir[r.dstName]? with
    | none => exact .inr (.inl ⟨named,by simp only [Option.bind_some,named]⟩)
    | some dst =>
      cases alive : s.inodes[dst]? with
      | none => exact .inl ⟨_,by simp only [Option.bind_some,named,alive]; rfl⟩
      | some inode =>
        by_cases isDir : inode.kind = .dir
        · by_cases nonempty : ∃ table, s.dirs[dst]? = some table ∧ table.isEmpty = false
          · obtain ⟨table,owns,full⟩ := nonempty
            exact .inl ⟨_,by simp only [Option.bind_some,named,alive,owns,isDir,Option.elim,full,and_self,if_true]; rfl⟩
          · have empty (table : Map String InodeId) (owns : s.dirs[dst]? = some table) :
                table.isEmpty = true := by
              cases full : table.isEmpty with
              | true => rfl
              | false => exact absurd ⟨table,owns,full⟩ nonempty
            have other : dst ≠ r.dstParentIno := by
              intro same
              have vacant := (isEmpty_iff dir).mp (empty dir (same ▸ found)) r.dstName
              rw [named] at vacant
              cases vacant
            refine .inr (.inr ⟨dir,dst,inode,rfl,named,alive,.inr ⟨isDir,empty,other,?_⟩⟩)
            have vacant : s.dirs[dst]?.elim true (·.isEmpty) = true := by
              cases owns : s.dirs[dst]? with
              | none => rfl
              | some table => exact empty table owns
            have kept : (MetaState.editNlink (· - 1) r.dstParentIno
                {s with dirs := s.dirs.erase dst}).dirs[r.dstParentIno]? = some dir := by
              unfold editNlink
              split <;> simp [putInode,get_erase,other,found]
            simp only [Option.bind_some,named,alive,isDir,vacant,Bool.true_eq_false,and_false,if_false,
              if_true,kept,reduceCtorEq]
            rfl
        · refine .inr (.inr ⟨dir,dst,inode,rfl,named,alive,.inl ⟨isDir,?_⟩⟩)
          simp only [Option.bind_some,named,alive,isDir,false_and,if_false,found,putDir]
          rfl

theorem removeDestination_source (r : RenameReq) (s cleared : MetaState) (src : InodeId)
    (replaced : Option (InodeId × List (BlockIdx × BlockPlacement)))
    (named : s.resolve r.srcParentIno r.srcName = some src)
    (removed : removeDestination r s = (.ok replaced,cleared)) :
    ∃ dir, cleared.dirs[r.srcParentIno]? = some dir := by
  unfold resolve at named
  obtain ⟨srcDir,owns,named⟩ := Option.bind_eq_some_iff.mp named
  rcases removeDestination_cases r s with ⟨status,failed⟩ | ⟨_,same⟩ | ⟨dir,dst,inode,found,_,_,file | directory⟩
  · rw [failed] at removed
    cases removed
  · rw [same] at removed
    cases removed
    exact ⟨srcDir,owns⟩
  · rw [file.2] at removed
    cases removed
    simp only [unlinked,get_insert]
    split
    · exact ⟨_,rfl⟩
    · exact ⟨srcDir,owns⟩
  · obtain ⟨_,empty,other,result⟩ := directory
    rw [result] at removed
    cases removed
    -- The source slot keeps its own directory from being the empty one removed.
    have kept : dst ≠ r.srcParentIno := by
      intro same
      rw [(isEmpty_iff srcDir).mp (empty srcDir (same ▸ owns))] at named
      cases named
    simp only [replacedDir,putDir,get_insert]
    split
    · exact ⟨_,rfl⟩
    · unfold editNlink
      split <;> exact ⟨srcDir,by simp [putInode,get_erase,kept,owns]⟩

/-- `rename` answers a status and changes nothing, loses the source slot because
the destination's parent has no table, or moves the slot. -/
theorem rename_cases (r : RenameReq) (s : MetaState) :
    (∃ status, rename r s = ⟨.error (.status status),s,[]⟩) ∨
    (∃ dir src, s.dirs[r.srcParentIno]? = some dir ∧ dir[r.srcName]? = some src ∧
      s.dirs[r.dstParentIno]? = none ∧
      rename r s = ⟨refuse .notFound "dst parent not found",
        s.putDir r.srcParentIno (dir.erase r.srcName),[]⟩) ∨
    ∃ src replaced cleared srcDir dstDir, s.resolve r.srcParentIno r.srcName = some src ∧
      removeDestination r s = (.ok replaced,cleared) ∧
      cleared.dirs[r.srcParentIno]? = some srcDir ∧
      (cleared.putDir r.srcParentIno (srcDir.erase r.srcName)).dirs[r.dstParentIno]? = some dstDir ∧
      (rename r s).reply = .ok () ∧
      (rename r s).state = adjustLinks r src ((cleared.putDir r.srcParentIno
        (srcDir.erase r.srcName)).putDir r.dstParentIno (dstDir.insert r.dstName src)) := by
  cases named : s.resolve r.srcParentIno r.srcName with
  | none => exact .inl ⟨_,by unfold rename; rw [named]; rfl⟩
  | some src =>
    rcases outcome : removeDestination r s with ⟨result,cleared⟩
    cases result with
    | error fault =>
      rcases removeDestination_cases r s with ⟨status,failed⟩ | ⟨_,same⟩ | ⟨_,_,_,_,_,_,file | directory⟩
      · exact .inl ⟨status,by unfold rename; rw [named,failed]⟩
      · rw [same] at outcome
        cases outcome
      · rw [file.2] at outcome
        cases outcome
      · rw [directory.2.2.2] at outcome
        cases outcome
    | ok replaced =>
      obtain ⟨srcDir,owns⟩ := removeDestination_source r s cleared src replaced named outcome
      cases target : (cleared.putDir r.srcParentIno (srcDir.erase r.srcName)).dirs[r.dstParentIno]? with
      | some dstDir =>
        refine .inr (.inr ⟨src,replaced,cleared,srcDir,dstDir,rfl,rfl,owns,target,?_,?_⟩) <;>
          (unfold rename; simp only [named,outcome,owns,target])
      | none =>
        simp only [putDir,get_insert] at target
        split at target
        · cases target
        next away =>
          rcases removeDestination_cases r s with ⟨_,failed⟩ | ⟨_,same⟩ | ⟨_,_,_,found,_,_,file | directory⟩
          · rw [failed] at outcome
            cases outcome
          · rw [same] at outcome
            cases outcome
            have slot : srcDir[r.srcName]? = some src := by simpa [resolve,owns] using named
            refine .inr (.inl ⟨srcDir,src,owns,slot,target,?_⟩)
            unfold rename
            simp only [named,same,owns,putDir,get_insert,away,if_false,target]
          · rw [file.2] at outcome
            cases outcome
            simp [unlinked] at target
          · rw [directory.2.2.2] at outcome
            cases outcome
            simp [replacedDir,putDir] at target

def MetaState.dropHandle (s : MetaState) (fh : Fh) : MetaState :=
  {s with openHandles := s.openHandles.erase fh}

/-- `close` with an unknown handle, with an error that has lost the handle, with
nothing written, or publishing. -/
theorem close_cases (host : Host) (r : CloseReq) (s : MetaState) :
    (s.openHandles[r.fh]? = none ∧ close host r s = ⟨refuse .notFound "file handle not found",s,[]⟩) ∨
    ∃ handle, s.openHandles[r.fh]? = some handle ∧
      ((∃ fault, close host r s = ⟨.error fault,s.dropHandle r.fh,[]⟩) ∨
      ∃ inode, s.inodes[handle.ino]? = some inode ∧
        ((r.writtenBlockIdxs = [] ∧ close host r s = ⟨.ok (buildAttr inode),s.dropHandle r.fh,[]⟩) ∨
        (r.writtenBlockIdxs ≠ [] ∧ inode.generation = r.expectedGeneration ∧
          ∃ requested, close host r s = ⟨.ok (buildAttr (publishedInode host r requested inode)),
            (s.dropHandle r.fh).putInode handle.ino (publishedInode host r requested inode),[]⟩))) := by
  unfold close
  split
  next found => exact .inl ⟨found,rfl⟩
  next handle found =>
    refine .inr ⟨handle,found,?_⟩
    dsimp only
    split
    next => exact .inl ⟨_,rfl⟩
    next inode alive =>
      split
      next unwritten => exact .inr ⟨inode,alive,.inl ⟨List.isEmpty_iff.mp unwritten,rfl⟩⟩
      next written =>
        have some : r.writtenBlockIdxs ≠ [] := fun none => written (List.isEmpty_iff.mpr none)
        split
        next => exact .inl ⟨_,rfl⟩
        next matched =>
          split
          next => exact .inl ⟨_,rfl⟩
          next requested _ =>
            split
            next missing => cases missing
            next again =>
              cases again
              exact .inr ⟨inode,alive,.inr ⟨some,not_not.mp matched,requested,rfl⟩⟩

/-- A time that has been taken apart is put together again, unless it is before the epoch. -/
theorem epochPlus_timestamp {t : SystemTime} (early : t < 10^9 * 2^63) :
    epochPlus (max (timestamp t).1 0).toNat (timestamp t).2 = some (max t 0) := by
  have whole := Nat.div_add_mod t.toNat (10^9)
  have seconds : (max (timestamp t).1 0).toNat = t.toNat / 10^9 := by
    simp only [timestamp]
    omega
  have bound : t.toNat < 10^9 * 2^63 := by
    rw [Int.toNat_lt' (by norm_num)]
    exact_mod_cast early
  rw [seconds]
  simp only [epochPlus,timestamp,whole]
  rw [if_pos bound,Int.ofNat_eq_natCast,Int.toNat_eq_max]

/-- `set_attr` stores the requested mode as it is, also when it panics later on. -/
theorem setAttr_stores (host : Host) {r : SetAttrReq} {s : MetaState} {old : Inode} (found : s.inodes[r.ino]? = some old) :
    ∃ new, (setAttr host r s).state = s.putInode r.ino new ∧ new.kind = old.kind ∧ new.mode = r.mode.getD old.mode ∧
      new.nlink = old.nlink := by
  unfold setAttr
  rw [found]
  dsimp only
  split
  next => exact ⟨_,rfl,rfl,rfl,rfl⟩
  next =>
    split
    next => exact ⟨_,rfl,rfl,rfl,rfl⟩
    next =>
      refine ⟨_,rfl,?_,?_,?_⟩ <;>
      · unfold resize
        split <;> rfl

/-- An error of the request changed nothing and fired nothing. -/
def Undone (r : RenameReq) (s : MetaState) : Prop :=
  (∃ fault, (rename r s).reply = .error fault) → (rename r s).state.inodes = s.inodes ∧ (rename r s).state.dirs = s.dirs ∧
    (rename r s).state.openHandles = s.openHandles ∧ (rename r s).state.nodes = s.nodes ∧ (rename r s).deletes = []

/-- A failing `rename` changes nothing, unless its source exists and the destination's
parent is no directory: that is noticed after the source slot has been removed. -/
theorem rename_undone_iff (r : RenameReq) (s : MetaState) :
    Undone r s ↔ ¬ ((∃ src, s.resolve r.srcParentIno r.srcName = some src) ∧ s.dirs[r.dstParentIno]? = none) := by
  rcases rename_cases r s with ⟨status,failed⟩ | ⟨dir,src,owns,slot,missing,failed⟩ |
    ⟨src,replaced,cleared,srcDir,dstDir,named,removed,owns,target,ok,_⟩
  · constructor
    · intro _ lost
      obtain ⟨⟨src,named⟩,missing⟩ := lost
      -- with a source and no parent the answer is the other one
      have vacant : s.resolve r.dstParentIno r.dstName = none := by simp only [resolve,missing,Option.bind_none]
      obtain ⟨dir,owns,slot⟩ := Option.bind_eq_some_iff.mp named
      have apart : r.srcParentIno ≠ r.dstParentIno := by
        intro same
        rw [same,missing] at owns
        cases owns
      have changed : (rename r s).state.dirs[r.srcParentIno]? = some (dir.erase r.srcName) := by
        unfold rename removeDestination
        simp only [named,vacant,owns,putDir,get_insert,if_neg apart,missing,if_true]
      rw [failed,owns] at changed
      have erased : (dir.erase r.srcName)[r.srcName]? = none := Std.ExtTreeMap.getElem?_erase_self
      rw [← Option.some.inj changed,slot] at erased
      cases erased
    · intro _ _
      rw [failed]
      exact ⟨rfl,rfl,rfl,rfl,rfl⟩
  · constructor
    · intro undone
      obtain ⟨_,same,_⟩ := undone ⟨_,by rw [failed]; rfl⟩
      rw [failed] at same
      have erased : (s.putDir r.srcParentIno (dir.erase r.srcName)).dirs[r.srcParentIno]? = some (dir.erase r.srcName) := by
        simp only [putDir,get_insert,if_true]
      rw [same,owns] at erased
      have gone : (dir.erase r.srcName)[r.srcName]? = none := Std.ExtTreeMap.getElem?_erase_self
      rw [← Option.some.inj erased,slot] at gone
      cases gone
    · intro kept
      exact absurd ⟨⟨src,Option.bind_eq_some_iff.mpr ⟨dir,owns,slot⟩⟩,missing⟩ kept
  · constructor
    · intro _ lost
      have vacant : s.resolve r.dstParentIno r.dstName = none := by simp only [resolve,lost.2,Option.bind_none]
      rcases removeDestination_cases r s with ⟨_,failed⟩ | ⟨_,same⟩ | ⟨_,_,_,found,_⟩
      · rw [failed] at removed
        cases removed
      · rw [same] at removed
        cases removed
        have apart : r.srcParentIno ≠ r.dstParentIno := by
          intro same
          rw [same,lost.2] at owns
          cases owns
        simp only [putDir,get_insert,if_neg apart,lost.2] at target
        cases target
      · rw [lost.2] at found
        cases found
    · intro _ failed
      obtain ⟨fault,failed⟩ := failed
      rw [ok] at failed
      cases failed

/-- A file is moved into a directory that does not exist: it is gone. -/
theorem rename_loses_source : ∃ s, run [(Host.still,.create ⟨ROOT,"f",0,0,0⟩)] (MetaState.new 0 1) = s ∧
    (rename ⟨ROOT,"f",7,"g"⟩ s).reply = refuse .notFound "dst parent not found" ∧ ¬ Undone ⟨ROOT,"f",7,"g"⟩ s := by
  refine ⟨_,rfl,rfl,?_⟩
  intro undone
  obtain ⟨_,dirs,_⟩ := undone ⟨_,rfl⟩
  have lost := congrArg (fun tables : Map InodeId (Map String InodeId) => tables[ROOT]?.bind (fun dir => dir["f"]?)) dirs
  revert lost
  decide

theorem run_append (first second : List (Host × Call)) (s : MetaState) : run (first ++ second) s = run second (run first s) :=
  List.foldl_append

end Dtmpfs
