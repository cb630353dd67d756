import Dtmpfs.Allocation
import Dtmpfs.NamespaceView
import Dtmpfs.Semantics.Runs

/-! Lifetimes of open handles at the metadata server. `open` takes its read lock and its
write lock one after the other, and requests of any client are served in between. -/
namespace Dtmpfs
open MetaService MetaState OrderedMap

/-- The server and the opens between their two locks. -/
structure Opening where
  metadata : MetaState
  waiting : List OpenSnapshot

inductive Move where
  | request (call : Call)
  | openRead (r : OpenReq)
  | openInsert (k : Nat)

/-- Requests served under one lock. -/
def Call.single : Call → Bool
  | .open _ | .openInsert _ => false
  | _ => true

namespace Opening

def new (now : SystemTime) (replicationFactor : Nat) : Opening := ⟨.new now replicationFactor,[]⟩

def move (host : Host) (m : Move) (σ : Opening) : Opening :=
  match m with
  | .request call => if Call.single call then {σ with metadata := serve host call σ.metadata} else σ
  | .openRead r =>
    match MetaService.openRead r σ.metadata with
    | .error _ => σ
    | .ok snapshot => {σ with waiting := σ.waiting ++ [snapshot]}
  | .openInsert k =>
    match σ.waiting[k]? with
    | none => σ
    | some snapshot => ⟨(MetaService.openInsert snapshot σ.metadata).2,σ.waiting.eraseIdx k⟩

def run (moves : List (Host × Move)) (σ : Opening) : Opening := moves.foldl (fun σ m => move m.1 m.2 σ) σ

end Opening

/-- Every entry of `open_handles` refers to a live file. -/
def HandlesLive (s : MetaState) : Prop :=
  ∀ (fh : Fh) (handle : OpenHandleSt), s.openHandles[fh]? = some handle → s.kindOf handle.ino = some .file

/-- The request removes inode `i`, or makes a directory of its number. -/
def Takes (call : Call) (s : MetaState) (i : InodeId) : Prop :=
  match call with
  | .unlink parent name => s.resolve parent name = some i
  | .rmdir parent name => s.resolve parent name = some i ∧ ∃ table, s.dirs[i]? = some table ∧ table.isEmpty = true
  | .rename r => (∃ src, s.resolve r.srcParentIno r.srcName = some src) ∧ s.resolve r.dstParentIno r.dstName = some i
  | .mkdir r => draws (.mkdir r) s = true ∧ s.nextIno = i
  | _ => False

/-- No request takes an inode that has a handle, and no open comes to its write lock after
its inode has been taken. -/
def LeavesHandled (m : Move) (σ : Opening) : Prop :=
  match m with
  | .request call => ∀ (fh : Fh) (handle : OpenHandleSt), σ.metadata.openHandles[fh]? = some handle → ¬ Takes call σ.metadata handle.ino
  | .openRead _ => True
  | .openInsert k => ∀ snapshot, σ.waiting[k]? = some snapshot → σ.metadata.kindOf snapshot.ino = some .file

section Kinds

variable {s : MetaState} {i : InodeId}

theorem removeDestination_file_iff (isFile : s.kindOf i = some .file) (r : RenameReq) :
    (removeDestination r s).2.kindOf i = some .file ↔ s.resolve r.dstParentIno r.dstName ≠ some i := by
  obtain ⟨inode,alive,file⟩ := Option.map_eq_some_iff.mp isFile
  by_cases target : s.resolve r.dstParentIno r.dstName = some i
  · obtain ⟨dir,found,_⟩ := dir_of_resolve target
    have gone : (removeDestination r s).2.kindOf i = none := by
      unfold removeDestination
      simp only [target,alive,file,found,reduceCtorEq,false_and,if_false,kindOf_putDir,kindOf_eraseInode,if_true]
    rw [gone]
    exact ⟨nofun,fun other => absurd target other⟩
  · refine ⟨fun _ => target,fun _ => ?_⟩
    rcases removeDestination_cases r s with ⟨_,failed⟩ | ⟨_,same⟩ | ⟨dir,dst,_,found,entry,_,⟨_,result⟩ | ⟨_,_,_,result⟩⟩
    · rw [failed]
      exact isFile
    · rw [same]
      exact isFile
    · have other : ¬ dst = i := fun same => target ((resolve_of_dir found _).trans (same ▸ entry))
      rw [result]
      exact ((kindOf_eraseInode s dst i).trans (if_neg other)).trans isFile
    · have other : ¬ dst = i := fun same => target ((resolve_of_dir found _).trans (same ▸ entry))
      rw [result]
      simp only [replacedDir,kindOf_putDir,kindOf_eraseInode,kindOf_editNlink,if_neg other]
      exact isFile

theorem rename_kind {r : RenameReq} {src : InodeId} (named : s.resolve r.srcParentIno r.srcName = some src) (i : InodeId) :
    (rename r s).state.kindOf i = (removeDestination r s).2.kindOf i := by
  unfold rename
  rw [named]
  dsimp only
  split
  next removed => rw [removed]
  next removed =>
    rw [removed]
    split
    next => rfl
    next =>
      dsimp only
      split
      next => rfl
      next => exact adjustLinks_kind r src _ i

theorem rename_file_iff (isFile : s.kindOf i = some .file) (r : RenameReq) :
    (rename r s).state.kindOf i = some .file ↔ ¬ Takes (.rename r) s i := by
  cases named : s.resolve r.srcParentIno r.srcName with
  | none =>
    have same : (rename r s).state = s := by
      unfold rename
      rw [named]
    rw [same]
    refine ⟨fun _ taken => ?_,fun _ => isFile⟩
    obtain ⟨⟨src,found⟩,_⟩ := taken
    rw [named] at found
    cases found
  | some src =>
    rw [rename_kind named,removeDestination_file_iff isFile]
    constructor
    · intro other taken
      exact other taken.2
    · intro untaken target
      exact untaken ⟨⟨src,named⟩,target⟩

theorem unlink_file_iff (isFile : s.kindOf i = some .file) (parent : InodeId) (name : String) :
    (unlink parent name s).state.kindOf i = some .file ↔ s.resolve parent name ≠ some i := by
  obtain ⟨inode,alive,file⟩ := Option.map_eq_some_iff.mp isFile
  by_cases target : s.resolve parent name = some i
  · obtain ⟨dir,found,_⟩ := dir_of_resolve target
    have gone : (unlink parent name s).state.kindOf i = none := by
      unfold unlink
      simp only [target,alive,file,found,reduceCtorEq,if_false,kindOf_eraseInode,if_true]
    rw [gone]
    exact ⟨nofun,fun other => absurd target other⟩
  · refine ⟨fun _ => target,fun _ => ?_⟩
    rcases unlink_cases parent name s with ⟨_,failed⟩ | ⟨dir,child,_,found,slot,_,_,gone⟩
    · rw [failed]
      exact isFile
    · have other : ¬ child = i := fun same => target ((resolve_of_dir found _).trans (same ▸ slot))
      rw [gone]
      exact ((kindOf_eraseInode s child i).trans (if_neg other)).trans isFile

theorem rmdir_file_iff (isFile : s.kindOf i = some .file) (parent : InodeId) (name : String) :
    (rmdir parent name s).state.kindOf i = some .file ↔ ¬ Takes (.rmdir parent name) s i := by
  rcases rmdir_cases parent name s with ⟨status,failed⟩ | ⟨dir,child,childDir,found,slot,owns,empty,other,gone⟩
  · refine ⟨fun _ taken => ?_,fun _ => by rw [failed]; exact isFile⟩
    obtain ⟨target,table,owns,empty⟩ := taken
    have accepted : (rmdir parent name s).state.kindOf i = none := by
      obtain ⟨dir,found,slot⟩ := dir_of_resolve target
      have apart : i ≠ parent := by
        intro same
        subst same
        rw [Option.some.inj (owns.symm.trans found)] at empty
        rw [(OrderedMap.isEmpty_iff dir).mp empty name] at slot
        cases slot
      unfold rmdir
      simp only [target,owns,empty,if_true,get_erase,if_neg apart,found,kindOf_editNlink,kindOf_putDir]
      simp only [kindOf,get_erase,if_true,Option.map_none]
    rw [failed,isFile] at accepted
    cases accepted
  · have kinds : (rmdir parent name s).state.kindOf i = if child = i then none else s.kindOf i := by
      rw [gone]
      simp only [removedDir,kindOf_editNlink]
      exact kindOf_eraseInode s child i
    have target : s.resolve parent name = some child := (resolve_of_dir found name).trans slot
    rw [kinds]
    split
    next same =>
      subst same
      refine iff_of_false (Option.some_ne_none _).symm ?_
      intro untaken
      exact untaken ⟨target,childDir,owns,empty⟩
    next apart =>
      refine ⟨fun _ taken => ?_,fun _ => isFile⟩
      exact apart (Option.some.inj (target.symm.trans taken.1))

theorem mkdir_file_iff (isFile : s.kindOf i = some .file) (host : Host) (r : CreateReq) :
    (mkdir host r s).state.kindOf i = some .file ↔ ¬ Takes (.mkdir r) s i := by
  rcases mkdir_cases host r s with ⟨taken,status,failed⟩ | ⟨dir,placed,found,vacant,_,made⟩
  · rw [failed]
    refine ⟨fun _ taking => ?_,fun _ => isFile⟩
    have undrawn : draws (.mkdir r) s = false := draws_of_taken taken
    exact Bool.false_ne_true (undrawn.symm.trans taking.1)
  · have kinds : (mkdir host r s).state.kindOf i = if s.nextIno = i then some .dir else s.kindOf i := by
      rw [made]
      simp only [madeDir,kindOf_editNlink]
      simp only [kindOf,get_insert]
      split <;> rfl
    rw [kinds]
    split
    next same =>
      constructor
      · intro file
        cases file
      · intro untaken
        exact absurd ⟨draws_of_vacant found vacant,same⟩ untaken
    next other => exact ⟨fun _ taking => other taking.2,fun _ => isFile⟩

/-- A file stays a file exactly when the request does not take it. -/
theorem serve_file_iff (isFile : s.kindOf i = some .file) (host : Host) (call : Call) :
    (serve host call s).kindOf i = some .file ↔ ¬ Takes call s i := by
  have stays {t : MetaState} {call : Call} (kind : t.kindOf i = s.kindOf i) (never : ¬ Takes call s i) :
      t.kindOf i = some .file ↔ ¬ Takes call s i := ⟨fun _ => never,fun _ => kind.trans isFile⟩
  cases call with
  | lookup parent name => exact stays rfl id
  | getAttr j => exact stays rfl id
  | readDir r => exact stays rfl id
  | listNodes => exact stays rfl id
  | heartbeatNode instant r => exact stays rfl id
  | watcherTick now deadAfter => exact stays rfl id
  | openInsert snapshot => exact stays rfl id
  | «open» r =>
    simp only [serve]
    split
    next => exact stays rfl id
    next => exact stays rfl id
  | setAttr r => exact stays ((setAttr_names host r s).kinds i) id
  | close r => exact stays ((close_names host r s).kinds i) id
  | allocateBlocks j idxs => exact stays ((allocateBlocks_names host j idxs s).kinds i) id
  | create r =>
    refine ⟨fun _ => id,fun _ => ?_⟩
    rcases create_cases host r s with ⟨_,_,failed⟩ | ⟨dir,_,_,made⟩
    · simp only [serve,failed]
      exact isFile
    · simp only [serve,made,kindOf,created,get_insert]
      split
      next => rfl
      next => exact isFile
  | mkdir r => exact mkdir_file_iff isFile host r
  | unlink parent name => exact unlink_file_iff isFile parent name
  | rmdir parent name => exact rmdir_file_iff isFile parent name
  | rename r => exact rename_file_iff isFile r

end Kinds

section Handles

variable {s : MetaState}

/-- Any number the request does not mention is spared by it. -/
theorem spares_some (call : Call) (s : MetaState) : ∃ f, Spares f call s := by
  have other (found : Option InodeId) : found ≠ some (found.getD 0 + 1) := by
    cases found with
    | none => nofun
    | some i => exact fun same => absurd (Option.some.inj same) (Nat.ne_of_lt (Nat.lt_succ_self i))
  cases call with
  | setAttr r => exact ⟨r.ino + 1,fun same => absurd same (Nat.ne_of_lt (Nat.lt_succ_self _))⟩
  | create r => exact ⟨s.nextIno + 1,Nat.ne_of_lt (Nat.lt_succ_self _)⟩
  | mkdir r => exact ⟨s.nextIno + 1,Nat.ne_of_lt (Nat.lt_succ_self _)⟩
  | unlink parent name => exact ⟨_,other (s.resolve parent name)⟩
  | rmdir parent name => exact ⟨_,other (s.resolve parent name)⟩
  | rename r => exact ⟨_,other (s.resolve r.dstParentIno r.dstName)⟩
  | _ => exact ⟨0,trivial⟩

theorem plain_handles {call : Call} (plain : call.plain = true) (host : Host) (s : MetaState) :
    (serve host call s).openHandles = s.openHandles := by
  obtain ⟨f,spared⟩ := spares_some call s
  exact (serve_spares host call s plain spared).2.1

/-- Requests under one lock enter at most the handle of a file just created. -/
theorem serve_entry (host : Host) (call : Call) (single : Call.single call = true) {fh : Fh} {handle : OpenHandleSt}
    (entry : (serve host call s).openHandles[fh]? = some handle) :
    s.openHandles[fh]? = some handle ∨ (serve host call s).kindOf handle.ino = some .file := by
  cases plain : call.plain with
  | true =>
    rw [plain_handles plain] at entry
    exact .inl entry
  | false =>
    cases call with
    | create r =>
      rcases create_cases host r s with ⟨_,_,failed⟩ | ⟨dir,_,_,made⟩
      · simp only [serve,failed] at entry
        exact .inl entry
      · simp only [serve,made] at entry ⊢
        simp only [created,get_insert] at entry
        split at entry
        next =>
          cases entry
          exact .inr (by simp only [kindOf,created,get_insert,if_true,Option.map_some]; rfl)
        next => exact .inl entry
    | close r =>
      have kept (table : Map Fh OpenHandleSt) (found : (table.erase r.fh)[fh]? = some handle) : table[fh]? = some handle := by
        rw [get_erase] at found
        split at found
        next => cases found
        next => exact found
      simp only [serve] at entry
      rcases close_cases host r s with ⟨_,result⟩ | ⟨_,_,⟨_,result⟩ | ⟨_,_,⟨_,result⟩ | ⟨_,_,_,result⟩⟩⟩
      · rw [result] at entry
        exact .inl entry
      · rw [result] at entry
        exact .inl (kept _ entry)
      · rw [result] at entry
        exact .inl (kept _ entry)
      · rw [result] at entry
        exact .inl (kept _ entry)
    | allocateBlocks i idxs =>
      simp only [serve] at entry
      rcases allocateBlocks_cases host i idxs s with ⟨_,result⟩ | ⟨_,_,_,_,result,_⟩
      · rw [result] at entry
        exact .inl entry
      · rw [result] at entry
        exact .inl entry
    | «open» r => cases single
    | openInsert snapshot => cases single
    | _ => cases plain

/-- Only plain requests take inodes. -/
theorem Takes.plain {call : Call} {i : InodeId} (taken : Takes call s i) : call.plain = true := by
  cases call with
  | mkdir r => rfl
  | unlink parent name => rfl
  | rmdir parent name => rfl
  | rename r => rfl
  | _ => exact taken.elim

theorem serve_live_iff (live : HandlesLive s) (host : Host) (call : Call) (single : Call.single call = true) :
    HandlesLive (serve host call s) ↔
      ∀ (fh : Fh) (handle : OpenHandleSt), s.openHandles[fh]? = some handle → ¬ Takes call s handle.ino := by
  constructor
  · intro after fh handle entry taken
    have kept : (serve host call s).openHandles[fh]? = some handle := by
      rw [plain_handles taken.plain]
      exact entry
    exact (serve_file_iff (live fh handle entry) host call).mp (after fh handle kept) taken
  · intro spared fh handle entry
    rcases serve_entry host call single entry with old | new
    · exact (serve_file_iff (live fh handle old) host call).mpr (spared fh handle old)
    · exact new

theorem openInsert_live_iff (live : HandlesLive s) (snapshot : OpenSnapshot) :
    HandlesLive (openInsert snapshot s).2 ↔ s.kindOf snapshot.ino = some .file := by
  constructor
  · intro after
    exact after s.nextFh ⟨s.nextFh,snapshot.ino,snapshot.flags,snapshot.generation⟩ (by simp only [openInsert,allocFh,get_insert,if_true])
  · intro isFile fh handle entry
    simp only [openInsert,allocFh,get_insert] at entry
    split at entry
    next =>
      cases entry
      exact isFile
    next => exact live fh handle entry

/-- A dirty close of a handle in the table does not miss its inode. -/
theorem close_finds (live : HandlesLive s) {fh : Fh} {handle : OpenHandleSt} (entry : s.openHandles[fh]? = some handle) (host : Host)
    {r : CloseReq} (mine : r.fh = fh) : (close host r s).reply ≠ inodeNotFound := by
  subst mine
  obtain ⟨inode,alive,_⟩ := Option.map_eq_some_iff.mp (live r.fh handle entry)
  unfold close
  rw [entry]
  dsimp only
  rw [alive]
  dsimp only
  split
  next => nofun
  next =>
    split
    next => simp [refuse,inodeNotFound]
    next =>
      split
      next => simp [refuse,inodeNotFound]
      next => nofun

end Handles

namespace Opening

variable {σ : Opening}

theorem move_live_iff (live : HandlesLive σ.metadata) (host : Host) (m : Move) :
    HandlesLive (move host m σ).metadata ↔ LeavesHandled m σ := by
  cases m with
  | request call =>
    simp only [move]
    split
    next single => exact serve_live_iff live host call single
    next double =>
      refine ⟨fun _ fh handle _ => ?_,fun _ => live⟩
      cases call with
      | «open» r => exact id
      | openInsert snapshot => exact id
      | _ => exact absurd rfl double
  | openRead r =>
    simp only [move]
    split
    next => exact ⟨fun _ => trivial,fun _ => live⟩
    next => exact ⟨fun _ => trivial,fun _ => live⟩
  | openInsert k =>
    simp only [move,LeavesHandled]
    split
    next none =>
      refine ⟨fun _ snapshot found => ?_,fun _ => live⟩
      rw [none] at found
      cases found
    next snapshot found =>
      rw [openInsert_live_iff live]
      constructor
      · intro isFile other same
        rw [found] at same
        cases same
        exact isFile
      · intro isFile
        exact isFile snapshot found

theorem run_live_iff (moves : List (Host × Move)) (live : HandlesLive σ.metadata) :
    (∀ before after, moves = before ++ after → HandlesLive (run before σ).metadata) ↔
      ∀ before host m after, moves = before ++ (host,m)::after → LeavesHandled m (run before σ) := by
  have rule := @Runs.folds_iff _ _ (fun σ => HandlesLive σ.metadata) (fun σ act => move act.1 act.2 σ)
    (fun moves σ => ∀ before host m after, moves = before ++ (host,m)::after → LeavesHandled m (run before σ))
  refine rule ?_ ?_ moves live
  · intro σ before host m after split
    cases (List.append_eq_nil_iff.mp split.symm).2
  · intro act rest σ live
    obtain ⟨host,m⟩ := act
    rw [move_live_iff live host m]
    constructor
    · intro spared
      refine ⟨spared [] host m rest rfl,?_⟩
      intro before host' m' after split
      exact spared ((host,m)::before) host' m' after (by rw [split]; rfl)
    · intro both before host' m' after split
      cases before with
      | nil =>
        cases split
        exact both.1
      | cons first before =>
        cases split
        exact both.2 before host' m' after rfl

end Opening

/-- Handles refer to live files, and no dirty close of one misses its inode. -/
def HandlesKept (s : MetaState) : Prop :=
  HandlesLive s ∧ ∀ (host : Host) (r : CloseReq) (handle : OpenHandleSt), s.openHandles[r.fh]? = some handle →
    r.writtenBlockIdxs ≠ [] → (close host r s).reply ≠ inodeNotFound

/-- Handles refer to live files in all states of a run exactly when no request of it takes
an inode with a handle, and none takes the inode of an open between its locks. -/
theorem handles_kept_iff (now : SystemTime) (replicationFactor : Nat) (moves : List (Host × Move)) :
    (∀ before after, moves = before ++ after → HandlesKept (Opening.run before (.new now replicationFactor)).metadata) ↔
      ∀ before host m after, moves = before ++ (host,m)::after → LeavesHandled m (Opening.run before (.new now replicationFactor)) := by
  have none : HandlesLive (Opening.new now replicationFactor).metadata := by
    intro fh handle entry
    simp [Opening.new,MetaState.new] at entry
  rw [← Opening.run_live_iff moves none]
  constructor
  · intro kept before after split
    exact (kept before after split).1
  · intro live before after split
    refine ⟨live before after split,?_⟩
    intro host r handle entry _
    exact close_finds (live before after split) entry host rfl

/-- A file is created, which opens it, and unlinked. -/
theorem unlink_strands_handle :
    ¬ HandlesKept (Opening.run [(Host.still,.request (.create ⟨ROOT,"f",0,0,0⟩)),(Host.still,.request (.unlink ROOT "f"))]
      (.new 0 1)).metadata := by
  intro kept
  have dead := kept.1 1 ⟨1,2,0,0⟩ rfl
  revert dead
  decide

/-- A `close` that is refused leaves the whole state as it was. -/
def RefusedUnchanged (host : Host) (r : CloseReq) (s : MetaState) : Prop :=
  ∀ status, (close host r s).reply = .error (.status status) → (close host r s).state = s

theorem dropHandle_changes {s : MetaState} {fh : Fh} {handle : OpenHandleSt} (entry : s.openHandles[fh]? = some handle) :
    s.dropHandle fh ≠ s := by
  intro same
  have gone : (s.dropHandle fh).openHandles[fh]? = none := by
    simp only [dropHandle,get_erase,if_true]
  rw [same,entry] at gone
  cases gone

/-- A refused `close` changes nothing exactly where it cannot be refused once it has
taken the handle out of the table. -/
theorem close_refused_iff (host : Host) (r : CloseReq) (s : MetaState) : RefusedUnchanged host r s ↔
    ∀ handle, s.openHandles[r.fh]? = some handle → ∃ inode, s.inodes[handle.ino]? = some inode ∧
      (r.writtenBlockIdxs = [] ∨ inode.generation = r.expectedGeneration) := by
  unfold RefusedUnchanged close
  cases entry : s.openHandles[r.fh]? with
  | none => exact ⟨fun _ => nofun,fun _ _ _ => rfl⟩
  | some handle =>
    have changed := dropHandle_changes entry
    dsimp only
    cases alive : s.inodes[handle.ino]? with
    | none =>
      constructor
      · intro unchanged
        exact absurd (unchanged _ rfl) changed
      · intro known
        obtain ⟨inode,found,_⟩ := known handle rfl
        rw [alive] at found
        cases found
    | some inode =>
      dsimp only
      split
      next unwritten =>
        refine ⟨fun _ handle' same => ?_,fun _ status => nofun⟩
        cases same
        exact ⟨inode,alive,.inl (List.isEmpty_iff.mp unwritten)⟩
      next written =>
        split
        next mismatch =>
          constructor
          · intro unchanged
            exact absurd (unchanged _ rfl) changed
          · intro known
            obtain ⟨inode',found,nothing | matched⟩ := known handle rfl
            · exact absurd (List.isEmpty_iff.mpr nothing) written
            · cases alive.symm.trans found
              exact absurd matched mismatch
        next matched =>
          have known : ∀ handle', some handle = some handle' → ∃ inode, s.inodes[handle'.ino]? = some inode ∧
              (r.writtenBlockIdxs = [] ∨ inode.generation = r.expectedGeneration) := by
            intro handle' same
            cases same
            exact ⟨inode,alive,.inr (not_not.mp matched)⟩
          refine ⟨fun _ => known,fun _ status => ?_⟩
          split
          next => nofun
          next => nofun

/-- A file is created, which opens it at generation 0, and closed with another
generation: the handle is gone. -/
theorem refused_close_drops_handle : ∃ s, run [(Host.still,.create ⟨ROOT,"f",0,0,0⟩)] (new 0 1) = s ∧
    s.openHandles.contains 1 = true ∧
    (close Host.still ⟨1,2,7,0,0,0,[0]⟩ s).reply = refuse .failedPrecondition "generation mismatch" ∧
    (close Host.still ⟨1,2,7,0,0,0,[0]⟩ s).state.openHandles.contains 1 = false ∧
    ¬ RefusedUnchanged Host.still ⟨1,2,7,0,0,0,[0]⟩ s := by
  refine ⟨_,rfl,rfl,rfl,rfl,?_⟩
  intro unchanged
  have entry : (run [(Host.still,.create ⟨ROOT,"f",0,0,0⟩)] (new 0 1)).openHandles[(1 : Fh)]? = some ⟨1,2,0,0⟩ := rfl
  exact dropHandle_changes entry (unchanged _ rfl)

end Dtmpfs
