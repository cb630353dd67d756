import Dtmpfs.DirectoryIteration
import Dtmpfs.InodeChange
import Dtmpfs.NamespaceTree
import Dtmpfs.Semantics.Runs

/-! Attributes as the client shows them, `proto_attr_to_fuse` of `dtmpfs-client::fs`.
The type of a file is reported twice: from the mode in its attributes, and from the
kind in the listing of its directory. -/
namespace Dtmpfs
open MetaService MetaState OrderedMap

structure FileAttr where
  ino : InodeId
  size : Nat
  blocks : Nat
  atime : SystemTime
  mtime : SystemTime
  ctime : SystemTime
  crtime : SystemTime
  kind : FileType
  perm : Nat
  nlink : Nat
  uid : Nat
  gid : Nat
  rdev : Nat
  blksize : Nat
  flags : Nat
deriving DecidableEq, Repr

/-- The type in the `S_IFMT` bits of a mode. -/
def modeType (mode : Nat) : FileType :=
  if mode &&& 0o170000 = 0o040000 then .directory
  else if mode &&& 0o170000 = 0o120000 then .symlink
  else .regularFile

/-- `UNIX_EPOCH + Duration::new(seconds, nanos)` of a time that `build_attr` has put on
the wire, which never overflows. -/
def wireTime (seconds : Int) (nanos : Nat) : SystemTime := 10^9 * seconds + nanos

def protoAttrToFuse (a : Attr) : FileAttr where
  ino := a.ino
  size := a.size
  blocks := a.blocks
  atime := wireTime a.atimeS a.atimeNs
  mtime := wireTime a.mtimeS a.mtimeNs
  ctime := wireTime a.ctimeS a.ctimeNs
  crtime := 0
  kind := modeType a.mode
  perm := a.mode &&& 0o7777
  nlink := a.nlink
  uid := a.uid
  gid := a.gid
  rdev := 0
  blksize := 2^20
  flags := 0

/-- The mode and the kind of an inode report the same type. -/
def Inode.Typed (inode : Inode) : Prop := modeType inode.mode = protoKindToFuse (kindU32 inode.kind)

/-- The masks of `create` and `mkdir` let no type bit of the request through. -/
theorem freshInode_typed (host : Host) (r : CreateReq) {kind : InodeKind} (made : kind = .file ∨ kind = .dir) (ino : InodeId) :
    (freshInode host r kind ino).Typed := by
  have masked (bits : Nat) : (bits ||| (r.mode &&& 0o7777)) &&& 0o170000 = bits &&& 0o170000 := by
    rw [Nat.and_or_distrib_right,Nat.and_assoc]
    simp
  rcases made with rfl | rfl
  · simp only [Inode.Typed,freshInode,modeType,masked,reduceCtorEq,if_false]
    decide
  · simp only [Inode.Typed,freshInode,modeType,masked,if_true]
    decide

/-- What a request does to the kind and the mode stored under number `i`. -/
inductive Typing (call : Call) (i : InodeId) : Option Inode → Option Inode → Prop
  | gone (before : Option Inode) : Typing call i before none
  | kept (old new : Inode) (kind : new.kind = old.kind) (mode : new.mode = old.mode) : Typing call i (some old) (some new)
  | fresh (before : Option Inode) (new : Inode) (typed : new.Typed) : Typing call i before (some new)
  | set (old new : Inode) (r : SetAttrReq) (request : call = .setAttr r) (mine : r.ino = i) (asked : r.mode = some new.mode)
    (kind : new.kind = old.kind) : Typing call i (some old) (some new)

namespace Typing

variable {host : Host} {call : Call} {s t : MetaState} {i : InodeId}

theorem refl (entry : Option Inode) : Typing call i entry entry := by
  cases entry with
  | none => exact .gone _
  | some inode => exact .kept inode inode rfl rfl

theorem putInode {old new : Inode} {j : InodeId} (found : s.inodes[j]? = some old) (kind : new.kind = old.kind)
    (mode : new.mode = old.mode) : Typing call i s.inodes[i]? (s.putInode j new).inodes[i]? := by
  simp only [MetaState.putInode,get_insert]
  split
  next same =>
    rw [← same,found]
    exact .kept old new kind mode
  next => exact .refl _

theorem editNlink {before : Option Inode} (change : Nat → Nat) (j : InodeId) (typing : Typing call i before t.inodes[i]?) :
    Typing call i before (t.editNlink change j).inodes[i]? := by
  unfold MetaState.editNlink
  split
  next inode found =>
    simp only [MetaState.putInode,get_insert]
    split
    next same =>
      subst same
      rw [found] at typing
      cases typing with
      | kept old _ kind mode => exact .kept old _ kind mode
      | fresh _ _ typed => exact .fresh _ _ typed
      | set old _ r request mine asked kind => exact .set old _ r request mine asked kind
    next => exact typing
  next => exact typing

theorem erase (before : Option Inode) {inodes : Map InodeId Inode} (typing : Typing call i before inodes[i]?) (j : InodeId) :
    Typing call i before (inodes.erase j)[i]? := by
  rw [get_erase]
  split
  · exact .gone _
  · exact typing

theorem setAttr (r : SetAttrReq) : Typing (.setAttr r) i s.inodes[i]? (setAttr host r s).state.inodes[i]? := by
  cases found : s.inodes[r.ino]? with
  | none =>
    unfold MetaService.setAttr
    rw [found]
    exact .refl _
  | some old =>
    obtain ⟨new,state,kind,mode,_⟩ := setAttr_stores host found
    rw [state]
    simp only [MetaState.putInode,get_insert]
    split
    next same =>
      subst same
      rw [found]
      cases asked : r.mode with
      | none =>
        rw [asked] at mode
        exact .kept old new kind mode
      | some m =>
        rw [asked] at mode
        exact .set old new r rfl rfl (by rw [asked,mode]; rfl) kind
    next => exact .refl _

theorem removeDestination {r : RenameReq} {cleared : MetaState}
    {replaced : Option (InodeId × List (BlockIdx × BlockPlacement))} (removed : removeDestination r s = (.ok replaced,cleared)) :
    Typing call i s.inodes[i]? cleared.inodes[i]? := by
  rcases removeDestination_cases r s with ⟨_,failed⟩ | ⟨_,same⟩ | ⟨_,dst,_,_,_,_,⟨_,result⟩ | ⟨_,_,_,result⟩⟩
  · rw [failed] at removed
    cases removed
  · rw [same] at removed
    cases removed
    exact .refl _
  · rw [result] at removed
    cases removed
    exact .erase _ (.refl _) dst
  · rw [result] at removed
    cases removed
    have edited : Typing call i s.inodes[i]? (MetaState.editNlink (· - 1) r.dstParentIno {s with dirs := s.dirs.erase dst}).inodes[i]? :=
      .editNlink _ _ (.refl _)
    exact .erase _ edited dst

end Typing

theorem serve_typing (host : Host) (call : Call) (s : MetaState) (i : InodeId) :
    Typing call i s.inodes[i]? (serve host call s).inodes[i]? := by
  cases call with
  | lookup parent name => exact .refl _
  | getAttr j => exact .refl _
  | readDir r => exact .refl _
  | listNodes => exact .refl _
  | heartbeatNode instant r => exact .refl _
  | watcherTick now deadAfter => exact .refl _
  | openInsert snapshot => exact .refl _
  | «open» r =>
    simp only [serve]
    split <;> exact .refl _
  | setAttr r => exact .setAttr r
  | close r =>
    rcases close_cases host r s with ⟨_,missing⟩ | ⟨handle,_,⟨_,refused⟩ | ⟨old,alive,⟨_,served⟩ | ⟨_,_,_,served⟩⟩⟩
    · simp only [serve,missing]
      exact .refl _
    · simp only [serve,refused]
      exact .refl _
    · simp only [serve,served]
      exact .refl _
    · simp only [serve,served]
      have kept : (s.dropHandle r.fh).inodes[handle.ino]? = some old := alive
      exact Typing.putInode kept rfl rfl
  | allocateBlocks j idxs =>
    rcases allocateBlocks_cases host j idxs s with ⟨_,missing⟩ | ⟨old,_,_,found,served,_⟩
    · simp only [serve,missing]
      exact .refl _
    · simp only [serve,served]
      exact Typing.putInode found rfl rfl
  | create r =>
    rcases create_cases host r s with ⟨_,_,failed⟩ | ⟨dir,_,_,made⟩
    · simp only [serve,failed]
      exact .refl _
    · simp only [serve,made,created,get_insert]
      split
      · exact .fresh _ _ (freshInode_typed host r (.inl rfl) _)
      · exact .refl _
  | mkdir r =>
    rcases mkdir_cases host r s with ⟨_,_,failed⟩ | ⟨dir,placed,_,_,_,made⟩
    · simp only [serve,failed]
      exact .refl _
    · simp only [serve,made,madeDir]
      refine .editNlink _ _ ?_
      simp only [get_insert]
      split
      · exact .fresh _ _ (freshInode_typed host r (.inr rfl) _)
      · exact .refl _
  | unlink parent name =>
    rcases unlink_cases parent name s with ⟨_,failed⟩ | ⟨_,child,_,_,_,_,_,gone⟩
    · simp only [serve,failed]
      exact .refl _
    · simp only [serve,gone]
      exact .erase _ (.refl _) child
  | rmdir parent name =>
    rcases rmdir_cases parent name s with ⟨_,failed⟩ | ⟨_,child,_,_,_,_,_,_,gone⟩
    · simp only [serve,failed]
      exact .refl _
    · simp only [serve,gone,removedDir]
      exact .editNlink _ _ (.erase _ (.refl _) child)
  | rename r =>
    rcases rename_cases r s with ⟨_,failed⟩ | ⟨_,_,_,_,_,lost⟩ | ⟨src,replaced,cleared,_,_,_,removed,_,_,_,state⟩
    · simp only [serve,failed]
      exact .refl _
    · simp only [serve,lost]
      exact .refl _
    · have typing : Typing (.rename r) i s.inodes[i]? cleared.inodes[i]? := .removeDestination removed
      simp only [serve,state,adjustLinks]
      split
      · exact .editNlink _ _ (.editNlink _ _ typing)
      · exact typing

/-- Some directory entry points to inode `i`. -/
def MetaState.Named (s : MetaState) (i : InodeId) : Prop := ∃ p n, s.resolve p n = some i

/-- Some entry of the tables does. -/
def Mentioned (tables : Map InodeId (Map String InodeId)) (i : InodeId) : Prop :=
  ∃ (p : InodeId) (dir : Map String InodeId) (n : String), tables[p]? = some dir ∧ dir[n]? = some i

theorem named_iff (s : MetaState) (i : InodeId) : s.Named i ↔ Mentioned s.dirs i := by
  constructor
  · intro named
    obtain ⟨p,n,named⟩ := named
    obtain ⟨dir,found,entry⟩ := dir_of_resolve named
    exact ⟨p,dir,n,found,entry⟩
  · intro listed
    obtain ⟨p,dir,n,found,entry⟩ := listed
    exact ⟨p,n,(resolve_of_dir found n).trans entry⟩

namespace Mentioned

variable {tables : Map InodeId (Map String InodeId)} {p i : InodeId} {dir : Map String InodeId} {n : String}

theorem insert (listed : Mentioned (tables.insert p dir) i) : Mentioned tables i ∨ ∃ b : String, dir[b]? = some i := by
  obtain ⟨a,table,b,found,entry⟩ := listed
  rw [get_insert] at found
  split at found
  · cases found
    exact .inr ⟨b,entry⟩
  · exact .inl ⟨a,table,b,found,entry⟩

theorem erase (listed : Mentioned (tables.erase p) i) : Mentioned tables i := by
  obtain ⟨a,table,b,found,entry⟩ := listed
  rw [get_erase] at found
  split at found
  · cases found
  · exact ⟨a,table,b,found,entry⟩

/-- Taking an entry out names nothing new. -/
theorem out (found : tables[p]? = some dir) (listed : Mentioned (tables.insert p (dir.erase n)) i) : Mentioned tables i := by
  rcases listed.insert with old | ⟨b,entry⟩
  · exact old
  · rw [lookup_erase] at entry
    split at entry
    · cases entry
    · exact ⟨p,dir,b,found,entry⟩

theorem into {target : InodeId} (found : tables[p]? = some dir) (listed : Mentioned (tables.insert p (dir.insert n target)) i) :
    Mentioned tables i ∨ target = i := by
  rcases listed.insert with old | ⟨b,entry⟩
  · exact .inl old
  · rw [lookup_insert] at entry
    split at entry
    · exact .inr (Option.some.inj entry)
    · exact .inl ⟨p,dir,b,found,entry⟩

end Mentioned

theorem mentioned_removeDestination {s cleared : MetaState} {i : InodeId} {r : RenameReq}
    {replaced : Option (InodeId × List (BlockIdx × BlockPlacement))} (removed : removeDestination r s = (.ok replaced,cleared))
    (listed : Mentioned cleared.dirs i) : Mentioned s.dirs i := by
  rcases removeDestination_cases r s with ⟨_,failed⟩ | ⟨_,same⟩ | ⟨dir,dst,_,found,_,_,⟨_,result⟩ | ⟨_,_,other,result⟩⟩
  · rw [failed] at removed
    cases removed
  · rw [same] at removed
    cases removed
    exact listed
  · rw [result] at removed
    cases removed
    exact listed.out found
  · rw [result] at removed
    cases removed
    simp only [replacedDir,putDir,dirs_editNlink] at listed
    exact (listed.out (by rw [get_erase,if_neg other,found])).erase

theorem adjustLinks_dirs (r : RenameReq) (src : InodeId) (s : MetaState) : (adjustLinks r src s).dirs = s.dirs := by
  unfold adjustLinks
  split
  · rw [dirs_editNlink,dirs_editNlink]
  · rfl

theorem editNlink_typed {s : MetaState} {i : InodeId} {inode : Inode} (change : Nat → Nat) (j : InodeId) (typed : inode.Typed)
    (found : s.inodes[i]? = some inode) : ∃ inode', (s.editNlink change j).inodes[i]? = some inode' ∧ inode'.Typed := by
  unfold editNlink
  split
  next other owned =>
    simp only [putInode,get_insert]
    split
    next same =>
      rw [same,found] at owned
      cases owned
      exact ⟨_,rfl,typed⟩
    next => exact ⟨inode,found,typed⟩
  next => exact ⟨inode,found,typed⟩

/-- Entries point to what entries pointed to before, or to the inode just made. -/
theorem serve_mentioned {host : Host} {call : Call} {s : MetaState} {i : InodeId} (listed : Mentioned (serve host call s).dirs i) :
    Mentioned s.dirs i ∨ ∃ inode, (serve host call s).inodes[i]? = some inode ∧ inode.Typed := by
  cases call with
  | lookup parent name => exact .inl listed
  | getAttr j => exact .inl listed
  | readDir r => exact .inl listed
  | listNodes => exact .inl listed
  | heartbeatNode instant r => exact .inl listed
  | watcherTick now deadAfter => exact .inl listed
  | openInsert snapshot => exact .inl listed
  | «open» r =>
    simp only [serve] at listed
    split at listed <;> exact .inl listed
  | setAttr r => exact .inl ((setAttr_names host r s).dirs ▸ listed)
  | close r => exact .inl ((close_names host r s).dirs ▸ listed)
  | allocateBlocks j idxs => exact .inl ((allocateBlocks_names host j idxs s).dirs ▸ listed)
  | create r =>
    rcases create_cases host r s with ⟨_,_,failed⟩ | ⟨dir,found,_,made⟩
    · simp only [serve,failed] at listed
      exact .inl listed
    · simp only [serve,made] at listed ⊢
      rcases listed.into found with old | rfl
      · exact .inl old
      · refine .inr ⟨_,?_,freshInode_typed host r (.inl rfl) s.nextIno⟩
        simp only [created,get_insert,if_true]
  | mkdir r =>
    rcases mkdir_cases host r s with ⟨_,_,failed⟩ | ⟨dir,placed,found,_,kept,made⟩
    · simp only [serve,failed] at listed
      exact .inl listed
    · simp only [serve,made,madeDir,dirs_editNlink] at listed
      rcases listed.into kept with old | rfl
      · rcases old.insert with old | ⟨b,entry⟩
        · exact .inl old
        · cases entry
      · simp only [serve,made,madeDir]
        refine .inr (editNlink_typed _ _ (freshInode_typed host r (.inr rfl) s.nextIno) ?_)
        simp only [get_insert,if_true]
  | unlink parent name =>
    rcases unlink_cases parent name s with ⟨_,failed⟩ | ⟨dir,child,_,found,_,_,_,gone⟩
    · simp only [serve,failed] at listed
      exact .inl listed
    · simp only [serve,gone] at listed
      exact .inl (listed.out found)
  | rmdir parent name =>
    rcases rmdir_cases parent name s with ⟨_,failed⟩ | ⟨dir,child,_,found,_,_,_,other,gone⟩
    · simp only [serve,failed] at listed
      exact .inl listed
    · simp only [serve,gone,removedDir,dirs_editNlink] at listed
      exact .inl (listed.out (by rw [get_erase,if_neg other,found])).erase
  | rename r =>
    rcases rename_cases r s with ⟨_,failed⟩ | ⟨dir,_,found,_,_,lost⟩ |
      ⟨src,replaced,cleared,srcDir,dstDir,source,removed,owns,target,_,state⟩
    · simp only [serve,failed] at listed
      exact .inl listed
    · simp only [serve,lost] at listed
      exact .inl (listed.out found)
    · simp only [serve,state,adjustLinks_dirs] at listed
      rcases listed.into target with old | rfl
      · exact .inl (mentioned_removeDestination removed (old.out owns))
      · exact .inl ((named_iff s src).mp ⟨_,_,source⟩)

/-- For every entry of a listing, the type in the listing is the one in the attributes of
the inode, looked up by name or by number. -/
def TypesAgree (s : MetaState) : Prop :=
  ∀ r resp e attr, readDir r s = .ok resp → e ∈ resp.entries → (lookup r.ino e.name s = .ok attr ∨ getAttr e.ino s = .ok attr) →
    (protoAttrToFuse attr).kind = protoKindToFuse e.kind

/-- A `set_attr` with a mode, of an inode that has a name, carries the type of the inode
in the mode. -/
def KeepsType (call : Call) (s : MetaState) : Prop :=
  match call with
  | .setAttr r => ∀ mode, r.mode = some mode → ∀ inode : Inode, s.inodes[r.ino]? = some inode → s.Named r.ino →
      modeType mode = protoKindToFuse (kindU32 inode.kind)
  | _ => True

/-- Every inode that has a name is typed. -/
def NamesTyped (s : MetaState) : Prop := ∀ (i : InodeId) (inode : Inode), s.Named i → s.inodes[i]? = some inode → inode.Typed

theorem readDir_entry {r : ReadDirReq} {resp : ReadDirResp} {e : DirEntry} {s : MetaState} (listed : readDir r s = .ok resp)
    (member : e ∈ resp.entries) : s.resolve r.ino e.name = some e.ino ∧
      e.kind = kindU32 ((s.inodes[e.ino]?.map (·.kind)).getD .file) := by
  unfold readDir at listed
  split at listed
  · cases listed
  next dir found =>
    cases listed
    obtain ⟨⟨name,child⟩,within,rfl⟩ := List.mem_map.mp member
    have present : (name,child) ∈ dir.toList := by
      split at within
      · split at within
        · exact within
        · exact List.mem_of_mem_filter within
      · have kept := List.mem_of_mem_take within
        split at kept
        · exact kept
        · exact List.mem_of_mem_filter kept
    refine ⟨?_,rfl⟩
    rw [resolve_of_dir found]
    exact Std.ExtTreeMap.mem_toList_iff_getElem?_eq_some.mp present

theorem typesAgree_iff (s : MetaState) : TypesAgree s ↔ NamesTyped s := by
  constructor
  · intro agree i inode named found
    obtain ⟨p,n,named⟩ := named
    obtain ⟨dir,owns,entry⟩ := dir_of_resolve named
    have whole : ∃ resp, readDir ⟨p,ByteArray.empty,0⟩ s = .ok resp ∧ resp.entries = dir.toList.map fun named =>
        (⟨named.1,named.2,kindU32 ((s.inodes[named.2]?.map (·.kind)).getD .file)⟩ : DirEntry) := by
      unfold readDir
      rw [owns]
      exact ⟨_,rfl,rfl⟩
    obtain ⟨resp,listed,entries⟩ := whole
    have member : (⟨n,i,kindU32 inode.kind⟩ : DirEntry) ∈ dir.toList.map fun named =>
        (⟨named.1,named.2,kindU32 ((s.inodes[named.2]?.map (·.kind)).getD .file)⟩ : DirEntry) := by
      refine List.mem_map.mpr ⟨(n,i),Std.ExtTreeMap.mem_toList_iff_getElem?_eq_some.mpr entry,?_⟩
      simp only [found,Option.map_some,Option.getD_some]
    have attributes : getAttr i s = .ok (buildAttr inode) := by
      unfold getAttr
      rw [found]
    exact agree ⟨p,ByteArray.empty,0⟩ resp ⟨n,i,kindU32 inode.kind⟩ (buildAttr inode) listed (entries ▸ member) (.inr attributes)
  · intro typed r resp e attr listed member attributes
    obtain ⟨named,kind⟩ := readDir_entry listed member
    have stored : ∃ inode, s.inodes[e.ino]? = some inode ∧ attr = buildAttr inode := by
      rcases attributes with looked | got
      · unfold lookup at looked
        rw [named] at looked
        cases found : s.inodes[e.ino]? with
        | none =>
          simp only [found] at looked
          cases looked
        | some inode =>
          simp only [found] at looked
          cases looked
          exact ⟨inode,rfl,rfl⟩
      · unfold getAttr at got
        cases found : s.inodes[e.ino]? with
        | none =>
          rw [found] at got
          cases got
        | some inode =>
          rw [found] at got
          cases got
          exact ⟨inode,rfl,rfl⟩
    obtain ⟨inode,found,rfl⟩ := stored
    rw [kind,found]
    exact typed e.ino inode ⟨_,_,named⟩ found

theorem serve_typed_iff (host : Host) (call : Call) {s : MetaState} (typed : NamesTyped s) :
    NamesTyped (serve host call s) ↔ KeepsType call s := by
  constructor
  · intro after
    cases call with
    | setAttr r =>
      intro mode asked inode found named
      obtain ⟨new,state,kind,stored,_⟩ := setAttr_stores host found
      have present : (serve host (.setAttr r) s).inodes[r.ino]? = some new := by
        simp only [serve,state,putInode,get_insert,if_true]
      have still : (serve host (.setAttr r) s).Named r.ino :=
        (named_iff _ _).mpr ((setAttr_names host r s).dirs.symm ▸ (named_iff _ _).mp named)
      have after := after r.ino new still present
      unfold Inode.Typed at after
      rw [stored,asked,kind] at after
      exact after
    | _ => exact trivial
  · intro keeps i inode named found
    rcases serve_mentioned ((named_iff _ _).mp named) with old | ⟨inode',found',fresh⟩
    · have typing := serve_typing host call s i
      rw [found] at typing
      cases before : s.inodes[i]? with
      | none =>
        rw [before] at typing
        cases typing with
        | fresh _ _ typed => exact typed
      | some past =>
        have known := typed i past ((named_iff _ _).mpr old) before
        rw [before] at typing
        cases typing with
        | fresh _ _ typed => exact typed
        | kept _ _ kind mode =>
          unfold Inode.Typed
          rw [kind,mode]
          exact known
        | set _ _ r request mine asked kind =>
          subst request mine
          unfold Inode.Typed
          rw [kind]
          exact keeps inode.mode asked past before ((named_iff _ _).mpr old)
    · rw [found] at found'
      cases found'
      exact fresh

theorem run_typed_iff (calls : List (Host × Call)) {s : MetaState} (typed : NamesTyped s) :
    (∀ before after, calls = before ++ after → NamesTyped (run before s)) ↔ Along KeepsType calls s := by
  refine Runs.folds_iff (fun _ => trivial) ?_ calls typed
  intro act rest s typed
  obtain ⟨host,call⟩ := act
  rw [serve_typed_iff host call typed]
  exact Iff.rfl

/-- In every state of a run the two reports of a type agree exactly when every
`set_attr` of a mode keeps the type bits of the inode it changes. -/
theorem types_agree_iff (now : SystemTime) (replicationFactor : Nat) (calls : List (Host × Call)) :
    (∀ before after, calls = before ++ after → TypesAgree (run before (new now replicationFactor))) ↔
      Along KeepsType calls (new now replicationFactor) := by
  have start : NamesTyped (new now replicationFactor) := by
    intro i inode named
    obtain ⟨p,n,named⟩ := named
    obtain ⟨dir,found,entry⟩ := dir_of_resolve named
    simp only [new,get_insert] at found
    split at found
    · cases found
      cases entry
    · cases found
  simp only [typesAgree_iff]
  exact run_typed_iff calls start

/-- `chmod 755` of a directory without the directory bit. -/
theorem chmod_changes_type : ¬ TypesAgree (run [(Host.still,.mkdir ⟨ROOT,"d",0o755,0,0⟩),
    (Host.still,.setAttr ⟨2,none,some 0o755,none,none,none,none,none,none⟩)] (new 0 1)) := by
  intro agree
  rw [typesAgree_iff] at agree
  exact absurd (agree 2 _ ⟨ROOT,"d",rfl⟩ rfl) (by unfold Inode.Typed; decide)

end Dtmpfs
