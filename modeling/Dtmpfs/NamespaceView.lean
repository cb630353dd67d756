import Dtmpfs.MetaCases
import Dtmpfs.Semantics.Namespace

/-! The namespace a `MetaState` represents, and what each request does to it:
nothing, attach a fresh inode, detach one without children, or move one slot. -/
namespace Dtmpfs
open MetaService OrderedMap

namespace MetaState

def kindOf (s : MetaState) (i : InodeId) : Option InodeKind := s.inodes[i]?.map (·.kind)

def view (s : MetaState) : Namespace InodeId String where
  live i := ∃ kind, s.kindOf i = some kind
  folder i := s.kindOf i = some .dir
  table i := ∃ dir, s.dirs[i]? = some dir
  entry := s.resolve

/-- Every inode is stored under its own number. -/
def Stamped (s : MetaState) : Prop := ∀ (i : InodeId) (inode : Inode), s.inodes[i]? = some inode → inode.ino = i

theorem Stamped.putInode {s : MetaState} (h : s.Stamped) {i : InodeId} {inode : Inode} (number : inode.ino = i) :
    (s.putInode i inode).Stamped := by
  intro j found present
  simp only [MetaState.putInode,get_insert] at present
  split at present
  next same =>
    cases present
    exact number.trans same
  next => exact h j found present

theorem Stamped.erase {s t : MetaState} (h : s.Stamped) {i : InodeId} (inodes : t.inodes = s.inodes.erase i) :
    t.Stamped := by
  intro j found present
  rw [inodes,get_erase] at present
  split at present
  · cases present
  · exact h j found present

theorem Stamped.congr {s t : MetaState} (h : s.Stamped) (inodes : t.inodes = s.inodes) : t.Stamped := by
  intro j found present
  exact h j found (inodes ▸ present)

theorem Stamped.editNlink {s : MetaState} (h : s.Stamped) (change : Nat → Nat) (i : InodeId) :
    (s.editNlink change i).Stamped := by
  unfold MetaState.editNlink
  split
  next inode found => exact h.putInode (h i inode found)
  next => exact h

/-- Only live directories own a table. -/
def Tidy (s : MetaState) : Prop := ∀ i, s.view.table i → s.view.folder i

theorem kindOf_some {s : MetaState} {i : InodeId} {inode : Inode} (found : s.inodes[i]? = some inode) :
    s.kindOf i = some inode.kind := by simp [kindOf,found]

theorem live_iff (s : MetaState) (i : InodeId) : s.view.live i ↔ ∃ inode, s.inodes[i]? = some inode := by
  simp only [view,kindOf,Option.map_eq_some_iff]
  exact ⟨fun ⟨_,inode,found,_⟩ => ⟨inode,found⟩,fun ⟨inode,found⟩ => ⟨_,inode,found,rfl⟩⟩

@[simp] theorem kindOf_putInode (s : MetaState) (i j : InodeId) (inode : Inode) :
    (s.putInode i inode).kindOf j = if i = j then some inode.kind else s.kindOf j := by
  simp only [kindOf,putInode,get_insert]
  split <;> rfl

@[simp] theorem kindOf_putDir (s : MetaState) (i j : InodeId) (dir : Map String InodeId) :
    (s.putDir i dir).kindOf j = s.kindOf j := rfl

theorem kindOf_eraseInode (s : MetaState) (i j : InodeId) :
    ({s with inodes := s.inodes.erase i} : MetaState).kindOf j = if i = j then none else s.kindOf j := by
  simp only [kindOf,get_erase]
  split <;> rfl

@[simp] theorem dirs_putInode (s : MetaState) (i : InodeId) (inode : Inode) :
    (s.putInode i inode).dirs = s.dirs := rfl

@[simp] theorem dirs_editNlink (s : MetaState) (change : Nat → Nat) (i : InodeId) :
    (s.editNlink change i).dirs = s.dirs := by
  unfold editNlink
  split <;> rfl

@[simp] theorem nextIno_editNlink (s : MetaState) (change : Nat → Nat) (i : InodeId) :
    (s.editNlink change i).nextIno = s.nextIno := by
  unfold editNlink
  split <;> rfl

@[simp] theorem kindOf_editNlink (s : MetaState) (change : Nat → Nat) (i j : InodeId) :
    (s.editNlink change i).kindOf j = s.kindOf j := by
  unfold editNlink
  split
  next inode found =>
    rw [kindOf_putInode]
    split
    next same => rw [← same,kindOf_some found]
    next => rfl
  next => rfl

theorem resolve_putDir (s : MetaState) (p a : InodeId) (dir : Map String InodeId) (b : String) :
    (s.putDir p dir).resolve a b = if p = a then dir[b]? else s.resolve a b := by
  simp only [resolve,putDir,get_insert]
  split <;> rfl

theorem resolve_of_dir {s : MetaState} {p : InodeId} {dir : Map String InodeId}
    (found : s.dirs[p]? = some dir) (b : String) : s.resolve p b = dir[b]? := by
  simp [resolve,found]

theorem dir_of_resolve {s : MetaState} {p i : InodeId} {b : String} (named : s.resolve p b = some i) :
    ∃ dir, s.dirs[p]? = some dir ∧ dir[b]? = some i := by
  simpa [resolve,Option.bind_eq_some_iff] using named

theorem resolve_of_table {s : MetaState} {p : InodeId} (missing : ¬ s.view.table p) (b : String) :
    s.resolve p b = none := by
  cases found : s.dirs[p]? with
  | none => simp [resolve,found]
  | some dir => exact absurd ⟨dir,found⟩ missing

theorem view_congr {s t : MetaState} (kinds : ∀ i, t.kindOf i = s.kindOf i) (dirs : t.dirs = s.dirs) :
    t.view = s.view := by
  ext i b j
  · simp [view,kinds]
  · simp [view,kinds]
  · simp [view,dirs]
  · simp [view,resolve,dirs]

theorem view_wellformed (s : MetaState) : s.view.Wellformed where
  folderLive _ isDir := ⟨_,isDir⟩
  entryTable p n i named := by
    obtain ⟨dir,found,_⟩ := dir_of_resolve named
    exact ⟨dir,found⟩

theorem view_putDir {s : MetaState} {p : InodeId} {dir changed : Map String InodeId} {n : String}
    {target : Option InodeId} (found : s.dirs[p]? = some dir)
    (lookup : ∀ b, changed[b]? = if b = n then target else dir[b]?) :
    (s.putDir p changed).view = s.view.setEntry p n target := by
  ext a b j
  · simp [view,Namespace.setEntry]
  · simp [view,Namespace.setEntry]
  · simp only [view,putDir,Namespace.setEntry,get_insert]
    split
    next same => simp [← same,found]
    next => rfl
  · simp only [view,Namespace.setEntry,resolve_putDir]
    by_cases same : p = a
    · subst same
      simp [lookup,resolve_of_dir found]
    · simp [same,Ne.symm same]

end MetaState

open MetaState

theorem lookup_insert (dir : Map String InodeId) (n : String) (target : InodeId) (b : String) :
    (dir.insert n target)[b]? = if b = n then some target else dir[b]? := by
  rw [get_insert]
  simp [eq_comm]

theorem lookup_erase (dir : Map String InodeId) (n b : String) :
    (dir.erase n)[b]? = if b = n then none else dir[b]? := by
  rw [get_erase]
  simp [eq_comm]

theorem created_view (host : Host) (r : CreateReq) (dir : Map String InodeId) (s : MetaState)
    (found : s.dirs[r.parentIno]? = some dir) :
    (s.created host r dir).view = s.view.attach r.parentIno r.name s.nextIno False := by
  have edited := view_putDir found (lookup_insert dir r.name s.nextIno)
  ext a b j
  · simp only [view,Namespace.attach,kindOf,created,get_insert]
    by_cases same : s.nextIno = a
    · simp [same]
    · simp [same,Ne.symm same]
  · simp only [view,Namespace.attach,kindOf,created,get_insert,freshInode]
    by_cases same : s.nextIno = a
    · simp [same]
    · simp [same,Ne.symm same]
  · have tables : (s.created host r dir).view.table a = s.view.table a :=
      congrFun (congrArg Namespace.table edited) a
    simp [Namespace.attach,tables]
  · exact iff_of_eq (congrArg (· = some j) (congrFun (congrFun (congrArg Namespace.entry edited) a) b))

theorem madeDir_view (host : Host) (r : CreateReq) (dir placed : Map String InodeId) (s : MetaState)
    (found : s.dirs[r.parentIno]? = some dir) (fresh : ¬ s.view.table s.nextIno)
    (kept : (s.dirs.insert s.nextIno ∅)[r.parentIno]? = some placed) :
    (s.madeDir host r placed).view = s.view.attach r.parentIno r.name s.nextIno True := by
  have other : s.nextIno ≠ r.parentIno := fun same => fresh (same ▸ ⟨dir,found⟩)
  rw [get_insert,if_neg other,found] at kept
  cases Option.some.inj kept
  ext a b j
  · simp only [view,Namespace.attach,madeDir,kindOf_editNlink]
    simp only [kindOf,get_insert]
    by_cases same : s.nextIno = a
    · simp [same]
    · simp [same,Ne.symm same]
  · simp only [view,Namespace.attach,madeDir,kindOf_editNlink]
    simp only [kindOf,get_insert,freshInode]
    by_cases same : s.nextIno = a
    · simp [same]
    · simp [same,Ne.symm same]
  · simp only [view,Namespace.attach,madeDir,dirs_editNlink,get_insert]
    by_cases same : r.parentIno = a
    · simp [← same,found]
    · by_cases new : s.nextIno = a
      · simp [same,new]
      · simp [same,new,Ne.symm new]
  · simp only [view,Namespace.attach,madeDir,resolve,dirs_editNlink,get_insert]
    by_cases same : r.parentIno = a
    · subst same
      simp [lookup_insert,found]
    · by_cases new : s.nextIno = a
      · have vacant : s.dirs[a]? = none := by
          cases owns : s.dirs[a]? with
          | none => rfl
          | some table => exact absurd ⟨table,owns⟩ (new ▸ fresh)
        simp [same,Ne.symm same,new,vacant]
      · simp [same,Ne.symm same,new]

/-- Removing a slot together with the inode it names. The inode's own table, if
it had one, is gone or was never there. -/
theorem view_detach {s t : MetaState} {p i : InodeId} {n : String} {dir : Map String InodeId}
    (found : s.dirs[p]? = some dir) (other : i ≠ p)
    (kinds : ∀ j, t.kindOf j = if i = j then none else s.kindOf j)
    (dirs : ∀ j, t.dirs[j]? = if p = j then some (dir.erase n) else if i = j then none else s.dirs[j]?) :
    t.view = s.view.detach p n i := by
  ext a b j
  · simp only [view,Namespace.detach,kinds]
    by_cases same : i = a
    · simp [same]
    · simp [same,Ne.symm same]
  · simp only [view,Namespace.detach,kinds]
    by_cases same : i = a
    · simp [same]
    · simp [same,Ne.symm same]
  · simp only [view,Namespace.detach,dirs]
    by_cases same : p = a
    · simp [← same,found,other.symm]
    · by_cases gone : i = a
      · simp [same,gone]
      · simp [same,gone,Ne.symm gone]
  · simp only [view,Namespace.detach,resolve,dirs]
    by_cases same : p = a
    · subst same
      by_cases slot : b = n
      · simp [slot]
      · simp [lookup_erase,slot,found,other.symm]
    · by_cases gone : i = a
      · simp [same,gone]
      · simp [same,gone,Ne.symm same,Ne.symm gone]

theorem tableless_of_kind {s : MetaState} (tidy : s.Tidy) {i : InodeId} {inode : Inode}
    (alive : s.inodes[i]? = some inode) (kind : inode.kind ≠ .dir) : s.dirs[i]? = none := by
  cases owns : s.dirs[i]? with
  | none => rfl
  | some table =>
    have isDir : s.kindOf i = some .dir := tidy i ⟨table,owns⟩
    rw [kindOf_some alive] at isDir
    exact absurd (Option.some.inj isDir) kind

theorem unlinked_view {s : MetaState} (tidy : s.Tidy) {p i : InodeId} {n : String}
    {dir : Map String InodeId} {inode : Inode} (found : s.dirs[p]? = some dir)
    (alive : s.inodes[i]? = some inode) (kind : inode.kind ≠ .dir) :
    (s.unlinked p n dir i).view = s.view.detach p n i := by
  have tableless := tableless_of_kind tidy alive kind
  have other : i ≠ p := by
    intro same
    rw [same,found] at tableless
    cases tableless
  refine view_detach found other (kindOf_eraseInode s i) ?_
  intro j
  simp only [unlinked,get_insert]
  split
  · rfl
  · split
    next gone => rw [← gone,tableless]
    next => rfl

theorem removedDir_view {s : MetaState} {p i : InodeId} {n : String} {dir : Map String InodeId}
    (found : s.dirs[p]? = some dir) (other : i ≠ p) :
    (s.removedDir p n dir i).view = s.view.detach p n i := by
  refine view_detach found other ?_ ?_
  · intro j
    simp only [removedDir,kindOf_editNlink]
    exact kindOf_eraseInode s i j
  · intro j
    simp only [removedDir,dirs_editNlink,get_insert,get_erase]

theorem replacedDir_view {s : MetaState} {p i : InodeId} {n : String} {dir : Map String InodeId}
    (found : s.dirs[p]? = some dir) (other : i ≠ p) :
    (s.replacedDir p n dir i).view = s.view.detach p n i := by
  refine view_detach found other ?_ ?_
  · intro j
    simp only [replacedDir,kindOf_putDir,kindOf_eraseInode,kindOf_editNlink]
    rfl
  · intro j
    simp only [replacedDir,putDir,dirs_editNlink,get_insert,get_erase]

theorem adjustLinks_kind (r : RenameReq) (src : InodeId) (s : MetaState) (i : InodeId) :
    (adjustLinks r src s).kindOf i = s.kindOf i := by
  unfold adjustLinks
  split
  next => rw [kindOf_editNlink,kindOf_editNlink]
  next => rfl

theorem adjustLinks_view (r : RenameReq) (src : InodeId) (s : MetaState) : (adjustLinks r src s).view = s.view := by
  unfold adjustLinks
  split
  · exact view_congr (fun i => by simp only [kindOf_editNlink]) (by simp only [dirs_editNlink])
  · rfl

theorem adjustLinks_nextIno (r : RenameReq) (src : InodeId) (s : MetaState) :
    (adjustLinks r src s).nextIno = s.nextIno := by
  unfold adjustLinks
  split
  · simp only [nextIno_editNlink]
  · rfl

/-- What the removal of the destination does to the names, and which blocks it hands
over. -/
theorem removeDestination_view {s cleared : MetaState} (tidy : s.Tidy) {r : RenameReq}
    {replaced : Option (InodeId × List (BlockIdx × BlockPlacement))} (removed : removeDestination r s = (.ok replaced,cleared)) :
    (s.resolve r.dstParentIno r.dstName = none ∧ replaced = none ∧ cleared.view = s.view) ∨
    ∃ dst old, s.resolve r.dstParentIno r.dstName = some dst ∧ s.inodes[dst]? = some old ∧ (∀ b, s.resolve dst b = none) ∧
      replaced = (if old.kind = .file then some (dst,old.blocks.toList) else none) ∧
      cleared.view = s.view.detach r.dstParentIno r.dstName dst := by
  rcases removeDestination_cases r s with ⟨_,failed⟩ | ⟨vacant,same⟩ |
    ⟨dir,dst,inode,found,slot,alive,⟨kind,result⟩ | ⟨kind,empty,other,result⟩⟩
  · rw [failed] at removed
    cases removed
  · rw [same] at removed
    cases removed
    exact .inl ⟨vacant,rfl,rfl⟩
  · rw [result] at removed
    cases removed
    refine .inr ⟨dst,inode,by rw [resolve_of_dir found,slot],alive,?_,rfl,unlinked_view tidy found alive kind⟩
    intro b
    simp [resolve,tableless_of_kind tidy alive kind]
  · rw [result] at removed
    cases removed
    refine .inr ⟨dst,inode,by rw [resolve_of_dir found,slot],alive,?_,by rw [kind]; rfl,replacedDir_view found other⟩
    intro b
    cases table : s.dirs[dst]? with
    | none => simp [resolve,table]
    | some children => simp [resolve,table,(isEmpty_iff children).mp (empty children table) b]

/-- In tidy states `rename` leaves the state alone, loses the source slot to a
missing destination table, or moves the slot after an optional removal. -/
theorem rename_view {s : MetaState} (tidy : s.Tidy) (r : RenameReq) :
    (rename r s).state = s ∨
    (∃ src, s.resolve r.srcParentIno r.srcName = some src ∧ s.dirs[r.dstParentIno]? = none ∧
      (rename r s).state.view = s.view.setEntry r.srcParentIno r.srcName none ∧
      (rename r s).state.nextIno = s.nextIno) ∨
    ∃ src T, s.resolve r.srcParentIno r.srcName = some src ∧
      ((s.resolve r.dstParentIno r.dstName = none ∧ T = s.view) ∨
        ∃ dst, s.resolve r.dstParentIno r.dstName = some dst ∧ (∀ b, s.resolve dst b = none) ∧
          T = s.view.detach r.dstParentIno r.dstName dst) ∧
      T.table r.dstParentIno ∧ (∃ replaced cleared, removeDestination r s = (.ok replaced,cleared)) ∧
      (rename r s).state.view = T.rehang r.srcParentIno r.srcName r.dstParentIno r.dstName src ∧
      (rename r s).state.nextIno = s.nextIno := by
  rcases rename_cases r s with ⟨status,failed⟩ | ⟨dir,src,found,slot,missing,lost⟩ |
    ⟨src,replaced,cleared,srcDir,dstDir,named,removed,owns,target,_,state⟩
  · exact .inl (by rw [failed])
  · refine .inr (.inl ⟨src,by rw [resolve_of_dir found,slot],missing,?_,?_⟩)
    · rw [lost,view_putDir found (lookup_erase dir r.srcName)]
    · rw [lost]
      rfl
  · right; right
    have cut := view_putDir owns (lookup_erase srcDir r.srcName)
    have moved := view_putDir target (lookup_insert dstDir r.dstName src)
    rw [cut] at moved
    refine ⟨src,cleared.view,named,?_,?_,⟨replaced,cleared,removed⟩,?_,?_⟩
    · rcases removeDestination_view tidy removed with ⟨vacant,_,same⟩ | ⟨dst,_,slot,_,childless,_,gone⟩
      · exact .inl ⟨vacant,same⟩
      · exact .inr ⟨dst,slot,childless,gone⟩
    · have tables := congrFun (congrArg Namespace.table cut) r.dstParentIno
      exact tables ▸ ⟨dstDir,target⟩
    · rw [state,adjustLinks_view,moved]
      rfl
    · rw [state,adjustLinks_nextIno]
      have kept : cleared.nextIno = s.nextIno := by
        rcases removeDestination_cases r s with ⟨_,failed⟩ | ⟨_,same⟩ |
          ⟨_,_,_,_,_,_,⟨_,result⟩ | ⟨_,_,_,result⟩⟩
        · rw [failed] at removed
          cases removed
        · rw [same] at removed
          cases removed
          rfl
        · rw [result] at removed
          cases removed
          rfl
        · rw [result] at removed
          cases removed
          simp only [replacedDir,putDir,nextIno_editNlink]
      exact kept

/-- Calls that change neither the names nor the numbers. -/
structure SameNames (s t : MetaState) : Prop where
  kinds : ∀ i, t.kindOf i = s.kindOf i
  dirs : t.dirs = s.dirs
  nextIno : t.nextIno = s.nextIno
  stamps : s.Stamped → t.Stamped

theorem SameNames.of_inodes {s t : MetaState} (inodes : t.inodes = s.inodes) (dirs : t.dirs = s.dirs)
    (nextIno : t.nextIno = s.nextIno) : SameNames s t :=
  ⟨fun i => by simp only [kindOf,inodes],dirs,nextIno,fun h => h.congr inodes⟩

theorem SameNames.refl (s : MetaState) : SameNames s s := .of_inodes rfl rfl rfl

theorem SameNames.trans {s t u : MetaState} (first : SameNames s t) (second : SameNames t u) :
    SameNames s u :=
  ⟨fun i => (second.kinds i).trans (first.kinds i),second.dirs.trans first.dirs,
    second.nextIno.trans first.nextIno,fun h => second.stamps (first.stamps h)⟩

theorem SameNames.putInode {s : MetaState} {i : InodeId} {old new : Inode} (found : s.inodes[i]? = some old)
    (kind : new.kind = old.kind) (number : new.ino = old.ino) : SameNames s (s.putInode i new) := by
  refine ⟨?_,rfl,rfl,fun h => h.putInode (number.trans (h i old found))⟩
  intro j
  rw [kindOf_putInode]
  split
  next same => rw [← same,kindOf_some found,kind]
  next => rfl

theorem setAttr_names (host : Host) (r : SetAttrReq) (s : MetaState) :
    SameNames s (setAttr host r s).state := by
  unfold setAttr
  split
  · exact .refl s
  next inode found =>
    dsimp only
    split
    · exact .putInode found rfl rfl
    · split
      · exact .putInode found rfl rfl
      · refine .putInode found ?_ ?_ <;> (unfold resize; split <;> rfl)

theorem close_names (host : Host) (r : CloseReq) (s : MetaState) : SameNames s (close host r s).state := by
  have dropped : SameNames s (s.dropHandle r.fh) := .of_inodes rfl rfl rfl
  rcases close_cases host r s with ⟨_,result⟩ | ⟨handle,_,⟨_,result⟩ | ⟨inode,found,⟨_,result⟩ | ⟨_,_,_,result⟩⟩⟩
  · rw [result]
    exact .refl s
  · rw [result]
    exact dropped
  · rw [result]
    exact dropped
  · rw [result]
    have kept : (s.dropHandle r.fh).inodes[handle.ino]? = some inode := found
    exact dropped.trans (.putInode kept rfl rfl)

theorem insertPlacement_names (ino : InodeId) (acc : Except Fault (List BlockLoc) × MetaState)
    (new : BlockIdx × BlockPlacement) : SameNames acc.2 (insertPlacement ino acc new).2 := by
  unfold insertPlacement
  split
  · exact .refl _
  · split
    · exact .refl _
    next inode found => exact .putInode found rfl rfl

theorem allocateOne_names (host : Host) (ino : InodeId) (acc : Except Fault (List BlockLoc) × MetaState)
    (idx : BlockIdx) : SameNames acc.2 (allocateOne host ino acc idx).2 := by
  unfold allocateOne
  split
  · exact .refl _
  · split
    · exact .refl _
    · exact insertPlacement_names ino _ _

theorem allocateBlocks_names (host : Host) (ino : InodeId) (idxs : List BlockIdx) (s : MetaState) :
    SameNames s (MetaService.allocateBlocks host ino idxs s).state := by
  have loop (idxs : List BlockIdx) (acc : Except Fault (List BlockLoc) × MetaState) :
      SameNames acc.2 (idxs.foldl (allocateOne host ino) acc).2 := by
    induction idxs generalizing acc with
    | nil => exact .refl _
    | cons idx rest ih => exact (allocateOne_names host ino acc idx).trans (ih _)
  unfold MetaService.allocateBlocks
  split
  · exact loop idxs (.ok [],s)
  · exact .refl s

/-- Whether the call draws an inode number. -/
def draws (call : Call) (s : MetaState) : Bool :=
  match call with
  | .create r | .mkdir r => s.dirs[r.parentIno]?.any (fun dir => !dir.contains r.name)
  | _ => false

theorem draws_of_vacant {s : MetaState} {r : CreateReq} {dir : Map String InodeId}
    (found : s.dirs[r.parentIno]? = some dir) (vacant : dir[r.name]? = none) :
    s.dirs[r.parentIno]?.any (fun dir => !dir.contains r.name) = true := by
  have absent : dir.contains r.name = false := (vacant_iff dir r.name).mpr vacant
  simp [found,absent]

theorem draws_of_taken {s : MetaState} {r : CreateReq}
    (taken : ∀ dir, s.dirs[r.parentIno]? = some dir → dir.contains r.name = true) :
    s.dirs[r.parentIno]?.any (fun dir => !dir.contains r.name) = false := by
  cases found : s.dirs[r.parentIno]? with
  | none => rfl
  | some dir => simp only [Option.any_some,taken dir found,Bool.not_true]

/-- The four things a call does to the names: nothing, attach the next number,
detach a node without children, or rename. -/
theorem serve_view {s : MetaState} (tidy : s.Tidy) (host : Host) (call : Call)
    (fresh : draws call s = true → ¬ s.view.table s.nextIno) :
    (draws call s = false ∧ SameNames s (serve host call s)) ∨
    (draws call s = true ∧ ∃ p n isFolder, s.view.table p ∧ s.view.entry p n = none ∧
      (serve host call s).view = s.view.attach p n s.nextIno isFolder ∧
      (serve host call s).nextIno = (s.nextIno + 1) % 2^64) ∨
    (draws call s = false ∧ ∃ p n i, s.view.entry p n = some i ∧ (∀ b, s.view.entry i b = none) ∧
      (serve host call s).view = s.view.detach p n i ∧ (serve host call s).nextIno = s.nextIno) ∨
    ∃ r, call = .rename r := by
  cases call with
  | lookup parent name => exact .inl ⟨rfl,.refl s⟩
  | getAttr i => exact .inl ⟨rfl,.refl s⟩
  | readDir r => exact .inl ⟨rfl,.refl s⟩
  | listNodes => exact .inl ⟨rfl,.refl s⟩
  | setAttr r => exact .inl ⟨rfl,setAttr_names host r s⟩
  | close r => exact .inl ⟨rfl,close_names host r s⟩
  | allocateBlocks i idxs => exact .inl ⟨rfl,allocateBlocks_names host i idxs s⟩
  | heartbeatNode instant r => exact .inl ⟨rfl,.of_inodes rfl rfl rfl⟩
  | watcherTick now deadAfter => exact .inl ⟨rfl,.of_inodes rfl rfl rfl⟩
  | openInsert snapshot => exact .inl ⟨rfl,.of_inodes rfl rfl rfl⟩
  | «open» r =>
    refine .inl ⟨rfl,?_⟩
    simp only [serve]
    split
    · exact .of_inodes rfl rfl rfl
    · exact .refl s
  | create r =>
    rcases create_cases host r s with ⟨taken,status,failed⟩ | ⟨dir,found,vacant,made⟩
    · exact .inl ⟨draws_of_taken taken,by simp only [serve,failed]; exact .refl s⟩
    · refine .inr (.inl ⟨draws_of_vacant found vacant,r.parentIno,r.name,False,⟨dir,found⟩,?_,?_,?_⟩)
      · exact (resolve_of_dir found r.name).trans vacant
      · simp only [serve,made]
        exact created_view host r dir s found
      · simp only [serve,made]
        rfl
  | mkdir r =>
    rcases mkdir_cases host r s with ⟨taken,status,failed⟩ | ⟨dir,placed,found,vacant,kept,made⟩
    · exact .inl ⟨draws_of_taken taken,by simp only [serve,failed]; exact .refl s⟩
    · have drawn := draws_of_vacant found vacant
      refine .inr (.inl ⟨drawn,r.parentIno,r.name,True,⟨dir,found⟩,?_,?_,?_⟩)
      · exact (resolve_of_dir found r.name).trans vacant
      · simp only [serve,made]
        exact madeDir_view host r dir placed s found (fresh drawn) kept
      · simp only [serve,made,madeDir,nextIno_editNlink]
  | unlink parent name =>
    rcases unlink_cases parent name s with ⟨status,failed⟩ | ⟨dir,child,inode,found,slot,alive,kind,gone⟩
    · exact .inl ⟨rfl,by simp only [serve,failed]; exact .refl s⟩
    · refine .inr (.inr (.inl ⟨rfl,parent,name,child,(resolve_of_dir found name).trans slot,?_,?_,?_⟩))
      · intro b
        simp [view,resolve,tableless_of_kind tidy alive kind]
      · simp only [serve,gone]
        exact unlinked_view tidy found alive kind
      · simp only [serve,gone]
        rfl
  | rmdir parent name =>
    rcases rmdir_cases parent name s with ⟨status,failed⟩ | ⟨dir,child,childDir,found,slot,owns,empty,other,gone⟩
    · exact .inl ⟨rfl,by simp only [serve,failed]; exact .refl s⟩
    · refine .inr (.inr (.inl ⟨rfl,parent,name,child,(resolve_of_dir found name).trans slot,?_,?_,?_⟩))
      · intro b
        exact (resolve_of_dir owns b).trans ((isEmpty_iff childDir).mp empty b)
      · simp only [serve,gone]
        exact removedDir_view found other
      · simp only [serve,gone,removedDir,nextIno_editNlink]
  | rename r => exact .inr (.inr (.inr ⟨r,rfl⟩))

end Dtmpfs
