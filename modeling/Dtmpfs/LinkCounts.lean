import Dtmpfs.Allocation
import Dtmpfs.NamespaceIntegrity

/-! Link counts of directories. `mkdir`, `rmdir` and `rename` keep the `nlink` of a parent
two above the number of its subdirectories, so that no saturating subtraction of theirs
saturates. -/
namespace Dtmpfs
open MetaService MetaState OrderedMap

namespace MetaState

/-- 1 for a directory. -/
def weight (s : MetaState) (i : InodeId) : Nat := if s.kindOf i = some .dir then 1 else 0

/-- How many entries of directory `i` point to directories. -/
def subdirs (s : MetaState) (i : InodeId) : Nat := (s.dirs[i]?.map (total s.weight)).getD 0

def nlinkOf (s : MetaState) (i : InodeId) : Option Nat := s.inodes[i]?.map (·.nlink)

/-- Directories have a link for each subdirectory beside their own two, files have one. -/
structure Linked (s : MetaState) : Prop where
  dirs : ∀ i n, s.kindOf i = some .dir → s.nlinkOf i = some n → n = 2 + s.subdirs i
  files : ∀ i n, s.kindOf i = some .file → s.nlinkOf i = some n → n = 1

end MetaState

/-- A change of a link count, with the value it is applied to. -/
inductive LinkEdit where
  | saturatingSub (nlink : Nat)
  | addOne (nlink : Nat)

/-- The subtraction does not saturate, the sum fits into 32 bits. -/
def LinkEdit.Exact : LinkEdit → Prop
  | .saturatingSub nlink => 0 < nlink
  | .addOne nlink => nlink + 1 < 2^32

namespace MetaService

def mkdirEdits (host : Host) (r : CreateReq) (s : MetaState) : List LinkEdit :=
  match s.dirs[r.parentIno]? with
  | none => []
  | some dir =>
    if dir.contains r.name then []
    else (((s.putInode s.nextIno (freshInode host r .dir s.nextIno)).nlinkOf r.parentIno).map .addOne).toList

def rmdirEdits (parentIno : InodeId) (name : String) (s : MetaState) : List LinkEdit :=
  match s.resolve parentIno name with
  | none => []
  | some child =>
    match s.dirs[child]? with
    | none => []
    | some childDir =>
      if childDir.isEmpty then
        ((({s with inodes := s.inodes.erase child} : MetaState).nlinkOf parentIno).map .saturatingSub).toList
      else []

/-- The part of `rename` that removes a directory at the destination. -/
def destinationEdits (r : RenameReq) (s : MetaState) : List LinkEdit :=
  match s.resolve r.dstParentIno r.dstName with
  | none => []
  | some dst =>
    match s.inodes[dst]? with
    | none => []
    | some inode =>
      if inode.kind = .dir ∧ s.dirs[dst]?.elim true (·.isEmpty) = true then
        ((s.nlinkOf r.dstParentIno).map .saturatingSub).toList
      else []

/-- The part of `rename` that moves a directory from parent to parent. -/
def crossingEdits (r : RenameReq) (src : InodeId) (s : MetaState) : List LinkEdit :=
  if (s.inodes[src]?.map (·.kind)) = some .dir ∧ r.srcParentIno ≠ r.dstParentIno then
    ((s.nlinkOf r.srcParentIno).map .saturatingSub).toList ++
      (((s.editNlink (· - 1) r.srcParentIno).nlinkOf r.dstParentIno).map .addOne).toList
  else []

def renameEdits (r : RenameReq) (s : MetaState) : List LinkEdit :=
  match s.resolve r.srcParentIno r.srcName with
  | none => []
  | some src =>
    destinationEdits r s ++
    match removeDestination r s with
    | (.error _,_) => []
    | (.ok _,s) =>
      match s.dirs[r.srcParentIno]? with
      | none => []
      | some dir =>
        let s := s.putDir r.srcParentIno (dir.erase r.srcName)
        match s.dirs[r.dstParentIno]? with
        | none => []
        | some dir => crossingEdits r src (s.putDir r.dstParentIno (dir.insert r.dstName src))

/-- The link counts a call changes. -/
def linkEdits (host : Host) (call : Call) (s : MetaState) : List LinkEdit :=
  match call with
  | .mkdir r => mkdirEdits host r s
  | .rmdir parentIno name => rmdirEdits parentIno name s
  | .rename r => renameEdits r s
  | _ => []

end MetaService

section Lookup

variable {s t : MetaState}

theorem subdirs_of_dir {i : InodeId} {dir : Map String InodeId} (found : s.dirs[i]? = some dir) :
    s.subdirs i = total s.weight dir := by
  simp only [subdirs,found,Option.map_some,Option.getD_some]

theorem weight_congr (kinds : ∀ i, t.kindOf i = s.kindOf i) : t.weight = s.weight := by
  funext i
  simp only [weight,kinds]

theorem subdirs_congr (kinds : ∀ i, t.kindOf i = s.kindOf i) (dirs : t.dirs = s.dirs) (i : InodeId) : t.subdirs i = s.subdirs i := by
  simp only [subdirs,dirs,weight_congr kinds]

theorem subdirs_putDir (p i : InodeId) (dir : Map String InodeId) :
    (s.putDir p dir).subdirs i = if p = i then total s.weight dir else s.subdirs i := by
  simp only [subdirs,putDir,get_insert]
  split <;> rfl

theorem nlinkOf_editNlink (change : Nat → Nat) (j i : InodeId) :
    (s.editNlink change j).nlinkOf i = if j = i then (s.nlinkOf i).map change else s.nlinkOf i := by
  unfold editNlink
  split
  next inode found =>
    simp only [nlinkOf,putInode,get_insert]
    split
    next same =>
      subst same
      rw [found]
      rfl
    next => rfl
  next missing =>
    split
    next same =>
      subst same
      simp only [nlinkOf,missing,Option.map_none]
    next => rfl

theorem subdirs_editNlink (change : Nat → Nat) (j i : InodeId) : (s.editNlink change j).subdirs i = s.subdirs i :=
  subdirs_congr (kindOf_editNlink s change j) (dirs_editNlink s change j) i

theorem MetaState.Linked.quiet (linked : s.Linked) (kinds : ∀ i, t.kindOf i = s.kindOf i) (dirs : t.dirs = s.dirs)
    (links : ∀ i, t.nlinkOf i = s.nlinkOf i) : t.Linked := by
  constructor
  · intro i n kind link
    rw [subdirs_congr kinds dirs]
    exact linked.dirs i n (kinds i ▸ kind) (links i ▸ link)
  · intro i n kind link
    exact linked.files i n (kinds i ▸ kind) (links i ▸ link)

end Lookup

theorem total_elsewhere {s t : MetaState} {x : InodeId} (kinds : ∀ i, i ≠ x → t.kindOf i = s.kindOf i) {dir : Map String InodeId}
    (absent : ∀ n : String, dir[n]? ≠ some x) : total t.weight dir = total s.weight dir := by
  apply total_congr
  intro n i found
  have other : i ≠ x := fun same => absent n (same ▸ found)
  simp only [weight,kinds i other]

/-- Inode `x` has been put under the vacant slot `(p, n)`. -/
structure Attached (s t : MetaState) (p : InodeId) (n : String) (dir : Map String InodeId) (x : InodeId) (kind : InodeKind) : Prop where
  kinds : ∀ i, t.kindOf i = if x = i then some kind else s.kindOf i
  dirs : ∀ i, i ≠ x → t.dirs[i]? = if p = i then some (dir.insert n x) else s.dirs[i]?
  table : t.subdirs x = 0
  links : ∀ i, i ≠ x → t.nlinkOf i = if p = i then (s.nlinkOf i).map (· + t.weight x) else s.nlinkOf i
  link : t.nlinkOf x = some (if kind = .dir then 2 else 1)

/-- Inode `x` has been taken away from slot `(p, n)`. -/
structure Detached (s t : MetaState) (p : InodeId) (n : String) (dir : Map String InodeId) (x : InodeId) : Prop where
  kinds : ∀ i, t.kindOf i = if x = i then none else s.kindOf i
  dirs : ∀ i, i ≠ x → t.dirs[i]? = if p = i then some (dir.erase n) else s.dirs[i]?
  links : ∀ i, i ≠ x → t.nlinkOf i = if p = i then (s.nlinkOf i).map (· - s.weight x) else s.nlinkOf i

section Steps

variable {s t : MetaState} {p x : InodeId} {n : String} {dir : Map String InodeId}

theorem subdirs_elsewhere {i : InodeId} (kinds : ∀ j, j ≠ x → t.kindOf j = s.kindOf j) (dirs : t.dirs[i]? = s.dirs[i]?)
    (absent : ∀ m, s.resolve i m ≠ some x) : t.subdirs i = s.subdirs i := by
  simp only [subdirs,dirs]
  cases owns : s.dirs[i]? with
  | none => rfl
  | some table =>
    rw [Option.map_some,Option.map_some,total_elsewhere kinds]
    intro m entry
    exact absent m ((resolve_of_dir owns m).trans entry)

theorem Attached.counted {kind : InodeKind} (attached : Attached s t p n dir x kind) (found : s.dirs[p]? = some dir)
    (vacant : dir[n]? = none) (unused : s.view.Unused ROOT x) (i : InodeId) (other : i ≠ x) :
    t.subdirs i = s.subdirs i + if p = i then t.weight x else 0 := by
  have kinds (j : InodeId) (apart : j ≠ x) : t.kindOf j = s.kindOf j := by
    rw [attached.kinds,if_neg (Ne.symm apart)]
  have tables := attached.dirs i other
  split at tables
  next same =>
    subst same
    have absent (m : String) : dir[m]? ≠ some x := fun entry => unused.untargeted p m ((resolve_of_dir found m).trans entry)
    rw [subdirs_of_dir tables,total_insert_vacant _ vacant,total_elsewhere kinds absent,subdirs_of_dir found,if_pos rfl]
    exact Nat.add_comm _ _
  next apart =>
    rw [subdirs_elsewhere kinds tables (unused.untargeted i),if_neg apart]
    rfl

theorem Attached.linked {kind : InodeKind} (attached : Attached s t p n dir x kind) (linked : s.Linked) (found : s.dirs[p]? = some dir)
    (vacant : dir[n]? = none) (unused : s.view.Unused ROOT x) (folder : s.kindOf p = some .dir) : t.Linked := by
  constructor
  · intro i m isDir link
    rw [attached.kinds] at isDir
    split at isDir
    next same =>
      subst same
      cases isDir
      rw [attached.link] at link
      cases link
      rw [attached.table]
      rfl
    next other =>
      have counted := attached.counted found vacant unused i (Ne.symm other)
      rw [attached.links i (Ne.symm other)] at link
      split at link
      next same =>
        rw [if_pos same] at counted
        obtain ⟨old,before,rfl⟩ := Option.map_eq_some_iff.mp link
        have exact := linked.dirs i old isDir before
        omega
      next apart =>
        rw [if_neg apart] at counted
        rw [counted]
        exact linked.dirs i m isDir link
  · intro i m isFile link
    rw [attached.kinds] at isFile
    split at isFile
    next same =>
      subst same
      cases isFile
      rw [attached.link] at link
      cases link
      rfl
    next other =>
      rw [attached.links i (Ne.symm other)] at link
      split at link
      next same =>
        rw [← same,folder] at isFile
        cases isFile
      next => exact linked.files i m isFile link

theorem Detached.counted (detached : Detached s t p n dir x) (found : s.dirs[p]? = some dir) (slot : dir[n]? = some x)
    (slots : s.view.Slots ROOT) (i : InodeId) (other : i ≠ x) :
    t.subdirs i + (if p = i then s.weight x else 0) = s.subdirs i := by
  have kinds (j : InodeId) (apart : j ≠ x) : t.kindOf j = s.kindOf j := by
    rw [detached.kinds,if_neg (Ne.symm apart)]
  have named : s.resolve p n = some x := (resolve_of_dir found n).trans slot
  have tables := detached.dirs i other
  split at tables
  next same =>
    subst same
    have absent (m : String) : (dir.erase n)[m]? ≠ some x := by
      intro entry
      rw [get_erase] at entry
      split at entry
      next => cases entry
      next apart => exact apart (slots.unique p m p n x ((resolve_of_dir found m).trans entry) named).2.symm
    have erased := total_erase s.weight dir n
    rw [slot,Option.map_some,Option.getD_some] at erased
    rw [subdirs_of_dir tables,total_elsewhere kinds absent,subdirs_of_dir found,if_pos rfl]
    exact erased
  next apart =>
    rw [subdirs_elsewhere kinds tables,if_neg apart]
    · rfl
    · intro m entry
      exact apart (slots.unique i m p n x entry named).1.symm

theorem Detached.linked (detached : Detached s t p n dir x) (linked : s.Linked) (found : s.dirs[p]? = some dir)
    (slot : dir[n]? = some x) (slots : s.view.Slots ROOT) (folder : s.kindOf p = some .dir) : t.Linked := by
  constructor
  · intro i m isDir link
    rw [detached.kinds] at isDir
    split at isDir
    next => cases isDir
    next other =>
      have counted := detached.counted found slot slots i (Ne.symm other)
      rw [detached.links i (Ne.symm other)] at link
      split at link
      next same =>
        rw [if_pos same] at counted
        obtain ⟨old,before,rfl⟩ := Option.map_eq_some_iff.mp link
        have exact := linked.dirs i old isDir before
        omega
      next apart =>
        rw [if_neg apart] at counted
        have exact := linked.dirs i m isDir link
        omega
  · intro i m isFile link
    rw [detached.kinds] at isFile
    split at isFile
    next => cases isFile
    next other =>
      rw [detached.links i (Ne.symm other)] at link
      split at link
      next same =>
        rw [← same,folder] at isFile
        cases isFile
      next => exact linked.files i m isFile link

theorem nlinkOf_eraseInode (s : MetaState) (x i : InodeId) :
    ({s with inodes := s.inodes.erase x} : MetaState).nlinkOf i = if x = i then none else s.nlinkOf i := by
  simp only [nlinkOf,get_erase]
  split <;> rfl

theorem created_attached (host : Host) (r : CreateReq) (found : s.dirs[r.parentIno]? = some dir) (unused : s.view.Unused ROOT s.nextIno) :
    Attached s (s.created host r dir) r.parentIno r.name dir s.nextIno .file := by
  have other : r.parentIno ≠ s.nextIno := fun same => unused.tableless (same ▸ ⟨dir,found⟩)
  have kinds (i : InodeId) : (s.created host r dir).kindOf i = if s.nextIno = i then some .file else s.kindOf i := by
    simp only [kindOf,created,get_insert]
    split <;> rfl
  refine ⟨kinds,?_,?_,?_,?_⟩
  · intro i _
    simp only [created,get_insert]
  · have missing : s.dirs[s.nextIno]? = none := by
      cases owns : s.dirs[s.nextIno]? with
      | none => rfl
      | some table => exact absurd ⟨table,owns⟩ unused.tableless
    simp only [subdirs,created,get_insert,if_neg other,missing,Option.map_none,Option.getD_none]
  · intro i apart
    have light : (s.created host r dir).weight s.nextIno = 0 := by
      simp only [weight,kinds,if_true]
      rfl
    rw [light]
    simp only [nlinkOf,created,get_insert,if_neg (Ne.symm apart)]
    split
    next => cases s.inodes[i]? <;> rfl
    next => rfl
  · simp only [nlinkOf,created,get_insert,if_true,Option.map_some,freshInode]

theorem madeDir_attached (host : Host) (r : CreateReq) (found : s.dirs[r.parentIno]? = some dir) (unused : s.view.Unused ROOT s.nextIno) :
    Attached s (s.madeDir host r dir) r.parentIno r.name dir s.nextIno .dir := by
  have other : r.parentIno ≠ s.nextIno := fun same => unused.tableless (same ▸ ⟨dir,found⟩)
  have kinds (i : InodeId) : (s.madeDir host r dir).kindOf i = if s.nextIno = i then some .dir else s.kindOf i := by
    simp only [madeDir,kindOf_editNlink]
    simp only [kindOf,get_insert]
    split <;> rfl
  refine ⟨kinds,?_,?_,?_,?_⟩
  · intro i apart
    simp only [madeDir,dirs_editNlink,get_insert,if_neg (Ne.symm apart)]
  · simp only [subdirs,madeDir,dirs_editNlink,get_insert,if_neg other,if_true,Option.map_some,total_empty,Option.getD_some]
  · intro i apart
    have heavy : (s.madeDir host r dir).weight s.nextIno = 1 := by
      simp only [weight,kinds,if_true]
    rw [heavy]
    simp only [madeDir,nlinkOf_editNlink]
    simp only [nlinkOf,get_insert,if_neg (Ne.symm apart)]
  · simp only [madeDir,nlinkOf_editNlink,if_neg other]
    simp only [nlinkOf,get_insert,if_true,Option.map_some,freshInode]

theorem unlinked_detached {inode : Inode} (alive : s.inodes[x]? = some inode) (kind : inode.kind ≠ .dir) :
    Detached s (s.unlinked p n dir x) p n dir x := by
  refine ⟨?_,?_,?_⟩
  · exact kindOf_eraseInode s x
  · intro i _
    simp only [unlinked,get_insert]
  · intro i apart
    have light : s.weight x = 0 := by
      simp only [weight,kindOf_some alive,Option.some.injEq,if_neg kind]
    have same : (s.unlinked p n dir x).nlinkOf i = s.nlinkOf i := by
      exact (nlinkOf_eraseInode s x i).trans (if_neg (Ne.symm apart))
    rw [light,same]
    split
    next => cases s.nlinkOf i <;> rfl
    next => rfl

theorem removedDir_detached (folder : s.kindOf x = some .dir) : Detached s (s.removedDir p n dir x) p n dir x := by
  refine ⟨?_,?_,?_⟩
  · intro i
    simp only [removedDir,kindOf_editNlink]
    exact kindOf_eraseInode s x i
  · intro i apart
    simp only [removedDir,dirs_editNlink,get_insert,get_erase,if_neg (Ne.symm apart)]
  · intro i apart
    have heavy : s.weight x = 1 := by simp only [weight,folder,if_true]
    rw [heavy]
    simp only [removedDir,nlinkOf_editNlink]
    simp only [nlinkOf,get_erase,if_neg (Ne.symm apart)]

theorem replacedDir_detached (folder : s.kindOf x = some .dir) : Detached s (s.replacedDir p n dir x) p n dir x := by
  refine ⟨?_,?_,?_⟩
  · intro i
    simp only [replacedDir,kindOf_putDir,kindOf_eraseInode,kindOf_editNlink]
    rfl
  · intro i apart
    simp only [replacedDir,putDir,dirs_editNlink,get_insert,get_erase,if_neg (Ne.symm apart)]
  · intro i apart
    have heavy : s.weight x = 1 := by simp only [weight,folder,if_true]
    have erased := nlinkOf_eraseInode (MetaState.editNlink (· - 1) p {s with dirs := s.dirs.erase x}) x i
    rw [if_neg (Ne.symm apart),nlinkOf_editNlink] at erased
    rw [heavy]
    exact erased

end Steps

section Rename

variable {u : MetaState} {r : RenameReq} {src : InodeId} {srcDir dstDir : Map String InodeId}

/-- The tables after the slot has been moved: the source parent counts `src` no longer,
the destination's parent counts it from now on. -/
theorem subdirs_moved (owns : u.dirs[r.srcParentIno]? = some srcDir) (named : srcDir[r.srcName]? = some src)
    (target : (u.putDir r.srcParentIno (srcDir.erase r.srcName)).dirs[r.dstParentIno]? = some dstDir)
    (vacant : dstDir[r.dstName]? = none) (i : InodeId) :
    ((u.putDir r.srcParentIno (srcDir.erase r.srcName)).putDir r.dstParentIno (dstDir.insert r.dstName src)).subdirs i +
        (if r.srcParentIno = i then u.weight src else 0) =
      u.subdirs i + (if r.dstParentIno = i then u.weight src else 0) := by
  have cut (j : InodeId) : (u.putDir r.srcParentIno (srcDir.erase r.srcName)).subdirs j +
      (if r.srcParentIno = j then u.weight src else 0) = u.subdirs j := by
    rw [subdirs_putDir]
    split
    next same =>
      have erased := total_erase u.weight srcDir r.srcName
      rw [named,Option.map_some,Option.getD_some] at erased
      rw [← same,subdirs_of_dir owns]
      exact erased
    next => rfl
  have joined := cut i
  rw [subdirs_putDir]
  split
  next same =>
    subst same
    rw [subdirs_of_dir target] at joined
    rw [total_insert_vacant _ vacant,← joined]
    have light : (u.putDir r.srcParentIno (srcDir.erase r.srcName)).weight = u.weight := rfl
    rw [light]
    omega
  next => exact joined

theorem adjustLinks_subdirs (s : MetaState) (i : InodeId) : (adjustLinks r src s).subdirs i = s.subdirs i := by
  unfold adjustLinks
  split
  next => rw [subdirs_editNlink,subdirs_editNlink]
  next => rfl

/-- `rename` passes the link of a moved directory on from one parent to the other. -/
theorem moved_linked (linked : u.Linked) (owns : u.dirs[r.srcParentIno]? = some srcDir) (named : srcDir[r.srcName]? = some src)
    (target : (u.putDir r.srcParentIno (srcDir.erase r.srcName)).dirs[r.dstParentIno]? = some dstDir)
    (vacant : dstDir[r.dstName]? = none) (source : u.kindOf r.srcParentIno = some .dir) (destination : u.kindOf r.dstParentIno = some .dir) :
    (adjustLinks r src ((u.putDir r.srcParentIno (srcDir.erase r.srcName)).putDir r.dstParentIno (dstDir.insert r.dstName src))).Linked := by
  have moved := subdirs_moved owns named target vacant
  constructor
  · intro i m isDir link
    have count := moved i
    rw [adjustLinks_kind] at isDir
    rw [adjustLinks_subdirs]
    unfold adjustLinks at link
    split at link
    next crossing =>
      obtain ⟨heavy,apart⟩ := crossing
      have one : u.weight src = 1 := if_pos heavy
      rw [one] at count
      rw [nlinkOf_editNlink,nlinkOf_editNlink] at link
      by_cases atSource : r.srcParentIno = i
      · have away : ¬ r.dstParentIno = i := fun same => apart (atSource.trans same.symm)
        rw [if_pos atSource,if_neg away] at count
        rw [if_neg away,if_pos atSource] at link
        obtain ⟨old,before,rfl⟩ := Option.map_eq_some_iff.mp link
        have exact := linked.dirs i old isDir before
        omega
      · rw [if_neg atSource] at count
        rw [if_neg atSource] at link
        split at link
        next atDestination =>
          rw [if_pos atDestination] at count
          obtain ⟨old,before,rfl⟩ := Option.map_eq_some_iff.mp link
          have exact := linked.dirs i old isDir before
          omega
        next away =>
          rw [if_neg away] at count
          have exact := linked.dirs i m isDir link
          omega
    next staying =>
      -- either nothing that counts has moved, or both slots lie in one table
      have balanced : (if r.srcParentIno = i then u.weight src else 0) = if r.dstParentIno = i then u.weight src else 0 := by
        by_cases heavy : u.kindOf src = some .dir
        · have same : r.srcParentIno = r.dstParentIno := by
            by_contra apart
            exact staying ⟨heavy,apart⟩
          rw [same]
        · have light : u.weight src = 0 := if_neg heavy
          simp only [light,ite_self]
      have exact := linked.dirs i m isDir link
      omega
  · intro i m isFile link
    rw [adjustLinks_kind] at isFile
    have atSource : ¬ r.srcParentIno = i := by
      intro same
      rw [← same] at isFile
      rw [kindOf_putDir,kindOf_putDir,source] at isFile
      cases isFile
    have atDestination : ¬ r.dstParentIno = i := by
      intro same
      rw [← same] at isFile
      rw [kindOf_putDir,kindOf_putDir,destination] at isFile
      cases isFile
    unfold adjustLinks at link
    split at link
    next =>
      rw [nlinkOf_editNlink,nlinkOf_editNlink,if_neg atDestination,if_neg atSource] at link
      exact linked.files i m isFile link
    next => exact linked.files i m isFile link

end Rename

section Serving

variable {s : MetaState}

theorem Detached.resolve {t : MetaState} {p x : InodeId} {n : String} {dir : Map String InodeId} (detached : Detached s t p n dir x)
    (found : s.dirs[p]? = some dir) {i : InodeId} (other : i ≠ x) (m : String) :
    t.resolve i m = if p = i ∧ n = m then none else s.resolve i m := by
  have tables := detached.dirs i other
  split at tables
  next same =>
    subst same
    rw [resolve_of_dir tables,resolve_of_dir found,get_erase]
    simp
  next apart =>
    rw [if_neg (fun here => apart here.1)]
    simp only [MetaState.resolve,tables]

/-- What `rename` finds after the removal of its destination. -/
structure Ready (u : MetaState) (r : RenameReq) (src : InodeId) : Prop where
  linked : u.Linked
  source : u.kindOf r.srcParentIno = some .dir
  destination : u.kindOf r.dstParentIno = some .dir
  named : u.resolve r.srcParentIno r.srcName = some src
  vacant : u.resolve r.dstParentIno r.dstName = none

theorem removeDestination_ready (sound : Sound s) (linked : s.Linked) {r : RenameReq} (proper : ProperRename (.rename r) s)
    {src : InodeId} (named : s.resolve r.srcParentIno r.srcName = some src)
    {replaced : Option (InodeId × List (BlockIdx × BlockPlacement))} {cleared : MetaState}
    (removed : removeDestination r s = (.ok replaced,cleared)) : Ready cleared r src := by
  obtain ⟨apart,target⟩ := proper
  have destination : s.kindOf r.dstParentIno = some .dir := (folder_iff s _).mpr target
  obtain ⟨srcDir,owns,slot⟩ := dir_of_resolve named
  have source : s.kindOf r.srcParentIno = some .dir := (sound.names.tables _).mp ⟨srcDir,owns⟩
  -- a destination that goes away is the parent of neither slot
  have ready {dir : Map String InodeId} {dst : InodeId} (found : s.dirs[r.dstParentIno]? = some dir) (entry : dir[r.dstName]? = some dst)
      (detached : Detached s cleared r.dstParentIno r.dstName dir dst) (notSource : r.srcParentIno ≠ dst)
      (notDestination : r.dstParentIno ≠ dst) : Ready cleared r src := by
    have slots : ¬ (r.dstParentIno = r.srcParentIno ∧ r.dstName = r.srcName) := by
      intro same
      exact apart (Prod.ext same.1.symm same.2.symm)
    refine ⟨detached.linked linked found entry sound.names.toSlots destination,?_,?_,?_,?_⟩
    · rw [detached.kinds,if_neg (Ne.symm notSource),source]
    · rw [detached.kinds,if_neg (Ne.symm notDestination),destination]
    · rw [detached.resolve found notSource,if_neg slots,named]
    · rw [detached.resolve found notDestination,if_pos ⟨rfl,rfl⟩]
  rcases removeDestination_cases r s with ⟨_,failed⟩ | ⟨vacant,same⟩ |
    ⟨dir,dst,inode,found,entry,alive,⟨kind,result⟩ | ⟨kind,empty,other,result⟩⟩
  · rw [failed] at removed
    cases removed
  · rw [same] at removed
    cases removed
    exact ⟨linked,source,destination,named,vacant⟩
  · rw [result] at removed
    cases removed
    have notFolder (i : InodeId) (folder : s.kindOf i = some .dir) : i ≠ dst := by
      intro same
      rw [same,kindOf_some alive] at folder
      exact kind (Option.some.inj folder)
    exact ready found entry (unlinked_detached alive kind) (notFolder _ source) (notFolder _ destination)
  · rw [result] at removed
    cases removed
    have folder : s.kindOf dst = some .dir := by rw [kindOf_some alive,kind]
    refine ready found entry (replacedDir_detached folder) ?_ (Ne.symm other)
    intro same
    rw [(isEmpty_iff srcDir).mp (empty srcDir (same ▸ owns))] at slot
    cases slot

theorem rename_linked (sound : Sound s) (linked : s.Linked) {r : RenameReq} (proper : ProperRename (.rename r) s) :
    (rename r s).state.Linked := by
  rcases rename_cases r s with ⟨_,failed⟩ | ⟨_,_,_,_,missing,_⟩ | ⟨src,replaced,cleared,srcDir,dstDir,named,removed,owns,target,_,state⟩
  · rw [failed]
    exact linked
  · obtain ⟨table,owns⟩ := (sound.names.tables r.dstParentIno).mpr ((folder_iff s _).mpr proper.2)
    rw [missing] at owns
    cases owns
  · have ready := removeDestination_ready sound linked proper named removed
    have slot : srcDir[r.srcName]? = some src := (resolve_of_dir owns r.srcName).symm.trans ready.named
    have vacant : dstDir[r.dstName]? = none := by
      have entry := resolve_putDir cleared r.srcParentIno r.dstParentIno (srcDir.erase r.srcName) r.dstName
      rw [resolve_of_dir target] at entry
      rw [entry]
      split
      next same =>
        have free := ready.vacant
        rw [← same,resolve_of_dir owns] at free
        rw [get_erase,free,ite_self]
      next => exact ready.vacant
    rw [state]
    exact moved_linked ready.linked owns slot target vacant ready.source ready.destination

theorem putInode_links {i : InodeId} {old new : Inode} (found : s.inodes[i]? = some old) (links : new.nlink = old.nlink) (j : InodeId) :
    (s.putInode i new).nlinkOf j = s.nlinkOf j := by
  simp only [nlinkOf,putInode,get_insert]
  split
  next same =>
    subst same
    rw [found,Option.map_some,Option.map_some,links]
  next => rfl

theorem setAttr_links (host : Host) (r : SetAttrReq) (i : InodeId) : (setAttr host r s).state.nlinkOf i = s.nlinkOf i := by
  cases found : s.inodes[r.ino]? with
  | none => simp only [setAttr,found]
  | some old =>
    obtain ⟨new,state,_,_,links⟩ := setAttr_stores host found
    rw [state]
    exact putInode_links found links i

theorem close_links (host : Host) (r : CloseReq) (i : InodeId) : (close host r s).state.nlinkOf i = s.nlinkOf i := by
  rcases close_cases host r s with ⟨_,result⟩ | ⟨handle,_,⟨_,result⟩ | ⟨inode,found,⟨_,result⟩ | ⟨_,_,requested,result⟩⟩⟩
  · rw [result]
  · rw [result]
    rfl
  · rw [result]
    rfl
  · rw [result]
    have kept : (s.dropHandle r.fh).inodes[handle.ino]? = some inode := found
    have links : (publishedInode host r requested inode).nlink = inode.nlink := rfl
    exact putInode_links kept links i

theorem allocateBlocks_links (host : Host) (ino : InodeId) (idxs : List BlockIdx) (i : InodeId) :
    (MetaService.allocateBlocks host ino idxs s).state.nlinkOf i = s.nlinkOf i := by
  rcases allocateBlocks_cases host ino idxs s with ⟨_,result⟩ | ⟨inode,blocks,_,found,result,_⟩
  · rw [result]
  · rw [result]
    have links : ({inode with blocks := blocks} : Inode).nlink = inode.nlink := rfl
    exact putInode_links found links i

theorem serve_linked (sound : Sound s) (linked : s.Linked) (host : Host) (call : Call) (proper : ProperRename call s) :
    (serve host call s).Linked := by
  have folder {p : InodeId} {dir : Map String InodeId} (found : s.dirs[p]? = some dir) : s.kindOf p = some .dir :=
    (sound.names.tables p).mp ⟨dir,found⟩
  cases call with
  | lookup parent name => exact linked
  | getAttr i => exact linked
  | readDir r => exact linked
  | listNodes => exact linked
  | heartbeatNode instant r => exact linked.quiet (fun _ => rfl) rfl (fun _ => rfl)
  | watcherTick now deadAfter => exact linked.quiet (fun _ => rfl) rfl (fun _ => rfl)
  | openInsert snapshot => exact linked.quiet (fun _ => rfl) rfl (fun _ => rfl)
  | «open» r =>
    simp only [serve]
    split
    next => exact linked.quiet (fun _ => rfl) rfl (fun _ => rfl)
    next => exact linked
  | setAttr r =>
    have names := setAttr_names host r s
    exact linked.quiet names.kinds names.dirs (setAttr_links host r)
  | close r =>
    have names := close_names host r s
    exact linked.quiet names.kinds names.dirs (close_links host r)
  | allocateBlocks i idxs =>
    have names := allocateBlocks_names host i idxs s
    exact linked.quiet names.kinds names.dirs (allocateBlocks_links host i idxs)
  | create r =>
    rcases create_cases host r s with ⟨_,_,failed⟩ | ⟨dir,found,vacant,made⟩
    · simp only [serve,failed]
      exact linked
    · simp only [serve,made]
      exact (created_attached host r found sound.unused).linked linked found vacant sound.unused (folder found)
  | mkdir r =>
    rcases mkdir_cases host r s with ⟨_,_,failed⟩ | ⟨dir,placed,found,vacant,kept,made⟩
    · simp only [serve,failed]
      exact linked
    · have other : s.nextIno ≠ r.parentIno := fun same => sound.unused.tableless (same ▸ ⟨dir,found⟩)
      rw [get_insert,if_neg other,found] at kept
      cases kept
      simp only [serve,made]
      exact (madeDir_attached host r found sound.unused).linked linked found vacant sound.unused (folder found)
  | unlink parent name =>
    rcases unlink_cases parent name s with ⟨_,failed⟩ | ⟨dir,child,inode,found,slot,alive,kind,gone⟩
    · simp only [serve,failed]
      exact linked
    · simp only [serve,gone]
      exact (unlinked_detached alive kind).linked linked found slot sound.names.toSlots (folder found)
  | rmdir parent name =>
    rcases rmdir_cases parent name s with ⟨_,failed⟩ | ⟨dir,child,childDir,found,slot,owns,_,_,gone⟩
    · simp only [serve,failed]
      exact linked
    · simp only [serve,gone]
      exact (removedDir_detached (folder owns)).linked linked found slot sound.names.toSlots (folder found)
  | rename r => exact rename_linked sound linked proper

/-- The count a directory has before it loses a link. -/
theorem MetaState.Linked.positive (linked : s.Linked) {i : InodeId} {n : Nat} (folder : s.kindOf i = some .dir) (link : s.nlinkOf i = some n) :
    0 < n := by
  have exact := linked.dirs i n folder link
  omega

/-- A link that a directory with few subdirectories has gained still fits. -/
theorem MetaState.Linked.fits (linked : s.Linked) (few : ∀ i, s.subdirs i < 2^32 - 2) {i : InodeId} {n : Nat} (folder : s.kindOf i = some .dir)
    (link : s.nlinkOf i = some (n + 1)) : n + 1 < 2^32 := by
  have exact := linked.dirs i (n + 1) folder link
  have bound := few i
  omega

theorem mem_toList_map {change : Nat → LinkEdit} {value : Option Nat} {edit : LinkEdit} (member : edit ∈ (value.map change).toList) :
    ∃ n, value = some n ∧ edit = change n := by
  cases value with
  | none => cases member
  | some n => exact ⟨n,rfl,by simpa using member⟩

theorem mkdirEdits_exact (sound : Sound s) (linked : s.Linked) {host : Host} {r : CreateReq}
    (few : ∀ i, (mkdir host r s).state.subdirs i < 2^32 - 2) : ∀ edit ∈ mkdirEdits host r s, edit.Exact := by
  have after := serve_linked sound linked host (.mkdir r) trivial
  simp only [serve] at after
  rcases mkdir_cases host r s with ⟨taken,_⟩ | ⟨dir,placed,found,vacant,kept,made⟩
  · intro edit member
    unfold mkdirEdits at member
    split at member
    next => cases member
    next dir found =>
      rw [if_pos (taken dir found)] at member
      cases member
  · have other : s.nextIno ≠ r.parentIno := fun same => sound.unused.tableless (same ▸ ⟨dir,found⟩)
    rw [get_insert,if_neg other,found] at kept
    cases kept
    rw [made] at after few
    intro edit member
    unfold mkdirEdits at member
    rw [found] at member
    dsimp only at member
    split at member
    next => cases member
    next =>
      obtain ⟨n,before,rfl⟩ := mem_toList_map member
      have attached := madeDir_attached host r found sound.unused
      have folder : (s.madeDir host r dir).kindOf r.parentIno = some .dir := by
        rw [attached.kinds,if_neg other]
        exact (sound.names.tables _).mp ⟨dir,found⟩
      refine after.fits few folder ?_
      unfold madeDir
      rw [nlinkOf_editNlink,if_pos rfl]
      exact congrArg (Option.map (· + 1)) before

theorem rmdirEdits_exact (sound : Sound s) (linked : s.Linked) (parent : InodeId) (name : String) :
    ∀ edit ∈ rmdirEdits parent name s, edit.Exact := by
  intro edit member
  unfold rmdirEdits at member
  split at member
  next => cases member
  next child named =>
    split at member
    next => cases member
    next =>
      split at member
      next =>
        obtain ⟨n,before,rfl⟩ := mem_toList_map member
        rw [nlinkOf_eraseInode] at before
        split at before
        next => cases before
        next =>
          obtain ⟨dir,found,_⟩ := dir_of_resolve named
          exact linked.positive ((sound.names.tables parent).mp ⟨dir,found⟩) before
      next => cases member

theorem renameEdits_exact (sound : Sound s) (linked : s.Linked) {r : RenameReq} (proper : ProperRename (.rename r) s)
    (few : ∀ i, (rename r s).state.subdirs i < 2^32 - 2) : ∀ edit ∈ renameEdits r s, edit.Exact := by
  have after := rename_linked sound linked proper
  intro edit member
  unfold renameEdits at member
  split at member
  next => cases member
  next src named =>
    rcases List.mem_append.mp member with first | second
    · unfold destinationEdits at first
      split at first
      next => cases first
      next =>
        split at first
        next => cases first
        next =>
          split at first
          next =>
            obtain ⟨n,before,rfl⟩ := mem_toList_map first
            exact linked.positive ((folder_iff s _).mpr proper.2) before
          next => cases first
    · split at second
      next => cases second
      next replaced cleared removed =>
        split at second
        next => cases second
        next srcDir owns =>
          dsimp only at second
          split at second
          next => cases second
          next dstDir target =>
            have ready := removeDestination_ready sound linked proper named removed
            have state : (rename r s).state = adjustLinks r src ((cleared.putDir r.srcParentIno
                (srcDir.erase r.srcName)).putDir r.dstParentIno (dstDir.insert r.dstName src)) := by
              unfold rename
              simp only [named,removed,owns,target]
            unfold crossingEdits at second
            split at second
            next crossing =>
              rcases List.mem_append.mp second with lost | gained
              · obtain ⟨n,before,rfl⟩ := mem_toList_map lost
                exact ready.linked.positive ready.source before
              · obtain ⟨n,before,rfl⟩ := mem_toList_map gained
                have folder : (rename r s).state.kindOf r.dstParentIno = some .dir := by
                  rw [state,adjustLinks_kind]
                  exact ready.destination
                refine after.fits few folder ?_
                rw [state]
                unfold adjustLinks
                rw [if_pos crossing,nlinkOf_editNlink,if_pos rfl,before]
                rfl
            next => cases second

theorem linkEdits_exact (sound : Sound s) (linked : s.Linked) (host : Host) (call : Call) (proper : ProperRename call s)
    (few : ∀ i, (serve host call s).subdirs i < 2^32 - 2) : ∀ edit ∈ linkEdits host call s, edit.Exact := by
  cases call with
  | mkdir r => exact mkdirEdits_exact sound linked few
  | rmdir parent name => exact rmdirEdits_exact sound linked parent name
  | rename r => exact renameEdits_exact sound linked proper few
  | _ => nofun

end Serving

theorem linked_new (now : SystemTime) (replicationFactor : Nat) : (new now replicationFactor).Linked := by
  have only (i : InodeId) (inode : Inode) (found : (new now replicationFactor).inodes[i]? = some inode) :
      i = ROOT ∧ inode = rootInode now := by
    simp only [new,get_insert] at found
    split at found
    next same =>
      cases found
      exact ⟨same.symm,rfl⟩
    next => simp at found
  constructor
  · intro i n _ link
    obtain ⟨inode,found,rfl⟩ := Option.map_eq_some_iff.mp link
    obtain ⟨rfl,rfl⟩ := only i inode found
    simp only [subdirs,new,get_insert,if_true,Option.map_some,total_empty,Option.getD_some]
    rfl
  · intro i n isFile link
    obtain ⟨inode,found,_⟩ := Option.map_eq_some_iff.mp link
    obtain ⟨rfl,rfl⟩ := only i inode found
    rw [kindOf_some found] at isFile
    cases isFile

theorem run_linked (calls : List (Host × Call)) (s : MetaState) (sound : Sound s) (linked : s.Linked)
    (proper : Along ProperRename calls s) (room : s.nextIno + drawn calls s < 2^64) : (run calls s).Linked := by
  induction calls generalizing s with
  | nil => exact linked
  | cons head rest ih =>
    obtain ⟨host,call⟩ := head
    have drew : drawn ((host,call)::rest) s = (draws call s).toNat + drawn rest (serve host call s) := rfl
    have step := serve_sound sound host call proper.1 (by omega)
    exact ih (serve host call s) step.1 (serve_linked sound linked host call proper.1) proper.2 (by omega)

/-- In a run of proper renames whose directories stay below `2^32 - 2` subdirectories and
whose inode counter does not wrap, link counts are exact, no subtraction saturates and no
sum overflows. -/
theorem run_links_exact (now : SystemTime) (replicationFactor : Nat) (calls : List (Host × Call))
    (proper : Along ProperRename calls (new now replicationFactor)) (room : drawn calls (new now replicationFactor) < 2^64 - 2)
    (few : ∀ before after, calls = before ++ after → ∀ i, (run before (new now replicationFactor)).subdirs i < 2^32 - 2) :
    (∀ before after, calls = before ++ after → (run before (new now replicationFactor)).Linked) ∧
      ∀ before host call after, calls = before ++ (host,call)::after →
        ∀ edit ∈ linkEdits host call (run before (new now replicationFactor)), edit.Exact := by
  have start : (new now replicationFactor).nextIno = 2 := rfl
  have reached (before after : List (Host × Call)) (split : calls = before ++ after) :
      Sound (run before (new now replicationFactor)) ∧ (run before (new now replicationFactor)).Linked := by
    subst split
    have first := ((along_append before after _).mp proper).1
    rw [drawn_append] at room
    constructor
    · exact run_sound before _ (sound_new now replicationFactor) first (by omega)
    · exact run_linked before _ (sound_new now replicationFactor) (linked_new now replicationFactor) first (by omega)
  constructor
  · intro before after split
    exact (reached before after split).2
  · intro before host call after split
    obtain ⟨sound,linked⟩ := reached before ((host,call)::after) split
    have next := few (before ++ [(host,call)]) after (by rw [split,List.append_assoc,List.singleton_append])
    rw [run_append] at next
    subst split
    have here := ((along_append before ((host,call)::after) _).mp proper).2
    exact linkEdits_exact sound linked host call here.1 next

/-- Only the names `f` and `d` occur in the tables. -/
def TwoNames (tables : Map InodeId (Map String InodeId)) : Prop :=
  ∀ (p : InodeId) (dir : Map String InodeId) (n : String), tables[p]? = some dir → n ≠ "f" → n ≠ "d" → dir[n]? = none

namespace TwoNames

variable {tables : Map InodeId (Map String InodeId)} {p : InodeId} {dir : Map String InodeId} {n : String}

theorem insert (two : TwoNames tables) (free : ∀ m, m ≠ "f" → m ≠ "d" → dir[m]? = none) : TwoNames (tables.insert p dir) := by
  intro q table m found notF notD
  rw [get_insert] at found
  split at found
  next =>
    cases found
    exact free m notF notD
  next => exact two q table m found notF notD

theorem into {target : InodeId} (two : TwoNames tables) (free : ∀ m, m ≠ "f" → m ≠ "d" → dir[m]? = none) (name : n = "f" ∨ n = "d") :
    TwoNames (tables.insert p (dir.insert n target)) := by
  apply two.insert
  intro m notF notD
  have other : n ≠ m := by
    intro same
    subst same
    exact name.elim notF notD
  rw [get_insert,if_neg other]
  exact free m notF notD

theorem out (two : TwoNames tables) (found : tables[p]? = some dir) : TwoNames (tables.insert p (dir.erase n)) := by
  apply two.insert
  intro m notF notD
  rw [get_erase,two p dir m found notF notD,ite_self]

theorem few {s : MetaState} (two : TwoNames s.dirs) (i : InodeId) : s.subdirs i < 2^32 - 2 := by
  cases found : s.dirs[i]? with
  | none =>
    have none : s.subdirs i = 0 := by simp only [subdirs,found,Option.map_none,Option.getD_none]
    omega
  | some dir =>
    have light (m : String) : (dir[m]?.map s.weight).getD 0 ≤ 1 := by
      cases dir[m]? with
      | none => exact Nat.zero_le 1
      | some j =>
        simp only [Option.map_some,Option.getD_some,weight]
        split <;> decide
    have bare : (dir.erase "f").erase "d" = ∅ := by
      rw [← Std.ExtTreeMap.isEmpty_iff,OrderedMap.isEmpty_iff]
      intro m
      rw [get_erase,get_erase]
      split
      next => rfl
      next notD =>
        split
        next => rfl
        next notF => exact two i dir m found (Ne.symm notF) (Ne.symm notD)
    have first := total_erase s.weight dir "f"
    have second := total_erase s.weight (dir.erase "f") "d"
    have f := light "f"
    have d := light "d"
    rw [bare,total_empty,get_erase,if_neg (by decide)] at second
    rw [subdirs_of_dir found]
    omega

theorem create {s : MetaState} (two : TwoNames s.dirs) (host : Host) {r : CreateReq} (name : r.name = "f" ∨ r.name = "d") :
    TwoNames (create host r s).state.dirs := by
  rcases create_cases host r s with ⟨_,_,failed⟩ | ⟨dir,found,_,made⟩
  · rw [failed]
    exact two
  · rw [made]
    exact two.into (fun m => two r.parentIno dir m found) name

theorem mkdir {s : MetaState} (two : TwoNames s.dirs) (host : Host) {r : CreateReq} (name : r.name = "f" ∨ r.name = "d") :
    TwoNames (mkdir host r s).state.dirs := by
  rcases mkdir_cases host r s with ⟨_,_,failed⟩ | ⟨dir,placed,_,_,kept,made⟩
  · rw [failed]
    exact two
  · rw [made]
    have grown : TwoNames (s.dirs.insert s.nextIno ∅) := two.insert (by simp)
    simp only [madeDir,dirs_editNlink]
    exact grown.into (fun m => grown r.parentIno placed m kept) name

theorem unlink {s : MetaState} (two : TwoNames s.dirs) (parent : InodeId) (name : String) : TwoNames (unlink parent name s).state.dirs := by
  rcases unlink_cases parent name s with ⟨_,failed⟩ | ⟨dir,_,_,found,_,_,_,gone⟩
  · rw [failed]
    exact two
  · rw [gone]
    exact two.out found

theorem erase (two : TwoNames tables) : TwoNames (tables.erase p) := by
  intro q table m found notF notD
  rw [get_erase] at found
  split at found
  next => cases found
  next => exact two q table m found notF notD

theorem removeDestination {s cleared : MetaState} (two : TwoNames s.dirs) {r : RenameReq}
    {replaced : Option (InodeId × List (BlockIdx × BlockPlacement))} (removed : removeDestination r s = (.ok replaced,cleared)) :
    TwoNames cleared.dirs := by
  rcases removeDestination_cases r s with ⟨_,failed⟩ | ⟨_,same⟩ | ⟨dir,dst,_,found,_,_,⟨_,result⟩ | ⟨_,_,other,result⟩⟩
  · rw [failed] at removed
    cases removed
  · rw [same] at removed
    cases removed
    exact two
  · rw [result] at removed
    cases removed
    exact two.out found
  · rw [result] at removed
    cases removed
    have kept : (s.dirs.erase dst)[r.dstParentIno]? = some dir := by rw [get_erase,if_neg other,found]
    simp only [replacedDir,putDir,dirs_editNlink]
    exact two.erase.out kept

theorem rename {s : MetaState} (two : TwoNames s.dirs) {r : RenameReq} (name : r.dstName = "f" ∨ r.dstName = "d") :
    TwoNames (rename r s).state.dirs := by
  rcases rename_cases r s with ⟨_,failed⟩ | ⟨dir,_,found,_,_,lost⟩ | ⟨src,_,cleared,srcDir,dstDir,_,removed,owns,target,_,state⟩
  · rw [failed]
    exact two
  · rw [lost]
    exact two.out found
  · rw [state]
    have cut : TwoNames (cleared.putDir r.srcParentIno (srcDir.erase r.srcName)).dirs := (two.removeDestination removed).out owns
    have moved : TwoNames ((cleared.putDir r.srcParentIno (srcDir.erase r.srcName)).dirs.insert r.dstParentIno (dstDir.insert r.dstName src)) :=
      cut.into (fun m => cut r.dstParentIno dstDir m target) name
    unfold adjustLinks
    split
    next =>
      rw [dirs_editNlink,dirs_editNlink]
      exact moved
    next => exact moved

end TwoNames

/-- Requests that bring in no other name than `f` and `d`. -/
def BringsTwo : Call → Prop
  | .create r | .mkdir r => r.name = "f" ∨ r.name = "d"
  | .rename r => r.dstName = "f" ∨ r.dstName = "d"
  | .unlink .. => True
  | _ => False

theorem run_few (calls : List (Host × Call)) (brings : ∀ call ∈ calls, BringsTwo call.2) (before after : List (Host × Call))
    (split : calls = before ++ after) (i : InodeId) : (run before (new 0 1)).subdirs i < 2^32 - 2 := by
  have reached (calls : List (Host × Call)) (s : MetaState) (brings : ∀ call ∈ calls, BringsTwo call.2) (two : TwoNames s.dirs) :
      TwoNames (run calls s).dirs := by
    induction calls generalizing s with
    | nil => exact two
    | cons head rest ih =>
      obtain ⟨host,call⟩ := head
      have here := brings (host,call) (List.mem_cons_self ..)
      apply ih (serve host call s) (fun next member => brings next (List.mem_cons_of_mem _ member))
      cases call with
      | create r => exact two.create host here
      | mkdir r => exact two.mkdir host here
      | unlink parent name => exact two.unlink parent name
      | rename r => exact two.rename here
      | _ => exact here.elim
  have none : TwoNames (∅ : Map InodeId (Map String InodeId)) := by
    intro p dir n found
    simp at found
  refine (reached before (new 0 1) ?_ (none.insert (by simp))).few i
  intro call member
  exact brings call (split ▸ List.mem_append_left after member)

theorem run_links_exact_moved :
    let calls := [(Host.still,Call.mkdir ⟨ROOT,"d",0,0,0⟩),(Host.still,Call.mkdir ⟨2,"d",0,0,0⟩),
      (Host.still,Call.rename ⟨2,"d",ROOT,"f"⟩)]
    (run calls (new 0 1)).Linked ∧ (run calls (new 0 1)).nlinkOf ROOT = some 4 := by
  intro calls
  have brings : ∀ call ∈ calls, BringsTwo call.2 := by
    simp [calls,BringsTwo]
  have proper : Along ProperRename calls (new 0 1) := ⟨trivial,trivial,⟨by decide,_,rfl,rfl⟩,trivial⟩
  have room : drawn calls (new 0 1) < 2^64 - 2 := by decide +kernel
  have exact_ := (run_links_exact 0 1 calls proper room (run_few calls brings)).1 calls [] (List.append_nil _).symm
  exact ⟨exact_,by decide +kernel⟩

/-- Every number is drawn, the root's is drawn again, and the file that now stands in for
the root gets a link for a directory made in it. -/
def secondRoot : List (Host × Call) :=
  createUnlink (2^64 - 2) ++ (createUnlink 1 ++ [(Host.still,.create ⟨ROOT,"f",0,0,0⟩),(Host.still,.mkdir ⟨ROOT,"d",0,0,0⟩)])

theorem createUnlink_brings (n : Nat) : ∀ call ∈ createUnlink n, BringsTwo call.2 := by
  induction n with
  | zero =>
    intro call member
    cases List.not_mem_nil member
  | succ n ih =>
    intro call member
    rw [createUnlink_succ] at member
    rcases List.mem_cons.mp member with rfl | member
    · exact .inl rfl
    · rcases List.mem_cons.mp member with rfl | member
      · trivial
      · exact ih call member

/-- What the last calls make of a state whose counter is at 0. -/
theorem root_recreated {s : MetaState} (table : s.dirs[ROOT]? = some ∅) (zero : s.nextIno = 0) {t : MetaState}
    (reached : t = run (createUnlink 1 ++ [(Host.still,.create ⟨ROOT,"f",0,0,0⟩),(Host.still,.mkdir ⟨ROOT,"d",0,0,0⟩)]) s) :
    t.kindOf ROOT = some .file ∧ t.nlinkOf ROOT = some 2 := by
  obtain ⟨kept,number,_⟩ := createUnlink_round s ∅ table (by simp)
  rw [zero] at number
  rw [run_append,createUnlink_succ] at reached
  simp only [run,List.foldl_cons,List.foldl_nil,createUnlink,List.replicate_zero,List.flatten_nil] at reached
  generalize serve Host.still (.unlink ROOT "f") (serve Host.still (.create ⟨ROOT,"f",0,0,0⟩) s) = u at kept number reached
  rcases create_cases Host.still ⟨ROOT,"f",0,0,0⟩ u with ⟨taken,_⟩ | ⟨dir,found,_,made⟩
  · have present := (contains_iff _ _).mp (taken ∅ kept)
    simp at present
  · have empty : dir = ∅ := Option.some.inj (found.symm.trans kept)
    subst empty
    rcases mkdir_cases Host.still ⟨ROOT,"d",0,0,0⟩ (u.created Host.still ⟨ROOT,"f",0,0,0⟩ ∅) with
      ⟨taken,_⟩ | ⟨dir,placed,_,_,_,moved⟩
    · have owns : (u.created Host.still ⟨ROOT,"f",0,0,0⟩ ∅).dirs[ROOT]? = some ((∅ : Map String InodeId).insert "f" u.nextIno) := by
        simp only [created,get_insert,if_true]
      have present := (contains_iff _ _).mp (taken _ owns)
      rw [get_insert,if_neg (by decide)] at present
      simp at present
    · simp only [serve,made,moved] at reached
      subst reached
      have one : u.nextIno = ROOT := number
      simp only [madeDir,kindOf_editNlink,nlinkOf_editNlink,if_true]
      simp only [kindOf,nlinkOf,get_insert,created,one]
      exact ⟨rfl,rfl⟩

theorem secondRoot_unlinked : Along ProperRename secondRoot (new 0 1) ∧
    (∀ before after, secondRoot = before ++ after → ∀ i, (run before (new 0 1)).subdirs i < 2^32 - 2) ∧
    ¬ (run secondRoot (new 0 1)).Linked := by
  refine ⟨?_,?_,?_⟩
  · refine (along_append _ _ _).mpr ⟨createUnlink_proper _ _,?_⟩
    exact (along_append _ _ _).mpr ⟨createUnlink_proper _ _,trivial,trivial,trivial⟩
  · apply run_few
    intro call member
    rcases List.mem_append.mp member with first | second
    · exact createUnlink_brings _ call first
    · rcases List.mem_append.mp second with third | fourth
      · exact createUnlink_brings _ call third
      · simp only [List.mem_cons,List.not_mem_nil,or_false] at fourth
        rcases fourth with rfl | rfl
        · exact .inl rfl
        · exact .inr rfl
  · intro linked
    obtain ⟨table,wrapped,_⟩ := createUnlink_run (2^64 - 2) (new 0 1) ∅ (by simp [new]) (by simp) (by decide)
    have zero : (run (createUnlink (2^64 - 2)) (new 0 1)).nextIno = 0 := wrapped
    obtain ⟨isFile,link⟩ := root_recreated table zero (run_append _ _ _)
    exact absurd (linked.files ROOT 2 isFile link) (by decide)

end Dtmpfs
