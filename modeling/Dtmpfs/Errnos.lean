import Dtmpfs.NamespaceView
import Dtmpfs.Unwraps

/-! The errno a program sees when a request on names fails: the status of the handler, the
error the client makes of it, and the number that error has. -/
namespace Dtmpfs
open MetaService MetaState OrderedMap

/-- A request on names, with its arguments as they reach the metadata server. -/
inductive NameOp where
  | create (host : Host) (r : CreateReq)
  | mkdir (host : Host) (r : CreateReq)
  | unlink (parentIno : InodeId) (name : String)
  | rmdir (parentIno : InodeId) (name : String)
  | rename (r : RenameReq)

/-- What the callbacks of the client reply on an error. A handler that panics breaks the
call off, which is none of the statuses with a number of its own. -/
def Fault.errno : Fault → Errno
  | .status answer => (DtmpfsError.fromStatus answer none).errno
  | .panicked => .eio

/-- The errno replied, if any. -/
def errnoOf {α : Type} (reply : Except Fault α) : Option Errno :=
  match reply with
  | .ok _ => none
  | .error fault => some fault.errno

def NameOp.reply (op : NameOp) (s : MetaState) : Option Errno :=
  match op with
  | .create host r => errnoOf (MetaService.create host r s).reply
  | .mkdir host r => errnoOf (MetaService.mkdir host r s).reply
  | .unlink parentIno name => errnoOf (MetaService.unlink parentIno name s).reply
  | .rmdir parentIno name => errnoOf (MetaService.rmdir parentIno name s).reply
  | .rename r => errnoOf (MetaService.rename r s).reply

/-- A named parent is no directory, or the entry to remove or to move is not there. -/
def NameOp.Missing (s : MetaState) : NameOp → Prop
  | .create _ r | .mkdir _ r => s.dirs[r.parentIno]? = none
  | .unlink parentIno name | .rmdir parentIno name => s.resolve parentIno name = none
  | .rename r => s.resolve r.srcParentIno r.srcName = none ∨ s.dirs[r.dstParentIno]? = none

def MetaState.IsDir (s : MetaState) (i : InodeId) : Prop := s.kindOf i = some .dir

/-- The directory has entries. -/
def MetaState.Full (s : MetaState) (i : InodeId) : Prop := ∃ dir, s.dirs[i]? = some dir ∧ dir.isEmpty = false

/-- The request violates the condition that the errno stands for. -/
inductive NameOp.Violates (s : MetaState) : NameOp → Errno → Prop
  | missing (op : NameOp) (missing : op.Missing s) : Violates s op .enoent
  | created (host : Host) (r : CreateReq) (dir : Map String InodeId) (found : s.dirs[r.parentIno]? = some dir)
    (taken : dir.contains r.name = true) : Violates s (.create host r) .eexist
  | madeDir (host : Host) (r : CreateReq) (dir : Map String InodeId) (found : s.dirs[r.parentIno]? = some dir)
    (taken : dir.contains r.name = true) : Violates s (.mkdir host r) .eexist
  | unlinkedDir (parentIno : InodeId) (name : String) (child : InodeId) (named : s.resolve parentIno name = some child)
    (directory : s.IsDir child) : Violates s (.unlink parentIno name) .eisdir
  | removedFile (parentIno : InodeId) (name : String) (child : InodeId) (named : s.resolve parentIno name = some child)
    (file : ¬ s.IsDir child) : Violates s (.rmdir parentIno name) .enotdir
  | removedFull (parentIno : InodeId) (name : String) (child : InodeId) (named : s.resolve parentIno name = some child)
    (directory : s.IsDir child) (full : s.Full child) : Violates s (.rmdir parentIno name) .enotempty
  | ontoFull (r : RenameReq) (dst : InodeId) (destination : s.resolve r.dstParentIno r.dstName = some dst)
    (directory : s.IsDir dst) (full : s.Full dst) : Violates s (.rename r) .enotempty
  | fileOntoDir (r : RenameReq) (src dst : InodeId) (source : s.resolve r.srcParentIno r.srcName = some src)
    (destination : s.resolve r.dstParentIno r.dstName = some dst) (file : ¬ s.IsDir src) (directory : s.IsDir dst) :
    Violates s (.rename r) .eisdir
  | dirOntoFile (r : RenameReq) (src dst : InodeId) (source : s.resolve r.srcParentIno r.srcName = some src)
    (destination : s.resolve r.dstParentIno r.dstName = some dst) (directory : s.IsDir src) (file : ¬ s.IsDir dst) :
    Violates s (.rename r) .enotdir

/-- The reply names a violated condition, success means that there is none, and `ENOENT`
that a parent or the source is missing. -/
structure NameOp.Matches (op : NameOp) (s : MetaState) : Prop where
  named : ∀ errno, op.reply s = some errno → op.Violates s errno
  succeeded : op.reply s = none → ∀ errno, ¬ op.Violates s errno
  missing : op.reply s = some .enoent ↔ op.Missing s

section Replies

variable (s : MetaState)

theorem create_errno (host : Host) (r : CreateReq) : errnoOf (MetaService.create host r s).reply =
    match s.dirs[r.parentIno]? with
    | none => some .enoent
    | some dir => if dir.contains r.name then some .eexist else none := by
  unfold MetaService.create
  cases found : s.dirs[r.parentIno]? with
  | none => rfl
  | some dir =>
    by_cases taken : dir.contains r.name = true
    · simp only [taken,if_true]
      rfl
    · simp only [taken]
      simp [allocIno,putInode,found,errnoOf]

theorem mkdir_errno (host : Host) (r : CreateReq) : errnoOf (MetaService.mkdir host r s).reply =
    match s.dirs[r.parentIno]? with
    | none => some .enoent
    | some dir => if dir.contains r.name then some .eexist else none := by
  rcases mkdir_cases host r s with ⟨refused,status,failed⟩ | ⟨dir,placed,found,free,_,made⟩
  · unfold MetaService.mkdir
    cases found : s.dirs[r.parentIno]? with
    | none => rfl
    | some dir =>
      simp only [refused dir found,if_true]
      rfl
  · have fresh : dir.contains r.name = false := (vacant_iff dir r.name).mpr free
    rw [made,found]
    simp [errnoOf,fresh]

theorem unlink_errno (parentIno : InodeId) (name : String) : errnoOf (MetaService.unlink parentIno name s).reply =
    match s.resolve parentIno name with
    | none => some .enoent
    | some child =>
      match s.kindOf child with
      | none => some .enoent
      | some kind => if kind = .dir then some .einval else none := by
  unfold MetaService.unlink
  cases named : s.resolve parentIno name with
  | none => rfl
  | some child =>
    obtain ⟨dir,found,_⟩ := dir_of_resolve named
    cases alive : s.inodes[child]? with
    | none => simp only [kindOf,alive]; rfl
    | some inode =>
      by_cases directory : inode.kind = .dir
      · simp only [kindOf,alive,directory,Option.map_some,if_true]
        rfl
      · simp only [kindOf,alive,directory,found,Option.map_some,if_false]
        rfl

theorem rmdir_errno (parentIno : InodeId) (name : String) : errnoOf (MetaService.rmdir parentIno name s).reply =
    match s.resolve parentIno name with
    | none => some .enoent
    | some child =>
      match s.dirs[child]? with
      | none => some .einval
      | some table => if table.isEmpty then none else some .eio := by
  unfold MetaService.rmdir
  cases named : s.resolve parentIno name with
  | none => rfl
  | some child =>
    obtain ⟨dir,found,_⟩ := dir_of_resolve named
    cases owns : s.dirs[child]? with
    | none =>
      simp only [owns]
      rfl
    | some table =>
      by_cases empty : table.isEmpty = true
      · have other := rmdir_keeps_parent s named owns empty
        simp only [owns,empty,if_true,get_erase,other,if_false,found]
        rfl
      · simp only [owns,empty]
        rfl

theorem removeDestination_errno (r : RenameReq) : errnoOf (removeDestination r s).1 =
    match s.resolve r.dstParentIno r.dstName with
    | none => none
    | some dst =>
      match s.kindOf dst with
      | none => some .enoent
      | some kind => if kind = .dir ∧ s.dirs[dst]?.elim true (·.isEmpty) = false then some .eio else none := by
  rcases removeDestination_cases r s with ⟨status,failed⟩ | ⟨vacant,same⟩ | ⟨dir,dst,inode,found,named,alive,removed⟩
  · unfold removeDestination at failed ⊢
    cases destination : s.resolve r.dstParentIno r.dstName with
    | none => rfl
    | some dst =>
      cases alive : s.inodes[dst]? with
      | none =>
        simp only [kindOf,alive]
        rfl
      | some inode =>
        simp only [destination,alive] at failed
        simp only [kindOf,alive,Option.map_some]
        split
        next => rfl
        next free =>
          rw [if_neg free] at failed
          split at failed <;> cases failed
  · rw [same,vacant]
    rfl
  · have destination : s.resolve r.dstParentIno r.dstName = some dst := (resolve_of_dir found r.dstName).trans named
    simp only [destination,kindOf,alive,Option.map_some]
    rcases removed with ⟨file,result⟩ | ⟨directory,empty,_,result⟩
    · simp only [result,file,false_and,if_false]
      rfl
    · have vacant : s.dirs[dst]?.elim true (·.isEmpty) = true := by
        cases owns : s.dirs[dst]? with
        | none => rfl
        | some table => exact empty table owns
      simp only [result,vacant,Bool.true_eq_false,and_false,if_false]
      rfl

/-- Once the destination is out of the way, `rename` fails only without a directory to move to. -/
theorem rename_removed {r : RenameReq} {src : InodeId} {cleared : MetaState} {replaced : Option (InodeId × List (BlockIdx × BlockPlacement))}
    (source : s.resolve r.srcParentIno r.srcName = some src) (removed : removeDestination r s = (.ok replaced,cleared)) :
    errnoOf (MetaService.rename r s).reply = if s.dirs[r.dstParentIno]? = none then some .enoent else none := by
  obtain ⟨srcDir,owns⟩ := removeDestination_source r s cleared src replaced source removed
  have kept : cleared.dirs[r.dstParentIno]? = none ↔ s.dirs[r.dstParentIno]? = none := by
    rcases removeDestination_cases r s with ⟨_,failed⟩ | ⟨_,same⟩ | ⟨_,_,_,found,_,_,⟨_,result⟩ | ⟨_,_,_,result⟩⟩
    · rw [failed] at removed
      cases removed
    · rw [same] at removed
      cases removed
      exact Iff.rfl
    · rw [result] at removed
      cases removed
      simp [unlinked,found]
    · rw [result] at removed
      cases removed
      simp [replacedDir,putDir,found]
  unfold MetaService.rename
  simp only [source,removed,owns,putDir,get_insert]
  by_cases same : r.srcParentIno = r.dstParentIno
  · have present : s.dirs[r.dstParentIno]? ≠ none := by
      rw [Ne,← kept,← same,owns]
      exact Option.some_ne_none srcDir
    simp only [same,if_true,if_neg present]
    rfl
  · simp only [same,if_false]
    cases target : cleared.dirs[r.dstParentIno]? with
    | none =>
      rw [if_pos (kept.mp target)]
      rfl
    | some dir =>
      have present : s.dirs[r.dstParentIno]? ≠ none := by
        rw [Ne,← kept,target]
        exact Option.some_ne_none dir
      rw [if_neg present]
      rfl

theorem rename_errno (r : RenameReq) : errnoOf (MetaService.rename r s).reply =
    match s.resolve r.srcParentIno r.srcName,s.resolve r.dstParentIno r.dstName with
    | none,_ => some .enoent
    | some _,none => if s.dirs[r.dstParentIno]? = none then some .enoent else none
    | some _,some dst =>
      match s.kindOf dst with
      | none => some .enoent
      | some kind => if kind = .dir ∧ s.dirs[dst]?.elim true (·.isEmpty) = false then some .eio else none := by
  cases source : s.resolve r.srcParentIno r.srcName with
  | none =>
    unfold MetaService.rename
    rw [source]
    rfl
  | some src =>
    have outcome : errnoOf (MetaService.rename r s).reply =
        (errnoOf (removeDestination r s).1).or (if s.dirs[r.dstParentIno]? = none then some .enoent else none) := by
      rcases removed : removeDestination r s with ⟨result,cleared⟩
      cases result with
      | error fault =>
        unfold MetaService.rename
        simp only [source,removed]
        rfl
      | ok replaced => exact rename_removed s source removed
    rw [outcome,removeDestination_errno]
    cases destination : s.resolve r.dstParentIno r.dstName with
    | none => rfl
    | some dst =>
      obtain ⟨dir,found,_⟩ := dir_of_resolve destination
      rw [found,if_neg nofun,Option.or_none]

end Replies

/-- No directory is unlinked, only an empty directory is removed, and what a rename
replaces is there, has no entries, and is a directory if and only if its source is one. -/
def NameOp.Ordinary (s : MetaState) : NameOp → Prop
  | .create .. | .mkdir .. => True
  | .unlink parentIno name => ∀ child, s.resolve parentIno name = some child → s.kindOf child ≠ none ∧ ¬ s.IsDir child
  | .rmdir parentIno name => ∀ child, s.resolve parentIno name = some child →
      s.IsDir child ∧ ∃ table, s.dirs[child]? = some table ∧ table.isEmpty = true
  | .rename r => ∀ src dst, s.resolve r.srcParentIno r.srcName = some src → s.resolve r.dstParentIno r.dstName = some dst →
      s.kindOf dst ≠ none ∧ ¬ (s.IsDir dst ∧ s.Full dst) ∧ (s.IsDir src ↔ s.IsDir dst)

section Matching

variable {s : MetaState} {op : NameOp}

theorem matches_success (reply : op.reply s = none) : op.Matches s ↔ ∀ errno, ¬ op.Violates s errno := by
  constructor
  · intro matched
    exact matched.succeeded reply
  · intro clear
    refine ⟨?_,fun _ => clear,?_⟩
    · intro errno replied
      rw [reply] at replied
      cases replied
    · rw [reply]
      exact iff_of_false nofun fun missing => clear .enoent (.missing op missing)

theorem matches_missing (reply : op.reply s = some .enoent) : op.Matches s ↔ op.Missing s := by
  constructor
  · intro matched
    exact matched.missing.mp reply
  · intro missing
    refine ⟨?_,?_,iff_of_true reply missing⟩
    · intro errno replied
      rw [reply] at replied
      cases replied
      exact .missing op missing
    · rw [reply]
      nofun

theorem matches_errno {errno : Errno} (reply : op.reply s = some errno) (other : errno ≠ .enoent) :
    op.Matches s ↔ op.Violates s errno ∧ ¬ op.Missing s := by
  have apart : op.reply s ≠ some .enoent := by
    rw [reply,Ne,Option.some.injEq]
    exact other
  constructor
  · intro matched
    exact ⟨matched.named errno reply,fun missing => apart (matched.missing.mpr missing)⟩
  · intro ⟨violated,present⟩
    refine ⟨?_,?_,iff_of_false apart present⟩
    · intro errno' replied
      rw [reply] at replied
      cases replied
      exact violated
    · rw [reply]
      nofun

theorem insertion_matches {r : CreateReq} (missing : op.Missing s ↔ s.dirs[r.parentIno]? = none)
    (reply : op.reply s = match s.dirs[r.parentIno]? with
      | none => some .enoent
      | some dir => if dir.contains r.name then some .eexist else none)
    (exists_ : ∀ dir, s.dirs[r.parentIno]? = some dir → dir.contains r.name = true → op.Violates s .eexist)
    (only : ∀ errno, op.Violates s errno → op.Missing s ∨ ∃ dir, s.dirs[r.parentIno]? = some dir ∧ dir.contains r.name = true) :
    op.Matches s := by
  cases found : s.dirs[r.parentIno]? with
  | none =>
    rw [found] at reply
    exact (matches_missing reply).mpr (missing.mpr found)
  | some dir =>
    have present : ¬ op.Missing s := by
      rw [missing,found]
      nofun
    rw [found] at reply
    by_cases taken : dir.contains r.name = true
    · simp only [taken,if_true] at reply
      exact (matches_errno reply nofun).mpr ⟨exists_ dir found taken,present⟩
    · simp only [taken] at reply
      refine (matches_success reply).mpr ?_
      intro errno violated
      rcases only errno violated with gone | ⟨dir',found',taken'⟩
      · exact present gone
      · rw [found] at found'
        cases found'
        exact taken taken'

theorem create_matches (host : Host) (r : CreateReq) : (NameOp.create host r).Matches s := by
  refine insertion_matches Iff.rfl (create_errno s host r) (.created host r) ?_
  intro errno violated
  cases violated with
  | missing _ missing => exact .inl missing
  | created _ _ dir found taken => exact .inr ⟨dir,found,taken⟩

theorem mkdir_matches (host : Host) (r : CreateReq) : (NameOp.mkdir host r).Matches s := by
  refine insertion_matches Iff.rfl (mkdir_errno s host r) (.madeDir host r) ?_
  intro errno violated
  cases violated with
  | missing _ missing => exact .inl missing
  | madeDir _ _ dir found taken => exact .inr ⟨dir,found,taken⟩

theorem unlink_matches_iff (parentIno : InodeId) (name : String) :
    (NameOp.unlink parentIno name).Matches s ↔ (NameOp.unlink parentIno name).Ordinary s := by
  have reply : (NameOp.unlink parentIno name).reply s = _ := unlink_errno s parentIno name
  simp only [NameOp.Ordinary]
  cases named : s.resolve parentIno name with
  | none =>
    rw [named] at reply
    exact iff_of_true ((matches_missing reply).mpr named) nofun
  | some child =>
    have present : ¬ (NameOp.unlink parentIno name).Missing s := by
      intro missing
      rw [NameOp.Missing,named] at missing
      cases missing
    simp only [named,Option.some.injEq,forall_eq',MetaState.IsDir] at reply ⊢
    cases alive : s.kindOf child with
    | none =>
      simp only [alive] at reply
      exact iff_of_false (fun matched => present (matched.missing.mp reply)) (fun plain => plain.1 rfl)
    | some kind =>
      simp only [alive] at reply
      by_cases directory : kind = .dir
      · simp only [directory,if_true] at reply
        refine iff_of_false ?_ (fun plain => plain.2 (by rw [directory]))
        intro matched
        cases matched.named _ reply
      · simp only [directory,if_false] at reply
        refine iff_of_true ((matches_success reply).mpr ?_) ⟨Option.some_ne_none kind,fun same => directory (Option.some.inj same)⟩
        intro errno violated
        cases violated with
        | missing _ missing => exact present missing
        | unlinkedDir _ _ child' named' directory' =>
          rw [named] at named'
          cases named'
          rw [MetaState.IsDir,alive] at directory'
          exact directory (Option.some.inj directory')

theorem rmdir_matches_iff (parentIno : InodeId) (name : String) :
    (NameOp.rmdir parentIno name).Matches s ↔ (NameOp.rmdir parentIno name).Ordinary s := by
  have reply : (NameOp.rmdir parentIno name).reply s = _ := rmdir_errno s parentIno name
  simp only [NameOp.Ordinary]
  cases named : s.resolve parentIno name with
  | none =>
    rw [named] at reply
    exact iff_of_true ((matches_missing reply).mpr named) nofun
  | some child =>
    have present : ¬ (NameOp.rmdir parentIno name).Missing s := by
      intro missing
      rw [NameOp.Missing,named] at missing
      cases missing
    simp only [named,Option.some.injEq,forall_eq'] at reply ⊢
    cases owns : s.dirs[child]? with
    | none =>
      simp only [owns] at reply
      refine iff_of_false ?_ (fun plain => by obtain ⟨_,_,found,_⟩ := plain; cases found)
      intro matched
      cases matched.named _ reply
    | some table =>
      simp only [owns,Option.some.injEq,exists_eq_left'] at reply ⊢
      by_cases empty : table.isEmpty = true
      · simp only [empty,if_true,and_true] at reply ⊢
        rw [matches_success reply]
        constructor
        · intro clear
          by_contra file
          exact clear .enotdir (.removedFile parentIno name child named file)
        · intro directory errno violated
          cases violated with
          | missing _ missing => exact present missing
          | removedFile _ _ child' named' file =>
            rw [named] at named'
            cases named'
            exact file directory
          | removedFull _ _ child' named' _ full =>
            rw [named] at named'
            cases named'
            obtain ⟨table',owns',some_⟩ := full
            rw [owns] at owns'
            cases owns'
            rw [empty] at some_
            cases some_
      · simp only [empty] at reply ⊢
        refine iff_of_false ?_ (fun plain => by cases plain.2)
        intro matched
        cases matched.named _ reply

theorem full_iff (i : InodeId) : s.Full i ↔ s.dirs[i]?.elim true (·.isEmpty) = false := by
  unfold MetaState.Full
  cases owns : s.dirs[i]? with
  | none => exact iff_of_false (fun ⟨_,found,_⟩ => by cases found) nofun
  | some table => simp

theorem rename_matches_iff (r : RenameReq) : (NameOp.rename r).Matches s ↔ (NameOp.rename r).Ordinary s := by
  have reply : (NameOp.rename r).reply s = _ := rename_errno s r
  simp only [NameOp.Ordinary]
  cases source : s.resolve r.srcParentIno r.srcName with
  | none =>
    simp only [source] at reply
    exact iff_of_true ((matches_missing reply).mpr (.inl source)) nofun
  | some src =>
    cases destination : s.resolve r.dstParentIno r.dstName with
    | none =>
      simp only [source,destination] at reply
      refine iff_of_true ?_ nofun
      by_cases missing : s.dirs[r.dstParentIno]? = none
      · rw [if_pos missing] at reply
        exact (matches_missing reply).mpr (.inr missing)
      · rw [if_neg missing] at reply
        refine (matches_success reply).mpr ?_
        intro errno violated
        cases violated with
        | missing _ gone =>
          rcases gone with gone | gone
          · rw [source] at gone
            cases gone
          · exact missing gone
        | ontoFull _ _ named _ _ => rw [destination] at named; cases named
        | fileOntoDir _ _ _ _ named _ _ => rw [destination] at named; cases named
        | dirOntoFile _ _ _ _ named _ _ => rw [destination] at named; cases named
    | some dst =>
      have present : ¬ (NameOp.rename r).Missing s := by
        rintro (gone | gone)
        · rw [source] at gone
          cases gone
        · obtain ⟨dir,found,_⟩ := dir_of_resolve destination
          rw [found] at gone
          cases gone
      simp only [source,destination] at reply
      have own : (∀ src' dst', some src = some src' → some dst = some dst' →
          s.kindOf dst' ≠ none ∧ ¬ (s.IsDir dst' ∧ s.Full dst') ∧ (s.IsDir src' ↔ s.IsDir dst')) ↔
          s.kindOf dst ≠ none ∧ ¬ (s.IsDir dst ∧ s.Full dst) ∧ (s.IsDir src ↔ s.IsDir dst) := by
        constructor
        · intro all
          exact all src dst rfl rfl
        · intro plain src' dst' same same'
          cases same
          cases same'
          exact plain
      rw [own]
      cases alive : s.kindOf dst with
      | none =>
        simp only [alive] at reply
        exact iff_of_false (fun matched => present (matched.missing.mp reply)) (fun plain => plain.1 rfl)
      | some kind =>
        simp only [alive] at reply
        by_cases blocked : kind = .dir ∧ s.dirs[dst]?.elim true (·.isEmpty) = false
        · rw [if_pos blocked] at reply
          have directory : s.IsDir dst := by rw [MetaState.IsDir,alive,blocked.1]
          refine iff_of_false ?_ (fun plain => plain.2.1 ⟨directory,(full_iff dst).mpr blocked.2⟩)
          intro matched
          cases matched.named _ reply
        · rw [if_neg blocked] at reply
          rw [matches_success reply]
          constructor
          · intro clear
            refine ⟨Option.some_ne_none kind,?_,?_,?_⟩
            · intro ⟨directory,full⟩
              exact clear .enotempty (.ontoFull r dst destination directory full)
            · intro directory
              by_contra file
              exact clear .enotdir (.dirOntoFile r src dst source destination directory file)
            · intro directory
              by_contra file
              exact clear .eisdir (.fileOntoDir r src dst source destination file directory)
          · intro ⟨_,free,same⟩ errno violated
            cases violated with
            | missing _ missing => exact present missing
            | ontoFull _ dst' named directory full =>
              rw [destination] at named
              cases named
              exact free ⟨directory,full⟩
            | fileOntoDir _ src' dst' named named' file directory =>
              rw [source] at named
              rw [destination] at named'
              cases named
              cases named'
              exact file (same.mpr directory)
            | dirOntoFile _ src' dst' named named' directory file =>
              rw [source] at named
              rw [destination] at named'
              cases named
              cases named'
              exact file (same.mp directory)

end Matching

/-- In any state, the reply to a request is the one its condition calls for exactly if the
request is ordinary. -/
theorem errno_matches_iff (s : MetaState) (op : NameOp) : op.Matches s ↔ op.Ordinary s := by
  cases op with
  | create host r => exact iff_of_true (create_matches host r) trivial
  | mkdir host r => exact iff_of_true (mkdir_matches host r) trivial
  | unlink parentIno name => exact unlink_matches_iff parentIno name
  | rmdir parentIno name => exact rmdir_matches_iff parentIno name
  | rename r => exact rename_matches_iff r

/-- A directory with a file in it. -/
def fullDir : MetaState := run [(.still,.mkdir ⟨1,"d",0o755,0,0⟩),(.still,.create ⟨2,"x",0o644,0,0⟩)] (.new 0 1)

theorem full_dir_io : (NameOp.rmdir 1 "d").Violates fullDir .enotempty ∧ (NameOp.rmdir 1 "d").reply fullDir = some .eio ∧
    ¬ (NameOp.rmdir 1 "d").Matches fullDir := by
  have named : fullDir.resolve 1 "d" = some 2 := by decide
  have directory : fullDir.IsDir 2 := by
    unfold MetaState.IsDir
    decide
  have full : fullDir.dirs[2]?.elim true (·.isEmpty) = false := by decide
  have replied : (NameOp.rmdir 1 "d").reply fullDir = some .eio := by decide
  refine ⟨.removedFull 1 "d" 2 named directory ((full_iff 2).mpr full),replied,?_⟩
  intro matched
  cases matched.named .eio replied

end Dtmpfs
