import Dtmpfs.FileRecord
import Dtmpfs.NamespaceIntegrity

/-! The whole effect of a successful `rename` between two slots, and what becomes of an
entry that is renamed onto itself. -/
namespace Dtmpfs
open MetaService MetaState OrderedMap

/-- The record of inode `i` is as before, but for the link count of `p` and `q`. -/
def KeptBut (p q i : InodeId) (before after : Option Inode) : Prop :=
  (i ≠ p → i ≠ q → after = before) ∧ ∃ nlink, after = before.map (fun inode => {inode with nlink := nlink})

namespace KeptBut

variable {p q i : InodeId} {before middle after : Option Inode}

theorem refl (p q i : InodeId) (before : Option Inode) : KeptBut p q i before before := by
  refine ⟨fun _ _ => rfl,?_⟩
  cases before with
  | none => exact ⟨0,rfl⟩
  | some inode => exact ⟨inode.nlink,rfl⟩

theorem trans (first : KeptBut p q i before middle) (second : KeptBut p q i middle after) : KeptBut p q i before after := by
  obtain ⟨same,n,changed⟩ := first
  obtain ⟨same',m,changed'⟩ := second
  refine ⟨fun notP notQ => (same' notP notQ).trans (same notP notQ),m,?_⟩
  rw [changed',changed,Option.map_map]
  rfl

theorem editNlink (s : MetaState) (change : Nat → Nat) {j : InodeId} (parent : j = p ∨ j = q) :
    KeptBut p q i s.inodes[i]? (s.editNlink change j).inodes[i]? := by
  unfold MetaState.editNlink
  split
  next inode found =>
    simp only [putInode,get_insert]
    split
    next same =>
      subst same
      rw [found]
      refine ⟨fun notP notQ => ?_,_,rfl⟩
      rcases parent with here | here
      · exact absurd here notP
      · exact absurd here notQ
    next => exact refl _ _ _ _
  next => exact refl _ _ _ _

end KeptBut

/-- What the removal of the destination leaves alone. -/
structure Cleared (r : RenameReq) (s cleared : MetaState) : Prop where
  inodes : ∀ i, s.resolve r.dstParentIno r.dstName ≠ some i → KeptBut r.srcParentIno r.dstParentIno i s.inodes[i]? cleared.inodes[i]?
  gone : ∀ dst, s.resolve r.dstParentIno r.dstName = some dst → cleared.inodes[dst]? = none
  rest : ∃ inodes dirs, cleared = {s with inodes := inodes, dirs := dirs}

section Effects

variable {s cleared : MetaState} {r : RenameReq} {src : InodeId} {replaced : Option (InodeId × List (BlockIdx × BlockPlacement))}

theorem editNlink_rest (s : MetaState) (change : Nat → Nat) (i : InodeId) : ∃ inodes, s.editNlink change i = {s with inodes := inodes} := by
  unfold editNlink
  split
  next => exact ⟨_,rfl⟩
  next => exact ⟨s.inodes,rfl⟩

theorem removeDestination_cleared (removed : removeDestination r s = (.ok replaced,cleared)) : Cleared r s cleared := by
  rcases removeDestination_cases r s with ⟨_,failed⟩ | ⟨vacant,same⟩ |
    ⟨dir,dst,inode,found,slot,alive,⟨kind,result⟩ | ⟨kind,empty,other,result⟩⟩
  · rw [failed] at removed
    cases removed
  · rw [same] at removed
    cases removed
    refine ⟨fun i _ => .refl _ _ _ _,?_,s.inodes,s.dirs,rfl⟩
    intro dst named
    rw [vacant] at named
    cases named
  · rw [result] at removed
    cases removed
    have named : s.resolve r.dstParentIno r.dstName = some dst := (resolve_of_dir found _).trans slot
    refine ⟨?_,?_,_,_,rfl⟩
    · intro i apart
      have kept : ¬ dst = i := fun same => apart (same ▸ named)
      simp only [unlinked,get_erase,if_neg kept]
      exact .refl _ _ _ _
    · intro dst' named'
      cases named.symm.trans named'
      simp only [unlinked,get_erase,if_true]
  · rw [result] at removed
    cases removed
    have named : s.resolve r.dstParentIno r.dstName = some dst := (resolve_of_dir found _).trans slot
    obtain ⟨inodes,shape⟩ := editNlink_rest {s with dirs := s.dirs.erase dst} (· - 1) r.dstParentIno
    refine ⟨?_,?_,inodes.erase dst,(s.dirs.erase dst).insert r.dstParentIno (dir.erase r.dstName),?_⟩
    · intro i apart
      have kept : ¬ dst = i := fun same => apart (same ▸ named)
      simp only [replacedDir,putDir,get_erase,if_neg kept]
      exact .editNlink _ _ (.inr rfl)
    · intro dst' named'
      cases named.symm.trans named'
      simp only [replacedDir,putDir,get_erase,if_true]
    · dsimp only [replacedDir]
      rw [shape]
      rfl

theorem adjustLinks_keeps (r : RenameReq) (src : InodeId) (s : MetaState) (i : InodeId) :
    KeptBut r.srcParentIno r.dstParentIno i s.inodes[i]? (adjustLinks r src s).inodes[i]? := by
  unfold adjustLinks
  split
  next => exact KeptBut.trans (.editNlink _ _ (.inl rfl)) (.editNlink _ _ (.inr rfl))
  next => exact .refl _ _ _ _

theorem adjustLinks_rest (r : RenameReq) (src : InodeId) (s : MetaState) :
    ∃ inodes, adjustLinks r src s = {s with inodes := inodes} := by
  unfold adjustLinks
  split
  next =>
    obtain ⟨first,shape⟩ := editNlink_rest s (· - 1) r.srcParentIno
    obtain ⟨second,shape'⟩ := editNlink_rest {s with inodes := first} (· + 1) r.dstParentIno
    exact ⟨second,by rw [shape,shape']⟩
  next => exact ⟨s.inodes,rfl⟩

/-- The last steps of a `rename` that succeeds: the slot is moved and links are adjusted. -/
theorem rename_ok (ok : (rename r s).reply = .ok ()) :
    ∃ src replaced cleared dirs, s.resolve r.srcParentIno r.srcName = some src ∧ removeDestination r s = (.ok replaced,cleared) ∧
      (rename r s).state = adjustLinks r src {cleared with dirs := dirs} ∧
      (rename r s).state.view = cleared.view.rehang r.srcParentIno r.srcName r.dstParentIno r.dstName src := by
  rcases rename_cases r s with ⟨_,failed⟩ | ⟨_,_,_,_,_,failed⟩ | ⟨src,replaced,cleared,srcDir,dstDir,named,removed,owns,target,_,state⟩
  · rw [failed] at ok
    cases ok
  · rw [failed] at ok
    cases ok
  · refine ⟨src,replaced,cleared,_,named,removed,state,?_⟩
    rw [state,adjustLinks_view,view_putDir target (lookup_insert dstDir r.dstName src),view_putDir owns (lookup_erase srcDir r.srcName)]
    rfl

theorem rename_deletes (ok : (rename r s).reply = .ok ()) (removed : removeDestination r s = (.ok replaced,cleared)) :
    (rename r s).deletes = (replaced.map (fun file => fireDeleteBlocks (rename r s).state file.1 file.2)).getD [] := by
  unfold rename at ok ⊢
  cases named : s.resolve r.srcParentIno r.srcName with
  | none =>
    rw [named] at ok
    cases ok
  | some src =>
    simp only [named,removed] at ok ⊢
    split at ok
    next => cases ok
    next =>
      split at ok
      next => cases ok
      next =>
        cases replaced with
        | none => rfl
        | some file => rfl

theorem fireDeleteBlocks_congr {t : MetaState} (nodes : t.nodes = s.nodes) (ino : InodeId) (blocks : List (BlockIdx × BlockPlacement)) :
    fireDeleteBlocks t ino blocks = fireDeleteBlocks s ino blocks := by
  unfold fireDeleteBlocks
  rw [nodes]

end Effects

/-- What a successful `rename` of `src` does to the state. -/
structure Renamed (r : RenameReq) (src : InodeId) (s t : MetaState) : Prop where
  arrived : t.resolve r.dstParentIno r.dstName = some src
  departed : t.resolve r.srcParentIno r.srcName = none
  slots : ∀ p n, (p,n) ≠ (r.srcParentIno,r.srcName) → (p,n) ≠ (r.dstParentIno,r.dstName) → t.resolve p n = s.resolve p n
  tables : ∀ i, s.resolve r.dstParentIno r.dstName ≠ some i → ((∃ dir, t.dirs[i]? = some dir) ↔ ∃ dir, s.dirs[i]? = some dir)
  inodes : ∀ i, s.resolve r.dstParentIno r.dstName ≠ some i → KeptBut r.srcParentIno r.dstParentIno i s.inodes[i]? t.inodes[i]?
  replaced : ∀ dst, s.resolve r.dstParentIno r.dstName = some dst → t.inodes[dst]? = none ∧ t.dirs[dst]? = none ∧
    ∃ old, s.inodes[dst]? = some old ∧ (old.kind = .file ∨ old.kind = .symlink ∨ (old.kind = .dir ∧ ∀ n, s.resolve dst n = none))
  rest : ∃ inodes dirs, t = {s with inodes := inodes, dirs := dirs}

theorem Consistent.tidy {s : MetaState} (consistent : Consistent s) : s.Tidy :=
  fun i owns => (folder_iff s i).mpr ((consistent.directories i).mp owns)

/-- No inode has two names. -/
theorem Consistent.unique {s : MetaState} (consistent : Consistent s) {p q i : InodeId} {n m : String} (first : s.resolve p n = some i)
    (second : s.resolve q m = some i) : (p,n) = (q,m) := by
  obtain ⟨inode,alive⟩ := consistent.targets p n i first
  have notRoot : i ≠ ROOT := by
    intro same
    exact consistent.rootFree p n (same ▸ first)
  exact (consistent.named i inode alive notRoot).unique first second

section Moves

variable {s cleared : MetaState} {r : RenameReq} {src : InodeId} {replaced : Option (InodeId × List (BlockIdx × BlockPlacement))}

theorem rename_slots (tidy : s.Tidy) (removed : removeDestination r s = (.ok replaced,cleared))
    (view : (rename r s).state.view = cleared.view.rehang r.srcParentIno r.srcName r.dstParentIno r.dstName src) (p : InodeId) (n : String) :
    (rename r s).state.resolve p n = if p = r.dstParentIno ∧ n = r.dstName then some src
      else if p = r.srcParentIno ∧ n = r.srcName then none else s.resolve p n := by
  have entry : (rename r s).state.resolve p n = (cleared.view.rehang r.srcParentIno r.srcName r.dstParentIno r.dstName src).entry p n :=
    congrFun (congrFun (congrArg Namespace.entry view) p) n
  rw [entry]
  simp only [Namespace.rehang,Namespace.setEntry]
  split
  next => rfl
  next away =>
    split
    next => rfl
    next =>
      rcases removeDestination_view tidy removed with ⟨_,_,same⟩ | ⟨dst,_,_,_,childless,_,gone⟩
      · rw [same]
        rfl
      · rw [gone]
        simp only [Namespace.detach]
        split
        next inside =>
          rcases inside with here | here
          · rw [here,childless]
          · exact absurd here away
        next => rfl

theorem rename_tables (tidy : s.Tidy) (removed : removeDestination r s = (.ok replaced,cleared))
    (view : (rename r s).state.view = cleared.view.rehang r.srcParentIno r.srcName r.dstParentIno r.dstName src) (i : InodeId) :
    (∃ dir, (rename r s).state.dirs[i]? = some dir) ↔
      s.resolve r.dstParentIno r.dstName ≠ some i ∧ ∃ dir, s.dirs[i]? = some dir := by
  have table : (∃ dir, (rename r s).state.dirs[i]? = some dir) ↔ cleared.view.table i :=
    iff_of_eq (congrFun (congrArg Namespace.table view) i)
  rw [table]
  rcases removeDestination_view tidy removed with ⟨vacant,_,same⟩ | ⟨dst,_,slot,_,_,_,gone⟩
  · rw [same,vacant]
    exact (and_iff_right nofun).symm
  · rw [gone,slot]
    exact and_congr_left' ⟨fun other same => other (Option.some.inj same).symm,fun other same => other (congrArg some same.symm)⟩

theorem rename_renamed (consistent : Consistent s) (apart : (r.srcParentIno,r.srcName) ≠ (r.dstParentIno,r.dstName))
    {dirs : Map InodeId (Map String InodeId)} (removed : removeDestination r s = (.ok replaced,cleared))
    (state : (rename r s).state = adjustLinks r src {cleared with dirs := dirs})
    (view : (rename r s).state.view = cleared.view.rehang r.srcParentIno r.srcName r.dstParentIno r.dstName src) :
    Renamed r src s (rename r s).state := by
  have slots := rename_slots consistent.tidy removed view
  have tables := rename_tables consistent.tidy removed view
  have cleaned := removeDestination_cleared removed
  constructor
  · rw [slots]
    exact if_pos ⟨rfl,rfl⟩
  · rw [slots,if_neg (fun same => apart (Prod.ext same.1 same.2))]
    exact if_pos ⟨rfl,rfl⟩
  · intro p n notSource notDestination
    rw [slots,if_neg (fun same => notDestination (Prod.ext same.1 same.2)),if_neg (fun same => notSource (Prod.ext same.1 same.2))]
  · intro i kept
    rw [tables]
    exact and_iff_right kept
  · intro i kept
    rw [state]
    exact (cleaned.inodes i kept).trans (adjustLinks_keeps r src _ i)
  · intro dst slot
    rcases removeDestination_view consistent.tidy removed with ⟨vacant,_,_⟩ | ⟨dst',old,slot',present,childless,_,_⟩
    · rw [vacant] at slot
      cases slot
    · cases slot.symm.trans slot'
      refine ⟨?_,?_,old,present,?_⟩
      · obtain ⟨_,_,same⟩ := adjustLinks_keeps r src {cleared with dirs := dirs} dst
        rw [state,same]
        exact congrArg (Option.map _) (cleaned.gone dst slot)
      · cases owned : (rename r s).state.dirs[dst]? with
        | none => rfl
        | some dir => exact absurd slot ((tables dst).mp ⟨dir,owned⟩).1
      · cases kind : old.kind with
        | file => exact .inl rfl
        | symlink => exact .inr (.inl rfl)
        | dir => exact .inr (.inr ⟨rfl,childless⟩)
  · obtain ⟨inodes,dirs',shape⟩ := cleaned.rest
    obtain ⟨inodes',adjusted⟩ := adjustLinks_rest r src {cleared with dirs := dirs}
    rw [state,adjusted,shape]
    exact ⟨_,_,rfl⟩

theorem rename_fires (tidy : s.Tidy) (ok : (rename r s).reply = .ok ()) (removed : removeDestination r s = (.ok replaced,cleared))
    (nodes : (rename r s).state.nodes = s.nodes) (d : DeleteBlock) :
    d ∈ (rename r s).deletes ↔ ∃ dst old idx placement node info, s.resolve r.dstParentIno r.dstName = some dst ∧
      s.inodes[dst]? = some old ∧ old.kind = .file ∧ old.blocks[idx]? = some placement ∧ node ∈ placement.nodes ∧
      s.nodes[node]? = some info ∧ d = ⟨node,"http://" ++ info.addr,⟨dst,idx,0⟩⟩ := by
  rw [rename_deletes ok removed]
  constructor
  · intro sent
    rcases removeDestination_view tidy removed with ⟨_,nothing,_⟩ | ⟨dst,old,slot,present,_,file,_⟩
    · rw [nothing] at sent
      cases sent
    · rw [file] at sent
      split at sent
      next isFile =>
        simp only [Option.map_some,Option.getD_some,fireDeleteBlocks_congr nodes,mem_fireDeleteBlocks] at sent
        obtain ⟨idx,placement,node,info,member,listed,registered,same⟩ := sent
        exact ⟨dst,old,idx,placement,node,info,slot,present,isFile,
          Std.ExtTreeMap.mem_toList_iff_getElem?_eq_some.mp member,listed,registered,same⟩
      next => cases sent
  · intro due
    obtain ⟨dst,old,idx,placement,node,info,slot,present,isFile,placed,listed,registered,same⟩ := due
    rcases removeDestination_view tidy removed with ⟨vacant,_⟩ | ⟨dst',old',slot',present',_,file,_⟩
    · rw [vacant] at slot
      cases slot
    · cases slot.symm.trans slot'
      cases present.symm.trans present'
      rw [file,if_pos isFile]
      simp only [Option.map_some,Option.getD_some,fireDeleteBlocks_congr nodes,mem_fireDeleteBlocks]
      exact ⟨idx,placement,node,info,Std.ExtTreeMap.mem_toList_iff_getElem?_eq_some.mpr placed,listed,registered,same⟩

end Moves

/-- Where referential integrity holds, a successful `rename` between different slots
moves the one slot, takes the inode it replaces away with its blocks, and leaves
everything else as it was. -/
theorem rename_moves {s : MetaState} (consistent : Consistent s) (r : RenameReq)
    (apart : (r.srcParentIno,r.srcName) ≠ (r.dstParentIno,r.dstName)) (ok : (rename r s).reply = .ok ()) :
    ∃ src inode, s.resolve r.srcParentIno r.srcName = some src ∧ s.inodes[src]? = some inode ∧
      s.resolve r.dstParentIno r.dstName ≠ some src ∧ Renamed r src s (rename r s).state ∧
      ∀ d, d ∈ (rename r s).deletes ↔ ∃ dst old idx placement node info, s.resolve r.dstParentIno r.dstName = some dst ∧
        s.inodes[dst]? = some old ∧ old.kind = .file ∧ old.blocks[idx]? = some placement ∧ node ∈ placement.nodes ∧
        s.nodes[node]? = some info ∧ d = ⟨node,"http://" ++ info.addr,⟨dst,idx,0⟩⟩ := by
  obtain ⟨src,replaced,cleared,dirs,named,removed,state,view⟩ := rename_ok ok
  obtain ⟨inode,alive⟩ := consistent.targets _ _ _ named
  have notSource : s.resolve r.dstParentIno r.dstName ≠ some src := fun same => apart (consistent.unique named same)
  have renamed := rename_renamed consistent apart removed state view
  have nodes : (rename r s).state.nodes = s.nodes := by
    obtain ⟨_,_,same⟩ := renamed.rest
    rw [same]
  exact ⟨src,inode,named,alive,notSource,renamed,rename_fires consistent.tidy ok removed nodes⟩

/-- Two empty files `f` and `g`, inodes 2 and 3. -/
def filePair : List (Host × Call) := [(Host.still,.create ⟨ROOT,"f",0,0,0⟩),(Host.still,.create ⟨ROOT,"g",0,0,0⟩)]

theorem filePair_consistent (more : List (Host × Call)) (proper : Along ProperRename (filePair ++ more) (new 0 1))
    (room : (new 0 1).nextIno + drawn (filePair ++ more) (new 0 1) < 2^64) : Consistent (run (filePair ++ more) (new 0 1)) :=
  (run_sound (filePair ++ more) (new 0 1) (sound_new 0 1) proper room).consistent

/-- A store comes up and block 0 of `g` is placed on it. -/
def secondPlaced : List (Host × Call) := [(Host.still,.heartbeatNode 0 ⟨"n","a",0,0,0⟩),(Host.still,.allocateBlocks 3 [0])]

theorem rename_moves_onto : ∃ s, run (filePair ++ secondPlaced) (new 0 1) = s ∧ (rename ⟨ROOT,"f",ROOT,"g"⟩ s).reply = .ok () ∧
    (∃ src inode, s.resolve ROOT "f" = some src ∧ s.inodes[src]? = some inode ∧
      (rename ⟨ROOT,"f",ROOT,"g"⟩ s).state.resolve ROOT "g" = some src) ∧
    (⟨"n","http://a",⟨3,0,0⟩⟩ : DeleteBlock) ∈ (rename ⟨ROOT,"f",ROOT,"g"⟩ s).deletes := by
  have consistent := filePair_consistent secondPlaced ⟨trivial,trivial,trivial,trivial,trivial⟩ (by decide +kernel)
  obtain ⟨src,inode,named,alive,_,renamed,fires⟩ := rename_moves consistent ⟨ROOT,"f",ROOT,"g"⟩ (by decide) rfl
  refine ⟨_,rfl,rfl,⟨src,inode,named,alive,renamed.arrived⟩,(fires _).mpr ?_⟩
  exact ⟨3,_,0,⟨"n",[]⟩,"n",⟨"n","a",0,0,.up⟩,rfl,rfl,rfl,rfl,by decide,rfl,rfl⟩

/-- A file that is made a symbolic link leaves the names in order. -/
theorem Consistent.symlink {s : MetaState} (consistent : Consistent s) {i : InodeId} {inode : Inode} (alive : s.inodes[i]? = some inode)
    (kind : inode.kind = .file) : Consistent (s.putInode i {inode with kind := .symlink}) := by
  have live (j : InodeId) : (∃ found, (s.putInode i {inode with kind := .symlink}).inodes[j]? = some found) ↔
      ∃ found, s.inodes[j]? = some found := by
    simp only [putInode,get_insert]
    split
    next same =>
      subst same
      exact ⟨fun _ => ⟨inode,alive⟩,fun _ => ⟨_,rfl⟩⟩
    next => exact Iff.rfl
  have folder (j : InodeId) : (∃ found, (s.putInode i {inode with kind := .symlink}).inodes[j]? = some found ∧ found.kind = .dir) ↔
      ∃ found, s.inodes[j]? = some found ∧ found.kind = .dir := by
    simp only [putInode,get_insert]
    split
    next same =>
      subst same
      simp [alive,kind]
    next => exact Iff.rfl
  refine ⟨fun j => (consistent.directories j).trans (folder j).symm,?_,?_,(live ROOT).mpr consistent.rootLive,consistent.rootFree,?_⟩
  · intro p n j named
    exact (live j).mpr (consistent.targets p n j named)
  · intro j found present notRoot
    obtain ⟨old,was⟩ := (live j).mp ⟨found,present⟩
    exact consistent.named j old was notRoot
  · intro j found present
    simp only [putInode,get_insert] at present
    split at present
    next same =>
      subst same
      cases present
      exact consistent.numbers i inode alive
    next => exact consistent.numbers j found present

/-- The inode replaced may be a symbolic link, which no request makes; and no message
goes out for a block that was placed while no store was up. -/
theorem rename_replaces_others :
    (∃ s dst old, Consistent s ∧ (rename ⟨ROOT,"f",ROOT,"g"⟩ s).reply = .ok () ∧ s.resolve ROOT "g" = some dst ∧
      s.inodes[dst]? = some old ∧ old.kind ≠ .file ∧ old.kind ≠ .dir) ∧
    ∃ s dst old, Consistent s ∧ (rename ⟨ROOT,"f",ROOT,"g"⟩ s).reply = .ok () ∧ s.resolve ROOT "g" = some dst ∧
      s.inodes[dst]? = some old ∧ old.kind = .file ∧ old.blocks[0]? = some ⟨"?",[]⟩ ∧ (rename ⟨ROOT,"f",ROOT,"g"⟩ s).deletes = [] := by
  have consistent := filePair_consistent [] ⟨trivial,trivial,trivial⟩ (by decide +kernel)
  have unplaced := filePair_consistent [(Host.still,.allocateBlocks 3 [0])] ⟨trivial,trivial,trivial,trivial⟩ (by decide +kernel)
  exact ⟨⟨_,3,_,consistent.symlink (i := 3) rfl rfl,rfl,rfl,rfl,nofun,nofun⟩,⟨_,3,_,unplaced,rfl,rfl,rfl,rfl,rfl,rfl⟩⟩

/-- Renaming a slot onto itself is answered `Ok` and changes nothing. -/
def KeepsSelf (p : InodeId) (n : String) (s : MetaState) : Prop :=
  (rename ⟨p,n,p,n⟩ s).reply = .ok () ∧ (rename ⟨p,n,p,n⟩ s).state.inodes = s.inodes ∧
    (rename ⟨p,n,p,n⟩ s).state.dirs = s.dirs ∧ (rename ⟨p,n,p,n⟩ s).deletes = []

/-- The destination is removed before the slot is moved, and it is the source: the name
stays and the inode is gone. -/
theorem self_rename_dangles {s : MetaState} {p i : InodeId} {n : String} (named : s.resolve p n = some i)
    (ok : (rename ⟨p,n,p,n⟩ s).reply = .ok ()) :
    (∃ inode, s.inodes[i]? = some inode) ∧ (rename ⟨p,n,p,n⟩ s).state.inodes[i]? = none ∧
      (rename ⟨p,n,p,n⟩ s).state.resolve p n = some i := by
  obtain ⟨src,replaced,cleared,dirs,named',removed,state,view⟩ := rename_ok ok
  cases named.symm.trans named'
  refine ⟨?_,?_,?_⟩
  · rcases removeDestination_cases ⟨p,n,p,n⟩ s with ⟨_,failed⟩ | ⟨vacant,_⟩ | ⟨dir,dst,inode,found,slot,alive,_⟩
    · rw [failed] at removed
      cases removed
    · rw [named] at vacant
      cases vacant
    · cases named.symm.trans ((resolve_of_dir found n).trans slot)
      exact ⟨inode,alive⟩
  · obtain ⟨_,_,same⟩ := adjustLinks_keeps ⟨p,n,p,n⟩ i {cleared with dirs := dirs} i
    rw [state,same]
    exact congrArg (Option.map _) ((removeDestination_cleared removed).gone i named)
  · have entry := congrFun (congrFun (congrArg Namespace.entry view) p) n
    exact entry.trans (if_pos ⟨rfl,rfl⟩)

/-- No entry survives being renamed onto itself: the request is refused, or it removes
what the entry names. -/
theorem self_rename_destroys (s : MetaState) (p i : InodeId) (n : String) (named : s.resolve p n = some i) : ¬ KeepsSelf p n s := by
  intro keeps
  obtain ⟨ok,inodes,_⟩ := keeps
  obtain ⟨⟨inode,alive⟩,gone,_⟩ := self_rename_dangles named ok
  rw [inodes,alive] at gone
  cases gone

theorem self_rename_destroys_new : ∃ s, run [(Host.still,.create ⟨ROOT,"f",0,0,0⟩)] (new 0 1) = s ∧ ¬ KeepsSelf ROOT "f" s :=
  ⟨_,rfl,self_rename_destroys _ ROOT 2 "f" rfl⟩

/-- A file with a block is renamed onto itself. It can be neither looked up nor
removed afterwards, and its name cannot be used again. -/
theorem self_rename_loses_file : ∃ s, run [(Host.still,.heartbeatNode 0 ⟨"n","a",0,0,0⟩),(Host.still,.create ⟨ROOT,"f",0,0,0⟩),
      (Host.still,.allocateBlocks 2 [0])] (new 0 1) = s ∧
    (rename ⟨ROOT,"f",ROOT,"f"⟩ s).reply = .ok () ∧ (rename ⟨ROOT,"f",ROOT,"f"⟩ s).deletes = [⟨"n","http://a",⟨2,0,0⟩⟩] ∧
    lookup ROOT "f" (rename ⟨ROOT,"f",ROOT,"f"⟩ s).state = inodeNotFound ∧
    (unlink ROOT "f" (rename ⟨ROOT,"f",ROOT,"f"⟩ s).state).reply = inodeNotFound ∧
    (create Host.still ⟨ROOT,"f",0,0,0⟩ (rename ⟨ROOT,"f",ROOT,"f"⟩ s).state).reply = refuse .alreadyExists "entry already exists" ∧
    ¬ KeepsSelf ROOT "f" s := by
  refine ⟨_,rfl,rfl,rfl,rfl,rfl,rfl,?_⟩
  intro keeps
  obtain ⟨_,_,_,deletes⟩ := keeps
  cases deletes

end Dtmpfs
