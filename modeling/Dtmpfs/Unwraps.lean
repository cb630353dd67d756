import Dtmpfs.Timestamps

/-! The `unwrap`s of the handlers. A handler that comes to one has looked the same entry
up before, and what it has removed in between is another one, whatever the tables hold. -/
namespace Dtmpfs
open MetaService MetaState OrderedMap

/-- The answer is a response or a status. -/
def Served.Answered {α : Type} (served : Served α) : Prop := served.reply ≠ .error .panicked

variable (host : Host) (s : MetaState)

theorem create_answered (r : CreateReq) : (create host r s).Answered := by
  rcases create_cases host r s with ⟨_,_,failed⟩ | ⟨_,_,_,made⟩
  · rw [failed]
    nofun
  · rw [made]
    nofun

theorem mkdir_answered (r : CreateReq) : (mkdir host r s).Answered := by
  rcases mkdir_cases host r s with ⟨_,_,failed⟩ | ⟨_,_,_,_,_,made⟩
  · rw [failed]
    nofun
  · rw [made]
    nofun

theorem unlink_answered (parentIno : InodeId) (name : String) : (unlink parentIno name s).Answered := by
  rcases unlink_cases parentIno name s with ⟨_,failed⟩ | ⟨_,_,_,_,_,_,_,gone⟩
  · rw [failed]
    nofun
  · rw [gone]
    nofun

theorem rmdir_answered (parentIno : InodeId) (name : String) : (rmdir parentIno name s).Answered := by
  rcases rmdir_cases parentIno name s with ⟨_,failed⟩ | ⟨_,_,_,_,_,_,_,_,gone⟩
  · rw [failed]
    nofun
  · rw [gone]
    nofun

theorem rename_answered (r : RenameReq) : (rename r s).Answered := by
  rcases rename_cases r s with ⟨_,failed⟩ | ⟨_,_,_,_,_,lost⟩ | ⟨_,_,_,_,_,_,_,_,_,ok,_⟩
  · rw [failed]
    nofun
  · rw [lost]
    nofun
  · rw [Served.Answered,ok]
    nofun

theorem allocateBlocks_answered (ino : InodeId) (idxs : List BlockIdx) : (MetaService.allocateBlocks host ino idxs s).Answered := by
  rcases allocateBlocks_cases host ino idxs s with ⟨_,missing⟩ | ⟨_,_,_,_,served,_⟩
  · rw [missing]
    nofun
  · rw [served]
    nofun

/-- The directory that `rmdir` removes is not the one whose entry it takes out next. -/
theorem rmdir_keeps_parent {parentIno child : InodeId} {name : String} {table : Map String InodeId}
    (named : s.resolve parentIno name = some child) (owns : s.dirs[child]? = some table) (empty : table.isEmpty = true) :
    child ≠ parentIno := by
  intro same
  subst same
  rw [resolve_of_dir owns,(isEmpty_iff table).mp empty name] at named
  cases named

/-- Nor is the directory that `rename` replaces one of the two it goes on with. -/
theorem rename_keeps_parents {r : RenameReq} {src dst : InodeId} (source : s.resolve r.srcParentIno r.srcName = some src)
    (destination : s.resolve r.dstParentIno r.dstName = some dst) (empty : s.dirs[dst]?.elim true (·.isEmpty) = true) :
    dst ≠ r.srcParentIno ∧ dst ≠ r.dstParentIno := by
  have vacant (n : String) : s.resolve dst n = none := by
    cases owns : s.dirs[dst]? with
    | none => rw [resolve,owns]; rfl
    | some table =>
      rw [owns] at empty
      rw [resolve_of_dir owns]
      exact (isEmpty_iff table).mp empty n
  constructor
  · intro same
    rw [← same,vacant] at source
    cases source
  · intro same
    rw [← same,vacant] at destination
    cases destination

/-- No `unwrap` of a handler meets a `None`, in any state whatsoever: the one panic left
is that of the time computation of `close`. -/
theorem unwraps_succeed : (∀ r, (create host r s).Answered) ∧ (∀ r, (mkdir host r s).Answered) ∧
    (∀ parentIno name, (unlink parentIno name s).Answered) ∧ (∀ parentIno name, (rmdir parentIno name s).Answered) ∧
    (∀ r, (rename r s).Answered) ∧ (∀ ino idxs, (MetaService.allocateBlocks host ino idxs s).Answered) ∧
    (∀ r : CloseReq, ¬ (close host r s).Answered → epochPlus (max r.mtimeS 0).toNat r.mtimeNs = none) ∧
    (∀ parentIno name child table, s.resolve parentIno name = some child → s.dirs[child]? = some table → table.isEmpty = true →
      child ≠ parentIno) ∧
    ∀ (r : RenameReq) src dst, s.resolve r.srcParentIno r.srcName = some src → s.resolve r.dstParentIno r.dstName = some dst →
      s.dirs[dst]?.elim true (·.isEmpty) = true → dst ≠ r.srcParentIno ∧ dst ≠ r.dstParentIno := by
  refine ⟨create_answered host s,mkdir_answered host s,unlink_answered s,rmdir_answered s,rename_answered s,
    allocateBlocks_answered host s,?_,?_,?_⟩
  · intro r aborted
    exact (epochPlus_none_iff r.mtimeS r.mtimeNs).mpr ((close_panics_iff host r s).mp (not_not.mp aborted)).2
  · intro parentIno name child table
    exact rmdir_keeps_parent s
  · intro r src dst
    exact rename_keeps_parents s

end Dtmpfs
