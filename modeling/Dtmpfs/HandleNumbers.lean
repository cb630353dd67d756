import Dtmpfs.ClusterCases
import Dtmpfs.FreshNumbers
import Dtmpfs.HandleLifetimes

/-! Whose handle a number is. The metadata server draws it, the client that gets it keeps
it, and until the counter wraps no other handle bears it. -/
namespace Dtmpfs
open MetaService MetaState OrderedMap Cluster

/-- A handle number is left that does not end the counter. -/
def HandlesLeft (s : MetaState) : Prop := s.nextFh + 1 < 2^64

instance (s : MetaState) : Decidable (HandlesLeft s) := inferInstanceAs (Decidable (s.nextFh + 1 < 2^64))

/-- Numbers in use have been drawn, and to the metadata server a client's handle is one of
the inode it is to the client. -/
structure HandlesOwn (σ : Cluster) : Prop where
  held : ∀ c (fh : Fh) file, (σ.clients c).openFiles[fh]? = some file →
    fh < σ.metadata.nextFh ∧ ∀ entry, σ.metadata.openHandles[fh]? = some entry → entry.ino = file.ino
  entered : ∀ (fh : Fh) entry, σ.metadata.openHandles[fh]? = some entry → fh < σ.metadata.nextFh

section Serve

variable {host : Host} {call : Call} {s : MetaState}

/-- Only `create` and `open` answer with a handle. -/
theorem fhOf_plain (plain : call.plain = true) : fhOf host call s = none := by
  cases call with
  | create r => cases plain
  | «open» r => cases plain
  | openInsert snapshot => cases plain
  | _ => rfl

theorem close_entry {r : CloseReq} {fh : Fh} {entry : OpenHandleSt} (found : (MetaService.close host r s).state.openHandles[fh]? = some entry) :
    s.openHandles[fh]? = some entry := by
  have kept (dropped : (s.dropHandle r.fh).openHandles[fh]? = some entry) : s.openHandles[fh]? = some entry := by
    simp only [dropHandle,get_erase] at dropped
    split at dropped
    next => cases dropped
    next => exact dropped
  rcases close_cases host r s with ⟨_,missing⟩ | ⟨_,_,⟨_,refused⟩ | ⟨_,_,⟨_,served⟩ | ⟨_,_,_,served⟩⟩⟩
  · rw [missing] at found
    exact found
  · rw [refused] at found
    exact kept found
  · rw [served] at found
    exact kept found
  · rw [served] at found
    exact kept found

/-- A request that hands no handle out enters none. -/
theorem serve_enters (unhanded : fhOf host call s = none) {fh : Fh} {entry : OpenHandleSt}
    (found : (serve host call s).openHandles[fh]? = some entry) : s.openHandles[fh]? = some entry := by
  cases plain : call.plain with
  | true =>
    rw [plain_handles plain] at found
    exact found
  | false =>
    cases call with
    | create r =>
      rcases create_cases host r s with ⟨_,_,failed⟩ | ⟨_,_,_,made⟩
      · simp only [serve,failed] at found
        exact found
      · simp only [fhOf,made] at unhanded
        cases unhanded
    | «open» r =>
      cases opened : openRead r s with
      | error fault =>
        simp only [serve,opened] at found
        exact found
      | ok snapshot =>
        simp only [fhOf,opened] at unhanded
        cases unhanded
    | openInsert snapshot => cases unhanded
    | close r => exact close_entry found
    | allocateBlocks i idxs =>
      simp only [serve] at found
      rcases allocateBlocks_cases host i idxs s with ⟨_,same⟩ | ⟨_,_,_,_,same,_⟩
      · rw [same] at found
        exact found
      · rw [same] at found
        exact found
    | _ => cases plain

theorem serve_nextFh (unhanded : fhOf host call s = none) : (serve host call s).nextFh = s.nextFh := by
  have counted := (serve_counts host call s).nextFh
  rw [unhanded] at counted
  exact counted

end Serve

section Step

variable {bs : Nat} {label : Label} {σ τ : Cluster}

/-- Every step but the two that open a file leaves the numbers as they are. -/
theorem HandlesOwn.unhanded (owned : HandlesOwn σ) (nextFh : τ.metadata.nextFh = σ.metadata.nextFh)
    (entries : ∀ (fh : Fh) entry, τ.metadata.openHandles[fh]? = some entry → σ.metadata.openHandles[fh]? = some entry)
    (files : ∀ c (fh : Fh) file, (τ.clients c).openFiles[fh]? = some file →
      ∃ before, (σ.clients c).openFiles[fh]? = some before ∧ before.ino = file.ino) : HandlesOwn τ := by
  constructor
  · intro c fh file found
    obtain ⟨before,held,same⟩ := files c fh file found
    obtain ⟨low,own⟩ := owned.held c fh before held
    rw [nextFh,← same]
    exact ⟨low,fun entry entered => own entry (entries fh entry entered)⟩
  · intro fh entry entered
    rw [nextFh]
    exact owned.entered fh entry (entries fh entry entered)

/-- A file is opened under the next number. -/
theorem HandlesOwn.handed (owned : HandlesOwn σ) (left : HandlesLeft σ.metadata) (ino : InodeId) (entry : OpenHandleSt) (own : entry.ino = ino)
    (nextFh : τ.metadata.nextFh = (σ.metadata.nextFh + 1) % 2^64)
    (handles : τ.metadata.openHandles = σ.metadata.openHandles.insert σ.metadata.nextFh entry)
    (files : ∀ c (fh : Fh) file, (τ.clients c).openFiles[fh]? = some file →
      (σ.clients c).openFiles[fh]? = some file ∨ fh = σ.metadata.nextFh ∧ file.ino = ino) : HandlesOwn τ := by
  rw [Nat.mod_eq_of_lt left] at nextFh
  constructor
  · intro c fh file found
    rw [nextFh]
    rcases files c fh file found with before | ⟨rfl,mine⟩
    · obtain ⟨low,same⟩ := owned.held c fh file before
      refine ⟨Nat.lt_succ_of_lt low,?_⟩
      intro other entered
      rw [handles,get_insert,if_neg (Nat.ne_of_gt low)] at entered
      exact same other entered
    · refine ⟨Nat.lt_succ_self _,?_⟩
      intro other entered
      rw [handles,get_insert,if_pos rfl] at entered
      cases entered
      exact own.trans mine.symm
  · intro fh other entered
    rw [nextFh]
    rw [handles,get_insert] at entered
    split at entered
    next same => exact same ▸ Nat.lt_succ_self _
    next => exact Nat.lt_succ_of_lt (owned.entered fh other entered)

/-- The handle number a step has handed out. -/
def handedBy (label : Label) (σ : Cluster) : Option Fh := (requested label σ).bind fun request => fhOf request.1 request.2 σ.metadata

/-- Steps that draw a handle number. -/
def Draws : Label → Prop
  | .create _ _ _ _ | .openInsert _ => True
  | _ => False

theorem unhanded_of_step (stepped : step bs label σ = some τ) (undrawn : ¬ Draws label) : handedBy label σ = none := by
  unfold handedBy
  cases label with
  | create c host r flags => exact absurd trivial undrawn
  | openInsert c => exact absurd trivial undrawn
  | call host request =>
    obtain ⟨plain,_⟩ := call_steps stepped
    exact fhOf_plain plain
  | publish c fh wait host =>
    simp only [requested]
    split
    next =>
      split
      next => rfl
      next => rfl
    next => rfl
  | close c host clock =>
    obtain ⟨p,file,task,found,_⟩ := close_steps stepped
    simp only [requested,task,found,Option.map_some,Option.bind_some]
    rfl
  | _ => rfl

/-- A handle in a client's table was there under its number before, unless it is the new one. -/
theorem renewed_ino {c : ClientId} {fh : Fh} {file : OpenFile} (renews : Renews σ c label fh file) :
    (∃ before, (σ.clients c).openFiles[fh]? = some before ∧ before.ino = file.ino) ∨ Draws label := by
  cases renews with
  | created host r flags ok => exact .inr trivial
  | opened snapshot task => exact .inr trivial
  | wrote up _ offset data done handle _ task found ino generation blockMap => exact .inl ⟨handle,found,ino.symm⟩
  | begun _ wait host handle locs found dirty told => exact .inl ⟨handle,found,rfl⟩
  | closed host clock p handle attr task found => exact .inl ⟨handle,found,rfl⟩

theorem files_of_step (stepped : step bs label σ = some τ) (undrawn : ¬ Draws label) (c : ClientId) (fh : Fh) (file : OpenFile)
    (found : (τ.clients c).openFiles[fh]? = some file) :
    ∃ before, (σ.clients c).openFiles[fh]? = some before ∧ before.ino = file.ino := by
  rcases step_openFile stepped found with old | renews
  · exact ⟨file,old,rfl⟩
  · exact (renewed_ino renews).resolve_right undrawn

/-- A step that draws no number keeps those in use. -/
theorem handlesOwn_undrawn (owned : HandlesOwn σ) (stepped : step bs label σ = some τ) (undrawn : ¬ Draws label) : HandlesOwn τ := by
  have unhanded := unhanded_of_step stepped undrawn
  have files := files_of_step stepped undrawn
  have metadata := step_metadata stepped
  unfold handedBy at unhanded
  cases asked : requested label σ with
  | none =>
    rw [asked] at metadata
    exact owned.unhanded (congrArg MetaState.nextFh metadata) (fun fh entry found => by rw [metadata] at found; exact found) files
  | some request =>
    rw [asked] at metadata unhanded
    refine owned.unhanded ?_ ?_ files
    · rw [metadata]
      exact serve_nextFh unhanded
    · intro fh entry found
      rw [metadata] at found
      exact serve_enters unhanded found

theorem handlesOwn_create {c : ClientId} {host : Host} {r : CreateReq} {flags : Nat} (owned : HandlesOwn σ) (left : HandlesLeft σ.metadata)
    (stepped : step bs (.create c host r flags) σ = some τ) : HandlesOwn τ := by
  have files (d : ClientId) (fh : Fh) (file : OpenFile) (found : (τ.clients d).openFiles[fh]? = some file) :
      (σ.clients d).openFiles[fh]? = some file ∨ Renews σ d (.create c host r flags) fh file := step_openFile stepped found
  obtain ⟨_,⟨rfl,_⟩ | ⟨ok,rfl⟩⟩ := create_steps stepped
  · exact owned
  · rcases create_cases host r σ.metadata with ⟨_,_,failed⟩ | ⟨dir,_,_,made⟩
    · rw [failed] at ok
      cases ok
    · refine owned.handed left σ.metadata.nextIno ⟨σ.metadata.nextFh,σ.metadata.nextIno,0,0⟩ rfl ?_ ?_ ?_
      · simp only [setClient,made,created]
      · simp only [setClient,made,created]
      · intro d fh file found
        rcases files d fh file found with old | renews
        · exact .inl old
        · cases renews with
          | created _ _ _ _ => exact .inr ⟨rfl,rfl⟩

theorem handlesOwn_openInsert {c : ClientId} (owned : HandlesOwn σ) (left : HandlesLeft σ.metadata)
    (stepped : step bs (.openInsert c) σ = some τ) : HandlesOwn τ := by
  have files (d : ClientId) (fh : Fh) (file : OpenFile) (found : (τ.clients d).openFiles[fh]? = some file) :
      (σ.clients d).openFiles[fh]? = some file ∨ Renews σ d (.openInsert c) fh file := step_openFile stepped found
  obtain ⟨snapshot,task,rfl⟩ := openInsert_steps stepped
  refine owned.handed left snapshot.ino ⟨σ.metadata.nextFh,snapshot.ino,snapshot.flags,snapshot.generation⟩ rfl rfl rfl ?_
  intro d fh file found
  rcases files d fh file found with old | renews
  · exact .inl old
  · cases renews with
    | opened other task' =>
      rw [task] at task'
      cases task'
      exact .inr ⟨rfl,rfl⟩

theorem handlesOwn_step (owned : HandlesOwn σ) (left : Draws label → HandlesLeft σ.metadata) (stepped : step bs label σ = some τ) :
    HandlesOwn τ := by
  rcases Classical.em (Draws label) with drawn | undrawn
  · cases label with
    | create c host r flags => exact handlesOwn_create owned (left drawn) stepped
    | openInsert c => exact handlesOwn_openInsert owned (left drawn) stepped
    | _ => exact drawn.elim
  · exact handlesOwn_undrawn owned stepped undrawn

end Step

end Dtmpfs
