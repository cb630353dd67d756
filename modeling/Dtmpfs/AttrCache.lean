import Dtmpfs.Attributes
import Dtmpfs.Republishing
import Dtmpfs.Semantics.Runs

/-! The attribute cache of a client. Callbacks that receive attributes put them there,
`getattr` answers from it, and entries disappear at any time. A publish changes the
attributes on another path. -/
namespace Dtmpfs
open MetaService MetaState OrderedMap Cluster

/-- What a client with an attribute cache does: the callbacks that use the cache, an
entry that expires or is evicted, and every other step. -/
inductive AttrAct where
  | lookup (parent : InodeId) (name : String)
  | getattr (ino : InodeId)
  | setattr (host : Host) (r : SetAttrReq)
  | create (host : Host) (r : CreateReq) (flags : Nat)
  | mkdir (host : Host) (r : CreateReq)
  | expire (ino : InodeId)
  | other (label : Label)

structure Mount where
  cluster : Cluster
  attrCache : Map InodeId FileAttr

namespace Mount

/-- Steps of the one client there is, of the stores and of messages. Those that go
through the cache are acts of their own. -/
def solitary (c : ClientId) (label : Label) : Bool :=
  match label with
  | .create .. | .call _ (.setAttr _) | .call _ (.mkdir _) => false
  | _ => label.client = none || label.client = some c

/-- What an act does to the cluster. -/
def serve (bs : Nat) (c : ClientId) (act : AttrAct) (σ : Cluster) : Option Cluster :=
  match act with
  | .lookup _ _ | .getattr _ => if (σ.clients c).task.isNone then some σ else none
  | .setattr host r => if (σ.clients c).task.isNone then σ.call host (.setAttr r) else none
  | .create host r flags => σ.create c host r flags
  | .mkdir host r => if (σ.clients c).task.isNone then σ.call host (.mkdir r) else none
  | .expire _ => some σ
  | .other label => if solitary c label then Cluster.step bs label σ else none

/-- The entry a callback puts into the cache, before it replies. -/
def fill (act : AttrAct) (m : Mount) : Option (InodeId × FileAttr) :=
  match act with
  | .lookup parent name => (MetaService.lookup parent name m.cluster.metadata).toOption.map fun a => (a.ino,protoAttrToFuse a)
  | .getattr ino =>
    if m.attrCache.contains ino then none
    else (MetaService.getAttr ino m.cluster.metadata).toOption.map fun a => (ino,protoAttrToFuse a)
  | .setattr host r => (MetaService.setAttr host r m.cluster.metadata).reply.toOption.map fun a => (r.ino,protoAttrToFuse a)
  | .create host r _ =>
    (MetaService.create host r m.cluster.metadata).reply.toOption.map fun resp => (resp.attr.ino,protoAttrToFuse resp.attr)
  | .mkdir host r => (MetaService.mkdir host r m.cluster.metadata).reply.toOption.map fun a => (a.ino,protoAttrToFuse a)
  | .expire _ | .other _ => none

def step (bs : Nat) (c : ClientId) (act : AttrAct) (m : Mount) : Option Mount :=
  (serve bs c act m.cluster).map fun τ =>
    { cluster := τ
      attrCache := match m.fill act,act with
        | some (ino,attr),_ => m.attrCache.insert ino attr
        | none,.expire ino => m.attrCache.erase ino
        | none,_ => m.attrCache }

/-- What `getattr` replies. -/
def getattr (ino : InodeId) (m : Mount) : Except Fault FileAttr :=
  match m.attrCache[ino]? with
  | some attr => .ok attr
  | none => (MetaService.getAttr ino m.cluster.metadata).map protoAttrToFuse

end Mount

/-- The file a step writes to. -/
def writesTo (label : Label) (σ : Cluster) : Option InodeId :=
  match label with
  | .write c fh _ _ => (σ.clients c).openFiles[fh]?.map (·.ino)
  | _ => none

/-- The file whose `flush` or `fsync` returns `Ok` with this step. -/
def flushesOk (label : Label) (σ : Cluster) : Option InodeId :=
  match label with
  | .publish c fh _ _ => ((σ.clients c).openFiles[fh]?.filter (·.dirty.isEmpty)).map (·.ino)
  | .close c host clock =>
    match (σ.clients c).task with
    | some (.publishing p) =>
      match (σ.clients c).openFiles[p.fh]? with
      | some file =>
        if (MetaService.close host (closeReq p file.sizeHint clock) σ.metadata).reply.isOk then some p.ino else none
      | none => none
    | _ => none
  | _ => none

/-- The file for which a step executes a `Close` that is accepted. -/
def closesOk (label : Label) (σ : Cluster) : Option InodeId :=
  match label with
  | .close c host clock =>
    match (σ.clients c).task with
    | some (.publishing p) =>
      match (σ.clients c).openFiles[p.fh]? with
      | some file =>
        if (MetaService.close host (closeReq p file.sizeHint clock) σ.metadata).reply.isOk then
          σ.metadata.openHandles[p.fh]?.map (·.ino)
        else none
      | none => none
    | _ => none
  | _ => none

/-- The mount beside the files flushed with nothing written or set since, and the files
with a `Close` accepted since attributes of theirs came in. -/
structure Sight where
  mount : Mount
  flushed : List InodeId
  overtaken : List InodeId

namespace Sight

def new (now : SystemTime) (replicationFactor ramBudget : Nat) : Sight := ⟨⟨.new now replicationFactor ramBudget,∅⟩,[],[]⟩

def step (bs : Nat) (c : ClientId) (act : AttrAct) (v : Sight) : Option Sight :=
  (v.mount.step bs c act).map fun mount =>
    { mount := mount
      flushed := match act with
        | .setattr _ r => v.flushed.filter (· ≠ r.ino)
        | .other label => (flushesOk label v.mount.cluster).toList ++
            v.flushed.filter (fun i => writesTo label v.mount.cluster ≠ some i)
        | _ => v.flushed
      overtaken := match act with
        | .other label => (closesOk label v.mount.cluster).toList ++ v.overtaken
        | _ => v.overtaken.filter (fun i => (v.mount.fill act).map (·.1) ≠ some i) }

end Sight

/-- A `getattr` after a flush shows the size and the modification time that the server reports. -/
def OwnSizeSeen (act : AttrAct) (v : Sight) : Prop :=
  match act with
  | .getattr ino => ino ∈ v.flushed → ∀ a, MetaService.getAttr ino v.mount.cluster.metadata = .ok a →
      ∃ attr, v.mount.getattr ino = .ok attr ∧ attr.size = a.size ∧ attr.mtime = wireTime a.mtimeS a.mtimeNs
  | _ => True

/-- A `getattr` after a flush finds no entry that was there at the last accepted `Close`. -/
def Refreshed (act : AttrAct) (v : Sight) : Prop :=
  match act with
  | .getattr ino => ino ∈ v.flushed → ino ∈ v.overtaken → v.mount.attrCache[ino]? = none
  | _ => True

/-- What is stored under a number has the size and the modification time it had. -/
def SameSize (before after : Option Inode) : Prop :=
  ∀ new, after = some new → ∃ old, before = some old ∧ old.size = new.size ∧ old.mtime = new.mtime

namespace SameSize

variable {host : Host} {s t : MetaState} {i : InodeId} {before : Option Inode}

theorem refl (entry : Option Inode) : SameSize entry entry := fun new found => ⟨new,found,rfl,rfl⟩

theorem putInode {old new : Inode} {j : InodeId} (found : s.inodes[j]? = some old) (size : old.size = new.size)
    (mtime : old.mtime = new.mtime) : SameSize s.inodes[i]? (s.putInode j new).inodes[i]? := by
  simp only [MetaState.putInode,get_insert]
  split
  next same =>
    intro other stored
    cases stored
    exact ⟨old,same ▸ found,size,mtime⟩
  next => exact .refl _

theorem editNlink (same : SameSize before t.inodes[i]?) (change : Nat → Nat) (j : InodeId) :
    SameSize before (t.editNlink change j).inodes[i]? := by
  unfold MetaState.editNlink
  split
  next inode found =>
    simp only [MetaState.putInode,get_insert]
    split
    next here =>
      intro new stored
      cases stored
      exact same inode (here ▸ found)
    next => exact same
  next => exact same

theorem erase {inodes : Map InodeId Inode} (same : SameSize before inodes[i]?) (j : InodeId) : SameSize before (inodes.erase j)[i]? := by
  rw [get_erase]
  split
  · exact nofun
  · exact same

theorem removeDestination {r : RenameReq} {cleared : MetaState}
    {replaced : Option (InodeId × List (BlockIdx × BlockPlacement))} (removed : removeDestination r s = (.ok replaced,cleared)) :
    SameSize s.inodes[i]? cleared.inodes[i]? := by
  rcases removeDestination_cases r s with ⟨_,failed⟩ | ⟨_,same⟩ | ⟨_,dst,_,_,_,_,⟨_,result⟩ | ⟨_,_,_,result⟩⟩
  · rw [failed] at removed
    cases removed
  · rw [same] at removed
    cases removed
    exact .refl _
  · rw [result] at removed
    cases removed
    have dropped : SameSize s.inodes[i]? (s.inodes.erase dst)[i]? := (refl _).erase dst
    exact dropped
  · rw [result] at removed
    cases removed
    have edited : SameSize s.inodes[i]? (MetaState.editNlink (· - 1) r.dstParentIno {s with dirs := s.dirs.erase dst}).inodes[i]? :=
      (refl _).editNlink _ _
    exact edited.erase dst

theorem rename (r : RenameReq) : SameSize s.inodes[i]? (rename r s).state.inodes[i]? := by
  rcases rename_cases r s with ⟨_,failed⟩ | ⟨_,_,_,_,_,lost⟩ | ⟨src,replaced,cleared,_,_,_,removed,_,_,_,state⟩
  · rw [failed]
    exact .refl _
  · rw [lost]
    exact .refl _
  · have same : SameSize s.inodes[i]? cleared.inodes[i]? := .removeDestination removed
    rw [state]
    unfold adjustLinks
    split
    · refine editNlink ?_ _ _
      refine editNlink ?_ _ _
      exact same
    · exact same

/-- Requests other than the four that set sizes or make inodes leave sizes alone. -/
theorem serve (call : Call) (plain : call.plain = true) (unset : ∀ r, call ≠ .setAttr r) (unmade : ∀ r, call ≠ .mkdir r) :
    SameSize s.inodes[i]? (MetaService.serve host call s).inodes[i]? := by
  cases call with
  | lookup parent name => exact .refl _
  | getAttr j => exact .refl _
  | readDir r => exact .refl _
  | listNodes => exact .refl _
  | heartbeatNode instant r => exact .refl _
  | watcherTick now deadAfter => exact .refl _
  | setAttr r => exact absurd rfl (unset r)
  | mkdir r => exact absurd rfl (unmade r)
  | rename r => exact .rename r
  | unlink parent name =>
    rcases unlink_cases parent name s with ⟨_,failed⟩ | ⟨_,child,_,_,_,_,_,gone⟩
    · simp only [MetaService.serve,failed]
      exact .refl _
    · simp only [MetaService.serve,gone]
      exact (refl _).erase child
  | rmdir parent name =>
    rcases rmdir_cases parent name s with ⟨_,failed⟩ | ⟨_,child,_,_,_,_,_,_,gone⟩
    · simp only [MetaService.serve,failed]
      exact .refl _
    · simp only [MetaService.serve,gone,removedDir]
      exact ((refl _).erase child).editNlink _ _
  | _ => cases plain

theorem allocateBlocks (j : InodeId) (idxs : List BlockIdx) : SameSize s.inodes[i]? (allocateBlocks host j idxs s).state.inodes[i]? := by
  rcases allocateBlocks_cases host j idxs s with ⟨_,missing⟩ | ⟨old,_,_,found,served,_⟩
  · rw [missing]
    exact .refl _
  · rw [served]
    exact .putInode found rfl rfl

theorem close {r : CloseReq} (other : ∀ handle, s.openHandles[r.fh]? = some handle → handle.ino = i → (close host r s).reply.isOk = false) :
    SameSize s.inodes[i]? (close host r s).state.inodes[i]? := by
  rcases close_cases host r s with ⟨_,missing⟩ | ⟨handle,found,⟨_,refused⟩ | ⟨old,alive,⟨_,served⟩ | ⟨_,_,_,served⟩⟩⟩
  · rw [missing]
    exact .refl _
  · rw [refused]
    exact .refl _
  · rw [served]
    exact .refl _
  · have apart : handle.ino ≠ i := by
      intro same
      have refused := other handle found same
      rw [served] at refused
      cases refused
    rw [served]
    simp only [dropHandle,MetaState.putInode,get_insert,if_neg apart]
    exact .refl _

theorem setAttr {r : SetAttrReq} (other : r.ino = i → (setAttr host r s).reply.isOk = false) :
    SameSize s.inodes[i]? (setAttr host r s).state.inodes[i]? := by
  unfold MetaService.setAttr at other ⊢
  split
  next => exact .refl _
  next old found =>
    simp only [found] at other
    dsimp only at other ⊢
    split
    next => exact .putInode found rfl rfl
    next times =>
      simp only [times] at other
      split
      next => exact .putInode found rfl rfl
      next stamps =>
        simp only [stamps] at other
        have apart : r.ino ≠ i := by
          intro same
          cases other same
        simp only [MetaState.putInode,get_insert,if_neg apart]
        exact .refl _

theorem create {r : CreateReq} (other : s.nextIno = i → (create host r s).reply.isOk = false) :
    SameSize s.inodes[i]? (create host r s).state.inodes[i]? := by
  rcases create_cases host r s with ⟨_,_,failed⟩ | ⟨_,_,_,made⟩
  · rw [failed]
    exact .refl _
  · have apart : ¬ s.nextIno = i := by
      intro same
      have failed := other same
      rw [made] at failed
      cases failed
    rw [made]
    simp only [created,get_insert,if_neg apart]
    exact .refl _

theorem mkdir {r : CreateReq} (other : s.nextIno = i → (mkdir host r s).reply.isOk = false) :
    SameSize s.inodes[i]? (mkdir host r s).state.inodes[i]? := by
  rcases mkdir_cases host r s with ⟨_,_,failed⟩ | ⟨_,_,_,_,_,made⟩
  · rw [failed]
    exact .refl _
  · have apart : ¬ s.nextIno = i := by
      intro same
      have failed := other same
      rw [made] at failed
      cases failed
    rw [made]
    unfold madeDir
    refine editNlink ?_ _ _
    simp only [get_insert,if_neg apart]
    exact .refl _

end SameSize

/-- The attributes show the size and the modification time of the inode. -/
def Shows (attr : FileAttr) (inode : Inode) : Prop :=
  attr.size = (protoAttrToFuse (buildAttr inode)).size ∧ attr.mtime = (protoAttrToFuse (buildAttr inode)).mtime

theorem Shows.congr {attr : FileAttr} {old new : Inode} (shows : Shows attr old) (size : old.size = new.size) (mtime : old.mtime = new.mtime) :
    Shows attr new := by
  obtain ⟨told,dated⟩ := shows
  constructor
  · rw [told]
    exact size
  · rw [dated]
    simp only [protoAttrToFuse,buildAttr,mtime]

namespace Mount

variable {bs : Nat} {c : ClientId} {m : Mount} {σ τ : Cluster} {act : AttrAct} {label : Label} {i : InodeId} {attr : FileAttr}

/-- Steps outside the cache change sizes by an accepted `Close` only. -/
theorem other_sizes (alone : solitary c label = true) (stepped : Cluster.step bs label σ = some τ) (unclosed : closesOk label σ ≠ some i) :
    SameSize σ.metadata.inodes[i]? τ.metadata.inodes[i]? := by
  rw [step_metadata stepped]
  cases label with
  | call host request =>
    obtain ⟨plain,_⟩ := call_steps stepped
    refine SameSize.serve request plain ?_ ?_
    · intro r same
      rw [same] at alone
      cases alone
    · intro r same
      rw [same] at alone
      cases alone
  | create c host r flags => cases alone
  | openInsert c =>
    obtain ⟨snapshot,task,_⟩ := openInsert_steps stepped
    simp only [requested,task]
    exact .refl _
  | publish c fh wait host =>
    obtain ⟨file,_,found,_⟩ := publish_steps stepped
    simp only [requested,found]
    split
    · exact .refl _
    · exact .allocateBlocks file.ino (newIdxs file)
  | close c host clock =>
    obtain ⟨p,file,task,found,_,_,_⟩ := close_steps stepped
    simp only [requested,task,found,Option.map_some]
    apply SameSize.close
    intro handle entered same
    by_contra accepted
    rw [Bool.not_eq_false] at accepted
    apply unclosed
    have held : σ.metadata.openHandles[p.fh]? = some handle := entered
    simp only [closesOk,task,found,accepted,if_true,held,Option.map_some,same]
  | _ => exact .refl _

theorem filled_ok {α : Type} {reply : Except Fault α} {pick : α → InodeId × FileAttr} (filled : reply.toOption.map pick = some (i,attr)) :
    ∃ a, reply = .ok a ∧ pick a = (i,attr) := by
  cases reply with
  | error fault => cases filled
  | ok a => exact ⟨a,rfl,Option.some.inj filled⟩

theorem idle_served {outcome : Option Cluster} (served : (if (σ.clients c).task.isNone = true then outcome else none) = some τ) :
    outcome = some τ := by
  split at served
  · exact served
  · cases served

/-- Whatever an act puts into the cache is what the server has afterwards. -/
theorem fill_shows (stamped : m.cluster.metadata.Stamped) (filled : m.fill act = some (i,attr)) (served : serve bs c act m.cluster = some τ)
    {inode : Inode} (found : τ.metadata.inodes[i]? = some inode) : Shows attr inode := by
  cases act with
  | lookup parent name =>
    obtain ⟨a,told,same⟩ := filled_ok filled
    cases idle_served served
    unfold MetaService.lookup at told
    split at told
    · cases told
    next child named =>
      split at told
      · cases told
      next inode' alive =>
        cases told
        cases same
        change m.cluster.metadata.inodes[inode'.ino]? = some inode at found
        rw [stamped child inode' alive,alive] at found
        cases found
        exact ⟨rfl,rfl⟩
  | getattr ino =>
    simp only [fill] at filled
    split at filled
    · cases filled
    next =>
      obtain ⟨a,told,same⟩ := filled_ok filled
      cases idle_served served
      cases same
      unfold MetaService.getAttr at told
      rw [found] at told
      cases told
      exact ⟨rfl,rfl⟩
  | setattr host r =>
    obtain ⟨a,told,same⟩ := filled_ok filled
    obtain ⟨_,rfl⟩ := call_steps (idle_served served)
    cases same
    rcases setAttr_cases host r m.cluster.metadata with ⟨_,missing⟩ | ⟨_,after,_,_,_,state,⟨failed,_⟩ | ⟨reply,_⟩⟩
    · rw [missing] at told
      cases told
    · rw [failed] at told
      cases told
    · rw [reply] at told
      cases told
      simp only [MetaService.serve,state,putInode,get_insert,if_true] at found
      cases found
      exact ⟨rfl,rfl⟩
  | create host r flags =>
    obtain ⟨a,told,same⟩ := filled_ok filled
    rcases create_cases host r m.cluster.metadata with ⟨_,_,failed⟩ | ⟨_,_,_,made⟩
    · rw [failed] at told
      cases told
    · have stepped : Cluster.step bs (.create c host r flags) m.cluster = some τ := served
      have state := step_metadata stepped
      rw [made] at told
      cases told
      cases same
      rw [state] at found
      simp only [requested,Cluster.served,MetaService.serve,made,created,freshInode,buildAttr,get_insert,if_true] at found
      cases found
      exact ⟨rfl,rfl⟩
  | mkdir host r =>
    obtain ⟨a,told,same⟩ := filled_ok filled
    obtain ⟨_,rfl⟩ := call_steps (idle_served served)
    rcases mkdir_cases host r m.cluster.metadata with ⟨_,_,failed⟩ | ⟨_,_,_,_,_,made⟩
    · rw [failed] at told
      cases told
    · rw [made] at told
      cases told
      cases same
      have fresh : SameSize (some (freshInode host r .dir m.cluster.metadata.nextIno)) ((m.cluster.metadata.inodes.insert
          m.cluster.metadata.nextIno (freshInode host r .dir m.cluster.metadata.nextIno))[m.cluster.metadata.nextIno]?) := by
        simp only [get_insert,if_true]
        exact .refl _
      simp only [MetaService.serve,made,madeDir] at found
      obtain ⟨_,stored,size,mtime⟩ := SameSize.editNlink fresh (· + 1) r.parentIno inode found
      cases stored
      exact Shows.congr ⟨rfl,rfl⟩ size mtime
  | expire ino => cases filled
  | other label => cases filled

/-- Without it an act leaves the size alone, but for an accepted `Close`. -/
theorem unfilled_sizes (served : serve bs c act m.cluster = some τ) (unfilled : ∀ attr, m.fill act ≠ some (i,attr))
    (unclosed : ∀ label, act = .other label → closesOk label m.cluster ≠ some i) :
    SameSize m.cluster.metadata.inodes[i]? τ.metadata.inodes[i]? := by
  have refused {α : Type} {reply : Except Fault α} {pick : α → InodeId × FileAttr} (none : ∀ attr, reply.toOption.map pick ≠ some (i,attr))
      (mine : ∀ a, reply = .ok a → (pick a).1 = i) : reply.isOk = false := by
    cases reply with
    | error fault => rfl
    | ok a => exact absurd (by rw [← mine a rfl]; rfl) (none (pick a).2)
  cases act with
  | lookup parent name =>
    cases idle_served served
    exact .refl _
  | getattr ino =>
    cases idle_served served
    exact .refl _
  | setattr host r =>
    obtain ⟨_,rfl⟩ := call_steps (idle_served served)
    apply SameSize.setAttr
    intro same
    exact refused unfilled (fun _ _ => same)
  | create host r flags =>
    have stepped : Cluster.step bs (.create c host r flags) m.cluster = some τ := served
    rw [step_metadata stepped]
    apply SameSize.create
    intro same
    refine refused unfilled (fun a told => ?_)
    rcases create_cases host r m.cluster.metadata with ⟨_,_,failed⟩ | ⟨_,_,_,made⟩
    · rw [failed] at told
      cases told
    · rw [made] at told
      cases told
      exact same
  | mkdir host r =>
    obtain ⟨_,rfl⟩ := call_steps (idle_served served)
    apply SameSize.mkdir
    intro same
    refine refused unfilled (fun a told => ?_)
    rcases mkdir_cases host r m.cluster.metadata with ⟨_,_,failed⟩ | ⟨_,_,_,_,_,made⟩
    · rw [failed] at told
      cases told
    · rw [made] at told
      cases told
      exact same
  | expire ino =>
    cases served
    exact .refl _
  | other label =>
    simp only [serve] at served
    split at served
    next alone => exact other_sizes alone served (unclosed label rfl)
    next => cases served

theorem serve_keeps_stamps (stamped : m.cluster.metadata.Stamped) (moved : serve bs c act m.cluster = some τ) : τ.metadata.Stamped := by
  have steps {label : Label} (stepped : Cluster.step bs label m.cluster = some τ) : τ.metadata.Stamped := by
    rw [step_metadata stepped]
    cases requested label m.cluster with
    | none => exact stamped
    | some request => exact serve_stamped stamped request.1 request.2
  cases act with
  | lookup parent name =>
    cases idle_served moved
    exact stamped
  | getattr ino =>
    cases idle_served moved
    exact stamped
  | setattr host r => exact @steps (.call host (.setAttr r)) (idle_served moved)
  | create host r flags => exact @steps (.create c host r flags) moved
  | mkdir host r => exact @steps (.call host (.mkdir r)) (idle_served moved)
  | expire ino =>
    cases moved
    exact stamped
  | other label =>
    simp only [serve] at moved
    split at moved
    next => exact steps moved
    next => cases moved

end Mount

/-- Cached attributes show what the server has, unless a `Close` has come in between. -/
structure Truthful (v : Sight) : Prop where
  stamped : v.mount.cluster.metadata.Stamped
  shows : ∀ i attr inode, v.mount.attrCache[i]? = some attr → i ∉ v.overtaken →
    v.mount.cluster.metadata.inodes[i]? = some inode → Shows attr inode

theorem truthful_step {bs : Nat} {c : ClientId} {act : AttrAct} {v u : Sight} (truthful : Truthful v) (stepped : v.step bs c act = some u) :
    Truthful u := by
  obtain ⟨mount,moved,rfl⟩ := Option.map_eq_some_iff.mp stepped
  obtain ⟨τ,served,rfl⟩ := Option.map_eq_some_iff.mp moved
  refine ⟨Mount.serve_keeps_stamps truthful.stamped served,?_⟩
  intro i attr inode cached current found
  by_cases filled : ∃ attr', v.mount.fill act = some (i,attr')
  · obtain ⟨attr',filled⟩ := filled
    simp only [filled,get_insert,if_true] at cached
    cases cached
    exact Mount.fill_shows truthful.stamped filled served found
  · have unfilled : ∀ attr', v.mount.fill act ≠ some (i,attr') := not_exists.mp filled
    have before : v.mount.attrCache[i]? = some attr := by
      dsimp only at cached
      split at cached
      next j attr' entry =>
        have apart : ¬ j = i := fun same => unfilled attr' (same ▸ entry)
        rwa [get_insert,if_neg apart] at cached
      next =>
        rw [get_erase] at cached
        split at cached
        · cases cached
        · exact cached
      next => exact cached
    have old : i ∉ v.overtaken ∧ ∀ label, act = .other label → closesOk label v.mount.cluster ≠ some i := by
      have other : (v.mount.fill act).map (·.1) ≠ some i := by
        intro same
        obtain ⟨entry,filled,mine⟩ := Option.map_eq_some_iff.mp same
        exact unfilled entry.2 (by rw [filled,← mine])
      dsimp only at current
      split at current
      next label =>
        rw [List.mem_append,not_or] at current
        refine ⟨current.2,?_⟩
        intro label' same closes
        cases same
        exact current.1 (by rw [closes]; exact List.mem_singleton.mpr rfl)
      next neither =>
        refine ⟨?_,fun label same => absurd same (neither label)⟩
        intro overtaken
        exact current (List.mem_filter.mpr ⟨overtaken,decide_eq_true other⟩)
    obtain ⟨inode',alive,size,mtime⟩ := Mount.unfilled_sizes served unfilled old.2 inode found
    exact (truthful.shows i attr inode' before old.1 alive).congr size mtime

/-- A client sees its own published sizes in every run in which no `getattr` after a
flush finds an entry of the time before the last `Close`. -/
theorem own_sizes_seen (bs : Nat) (c : ClientId) (now : SystemTime) (replicationFactor ramBudget : Nat) (acts : List AttrAct)
    (refreshed : Runs.Each (Sight.step bs c) Refreshed acts (.new now replicationFactor ramBudget)) :
    Runs.Each (Sight.step bs c) OwnSizeSeen acts (.new now replicationFactor ramBudget) := by
  have start : Truthful (.new now replicationFactor ramBudget) := by
    constructor
    · intro i inode found
      simp only [Sight.new,Cluster.new,MetaState.new,get_insert] at found
      split at found
      next same =>
        cases found
        exact same
      next => cases found
    · intro i attr inode cached
      simp [Sight.new] at cached
  refine Runs.each_of_inv (fun act v u truthful stepped => truthful_step truthful stepped) ?_ acts start refreshed
  intro act v truthful refreshed
  cases act with
  | getattr ino =>
    intro flushed a told
    simp only [Mount.getattr]
    unfold MetaService.getAttr at told
    split at told
    · cases told
    next inode alive =>
      cases told
      cases cached : v.mount.attrCache[ino]? with
      | some attr =>
        have current : ino ∉ v.overtaken := by
          intro overtaken
          rw [refreshed flushed overtaken] at cached
          cases cached
        obtain ⟨size,mtime⟩ := truthful.shows ino attr inode cached current alive
        exact ⟨attr,rfl,size,mtime⟩
      | none =>
        refine ⟨protoAttrToFuse (buildAttr inode),?_,rfl,rfl⟩
        simp only [MetaService.getAttr,alive]
        rfl
  | _ => trivial

/-- A client creates a file, writes a byte and flushes it. -/
def sizedFile : List AttrAct :=
  [.other (.call Host.still (.heartbeatNode 0 ⟨"n","a",0,0,0⟩)),.create Host.still ⟨ROOT,"f",0,0,0⟩ 0] ++
    (writeByte 0 1 0 7 ++ flushBlock 0 1 0).map .other

theorem own_sizes_seen_expired : ∃ v, Runs.run (Sight.step 1 0) (sizedFile ++ [.expire 2]) (.new 0 1 64) = some v ∧ v.flushed = [2] ∧
    OwnSizeSeen (.getattr 2) v := by
  have refreshed : Runs.Each (Sight.step 1 0) Refreshed (sizedFile ++ [.expire 2] ++ [.getattr 2]) (.new 0 1 64) := by
    refine (Runs.each_cons rfl _).mpr ⟨trivial,?_⟩
    refine (Runs.each_cons rfl _).mpr ⟨trivial,?_⟩
    refine (Runs.each_cons rfl _).mpr ⟨trivial,?_⟩
    refine (Runs.each_cons rfl _).mpr ⟨trivial,?_⟩
    refine (Runs.each_cons rfl _).mpr ⟨trivial,?_⟩
    refine (Runs.each_cons rfl _).mpr ⟨trivial,?_⟩
    refine (Runs.each_cons rfl _).mpr ⟨trivial,?_⟩
    refine (Runs.each_cons rfl _).mpr ⟨trivial,?_⟩
    refine (Runs.each_cons rfl _).mpr ⟨?_,Runs.each_nil _⟩
    intro _ _
    rfl
  have seen := own_sizes_seen 1 0 0 1 64 (sizedFile ++ [.expire 2] ++ [.getattr 2]) refreshed
  exact ⟨_,rfl,rfl,seen (sizedFile ++ [.expire 2]) (.getattr 2) [] _ rfl rfl⟩

/-- The attributes cached by `create` say that the file is empty. -/
theorem getattr_shows_old_size : ¬ Runs.Each (Sight.step 1 0) OwnSizeSeen (sizedFile ++ [.getattr 2]) (.new 0 1 64) := by
  intro seen
  obtain ⟨attr,replied,size,_⟩ := seen sizedFile (.getattr 2) [] _ rfl rfl (List.mem_singleton.mpr rfl) _ rfl
  cases replied
  cases size

end Dtmpfs
