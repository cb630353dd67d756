import Dtmpfs.HandleLifetimes
import Dtmpfs.Republishing
import Dtmpfs.Semantics.Runs

/-! Handles of one client, from the request that gives them out to the reply of their
`release`. Two tables list them, and `release` is answered on several paths. -/
namespace Dtmpfs
open MetaService MetaState OrderedMap Cluster

/-- The kernel calls `release` of a handle, or the cluster takes a step. -/
inductive Deed where
  | release (fh : Fh)
  | step (label : Label)

/-- The handle a step gives out. -/
def given (label : Label) (σ : Cluster) : Option Fh :=
  match label with
  | .create _ host r _ =>
    match (MetaService.create host r σ.metadata).reply with
    | .ok resp => some resp.fh
    | .error _ => none
  | .openInsert c =>
    match (σ.clients c).task with
    | some (.opening snapshot) => some (MetaService.openInsert snapshot σ.metadata).1.fh
    | _ => none
  | _ => none

/-- The handle whose `Close` a step executes. -/
def closing (label : Label) (σ : Cluster) : Option Fh :=
  match label with
  | .close c _ _ =>
    match (σ.clients c).task with
    | some (.publishing p) => some p.fh
    | _ => none
  | _ => none

/-- With this step `flush_path` returns an error. -/
def fails (label : Label) (σ : Cluster) : Bool :=
  match label with
  | .publish c fh _ host =>
    match (σ.clients c).openFiles[fh]? with
    | some file => !file.dirty.isEmpty && !(allocated host file σ.metadata).reply.isOk
    | none => true
  | .close c host clock =>
    match (σ.clients c).task with
    | some (.publishing p) =>
      match (σ.clients c).openFiles[p.fh]? with
      | some file => !(MetaService.close host (closeReq p file.sizeHint clock) σ.metadata).reply.isOk
      | none => false
    | _ => false
  | .abort _ _ => true
  | _ => false

/-- The cluster beside the calls of one client: the handle it is releasing, those it was
given, those the server has closed and those whose `release` has replied. A handle that
is given out again is a new one. -/
structure Watch where
  cluster : Cluster
  releasing : Option Fh
  obtained : List Fh
  closed : List Fh
  replied : List Fh

namespace Watch

def new (now : SystemTime) (replicationFactor ramBudget : Nat) : Watch :=
  ⟨.new now replicationFactor ramBudget,none,[],[],[]⟩

/-- A callback of the client runs to its end before the next one, and only `release`
removes a handle. -/
def permits (c : ClientId) (label : Label) (w : Watch) : Bool :=
  label.client ≠ some c ||
    match w.releasing,label with
    | none,.release _ _ => false
    | none,_ => true
    | some fh,.publish _ fh' wait _ => fh' = fh && wait = .primariesOnly
    | some fh,.release _ fh' => fh' = fh
    | some _,.send _ _ | some _,.close _ _ _ | some _,.abort _ _ | some _,.evict _ _ => true
    | some _,_ => false

/-- The `release` that is answered with this step. -/
def replies (c : ClientId) (label : Label) (w : Watch) : Option Fh :=
  if label.client = some c then
    match label with
    | .release _ _ => w.releasing
    | _ => if fails label w.cluster then w.releasing else none
  else none

def next (c : ClientId) (label : Label) (τ : Cluster) (w : Watch) : Watch :=
  let earlier (fhs : List Fh) := fhs.filter (fun fh => given label w.cluster ≠ some fh)
  { cluster := τ
    releasing := if (w.replies c label).isSome then none else w.releasing
    obtained := (if label.client = some c then (given label w.cluster).toList else []) ++ earlier w.obtained
    closed := (closing label w.cluster).toList ++ earlier w.closed
    replied := (w.replies c label).toList ++ earlier w.replied }

def step (bs : Nat) (c : ClientId) (deed : Deed) (w : Watch) : Option Watch :=
  match deed with
  | .release fh =>
    if w.releasing = none ∧ (w.cluster.clients c).task.isNone ∧ (w.cluster.clients c).openFiles.contains fh ∧ fh ∉ w.replied then
      some {w with releasing := some fh}
    else none
  | .step label => if w.permits c label then (Cluster.step bs label w.cluster).map (fun τ => w.next c label τ) else none

def run (bs : Nat) (c : ClientId) : List Deed → Watch → Option Watch := Runs.run (step bs c)

/-- How many handles of the client the server has. -/
def metaHandles (w : Watch) : Nat := (w.cluster.metadata.openHandles.keys.filter (· ∈ w.obtained)).length

end Watch

/-- A handle whose `release` has replied is in neither table, and a client that has
released everything has no handle at the server. -/
def NoLeaks (c : ClientId) (w : Watch) : Prop :=
  (∀ fh ∈ w.replied, (w.cluster.clients c).openFiles[fh]? = none ∧ w.cluster.metadata.openHandles[fh]? = none) ∧
    ((∀ fh ∈ w.obtained, fh ∈ w.replied) → w.metaHandles = 0)

/-- What `release` relies on. A clean handle has had a `Close`. A dirty one has had none,
its file is still there and has not been published since it was opened, and all its
blocks reach their primaries. -/
def ClosesOnce (c : ClientId) (deed : Deed) (w : Watch) : Prop :=
  match deed,w.releasing with
  | .step (.release c' _),some fh => c' = c → fh ∈ w.closed
  | .step (.publish c' fh _ _),some _ => c' = c → ∀ file, (w.cluster.clients c).openFiles[fh]? = some file →
      file.dirty.isEmpty = false → newIdxs file ≠ [] → ∃ inode, w.cluster.metadata.inodes[file.ino]? = some inode
  | .step (.close c' _ _),some _ => c' = c → ∀ p, (w.cluster.clients c).task = some (.publishing p) →
      p.fh ∉ w.closed ∧ ∀ entry, w.cluster.metadata.openHandles[p.fh]? = some entry →
        ∃ inode, w.cluster.metadata.inodes[entry.ino]? = some inode ∧ (p.dirty.keys ≠ [] → inode.generation = p.generation)
  | .step (.abort c' _),some _ => c' ≠ c
  | _,_ => True

section Tables

variable {bs : Nat} {c : ClientId} {σ τ : Cluster} {label : Label}

/-- What a step does to the handles of the server. -/
structure Handing (label : Label) (σ τ : Cluster) : Prop where
  given : ∀ fh, given label σ = some fh → ∃ entry, τ.metadata.openHandles[fh]? = some entry
  closed : ∀ fh, closing label σ = some fh → τ.metadata.openHandles[fh]? = none
  kept : ∀ fh, Dtmpfs.given label σ ≠ some fh → closing label σ ≠ some fh →
    τ.metadata.openHandles[fh]? = σ.metadata.openHandles[fh]?

theorem Handing.still (ungiven : Dtmpfs.given label σ = none) (unclosed : closing label σ = none)
    (same : τ.metadata.openHandles = σ.metadata.openHandles) : Handing label σ τ where
  given fh some := by rw [ungiven] at some; cases some
  closed fh some := by rw [unclosed] at some; cases some
  kept fh _ _ := by rw [same]

theorem allocated_handles (host : Host) (file : OpenFile) (s : MetaState) :
    (allocated host file s).state.openHandles = s.openHandles := by
  unfold allocated
  split
  next => rfl
  next =>
    rcases allocateBlocks_cases host file.ino (newIdxs file) s with ⟨_,same⟩ | ⟨_,_,_,_,same,_⟩
    · rw [same]
    · rw [same]
      rfl

theorem close_others (host : Host) (r : CloseReq) (s : MetaState) {fh : Fh} (other : r.fh ≠ fh) :
    (MetaService.close host r s).state.openHandles[fh]? = s.openHandles[fh]? := by
  have dropped : (s.dropHandle r.fh).openHandles[fh]? = s.openHandles[fh]? := by
    simp only [dropHandle,get_erase,if_neg other]
  rcases close_cases host r s with ⟨_,refused⟩ | ⟨_,_,⟨_,refused⟩ | ⟨_,_,⟨_,served⟩ | ⟨_,_,_,served⟩⟩⟩
  · rw [refused]
  · rw [refused]
    exact dropped
  · rw [served]
    exact dropped
  · rw [served]
    exact dropped

theorem step_handing (stepped : Cluster.step bs label σ = some τ) : Handing label σ τ := by
  cases label with
  | call host request =>
    obtain ⟨plain,rfl⟩ := call_steps stepped
    exact .still rfl rfl (plain_handles plain host σ.metadata)
  | create c host r flags =>
    obtain ⟨_,outcome⟩ := create_steps stepped
    rcases create_cases host r σ.metadata with ⟨_,status,failed⟩ | ⟨dir,_,_,made⟩
    · rcases outcome with ⟨rfl,_⟩ | ⟨ok,_⟩
      · exact .still (by simp only [given,failed]) rfl rfl
      · rw [failed] at ok
        cases ok
    · have drawn : given (.create c host r flags) σ = some σ.metadata.nextFh := by simp only [given,made]
      rcases outcome with ⟨_,_,failed⟩ | ⟨_,rfl⟩
      · rw [made] at failed
        cases failed
      · refine ⟨?_,?_,?_⟩
        · intro fh same
          rw [drawn] at same
          cases same
          exact ⟨⟨σ.metadata.nextFh,σ.metadata.nextIno,0,0⟩,by simp only [setClient,made,created,get_insert,if_true]⟩
        · intro fh same
          cases same
        · intro fh other _
          have apart : ¬ σ.metadata.nextFh = fh := fun same => other (drawn.trans (congrArg some same))
          simp only [setClient,made,created,get_insert,if_neg apart]
  | openInsert c =>
    obtain ⟨snapshot,task,rfl⟩ := openInsert_steps stepped
    have drawn : given (.openInsert c) σ = some σ.metadata.nextFh := by simp only [given,task]; rfl
    refine ⟨?_,?_,?_⟩
    · intro fh same
      rw [drawn] at same
      cases same
      exact ⟨⟨σ.metadata.nextFh,snapshot.ino,snapshot.flags,snapshot.generation⟩,by
        simp only [setClient,MetaService.openInsert,allocFh,get_insert,if_true]⟩
    · intro fh same
      cases same
    · intro fh other _
      have apart : ¬ σ.metadata.nextFh = fh := fun same => other (drawn.trans (congrArg some same))
      simp only [setClient,MetaService.openInsert,allocFh,get_insert,if_neg apart]
  | publish c fh wait host =>
    obtain ⟨file,_,_,⟨_,rfl⟩ | ⟨_,_,rfl⟩ | ⟨_,_,_,rfl⟩⟩ := publish_steps stepped
    · exact .still rfl rfl rfl
    · exact .still rfl rfl (allocated_handles host file σ.metadata)
    · exact .still rfl rfl (allocated_handles host file σ.metadata)
  | close c host clock =>
    obtain ⟨p,file,task,_,_,_,rfl⟩ := close_steps stepped
    have mine : closing (.close c host clock) σ = some p.fh := by simp only [closing,task]
    refine ⟨?_,?_,?_⟩
    · intro fh same
      cases same
    · intro fh same
      rw [mine] at same
      cases same
      exact close_drops host (closeReq p file.sizeHint clock) σ.metadata
    · intro fh _ other
      have apart : p.fh ≠ fh := fun same => other (mine.trans (congrArg some same))
      exact close_others host (closeReq p file.sizeHint clock) σ.metadata apart
  -- The others ask nothing of the metadata server.
  | _ => exact .still rfl rfl (congrArg MetaState.openHandles (step_metadata stepped))

theorem settled_files (client : Client) (fh : Fh) (file : OpenFile) (reply : Except Fault Attr) :
    (settled client fh file reply).openFiles = client.openFiles ∨
      ∃ file', (settled client fh file reply).openFiles = client.openFiles.insert fh file' := by
  cases reply with
  | error fault => exact .inl rfl
  | ok attr => exact .inr ⟨_,rfl⟩

theorem holds_insert {files : Map Fh OpenFile} {fh : Fh} {old : OpenFile} (found : files[fh]? = some old) (new : OpenFile) (other : Fh) :
    (files.insert fh new).contains other = files.contains other := by
  have holds : files.contains fh = true := (contains_iff files fh).mpr ⟨old,found⟩
  by_cases same : fh = other
  · subst same
    simp [holds]
  · simp [same]

/-- A client comes by a handle when it is given out, and drops it with `release`. -/
theorem step_files (stepped : Cluster.step bs label σ = some τ) (c : ClientId) (fh : Fh) :
    (τ.clients c).openFiles.contains fh = (σ.clients c).openFiles.contains fh ∨
    (label.client = some c ∧ given label σ = some fh ∧ (τ.clients c).openFiles.contains fh = true) ∨
    (label = .release c fh ∧ (τ.clients c).openFiles.contains fh = false) := by
  have installs (drawn : Fh) (file : OpenFile) :
      (installed (σ.clients c) drawn file).openFiles.contains fh = (σ.clients c).openFiles.contains fh ∨
      (drawn = fh ∧ (installed (σ.clients c) drawn file).openFiles.contains fh = true) := by
    by_cases same : drawn = fh
    · exact .inr ⟨same,by simp [installed,same]⟩
    · exact .inl (by simp [installed,same])
  rcases step_turn stepped c with same | turn
  · exact .inl (by rw [same])
  · have mine := turn.client
    generalize after : τ.clients c = client at turn
    cases turn with
    | created c host r flags idle =>
      obtain ⟨_,⟨rfl,_⟩ | ⟨ok,_⟩⟩ := create_steps stepped
      · exact .inl (by rw [← after])
      · rcases installs σ.metadata.nextFh _ with same | ⟨rfl,holds⟩
        · exact .inl same
        · exact .inr (.inl ⟨mine,by simp only [given,ok],holds⟩)
    | opened c snapshot task =>
      rcases installs σ.metadata.nextFh (snapshotFile snapshot) with same | ⟨rfl,holds⟩
      · exact .inl same
      · exact .inr (.inl ⟨mine,by simp only [given,task]; rfl,holds⟩)
    | wrote c up fh' offset data done handle handle' left task found =>
      exact .inl (holds_insert found handle' fh)
    | begun c fh' wait host handle locs idle found =>
      exact .inl (holds_insert found _ fh)
    | closed c host clock p handle reply task found =>
      rcases settled_files (σ.clients c) p.fh handle reply with same | ⟨handle',same⟩
      · exact .inl (by rw [same])
      · rw [same]
        exact .inl (holds_insert found handle' fh)
    | released c fh' idle =>
      by_cases same : fh' = fh
      · subst same
        exact .inr (.inr ⟨rfl,by simp⟩)
      · exact .inl (by simp [same])
    | _ => exact .inl rfl

end Tables

/-- The handle is in neither table. -/
def Gone (c : ClientId) (fh : Fh) (σ : Cluster) : Prop :=
  (σ.clients c).openFiles[fh]? = none ∧ σ.metadata.openHandles[fh]? = none

theorem noLeaks_iff (c : ClientId) (w : Watch) : NoLeaks c w ↔ ∀ fh ∈ w.replied, Gone c fh w.cluster := by
  constructor
  · intro sound
    exact sound.1
  · intro gone
    refine ⟨gone,fun released => ?_⟩
    unfold Watch.metaHandles
    rw [List.length_eq_zero_iff,List.filter_eq_nil_iff]
    intro fh entered obtained
    have present : fh ∈ w.cluster.metadata.openHandles := Std.ExtTreeMap.mem_keys.mp entered
    rw [Std.ExtTreeMap.mem_iff_isSome_getElem?,(gone fh (released fh (of_decide_eq_true obtained))).2] at present
    cases present

/-- What the two tables have to do with the calls so far. -/
structure Accounted (c : ClientId) (w : Watch) : Prop where
  closed : ∀ fh ∈ w.closed, w.cluster.metadata.openHandles[fh]? = none
  held : ∀ fh, (w.cluster.clients c).openFiles.contains fh = true → fh ∉ w.closed →
    ∃ entry, w.cluster.metadata.openHandles[fh]? = some entry
  releasing : ∀ fh, w.releasing = some fh → (w.cluster.clients c).openFiles.contains fh = true
  task : ∀ fh task, w.releasing = some fh → (w.cluster.clients c).task = some task → ∃ p, task = .publishing p ∧ p.fh = fh

namespace Watch

variable {bs : Nat} {c : ClientId} {w : Watch} {τ : Cluster} {label : Label} {fh : Fh}

theorem mem_closed : fh ∈ (w.next c label τ).closed ↔
    closing label w.cluster = some fh ∨ fh ∈ w.closed ∧ given label w.cluster ≠ some fh := by
  simp [next]

theorem mem_replied : fh ∈ (w.next c label τ).replied ↔
    w.replies c label = some fh ∨ fh ∈ w.replied ∧ given label w.cluster ≠ some fh := by
  simp [next]

theorem next_releasing : (w.next c label τ).releasing = some fh ↔ w.replies c label = none ∧ w.releasing = some fh := by
  simp only [next]
  cases w.replies c label with
  | none => simp
  | some other => simp

theorem gone_step (stepped : Cluster.step bs label w.cluster = some τ) (old : given label w.cluster ≠ some fh)
    (gone : Gone c fh w.cluster) : Gone c fh τ := by
  obtain ⟨files,handles⟩ := gone
  have handing := step_handing stepped
  have absent : (w.cluster.clients c).openFiles.contains fh = false := (vacant_iff _ fh).mpr files
  constructor
  · have still : (τ.clients c).openFiles.contains fh = false := by
      rcases step_files stepped c fh with same | ⟨_,new,_⟩ | ⟨_,erased⟩
      · rw [same]
        exact absent
      · exact absurd new old
      · exact erased
    exact (vacant_iff _ fh).mp still
  · by_cases closes : closing label w.cluster = some fh
    · exact handing.closed fh closes
    · rw [handing.kept fh old closes]
      exact handles

theorem permits_cases (permitted : w.permits c label = true) (mine : label.client = some c) (releasing : w.releasing = some fh) :
    (∃ host, label = .publish c fh .primariesOnly host) ∨ (∃ idx, label = .send c idx) ∨
    (∃ host clock, label = .close c host clock) ∨ (∃ stray, label = .abort c stray) ∨ label = .release c fh ∨
    ∃ keep, label = .evict c keep := by
  simp only [permits,mine,releasing] at permitted
  cases label with
  | publish c' fh' wait host =>
    simp at permitted
    cases mine
    exact .inl ⟨host,by rw [permitted.1,permitted.2]⟩
  | send c' idx =>
    cases mine
    exact .inr (.inl ⟨idx,rfl⟩)
  | close c' host clock =>
    cases mine
    exact .inr (.inr (.inl ⟨host,clock,rfl⟩))
  | abort c' stray =>
    cases mine
    exact .inr (.inr (.inr (.inl ⟨stray,rfl⟩)))
  | release c' fh' =>
    simp at permitted
    cases mine
    exact .inr (.inr (.inr (.inr (.inl (by rw [permitted])))))
  | evict c' keep =>
    cases mine
    exact .inr (.inr (.inr (.inr (.inr ⟨keep,rfl⟩))))
  | _ => simp at permitted

theorem kept_task (kept : Accounted c w) (permitted : w.permits c label = true) (stepped : Cluster.step bs label w.cluster = some τ)
    (releasing : w.releasing = some fh) {task : Task} (busy : (τ.clients c).task = some task) :
    ∃ p, task = .publishing p ∧ p.fh = fh := by
  by_cases mine : label.client = some c
  · rcases permits_cases permitted mine releasing with ⟨host,rfl⟩ | ⟨idx,rfl⟩ | ⟨host,clock,rfl⟩ | ⟨stray,rfl⟩ | rfl | ⟨keep,rfl⟩
    · obtain ⟨file,idle,_,⟨_,rfl⟩ | ⟨_,_,rfl⟩ | ⟨_,locs,_,rfl⟩⟩ := publish_steps stepped
      · rw [idle] at busy
        cases busy
      · rw [idle] at busy
        cases busy
      · rw [setClient_same] at busy
        cases busy
        exact ⟨_,rfl,rfl⟩
    · obtain ⟨p,_,_,node,sending,_,_,_,_,_,rfl⟩ := send_steps stepped
      obtain ⟨p',same,mine⟩ := kept.task fh _ releasing sending
      cases same
      simp only [setClient_same] at busy
      cases busy
      exact ⟨_,rfl,mine⟩
    · obtain ⟨p,file,_,_,_,_,rfl⟩ := close_steps stepped
      rw [setClient_same] at busy
      unfold settled at busy
      split at busy
      · cases busy
      · cases busy
    · obtain ⟨p,_,rfl⟩ := abort_steps stepped
      simp only [setClient_same] at busy
      cases busy
    · obtain ⟨idle,rfl⟩ := release_steps stepped
      simp only [setClient_same,idle] at busy
      cases busy
    · cases Option.some.inj stepped
      simp only [setClient_same] at busy
      exact kept.task fh task releasing busy
  · rw [client_kept stepped mine] at busy
    exact kept.task fh task releasing busy

theorem kept_next (kept : Accounted c w) (permitted : w.permits c label = true) (stepped : Cluster.step bs label w.cluster = some τ) :
    Accounted c (w.next c label τ) := by
  have handing := step_handing stepped
  refine ⟨?_,?_,?_,?_⟩
  · intro fh closed
    rcases mem_closed.mp closed with now | ⟨before,old⟩
    · exact handing.closed fh now
    · by_cases now : closing label w.cluster = some fh
      · exact handing.closed fh now
      · exact (handing.kept fh old now).trans (kept.closed fh before)
  · intro fh holds unclosed
    by_cases new : given label w.cluster = some fh
    · exact handing.given fh new
    · have before : (w.cluster.clients c).openFiles.contains fh = true := by
        rcases step_files stepped c fh with same | ⟨_,given,_⟩ | ⟨_,erased⟩
        · exact same.symm.trans holds
        · exact absurd given new
        · exact absurd (holds.symm.trans erased) nofun
      have open_ : closing label w.cluster ≠ some fh := fun now => unclosed (mem_closed.mpr (.inl now))
      obtain ⟨entry,entered⟩ := kept.held fh before (fun closed => unclosed (mem_closed.mpr (.inr ⟨closed,new⟩)))
      exact ⟨entry,(handing.kept fh new open_).trans entered⟩
  · intro fh still
    obtain ⟨unanswered,releasing⟩ := next_releasing.mp still
    rcases step_files stepped c fh with same | ⟨_,_,holds⟩ | ⟨rfl,_⟩
    · exact same.trans (kept.releasing fh releasing)
    · exact holds
    · simp only [replies,Label.client,if_true,releasing] at unanswered
      cases unanswered
  · intro fh task still busy
    exact kept_task kept permitted stepped (next_releasing.mp still).2 busy

theorem next_noLeaks_iff (sound : NoLeaks c w) (stepped : Cluster.step bs label w.cluster = some τ) :
    NoLeaks c (w.next c label τ) ↔ ∀ fh, w.replies c label = some fh → Gone c fh τ := by
  rw [noLeaks_iff] at sound ⊢
  constructor
  · intro gone fh answered
    exact gone fh (mem_replied.mpr (.inl answered))
  · intro gone fh replied
    rcases mem_replied.mp replied with now | ⟨before,old⟩
    · exact gone fh now
    · exact gone_step stepped old (sound fh before)

/-- After an error the client still has the handle. -/
theorem gone_of_fails (kept : Accounted c w) (stepped : Cluster.step bs label w.cluster = some τ) (mine : label.client = some c)
    (releasing : w.releasing = some fh) (other : ∀ fh, label ≠ .release c fh) :
    (∀ fh', w.replies c label = some fh' → Gone c fh' τ) ↔ fails label w.cluster = false := by
  have holds : ¬ Gone c fh τ := by
    intro gone
    have before := kept.releasing fh releasing
    have absent := (vacant_iff _ fh).mpr gone.1
    rcases step_files stepped c fh with same | ⟨_,_,present⟩ | ⟨released,_⟩
    · rw [same,before] at absent
      cases absent
    · rw [present] at absent
      cases absent
    · exact other fh released
  have answer : w.replies c label = if fails label w.cluster then some fh else none := by
    unfold replies
    rw [if_pos mine]
    split
    next c' fh' =>
      cases mine
      exact absurd rfl (other fh')
    next => rw [releasing]
  rw [answer]
  cases fails label w.cluster with
  | true =>
    refine ⟨fun gone => absurd (gone fh rfl) holds,nofun⟩
  | false => exact ⟨fun _ => rfl,fun _ => nofun⟩

theorem publish_fails_iff {host : Host} {wait : WaitPolicy} {σ : Cluster} (stepped : Cluster.step bs (.publish c fh wait host) σ = some τ) :
    fails (.publish c fh wait host) σ = false ↔ ∀ file, (σ.clients c).openFiles[fh]? = some file →
      file.dirty.isEmpty = false → newIdxs file ≠ [] → ∃ inode, σ.metadata.inodes[file.ino]? = some inode := by
  obtain ⟨file,_,found,_⟩ := publish_steps stepped
  have told : (allocated host file σ.metadata).reply.isOk = true ↔
      (newIdxs file ≠ [] → ∃ inode, σ.metadata.inodes[file.ino]? = some inode) := by
    unfold allocated
    split
    next none => exact ⟨fun _ some => absurd (List.isEmpty_iff.mp none) some,fun _ => rfl⟩
    next some =>
      rcases allocateBlocks_cases host file.ino (newIdxs file) σ.metadata with ⟨missing,refused⟩ | ⟨inode,_,_,alive,served,_⟩
      · rw [refused,missing]
        refine ⟨nofun,fun needs => ?_⟩
        obtain ⟨_,impossible⟩ := needs (fun none => some (List.isEmpty_iff.mpr none))
        cases impossible
      · rw [served]
        exact ⟨fun _ _ => ⟨inode,alive⟩,fun _ => rfl⟩
  simp only [fails,found,Bool.and_eq_false_iff,Bool.not_eq_false',told]
  constructor
  · intro either file' same dirty
    cases same
    rcases either with clean | ok
    · rw [clean] at dirty
      cases dirty
    · exact ok
  · intro needs
    cases clean : file.dirty.isEmpty with
    | true => exact .inl rfl
    | false => exact .inr (needs file rfl clean)

theorem close_ok_iff (host : Host) (p : Publish) (sizeHint : Nat) {clock : SystemTime} {s : MetaState} (early : clock < 10^9 * 2^63) :
    (MetaService.close host (closeReq p sizeHint clock) s).reply.isOk = true ↔
      ∃ entry, s.openHandles[p.fh]? = some entry ∧
        ∃ inode, s.inodes[entry.ino]? = some inode ∧ (p.dirty.keys ≠ [] → inode.generation = p.generation) := by
  have valid := epochPlus_timestamp early
  unfold MetaService.close
  cases entered : s.openHandles[(closeReq p sizeHint clock).fh]? with
  | none => exact ⟨nofun,fun accepted => absurd (entered.symm.trans accepted.choose_spec.1) nofun⟩
  | some entry =>
    have only (property : OpenHandleSt → Prop) : (∃ entry, s.openHandles[p.fh]? = some entry ∧ property entry) ↔ property entry := by
      constructor
      · intro accepted
        obtain ⟨other,same,holds⟩ := accepted
        cases entered.symm.trans same
        exact holds
      · intro holds
        exact ⟨entry,entered,holds⟩
    rw [only]
    dsimp only
    cases alive : s.inodes[entry.ino]? with
    | none => exact ⟨nofun,fun live => absurd live.choose_spec.1 nofun⟩
    | some inode =>
      dsimp only
      split
      next unwritten => exact ⟨fun _ => ⟨inode,rfl,fun some => absurd (List.isEmpty_iff.mp unwritten) some⟩,fun _ => rfl⟩
      next written =>
        split
        next stale =>
          refine ⟨nofun,fun live => ?_⟩
          obtain ⟨_,same,current⟩ := live
          cases same
          exact absurd (current (fun none => written (List.isEmpty_iff.mpr none))) stale
        next current =>
          simp only [closeReq,valid]
          exact ⟨fun _ => ⟨inode,rfl,fun _ => not_not.mp current⟩,fun _ => rfl⟩

theorem close_fails_iff {host : Host} {clock : SystemTime} (kept : Accounted c w)
    (stepped : Cluster.step bs (.close c host clock) w.cluster = some τ) :
    fails (.close c host clock) w.cluster = false ↔ ∀ p, (w.cluster.clients c).task = some (.publishing p) →
      p.fh ∉ w.closed ∧ ∀ entry, w.cluster.metadata.openHandles[p.fh]? = some entry →
        ∃ inode, w.cluster.metadata.inodes[entry.ino]? = some inode ∧ (p.dirty.keys ≠ [] → inode.generation = p.generation) := by
  obtain ⟨p,file,task,found,_,early,_⟩ := close_steps stepped
  have held : p.fh ∉ w.closed ↔ ∃ entry, w.cluster.metadata.openHandles[p.fh]? = some entry := by
    constructor
    · exact kept.held p.fh ((contains_iff _ _).mpr ⟨file,found⟩)
    · intro entered closed
      obtain ⟨entry,entered⟩ := entered
      rw [kept.closed p.fh closed] at entered
      cases entered
  simp only [fails,task,found,Bool.not_eq_false',close_ok_iff host p file.sizeHint early]
  constructor
  · intro accepted p' same
    cases same
    obtain ⟨entry,entered,live⟩ := accepted
    refine ⟨held.mpr ⟨entry,entered⟩,fun other same => ?_⟩
    rw [entered] at same
    cases same
    exact live
  · intro ready
    obtain ⟨unclosed,live⟩ := ready p rfl
    obtain ⟨entry,entered⟩ := held.mp unclosed
    exact ⟨entry,entered,live entry entered⟩

/-- A step inside the `release` callback. -/
theorem releases_iff (kept : Accounted c w) (permitted : w.permits c label = true) (stepped : Cluster.step bs label w.cluster = some τ)
    (mine : label.client = some c) (releasing : w.releasing = some fh) :
    (∀ fh', w.replies c label = some fh' → Gone c fh' τ) ↔ ClosesOnce c (.step label) w := by
  have holds := kept.releasing fh releasing
  rcases permits_cases permitted mine releasing with ⟨host,rfl⟩ | ⟨idx,rfl⟩ | ⟨host,clock,rfl⟩ | ⟨stray,rfl⟩ | rfl | ⟨keep,rfl⟩
  · rw [gone_of_fails kept stepped mine releasing nofun,publish_fails_iff stepped]
    simp only [ClosesOnce,releasing,true_implies]
  · rw [gone_of_fails kept stepped mine releasing nofun]
    simp only [ClosesOnce,fails]
  · rw [gone_of_fails kept stepped mine releasing nofun,close_fails_iff kept stepped]
    simp only [ClosesOnce,releasing,true_implies]
  · rw [gone_of_fails kept stepped mine releasing nofun]
    simp only [ClosesOnce,releasing,fails,ne_eq,not_true_eq_false,reduceCtorEq]
  · obtain ⟨_,rfl⟩ := release_steps stepped
    simp only [replies,Label.client,if_true,ClosesOnce,releasing,Option.some.injEq,forall_eq',true_implies]
    constructor
    · intro gone
      by_contra unclosed
      obtain ⟨entry,entered⟩ := kept.held fh holds unclosed
      exact absurd (entered.symm.trans gone.2) nofun
    · intro closed
      refine ⟨?_,kept.closed fh closed⟩
      rw [setClient_same]
      exact Std.ExtTreeMap.getElem?_erase_self
  · rw [gone_of_fails kept stepped mine releasing nofun]
    simp only [ClosesOnce,fails]

/-- One deed keeps the account, and leaks nothing exactly under the condition. -/
theorem step_noLeaks_iff {deed : Deed} {v : Watch} (kept : Accounted c w) (sound : NoLeaks c w) (stepped : w.step bs c deed = some v) :
    Accounted c v ∧ (NoLeaks c v ↔ ClosesOnce c deed w) := by
  cases deed with
  | release fh =>
    simp only [step] at stepped
    split at stepped
    next fresh =>
      obtain ⟨free,idle,holds,_⟩ := fresh
      cases stepped
      have entering : ClosesOnce c (.release fh) w := by simp only [ClosesOnce]
      refine ⟨⟨kept.closed,kept.held,?_,?_⟩,fun _ => entering,fun _ => sound⟩
      · intro fh' same
        cases same
        exact holds
      · intro fh' task _ busy
        rw [busy] at idle
        cases idle
    next => cases stepped
  | step label =>
    simp only [step] at stepped
    split at stepped
    next permitted =>
      obtain ⟨τ,moved,rfl⟩ := Option.map_eq_some_iff.mp stepped
      refine ⟨kept_next kept permitted moved,(next_noLeaks_iff sound moved).trans ?_⟩
      cases releasing : w.releasing with
      | none =>
        have silent : w.replies c label = none := by
          unfold replies
          rw [releasing]
          split
          next => split <;> simp
          next => rfl
        simp [silent,ClosesOnce,releasing]
      | some fh =>
        by_cases mine : label.client = some c
        · exact releases_iff kept permitted moved mine releasing
        · have silent : w.replies c label = none := if_neg mine
          have apart : ∀ c', label.client = some c' → c' ≠ c := fun c' named same => mine (same ▸ named)
          simp only [silent,reduceCtorEq,false_implies,implies_true,true_iff]
          unfold ClosesOnce
          split
          next named _ =>
            cases named
            exact fun same => absurd same (apart _ rfl)
          next named _ =>
            cases named
            exact fun same => absurd same (apart _ rfl)
          next named _ =>
            cases named
            exact fun same => absurd same (apart _ rfl)
          next named _ =>
            cases named
            exact apart _ rfl
          next => trivial
    next => cases stepped

end Watch

/-- Nothing leaks in a run exactly when every `release` of it closes its handle once: a
handle never closed stays at the server, one closed before or refused stays at the client. -/
theorem no_leaks_iff (bs : Nat) (c : ClientId) (now : SystemTime) (replicationFactor ramBudget : Nat) (deeds : List Deed) {w : Watch}
    (reached : Watch.run bs c deeds (.new now replicationFactor ramBudget) = some w) :
    Runs.Always (Watch.step bs c) (NoLeaks c) deeds (.new now replicationFactor ramBudget) ↔
      Runs.Each (Watch.step bs c) (ClosesOnce c) deeds (.new now replicationFactor ramBudget) := by
  have start : Accounted c (.new now replicationFactor ramBudget) := by
    refine ⟨nofun,?_,nofun,nofun⟩
    intro fh holds
    simp [Watch.new,Cluster.new] at holds
  have sound : NoLeaks c (.new now replicationFactor ramBudget) := (noLeaks_iff c _).mpr nofun
  exact Runs.always_iff_each (fun deed w v kept sound stepped => Watch.step_noLeaks_iff kept sound stepped) deeds start sound reached

/-- A file of one byte is created, written, flushed and released. -/
def releasedOnce : List Deed :=
  [.step (.call Host.still (.heartbeatNode 0 ⟨"n","a",0,0,0⟩)),.step (.create 0 Host.still ⟨ROOT,"f",0,0,0⟩ 0)] ++
    (writeByte 0 1 0 7 ++ flushBlock 0 1 0).map .step ++ [.release 1,.step (.release 0 1)]

theorem no_leaks_iff_flushed : ∃ w, Watch.run 1 0 releasedOnce (.new 0 1 64) = some w ∧ w.replied = [1] ∧ NoLeaks 0 w := by
  have ran : ∃ w, Watch.run 1 0 releasedOnce (.new 0 1 64) = some w ∧ w.replied = [1] := ⟨_,rfl,rfl⟩
  obtain ⟨w,ran,replied⟩ := ran
  have once : Runs.Each (Watch.step 1 0) (ClosesOnce 0) releasedOnce (.new 0 1 64) := by
    refine (Runs.each_cons rfl _).mpr ⟨trivial,?_⟩
    refine (Runs.each_cons rfl _).mpr ⟨trivial,?_⟩
    refine (Runs.each_cons rfl _).mpr ⟨trivial,?_⟩
    refine (Runs.each_cons rfl _).mpr ⟨trivial,?_⟩
    refine (Runs.each_cons rfl _).mpr ⟨trivial,?_⟩
    refine (Runs.each_cons rfl _).mpr ⟨trivial,?_⟩
    refine (Runs.each_cons rfl _).mpr ⟨trivial,?_⟩
    refine (Runs.each_cons rfl _).mpr ⟨trivial,?_⟩
    refine (Runs.each_cons rfl _).mpr ⟨fun _ => by decide,Runs.each_nil _⟩
  exact ⟨w,ran,replied,(no_leaks_iff 1 0 0 1 64 releasedOnce ran).mpr once releasedOnce [] w (List.append_nil _).symm ran⟩

/-- A file is created and released. Nothing was written, so no `Close` was sent. -/
theorem clean_release_leaks : ∃ w, Watch.run 1 0 [.step (.create 0 Host.still ⟨ROOT,"f",0,0,0⟩ 0),.release 1,.step (.release 0 1)]
    (.new 0 1 64) = some w ∧ w.replied = [1] ∧ ¬ NoLeaks 0 w := by
  refine ⟨_,rfl,rfl,?_⟩
  intro sound
  have gone := (sound.1 1 (List.mem_singleton.mpr rfl)).2
  revert gone
  decide

end Dtmpfs
