import Dtmpfs.HandleLeaks
import Dtmpfs.StickyPlacement

/-! Placements a handle has learned and placements the metadata server has. A handle
asks for new indices only, and a truncation takes placements away without telling it. -/
namespace Dtmpfs
open MetaService MetaState OrderedMap Cluster

/-- The step takes the placement of block `idx` of file `i` away. -/
def EndsAt (label : Label) (σ : Cluster) (i : InodeId) (idx : BlockIdx) : Prop :=
  ∃ host call, requested label σ = some (host,call) ∧ Ends host call σ.metadata i idx

/-- The cluster, the blocks whose placement was taken away since a handle learned it, and
those for an `open` between its two halves. -/
structure Tracked where
  cluster : Cluster
  lost : ClientId → Fh → BlockIdx → Prop
  lostOpening : ClientId → BlockIdx → Prop

namespace Tracked

def new (now : SystemTime) (replicationFactor ramBudget : Nat) : Tracked :=
  ⟨.new now replicationFactor ramBudget,fun _ _ _ => False,fun _ _ => False⟩

/-- What the handle has lost after a step. A handle given out by `open` has lost what the
open had. -/
def lostAfter (label : Label) (v : Tracked) (c : ClientId) (fh : Fh) (idx : BlockIdx) : Prop :=
  if label.client = some c ∧ given label v.cluster = some fh then
    match label with
    | .openInsert _ => v.lostOpening c idx
    | _ => False
  else
    ∃ file, (v.cluster.clients c).openFiles[fh]? = some file ∧ file.blockMap.contains idx = true ∧
      (v.lost c fh idx ∨ EndsAt label v.cluster file.ino idx)

def lostOpeningAfter (label : Label) (v : Tracked) (c : ClientId) (idx : BlockIdx) : Prop :=
  match (v.cluster.clients c).task with
  | some (.opening snapshot) => v.lostOpening c idx ∨ EndsAt label v.cluster snapshot.ino idx
  | _ => False

def step (bs : Nat) (label : Label) (v : Tracked) : Option Tracked :=
  (Cluster.step bs label v.cluster).map fun τ => ⟨τ,v.lostAfter label,v.lostOpeningAfter label⟩

end Tracked

/-- The server accepts the `Close` of a publish. -/
def Acceptable (p : Publish) (s : MetaState) : Prop :=
  ∃ entry, s.openHandles[p.fh]? = some entry ∧
    ∃ inode, s.inodes[entry.ino]? = some inode ∧ (p.dirty.keys ≠ [] → inode.generation = p.generation)

/-- Every block of the publish is placed where its data went, and shown so by every
`open` until its placement is taken away. -/
def PlacedOn (bs : Nat) (p : Publish) (τ : Cluster) : Prop :=
  ∀ (idx : BlockIdx) (data : Bytes), p.dirty[idx]? = some data →
    ∃ placement, p.blockMap[idx]? = some placement ∧ placementOf τ.metadata p.ino idx = some placement ∧
      ∀ labels υ, Runs.run (Cluster.step bs) labels τ = some υ →
        Runs.Each (Cluster.step bs) (fun label σ => ¬ EndsAt label σ p.ino idx) labels τ →
        ∀ r snapshot, r.ino = p.ino → MetaService.openRead r υ.metadata = .ok snapshot →
          (insertLocs ∅ snapshot.blockMap)[idx]? = some placement

/-- With a `Close` that is answered `Ok` every block written is placed. -/
def PublishedPlaced (bs : Nat) (label : Label) (v : Tracked) : Prop :=
  match label with
  | .close c host clock => ∀ p file τ, (v.cluster.clients c).task = some (.publishing p) →
      (v.cluster.clients c).openFiles[p.fh]? = some file →
      (MetaService.close host (closeReq p file.sizeHint clock) v.cluster.metadata).reply.isOk = true →
      Cluster.step bs label v.cluster = some τ → PlacedOn bs p τ
  | _ => True

/-- Blocks of an accepted publish have kept their placement since the handle learned it,
or have been placed again on the same nodes. -/
def PlacementsHeld (label : Label) (v : Tracked) : Prop :=
  match label with
  | .close c _ _ => ∀ p, (v.cluster.clients c).task = some (.publishing p) → Acceptable p v.cluster.metadata →
      ∀ (idx : BlockIdx) (data : Bytes), p.dirty[idx]? = some data → v.lost c p.fh idx →
        placementOf v.cluster.metadata p.ino idx = p.blockMap[idx]?
  | _ => True

section Steps

variable {bs : Nat} {c : ClientId} {σ τ : Cluster} {label : Label} {i : InodeId} {idx : BlockIdx} {placement : BlockPlacement}

theorem step_placement (stepped : Cluster.step bs label σ = some τ) (placed : placementOf σ.metadata i idx = some placement)
    (kept : ¬ EndsAt label σ i idx) : placementOf τ.metadata i idx = some placement := by
  rw [step_metadata stepped]
  cases served : requested label σ with
  | none => exact placed
  | some request =>
    obtain ⟨host,call⟩ := request
    exact serve_placement placed (fun ends => kept ⟨host,call,served,ends⟩)

theorem run_placed (labels : List Label) (ran : Runs.run (Cluster.step bs) labels σ = some τ)
    (placed : placementOf σ.metadata i idx = some placement)
    (kept : Runs.Each (Cluster.step bs) (fun label σ => ¬ EndsAt label σ i idx) labels σ) :
    placementOf τ.metadata i idx = some placement := by
  induction labels generalizing σ with
  | nil =>
    cases ran
    exact placed
  | cons label rest ih =>
    obtain ⟨υ,stepped,rest_ran⟩ := Runs.run_cons ran
    obtain ⟨now,later⟩ := (Runs.each_cons stepped rest).mp kept
    exact ih rest_ran (step_placement stepped placed now) later

theorem openRead_placed {r : OpenReq} {s : MetaState} {snapshot : OpenSnapshot} (read : MetaService.openRead r s = .ok snapshot) :
    snapshot.ino = r.ino ∧ ∀ idx : BlockIdx, (insertLocs ∅ snapshot.blockMap)[idx]? = placementOf s r.ino idx := by
  unfold MetaService.openRead at read
  split at read
  · cases read
  next inode found =>
    split at read
    next =>
      cases read
      refine ⟨rfl,fun idx => ?_⟩
      rw [placementOf_of found]
      exact congrArg (fun blocks : Map BlockIdx BlockPlacement => blocks[idx]?) (insertLocs_toList inode.blocks)
    next => cases read

theorem insertLocs_new {known : Map BlockIdx BlockPlacement} (locs : List BlockLoc) (found : (insertLocs known locs)[idx]? = some placement) :
    known[idx]? = some placement ∧ (∀ loc ∈ locs, loc.blockIdx ≠ idx) ∨ ∃ loc ∈ locs, loc.blockIdx = idx ∧ loc.placement = placement := by
  induction locs generalizing known with
  | nil => exact .inl ⟨found,nofun⟩
  | cons loc rest ih =>
    have step : insertLocs known (loc::rest) = insertLocs (known.insert loc.blockIdx loc.placement) rest := rfl
    rw [step] at found
    rcases ih found with ⟨kept,others⟩ | ⟨other,member,named,same⟩
    · rw [get_insert] at kept
      split at kept
      next mine =>
        cases kept
        exact .inr ⟨loc,List.mem_cons_self,mine,rfl⟩
      next other =>
        refine .inl ⟨kept,fun loc' member => ?_⟩
        rcases List.mem_cons.mp member with rfl | later
        · exact other
        · exact others loc' later
    · exact .inr ⟨other,List.mem_cons_of_mem _ member,named,same⟩

theorem given_handle {fh : Fh} {file : OpenFile} (stepped : Cluster.step bs label σ = some τ) (mine : label.client = some c)
    (new : given label σ = some fh) (held : (τ.clients c).openFiles[fh]? = some file) :
    (file.blockMap = ∅ ∧ ∀ c', label ≠ .openInsert c') ∨
      ∃ snapshot, label = .openInsert c ∧ (σ.clients c).task = some (.opening snapshot) ∧ file = snapshotFile snapshot := by
  cases label with
  | create c' host r flags =>
    cases mine
    obtain ⟨_,⟨_,_,failed⟩ | ⟨ok,rfl⟩⟩ := create_steps stepped
    · simp only [given,failed] at new
      cases new
    · simp only [given,ok] at new
      cases new
      simp only [setClient_same,installed,get_insert,if_true] at held
      cases held
      refine .inl ⟨rfl,?_⟩
      intro c' same
      cases same
  | openInsert c' =>
    cases mine
    obtain ⟨snapshot,task,rfl⟩ := openInsert_steps stepped
    simp only [given,task] at new
    cases new
    have there : (installed (σ.clients c) σ.metadata.nextFh (snapshotFile snapshot)).openFiles[σ.metadata.nextFh]? = some file := by
      rw [setClient_same] at held
      exact held
    simp only [installed,get_insert,if_true] at there
    cases there
    exact .inr ⟨snapshot,rfl,task,rfl⟩
  | _ => cases new

theorem kept_handle {fh : Fh} {file' : OpenFile} (stepped : Cluster.step bs label σ = some τ)
    (old : ¬ (label.client = some c ∧ given label σ = some fh)) (held : (τ.clients c).openFiles[fh]? = some file') :
    ∃ file, (σ.clients c).openFiles[fh]? = some file ∧ file'.ino = file.ino ∧
      (file'.blockMap = file.blockMap ∨ ∃ wait host locs, label = .publish c fh wait host ∧ file.dirty.isEmpty = false ∧
        (allocated host file σ.metadata).reply = .ok locs ∧ file'.blockMap = insertLocs file.blockMap locs) := by
  rcases step_openFile stepped held with before | renewed
  · exact ⟨file',before,rfl,.inl rfl⟩
  · cases renewed with
    | created host r flags ok => exact absurd ⟨rfl,by simp only [given,ok]⟩ old
    | opened snapshot task => exact absurd ⟨rfl,by simp only [given,task]; rfl⟩ old
    | wrote up _ offset data done handle _ task found ino generation blockMap => exact ⟨handle,found,ino,.inl blockMap⟩
    | begun _ wait host handle locs found dirty told => exact ⟨handle,found,rfl,.inr ⟨wait,host,locs,rfl,dirty,told,rfl⟩⟩
    | closed host clock p handle attr task found => exact ⟨handle,found,rfl,.inl rfl⟩

end Steps

/-- Handles, and opens on their way, know the placements the server has, but for those
lost. A publish goes by the map of its handle, which has all its blocks. -/
structure Tracked.Matched (v : Tracked) : Prop where
  handles : ∀ c (fh : Fh) file (idx : BlockIdx) placement, (v.cluster.clients c).openFiles[fh]? = some file →
    file.blockMap[idx]? = some placement → ¬ v.lost c fh idx → placementOf v.cluster.metadata file.ino idx = some placement
  opens : ∀ c snapshot (idx : BlockIdx) placement, (v.cluster.clients c).task = some (.opening snapshot) →
    (insertLocs ∅ snapshot.blockMap)[idx]? = some placement → ¬ v.lostOpening c idx →
    placementOf v.cluster.metadata snapshot.ino idx = some placement
  publishes : ∀ c p, (v.cluster.clients c).task = some (.publishing p) →
    (∃ file, (v.cluster.clients c).openFiles[p.fh]? = some file ∧ file.blockMap = p.blockMap ∧ file.ino = p.ino) ∧
      ∀ (idx : BlockIdx) data, p.dirty[idx]? = some data → ∃ placement, p.blockMap[idx]? = some placement

namespace Tracked.Matched

variable {bs : Nat} {c : ClientId} {v : Tracked} {τ : Cluster} {label : Label}

/-- `AllocateBlocks` tells the server's placements of the indices asked for. -/
theorem allocated_told {host : Host} {file : OpenFile} {s : MetaState} {locs : List BlockLoc} (told : (allocated host file s).reply = .ok locs) :
    locs.map (·.blockIdx) = newIdxs file ∧
      ∀ loc ∈ locs, placementOf (allocated host file s).state file.ino loc.blockIdx = some loc.placement := by
  unfold allocated at told ⊢
  split
  next none =>
    rw [if_pos none] at told
    cases told
    exact ⟨(List.isEmpty_iff.mp none).symm,nofun⟩
  next some =>
    rw [if_neg some] at told
    exact allocated_recorded told

theorem allocated_covers {file : OpenFile} {locs : List BlockLoc} (order : locs.map (·.blockIdx) = newIdxs file) {idx : BlockIdx} {data : Bytes}
    (dirty : file.dirty[idx]? = some data) : ∃ placement, (insertLocs file.blockMap locs)[idx]? = some placement := by
  cases found : (insertLocs file.blockMap locs)[idx]? with
  | some placement => exact ⟨placement,rfl⟩
  | none =>
    obtain ⟨unknown,others⟩ := (insertLocs_known locs idx).mp found
    have listed : idx ∈ file.dirty.keys := by
      rw [Std.ExtTreeMap.mem_keys,Std.ExtTreeMap.mem_iff_isSome_getElem?,dirty]
      rfl
    have asked : idx ∈ newIdxs file := by
      refine List.mem_filter.mpr ⟨listed,?_⟩
      rw [(vacant_iff _ idx).mpr unknown]
      rfl
    rw [← order] at asked
    obtain ⟨loc,member,named⟩ := List.mem_map.mp asked
    exact absurd named (others loc member)

theorem handle_next (matched : v.Matched) (stepped : Cluster.step bs label v.cluster = some τ) {fh : Fh} {file : OpenFile} {idx : BlockIdx}
    {placement : BlockPlacement} (held : (τ.clients c).openFiles[fh]? = some file) (known : file.blockMap[idx]? = some placement)
    (kept : ¬ v.lostAfter label c fh idx) : placementOf τ.metadata file.ino idx = some placement := by
  unfold lostAfter at kept
  split at kept
  next new =>
    rcases given_handle stepped new.1 new.2 held with ⟨empty,_⟩ | ⟨snapshot,rfl,task,rfl⟩
    · rw [empty] at known
      cases known
    · refine step_placement stepped (matched.opens c snapshot idx placement task known kept) ?_
      intro ends
      obtain ⟨host,call,served,ends⟩ := ends
      simp only [requested,task] at served
      cases served
      cases ends with
      | dropped _ _ _ request => cases request
      | removed cause => exact cause
      | replaced drawn => cases drawn
  next old =>
    obtain ⟨before,found,ino,outcome⟩ := kept_handle stepped old held
    have unchanged (known : before.blockMap[idx]? = some placement) : placementOf τ.metadata before.ino idx = some placement := by
      have intact : ¬ v.lost c fh idx ∧ ¬ EndsAt label v.cluster before.ino idx := by
        rw [← not_or]
        intro either
        exact kept ⟨before,found,(contains_iff _ _).mpr ⟨placement,known⟩,either⟩
      exact step_placement stepped (matched.handles c fh before idx placement found known intact.1) intact.2
    rw [ino]
    rcases outcome with same | ⟨wait,host,locs,rfl,dirty,told,learned⟩
    · rw [same] at known
      exact unchanged known
    · rw [learned] at known
      rcases insertLocs_new locs known with ⟨known,_⟩ | ⟨loc,member,rfl,rfl⟩
      · exact unchanged known
      · rw [step_metadata stepped,← allocated_served host dirty wait found]
        exact (allocated_told told).2 loc member

theorem open_next (matched : v.Matched) (stepped : Cluster.step bs label v.cluster = some τ) {snapshot : OpenSnapshot} {idx : BlockIdx}
    {placement : BlockPlacement} (task : (τ.clients c).task = some (.opening snapshot))
    (known : (insertLocs ∅ snapshot.blockMap)[idx]? = some placement) (kept : ¬ v.lostOpeningAfter label c idx) :
    placementOf τ.metadata snapshot.ino idx = some placement := by
  have waiting (before : (v.cluster.clients c).task = some (.opening snapshot)) : placementOf τ.metadata snapshot.ino idx = some placement := by
    simp only [lostOpeningAfter,before,not_or] at kept
    exact step_placement stepped (matched.opens c snapshot idx placement before known kept.1) kept.2
  rcases step_task stepped task with before | busy
  · exact waiting before
  · cases busy with | opening r _ read =>
    obtain ⟨mine,shown⟩ := openRead_placed read
    rw [shown idx] at known
    have same : τ.metadata = v.cluster.metadata := step_metadata stepped
    rw [same,mine]
    exact known

theorem publish_next (matched : v.Matched) (stepped : Cluster.step bs label v.cluster = some τ) {p : Publish}
    (task : (τ.clients c).task = some (.publishing p)) :
    (∃ file, (τ.clients c).openFiles[p.fh]? = some file ∧ file.blockMap = p.blockMap ∧ file.ino = p.ino) ∧
      ∀ (idx : BlockIdx) data, p.dirty[idx]? = some data → ∃ placement, p.blockMap[idx]? = some placement := by
  rcases step_turn stepped c with same | turn
  · rw [same] at task ⊢
    exact matched.publishes c p task
  · generalize after : τ.clients c = client at turn task ⊢
    cases turn with
    | fetched c fh idx' up handle idle found =>
      rw [idle] at task
      cases task
    | wrote c up fh offset data done handle handle' left busy found ino generation blockMap rest =>
      rcases rest with rfl | ⟨_,rfl⟩
      · cases task
      · cases task
    | begun c fh wait host handle locs idle found =>
      rw [← after] at task ⊢
      obtain ⟨file,_,_,⟨_,rfl⟩ | ⟨_,_,rfl⟩ | ⟨_,locs',told,rfl⟩⟩ := publish_steps stepped
      · rw [idle] at task
        cases task
      · rw [idle] at task
        cases task
      · rw [setClient_same] at task ⊢
        cases task
        refine ⟨⟨{file with blockMap := insertLocs file.blockMap locs', dirty := ∅},?_,rfl,rfl⟩,?_⟩
        · simp only [publishing,get_insert,if_true]
        · intro idx data dirty
          exact allocated_covers (allocated_told told).1 dirty
    | sent c idx p' busy =>
      cases task
      exact matched.publishes c p' busy
    | closed c host clock p handle reply busy found =>
      cases reply with
      | error fault => cases task
      | ok attr => cases task
    | released c fh idle =>
      rw [idle] at task
      cases task
    | evicted c keep => exact matched.publishes c p task
    | _ => cases task

theorem next (matched : v.Matched) {u : Tracked} (stepped : v.step bs label = some u) : u.Matched := by
  obtain ⟨τ,moved,rfl⟩ := Option.map_eq_some_iff.mp stepped
  refine ⟨?_,?_,?_⟩
  · intro c fh file idx placement held known kept
    exact matched.handle_next moved held known kept
  · intro c snapshot idx placement task known kept
    exact matched.open_next moved task known kept
  · intro c p task
    exact matched.publish_next moved task

theorem close_placement (host : Host) (r : CloseReq) (s : MetaState) (i : InodeId) (idx : BlockIdx) :
    placementOf (MetaService.close host r s).state i idx = placementOf s i idx := by
  rcases close_cases host r s with ⟨_,missing⟩ | ⟨handle,_,⟨_,refused⟩ | ⟨old,alive,⟨_,served⟩ | ⟨_,_,_,served⟩⟩⟩
  · rw [missing]
  · rw [refused]
    rfl
  · rw [served]
    rfl
  · rw [served]
    simp only [placementOf,dropHandle,putInode,get_insert]
    split
    next here =>
      subst here
      rw [alive]
      rfl
    next => rfl

/-- A `Close` answered `Ok` has placed all its blocks exactly under the condition. -/
theorem placed_iff (matched : v.Matched) (stepped : Cluster.step bs label v.cluster = some τ) :
    PublishedPlaced bs label v ↔ PlacementsHeld label v := by
  cases label with
  | close c host clock =>
    obtain ⟨p,file,task,found,_,early,shape⟩ := close_steps stepped
    have same (i : InodeId) (idx : BlockIdx) : placementOf τ.metadata i idx = placementOf v.cluster.metadata i idx := by
      rw [shape]
      exact close_placement host (closeReq p file.sizeHint clock) v.cluster.metadata i idx
    obtain ⟨⟨handle,held,map,ino⟩,covered⟩ := matched.publishes c p task
    constructor
    · intro placed p' task' acceptable idx data dirty _
      cases task.symm.trans task'
      have accepted := (Watch.close_ok_iff host p file.sizeHint early).mpr acceptable
      obtain ⟨placement,known,now,_⟩ := placed p file τ task found accepted stepped idx data dirty
      rw [known,← same]
      exact now
    · intro kept p' file' τ' task' found' accepted stepped' idx data dirty
      cases task.symm.trans task'
      cases found.symm.trans found'
      cases stepped.symm.trans stepped'
      have acceptable := (Watch.close_ok_iff host p file.sizeHint early).mp accepted
      obtain ⟨placement,known⟩ := covered idx data dirty
      have now : placementOf τ.metadata p.ino idx = some placement := by
        rw [same]
        by_cases lost : v.lost c p.fh idx
        · exact (kept p task acceptable idx data dirty lost).trans known
        · rw [← ino]
          exact matched.handles c p.fh handle idx placement held (by rw [map,known]) lost
      refine ⟨placement,known,now,?_⟩
      intro labels υ ran unended r snapshot mine read
      rw [(openRead_placed read).2 idx,mine]
      exact run_placed labels ran now unended
  | _ => exact ⟨fun _ => trivial,fun _ => trivial⟩

end Tracked.Matched

/-- In every run, the blocks of every publish that returns `Ok` are placed exactly when
no accepted publish has a block that lost its placement since the handle learned it and
was not placed again on the same nodes. -/
theorem published_placed_iff (bs : Nat) (now : SystemTime) (replicationFactor ramBudget : Nat) (labels : List Label) {v : Tracked}
    (reached : Runs.run (Tracked.step bs) labels (.new now replicationFactor ramBudget) = some v) :
    Runs.Each (Tracked.step bs) (PublishedPlaced bs) labels (.new now replicationFactor ramBudget) ↔
      Runs.Each (Tracked.step bs) PlacementsHeld labels (.new now replicationFactor ramBudget) := by
  have start : (Tracked.new now replicationFactor ramBudget).Matched := by
    refine ⟨?_,nofun,nofun⟩
    intro c fh file idx placement held
    simp [Tracked.new,Cluster.new] at held
  refine Runs.each_iff_each (fun label v u matched stepped => matched.next stepped) ?_ labels start reached
  intro label v u matched stepped
  obtain ⟨τ,moved,_⟩ := Option.map_eq_some_iff.mp stepped
  exact matched.placed_iff moved

/-- Client 0 creates a file, writes its second block and flushes it. -/
def secondBlock : List Label :=
  [.call Host.still (.heartbeatNode 0 ⟨"n","a",0,0,0⟩),.create 0 Host.still ⟨ROOT,"f",0,0,0⟩ 0] ++ writeByte 0 1 1 7 ++
    [.publish 0 1 .primariesOnly Host.still,.send 0 1]

theorem published_placed_iff_flushed : ∃ v τ, Runs.run (Tracked.step 1) secondBlock (.new 0 1 64) = some v ∧
    Cluster.step 1 (.close 0 Host.still 0) v.cluster = some τ ∧ placementOf τ.metadata 2 1 = some ⟨"n",[]⟩ ∧
    PublishedPlaced 1 (.close 0 Host.still 0) v := by
  have ran : ∃ u, Runs.run (Tracked.step 1) (secondBlock ++ [.close 0 Host.still 0]) (.new 0 1 64) = some u := ⟨_,rfl⟩
  obtain ⟨u,ran⟩ := ran
  have held : Runs.Each (Tracked.step 1) PlacementsHeld (secondBlock ++ [.close 0 Host.still 0]) (.new 0 1 64) := by
    refine (Runs.each_cons rfl _).mpr ⟨trivial,?_⟩
    refine (Runs.each_cons rfl _).mpr ⟨trivial,?_⟩
    refine (Runs.each_cons rfl _).mpr ⟨trivial,?_⟩
    refine (Runs.each_cons rfl _).mpr ⟨trivial,?_⟩
    refine (Runs.each_cons rfl _).mpr ⟨trivial,?_⟩
    refine (Runs.each_cons rfl _).mpr ⟨trivial,?_⟩
    refine (Runs.each_cons rfl _).mpr ⟨?_,Runs.each_nil _⟩
    intro p task _ idx data dirty _
    cases task
    have only : ((∅ : Map BlockIdx Bytes).insert 1 [7])[idx]? = some data := dirty
    rw [get_insert] at only
    split at only
    next here =>
      subst here
      rfl
    next => cases only
  have placed := (published_placed_iff 1 0 1 64 _ ran).mpr held
  exact ⟨_,_,rfl,rfl,rfl,placed secondBlock (.close 0 Host.still 0) [] _ rfl rfl⟩

/-- The file is opened again and truncated, and its second block is written and flushed
through the new handle. -/
def truncatedUnderneath : List Label :=
  secondBlock ++ [.close 0 Host.still 0] ++ openFile 0 ++ [.call Host.still (.setAttr ⟨2,some 0,none,none,none,none,none,none,none⟩)] ++
    writeByte 0 2 1 8 ++ [.publish 0 2 .primariesOnly Host.still,.send 0 1]

theorem truncated_block_unplaced :
    ¬ Runs.Each (Tracked.step 1) (PublishedPlaced 1) (truncatedUnderneath ++ [.close 0 Host.still 0]) (.new 0 1 64) := by
  intro placed
  have unplaced : ∃ v p file τ, Runs.run (Tracked.step 1) truncatedUnderneath (.new 0 1 64) = some v ∧
      (v.cluster.clients 0).task = some (.publishing p) ∧ (v.cluster.clients 0).openFiles[p.fh]? = some file ∧
      (MetaService.close Host.still (closeReq p file.sizeHint 0) v.cluster.metadata).reply.isOk = true ∧
      Cluster.step 1 (.close 0 Host.still 0) v.cluster = some τ ∧ p.dirty[1]? = some [8] ∧
      placementOf τ.metadata p.ino 1 = none := ⟨_,_,_,_,rfl,rfl,rfl,rfl,rfl,rfl,by decide +kernel⟩
  obtain ⟨v,p,file,τ,ran,task,found,accepted,stepped,dirty,unplaced⟩ := unplaced
  obtain ⟨placement,_,now,_⟩ :=
    placed truncatedUnderneath (.close 0 Host.still 0) [] v rfl ran p file τ task found accepted stepped 1 [8] dirty
  cases unplaced.symm.trans now

end Dtmpfs
