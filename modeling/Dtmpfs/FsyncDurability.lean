import Dtmpfs.Replicas

/-! Files published by `fsync` alone. Every copy of a block is as good as its primary
between publishes, so any one store of each placement is enough to read the file. -/
namespace Dtmpfs
open MetaService MetaState FlatFile OrderedMap Cluster

/-- The steps of a file that is published by `fsync`, one writer at a time: each publish
ends in a `Close` that matches or before any store has executed a write, requests spare the
file, and no store of it comes back empty. Reads reach whichever stores they like. -/
def Synced (f : InodeId) (label : Label) (σ : Cluster) : Prop :=
  match label with
  | .call host request => Orderly f (.call host request) σ
  | .create c host r flags => Orderly f (.create c host r flags) σ
  | .openInsert c => Orderly f (.openInsert c) σ
  | .publish c fh wait host => Orderly f (.publish c fh wait host) σ ∧
      ∀ handle ∈ (σ.clients c).openFiles[fh]?, handle.ino = f → wait = .allReplicas
  | .send c idx => Alone f (.send c idx) σ
  | .close c host clock => Orderly f (.close c host clock) σ
  | .abort c stray => Orderly f (.abort c stray) σ
  | .restart node => Unused f node σ.metadata
  | _ => True

/-- Nothing is written to the stores of the file in the background, now or later. -/
structure Foreground (f : InodeId) (σ : Cluster) : Prop where
  landed : ∀ m ∈ σ.writes, m.key.ino ≠ f
  waits : ∀ c p, (σ.clients c).publishes f = some p → p.wait = .allReplicas

variable {bs : Nat} {f : InodeId} {σ τ : Cluster} {file : FileRecord} {G H : History} {label : Label}

namespace Foreground

theorem flight_nil (foreground : Foreground f σ) (node : NodeId) (idx : BlockIdx) : σ.flight node f idx = [] := by
  rw [List.eq_nil_iff_forall_not_mem]
  intro m member
  obtain ⟨waiting,_,named⟩ := mem_flight.mp member
  exact foreground.landed m waiting (congrArg BlockKey.ino named)

/-- With nothing on its way, whichever replica answers a read is up to date. -/
theorem fresh (foreground : Foreground f σ) (up : NodeId → Bool) : Fresh (fun _ => True) f up σ := by
  intro file _ entry _ node _
  exact .inr ⟨trivial,foreground.flight_nil node entry.1⟩

theorem sequenced (foreground : Foreground f σ) (synced : Synced f label σ) (stepped : step bs label σ = some τ) :
    Sequenced (fun _ => True) f label σ := by
  cases label with
  | deliver m =>
    intro mine
    obtain ⟨waiting,_⟩ := deliver_steps stepped
    exact absurd mine (foreground.landed m waiting)
  | lose m =>
    intro mine
    obtain ⟨waiting,_⟩ := lose_steps stepped
    exact absurd mine (foreground.landed m waiting)
  | send c idx => exact ⟨synced,fun _ _ _ _ _ node _ _ => foreground.flight_nil node idx⟩
  | restart node => exact ⟨Unused.notPrimary synced,fun _ => synced⟩
  | fetch c fh idx up => exact fun _ => foreground.fresh up
  | chunk c up => exact fun _ => foreground.fresh up
  | publish c fh wait host => exact synced.1
  | openInsert c => exact synced
  | call host request => exact synced
  | create c host r flags => exact synced
  | close c host clock => exact synced
  | abort c stray => exact synced
  | _ => exact trivial

theorem step (foreground : Foreground f σ) (synced : Synced f label σ) (stepped : step bs label σ = some τ) : Foreground f τ := by
  constructor
  · intro m waiting mine
    rcases step_writes stepped with same | ⟨c,idx,p,placement,data,rfl,task,_,_,grown⟩ | ⟨c,stray,p,rfl,task,grown⟩ |
      ⟨other,_,_,shrunk⟩
    · rw [same] at waiting
      exact foreground.landed m waiting mine
    · rw [grown] at waiting
      rcases List.mem_append.mp waiting with old | new
      · exact foreground.landed m old mine
      · have own : p.ino = f := (congrArg BlockKey.ino (background_mem new).1).symm.trans mine
        have wait := foreground.waits c p (publishes_of task own)
        simp [Publish.background,wait] at new
    · rw [grown] at waiting
      rcases List.mem_append.mp waiting with old | new
      · exact foreground.landed m old mine
      · obtain ⟨idx,strays,next⟩ := List.mem_filterMap.mp new
        have own : p.ino = f := (nextWrite_ino next).symm.trans mine
        obtain ⟨_,none⟩ := synced p (publishes_of task own)
        rw [none] at strays
        cases strays
    · rw [shrunk] at waiting
      exact foreground.landed m (List.mem_of_mem_erase waiting) mine
  · intro c p underway
    obtain ⟨task,mine⟩ := publishes_some underway
    rcases step_task stepped task with before | busy
    · exact foreground.waits c p (publishes_of before mine)
    · cases busy with
      | begun fh wait host handle blockMap found => exact synced.2 handle found mine
      | sent idx q before => exact foreground.waits c q (publishes_of before mine)

end Foreground

theorem Created.foreground (created : Created f σ) : Foreground f σ := by
  refine ⟨created.writes,?_⟩
  intro c p underway
  rw [created.silent c] at underway
  cases underway

theorem synced_run (positive : 0 < bs) (labels : List Label) (inv : Inv bs f σ file G) (apart : ¬ Stuck f σ file)
    (replicated : Replicated (fun _ => True) f σ file) (foreground : Foreground f σ) (synced : Throughout bs (Synced f) labels σ)
    (ran : trace bs f labels σ G = some (τ,H)) :
    ∃ file', Inv bs f τ file' H ∧ Replicated (fun _ => True) f τ file' ∧ Foreground f τ := by
  induction labels generalizing σ file G with
  | nil =>
    cases ran
    exact ⟨file,inv,replicated,foreground⟩
  | cons label rest ih =>
    obtain ⟨middle,stepped,later⟩ := Option.bind_eq_some_iff.mp ran
    have sequenced := foreground.sequenced synced.1 stepped
    obtain ⟨file',moved,apart',replicated',_⟩ := replicated_step positive inv apart replicated (fun _ _ => sequenced)
      (sequenced.asked replicated inv.base.alive) stepped
    exact ih moved apart' replicated' (foreground.step synced.1 stepped) (synced.2 middle stepped) later

/-- A file published by `fsync` survives the loss of all but one store of each placement:
between publishes, whoever reaches one of them reads the published file, through an open
handle of the current generation or after a new `Meta.Open`. -/
theorem fsync_survives (positive : 0 < bs) (created : Created f σ) (labels : List Label)
    (synced : Throughout bs (Synced f) labels σ) (ran : trace bs f labels σ .blank = some (τ,H)) (calm : Calm f τ) :
    ∃ file, τ.metadata.fileAt f = some file ∧ file.size = H.published.size ∧
      ∀ up, (∀ (idx : BlockIdx) (placement : BlockPlacement), file.blocks[idx]? = some placement →
          ∃ node ∈ placement.nodes, up node = true) →
        (∀ c (fh : Fh) handle, (τ.clients c).task = none → (τ.clients c).openFiles[fh]? = some handle → handle.ino = f →
          handle.generation = file.generation →
          Reads bs up τ (τ.clients c).blockCache handle (H.published.applyAll (H.pending c fh))) ∧
        ∀ c flags, ∃ snapshot, MetaService.openRead ⟨f,flags⟩ τ.metadata = .ok snapshot ∧
          Reads bs up τ (τ.clients c).blockCache (snapshotFile snapshot) H.published := by
  obtain ⟨file,inv,replicated,foreground⟩ :=
    synced_run positive labels created.inv created.apart created.replicated created.foreground synced ran
  have alive := inv.base.alive
  refine ⟨file,alive,(inv.calm calm).size,?_⟩
  intro up heard
  have sync : InSync f up τ := replicated.inSync alive calm (foreground.fresh up)
  have reached : Reached f up τ := by
    intro record present
    rw [alive] at present
    cases present
    exact heard
  constructor
  · intro c fh handle idle found mine current
    exact inv.reads positive calm sync reached idle found mine current
  · intro c flags
    obtain ⟨snapshot,opened,_,reads⟩ := inv.opens positive calm sync reached c flags
    exact ⟨snapshot,opened,reads⟩

/-- Client 0 writes a byte and fsyncs it to both stores of its block. -/
def fsynced : List Label := writeByte 0 1 0 7 ++ [.publish 0 1 .allReplicas Host.still,.send 0 0,.send 0 0,.close 0 Host.still 0]

theorem fsynced_runs : (trace 1 2 fsynced (withFile 2 ["m","n"]) .blank).isSome = true := by decide

/-- Whichever of the two stores is left, client 1 reads the byte. -/
theorem fsync_survives_either : ∃ τ H, trace 1 2 fsynced (withFile 2 ["m","n"]) .blank = some (τ,H) ∧ H.published.slice 0 1 = [7] ∧
    ∀ left ∈ ["m","n"], ∃ snapshot, MetaService.openRead ⟨2,0⟩ τ.metadata = .ok snapshot ∧
      Reads 1 (fun node => node == left) τ (τ.clients 1).blockCache (snapshotFile snapshot) H.published := by
  have created : Created 2 (withFile 2 ["m","n"]) := withFile_created (by decide) (by decide) (by decide) (by decide)
  have synced : Throughout 1 (Synced 2) fsynced (withFile 2 ["m","n"]) := by
    refine throughout_cons rfl trivial ?_
    refine throughout_cons rfl trivial ?_
    refine throughout_cons rfl ⟨(by decide : _ ≠ _),fun _ _ _ => rfl⟩ ?_
    refine throughout_cons rfl (alone_send 0 (by decide) rfl (fun _ => rfl)) ?_
    refine throughout_cons rfl (alone_send 0 (by decide) rfl (fun _ => rfl)) ?_
    exact throughout_cons rfl (by decide : ∀ p ∈ Client.publishes _ 2, Matches 2 p _) trivial
  have calm : Calm 2 ((trace 1 2 fsynced (withFile 2 ["m","n"]) .blank).get fsynced_runs).1 := by
    intro c acting
    obtain ⟨p,underway,_⟩ := acting
    match c with
    | 0 => cases underway
    | _ + 1 => cases underway
  have everywhere : ∀ record ∈ ((trace 1 2 fsynced (withFile 2 ["m","n"]) .blank).get fsynced_runs).1.metadata.fileAt 2,
      ∀ entry ∈ record.blocks.toList, ∀ left ∈ ["m","n"], left ∈ entry.2.nodes := by decide
  obtain ⟨file,alive,_,reads⟩ := fsync_survives Nat.one_pos created fsynced synced (Option.some_get fsynced_runs).symm calm
  refine ⟨_,_,(Option.some_get fsynced_runs).symm,by decide,?_⟩
  intro left either
  refine (reads (fun node => node == left) ?_).2 1 0
  intro idx placement placed
  have listed := Std.ExtTreeMap.mem_toList_iff_getElem?_eq_some.mpr placed
  exact ⟨left,everywhere file alive (idx,placement) listed left either,by simp⟩

end Dtmpfs
