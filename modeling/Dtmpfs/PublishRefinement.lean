import Dtmpfs.ClusterFrame
import Dtmpfs.FailedPublish
import Dtmpfs.Semantics.Measured
import Dtmpfs.Semantics.Simulation

/-! The publish of the cluster, one step for each executed write, against the call that
sends its requests one by one. Whatever the call and the rest of the cluster do together,
the cluster with its coarser publish can do as well, and leaves the same metadata server,
the same stores, the same handle and the same other clients behind. A request may be
executed at the metadata server without its client hearing of it; then the cluster does
the same with one request that nobody hears of. -/
namespace Dtmpfs
open OrderedMap

/-- A step of the cluster, or a request to the metadata server whose answer is lost. -/
inductive LossyLabel where
  | heard (label : Label)
  | unanswered (host : Host) (call : MetaService.Call)

namespace Cluster

/-- The metadata server executes a request; nobody hears of it. -/
def unanswered (host : Host) (call : MetaService.Call) (σ : Cluster) : Cluster :=
  {σ with
    metadata := MetaService.serve host call σ.metadata
    deletes := σ.deletes ++ MetaService.fired host call σ.metadata}

def lossyStep (bs : Nat) (label : LossyLabel) (σ : Cluster) : Option Cluster :=
  match label with
  | .heard label => step bs label σ
  | .unanswered host call => some (σ.unanswered host call)

end Cluster

/-- Lost answers. -/
def LossyLabel.losses : LossyLabel → Nat
  | .heard _ => 0
  | .unanswered _ _ => 1

/-- A cluster with a client in the middle of a publish that goes request by request. -/
structure Joint where
  call : PublishCall
  rest : Cluster

/-- What becomes of a request to the metadata server: the client hears the answer, the
request does not get there, or the server executes it and the answer does not get back. -/
inductive Fate where
  | answered
  | lost
  | unheard
deriving DecidableEq

/-- The call acts, with a metadata server at a host, or there is a step of others. -/
inductive PublishMove where
  | mine (act : Act) (host : Host) (fate : Fate)
  | others (label : LossyLabel)

/-- Answers that are lost in a move. -/
def PublishMove.losses : PublishMove → Nat
  | .mine _ _ fate => if fate = .unheard then 1 else 0
  | .others label => label.losses

namespace Joint

/-- The `Close` a call has sent. -/
def sentClose : List Event → Option CloseReq
  | [] => none
  | .closed r::_ => some r
  | _::past => sentClose past

/-- What a request leaves behind whose client is `told` something, if that can be. A client
that hears no answer is told an error. -/
def replied {α : Type} [DecidableEq α] (told : Except Status α) (fate : Fate) (s : MetaState) (served : Served α) : Option MetaState :=
  match fate,told,served.reply with
  | .answered,.ok value,.ok reply => if value = reply then some served.state else none
  | .answered,.error _,.error _ => some served.state
  | .lost,.error _,_ => some s
  | .unheard,.error _,_ => some served.state
  | _,_,_ => none

/-- The metadata server after an act of the call. Its replies are the server's own, its
clocks are those of a client, and its writes are executed by registered nodes. -/
def answered (act : Act) (host : Host) (fate : Fate) (j : Joint) : Option MetaState :=
  match act with
  | .allocate told => replied told fate j.rest.metadata
      (MetaService.allocateBlocks host j.call.file.ino (PublishCall.newIdxs j.call.file) j.rest.metadata)
  | .closeReply told => (sentClose j.call.trace).bind fun r => replied told fate j.rest.metadata (MetaService.close host r j.rest.metadata)
  | .execute k =>
    match j.call.phase with
    | .writing _ running _ => (running[k]?.bind j.call.request).bind fun message =>
        if j.rest.metadata.nodes.contains message.node then some j.rest.metadata else none
    | _ => none
  | .close clock => if clock < 10^9 * 2^63 then some j.rest.metadata else none
  | .elsewhere _ _ => none
  | _ => some j.rest.metadata

def step (bs : Nat) (c : ClientId) (move : PublishMove) (j : Joint) : Option Joint :=
  match move with
  | .mine act host fate => (j.answered act host fate).bind fun s =>
      (PublishCall.step act j.call).map fun call => ⟨call,{j.rest with metadata := s, stores := call.stores}⟩
  | .others (.heard label) =>
    if label.client = some c then none
    else (Cluster.step bs label j.rest).map fun rest => ⟨{j.call with stores := rest.stores},rest⟩
  | .others (.unanswered host call) => some ⟨j.call,j.rest.unanswered host call⟩

/-- Writes a future has been acknowledged without having heard of it: the cluster has them
on their way already. -/
def earlyOf (call : PublishCall) (f : Future) : List WriteBlock :=
  match call.wait,f.asked,call.file.blockMap[f.idx]? with
  | .primariesOnly,some (some (.ok _)),some placement => call.background f placement
  | _,_,_ => []

def early (call : PublishCall) : List WriteBlock :=
  match call.phase with
  | .writing _ running _ => running.flatMap (earlyOf call)
  | _ => []

/-- How many acknowledgements a future has got without having heard of them. -/
def unheard (asked : Option (Option (Except Status Nat))) : Nat :=
  match asked with
  | some (some (.ok _)) => 1
  | _ => 0

/-- The publish of the cluster is that of the call. -/
structure Same (call : PublishCall) (p : Publish) : Prop where
  fh : p.fh = call.fh
  wait : p.wait = call.wait
  ino : p.ino = call.file.ino
  generation : p.generation = call.file.generation
  blockMap : p.blockMap = call.file.blockMap

/-- Its acknowledgements are those of the futures, and of the blocks that have none any more. -/
structure Streams (wait : WaitPolicy) (p : Publish) (todo : List (BlockIdx × Bytes)) (running : List Future) : Prop where
  queued : ∀ entry ∈ todo, p.dirty[entry.1]? = some entry.2 ∧ p.ackedAt entry.1 = 0
  moving : ∀ f ∈ running, p.dirty[f.idx]? = some f.data ∧ p.ackedAt f.idx = f.acked + unheard f.asked ∧
    (wait = .primariesOnly → f.acked = 0)
  apart : (todo.map Prod.fst ++ running.map Future.idx).Nodup
  finished : ∀ idx ∈ p.dirty.keys, idx ∈ todo.map Prod.fst ∨ idx ∈ running.map Future.idx ∨ p.awaited idx ≤ p.ackedAt idx

/-- The task of the client at the call's phase. -/
def Tasked (call : PublishCall) (task : Option Task) : Prop :=
  match call.phase with
  | .listing => task = none ∧ call.file.dirty.isEmpty = false
  | .allocating => task = none ∧ call.file.dirty.isEmpty = false ∧ (PublishCall.newIdxs call.file).isEmpty = false
  | .writing todo running idxs => ∃ p, task = some (.publishing p) ∧ Same call p ∧ idxs = p.dirty.keys ∧
      Streams call.wait p todo running
  | .closing => ∃ p clock, task = some (.publishing p) ∧ Same call p ∧ p.finished = true ∧ clock < 10^9 * 2^63 ∧
      sentClose call.trace = some (Cluster.closeReq p call.file.sizeHint clock)
  | .returned _ => task = none

/-- The cluster is where the call and the rest of it are. -/
structure Mirrors (c : ClientId) (j : Joint) (σ : Cluster) : Prop where
  metadata : σ.metadata = j.rest.metadata
  stores : σ.stores = j.rest.stores
  called : j.call.stores = j.rest.stores
  deletes : σ.deletes = j.rest.deletes
  others : ∀ d, d ≠ c → σ.clients d = j.rest.clients d
  handle : (σ.clients c).openFiles[j.call.fh]? = some j.call.file
  handles : ∀ fh : Fh, fh ≠ j.call.fh → (σ.clients c).openFiles[fh]? = (j.rest.clients c).openFiles[fh]?
  cache : (σ.clients c).blockCache = (j.rest.clients c).blockCache
  task : Tasked j.call (σ.clients c).task
  writes : ∀ message, j.rest.writes.count message + j.call.spawned.count message + j.call.adrift.count message +
    (early j.call).count message ≤ σ.writes.count message

section Steps

variable {bs : Nat} {c : ClientId} {j : Joint} {σ : Cluster} {call : PublishCall}

/-- An act that the cluster has nothing to do for. -/
theorem Mirrors.stay (mirrors : Mirrors c j σ) (fh : call.fh = j.call.fh) (file : call.file = j.call.file)
    (stores : call.stores = j.call.stores) (task : Tasked call (σ.clients c).task)
    (fewer : ∀ message, call.spawned.count message + call.adrift.count message + (early call).count message ≤
      j.call.spawned.count message + j.call.adrift.count message + (early j.call).count message) :
    Mirrors c ⟨call,{j.rest with stores := call.stores}⟩ σ where
  metadata := mirrors.metadata
  stores := by
    rw [stores,mirrors.called]
    exact mirrors.stores
  called := rfl
  deletes := mirrors.deletes
  others := mirrors.others
  handle := by
    rw [fh,file]
    exact mirrors.handle
  handles other apart := mirrors.handles other (by rw [← fh]; exact apart)
  cache := mirrors.cache
  task := task
  writes message := by
    have before := mirrors.writes message
    have now := fewer message
    dsimp only
    omega

/-- A client that only goes on to another task. -/
theorem Mirrors.onward (mirrors : Mirrors c j σ) {task : Option Task} {τ : Cluster}
    (clients : τ.clients = (σ.setClient c {σ.clients c with task := task}).clients) :
    (∀ d, d ≠ c → τ.clients d = j.rest.clients d) ∧ (τ.clients c).openFiles[j.call.fh]? = some j.call.file ∧
      (∀ fh : Fh, fh ≠ j.call.fh → (τ.clients c).openFiles[fh]? = (j.rest.clients c).openFiles[fh]?) ∧
      (τ.clients c).blockCache = (j.rest.clients c).blockCache ∧ (τ.clients c).task = task := by
  rw [clients,Cluster.setClient_same]
  refine ⟨?_,mirrors.handle,mirrors.handles,mirrors.cache,rfl⟩
  intro d apart
  exact (Cluster.setClient_other σ _ apart).trans (mirrors.others d apart)

/-- Without a stream nothing is early. -/
theorem early_none (other : ∀ todo running idxs, call.phase ≠ .writing todo running idxs) : early call = [] := by
  unfold early
  split
  next todo running idxs phase => exact absurd phase (other todo running idxs)
  next => rfl

/-- What an act has the cluster do, as a goal. -/
def Followed (bs : Nat) (c : ClientId) (j : Joint) (σ : Cluster) : Prop :=
  Simulation.Reaches (Cluster.lossyStep bs) LossyLabel.losses 0 σ (Mirrors c j)

theorem followed_step {label : Label} {τ : Cluster} (stepped : Cluster.step bs label σ = some τ) (mirrors : Mirrors c j τ) :
    Followed bs c j σ :=
  @Simulation.Reaches.moves _ _ (Cluster.lossyStep bs) LossyLabel.losses σ τ _ (.heard label) stepped mirrors

theorem Mirrors.idle (mirrors : Mirrors c j σ) (same : call = {j.call with phase := call.phase, trace := call.trace})
    (task : Tasked call (σ.clients c).task) (none : early call = []) : Followed bs c ⟨call,{j.rest with stores := call.stores}⟩ σ := by
  apply Simulation.Reaches.stays
  apply mirrors.stay
  · rw [same]
  · rw [same]
  · rw [same]
  · exact task
  · intro message
    rw [none,same]
    exact Nat.add_le_add_left (Nat.zero_le _) _

theorem returned_early (call : PublishCall) (result : Except DtmpfsError Unit) : early (call.return_ result) = [] := by
  apply early_none
  intro todo running idxs phase
  cases phase

theorem ackedAt_ack (p : Publish) (idx other : BlockIdx) :
    (p.ack idx).ackedAt other = if idx = other then p.ackedAt other + 1 else p.ackedAt other := by
  unfold Publish.ackedAt Publish.ack
  rw [get_insert]
  split
  next same =>
    subst same
    rfl
  next => rfl

/-- A publish that has just taken the dirty blocks. -/
theorem taken_streams {p : Publish} (wait : WaitPolicy) (fresh : p.acked = ∅) :
    Streams wait p p.dirty.toList [] := by
  refine ⟨?_,List.forall_mem_nil _,?_,?_⟩
  · intro entry member
    refine ⟨Std.ExtTreeMap.mem_toList_iff_getElem?_eq_some.mp member,?_⟩
    rw [Publish.ackedAt,fresh]
    simp
  · rw [List.map_nil,List.append_nil,Std.ExtTreeMap.map_fst_toList_eq_keys]
    exact Std.ExtTreeMap.nodup_keys
  · intro idx member
    rw [Std.ExtTreeMap.map_fst_toList_eq_keys]
    exact .inl member

/-- The call takes the dirty blocks where the cluster's publish does. -/
theorem take_followed (mirrors : Mirrors c j σ) (idle : (σ.clients c).task = none) (dirty : j.call.file.dirty.isEmpty = false) (host : Host)
    {locs : List BlockLoc} (told : (Cluster.allocated host j.call.file σ.metadata).reply = .ok locs) (trace : List Event) {s : MetaState}
    (left : s = (Cluster.allocated host j.call.file σ.metadata).state) (early_ : early j.call = []) :
    let call := PublishCall.take {j.call with
      file := {j.call.file with blockMap := insertLocs j.call.file.blockMap locs}
      trace := trace}
    Followed bs c ⟨call,{j.rest with metadata := s, stores := call.stores}⟩ σ := by
  intro call
  have begun := @Cluster.publish_dirty c σ j.call.fh j.call.wait host j.call.file idle mirrors.handle dirty
  rw [told] at begun
  have stepped : Cluster.step bs (.publish c j.call.fh j.call.wait host) σ = some _ := begun
  refine followed_step stepped ?_
  subst left
  refine ⟨rfl,?_,rfl,mirrors.deletes,?_,?_,?_,?_,?_,?_⟩
  · exact mirrors.stores.trans mirrors.called.symm
  · intro d apart
    rw [Cluster.setClient_other _ _ apart]
    exact mirrors.others d apart
  · rw [Cluster.setClient_same]
    simp only [Cluster.publishing,get_insert]
    exact if_pos rfl
  · intro fh apart
    rw [Cluster.setClient_same]
    simp only [Cluster.publishing,get_insert]
    exact (if_neg (Ne.symm apart)).trans (mirrors.handles fh apart)
  · rw [Cluster.setClient_same]
    exact mirrors.cache
  · rw [Cluster.setClient_same]
    exact ⟨_,rfl,⟨rfl,rfl,rfl,rfl,rfl⟩,rfl,taken_streams call.wait rfl⟩
  · intro message
    have before := mirrors.writes message
    rw [early_] at before
    exact before

theorem listNodes_followed (mirrors : Mirrors c j σ) {reply : Except Status Unit} (stepped : j.call.listNodes reply = some call) :
    Followed bs c ⟨call,{j.rest with stores := call.stores}⟩ σ := by
  have task := mirrors.task
  unfold Tasked at task
  unfold PublishCall.listNodes at stepped
  split at stepped
  next phase =>
    cases stepped
    rw [phase] at task
    exact mirrors.idle rfl task.1 (returned_early _ _)
  next phase =>
    cases stepped
    rw [phase] at task
    obtain ⟨idle,dirty⟩ := task
    have none : early j.call = [] := by
      apply early_none
      intro todo running idxs
      rw [phase]
      intro same
      cases same
    split
    next nothing =>
      have known : Cluster.allocated Host.still j.call.file σ.metadata = ⟨.ok [],σ.metadata,[]⟩ := if_pos nothing
      exact @take_followed bs c j σ mirrors idle dirty Host.still [] (by rw [known]) j.call.trace j.rest.metadata
        (by rw [known,mirrors.metadata]) none
    next some_ =>
      refine mirrors.idle rfl ⟨idle,dirty,?_⟩ ?_
      · exact Bool.eq_false_iff.mpr some_
      · apply early_none
        intro todo running idxs same
        cases same
  next => cases stepped

/-- A request whose client hears of an error has been lost, or the server has refused it. -/
theorem replied_error {α : Type} [DecidableEq α] {status : Status} {fate : Fate} {before s : MetaState} {served : Served α}
    (told : replied (.error status) fate before served = some s) (heard : fate ≠ .unheard) :
    s = before ∨ ((∃ fault, served.reply = .error fault) ∧ s = served.state) := by
  cases fate with
  | lost => exact .inl (Option.some.inj told).symm
  | unheard => exact absurd rfl heard
  | answered =>
    unfold replied at told
    cases reply : served.reply with
    | ok value =>
      rw [reply] at told
      cases told
    | error fault =>
      rw [reply] at told
      exact .inr ⟨⟨fault,rfl⟩,(Option.some.inj told).symm⟩

theorem replied_ok {α : Type} [DecidableEq α] {value : α} {fate : Fate} {before s : MetaState} {served : Served α}
    (told : replied (.ok value) fate before served = some s) : served.reply = .ok value ∧ s = served.state := by
  cases fate with
  | lost => cases told
  | unheard => cases told
  | answered =>
    unfold replied at told
    cases reply : served.reply with
    | ok other =>
      rw [reply] at told
      dsimp only at told
      split at told
      next same =>
        subst same
        exact ⟨rfl,(Option.some.inj told).symm⟩
      next => cases told
    | error fault =>
      rw [reply] at told
      cases told

theorem allocate_followed (mirrors : Mirrors c j σ) {reply : Except Status (List BlockLoc)} {host : Host} {fate : Fate} {s : MetaState}
    (served : j.answered (.allocate reply) host fate = some s) (stepped : j.call.allocate reply = some call) (heard : fate ≠ .unheard) :
    Followed bs c ⟨call,{j.rest with metadata := s, stores := call.stores}⟩ σ := by
  have task := mirrors.task
  unfold Tasked at task
  unfold PublishCall.allocate at stepped
  simp only [answered] at served
  have asked (some_ : (PublishCall.newIdxs j.call.file).isEmpty = false) : Cluster.allocated host j.call.file σ.metadata =
      MetaService.allocateBlocks host j.call.file.ino (PublishCall.newIdxs j.call.file) j.rest.metadata := by
    rw [mirrors.metadata]
    exact if_neg (Bool.eq_false_iff.mp some_)
  split at stepped
  next status phase =>
    cases stepped
    rw [phase] at task
    obtain ⟨idle,dirty,some_⟩ := task
    rcases replied_error served heard with rfl | ⟨⟨fault,refused⟩,rfl⟩
    · exact mirrors.idle rfl idle (returned_early _ _)
    · have begun := @Cluster.publish_dirty c σ j.call.fh j.call.wait host j.call.file idle mirrors.handle dirty
      rw [asked some_,refused] at begun
      have refuses : Cluster.step bs (.publish c j.call.fh j.call.wait host) σ = some _ := begun
      refine followed_step refuses ⟨rfl,mirrors.stores.trans mirrors.called.symm,rfl,mirrors.deletes,mirrors.others,mirrors.handle,
        mirrors.handles,mirrors.cache,idle,?_⟩
      intro message
      have before := mirrors.writes message
      have none := returned_early j.call (.error (.fromStatus status none))
      rw [none]
      exact Nat.le_trans (Nat.add_le_add_left (Nat.zero_le _) _) before
  next locs phase =>
    cases stepped
    rw [phase] at task
    obtain ⟨idle,dirty,some_⟩ := task
    obtain ⟨told,rfl⟩ := replied_ok served
    have none : early j.call = [] := by
      apply early_none
      intro todo running idxs
      rw [phase]
      intro same
      cases same
    exact take_followed mirrors idle dirty host (by rw [asked some_,told]) (.allocated locs::j.call.trace) (by rw [asked some_]) none
  next => cases stepped

theorem early_writing {todo : List (BlockIdx × Bytes)} {running : List Future} {idxs : List BlockIdx}
    (phase : call.phase = .writing todo running idxs) (message : WriteBlock) :
    (early call).count message = (running.map fun f => (earlyOf call f).count message).sum := by
  unfold early
  rw [phase]
  exact List.count_flatMap

theorem map_set_same {α β : Type} {key : α → β} {items : List α} {k : Nat} {old new : α} (found : items[k]? = some old)
    (same : key new = key old) : (items.set k new).map key = items.map key := by
  have there : (items.map key)[k]? = some (key new) := by
    rw [List.getElem?_map,found,same]
    rfl
  obtain ⟨small,here⟩ := List.getElem?_eq_some_iff.mp there
  rw [List.map_set,← here,List.set_getElem_self]

section Futures

variable {wait : WaitPolicy} {p q : Publish} {todo : List (BlockIdx × Bytes)} {running : List Future} {k : Nat} {f g : Future}

/-- Each block is queued once or has one future. -/
theorem Streams.other (streams : Streams wait p todo running) (found : running[k]? = some f) :
    (∀ entry ∈ todo, entry.1 ≠ f.idx) ∧ ∀ i ≠ k, ∀ h, running[i]? = some h → h.idx ≠ f.idx := by
  obtain ⟨_,once,apart⟩ := List.nodup_append.mp streams.apart
  have here : (running.map Future.idx)[k]? = some f.idx := by
    rw [List.getElem?_map,found]
    rfl
  refine ⟨?_,?_⟩
  · intro entry member
    exact apart _ (List.mem_map_of_mem member) _ (List.mem_of_getElem? here)
  · intro i differs h there same
    have also : (running.map Future.idx)[i]? = some f.idx := by
      rw [List.getElem?_map,there,← same]
      rfl
    exact differs ((List.getElem?_inj (List.getElem?_eq_some_iff.mp also).1 once).mp (also.trans here.symm))

theorem Streams.set (streams : Streams wait p todo running) (found : running[k]? = some f) (idx : g.idx = f.idx) (data : g.data = f.data)
    (dirty : q.dirty = p.dirty) (awaited : ∀ i, q.awaited i = p.awaited i) (others : ∀ i, i ≠ f.idx → q.ackedAt i = p.ackedAt i)
    (acked : q.ackedAt f.idx = g.acked + unheard g.asked) (first : wait = .primariesOnly → g.acked = 0) :
    Streams wait q todo (running.set k g) := by
  obtain ⟨queued,elsewhere⟩ := streams.other found
  refine ⟨?_,?_,?_,?_⟩
  · intro entry member
    obtain ⟨held,none⟩ := streams.queued entry member
    rw [dirty,others _ (queued entry member)]
    exact ⟨held,none⟩
  · intro h member
    obtain ⟨i,there⟩ := List.mem_iff_getElem?.mp member
    rw [List.getElem?_set] at there
    split at there
    next same =>
      split at there
      next =>
        cases there
        refine ⟨?_,?_,first⟩
        · rw [dirty,idx,data]
          exact (streams.moving f (List.mem_of_getElem? found)).1
        · rw [idx]
          exact acked
      next => cases there
    next differs =>
      obtain ⟨held,count,zero⟩ := streams.moving h (List.mem_of_getElem? there)
      rw [dirty,others _ (elsewhere i (Ne.symm differs) h there)]
      exact ⟨held,count,zero⟩
  · rw [map_set_same found idx]
    exact streams.apart
  · intro i member
    rw [dirty] at member
    rw [map_set_same found idx,awaited]
    rcases streams.finished i member with waiting | moving | done
    · exact .inl waiting
    · exact .inr (.inl moving)
    · by_cases mine : i = f.idx
      · subst mine
        exact .inr (.inl (List.mem_map_of_mem (List.mem_of_getElem? found)))
      · rw [others i mine]
        exact .inr (.inr done)

theorem Streams.erase (streams : Streams wait p todo running) (found : running[k]? = some f) (done : p.awaited f.idx ≤ p.ackedAt f.idx) :
    Streams wait p todo (running.eraseIdx k) := by
  refine ⟨streams.queued,fun h member => streams.moving h (List.mem_of_mem_eraseIdx member),?_,?_⟩
  · refine List.Nodup.sublist ?_ streams.apart
    exact ((List.eraseIdx_sublist running k).map Future.idx).append_left _
  · intro i member
    rcases streams.finished i member with waiting | moving | past
    · exact .inl waiting
    · obtain ⟨h,there,rfl⟩ := List.mem_map.mp moving
      obtain ⟨j,place⟩ := List.mem_iff_getElem?.mp there
      by_cases same : j = k
      · subst same
        rw [found] at place
        cases place
        exact .inr (.inr done)
      · exact .inr (.inl (List.mem_map_of_mem (List.mem_eraseIdx_iff_getElem?.mpr ⟨j,same,place⟩)))
    · exact .inr (.inr past)

theorem Streams.start {idx : BlockIdx} {data : Bytes} (streams : Streams wait p ((idx,data)::todo) running) :
    Streams wait p todo (running ++ [⟨idx,data,0,none⟩]) := by
  have moved : (todo.map Prod.fst ++ (running ++ [(⟨idx,data,0,none⟩ : Future)]).map Future.idx).Perm
      (((idx,data)::todo).map Prod.fst ++ running.map Future.idx) := by
    rw [List.map_append,← List.append_assoc]
    exact List.perm_append_singleton idx _
  refine ⟨fun entry member => streams.queued entry (List.mem_cons_of_mem _ member),?_,moved.nodup_iff.mpr streams.apart,?_⟩
  · intro h member
    rcases List.mem_append.mp member with old | new
    · exact streams.moving h old
    · rw [List.mem_singleton.mp new]
      obtain ⟨held,none⟩ := streams.queued (idx,data) List.mem_cons_self
      exact ⟨held,none,fun _ => rfl⟩
  · intro i member
    rw [← or_assoc,← List.mem_append,moved.mem_iff,List.mem_append,or_assoc]
    exact streams.finished i member

end Futures

section Stream

variable {p : Publish} {todo : List (BlockIdx × Bytes)} {running : List Future} {idxs : List BlockIdx}

/-- The stream goes on with other futures, none of which has been acknowledged early. -/
theorem Mirrors.streams (mirrors : Mirrors c j σ) (phase : j.call.phase = .writing todo running idxs)
    (task : (σ.clients c).task = some (.publishing p)) (same : Same j.call p) (keys : idxs = p.dirty.keys) {todo' : List (BlockIdx × Bytes)}
    {running' : List Future} (streams : Streams j.call.wait p todo' running') (trace : List Event) (spawned : List WriteBlock)
    (fewer : ∀ message, spawned.count message + (running'.map fun f => (earlyOf j.call f).count message).sum ≤
      j.call.spawned.count message + (running.map fun f => (earlyOf j.call f).count message).sum) :
    Followed bs c ⟨{j.call with phase := .writing todo' running' idxs, trace := trace, spawned := spawned},
      {j.rest with stores := j.call.stores}⟩ σ := by
  apply Simulation.Reaches.stays
  refine mirrors.stay rfl rfl rfl ⟨p,task,⟨same.fh,same.wait,same.ino,same.generation,same.blockMap⟩,keys,streams⟩ ?_
  intro message
  have now := fewer message
  have later := @early_writing {j.call with phase := .writing todo' running' idxs, trace := trace, spawned := spawned} todo' running' idxs rfl message
  have before := early_writing phase message
  rw [later,before]
  dsimp only
  have unchanged : (running'.map fun f => (earlyOf {j.call with phase := .writing todo' running' idxs, trace := trace, spawned := spawned} f).count
      message) = running'.map fun f => (earlyOf j.call f).count message := rfl
  rw [unchanged]
  omega

theorem start_followed (mirrors : Mirrors c j σ) (stepped : j.call.start = some call) :
    Followed bs c ⟨call,{j.rest with stores := call.stores}⟩ σ := by
  have task := mirrors.task
  unfold Tasked at task
  unfold PublishCall.start at stepped
  split at stepped
  next idx data todo running idxs phase =>
    rw [phase] at task
    obtain ⟨p,task,same,keys,streams⟩ := task
    split at stepped
    next =>
      cases stepped
      refine mirrors.streams phase task same keys streams.start j.call.trace j.call.spawned ?_
      intro message
      have none : earlyOf j.call ⟨idx,data,0,none⟩ = [] := by
        unfold earlyOf
        cases j.call.wait with
        | primariesOnly => rfl
        | allReplicas => rfl
      rw [List.map_append,List.sum_append,List.map_singleton,none]
      exact Nat.le_refl _
    next => cases stepped
  next => cases stepped

theorem awaited_placed {idx : BlockIdx} {placement : BlockPlacement} (placed : p.blockMap[idx]? = some placement) :
    p.awaited idx = match p.wait with
      | .primariesOnly => 1
      | .allReplicas => placement.nodes.length := by
  unfold Publish.awaited
  cases p.wait with
  | primariesOnly => rfl
  | allReplicas =>
    rw [placed]
    rfl

/-- The next request of a future is that of its block. -/
theorem request_nextWrite (same : Same j.call p) (streams : Streams j.call.wait p todo running) {f : Future} (member : f ∈ running)
    (asked : f.asked = some none) : j.call.request f = Cluster.nextWrite p f.idx := by
  obtain ⟨held,count,first⟩ := streams.moving f member
  rw [asked] at count
  have acked : p.ackedAt f.idx = f.acked := count
  unfold PublishCall.request Cluster.nextWrite
  rw [held,acked,same.blockMap,same.ino]
  cases placed : j.call.file.blockMap[f.idx]? with
  | none => rfl
  | some placement =>
    rw [Option.bind_some]
    dsimp only
    split
    next => rfl
    next full =>
      rw [awaited_placed (by rw [same.blockMap]; exact placed)] at full
      cases wait : p.wait with
      | primariesOnly =>
        rw [wait,first (same.wait.symm.trans wait)] at full
        exact absurd Nat.one_pos full
      | allReplicas =>
        rw [wait] at full
        rw [List.getElem?_eq_none (Nat.le_of_not_lt full)]
        rfl

/-- The future's request has been sent and not been executed. -/
def pending (f : Future) : Bool :=
  match f.asked with
  | some none => true
  | _ => false

theorem unanswered_stray (same : Same j.call p) (streams : Streams j.call.wait p todo running) :
    ∃ stray : List BlockIdx, j.call.unanswered running = stray.filterMap (Cluster.nextWrite p) := by
  refine ⟨(running.filter pending).map Future.idx,?_⟩
  rw [List.filterMap_map]
  apply List.filterMap_congr
  intro f member
  obtain ⟨there,waiting⟩ := List.mem_filter.mp member
  apply request_nextWrite same streams there
  split at waiting
  next asked => exact asked
  next => cases waiting

/-- The cluster's publish ends where the call returns without a `Close` that was executed. -/
theorem abort_followed (mirrors : Mirrors c j σ) (task : (σ.clients c).task = some (.publishing p)) (stray : List BlockIdx)
    (fh : call.fh = j.call.fh) (file : call.file = j.call.file) (stores : call.stores = j.call.stores) (returned : Tasked call none)
    (none_ : early call = []) (fewer : ∀ message, call.spawned.count message + call.adrift.count message ≤
      j.call.spawned.count message + j.call.adrift.count message + (stray.filterMap (Cluster.nextWrite p)).count message) :
    Followed bs c ⟨call,{j.rest with stores := call.stores}⟩ σ := by
  have aborted : Cluster.step bs (.abort c stray) σ =
      some {σ.setClient c {σ.clients c with task := none} with writes := σ.writes ++ stray.filterMap (Cluster.nextWrite p)} := by
    simp only [Cluster.step,Cluster.abort,task]
  have clients : ({σ.setClient c {σ.clients c with task := none} with
      writes := σ.writes ++ stray.filterMap (Cluster.nextWrite p)} : Cluster).clients = _ := rfl
  obtain ⟨others,handle,handles,cache,idle⟩ := mirrors.onward clients
  refine followed_step aborted ⟨mirrors.metadata,?_,rfl,mirrors.deletes,others,?_,?_,cache,?_,?_⟩
  · rw [stores]
    exact mirrors.stores.trans mirrors.called.symm
  · rw [fh,file]
    exact handle
  · rw [fh]
    exact handles
  · rw [idle]
    exact returned
  · intro message
    have before := mirrors.writes message
    have now := fewer message
    rw [none_,List.count_append]
    simp only [List.count_nil]
    omega

/-- A call that gives up leaves its requests on their way, as the cluster's publish does. -/
theorem fail_followed (mirrors : Mirrors c j σ) (task : (σ.clients c).task = some (.publishing p)) (same : Same j.call p)
    (streams : Streams j.call.wait p todo running) (f : Future) (e : DtmpfsError) :
    Followed bs c ⟨j.call.fail running f e,{j.rest with stores := j.call.stores}⟩ σ := by
  obtain ⟨stray,left⟩ := unanswered_stray same streams
  refine abort_followed mirrors task stray rfl rfl rfl rfl ?_ ?_
  · apply early_none
    intro todo running idxs phase
    cases phase
  · intro message
    rw [← left]
    simp only [PublishCall.fail,List.count_append]
    omega

theorem earlyOf_unheard {f : Future} (unheard_ : unheard f.asked = 0) : earlyOf call f = [] := by
  unfold earlyOf
  unfold unheard at unheard_
  split
  next asked _ =>
    rw [asked] at unheard_
    cases unheard_
  next => rfl

/-- What is early is what the cluster's publish has sent in the background. -/
theorem earlyOf_heard (same : Same call p) {f : Future} {size : Nat} (heard : f.asked = some (some (.ok size))) {placement : BlockPlacement}
    (placed : call.file.blockMap[f.idx]? = some placement) : earlyOf call f = p.background f.idx placement f.data := by
  unfold earlyOf Publish.background
  rw [heard,placed,same.wait,same.ino]
  cases call.wait with
  | primariesOnly => rfl
  | allReplicas => rfl

/-- Early writes change with the one future that changes. -/
theorem early_set {k : Nat} {f g : Future} (found : running[k]? = some f) (message : WriteBlock) :
    ((running.set k g).map fun f => (earlyOf call f).count message).sum + (earlyOf call f).count message =
      (running.map fun f => (earlyOf call f).count message).sum + (earlyOf call g).count message :=
  Measured.sum_set (fun f => (earlyOf call f).count message) g found

theorem early_erase {k : Nat} {f : Future} (found : running[k]? = some f) (message : WriteBlock) :
    ((running.eraseIdx k).map fun f => (earlyOf call f).count message).sum + (earlyOf call f).count message =
      (running.map fun f => (earlyOf call f).count message).sum :=
  Measured.sum_eraseIdx (fun f => (earlyOf call f).count message) found

theorem request_placed {f : Future} {message : WriteBlock} (wanted : call.request f = some message) :
    ∃ placement node, call.file.blockMap[f.idx]? = some placement ∧ placement.nodes[f.acked]? = some node ∧
      message = ⟨node,⟨call.file.ino,f.idx,0⟩,f.data⟩ := by
  obtain ⟨node,found,same⟩ := Option.map_eq_some_iff.mp wanted
  obtain ⟨placement,placed,next⟩ := Option.bind_eq_some_iff.mp found
  exact ⟨placement,node,placed,next,same.symm⟩

theorem connect_followed (mirrors : Mirrors c j σ) {k : Nat} {reached : Bool} (stepped : j.call.connect k reached = some call) :
    Followed bs c ⟨call,{j.rest with stores := call.stores}⟩ σ := by
  have task := mirrors.task
  unfold Tasked at task
  unfold PublishCall.connect at stepped
  split at stepped
  next todo running idxs phase =>
    rw [phase] at task
    obtain ⟨p,task,same,keys,streams⟩ := task
    split at stepped
    next f found =>
      split at stepped
      next => cases stepped
      next silent =>
        have unsent : f.asked = none := Option.not_isSome_iff_eq_none.mp silent
        split at stepped
        next =>
          cases stepped
          exact fail_followed mirrors task same streams f _
        next placement placed =>
          split at stepped
          next => cases stepped
          next node next =>
            split at stepped
            next =>
              cases stepped
              obtain ⟨_,count,first⟩ := streams.moving f (List.mem_of_getElem? found)
              rw [unsent] at count
              have moved : Streams j.call.wait p todo (running.set k {f with asked := some none}) :=
                streams.set found rfl rfl rfl (fun _ => rfl) (fun _ _ => rfl) count first
              refine mirrors.streams phase task same keys moved (.sent f.idx node f.data::j.call.trace) j.call.spawned ?_
              intro message
              have sums := @early_set j.call running k f {f with asked := some none} found message
              have before : earlyOf j.call f = [] := earlyOf_unheard (by rw [unsent]; rfl)
              have after : earlyOf j.call {f with asked := some none} = [] := earlyOf_unheard rfl
              rw [before,after] at sums
              simp only [List.count_nil] at sums
              omega
            next =>
              cases stepped
              exact fail_followed mirrors task same streams f _
    next => cases stepped
  next => cases stepped

/-- A write that the store refuses changes the future only. -/
theorem refused_followed (mirrors : Mirrors c j σ) (phase : j.call.phase = .writing todo running idxs)
    (task : (σ.clients c).task = some (.publishing p)) (same : Same j.call p) (keys : idxs = p.dirty.keys)
    (streams : Streams j.call.wait p todo running) {k : Nat} {f : Future} (found : running[k]? = some f) (sent : f.asked = some none)
    (status : Status) :
    Followed bs c ⟨{j.call with phase := .writing todo (running.set k {f with asked := some (some (.error status))}) idxs},
      {j.rest with stores := j.call.stores}⟩ σ := by
  obtain ⟨_,count,first⟩ := streams.moving f (List.mem_of_getElem? found)
  rw [sent] at count
  have moved : Streams j.call.wait p todo (running.set k {f with asked := some (some (.error status))}) :=
    streams.set found rfl rfl rfl (fun _ => rfl) (fun _ _ => rfl) count first
  refine mirrors.streams phase task same keys moved j.call.trace j.call.spawned ?_
  intro message
  have now := @early_set j.call running k f {f with asked := some (some (.error status))} found message
  have before : earlyOf j.call f = [] := earlyOf_unheard (by rw [sent]; rfl)
  have after : earlyOf j.call {f with asked := some (some (.error status))} = [] := earlyOf_unheard rfl
  rw [before,after] at now
  simp only [List.count_nil] at now
  omega

/-- A write that the store accepts is the next one of the cluster's publish. -/
theorem written_followed (mirrors : Mirrors c j σ) (phase : j.call.phase = .writing todo running idxs)
    (task : (σ.clients c).task = some (.publishing p)) (same : Same j.call p) (keys : idxs = p.dirty.keys)
    (streams : Streams j.call.wait p todo running) {k : Nat} {f : Future} (found : running[k]? = some f) (sent : f.asked = some none)
    {placement : BlockPlacement} (placed : j.call.file.blockMap[f.idx]? = some placement) {node : NodeId}
    (next : placement.nodes[f.acked]? = some node) (known : j.rest.metadata.nodes.contains node = true) {size : Nat} {store : StoreState}
    (written : (j.call.stores node).writeBlock ⟨j.call.file.ino,f.idx,0⟩ f.data = (.ok size,store)) :
    let stores := fun other => if other = node then store else j.call.stores other
    Followed bs c ⟨{j.call with
        stores := stores
        phase := .writing todo (running.set k {f with asked := some (some (.ok size))}) idxs},
      {j.rest with stores := stores}⟩ σ := by
  intro stores
  obtain ⟨held,count,first⟩ := streams.moving f (List.mem_of_getElem? found)
  rw [sent] at count
  have place : p.blockMap[f.idx]? = some placement := by
    rw [same.blockMap]
    exact placed
  have acked : p.ackedAt f.idx = f.acked := count
  have waiting : p.ackedAt f.idx < p.awaited f.idx := by
    rw [acked,awaited_placed place]
    cases wait : p.wait with
    | primariesOnly =>
      rw [first (same.wait.symm.trans wait)]
      exact Nat.one_pos
    | allReplicas => exact (List.getElem?_eq_some_iff.mp next).1
  have known' : σ.metadata.nodes.contains node = true := by
    rw [mirrors.metadata]
    exact known
  have chosen : placement.nodes[p.ackedAt f.idx]? = some node := by
    rw [acked]
    exact next
  have accepted : (σ.stores node).writeBlock ⟨p.ino,f.idx,0⟩ f.data = (.ok size,store) := by
    rw [mirrors.stores,← mirrors.called,same.ino]
    exact written
  have sends : Cluster.step bs (.send c f.idx) σ = some _ := Cluster.send_eq task held place waiting chosen known' accepted
  have clients : ({(σ.setStore node store).setClient c {σ.clients c with task := some (.publishing (p.ack f.idx))} with
      writes := σ.writes ++ p.background f.idx placement f.data} : Cluster).clients =
    (σ.setClient c {σ.clients c with task := some (.publishing (p.ack f.idx))}).clients := rfl
  obtain ⟨others,handle,handles,cache,busy⟩ := mirrors.onward clients
  refine followed_step sends ⟨mirrors.metadata,?_,rfl,mirrors.deletes,others,handle,handles,cache,?_,?_⟩
  · funext other
    exact ite_congr rfl (fun _ => rfl) (fun _ => by rw [mirrors.stores,mirrors.called])
  · refine ⟨p.ack f.idx,busy,⟨same.fh,same.wait,same.ino,same.generation,same.blockMap⟩,keys,?_⟩
    refine streams.set found rfl rfl rfl (fun _ => rfl) ?_ ?_ first
    · intro i other
      rw [ackedAt_ack,if_neg (Ne.symm other)]
    · rw [ackedAt_ack,if_pos rfl,acked]
      rfl
  · intro message
    have bound := mirrors.writes message
    have now := @early_set j.call running k f {f with asked := some (some (.ok size))} found message
    have before : earlyOf j.call f = [] := earlyOf_unheard (by rw [sent]; rfl)
    have heard := @earlyOf_heard j.call p same {f with asked := some (some (.ok size))} size rfl placement placed
    rw [before,heard] at now
    rw [early_writing phase] at bound
    rw [early_writing rfl,List.count_append]
    simp only [List.count_nil] at now
    refine Nat.le_trans (Nat.add_le_add_left (Nat.le_of_eq now) _) ?_
    dsimp only
    omega

/-- An executed request is a step of the cluster's publish. -/
theorem execute_followed (mirrors : Mirrors c j σ) {k : Nat} {host : Host} {fate : Fate} {s : MetaState}
    (served : j.answered (.execute k) host fate = some s) (stepped : j.call.execute k = some call) :
    Followed bs c ⟨call,{j.rest with metadata := s, stores := call.stores}⟩ σ := by
  have task := mirrors.task
  unfold Tasked at task
  unfold PublishCall.execute at stepped
  split at stepped
  next todo running idxs phase =>
    rw [phase] at task
    obtain ⟨p,task,same,keys,streams⟩ := task
    split at stepped
    next f found =>
      split at stepped
      next message sent wanted =>
        have registered : j.rest.metadata.nodes.contains message.node = true ∧ s = j.rest.metadata := by
          simp only [answered,phase,found,Option.bind_some,wanted] at served
          split at served
          next known => exact ⟨known,(Option.some.inj served).symm⟩
          next => cases served
        obtain ⟨known,rfl⟩ := registered
        rcases written : (j.call.stores message.node).writeBlock message.key message.data with ⟨reply,store⟩
        rw [written] at stepped
        cases stepped
        cases reply with
        | error status =>
          have still : (fun other => if other = message.node then store else j.call.stores other) = j.call.stores := by
            funext other
            split
            next here =>
              rcases StoreState.writeBlock_cases message.key message.data (j.call.stores message.node) with ⟨_,refused⟩ | accepted
              · rw [written] at refused
                rw [here]
                exact congrArg Prod.snd refused
              · rw [written] at accepted
                cases congrArg Prod.fst accepted
            next => rfl
          rw [still]
          exact refused_followed mirrors phase task same keys streams found sent status
        | ok size =>
          obtain ⟨placement,node,placed,next,rfl⟩ := request_placed wanted
          exact written_followed mirrors phase task same keys streams found sent placed next known written
      next => cases stepped
    next => cases stepped
  next => cases stepped

/-- The cluster has counted an acknowledgement before the call hears of it. -/
theorem answer_followed (mirrors : Mirrors c j σ) {k : Nat} {reply : Except Status Unit} (stepped : j.call.answer k reply = some call) :
    Followed bs c ⟨call,{j.rest with stores := call.stores}⟩ σ := by
  have task := mirrors.task
  unfold Tasked at task
  unfold PublishCall.answer at stepped
  split at stepped
  next todo running idxs phase =>
    rw [phase] at task
    obtain ⟨p,task,same,keys,streams⟩ := task
    split at stepped
    next f found =>
      split at stepped
      next executed placement asked placed =>
        split at stepped
        next => cases stepped
        next node next =>
          split at stepped
          next =>
            cases stepped
            exact fail_followed mirrors task same streams f _
          next =>
            split at stepped
            next size =>
              obtain ⟨_,count,first⟩ := streams.moving f (List.mem_of_getElem? found)
              rw [asked] at count
              have acked : p.ackedAt f.idx = f.acked + 1 := count
              have awaited := @awaited_placed p f.idx placement (by rw [same.blockMap]; exact placed)
              have gone := @early_erase j.call running k f found
              dsimp only at stepped
              split at stepped
              next only =>
                cases stepped
                have done : p.awaited f.idx ≤ p.ackedAt f.idx := by
                  rw [awaited,same.wait,only,acked]
                  exact Nat.le_add_left 1 _
                have heard := earlyOf_heard same asked placed
                have spawns : p.background f.idx placement f.data = j.call.background f placement := by
                  rw [← heard]
                  unfold earlyOf
                  rw [only,asked,placed]
                refine mirrors.streams phase task same keys (streams.erase found done) (.acked f.idx node f.data::j.call.trace)
                  (j.call.spawned ++ j.call.background f placement) ?_
                intro message
                have sums := gone message
                rw [heard,spawns] at sums
                rw [List.count_append]
                omega
              next all =>
                split at stepped
                next more =>
                  cases stepped
                  have moved : Streams j.call.wait p todo (running.set k {f with acked := f.acked + 1, asked := none}) := by
                    refine streams.set found rfl rfl rfl (fun _ => rfl) (fun _ _ => rfl) acked ?_
                    intro only
                    rw [all] at only
                    cases only
                  refine mirrors.streams phase task same keys moved (.acked f.idx node f.data::j.call.trace) j.call.spawned ?_
                  intro message
                  have sums := @early_set j.call running k f {f with acked := f.acked + 1, asked := none} found message
                  have after : earlyOf j.call {f with acked := f.acked + 1, asked := none} = [] := earlyOf_unheard rfl
                  rw [after] at sums
                  simp only [List.count_nil] at sums
                  omega
                next last =>
                  cases stepped
                  have done : p.awaited f.idx ≤ p.ackedAt f.idx := by
                    rw [awaited,same.wait,all,acked]
                    exact Nat.le_of_not_lt last
                  refine mirrors.streams phase task same keys (streams.erase found done) (.acked f.idx node f.data::j.call.trace)
                    j.call.spawned ?_
                  intro message
                  have sums := gone message
                  omega
            next => cases stepped
      next => cases stepped
    next => cases stepped
  next => cases stepped

theorem close_followed (mirrors : Mirrors c j σ) {clock : SystemTime} {host : Host} {fate : Fate} {s : MetaState}
    (served : j.answered (.close clock) host fate = some s) (stepped : j.call.close clock = some call) :
    Followed bs c ⟨call,{j.rest with metadata := s, stores := call.stores}⟩ σ := by
  have task := mirrors.task
  unfold Tasked at task
  simp only [answered] at served
  split at served
  next early_clock =>
    cases served
    unfold PublishCall.close at stepped
    split at stepped
    next idxs phase =>
      cases stepped
      rw [phase] at task
      obtain ⟨p,task,same,keys,streams⟩ := task
      apply mirrors.idle rfl
      · refine ⟨p,clock,task,⟨same.fh,same.wait,same.ino,same.generation,same.blockMap⟩,?_,early_clock,?_⟩
        · apply List.all_eq_true.mpr
          intro idx member
          rcases streams.finished idx member with waiting | moving | done
          · cases waiting
          · cases moving
          · exact decide_eq_true done
        · simp only [sentClose,PublishCall.closeReq,Cluster.closeReq,same.fh,same.ino,same.generation,keys]
      · apply early_none
        intro todo running idxs phase
        cases phase
    next => cases stepped
  next => cases served

/-- The cluster's `Close` of the call, with the reply it gets. -/
theorem close_settles (mirrors : Mirrors c j σ) {host : Host} {clock : SystemTime} (task : (σ.clients c).task = some (.publishing p))
    (same : Same j.call p) (finished : p.finished = true) (clocked : clock < 10^9 * 2^63) {served : Served Attr}
    (asked : MetaService.close host (Cluster.closeReq p j.call.file.sizeHint clock) j.rest.metadata = served) (handled : OpenFile)
    (settles : Cluster.settled (σ.clients c) p.fh j.call.file served.reply =
      {σ.clients c with openFiles := (σ.clients c).openFiles.insert p.fh handled, task := none})
    (fh : call.fh = j.call.fh) (file : call.file = handled) (stores : call.stores = j.call.stores) (returned : Tasked call none)
    (none_ : early call = []) (fewer : ∀ message, call.spawned.count message + call.adrift.count message ≤
      j.call.spawned.count message + j.call.adrift.count message) :
    Followed bs c ⟨call,{j.rest with metadata := served.state, stores := call.stores}⟩ σ := by
  have found : (σ.clients c).openFiles[p.fh]? = some j.call.file := by
    rw [same.fh]
    exact mirrors.handle
  have closes : Cluster.step bs (.close c host clock) σ = some _ := Cluster.close_eq task found finished clocked
  rw [mirrors.metadata,asked,settles] at closes
  refine followed_step closes ⟨rfl,?_,rfl,mirrors.deletes,?_,?_,?_,?_,?_,?_⟩
  · rw [stores]
    exact mirrors.stores.trans mirrors.called.symm
  · intro d apart
    exact (Cluster.setClient_other _ _ apart).trans (mirrors.others d apart)
  · rw [Cluster.setClient_same,fh,file,same.fh]
    exact (get_insert ..).trans (if_pos rfl)
  · intro other apart
    rw [Cluster.setClient_same,same.fh,← fh]
    refine (get_insert ..).trans ((if_neg (Ne.symm apart)).trans ?_)
    exact mirrors.handles other (by rw [← fh]; exact apart)
  · rw [Cluster.setClient_same]
    exact mirrors.cache
  · rw [Cluster.setClient_same]
    exact returned
  · intro message
    have before := mirrors.writes message
    have now := fewer message
    rw [none_]
    simp only [List.count_nil]
    exact Nat.le_trans (by omega) before

/-- The reply of the metadata server to `Close`, or a failure without one. -/
theorem closeReply_followed (mirrors : Mirrors c j σ) {reply : Except Status Attr} {host : Host} {fate : Fate} {s : MetaState}
    (served : j.answered (.closeReply reply) host fate = some s) (stepped : j.call.closeReply reply = some call) (heard : fate ≠ .unheard) :
    Followed bs c ⟨call,{j.rest with metadata := s, stores := call.stores}⟩ σ := by
  have task := mirrors.task
  unfold Tasked at task
  simp only [answered] at served
  unfold PublishCall.closeReply at stepped
  split at stepped
  next status phase =>
    cases stepped
    rw [phase] at task
    obtain ⟨p,clock,task,same,finished,clocked,sent⟩ := task
    rw [sent,Option.bind_some] at served
    rcases replied_error served heard with rfl | ⟨⟨fault,refused⟩,rfl⟩
    · exact abort_followed mirrors task [] rfl rfl rfl rfl (returned_early _ _) (fun _ => Nat.le_refl _)
    · refine close_settles mirrors task same finished clocked rfl j.call.file ?_ rfl rfl rfl rfl (returned_early _ _) (fun _ => Nat.le_refl _)
      rw [refused,same.fh,insert_get _ _ _ mirrors.handle]
      rfl
  next attr phase =>
    cases stepped
    rw [phase] at task
    obtain ⟨p,clock,task,same,finished,clocked,sent⟩ := task
    rw [sent,Option.bind_some] at served
    obtain ⟨told,rfl⟩ := replied_ok served
    refine close_settles mirrors task same finished clocked rfl {j.call.file with generation := attr.generation} ?_ rfl rfl rfl rfl
      (returned_early _ _) (fun _ => Nat.le_refl _)
    rw [told]
    rfl
  next => cases stepped

end Stream

/-- The stream does not notice what the tasks it has spawned do. -/
theorem Tasked.aside {before after : PublishCall} {task : Option Task} (tasked : Tasked before task) (phase : after.phase = before.phase)
    (file : after.file = before.file) (fh : after.fh = before.fh) (wait : after.wait = before.wait)
    (quiet : sentClose after.trace = sentClose before.trace) : Tasked after task := by
  have carried {p : Publish} (same : Same before p) : Same after p := by
    refine ⟨same.fh.trans fh.symm,same.wait.trans wait.symm,?_,?_,?_⟩
    · rw [file]
      exact same.ino
    · rw [file]
      exact same.generation
    · rw [file]
      exact same.blockMap
  unfold Tasked at tasked ⊢
  rw [phase,file,wait,quiet]
  split at tasked
  next => exact tasked
  next => exact tasked
  next =>
    obtain ⟨p,task,same,rest⟩ := tasked
    exact ⟨p,task,carried same,rest⟩
  next =>
    obtain ⟨p,clock,task,same,rest⟩ := tasked
    exact ⟨p,clock,task,carried same,rest⟩
  next => exact tasked

theorem aside_followed (mirrors : Mirrors c j σ) (trace : List Event) (quiet : sentClose trace = sentClose j.call.trace)
    (spawned adrift : List WriteBlock) (fewer : ∀ message, spawned.count message + adrift.count message ≤
      j.call.spawned.count message + j.call.adrift.count message) :
    Followed bs c ⟨{j.call with spawned := spawned, adrift := adrift, trace := trace},{j.rest with stores := j.call.stores}⟩ σ := by
  apply Simulation.Reaches.stays
  refine mirrors.stay rfl rfl rfl (mirrors.task.aside rfl rfl rfl rfl quiet) ?_
  intro message
  have now := fewer message
  have same : early {j.call with spawned := spawned, adrift := adrift, trace := trace} = early j.call := rfl
  rw [same]
  exact Nat.add_le_add_right now _

theorem count_erased {items : List WriteBlock} {k : Nat} {message : WriteBlock} (found : items[k]? = some message) (other : WriteBlock) :
    (items.eraseIdx k).count other + (if message = other then 1 else 0) = items.count other := by
  obtain ⟨small,here⟩ := List.getElem?_eq_some_iff.mp found
  have moved := (List.getElem_cons_eraseIdx_perm small).count_eq other
  rw [here,List.count_cons] at moved
  rw [← moved]
  simp only [beq_iff_eq]

theorem sendSpawned_followed (mirrors : Mirrors c j σ) {k : Nat} (stepped : j.call.sendSpawned k = some call) :
    Followed bs c ⟨call,{j.rest with stores := call.stores}⟩ σ := by
  obtain ⟨message,found,rfl⟩ := Option.map_eq_some_iff.mp stepped
  refine aside_followed mirrors (.sent message.key.blockIdx message.node message.data::j.call.trace) rfl _ _ ?_
  intro other
  have erased := count_erased found other
  rw [List.count_append,List.count_singleton]
  simp only [beq_iff_eq]
  omega

theorem dropSpawned_followed (mirrors : Mirrors c j σ) {k : Nat} (stepped : j.call.dropSpawned k = some call) :
    Followed bs c ⟨call,{j.rest with stores := call.stores}⟩ σ := by
  unfold PublishCall.dropSpawned at stepped
  split at stepped
  next small =>
    cases stepped
    refine aside_followed mirrors j.call.trace rfl _ _ ?_
    intro other
    exact Nat.add_le_add_right ((List.eraseIdx_sublist _ _).count_le other) _
  next => cases stepped

theorem lose_followed (mirrors : Mirrors c j σ) {k : Nat} (stepped : j.call.lose k = some call) :
    Followed bs c ⟨call,{j.rest with stores := call.stores}⟩ σ := by
  unfold PublishCall.lose at stepped
  split at stepped
  next small =>
    cases stepped
    refine aside_followed mirrors j.call.trace rfl _ _ ?_
    intro other
    exact Nat.add_le_add_left ((List.eraseIdx_sublist _ _).count_le other) _
  next => cases stepped

/-- A request that nobody waits for arrives like a background write of the cluster. -/
theorem land_followed (mirrors : Mirrors c j σ) {k : Nat} (stepped : j.call.land k = some call) :
    Followed bs c ⟨call,{j.rest with stores := call.stores}⟩ σ := by
  obtain ⟨message,found,rfl⟩ := Option.map_eq_some_iff.mp stepped
  have there : 1 ≤ j.call.adrift.count message := List.one_le_count_iff.mpr (List.mem_of_getElem? found)
  have bound := mirrors.writes message
  have waiting : message ∈ σ.writes := List.one_le_count_iff.mp (by omega)
  have delivers : Cluster.step bs (.deliver message) σ = some _ := if_pos waiting
  refine followed_step delivers ⟨mirrors.metadata,?_,rfl,mirrors.deletes,mirrors.others,mirrors.handle,mirrors.handles,mirrors.cache,
    mirrors.task.aside rfl rfl rfl rfl rfl,?_⟩
  · funext other
    exact ite_congr rfl (fun _ => by rw [mirrors.stores,mirrors.called]) (fun _ => by rw [mirrors.stores,mirrors.called])
  · intro other
    have before := mirrors.writes other
    have erased := count_erased found other
    have same : early {j.call with adrift := j.call.adrift.eraseIdx k, stores := fun other => if other = message.node then
        ((j.call.stores message.node).writeBlock message.key message.data).2 else j.call.stores other} = early j.call := rfl
    rw [same]
    dsimp only
    rw [List.count_erase]
    simp only [beq_iff_eq]
    omega

/-- The cluster takes the steps of others as the rest of it does. -/
theorem others_followed (mirrors : Mirrors c j σ) {label : Label} (apart : label.client ≠ some c) {rest : Cluster}
    (stepped : Cluster.step bs label j.rest = some rest) : Followed bs c ⟨{j.call with stores := rest.stores},rest⟩ σ := by
  have framed : σ = j.rest.framed c (σ.clients c) σ.writes := by
    have clients : σ.clients = fun d => if d = c then σ.clients c else j.rest.clients d := by
      funext d
      split
      next here => rw [here]
      next differs => exact mirrors.others d differs
    have whole : σ = ⟨σ.metadata,σ.stores,σ.clients,σ.writes,σ.deletes⟩ := rfl
    rw [whole,mirrors.metadata,mirrors.stores,mirrors.deletes,clients]
    simp only [Cluster.framed,Cluster.setClient,if_true]
  have fewer (message : WriteBlock) : j.rest.writes.count message ≤ σ.writes.count message := by
    have bound := mirrors.writes message
    omega
  have more : σ.writes.Perm (j.rest.writes ++ σ.writes.diff j.rest.writes) :=
    (List.subperm_append_diff_self_of_count_le (fun message _ => fewer message)).symm
  obtain ⟨writes,moved,left⟩ := Cluster.step_framed apart stepped more
  rw [← framed] at moved
  have kept : rest.clients c = j.rest.clients c := client_kept stepped apart
  have there : (rest.framed c (σ.clients c) writes).clients c = σ.clients c := if_pos rfl
  refine followed_step moved ⟨rfl,rfl,rfl,rfl,?_,?_,?_,?_,?_,?_⟩
  · intro d differs
    exact if_neg differs
  · rw [there]
    exact mirrors.handle
  · intro fh other
    rw [there,kept]
    exact mirrors.handles fh other
  · rw [there,kept]
    exact mirrors.cache
  · rw [there]
    exact mirrors.task.aside rfl rfl rfl rfl rfl
  · intro message
    have before := mirrors.writes message
    have split_ := more.count_eq message
    have now := left.count_eq message
    rw [List.count_append] at split_ now
    have same : early {j.call with stores := rest.stores} = early j.call := rfl
    have held : (rest.framed c (σ.clients c) writes).writes = writes := rfl
    rw [same,held]
    dsimp only
    omega

/-- A request that nobody hears of is one to both. -/
theorem Mirrors.unanswered (mirrors : Mirrors c j σ) (host : Host) (call : MetaService.Call) :
    Mirrors c ⟨j.call,j.rest.unanswered host call⟩ (σ.unanswered host call) where
  metadata := by
    simp only [Cluster.unanswered,mirrors.metadata]
  stores := mirrors.stores
  called := mirrors.called
  deletes := by
    simp only [Cluster.unanswered,mirrors.metadata,mirrors.deletes]
  others := mirrors.others
  handle := mirrors.handle
  handles := mirrors.handles
  cache := mirrors.cache
  task := mirrors.task
  writes := mirrors.writes

/-- With the answer to a request of the call lost, the cluster gives the publish up first
and has the request executed then. -/
theorem unheard_followed {host : Host} {request : MetaService.Call} (given : Followed bs c ⟨call,{j.rest with stores := call.stores}⟩ σ)
    (silent : MetaService.fired host request j.rest.metadata = []) :
    Simulation.Reaches (Cluster.lossyStep bs) LossyLabel.losses 1 σ
      (Mirrors c ⟨call,{j.rest with metadata := MetaService.serve host request j.rest.metadata, stores := call.stores}⟩) := by
  change Simulation.Reaches _ _ (0 + 1) _ _
  refine Simulation.Reaches.trans given ?_
  intro τ mirrors
  refine @Simulation.Reaches.moves _ _ (Cluster.lossyStep bs) LossyLabel.losses τ _ _ (.unanswered host request) rfl ?_
  have executed := mirrors.unanswered host request
  simp only [Cluster.unanswered,silent,List.append_nil] at executed
  exact executed

theorem allocate_unheard (mirrors : Mirrors c j σ) {reply : Except Status (List BlockLoc)} {host : Host} {s : MetaState}
    (served : j.answered (.allocate reply) host .unheard = some s) (stepped : j.call.allocate reply = some call) :
    Simulation.Reaches (Cluster.lossyStep bs) LossyLabel.losses 1 σ (Mirrors c ⟨call,{j.rest with metadata := s, stores := call.stores}⟩) := by
  have task := mirrors.task
  unfold Tasked at task
  unfold PublishCall.allocate at stepped
  split at stepped
  next status phase =>
    cases stepped
    rw [phase] at task
    obtain rfl := Option.some.inj served
    exact @unheard_followed bs c j σ _ host (.allocateBlocks j.call.file.ino (PublishCall.newIdxs j.call.file))
      (mirrors.idle rfl task.1 (returned_early _ _)) rfl
  next => cases served
  next => cases stepped

theorem closeReply_unheard (mirrors : Mirrors c j σ) {reply : Except Status Attr} {host : Host} {s : MetaState}
    (served : j.answered (.closeReply reply) host .unheard = some s) (stepped : j.call.closeReply reply = some call) :
    Simulation.Reaches (Cluster.lossyStep bs) LossyLabel.losses 1 σ (Mirrors c ⟨call,{j.rest with metadata := s, stores := call.stores}⟩) := by
  have task := mirrors.task
  unfold Tasked at task
  unfold PublishCall.closeReply at stepped
  simp only [answered] at served
  split at stepped
  next status phase =>
    cases stepped
    rw [phase] at task
    obtain ⟨p,clock,task,_,_,_,sent⟩ := task
    rw [sent,Option.bind_some] at served
    obtain rfl := Option.some.inj served
    exact @unheard_followed bs c j σ _ host (.close (Cluster.closeReq p j.call.file.sizeHint clock))
      (abort_followed mirrors task [] rfl rfl rfl rfl (returned_early _ _) (fun _ => Nat.le_refl _)) rfl
  next attr phase =>
    rw [phase] at task
    obtain ⟨p,clock,_,_,_,_,sent⟩ := task
    rw [sent] at served
    cases served
  next => cases stepped

theorem mine_followed (mirrors : Mirrors c j σ) {act : Act} {host : Host} {fate : Fate} {s : MetaState}
    (served : j.answered act host fate = some s) (stepped : PublishCall.step act j.call = some call) :
    Simulation.Reaches (Cluster.lossyStep bs) LossyLabel.losses (PublishMove.losses (.mine act host fate)) σ
      (Mirrors c ⟨call,{j.rest with metadata := s, stores := call.stores}⟩) := by
  have cheap (followed : Followed bs c ⟨call,{j.rest with metadata := s, stores := call.stores}⟩ σ) :
      Simulation.Reaches (Cluster.lossyStep bs) LossyLabel.losses (PublishMove.losses (.mine act host fate)) σ
        (Mirrors c ⟨call,{j.rest with metadata := s, stores := call.stores}⟩) :=
    Simulation.Reaches.mono followed (Nat.zero_le _) (fun _ there => there)
  cases act with
  | allocate told =>
    rcases Classical.em (fate = .unheard) with rfl | heard
    · exact allocate_unheard mirrors served stepped
    · exact cheap (allocate_followed mirrors served stepped heard)
  | closeReply told =>
    rcases Classical.em (fate = .unheard) with rfl | heard
    · exact closeReply_unheard mirrors served stepped
    · exact cheap (closeReply_followed mirrors served stepped heard)
  | execute k => exact cheap (execute_followed mirrors served stepped)
  | close clock => exact cheap (close_followed mirrors served stepped)
  | elsewhere node store => cases served
  | listNodes reply =>
    cases served
    exact cheap (listNodes_followed mirrors stepped)
  | start =>
    cases served
    exact cheap (start_followed mirrors stepped)
  | connect k reached =>
    cases served
    exact cheap (connect_followed mirrors stepped)
  | answer k reply =>
    cases served
    exact cheap (answer_followed mirrors stepped)
  | sendSpawned k =>
    cases served
    exact cheap (sendSpawned_followed mirrors stepped)
  | dropSpawned k =>
    cases served
    exact cheap (dropSpawned_followed mirrors stepped)
  | land k =>
    cases served
    exact cheap (land_followed mirrors stepped)
  | lose k =>
    cases served
    exact cheap (lose_followed mirrors stepped)

theorem step_followed (bs : Nat) (c : ClientId) :
    Simulation.Follows (step bs c) PublishMove.losses (Cluster.lossyStep bs) LossyLabel.losses (Mirrors c) := by
  intro move j j' σ mirrors stepped
  cases move with
  | mine act host fate =>
    obtain ⟨s,served,rest⟩ := Option.bind_eq_some_iff.mp stepped
    obtain ⟨call,acted,rfl⟩ := Option.map_eq_some_iff.mp rest
    exact mine_followed mirrors served acted
  | others label =>
    cases label with
    | heard label =>
      simp only [step] at stepped
      split at stepped
      next => cases stepped
      next apart =>
        obtain ⟨rest,moved,rfl⟩ := Option.map_eq_some_iff.mp stepped
        exact others_followed mirrors apart moved
    | unanswered host call =>
      cases stepped
      exact @Simulation.Reaches.moves _ _ (Cluster.lossyStep bs) LossyLabel.losses σ _ _ (.unanswered host call) rfl
        (mirrors.unanswered host call)

/-- A call that begins where its client has nothing else to do. -/
theorem begin_mirrors {fh : Fh} {file : OpenFile} (idle : (σ.clients c).task = none) (held : (σ.clients c).openFiles[fh]? = some file)
    (wait : WaitPolicy) : Mirrors c ⟨PublishCall.begin fh wait file σ.stores,σ⟩ σ := by
  refine ⟨rfl,rfl,rfl,rfl,fun _ _ => rfl,held,fun _ _ => rfl,rfl,?_,?_⟩
  · unfold Tasked PublishCall.begin
    cases clean : file.dirty.isEmpty with
    | true => exact idle
    | false => exact ⟨idle,rfl⟩
  · intro message
    have none : early (PublishCall.begin fh wait file σ.stores) = [] := by
      apply early_none
      intro todo running idxs phase
      simp only [PublishCall.begin] at phase
      split at phase
      · cases phase
      · cases phase
    rw [none]
    exact Nat.le_refl _

end Steps

end Joint

/-- Where no answer is lost, the run is one of the cluster's own steps. -/
theorem Cluster.run_heard {bs : Nat} {labels : List LossyLabel} {σ τ : Cluster} (ran : Runs.run (lossyStep bs) labels σ = some τ)
    (none : (labels.map LossyLabel.losses).sum = 0) : ∃ heard, labels = heard.map .heard ∧ run bs heard σ = some τ := by
  induction labels generalizing σ with
  | nil => exact ⟨[],rfl,ran⟩
  | cons label rest ih =>
    obtain ⟨υ,stepped,later⟩ := Runs.run_cons ran
    rw [List.map_cons,List.sum_cons] at none
    obtain ⟨heard,rfl,followed⟩ := ih later (Nat.eq_zero_of_add_eq_zero_left none)
    cases label with
    | heard label =>
      refine ⟨label::heard,rfl,?_⟩
      have stepped : step bs label σ = some υ := stepped
      rw [run,stepped]
      exact followed
    | unanswered host call => cases Nat.eq_zero_of_add_eq_zero_right none

/-- A publish that goes request by request, with up to 16 of them under way, answers that
come late or never and other clients in between, does nothing that the cluster's own
publish cannot do, with a request that nobody hears of for every answer of the metadata
server that is lost: it leaves the same metadata, stores, handles and clients behind. -/
theorem publish_refines {bs : Nat} {c : ClientId} {σ : Cluster} {fh : Fh} {wait : WaitPolicy} {file : OpenFile} {moves : List PublishMove}
    {j : Joint} (idle : (σ.clients c).task = none) (held : (σ.clients c).openFiles[fh]? = some file)
    (ran : Runs.run (Joint.step bs c) moves ⟨PublishCall.begin fh wait file σ.stores,σ⟩ = some j) :
    ∃ labels τ, Runs.run (Cluster.lossyStep bs) labels σ = some τ ∧ Joint.Mirrors c j τ ∧
      (labels.map LossyLabel.losses).sum ≤ (moves.map PublishMove.losses).sum ∧
      ((moves.map PublishMove.losses).sum = 0 → ∃ heard, labels = heard.map .heard ∧ Cluster.run bs heard σ = some τ) := by
  obtain ⟨labels,τ,followed,mirrors,cheap⟩ := Simulation.run_followed (Joint.step_followed bs c) moves (Joint.begin_mirrors idle held wait) ran
  refine ⟨labels,τ,followed,mirrors,cheap,?_⟩
  intro none
  exact Cluster.run_heard followed (Nat.eq_zero_of_le_zero (none ▸ cheap))

/-- Client 0 creates a file and writes a byte to it. -/
def writtenFile : List Label :=
  [.call Host.still (.heartbeatNode 0 ⟨"n","a",0,0,0⟩),.create 0 Host.still ⟨ROOT,"f",0,0,0⟩ 0,.write 0 1 0 [7],.chunk 0 (fun _ => true)]

/-- It flushes the file; between the write of the block and its acknowledgement another
store restarts, and the server's answer to the `Close` does not get back. -/
def flushMoves : List PublishMove :=
  [.mine (.listNodes (.ok ())) Host.still .answered,.mine (.allocate (.ok [⟨0,"n",[]⟩])) Host.still .answered,
    .mine .start Host.still .answered,.mine (.connect 0 true) Host.still .answered,.mine (.execute 0) Host.still .answered,
    .others (.heard (.restart "m")),.mine (.answer 0 (.ok ())) Host.still .answered,.mine (.close 0) Host.still .answered,
    .mine (.closeReply (.error ⟨.unavailable,""⟩)) Host.still .unheard]

theorem publish_refines_flushed : ∃ σ file j, Cluster.run 1 writtenFile (.new 0 1 64) = some σ ∧
    Runs.run (Joint.step 1 0) flushMoves ⟨PublishCall.begin 1 .primariesOnly file σ.stores,σ⟩ = some j ∧
    (j.rest.metadata.fileAt 2).map FileRecord.generation = some 1 ∧ j.call.file.generation = 0 ∧
    ∃ labels τ, Runs.run (Cluster.lossyStep 1) labels σ = some τ ∧ Joint.Mirrors 0 j τ ∧
      (labels.map LossyLabel.losses).sum ≤ (flushMoves.map PublishMove.losses).sum := by
  have written : ∃ σ file, Cluster.run 1 writtenFile (.new 0 1 64) = some σ ∧ (σ.clients 0).task = none ∧
      (σ.clients 0).openFiles[(1 : Fh)]? = some file ∧ ∃ j,
        Runs.run (Joint.step 1 0) flushMoves ⟨PublishCall.begin 1 .primariesOnly file σ.stores,σ⟩ = some j ∧
        (j.rest.metadata.fileAt 2).map FileRecord.generation = some 1 ∧ j.call.file.generation = 0 := ⟨_,_,rfl,rfl,rfl,_,rfl,rfl,rfl⟩
  obtain ⟨σ,file,ran,idle,held,j,moved,published,behind⟩ := written
  obtain ⟨labels,τ,followed,mirrors,cheap,_⟩ := publish_refines idle held moved
  exact ⟨σ,file,j,ran,moved,published,behind,labels,τ,followed,mirrors,cheap⟩

end Dtmpfs
