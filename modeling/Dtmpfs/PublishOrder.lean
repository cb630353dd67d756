import Dtmpfs.ClusterCases
import Dtmpfs.PublishCall

/-! The order of requests within one publish. `Meta.Close` is the commit point: whatever
the outcomes and the order of the block writes, it is sent only after every awaited write
has been acknowledged, and not at all once one of them has failed. -/
namespace Dtmpfs
open OrderedMap StoreState

namespace PublishCall

/-- The placements the call knows: those of the handle and those allocated to it. -/
def placements (file : OpenFile) : List Event → Map BlockIdx BlockPlacement
  | [] => file.blockMap
  | .allocated locs::past => insertLocs (placements file past) locs
  | _::past => placements file past

/-- All nodes the call waits for have acknowledged the block. -/
structure Acknowledged (wait : WaitPolicy) (placement : BlockPlacement) (past : List Event) (idx : BlockIdx) (data : Bytes) : Prop where
  primary : .acked idx placement.primary data ∈ past
  replicas : wait = .allReplicas → ∀ node ∈ placement.replicas, .acked idx node data ∈ past

/-- When an event may happen. -/
def Allowed (file : OpenFile) (wait : WaitPolicy) (past : List Event) : Event → Prop
  | .allocated _ => past = []
  | .accepted => ∃ r, .closed r ∈ past
  | .sent idx node data => file.dirty[idx]? = some data ∧ ∃ placement, (placements file past)[idx]? = some placement ∧
      (node = placement.primary ∨ node ∈ placement.replicas ∧ .acked idx placement.primary data ∈ past)
  | .acked idx node data => .sent idx node data ∈ past
  | .failed _ => ∀ r, .closed r ∉ past
  | .closed r => (∀ (idx : BlockIdx) (data : Bytes), file.dirty[idx]? = some data →
        ∃ placement, (placements file past)[idx]? = some placement ∧ Acknowledged wait placement past idx data) ∧
      r.writtenBlockIdxs = file.dirty.keys ∧ r.newSize = file.sizeHint ∧ ∀ idx, .failed idx ∉ past

/-- Every event of the trace came when it was allowed to. -/
def Proper (file : OpenFile) (wait : WaitPolicy) : List Event → Prop
  | [] => True
  | e::past => Allowed file wait past e ∧ Proper file wait past

/-- A future on its way: the nodes before the next one have acknowledged its block. -/
structure Moving (file : OpenFile) (wait : WaitPolicy) (trace : List Event) (f : Future) : Prop where
  data : file.dirty[f.idx]? = some f.data
  acked : ∀ placement, (placements file trace)[f.idx]? = some placement → ∀ j < f.acked, ∀ node, placement.nodes[j]? = some node →
    .acked f.idx node f.data ∈ trace
  sent : f.asked.isSome = true → ∀ placement, (placements file trace)[f.idx]? = some placement →
    ∀ node, placement.nodes[f.acked]? = some node → .sent f.idx node f.data ∈ trace
  first : wait = .primariesOnly → f.acked = 0

structure Writing (file : OpenFile) (wait : WaitPolicy) (trace : List Event) (todo : List (BlockIdx × Bytes)) (running : List Future)
    (writtenIdxs : List BlockIdx) : Prop where
  idxs : writtenIdxs = file.dirty.keys
  queued : ∀ entry ∈ todo, file.dirty[entry.1]? = some entry.2
  moving : ∀ f ∈ running, Moving file wait trace f
  covered : ∀ (idx : BlockIdx) (data : Bytes), file.dirty[idx]? = some data →
    (idx,data) ∈ todo ∨ (∃ f ∈ running, f.idx = idx) ∨
      ∃ placement, (placements file trace)[idx]? = some placement ∧ Acknowledged wait placement trace idx data
  unfailed : ∀ idx, .failed idx ∉ trace
  unclosed : ∀ r, .closed r ∉ trace

def Underway (file : OpenFile) (wait : WaitPolicy) (trace : List Event) (now : OpenFile) : Phase → Prop
  | .listing | .allocating => now = file ∧ trace = []
  | .writing todo running writtenIdxs => Writing file wait trace todo running writtenIdxs
  | .closing => ∃ r, .closed r ∈ trace
  | .returned (.ok ()) => file.dirty.isEmpty = true ∨ .accepted ∈ trace
  | .returned (.error _) => True

/-- A write that a spawned task may send: to a replica, after the primary. -/
structure Spawned (file : OpenFile) (trace : List Event) (message : WriteBlock) : Prop where
  data : file.dirty[message.key.blockIdx]? = some message.data
  replica : ∃ placement, (placements file trace)[message.key.blockIdx]? = some placement ∧ message.node ∈ placement.replicas ∧
    .acked message.key.blockIdx placement.primary message.data ∈ trace

/-- What holds at every point of a call that began with the handle `file`. -/
structure Going (file : OpenFile) (wait : WaitPolicy) (σ : PublishCall) : Prop where
  policy : σ.wait = wait
  ino : σ.file.ino = file.ino
  hint : σ.file.sizeHint = file.sizeHint
  map : σ.file.blockMap = placements file σ.trace
  proper : Proper file wait σ.trace
  spawned : ∀ message ∈ σ.spawned, Spawned file σ.trace message
  underway : Underway file wait σ.trace σ.file σ.phase

section Growing

variable {file : OpenFile} {wait : WaitPolicy} {trace : List Event} {e : Event}

/-- Events other than an allocation leave the placements alone. -/
def Settled : Event → Prop
  | .allocated _ => False
  | _ => True

theorem placements_cons (settled : Settled e) : placements file (e::trace) = placements file trace := by
  cases e with
  | allocated locs => exact settled.elim
  | _ => rfl

theorem Acknowledged.cons {placement : BlockPlacement} {idx : BlockIdx} {data : Bytes}
    (done : Acknowledged wait placement trace idx data) : Acknowledged wait placement (e::trace) idx data :=
  ⟨List.mem_cons_of_mem _ done.primary,fun all node member => List.mem_cons_of_mem _ (done.replicas all node member)⟩

theorem Moving.cons {f : Future} (moving : Moving file wait trace f) (settled : Settled e) : Moving file wait (e::trace) f where
  data := moving.data
  acked placement placed j small node found := by
    rw [placements_cons settled] at placed
    exact List.mem_cons_of_mem _ (moving.acked placement placed j small node found)
  sent asked placement placed node found := by
    rw [placements_cons settled] at placed
    exact List.mem_cons_of_mem _ (moving.sent asked placement placed node found)
  first := moving.first

theorem Spawned.cons {message : WriteBlock} (mine : Spawned file trace message) (settled : Settled e) : Spawned file (e::trace) message := by
  obtain ⟨data,placement,placed,member,acked⟩ := mine
  exact ⟨data,placement,by rw [placements_cons settled]; exact placed,member,List.mem_cons_of_mem _ acked⟩

theorem Writing.cons {todo : List (BlockIdx × Bytes)} {running : List Future} {idxs : List BlockIdx}
    (writing : Writing file wait trace todo running idxs) (settled : Settled e) (harmless : ∀ idx, e ≠ .failed idx)
    (still : ∀ r, e ≠ .closed r) : Writing file wait (e::trace) todo running idxs where
  idxs := writing.idxs
  queued := writing.queued
  moving f member := (writing.moving f member).cons settled
  covered idx data dirty := by
    rcases writing.covered idx data dirty with waiting | moving | ⟨placement,placed,done⟩
    · exact .inl waiting
    · exact .inr (.inl moving)
    · exact .inr (.inr ⟨placement,by rw [placements_cons settled]; exact placed,done.cons⟩)
  unfailed idx member := by
    rcases List.mem_cons.mp member with same | old
    · exact harmless idx same.symm
    · exact writing.unfailed idx old
  unclosed r member := by
    rcases List.mem_cons.mp member with same | old
    · exact still r same.symm
    · exact writing.unclosed r old

end Growing

section Steps

variable {file : OpenFile} {wait : WaitPolicy} {σ τ : PublishCall}

theorem begin_going (fh : Fh) (wait : WaitPolicy) (file : OpenFile) (stores : NodeId → StoreState) : Going file wait (begin fh wait file stores) := by
  refine ⟨rfl,rfl,rfl,rfl,trivial,nofun,?_⟩
  simp only [begin]
  split
  next clean => exact .inl clean
  next => exact ⟨rfl,rfl⟩

/-- When the dirty blocks are taken, all of them are still to be written. -/
theorem take_writing (dirty : σ.file.dirty = file.dirty) (quiet : ∀ e ∈ σ.trace, ∃ locs, e = .allocated locs) :
    Underway file wait σ.take.trace σ.take.file σ.take.phase := by
  simp only [take,Underway,dirty]
  refine ⟨rfl,?_,nofun,?_,?_,?_⟩
  · intro entry member
    exact Std.ExtTreeMap.mem_toList_iff_getElem?_eq_some.mp member
  · intro idx data found
    exact .inl (Std.ExtTreeMap.mem_toList_iff_getElem?_eq_some.mpr found)
  · intro idx member
    obtain ⟨_,same⟩ := quiet _ member
    cases same
  · intro r member
    obtain ⟨_,same⟩ := quiet _ member
    cases same

theorem error_going (going : Going file wait σ) (e : DtmpfsError) : Going file wait (σ.return_ (.error e)) :=
  ⟨going.policy,going.ino,going.hint,going.map,going.proper,going.spawned,trivial⟩

theorem listNodes_going (going : Going file wait σ) {reply : Except Status Unit} (stepped : σ.listNodes reply = some τ) : Going file wait τ := by
  unfold listNodes at stepped
  have underway := going.underway
  split at stepped
  next =>
    cases stepped
    exact error_going going _
  next phase =>
    rw [phase] at underway
    obtain ⟨same,none⟩ := underway
    cases stepped
    split
    next =>
      refine ⟨going.policy,going.ino,going.hint,going.map,going.proper,going.spawned,?_⟩
      exact take_writing (by rw [same]) (by rw [none]; nofun)
    next =>
      refine ⟨going.policy,going.ino,going.hint,going.map,going.proper,going.spawned,?_⟩
      exact ⟨same,none⟩
  next => cases stepped

theorem allocate_going (going : Going file wait σ) {reply : Except Status (List BlockLoc)} (stepped : σ.allocate reply = some τ) :
    Going file wait τ := by
  unfold allocate at stepped
  have underway := going.underway
  split at stepped
  next =>
    cases stepped
    exact error_going going _
  next locs phase =>
    rw [phase] at underway
    obtain ⟨same,none⟩ := underway
    cases stepped
    have map := going.map
    rw [none] at map
    refine ⟨going.policy,going.ino,going.hint,?_,?_,?_,?_⟩
    · simp only [take,none,placements,map]
    · simp only [take,none]
      exact ⟨rfl,trivial⟩
    · intro message member
      obtain ⟨_,_,_,_,acked⟩ := going.spawned message member
      rw [none] at acked
      cases acked
    · refine take_writing (by rw [same]) ?_
      rw [none]
      intro e member
      exact ⟨locs,List.mem_singleton.mp member⟩
  next => cases stepped

/-- The call goes on with an allowed event and a stream in order. -/
theorem Going.write (going : Going file wait σ) {e : Event} (settled : Settled e) (allowed : Allowed file wait σ.trace e)
    {todo : List (BlockIdx × Bytes)} {running : List Future} {idxs : List BlockIdx} {spawned adrift : List WriteBlock}
    {stores : NodeId → StoreState} (tasks : ∀ message ∈ spawned, Spawned file (e::σ.trace) message)
    (writing : Writing file wait (e::σ.trace) todo running idxs) :
    Going file wait {σ with phase := .writing todo running idxs, spawned := spawned, adrift := adrift, stores := stores, trace := e::σ.trace} :=
  ⟨going.policy,going.ino,going.hint,by rw [placements_cons settled]; exact going.map,⟨allowed,going.proper⟩,tasks,writing⟩

theorem start_going (going : Going file wait σ) (stepped : σ.start = some τ) : Going file wait τ := by
  unfold start at stepped
  have underway := going.underway
  split at stepped
  next idx data todo running idxs phase =>
    rw [phase] at underway
    split at stepped
    next =>
      cases stepped
      refine ⟨going.policy,going.ino,going.hint,going.map,going.proper,going.spawned,?_⟩
      have dirty : file.dirty[idx]? = some data := underway.queued (idx,data) (List.mem_cons_self ..)
      refine ⟨underway.idxs,fun entry member => underway.queued entry (List.mem_cons_of_mem _ member),?_,?_,underway.unfailed,
        underway.unclosed⟩
      · intro f member
        rcases List.mem_append.mp member with old | new
        · exact underway.moving f old
        · rw [List.mem_singleton.mp new]
          exact ⟨dirty,fun _ _ j small => absurd small (Nat.not_lt_zero j),nofun,fun _ => rfl⟩
      · intro other block found
        rcases underway.covered other block found with waiting | ⟨f,member,mine⟩ | done
        · rcases List.mem_cons.mp waiting with same | later
          · cases same
            exact .inr (.inl ⟨_,List.mem_append_right _ (List.mem_singleton_self _),rfl⟩)
          · exact .inl later
        · exact .inr (.inl ⟨f,List.mem_append_left _ member,mine⟩)
        · exact .inr (.inr done)
    next => cases stepped
  next => cases stepped

theorem fail_going (going : Going file wait σ) {todo : List (BlockIdx × Bytes)} {running : List Future} {idxs : List BlockIdx}
    (writing : Writing file wait σ.trace todo running idxs) (f : Future) (e : DtmpfsError) : Going file wait (σ.fail running f e) :=
  ⟨going.policy,going.ino,going.hint,going.map,⟨writing.unclosed,going.proper⟩,fun message member => (going.spawned message member).cons trivial,
    trivial⟩

theorem Writing.set {trace : List Event} {todo : List (BlockIdx × Bytes)} {running : List Future} {idxs : List BlockIdx}
    (writing : Writing file wait trace todo running idxs) {k : Nat} {f g : Future} (found : running[k]? = some f) (same : g.idx = f.idx)
    (moving : Moving file wait trace g) : Writing file wait trace todo (running.set k g) idxs := by
  refine ⟨writing.idxs,writing.queued,?_,?_,writing.unfailed,writing.unclosed⟩
  · intro h member
    rcases List.mem_or_eq_of_mem_set member with old | new
    · exact writing.moving h old
    · rw [new]
      exact moving
  · intro idx data dirty
    rcases writing.covered idx data dirty with waiting | ⟨h,member,mine⟩ | done
    · exact .inl waiting
    · obtain ⟨j,here⟩ := List.mem_iff_getElem?.mp member
      by_cases place : k = j
      · subst place
        rw [found] at here
        cases here
        have small : k < running.length := (List.getElem?_eq_some_iff.mp found).1
        refine .inr (.inl ⟨g,?_,same.trans mine⟩)
        exact List.mem_iff_getElem?.mpr ⟨k,by rw [List.getElem?_set_self small]⟩
      · refine .inr (.inl ⟨h,?_,mine⟩)
        exact List.mem_iff_getElem?.mpr ⟨j,by rw [List.getElem?_set_ne place,here]⟩
    · exact .inr (.inr done)

theorem Writing.erase {trace : List Event} {todo : List (BlockIdx × Bytes)} {running : List Future} {idxs : List BlockIdx}
    (writing : Writing file wait trace todo running idxs) {k : Nat} {f : Future} (found : running[k]? = some f)
    {placement : BlockPlacement} (placed : (placements file trace)[f.idx]? = some placement)
    (done : Acknowledged wait placement trace f.idx f.data) : Writing file wait trace todo (running.eraseIdx k) idxs := by
  refine ⟨writing.idxs,writing.queued,fun h member => writing.moving h (List.mem_of_mem_eraseIdx member),?_,writing.unfailed,
    writing.unclosed⟩
  intro idx data dirty
  rcases writing.covered idx data dirty with waiting | ⟨h,member,mine⟩ | finished
  · exact .inl waiting
  · obtain ⟨j,here⟩ := List.mem_iff_getElem?.mp member
    by_cases place : j = k
    · subst place
      rw [found] at here
      cases here
      subst mine
      have data' := (writing.moving f member).data
      rw [dirty] at data'
      cases data'
      exact .inr (.inr ⟨placement,placed,done⟩)
    · exact .inr (.inl ⟨h,List.mem_eraseIdx_iff_getElem?.mpr ⟨j,place,here⟩,mine⟩)
  · exact .inr (.inr finished)

/-- The request to the next node may be sent. -/
theorem Moving.allowed {trace : List Event} {f : Future} (moving : Moving file wait trace f) {placement : BlockPlacement}
    (placed : (placements file trace)[f.idx]? = some placement) {node : NodeId} (next : placement.nodes[f.acked]? = some node) :
    Allowed file wait trace (.sent f.idx node f.data) := by
  refine ⟨moving.data,placement,placed,?_⟩
  cases count : f.acked with
  | zero =>
    rw [count] at next
    exact .inl (Option.some.inj next).symm
  | succ n =>
    rw [count] at next
    have primary := moving.acked placement placed 0 (by omega) placement.primary rfl
    exact .inr ⟨List.mem_of_getElem? next,primary⟩

theorem connect_going (going : Going file wait σ) {k : Nat} {reached : Bool} (stepped : σ.connect k reached = some τ) : Going file wait τ := by
  unfold connect at stepped
  have underway := going.underway
  split at stepped
  next todo running idxs phase =>
    rw [phase] at underway
    split at stepped
    next f found =>
      have moving := underway.moving f (List.mem_of_getElem? found)
      split at stepped
      next => cases stepped
      next =>
        rw [going.map] at stepped
        split at stepped
        next =>
          cases stepped
          exact fail_going going underway f _
        next placement placed =>
          split at stepped
          next => cases stepped
          next node next' =>
            split at stepped
            next =>
              cases stepped
              have later := (underway.cons (e := .sent f.idx node f.data) trivial nofun nofun)
              refine going.write (e := .sent f.idx node f.data) trivial (moving.allowed placed next')
                (fun message member => (going.spawned message member).cons trivial) ?_
              refine later.set found rfl ?_
              have grown := moving.cons (e := .sent f.idx node f.data) trivial
              refine ⟨grown.data,grown.acked,?_,grown.first⟩
              intro _ place here other there
              have still : (placements file (.sent f.idx node f.data::σ.trace))[f.idx]? = some placement := placed
              rw [still] at here
              cases here
              rw [next'] at there
              cases there
              exact List.mem_cons_self ..
            next =>
              cases stepped
              exact fail_going going underway f _
    next => cases stepped
  next => cases stepped

theorem execute_going (going : Going file wait σ) {k : Nat} (stepped : σ.execute k = some τ) : Going file wait τ := by
  unfold execute at stepped
  have underway := going.underway
  split at stepped
  next todo running idxs phase =>
    rw [phase] at underway
    split at stepped
    next f found =>
      have moving := underway.moving f (List.mem_of_getElem? found)
      split at stepped
      next message sent asked =>
        cases stepped
        refine ⟨going.policy,going.ino,going.hint,going.map,going.proper,going.spawned,?_⟩
        refine Writing.set underway found rfl ⟨moving.data,moving.acked,?_,moving.first⟩
        intro _
        exact moving.sent (by rw [sent]; rfl)
      next => cases stepped
    next => cases stepped
  next => cases stepped

/-- With the acknowledgement of the next node, every node up to it has acknowledged. -/
theorem Moving.acknowledged {trace : List Event} {f : Future} (moving : Moving file wait trace f) {placement : BlockPlacement}
    (placed : (placements file trace)[f.idx]? = some placement) {node : NodeId} (next : placement.nodes[f.acked]? = some node) (j : Nat)
    (small : j < f.acked + 1) (other : NodeId) (here : placement.nodes[j]? = some other) :
    .acked f.idx other f.data ∈ .acked f.idx node f.data::trace := by
  by_cases last : j = f.acked
  · subst last
    rw [next] at here
    cases here
    exact List.mem_cons_self ..
  · exact List.mem_cons_of_mem _ (moving.acked placement placed j (by omega) other here)

theorem answer_going (going : Going file wait σ) {k : Nat} {reply : Except Status Unit} (stepped : σ.answer k reply = some τ) :
    Going file wait τ := by
  unfold answer at stepped
  have underway := going.underway
  split at stepped
  next todo running idxs phase =>
    rw [phase] at underway
    split at stepped
    next f found =>
      have moving := underway.moving f (List.mem_of_getElem? found)
      rw [going.map] at stepped
      split at stepped
      next executed placement asked placed =>
        split at stepped
        next => cases stepped
        next node next' =>
          split at stepped
          next =>
            cases stepped
            exact fail_going going underway f _
          next =>
            split at stepped
            next =>
              have allowed : Allowed file wait σ.trace (.acked f.idx node f.data) :=
                moving.sent (by rw [asked]; rfl) placement placed node next'
              have later := underway.cons (e := .acked f.idx node f.data) trivial nofun nofun
              have everyone := moving.acknowledged placed next'
              have tasks (message : WriteBlock) (member : message ∈ σ.spawned) :=
                (going.spawned message member).cons (e := .acked f.idx node f.data) trivial
              have still : (placements file (.acked f.idx node f.data::σ.trace))[f.idx]? = some placement := placed
              dsimp only at stepped
              split at stepped
              next only =>
                cases stepped
                have policy : wait = .primariesOnly := going.policy.symm.trans only
                have primary : node = placement.primary := by
                  rw [moving.first policy] at next'
                  exact (Option.some.inj next').symm
                subst primary
                refine going.write (e := .acked f.idx placement.primary f.data) trivial allowed ?_ ?_
                · intro message member
                  rcases List.mem_append.mp member with old | new
                  · exact tasks message old
                  · obtain ⟨replica,among,rfl⟩ := List.mem_map.mp new
                    exact ⟨moving.data,placement,still,among,List.mem_cons_self ..⟩
                · refine later.erase found still ⟨List.mem_cons_self ..,?_⟩
                  intro all
                  rw [policy] at all
                  cases all
              next all =>
                have policy : wait = .allReplicas := going.policy.symm.trans all
                split at stepped
                next =>
                  cases stepped
                  refine going.write (e := .acked f.idx node f.data) trivial allowed tasks (later.set found rfl ⟨moving.data,?_,nofun,?_⟩)
                  · intro place here
                    rw [still] at here
                    cases here
                    exact everyone
                  · intro only
                    rw [policy] at only
                    cases only
                next full =>
                  cases stepped
                  refine going.write (e := .acked f.idx node f.data) trivial allowed tasks (later.erase found still ⟨?_,?_⟩)
                  · exact everyone 0 (by omega) placement.primary rfl
                  · intro _ replica member
                    obtain ⟨j,here⟩ := List.mem_iff_getElem?.mp member
                    have inside : j < placement.replicas.length := (List.getElem?_eq_some_iff.mp here).1
                    have count : placement.nodes.length = placement.replicas.length + 1 := rfl
                    exact everyone (j + 1) (by omega) replica here
            next => cases stepped
      next => cases stepped
    next => cases stepped
  next => cases stepped

theorem Underway.cons {trace : List Event} {now : OpenFile} {phase : Phase} (underway : Underway file wait trace now phase) (busy : trace ≠ [])
    {e : Event} (settled : Settled e) (harmless : ∀ idx, e ≠ .failed idx) (still : ∀ r, e ≠ .closed r) :
    Underway file wait (e::trace) now phase := by
  cases phase with
  | listing => exact absurd underway.2 busy
  | allocating => exact absurd underway.2 busy
  | writing todo running idxs => exact Writing.cons underway settled harmless still
  | closing =>
    obtain ⟨r,member⟩ := underway
    exact ⟨r,List.mem_cons_of_mem _ member⟩
  | returned result =>
    cases result with
    | error e => trivial
    | ok done => exact underway.imp_right (List.mem_cons_of_mem _)

theorem sendSpawned_going (going : Going file wait σ) {k : Nat} (stepped : σ.sendSpawned k = some τ) : Going file wait τ := by
  obtain ⟨message,found,rfl⟩ := Option.map_eq_some_iff.mp stepped
  obtain ⟨data,placement,placed,replica,acked⟩ := going.spawned message (List.mem_of_getElem? found)
  have busy : σ.trace ≠ [] := List.ne_nil_of_mem acked
  refine ⟨going.policy,going.ino,going.hint,going.map,⟨⟨data,placement,placed,.inr ⟨replica,acked⟩⟩,going.proper⟩,?_,?_⟩
  · intro other member
    exact (going.spawned other (List.mem_of_mem_eraseIdx member)).cons trivial
  · exact going.underway.cons busy trivial nofun nofun

theorem close_going (going : Going file wait σ) {clock : SystemTime} (stepped : σ.close clock = some τ) : Going file wait τ := by
  unfold close at stepped
  have underway := going.underway
  split at stepped
  next idxs phase =>
    rw [phase] at underway
    cases stepped
    have ready : ∀ (idx : BlockIdx) (data : Bytes), file.dirty[idx]? = some data →
        ∃ placement, (placements file σ.trace)[idx]? = some placement ∧ Acknowledged wait placement σ.trace idx data := by
      intro idx data dirty
      rcases underway.covered idx data dirty with waiting | ⟨f,member,_⟩ | done
      · cases waiting
      · cases member
      · exact done
    refine ⟨going.policy,going.ino,going.hint,going.map,⟨⟨ready,underway.idxs,going.hint,underway.unfailed⟩,going.proper⟩,?_,
      ⟨_,List.mem_cons_self ..⟩⟩
    intro message member
    exact (going.spawned message member).cons trivial
  next => cases stepped

theorem closeReply_going (going : Going file wait σ) {reply : Except Status Attr} (stepped : σ.closeReply reply = some τ) :
    Going file wait τ := by
  unfold closeReply at stepped
  have underway := going.underway
  split at stepped
  next =>
    cases stepped
    exact error_going going _
  next phase =>
    rw [phase] at underway
    cases stepped
    refine ⟨going.policy,going.ino,going.hint,going.map,⟨underway,going.proper⟩,?_,.inr (List.mem_cons_self ..)⟩
    intro message member
    exact (going.spawned message member).cons trivial
  next => cases stepped

theorem step_going (going : Going file wait σ) {act : Act} (stepped : step act σ = some τ) : Going file wait τ := by
  cases act with
  | listNodes reply => exact listNodes_going going stepped
  | allocate reply => exact allocate_going going stepped
  | start => exact start_going going stepped
  | connect k reached => exact connect_going going stepped
  | execute k => exact execute_going going stepped
  | answer k reply => exact answer_going going stepped
  | sendSpawned k => exact sendSpawned_going going stepped
  | close clock => exact close_going going stepped
  | closeReply reply => exact closeReply_going going stepped
  | dropSpawned k =>
    simp only [step,dropSpawned] at stepped
    split at stepped
    next =>
      cases stepped
      refine ⟨going.policy,going.ino,going.hint,going.map,going.proper,?_,going.underway⟩
      intro message member
      exact going.spawned message (List.mem_of_mem_eraseIdx member)
    next => cases stepped
  | land k =>
    obtain ⟨message,_,rfl⟩ := Option.map_eq_some_iff.mp stepped
    exact ⟨going.policy,going.ino,going.hint,going.map,going.proper,going.spawned,going.underway⟩
  | lose k =>
    simp only [step,lose] at stepped
    split at stepped
    next =>
      cases stepped
      exact ⟨going.policy,going.ino,going.hint,going.map,going.proper,going.spawned,going.underway⟩
    next => cases stepped
  | elsewhere node store =>
    cases stepped
    exact ⟨going.policy,going.ino,going.hint,going.map,going.proper,going.spawned,going.underway⟩

theorem run_going (acts : List Act) (going : Going file wait σ) (reached : run acts σ = some τ) : Going file wait τ := by
  induction acts generalizing σ with
  | nil =>
    cases reached
    exact going
  | cons act rest ih =>
    obtain ⟨next,stepped,later⟩ := Option.bind_eq_some_iff.mp reached
    exact ih (step_going going stepped) later

end Steps

section Stores

variable {file : OpenFile} {wait : WaitPolicy} {σ τ : PublishCall}

/-- The slot of block `idx` of the handle at a node. -/
def slot (file : OpenFile) (stores : NodeId → StoreState) (node : NodeId) (idx : BlockIdx) : Option Bytes :=
  (stores node).blocks[(⟨file.ino,idx,0⟩ : BlockKey)]?

/-- A write of the call, to whatever node. -/
structure Owned (file : OpenFile) (message : WriteBlock) : Prop where
  key : message.key = ⟨file.ino,message.key.blockIdx,0⟩
  data : file.dirty[message.key.blockIdx]? = some message.data

/-- What acknowledged writes have left at the stores. -/
structure Stored (file : OpenFile) (σ : PublishCall) : Prop where
  acked : ∀ idx node data, .acked idx node data ∈ σ.trace → file.dirty[idx]? = some data ∧ slot file σ.stores node idx = some data
  executed : ∀ todo running idxs, σ.phase = .writing todo running idxs → ∀ f ∈ running, ∀ size, f.asked = some (some (.ok size)) →
    ∀ message, σ.request f = some message → slot file σ.stores message.node f.idx = some f.data
  spawned : ∀ message ∈ σ.spawned, Owned file message
  adrift : ∀ message ∈ σ.adrift, Owned file message

/-- Others write none of the blocks of the call. -/
def Undisturbed (file : OpenFile) : List Act → PublishCall → Prop
  | [],_ => True
  | act::rest,σ =>
    (match act with
      | .elsewhere node store => ∀ (idx : BlockIdx) (data : Bytes), file.dirty[idx]? = some data →
          store.blocks[(⟨file.ino,idx,0⟩ : BlockKey)]? = slot file σ.stores node idx
      | _ => True) ∧ ∀ τ, step act σ = some τ → Undisturbed file rest τ

theorem undisturbed_alone (acts : List Act) (alone : ∀ act ∈ acts, ∀ node store, act ≠ .elsewhere node store) (σ : PublishCall) :
    Undisturbed file acts σ := by
  induction acts generalizing σ with
  | nil => trivial
  | cons act rest ih =>
    refine ⟨?_,fun τ _ => ih (fun next member => alone next (List.mem_cons_of_mem _ member)) τ⟩
    split
    next node store => exact absurd rfl (alone _ (List.mem_cons_self ..) node store)
    next => trivial

/-- Executing a write of the call spoils no block it has written. -/
theorem slot_execute {message : WriteBlock} (owned : Owned file message) {stores : NodeId → StoreState} {node : NodeId} {idx : BlockIdx}
    {data : Bytes} (dirty : file.dirty[idx]? = some data) (before : slot file stores node idx = some data) :
    slot file (fun other => if other = message.node then ((stores message.node).writeBlock message.key message.data).2 else stores other) node idx =
      some data := by
  unfold slot at before ⊢
  dsimp only
  split
  next same =>
    subst same
    rcases writeBlock_cases message.key message.data (stores message.node) with ⟨_,refused⟩ | written
    · rw [refused]
      exact before
    · rw [written,insertBlock_get]
      split
      next hit =>
        rw [owned.key] at hit
        cases hit
        rw [← dirty,owned.data]
      next => exact before
  next => exact before

theorem slot_executed {message : WriteBlock} (owned : Owned file message) {stores : NodeId → StoreState} {size : Nat}
    (done : ((stores message.node).writeBlock message.key message.data).1 = .ok size) :
    slot file (fun other => if other = message.node then ((stores message.node).writeBlock message.key message.data).2 else stores other)
      message.node message.key.blockIdx = some message.data := by
  unfold slot
  dsimp only
  rw [if_pos rfl]
  rcases writeBlock_cases message.key message.data (stores message.node) with ⟨_,refused⟩ | written
  · rw [refused] at done
    cases done
  · rw [written,insertBlock_get,if_pos owned.key]

theorem request_owned (going : Going file wait σ) {f : Future} (moving : Moving file wait σ.trace f) {message : WriteBlock}
    (asked : σ.request f = some message) : Owned file message ∧ message.key.blockIdx = f.idx ∧ message.data = f.data := by
  obtain ⟨node,_,rfl⟩ := Option.map_eq_some_iff.mp asked
  refine ⟨⟨?_,moving.data⟩,rfl,rfl⟩
  simp only [going.ino]

theorem acked_cons {e : Event} {trace : List Event} (other : ∀ idx node data, Event.acked idx node data ≠ e) (idx : BlockIdx) (node : NodeId)
    (data : Bytes) (member : Event.acked idx node data ∈ e::trace) : Event.acked idx node data ∈ trace :=
  (List.mem_cons.mp member).resolve_left (other idx node data)

theorem Stored.quiet (stored : Stored file σ) (stores : τ.stores = σ.stores)
    (trace : ∀ idx node data, .acked idx node data ∈ τ.trace → .acked idx node data ∈ σ.trace)
    (executed : ∀ todo running idxs, τ.phase = .writing todo running idxs → ∀ f ∈ running, ∀ size, f.asked = some (some (.ok size)) →
      ∀ message, τ.request f = some message → slot file τ.stores message.node f.idx = some f.data)
    (spawned : ∀ message ∈ τ.spawned, Owned file message) (adrift : ∀ message ∈ τ.adrift, Owned file message) : Stored file τ := by
  refine ⟨?_,executed,spawned,adrift⟩
  intro idx node data member
  rw [stores]
  exact stored.acked idx node data (trace idx node data member)

theorem begin_stored (fh : Fh) (wait : WaitPolicy) (file : OpenFile) (stores : NodeId → StoreState) : Stored file (begin fh wait file stores) := by
  refine ⟨nofun,?_,nofun,nofun⟩
  intro todo running idxs phase
  simp only [begin] at phase
  split at phase <;> cases phase

theorem unanswered_owned (going : Going file wait σ) {todo : List (BlockIdx × Bytes)} {running : List Future} {idxs : List BlockIdx}
    (writing : Writing file wait σ.trace todo running idxs) : ∀ message ∈ σ.unanswered running, Owned file message := by
  intro message member
  obtain ⟨f,kept,asked⟩ := List.mem_filterMap.mp member
  exact (request_owned going (writing.moving f (List.mem_of_mem_filter kept)) asked).1

theorem fail_stored (going : Going file wait σ) (stored : Stored file σ) {todo : List (BlockIdx × Bytes)} {running : List Future}
    {idxs : List BlockIdx} (writing : Writing file wait σ.trace todo running idxs) (f : Future) (e : DtmpfsError) :
    Stored file (σ.fail running f e) := by
  refine stored.quiet rfl (acked_cons nofun) nofun stored.spawned ?_
  intro message member
  rcases List.mem_append.mp member with old | new
  · exact stored.adrift message old
  · exact unanswered_owned going writing message new

theorem Stored.execute (stored : Stored file σ) {message : WriteBlock} (owned : Owned file message)
    {phase : Phase} {adrift : List WriteBlock} (rest : ∀ other ∈ adrift, Owned file other)
    (executed : ∀ todo running idxs, phase = .writing todo running idxs → ∀ f ∈ running, ∀ size, f.asked = some (some (.ok size)) →
      ∀ sent, σ.request f = some sent → file.dirty[f.idx]? = some f.data ∧ (slot file σ.stores sent.node f.idx = some f.data ∨
        (sent = message ∧ ∃ size, ((σ.stores message.node).writeBlock message.key message.data).1 = .ok size))) :
    Stored file {σ with
      stores := fun other => if other = message.node then ((σ.stores message.node).writeBlock message.key message.data).2 else σ.stores other
      phase := phase
      adrift := adrift} := by
  refine ⟨?_,?_,stored.spawned,rest⟩
  · intro idx node data member
    obtain ⟨dirty,before⟩ := stored.acked idx node data member
    exact ⟨dirty,slot_execute owned dirty before⟩
  · intro todo running idxs here f member size asked sent wanted
    obtain ⟨dirty,old | ⟨rfl,_,done⟩⟩ := executed todo running idxs here f member size asked sent wanted
    · exact slot_execute owned dirty old
    · have now := slot_executed owned done
      obtain ⟨node,_,same⟩ := Option.map_eq_some_iff.mp wanted
      have block : sent.key.blockIdx = f.idx := congrArg (fun m : WriteBlock => m.key.blockIdx) same.symm
      have bytes : sent.data = f.data := congrArg (fun m : WriteBlock => m.data) same.symm
      rw [← block,← bytes]
      exact now

theorem take_stored (stored : Stored file σ) : Stored file σ.take := by
  refine stored.quiet rfl (fun _ _ _ member => member) ?_ stored.spawned stored.adrift
  intro todo running idxs phase f member
  cases phase
  cases member

theorem return_stored (stored : Stored file σ) (result : Except DtmpfsError Unit) : Stored file (σ.return_ result) :=
  stored.quiet rfl (fun _ _ _ member => member) nofun stored.spawned stored.adrift

theorem listNodes_stored (stored : Stored file σ) {reply : Except Status Unit} (stepped : σ.listNodes reply = some τ) : Stored file τ := by
  unfold listNodes at stepped
  split at stepped
  next =>
    cases stepped
    exact return_stored stored _
  next =>
    cases stepped
    split
    next => exact take_stored stored
    next => exact stored.quiet rfl (fun _ _ _ member => member) nofun stored.spawned stored.adrift
  next => cases stepped

theorem allocate_stored (stored : Stored file σ) {reply : Except Status (List BlockLoc)} (stepped : σ.allocate reply = some τ) :
    Stored file τ := by
  unfold allocate at stepped
  split at stepped
  next =>
    cases stepped
    exact return_stored stored _
  next =>
    cases stepped
    refine stored.quiet rfl (acked_cons nofun) ?_ stored.spawned stored.adrift
    intro todo running idxs phase f member
    cases phase
    cases member
  next => cases stepped

theorem start_stored (stored : Stored file σ) (stepped : σ.start = some τ) : Stored file τ := by
  unfold start at stepped
  split at stepped
  next idx data todo running idxs phase =>
    split at stepped
    next =>
      cases stepped
      refine stored.quiet rfl (fun _ _ _ member => member) ?_ stored.spawned stored.adrift
      intro todo' running' idxs' here f member size asked message wanted
      cases here
      rcases List.mem_append.mp member with old | new
      · exact stored.executed _ running idxs phase f old size asked message wanted
      · rw [List.mem_singleton.mp new] at asked
        cases asked
    next => cases stepped
  next => cases stepped

theorem connect_stored (going : Going file wait σ) (stored : Stored file σ) {k : Nat} {reached : Bool}
    (stepped : σ.connect k reached = some τ) : Stored file τ := by
  unfold connect at stepped
  have underway := going.underway
  split at stepped
  next todo running idxs phase =>
    rw [phase] at underway
    split at stepped
    next f found =>
      split at stepped
      next => cases stepped
      next =>
        split at stepped
        next =>
          cases stepped
          exact fail_stored going stored underway f _
        next =>
          split at stepped
          next => cases stepped
          next node _ =>
            split at stepped
            next =>
              cases stepped
              refine stored.quiet rfl (acked_cons nofun) ?_ stored.spawned stored.adrift
              intro todo' running' idxs' here g member size asked message wanted
              cases here
              rcases List.mem_or_eq_of_mem_set member with old | new
              · exact stored.executed _ running idxs phase g old size asked message wanted
              · rw [new] at asked
                cases asked
            next =>
              cases stepped
              exact fail_stored going stored underway f _
    next => cases stepped
  next => cases stepped

theorem execute_stored (going : Going file wait σ) (stored : Stored file σ) {k : Nat} (stepped : σ.execute k = some τ) : Stored file τ := by
  unfold execute at stepped
  have underway := going.underway
  split at stepped
  next todo running idxs phase =>
    rw [phase] at underway
    split at stepped
    next f found =>
      have moving := underway.moving f (List.mem_of_getElem? found)
      split at stepped
      next message _ asked =>
        cases stepped
        obtain ⟨owned,_,_⟩ := request_owned going moving asked
        refine stored.execute owned stored.adrift ?_
        intro todo' running' idxs' here g member size answered sent wanted
        cases here
        rcases List.mem_or_eq_of_mem_set member with old | new
        · exact ⟨(underway.moving g old).data,.inl (stored.executed _ running idxs phase g old size answered sent wanted)⟩
        · subst new
          refine ⟨moving.data,.inr ⟨?_,size,?_⟩⟩
          · exact Option.some.inj (wanted.symm.trans asked)
          · exact Option.some.inj (Option.some.inj answered)
      next => cases stepped
    next => cases stepped
  next => cases stepped

theorem answer_stored (going : Going file wait σ) (stored : Stored file σ) {k : Nat} {reply : Except Status Unit}
    (stepped : σ.answer k reply = some τ) : Stored file τ := by
  unfold answer at stepped
  have underway := going.underway
  split at stepped
  next todo running idxs phase =>
    rw [phase] at underway
    split at stepped
    next f found =>
      have moving := underway.moving f (List.mem_of_getElem? found)
      split at stepped
      next executed placement asked placed =>
        split at stepped
        next => cases stepped
        next node next' =>
          split at stepped
          next =>
            cases stepped
            exact fail_stored going stored underway f _
          next =>
            split at stepped
            next size =>
              have wanted : σ.request f = some ⟨node,⟨σ.file.ino,f.idx,0⟩,f.data⟩ := by
                simp only [request,placed,Option.bind_some,next',Option.map_some]
              have here := stored.executed todo running idxs phase f (List.mem_of_getElem? found) size asked _ wanted
              have acked (idx : BlockIdx) (other : NodeId) (data : Bytes)
                  (member : .acked idx other data ∈ Event.acked f.idx node f.data::σ.trace) :
                  file.dirty[idx]? = some data ∧ slot file σ.stores other idx = some data := by
                rcases List.mem_cons.mp member with same | old
                · cases same
                  exact ⟨moving.data,here⟩
                · exact stored.acked idx other data old
              have others (running' : List Future) (shrunk : ∀ g ∈ running', g ∈ running ∨ g.asked = none) (now : PublishCall)
                  (same : now.file = σ.file) (unmoved : now.stores = σ.stores) : ∀ g ∈ running', ∀ size, g.asked = some (some (.ok size)) →
                    ∀ message, now.request g = some message → slot file now.stores message.node g.idx = some g.data := by
                intro g member size answered message sent
                rw [unmoved]
                rcases shrunk g member with old | none
                · refine stored.executed todo running idxs phase g old size answered message ?_
                  simpa only [request,same] using sent
                · rw [none] at answered
                  cases answered
              dsimp only at stepped
              split at stepped
              next =>
                cases stepped
                refine ⟨acked,?_,?_,stored.adrift⟩
                · intro todo' running' idxs' phase'
                  cases phase'
                  exact others _ (fun g member => .inl (List.mem_of_mem_eraseIdx member)) _ rfl rfl
                · intro message member
                  rcases List.mem_append.mp member with old | new
                  · exact stored.spawned message old
                  · obtain ⟨replica,_,rfl⟩ := List.mem_map.mp new
                    exact ⟨by simp only [going.ino],moving.data⟩
              next =>
                split at stepped
                next =>
                  cases stepped
                  refine ⟨acked,?_,stored.spawned,stored.adrift⟩
                  intro todo' running' idxs' phase'
                  cases phase'
                  refine others _ ?_ _ rfl rfl
                  intro g member
                  rcases List.mem_or_eq_of_mem_set member with old | new
                  · exact .inl old
                  · exact .inr (by rw [new])
                next =>
                  cases stepped
                  refine ⟨acked,?_,stored.spawned,stored.adrift⟩
                  intro todo' running' idxs' phase'
                  cases phase'
                  exact others _ (fun g member => .inl (List.mem_of_mem_eraseIdx member)) _ rfl rfl
            next => cases stepped
      next => cases stepped
    next => cases stepped
  next => cases stepped

theorem sendSpawned_stored (stored : Stored file σ) {k : Nat} (stepped : σ.sendSpawned k = some τ) : Stored file τ := by
  obtain ⟨message,found,rfl⟩ := Option.map_eq_some_iff.mp stepped
  refine stored.quiet rfl (acked_cons nofun) stored.executed ?_ ?_
  · intro other member
    exact stored.spawned other (List.mem_of_mem_eraseIdx member)
  · intro other member
    rcases List.mem_append.mp member with old | new
    · exact stored.adrift other old
    · rw [List.mem_singleton.mp new]
      exact stored.spawned message (List.mem_of_getElem? found)

theorem dropSpawned_stored (stored : Stored file σ) {k : Nat} (stepped : σ.dropSpawned k = some τ) : Stored file τ := by
  unfold dropSpawned at stepped
  split at stepped
  next =>
    cases stepped
    refine stored.quiet rfl (fun _ _ _ member => member) stored.executed ?_ stored.adrift
    intro other member
    exact stored.spawned other (List.mem_of_mem_eraseIdx member)
  next => cases stepped

theorem land_stored (going : Going file wait σ) (stored : Stored file σ) {k : Nat} (stepped : σ.land k = some τ) : Stored file τ := by
  obtain ⟨message,found,rfl⟩ := Option.map_eq_some_iff.mp stepped
  refine stored.execute (stored.adrift message (List.mem_of_getElem? found))
    (fun other member => stored.adrift other (List.mem_of_mem_eraseIdx member)) ?_
  intro todo running idxs phase f member size answered sent wanted
  have underway := going.underway
  rw [phase] at underway
  exact ⟨(underway.moving f member).data,.inl (stored.executed todo running idxs phase f member size answered sent wanted)⟩

theorem lose_stored (stored : Stored file σ) {k : Nat} (stepped : σ.lose k = some τ) : Stored file τ := by
  unfold lose at stepped
  split at stepped
  next =>
    cases stepped
    refine stored.quiet rfl (fun _ _ _ member => member) stored.executed stored.spawned ?_
    intro other member
    exact stored.adrift other (List.mem_of_mem_eraseIdx member)
  next => cases stepped

theorem close_stored (stored : Stored file σ) {clock : SystemTime} (stepped : σ.close clock = some τ) : Stored file τ := by
  unfold close at stepped
  split at stepped
  next =>
    cases stepped
    exact stored.quiet rfl (acked_cons nofun) nofun stored.spawned stored.adrift
  next => cases stepped

theorem closeReply_stored (stored : Stored file σ) {reply : Except Status Attr} (stepped : σ.closeReply reply = some τ) : Stored file τ := by
  unfold closeReply at stepped
  split at stepped
  next =>
    cases stepped
    exact return_stored stored _
  next =>
    cases stepped
    exact stored.quiet rfl (acked_cons nofun) nofun stored.spawned stored.adrift
  next => cases stepped

/-- Whatever others write, it is not to the blocks the call has to write. -/
theorem elsewhere_stored (going : Going file wait σ) (stored : Stored file σ) (node : NodeId) (store : StoreState)
    (quiet : ∀ (idx : BlockIdx) (data : Bytes), file.dirty[idx]? = some data →
      store.blocks[(⟨file.ino,idx,0⟩ : BlockKey)]? = slot file σ.stores node idx) :
    Stored file {σ with stores := fun n => if n = node then store else σ.stores n} := by
  have untouched (other : NodeId) (idx : BlockIdx) (data : Bytes) (dirty : file.dirty[idx]? = some data)
      (before : slot file σ.stores other idx = some data) :
      slot file (fun n => if n = node then store else σ.stores n) other idx = some data := by
    unfold slot
    dsimp only
    split
    next same =>
      subst same
      rw [quiet idx data dirty]
      exact before
    next => exact before
  refine ⟨?_,?_,stored.spawned,stored.adrift⟩
  · intro idx other data member
    obtain ⟨dirty,before⟩ := stored.acked idx other data member
    exact ⟨dirty,untouched other idx data dirty before⟩
  · intro todo running idxs phase f member size answered message wanted
    have underway := going.underway
    rw [phase] at underway
    exact untouched message.node f.idx f.data (underway.moving f member).data
      (stored.executed todo running idxs phase f member size answered message wanted)

theorem step_stored (going : Going file wait σ) (stored : Stored file σ) {act : Act} (stepped : step act σ = some τ)
    (quiet : ∀ node store, act = .elsewhere node store → ∀ (idx : BlockIdx) (data : Bytes), file.dirty[idx]? = some data →
      store.blocks[(⟨file.ino,idx,0⟩ : BlockKey)]? = slot file σ.stores node idx) : Stored file τ := by
  cases act with
  | listNodes reply => exact listNodes_stored stored stepped
  | allocate reply => exact allocate_stored stored stepped
  | start => exact start_stored stored stepped
  | connect k reached => exact connect_stored going stored stepped
  | execute k => exact execute_stored going stored stepped
  | answer k reply => exact answer_stored going stored stepped
  | sendSpawned k => exact sendSpawned_stored stored stepped
  | dropSpawned k => exact dropSpawned_stored stored stepped
  | land k => exact land_stored going stored stepped
  | lose k => exact lose_stored stored stepped
  | close clock => exact close_stored stored stepped
  | closeReply reply => exact closeReply_stored stored stepped
  | elsewhere node store =>
    cases stepped
    exact elsewhere_stored going stored node store (quiet node store rfl)

theorem run_stored (acts : List Act) (going : Going file wait σ) (stored : Stored file σ) (quiet : Undisturbed file acts σ)
    (reached : run acts σ = some τ) : Stored file τ := by
  induction acts generalizing σ with
  | nil =>
    cases reached
    exact stored
  | cons act rest ih =>
    obtain ⟨next,stepped,later⟩ := Option.bind_eq_some_iff.mp reached
    refine ih (step_going going stepped) (step_stored going stored stepped ?_) (quiet.2 next stepped) later
    intro node store same
    subst same
    exact quiet.1

end Stores

section Commit

variable {file : OpenFile} {wait : WaitPolicy} {σ : PublishCall}

/-- Once there is an event, the placements are known. -/
theorem placements_suffix {past trace : List Event} (proper : Proper file wait trace) (suffix : past <:+ trace) (busy : past ≠ []) :
    placements file trace = placements file past := by
  induction trace with
  | nil =>
    rw [List.suffix_nil.mp suffix]
  | cons e rest ih =>
    rcases List.suffix_cons_iff.mp suffix with same | shorter
    · rw [same]
    · have settled : Settled e := by
        cases e with
        | allocated locs =>
          have none : rest = [] := proper.1
          rw [none] at shorter
          exact absurd (List.suffix_nil.mp shorter) busy
        | _ => trivial
      rw [placements_cons settled]
      exact ih proper.2 shorter

theorem Proper.allowed {trace : List Event} (proper : Proper file wait trace) {e : Event} (member : e ∈ trace) :
    ∃ past, past <:+ trace ∧ Allowed file wait past e := by
  induction trace with
  | nil => cases member
  | cons first rest ih =>
    rcases List.mem_cons.mp member with rfl | later
    · exact ⟨rest,List.suffix_cons _ _,proper.1⟩
    · obtain ⟨past,suffix,allowed⟩ := ih proper.2 later
      exact ⟨past,suffix.trans (List.suffix_cons _ _),allowed⟩

/-- At a `Close` every dirty block has been acknowledged. -/
theorem Proper.committed {trace : List Event} (proper : Proper file wait trace) {r : CloseReq} (closed : .closed r ∈ trace) {idx : BlockIdx}
    {data : Bytes} (dirty : file.dirty[idx]? = some data) :
    ∃ placement, (placements file trace)[idx]? = some placement ∧ Acknowledged wait placement trace idx data := by
  obtain ⟨past,suffix,done,_⟩ := proper.allowed closed
  obtain ⟨placement,placed,acked⟩ := done idx data dirty
  have busy : past ≠ [] := List.ne_nil_of_mem acked.primary
  refine ⟨placement,by rw [placements_suffix proper suffix busy,placed],suffix.mem acked.primary,?_⟩
  intro all node member
  exact suffix.mem (acked.replicas all node member)

theorem Proper.unfailed {trace : List Event} (proper : Proper file wait trace) {r : CloseReq} (closed : .closed r ∈ trace) (idx : BlockIdx) :
    .failed idx ∉ trace := by
  induction trace with
  | nil => cases closed
  | cons e rest ih =>
    intro failed
    rcases List.mem_cons.mp closed with rfl | before
    · rcases List.mem_cons.mp failed with same | old
      · cases same
      · exact proper.1.2.2.2 idx old
    · rcases List.mem_cons.mp failed with rfl | old
      · exact proper.1 r before
      · exact ih proper.2 before old

theorem Going.published (going : Going file wait σ) (ok : σ.phase = .returned (.ok ())) (dirty : file.dirty.isEmpty = false) :
    ∃ r, .closed r ∈ σ.trace := by
  have underway := going.underway
  rw [ok] at underway
  rcases underway with clean | accepted
  · rw [dirty] at clean
    cases clean
  · obtain ⟨past,suffix,r,member⟩ := going.proper.allowed accepted
    exact ⟨r,suffix.mem member⟩

end Commit

/-- For every handle, wait policy, outcome of the requests and order of the events: each
event comes when it is allowed to, a failed write and a `Close` exclude each other, and
when the call returns `Ok` with nobody else writing the blocks, each primary holds the
bytes that were dirty, whatever the order was. -/
theorem publish_ordered (fh : Fh) (wait : WaitPolicy) (file : OpenFile) (stores : NodeId → StoreState) (acts : List Act) (σ : PublishCall)
    (reached : run acts (begin fh wait file stores) = some σ) :
    Proper file wait σ.trace ∧ (∀ idx r, .failed idx ∈ σ.trace → .closed r ∉ σ.trace) ∧
    (Undisturbed file acts (begin fh wait file stores) → σ.phase = .returned (.ok ()) →
      ∀ (idx : BlockIdx) (data : Bytes), file.dirty[idx]? = some data →
        ∃ placement, (placements file σ.trace)[idx]? = some placement ∧ slot file σ.stores placement.primary idx = some data) := by
  have going := run_going acts (begin_going fh wait file stores) reached
  refine ⟨going.proper,?_,?_⟩
  · intro idx r failed closed
    exact going.proper.unfailed closed idx failed
  · intro quiet ok idx data dirty
    have stored := run_stored acts (begin_going fh wait file stores) (begin_stored fh wait file stores) quiet reached
    have full : file.dirty.isEmpty = false := by
      cases empty : file.dirty.isEmpty with
      | false => rfl
      | true =>
        rw [(OrderedMap.isEmpty_iff _).mp empty idx] at dirty
        cases dirty
    obtain ⟨r,closed⟩ := going.published ok full
    obtain ⟨placement,placed,acked⟩ := going.proper.committed closed dirty
    exact ⟨placement,placed,(stored.acked idx placement.primary data acked.primary).2⟩

/-- A handle with one byte written to a file that has no block yet. -/
def oneByte : OpenFile := ⟨2,0,∅,(∅ : Map BlockIdx Bytes).insert 0 [7],1,0⟩

/-- A flush of it: the replica is written by a spawned task. -/
def oneByteFlush : List Act :=
  [.listNodes (.ok ()),.allocate (.ok [⟨0,"n",["m"]⟩]),.start,.connect 0 true,.execute 0,.answer 0 (.ok ()),.sendSpawned 0,.land 0,
    .close 0,.closeReply (.ok ⟨2,1,1,1,0,1,0,0,0,0,0,0,0,0⟩)]

theorem publish_ordered_flushed :
    ∃ σ, run oneByteFlush (begin 1 .primariesOnly oneByte (fun node => .new node 100)) = some σ ∧
      σ.phase = .returned (.ok ()) ∧ Proper oneByte .primariesOnly σ.trace ∧ slot oneByte σ.stores "n" 0 = some [7] := by
  have flushed : ∃ σ, run oneByteFlush (begin 1 .primariesOnly oneByte (fun node => .new node 100)) = some σ ∧
      σ.phase = .returned (.ok ()) ∧ (placements oneByte σ.trace)[0]? = some ⟨"n",["m"]⟩ := ⟨_,rfl,rfl,by decide⟩
  obtain ⟨σ,reached,ok,placed⟩ := flushed
  obtain ⟨proper,_,held⟩ := publish_ordered 1 .primariesOnly oneByte (fun node => .new node 100) oneByteFlush σ reached
  have quiet : Undisturbed oneByte oneByteFlush (begin 1 .primariesOnly oneByte (fun node => .new node 100)) :=
    undisturbed_alone _ (by simp [oneByteFlush]) _
  obtain ⟨placement,found,here⟩ := held quiet ok 0 [7] (by decide)
  rw [placed] at found
  cases found
  exact ⟨σ,reached,ok,proper,here⟩

end PublishCall

end Dtmpfs
