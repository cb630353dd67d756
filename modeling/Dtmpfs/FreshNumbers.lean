import Dtmpfs.InodeChange
import Dtmpfs.NamespaceIntegrity

/-! Inode numbers and file handles are drawn from counters. Until a counter wraps, no
number comes back, and a delete never names a file that is there. -/
namespace Dtmpfs
open MetaService MetaState OrderedMap

/-- The inode number a request answers with. -/
def inoOf (host : Host) (call : Call) (s : MetaState) : Option InodeId :=
  match call with
  | .create r => (create host r s).reply.toOption.map (·.attr.ino)
  | .mkdir r => (mkdir host r s).reply.toOption.map (·.ino)
  | _ => none

/-- The file handle a request answers with. -/
def fhOf (host : Host) (call : Call) (s : MetaState) : Option Fh :=
  match call with
  | .create r => (create host r s).reply.toOption.map (·.fh)
  | .open r => (openRead r s).toOption.map (fun snapshot => (openInsert snapshot s).1.fh)
  | .openInsert snapshot => some (openInsert snapshot s).1.fh
  | _ => none

/-- What the requests of a run answer, in order. -/
def answers {α : Type} (pick : Host → Call → MetaState → Option α) : List (Host × Call) → MetaState → List α
  | [],_ => []
  | (host,call)::rest,s => (pick host call s).toList ++ answers pick rest (serve host call s)

/-- How many file handles a run hands out. -/
def handed : List (Host × Call) → MetaState → Nat
  | [],_ => 0
  | (host,call)::rest,s => (fhOf host call s).isSome.toNat + handed rest (serve host call s)

section Counters

structure SameCounters (s t : MetaState) : Prop where
  nextIno : t.nextIno = s.nextIno
  nextFh : t.nextFh = s.nextFh

@[simp] theorem nextFh_editNlink (s : MetaState) (change : Nat → Nat) (i : InodeId) :
    (s.editNlink change i).nextFh = s.nextFh := by
  unfold editNlink
  split <;> rfl

theorem removeDestination_counters {r : RenameReq} {s cleared : MetaState}
    {replaced : Option (InodeId × List (BlockIdx × BlockPlacement))}
    (removed : removeDestination r s = (.ok replaced,cleared)) : SameCounters s cleared := by
  rcases removeDestination_cases r s with ⟨_,failed⟩ | ⟨_,same⟩ | ⟨dir,dst,inode,_,_,_,⟨_,result⟩ | ⟨_,_,_,result⟩⟩
  · rw [failed] at removed
    cases removed
  · rw [same] at removed
    cases removed
    exact ⟨rfl,rfl⟩
  · rw [result] at removed
    cases removed
    exact ⟨rfl,rfl⟩
  · rw [result] at removed
    cases removed
    exact ⟨by simp only [replacedDir,putDir,nextIno_editNlink],by simp only [replacedDir,putDir,nextFh_editNlink]⟩

theorem rename_counters (r : RenameReq) (s : MetaState) : SameCounters s (rename r s).state := by
  rcases rename_cases r s with ⟨_,failed⟩ | ⟨_,_,_,_,_,lost⟩ | ⟨src,replaced,cleared,_,_,_,removed,_,_,_,state⟩
  · rw [failed]
    exact ⟨rfl,rfl⟩
  · rw [lost]
    exact ⟨rfl,rfl⟩
  · have same := removeDestination_counters removed
    rw [state]
    unfold adjustLinks
    split
    · refine ⟨?_,?_⟩
      · simp only [nextIno_editNlink,putDir]
        exact same.nextIno
      · simp only [nextFh_editNlink,putDir]
        exact same.nextFh
    · exact ⟨same.nextIno,same.nextFh⟩

/-- A request moves the counters by what it answers, and answers the counters. -/
structure Counts (host : Host) (call : Call) (s : MetaState) : Prop where
  ino : inoOf host call s = if draws call s = true then some s.nextIno else none
  fh : ∀ fh, fhOf host call s = some fh → fh = s.nextFh
  nextIno : (serve host call s).nextIno = if draws call s = true then (s.nextIno + 1) % 2^64 else s.nextIno
  nextFh : (serve host call s).nextFh = if (fhOf host call s).isSome = true then (s.nextFh + 1) % 2^64 else s.nextFh

theorem Counts.quiet {host : Host} {call : Call} {s : MetaState} (draws_ : draws call s = false) (ino : inoOf host call s = none)
    (fh : fhOf host call s = none) (same : SameCounters s (serve host call s)) : Counts host call s := by
  refine ⟨?_,?_,?_,?_⟩
  · rw [ino,draws_]
    rfl
  · intro fh' handed
    rw [fh] at handed
    cases handed
  · rw [draws_,same.nextIno]
    rfl
  · rw [fh,same.nextFh]
    rfl

section Requests

variable (host : Host) (s : MetaState)

theorem setAttr_counters (r : SetAttrReq) : SameCounters s (serve host (.setAttr r) s) := by
  rcases setAttr_cases host r s with ⟨_,missing⟩ | ⟨_,_,_,_,_,state,_⟩
  · simp only [serve,missing]
    exact ⟨rfl,rfl⟩
  · simp only [serve,state]
    exact ⟨rfl,rfl⟩

theorem close_counters (r : CloseReq) : SameCounters s (serve host (.close r) s) := by
  rcases close_cases host r s with ⟨_,missing⟩ | ⟨_,_,⟨_,refused⟩ | ⟨_,_,⟨_,served⟩ | ⟨_,_,_,served⟩⟩⟩
  · simp only [serve,missing]
    exact ⟨rfl,rfl⟩
  · simp only [serve,refused]
    exact ⟨rfl,rfl⟩
  · simp only [serve,served]
    exact ⟨rfl,rfl⟩
  · simp only [serve,served]
    exact ⟨rfl,rfl⟩

theorem allocateBlocks_counters (i : InodeId) (idxs : List BlockIdx) : SameCounters s (serve host (.allocateBlocks i idxs) s) := by
  rcases allocateBlocks_cases host i idxs s with ⟨_,missing⟩ | ⟨_,_,_,_,served,_⟩
  · simp only [serve,missing]
    exact ⟨rfl,rfl⟩
  · simp only [serve,served]
    exact ⟨rfl,rfl⟩

theorem unlink_counters (parent : InodeId) (name : String) : SameCounters s (serve host (.unlink parent name) s) := by
  rcases unlink_cases parent name s with ⟨_,failed⟩ | ⟨_,_,_,_,_,_,_,gone⟩
  · simp only [serve,failed]
    exact ⟨rfl,rfl⟩
  · simp only [serve,gone]
    exact ⟨rfl,rfl⟩

theorem rmdir_counters (parent : InodeId) (name : String) : SameCounters s (serve host (.rmdir parent name) s) := by
  rcases rmdir_cases parent name s with ⟨_,failed⟩ | ⟨_,_,_,_,_,_,_,_,gone⟩
  · simp only [serve,failed]
    exact ⟨rfl,rfl⟩
  · simp only [serve,gone,removedDir]
    exact ⟨nextIno_editNlink _ _ _,nextFh_editNlink _ _ _⟩

theorem open_counts (r : OpenReq) : Counts host (.open r) s := by
  cases opened : openRead r s with
  | error fault =>
    refine .quiet rfl rfl ?_ ?_
    · simp only [fhOf,opened]
      rfl
    · simp only [serve,opened]
      exact ⟨rfl,rfl⟩
  | ok snapshot =>
    have answered : fhOf host (.open r) s = some s.nextFh := by
      simp only [fhOf,opened]
      rfl
    refine ⟨rfl,?_,?_,?_⟩
    · intro fh handed
      rw [answered] at handed
      exact (Option.some.inj handed).symm
    · simp only [serve,opened]
      rfl
    · rw [answered]
      simp only [serve,opened]
      rfl

theorem create_counts (r : CreateReq) : Counts host (.create r) s := by
  rcases create_cases host r s with ⟨taken,status,failed⟩ | ⟨dir,found,vacant,made⟩
  · refine .quiet (draws_of_taken taken) ?_ ?_ ?_
    · simp only [inoOf,failed]
      rfl
    · simp only [fhOf,failed]
      rfl
    · simp only [serve,failed]
      exact ⟨rfl,rfl⟩
  · have drew : draws (.create r) s = true := draws_of_vacant found vacant
    have answered : fhOf host (.create r) s = some s.nextFh := by
      simp only [fhOf,made]
      rfl
    refine ⟨?_,?_,?_,?_⟩
    · rw [drew]
      simp only [inoOf,made]
      rfl
    · intro fh handed
      rw [answered] at handed
      exact (Option.some.inj handed).symm
    · rw [drew]
      simp only [serve,made]
      rfl
    · rw [answered]
      simp only [serve,made]
      rfl

theorem mkdir_counts (r : CreateReq) : Counts host (.mkdir r) s := by
  rcases mkdir_cases host r s with ⟨taken,status,failed⟩ | ⟨dir,placed,found,vacant,_,made⟩
  · refine .quiet (draws_of_taken taken) ?_ rfl ?_
    · simp only [inoOf,failed]
      rfl
    · simp only [serve,failed]
      exact ⟨rfl,rfl⟩
  · have drew : draws (.mkdir r) s = true := draws_of_vacant found vacant
    refine ⟨?_,?_,?_,?_⟩
    · rw [drew]
      simp only [inoOf,made]
      rfl
    · intro fh handed
      cases handed
    · rw [drew]
      simp only [serve,made,madeDir,nextIno_editNlink,if_true]
    · simp only [serve,made,madeDir]
      exact nextFh_editNlink _ _ _

end Requests

theorem serve_counts (host : Host) (call : Call) (s : MetaState) : Counts host call s := by
  cases call with
  | lookup parent name => exact .quiet rfl rfl rfl ⟨rfl,rfl⟩
  | getAttr i => exact .quiet rfl rfl rfl ⟨rfl,rfl⟩
  | readDir r => exact .quiet rfl rfl rfl ⟨rfl,rfl⟩
  | listNodes => exact .quiet rfl rfl rfl ⟨rfl,rfl⟩
  | heartbeatNode instant r => exact .quiet rfl rfl rfl ⟨rfl,rfl⟩
  | watcherTick now deadAfter => exact .quiet rfl rfl rfl ⟨rfl,rfl⟩
  | rename r => exact .quiet rfl rfl rfl (rename_counters r s)
  | setAttr r => exact .quiet rfl rfl rfl (setAttr_counters host s r)
  | close r => exact .quiet rfl rfl rfl (close_counters host s r)
  | allocateBlocks i idxs => exact .quiet rfl rfl rfl (allocateBlocks_counters host s i idxs)
  | unlink parent name => exact .quiet rfl rfl rfl (unlink_counters host s parent name)
  | rmdir parent name => exact .quiet rfl rfl rfl (rmdir_counters host s parent name)
  | openInsert snapshot =>
    refine ⟨rfl,?_,rfl,rfl⟩
    intro fh handed
    exact (Option.some.inj handed).symm
  | «open» r => exact open_counts host s r
  | create r => exact create_counts host s r
  | mkdir r => exact mkdir_counts host s r

end Counters

section Runs

theorem answers_inos (calls : List (Host × Call)) (s : MetaState) (room : s.nextIno + drawn calls s < 2^64) :
    answers inoOf calls s = List.range' s.nextIno (drawn calls s) := by
  induction calls generalizing s with
  | nil => rfl
  | cons head rest ih =>
    obtain ⟨host,call⟩ := head
    have counts := serve_counts host call s
    have next := counts.nextIno
    have step : drawn ((host,call)::rest) s = (draws call s).toNat + drawn rest (serve host call s) := rfl
    rw [step] at room
    simp only [answers,step,counts.ino]
    cases drew : draws call s with
    | false =>
      rw [drew] at next room
      rw [ih _ (by simpa [next] using room),next]
      simp
    | true =>
      rw [drew,if_pos rfl,Nat.mod_eq_of_lt (by rw [drew,Bool.toNat_true] at room; omega)] at next
      rw [drew,Bool.toNat_true] at room
      rw [ih _ (by omega),next,Bool.toNat_true,Nat.add_comm 1,List.range'_succ]
      rfl

theorem answers_fhs (calls : List (Host × Call)) (s : MetaState) (room : s.nextFh + handed calls s < 2^64) :
    answers fhOf calls s = List.range' s.nextFh (handed calls s) := by
  induction calls generalizing s with
  | nil => rfl
  | cons head rest ih =>
    obtain ⟨host,call⟩ := head
    have counts := serve_counts host call s
    have next := counts.nextFh
    have step : handed ((host,call)::rest) s = (fhOf host call s).isSome.toNat + handed rest (serve host call s) := rfl
    rw [step] at room
    simp only [answers,step]
    cases answered : fhOf host call s with
    | none =>
      rw [answered] at next room
      rw [ih _ (by simpa [next] using room)]
      simp only [Option.isSome_none,Bool.false_eq_true,if_false] at next
      rw [next]
      simp
    | some fh =>
      have number := counts.fh fh answered
      rw [answered,Option.isSome_some,Bool.toNat_true] at room
      rw [answered,Option.isSome_some,if_pos rfl,Nat.mod_eq_of_lt (by omega)] at next
      rw [ih _ (by omega),next,number,Option.isSome_some,Bool.toNat_true,Nat.add_comm 1,List.range'_succ]
      rfl

/-- Every inode is stored under a number below the counter. -/
def Below (s : MetaState) : Prop := ∀ (i : InodeId) (inode : Inode), s.inodes[i]? = some inode → i < s.nextIno

theorem serve_nextIno (host : Host) (call : Call) (s : MetaState) (room : s.nextIno + (draws call s).toNat < 2^64) :
    (serve host call s).nextIno = s.nextIno + (draws call s).toNat := by
  have next := (serve_counts host call s).nextIno
  cases drew : draws call s with
  | false =>
    rw [drew] at next
    simpa using next
  | true =>
    rw [drew,Bool.toNat_true] at room
    rw [drew,if_pos rfl,Nat.mod_eq_of_lt room] at next
    exact next

theorem serve_below (host : Host) {call : Call} {s : MetaState} (h : Below s) (room : s.nextIno + (draws call s).toNat < 2^64) :
    Below (serve host call s) := by
  have grows := serve_nextIno host call s room
  intro i inode after
  have change := serve_change host call s i
  rw [after] at change
  cases before : s.inodes[i]? with
  | some old =>
    have low := h i old before
    rw [grows]
    exact Nat.lt_add_right _ low
  | none =>
    rw [before] at change
    cases change with
    | drawn _ _ drew number _ _ =>
      rw [grows,drew,Bool.toNat_true,number]
      exact Nat.lt_succ_self i

/-- A number below the counter that is free stays free. -/
theorem serve_gone {host : Host} {call : Call} {s : MetaState} {i : InodeId} (low : i < s.nextIno) (gone : s.inodes[i]? = none) :
    (serve host call s).inodes[i]? = none := by
  have change := serve_change host call s i
  rw [gone] at change
  cases after : (serve host call s).inodes[i]? with
  | none => rfl
  | some new =>
    rw [after] at change
    cases change with
    | drawn _ _ _ number _ _ => exact absurd number (Nat.ne_of_gt low)

theorem run_nextIno (calls : List (Host × Call)) (s : MetaState) (room : s.nextIno + drawn calls s < 2^64) :
    (run calls s).nextIno = s.nextIno + drawn calls s := by
  induction calls generalizing s with
  | nil => rfl
  | cons head rest ih =>
    obtain ⟨host,call⟩ := head
    have step : drawn ((host,call)::rest) s = (draws call s).toNat + drawn rest (serve host call s) := rfl
    have moved := serve_nextIno host call s (by omega)
    have later := ih (serve host call s) (by rw [moved]; omega)
    rw [moved] at later
    rw [step,← Nat.add_assoc]
    exact later

theorem run_below (calls : List (Host × Call)) (s : MetaState) (h : Below s) (room : s.nextIno + drawn calls s < 2^64) :
    Below (run calls s) := by
  induction calls generalizing s with
  | nil => exact h
  | cons head rest ih =>
    obtain ⟨host,call⟩ := head
    have step : drawn ((host,call)::rest) s = (draws call s).toNat + drawn rest (serve host call s) := rfl
    have small : s.nextIno + (draws call s).toNat < 2^64 := by omega
    have moved := serve_nextIno host call s small
    have rest_room : (serve host call s).nextIno + drawn rest (serve host call s) < 2^64 := by
      rw [moved]
      omega
    exact ih (serve host call s) (serve_below host h small) rest_room

theorem run_gone (calls : List (Host × Call)) (s : MetaState) (room : s.nextIno + drawn calls s < 2^64) {i : InodeId}
    (low : i < s.nextIno) (gone : s.inodes[i]? = none) : (run calls s).inodes[i]? = none := by
  induction calls generalizing s with
  | nil => exact gone
  | cons head rest ih =>
    obtain ⟨host,call⟩ := head
    have step : drawn ((host,call)::rest) s = (draws call s).toNat + drawn rest (serve host call s) := rfl
    have moved := serve_nextIno host call s (by omega)
    have rest_room : (serve host call s).nextIno + drawn rest (serve host call s) < 2^64 := by
      rw [moved]
      omega
    have still : i < (serve host call s).nextIno := by
      rw [moved]
      exact Nat.lt_add_right _ low
    exact ih (serve host call s) rest_room still (serve_gone low gone)

end Runs

section Deletes

theorem editNlink_gone {s : MetaState} {i : InodeId} (gone : s.inodes[i]? = none) (change : Nat → Nat) (j : InodeId) :
    (s.editNlink change j).inodes[i]? = none := by
  unfold editNlink
  split
  next inode found =>
    have apart : j ≠ i := by
      intro same
      rw [same,gone] at found
      cases found
    simp only [putInode,get_insert,if_neg apart]
    exact gone
  next => exact gone

theorem adjustLinks_gone {s : MetaState} {i : InodeId} (gone : s.inodes[i]? = none) (r : RenameReq) (src : InodeId) :
    (adjustLinks r src s).inodes[i]? = none := by
  unfold adjustLinks
  split
  · exact editNlink_gone (editNlink_gone gone _ _) _ _
  · exact gone

theorem replaced_gone {r : RenameReq} {s cleared : MetaState} {ino : InodeId} {blocks : List (BlockIdx × BlockPlacement)}
    (removed : removeDestination r s = (.ok (some (ino,blocks)),cleared)) :
    (∃ inode, s.inodes[ino]? = some inode) ∧ cleared.inodes[ino]? = none := by
  rcases removeDestination_cases r s with ⟨_,failed⟩ | ⟨_,same⟩ | ⟨dir,dst,inode,_,_,alive,⟨_,result⟩ | ⟨_,_,_,result⟩⟩
  · rw [failed] at removed
    cases removed
  · rw [same] at removed
    cases removed
  · rw [result] at removed
    obtain ⟨reply,rfl⟩ := Prod.mk.inj removed
    split at reply
    · cases reply
      exact ⟨⟨inode,alive⟩,by simp only [unlinked,get_erase,if_true]⟩
    · cases reply
  · rw [result] at removed
    cases removed

/-- The deletes of `unlink` and of the overwrite of `rename` are for an inode that
was there and is gone. -/
theorem fired_gone {host : Host} {call : Call} {s : MetaState} {d : DeleteBlock} (cause : Removes call)
    (sent : d ∈ fired host call s) :
    (∃ inode, s.inodes[d.key.ino]? = some inode) ∧ (serve host call s).inodes[d.key.ino]? = none := by
  cases call with
  | unlink parent name =>
    rcases unlink_cases parent name s with ⟨_,failed⟩ | ⟨dir,child,inode,_,_,alive,_,gone⟩
    · simp only [fired,failed] at sent
      cases sent
    · simp only [fired,gone] at sent
      have target := fireDeleteBlocks_ino s child _ d sent
      simp only [serve,gone]
      rw [target]
      exact ⟨⟨inode,alive⟩,by simp only [unlinked,get_erase,if_true]⟩
  | rename r =>
    rcases rename_cases r s with ⟨_,failed⟩ | ⟨_,_,_,_,_,lost⟩ | ⟨src,replaced,cleared,srcDir,dstDir,named,removed,owns,target,_,state⟩
    · simp only [fired,failed] at sent
      cases sent
    · simp only [fired,lost] at sent
      cases sent
    · simp only [fired] at sent
      unfold rename at sent
      simp only [named,removed,owns,target] at sent
      split at sent
      next ino blocks =>
        obtain ⟨alive,gone⟩ := replaced_gone removed
        rw [fireDeleteBlocks_ino _ ino blocks d sent]
        refine ⟨alive,?_⟩
        simp only [serve,state]
        refine adjustLinks_gone ?_ r src
        exact gone
      next => cases sent
  | rmdir parent name => cases sent
  | _ => cases cause

end Deletes

theorem below_new (now : SystemTime) (replicationFactor : Nat) : Below (new now replicationFactor) := by
  intro i inode found
  simp only [new,get_insert] at found
  split at found
  next same =>
    rw [← same]
    exact Nat.lt_succ_self 1
  next => simp at found

/-- Numbers are never reused. Within the room of the counters, the inode numbers a run
answers are all different and none is `ROOT`, so are the handles, an inode that has
left the table never comes back, and whatever `unlink` or `rename` delete belongs to
an inode that is gone for good. -/
theorem numbers_never_reused (now : SystemTime) (replicationFactor : Nat) (calls : List (Host × Call))
    (fewInodes : drawn calls (new now replicationFactor) < 2^64 - 2)
    (fewHandles : handed calls (new now replicationFactor) < 2^64 - 2) :
    (ROOT :: answers inoOf calls (new now replicationFactor)).Nodup ∧
    (answers fhOf calls (new now replicationFactor)).Nodup ∧
    (∀ before between after (i : InodeId) inode, calls = before ++ between ++ after →
      (run before (new now replicationFactor)).inodes[i]? = some inode →
      (run (before ++ between) (new now replicationFactor)).inodes[i]? = none →
      (run (before ++ between ++ after) (new now replicationFactor)).inodes[i]? = none) ∧
    ∀ before host call between after d, calls = before ++ (host,call) :: between ++ after → Removes call →
      d ∈ fired host call (run before (new now replicationFactor)) →
      (run (before ++ (host,call) :: between) (new now replicationFactor)).inodes[d.key.ino]? = none := by
  have start : (new now replicationFactor).nextIno = 2 := rfl
  have startFh : (new now replicationFactor).nextFh = 1 := rfl
  have room : (new now replicationFactor).nextIno + drawn calls (new now replicationFactor) < 2^64 := by omega
  refine ⟨?_,?_,?_,?_⟩
  · rw [answers_inos calls _ room,start,List.nodup_cons]
    refine ⟨?_,List.nodup_range'⟩
    intro member
    have low := (List.mem_range'_1.mp member).1
    exact absurd low (by decide)
  · rw [answers_fhs calls _ (by omega)]
    exact List.nodup_range'
  · intro before between after i inode split alive gone
    subst split
    rw [drawn_append,drawn_append] at room
    have low := run_below before _ (below_new now replicationFactor) (by omega) i inode alive
    have first := run_nextIno (before ++ between) (new now replicationFactor) (by rw [drawn_append]; omega)
    have second := run_nextIno before (new now replicationFactor) (by omega)
    rw [drawn_append] at first
    have still : i < (run (before ++ between) (new now replicationFactor)).nextIno := by
      rw [first]
      rw [second] at low
      exact Nat.lt_of_lt_of_le low (by omega)
    rw [run_append]
    exact run_gone after _ (by rw [first]; omega) still gone
  · intro before host call between after d split cause sent
    subst split
    rw [drawn_append,drawn_append] at room
    have step : drawn ((host,call)::between) (run before (new now replicationFactor)) =
        (draws call (run before (new now replicationFactor))).toNat +
          drawn between (serve host call (run before (new now replicationFactor))) := rfl
    have first := run_nextIno before (new now replicationFactor) (by omega)
    obtain ⟨⟨inode,alive⟩,gone⟩ := fired_gone cause sent
    have low := run_below before _ (below_new now replicationFactor) (by omega) _ inode alive
    have moved := serve_nextIno host call (run before (new now replicationFactor)) (by rw [first]; omega)
    have still : d.key.ino < (serve host call (run before (new now replicationFactor))).nextIno := by
      rw [moved]
      exact Nat.lt_add_right _ low
    have later : (serve host call (run before (new now replicationFactor))).nextIno +
        drawn between (serve host call (run before (new now replicationFactor))) < 2^64 := by
      rw [moved,first]
      omega
    rw [run_append]
    exact run_gone between (serve host call (run before (new now replicationFactor))) later still gone

/-- A file gets a block on the node `n`. -/
def placedFile : List (Host × Call) :=
  [(Host.still,Call.heartbeatNode 0 ⟨"n","a",0,0,0⟩),(Host.still,Call.create ⟨ROOT,"f",0,0,0⟩),
    (Host.still,Call.allocateBlocks 2 [0])]

theorem numbers_never_reused_unlinked :
    let calls := placedFile ++ (Host.still,Call.unlink ROOT "f") :: [(Host.still,Call.mkdir ⟨ROOT,"f",0,0,0⟩)] ++ []
    answers inoOf calls (new 0 1) = [2,3] ∧ (ROOT :: answers inoOf calls (new 0 1)).Nodup ∧
      (⟨"n","http://a",⟨2,0,0⟩⟩ : DeleteBlock) ∈ fired Host.still (Call.unlink ROOT "f") (run placedFile (new 0 1)) ∧
      (run calls (new 0 1)).inodes[(2 : InodeId)]? = none := by
  have sent : (⟨"n","http://a",⟨2,0,0⟩⟩ : DeleteBlock) ∈
      fired Host.still (Call.unlink ROOT "f") (run placedFile (new 0 1)) := by decide
  obtain ⟨distinct,_,_,deleted⟩ := numbers_never_reused 0 1
    (placedFile ++ (Host.still,Call.unlink ROOT "f") :: [(Host.still,Call.mkdir ⟨ROOT,"f",0,0,0⟩)] ++ [])
    (by decide) (by decide)
  refine ⟨by decide,distinct,sent,?_⟩
  rw [List.append_nil]
  exact deleted placedFile Host.still (Call.unlink ROOT "f") [(Host.still,Call.mkdir ⟨ROOT,"f",0,0,0⟩)] [] _ rfl
    trivial sent

end Dtmpfs
