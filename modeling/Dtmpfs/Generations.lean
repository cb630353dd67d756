import Dtmpfs.InodeChange

/-! The generation of an inode is a compare-and-swap counter: it counts the accepted
`Close` requests that wrote something, and each of them named the count before it. -/
namespace Dtmpfs
open MetaService MetaState OrderedMap

/-- The request, when it is a `Close` that wrote something through a handle of
inode `i` and was accepted. -/
def dirtyClose (i : InodeId) (host : Host) (call : Call) (s : MetaState) : Option CloseReq :=
  match call with
  | .close r =>
    if (close host r s).reply.isOk = true ∧ r.writtenBlockIdxs ≠ [] ∧ (s.openHandles[r.fh]?.map (·.ino)) = some i then some r
    else none
  | _ => none

/-- The call creates an inode under number `i`. -/
def drawsNumber (i : InodeId) (call : Call) (s : MetaState) : Bool := draws call s && s.nextIno == i

/-- The accepted dirty closes of inode `i` in a run, since its creation, after those
of `seen`. -/
def dirtyCloses (i : InodeId) : List (Host × Call) → MetaState → List CloseReq → List CloseReq
  | [],_,seen => seen
  | (host,call)::rest,s,seen => dirtyCloses i rest (serve host call s)
      (if drawsNumber i call s then [] else seen ++ (dirtyClose i host call s).toList)

variable {i : InodeId} {host : Host} {call : Call} {s : MetaState}

theorem dirtyClose_published {r : CloseReq} (counted : dirtyClose i host call s = some r) :
    ∃ old new, s.inodes[i]? = some old ∧ (serve host call s).inodes[i]? = some new ∧
      old.generation = r.expectedGeneration ∧ new.generation = old.generation + 1 := by
  unfold dirtyClose at counted
  split at counted
  next request =>
    split at counted
    next conditions =>
      cases counted
      obtain ⟨accepted,written,owner⟩ := conditions
      obtain ⟨handle,found,mine⟩ := Option.map_eq_some_iff.mp owner
      rcases close_cases host r s with ⟨missing,_⟩ | ⟨handle',found',outcome⟩
      · rw [found] at missing
        cases missing
      · rw [found] at found'
        cases found'
        rcases outcome with ⟨_,refused⟩ | ⟨old,alive,⟨none,_⟩ | ⟨_,matched,requested,served⟩⟩
        · rw [refused] at accepted
          cases accepted
        · exact absurd none written
        · refine ⟨old,publishedInode host r requested old,mine ▸ alive,?_,matched,rfl⟩
          simp only [serve,served,putInode,dropHandle,get_insert,if_pos mine]
    next => cases counted
  next => cases counted

theorem dirtyClose_of_published {r : CloseReq} {handle : OpenHandleSt} (found : s.openHandles[r.fh]? = some handle)
    (mine : handle.ino = i) (written : r.writtenBlockIdxs ≠ []) (accepted : (close host r s).reply.isOk = true) :
    dirtyClose i host (.close r) s = some r := by
  have owner : (s.openHandles[r.fh]?.map (·.ino)) = some i := by simp only [found,Option.map_some,mine]
  simp only [dirtyClose]
  rw [if_pos ⟨accepted,written,owner⟩]

theorem editNlink_keeps {s : MetaState} (change : Nat → Nat) (j : InodeId) (inode : Inode) (found : s.inodes[i]? = some inode) :
    ∃ new, (s.editNlink change j).inodes[i]? = some new ∧ new.generation = inode.generation ∧ new.blocks = inode.blocks := by
  unfold editNlink
  split
  next other present =>
    simp only [putInode,get_insert]
    split
    next same =>
      rw [same,found] at present
      cases present
      exact ⟨_,rfl,rfl,rfl⟩
    next => exact ⟨inode,found,rfl,rfl⟩
  next => exact ⟨inode,found,rfl,rfl⟩

theorem drawsNumber_blank (host : Host) (drawn : drawsNumber i call s = true) :
    ∃ new, (serve host call s).inodes[i]? = some new ∧ new.generation = 0 ∧ new.blocks = ∅ := by
  unfold drawsNumber at drawn
  rw [Bool.and_eq_true,beq_iff_eq] at drawn
  obtain ⟨drew,rfl⟩ := drawn
  cases call with
  | create r =>
    rcases create_cases host r s with ⟨taken,_⟩ | ⟨dir,_,_,made⟩
    · rw [draws,draws_of_taken taken] at drew
      cases drew
    · refine ⟨freshInode host r .file s.nextIno,?_,rfl,rfl⟩
      simp only [serve,made,created,get_insert,if_true]
  | mkdir r =>
    rcases mkdir_cases host r s with ⟨taken,_⟩ | ⟨dir,placed,_,_,_,made⟩
    · rw [draws,draws_of_taken taken] at drew
      cases drew
    · simp only [serve,made,madeDir]
      refine editNlink_keeps _ _ (freshInode host r .dir s.nextIno) ?_
      simp only [get_insert,if_true]
  | _ => cases drew

/-- The generation after a request: one more after an accepted dirty close, and
otherwise what it was. -/
theorem serve_generation {old new : Inode} (before : s.inodes[i]? = some old) (after : (serve host call s).inodes[i]? = some new)
    (undrawn : drawsNumber i call s = false) :
    new.generation = old.generation + (dirtyClose i host call s).toList.length := by
  cases counted : dirtyClose i host call s with
  | some r =>
    obtain ⟨old',new',before',after',_,bumped⟩ := dirtyClose_published counted
    rw [before] at before'
    rw [after] at after'
    cases before'
    cases after'
    exact bumped
  | none =>
    have change := serve_change host call s i
    rw [before,after] at change
    cases change with
    | kept _ _ _ generation _ => exact generation
    | drawn _ _ drew number _ _ =>
      rw [drawsNumber,drew,Bool.true_and,beq_eq_false_iff_ne] at undrawn
      exact absurd number undrawn
    | resized _ _ _ _ _ _ _ _ generation _ => exact generation
    | published _ _ r handle request found mine written _ accepted _ _ _ =>
      subst request
      rw [dirtyClose_of_published found mine written accepted] at counted
      cases counted
    | placed _ _ _ _ _ generation _ => exact generation

/-- The closes seen so far named the generations below the current one, in order. -/
def Counted (i : InodeId) (s : MetaState) (seen : List CloseReq) : Prop :=
  ∀ inode, s.inodes[i]? = some inode → seen.map (·.expectedGeneration) = List.range inode.generation

theorem counted_step {seen : List CloseReq} (h : Counted i s seen) :
    Counted i (serve host call s) (if drawsNumber i call s then [] else seen ++ (dirtyClose i host call s).toList) := by
  intro new after
  cases drawn : drawsNumber i call s with
  | true =>
    obtain ⟨new',after',blank,_⟩ := drawsNumber_blank host drawn
    rw [after] at after'
    cases after'
    rw [blank]
    rfl
  | false =>
    have change := serve_change host call s i
    rw [after] at change
    cases before : s.inodes[i]? with
    | none =>
      rw [before] at change
      cases change with
      | drawn _ _ drew number _ _ =>
        rw [drawsNumber,drew,Bool.true_and,beq_eq_false_iff_ne] at drawn
        exact absurd number drawn
    | some old =>
      have numbers := h old before
      have generation := serve_generation before after drawn
      cases counted : dirtyClose i host call s with
      | none =>
        rw [counted] at generation
        rw [generation]
        simpa using numbers
      | some r =>
        obtain ⟨old',_,before',_,matched,_⟩ := dirtyClose_published counted
        rw [before] at before'
        cases before'
        rw [counted] at generation
        rw [generation]
        simp only [Bool.false_eq_true,if_false,Option.toList_some,List.map_append,numbers,List.map_singleton,
          List.length_singleton,List.range_succ,matched]

theorem counted_run (calls : List (Host × Call)) (s : MetaState) (seen : List CloseReq) (h : Counted i s seen) :
    Counted i (run calls s) (dirtyCloses i calls s seen) := by
  induction calls generalizing s seen with
  | nil => exact h
  | cons call rest ih => exact ih _ _ (counted_step h)

theorem counted_new (now : SystemTime) (replicationFactor : Nat) : Counted i (new now replicationFactor) [] := by
  intro inode found
  simp only [new,get_insert] at found
  split at found
  · cases found
    rfl
  · simp at found

/-- Generations are a compare-and-swap counter. The accepted dirty closes of an inode
named the generations 0, 1, ... in turn and there are as many of them as its
generation says; and whatever request comes, an inode that stays keeps its
generation but for an accepted dirty close, which adds one. -/
theorem generation_counts_closes (now : SystemTime) (replicationFactor : Nat) (calls : List (Host × Call)) (i : InodeId) :
    (∀ inode, (run calls (new now replicationFactor)).inodes[i]? = some inode →
      (dirtyCloses i calls (new now replicationFactor) []).map (·.expectedGeneration) = List.range inode.generation) ∧
    ∀ host call old new, (run calls (MetaState.new now replicationFactor)).inodes[i]? = some old →
      (serve host call (run calls (MetaState.new now replicationFactor))).inodes[i]? = some new →
      drawsNumber i call (run calls (MetaState.new now replicationFactor)) = false →
      new.generation = old.generation + (dirtyClose i host call (run calls (MetaState.new now replicationFactor))).toList.length := by
  refine ⟨counted_run calls _ [] (counted_new now replicationFactor),?_⟩
  intro host call old new before after undrawn
  exact serve_generation before after undrawn

/-- A file is created and opened once more, and both handles publish. -/
def twoPublishes : List (Host × Call) :=
  [(Host.still,Call.create ⟨ROOT,"f",0,0,0⟩),(Host.still,Call.open ⟨2,0⟩),
    (Host.still,Call.close ⟨1,2,0,5,0,0,[0]⟩),(Host.still,Call.close ⟨2,2,0,7,0,0,[0]⟩)]

theorem generation_counts_closes_once :
    ((run twoPublishes (new 0 1)).inodes[(2 : InodeId)]?.map (·.generation)) = some 1 ∧
      (dirtyCloses 2 twoPublishes (new 0 1) []).map (·.expectedGeneration) = [0] := by
  have published : ((run twoPublishes (new 0 1)).inodes[(2 : InodeId)]?.map (·.generation)) = some 1 := by decide
  obtain ⟨inode,found,one⟩ := Option.map_eq_some_iff.mp published
  have counted := (generation_counts_closes 0 1 twoPublishes 2).1 inode found
  rw [one] at counted
  exact ⟨published,counted⟩

end Dtmpfs
