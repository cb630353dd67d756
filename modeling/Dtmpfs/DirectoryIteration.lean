import Dtmpfs.DirectoryPages

/-! Directory iteration through FUSE. Each `readdir` fetches the whole listing again and
resumes at a position in it. -/
namespace Dtmpfs
open MetaService MetaState OrderedMap Paging

inductive FileType where
  | regularFile
  | directory
  | symlink
deriving DecidableEq, Repr

def protoKindToFuse : Nat → FileType
  | 2 => .directory
  | 3 => .symlink
  | _ => .regularFile

/-- One `reply.add`. -/
structure FuseEntry where
  ino : InodeId
  offset : Nat
  kind : FileType
  name : String
deriving DecidableEq, Repr

/-- What a `readdir` fetches while nothing else is served. Each round of the loop but the
last brings a full page, so there are no more rounds than entries and one. -/
def fetched (ino : InodeId) (s : MetaState) : Option (Except Fault (List DirEntry)) :=
  fetchEntries ino (List.replicate ((listing ino s).length + 1) []) ByteArray.empty [] s

/-- The entries `readdir` adds to a reply with room for `room` of them. -/
def readdir (offset room : Nat) (entries : List DirEntry) : List FuseEntry :=
  ((entries.zipIdx.drop offset).take room).map fun (e,i) => ⟨e.ino,i + 1,protoKindToFuse e.kind,e.name⟩

/-- An iteration in progress: the offset the kernel resumes at, the names it has been
given, and whether the last reply was empty. -/
structure Iteration where
  metadata : MetaState
  offset : Nat
  returned : List String
  ended : Bool

/-- A `readdir` whose reply has room for `more` entries after the first, or the `unlink`
of a name already returned. -/
inductive IterationEvent where
  | readdir (more : Nat)
  | unlink (name : String)
deriving DecidableEq, Repr

def Iteration.step (ino : InodeId) (event : IterationEvent) (σ : Iteration) : Option Iteration :=
  match event with
  | .readdir more =>
    match fetched ino σ.metadata with
    | some (.ok entries) =>
      let added := readdir σ.offset (more + 1) entries
      some {σ with
        offset := (added.getLast?.map (·.offset)).getD σ.offset
        returned := σ.returned ++ added.map (·.name)
        ended := added.isEmpty}
    | _ => none
  | .unlink name =>
    if name ∈ σ.returned then some {σ with metadata := (unlink ino name σ.metadata).state} else none

def Iteration.run (ino : InodeId) : List IterationEvent → Iteration → Option Iteration
  | [],σ => some σ
  | event::rest,σ => (σ.step ino event).bind (Iteration.run ino rest)

/-- The name is in the directory in every state of the iteration. -/
def Survives (ino : InodeId) (name : String) : List IterationEvent → Iteration → Prop
  | [],σ => name ∈ listing ino σ.metadata
  | event::rest,σ => name ∈ listing ino σ.metadata ∧ ∀ τ, σ.step ino event = some τ → Survives ino name rest τ

/-- The event, if it is an `unlink` that takes a name away, comes when there is nothing
left to return. -/
def Late (ino : InodeId) (event : IterationEvent) (σ : Iteration) : Prop :=
  ∀ name, event = .unlink name → (unlink ino name σ.metadata).reply.isOk = true → (listing ino σ.metadata).length ≤ σ.offset

def AllLate (ino : InodeId) : List IterationEvent → Iteration → Prop
  | [],_ => True
  | event::rest,σ => Late ino event σ ∧ ∀ τ, σ.step ino event = some τ → AllLate ino rest τ

/-- The iteration as a walk through the listing. -/
def Iteration.walk (ino : InodeId) (σ : Iteration) : Walk String := ⟨listing ino σ.metadata,σ.offset,σ.returned⟩

section Steps

variable {ino : InodeId} {σ τ : Iteration}

/-- The directory is there and has no empty name. -/
structure Listed (ino : InodeId) (s : MetaState) : Prop where
  named : Named s
  alive : ∃ dir, s.dirs[ino]? = some dir

/-- A fetch lists the directory. -/
theorem fetched_pairs {s : MetaState} {dir : Map String InodeId} (named : Named s) (found : s.dirs[ino]? = some dir) :
    ∃ entries, fetched ino s = some (.ok entries) ∧ entries.map (fun e => (e.name,e.ino)) = dir.toList := by
  have keys : listing ino s = dir.keys := by
    rw [listing,found]
    rfl
  have still (n : Nat) (m : Nat) : ((List.replicate n ([] : List (Host × Call))).take m).flatten = [] := by
    simp [List.take_replicate]
  have enough : dir.size < 256 * (List.replicate ((listing ino s).length + 1) ([] : List (Host × Call))).length := by
    rw [List.length_replicate,keys,Std.ExtTreeMap.length_keys]
    omega
  exact fetchEntries_unchanged ino dir _ (by simp) s named (fun n _ => by rw [still]; exact found) enough

theorem fetched_listing {s : MetaState} (h : Listed ino s) :
    ∃ entries, fetched ino s = some (.ok entries) ∧ entries.map (·.name) = listing ino s := by
  obtain ⟨named,dir,found⟩ := h
  have keys : listing ino s = dir.keys := by
    rw [listing,found]
    rfl
  obtain ⟨entries,read,pairs⟩ := fetched_pairs named found
  refine ⟨entries,read,?_⟩
  have names := congrArg (List.map Prod.fst) pairs
  rw [List.map_map,Std.ExtTreeMap.map_fst_toList_eq_keys] at names
  rw [keys,← names]
  rfl

theorem readdir_names (offset room : Nat) (entries : List DirEntry) :
    (readdir offset room entries).map (·.name) = ((entries.map (·.name)).drop offset).take room := by
  rw [readdir,List.map_map,← List.map_drop,← List.map_take]
  have names : entries.zipIdx.map Prod.fst = entries := List.zipIdx_map_fst 0 entries
  nth_rewrite 2 [← names]
  rw [← List.map_drop,← List.map_take,List.map_map]
  rfl

theorem readdir_offset (offset room : Nat) (entries : List DirEntry) :
    ((readdir offset room entries).getLast?.map (·.offset)).getD offset = offset + (readdir offset room entries).length := by
  have length : (readdir offset room entries).length = ((entries.zipIdx.drop offset).take room).length := List.length_map _
  cases last : (readdir offset room entries).getLast? with
  | none =>
    rw [List.getLast?_eq_none_iff.mp last]
    rfl
  | some entry =>
    rw [readdir,List.getLast?_map] at last
    obtain ⟨⟨e,i⟩,final,rfl⟩ := Option.map_eq_some_iff.mp last
    have some_ : 0 < ((entries.zipIdx.drop offset).take room).length := List.length_pos_of_mem (List.mem_of_getLast? final)
    rw [List.getLast?_eq_getElem?,List.getElem?_take_of_lt (by rw [List.length_take] at some_ ⊢; omega),List.getElem?_drop,
      List.getElem?_zipIdx] at final
    obtain ⟨_,_,pair⟩ := Option.map_eq_some_iff.mp final
    obtain ⟨_,index⟩ := Prod.mk.inj pair
    rw [length]
    simp only [Option.map_some,Option.getD_some]
    omega

theorem step_readdir (h : Listed ino σ.metadata) {more : Nat} (stepped : σ.step ino (.readdir more) = some τ) :
    τ.metadata = σ.metadata ∧ τ.walk ino = (σ.walk ino).read (more + 1) ∧
      (τ.ended = true → (listing ino σ.metadata).length ≤ σ.offset) := by
  obtain ⟨entries,read,names⟩ := fetched_listing h
  simp only [Iteration.step,read] at stepped
  cases stepped
  have shown : (readdir σ.offset (more + 1) entries).map (·.name) = (σ.walk ino).shown (more + 1) := by
    rw [readdir_names,names]
    rfl
  have length : (readdir σ.offset (more + 1) entries).length = ((σ.walk ino).shown (more + 1)).length := by
    rw [← shown,List.length_map]
  refine ⟨rfl,?_,?_⟩
  · simp only [Iteration.walk,Walk.read,readdir_offset,length,shown]
  · intro empty
    simp only at empty
    rw [List.isEmpty_iff] at empty
    rw [empty,Walk.shown,List.length_take,List.length_drop] at length
    simp only [List.length_nil,Iteration.walk] at length
    omega

theorem keys_erase (dir : Map String InodeId) (name : String) : (dir.erase name).keys = dir.keys.filter (· ≠ name) := by
  have perm : (dir.erase name).keys.Perm (dir.keys.filter (· ≠ name)) := by
    apply (List.perm_ext_iff_of_nodup Std.ExtTreeMap.nodup_keys (Std.ExtTreeMap.nodup_keys.filter _)).mpr
    intro other
    rw [List.mem_filter,Std.ExtTreeMap.mem_keys,Std.ExtTreeMap.mem_keys,Std.ExtTreeMap.mem_iff_isSome_getElem?,
      Std.ExtTreeMap.mem_iff_isSome_getElem?,get_erase]
    by_cases same : name = other
    · simp [same]
    · simp [same,Ne.symm same]
  refine perm.eq_of_pairwise ?_ (keys_sorted _) ((keys_sorted dir).filter _)
  intro a b _ _ first second
  exact absurd (name_trans a b a first second) (name_irrefl a)

theorem step_unlink (h : Listed ino σ.metadata) {name : String} (stepped : σ.step ino (.unlink name) = some τ) :
    name ∈ σ.returned ∧ Listed ino τ.metadata ∧
      (((unlink ino name σ.metadata).reply.isOk = false ∧ τ = σ) ∨
        ((unlink ino name σ.metadata).reply.isOk = true ∧ τ.walk ino = (σ.walk ino).remove name ∧ τ.ended = σ.ended)) := by
  simp only [Iteration.step] at stepped
  split at stepped
  next seen =>
    cases stepped
    refine ⟨seen,?_⟩
    rcases unlink_cases ino name σ.metadata with ⟨status,failed⟩ | ⟨dir,child,inode,found,_,_,_,gone⟩
    · rw [failed]
      exact ⟨h,.inl ⟨rfl,rfl⟩⟩
    · have named : Named (unlink ino name σ.metadata).state := by
        rw [gone]
        exact h.named.insert (absent_erase (h.named _ dir found) name) rfl
      have alive : (unlink ino name σ.metadata).state.dirs[ino]? = some (dir.erase name) := by
        rw [gone]
        simp only [unlinked,get_insert,if_true]
      refine ⟨⟨named,dir.erase name,alive⟩,.inr ⟨by rw [gone]; rfl,?_,rfl⟩⟩
      have before : listing ino σ.metadata = dir.keys := by
        rw [listing,found]
        rfl
      simp only [Iteration.walk,Walk.remove,before]
      rw [listing,alive,← keys_erase]
      rfl
  next => cases stepped

end Steps

section Runs

variable {ino : InodeId} {σ τ : Iteration}

theorem run_cons {event : IterationEvent} {rest : List IterationEvent} (ran : Iteration.run ino (event::rest) σ = some τ) :
    ∃ next, σ.step ino event = some next ∧ Iteration.run ino rest next = some τ :=
  Option.bind_eq_some_iff.mp ran

/-- Names only leave the directory. -/
theorem run_survives (events : List IterationEvent) (h : Listed ino σ.metadata) (ran : Iteration.run ino events σ = some τ)
    (name : String) : Survives ino name events σ ↔ name ∈ listing ino τ.metadata := by
  induction events generalizing σ with
  | nil =>
    cases ran
    rfl
  | cons event rest ih =>
    obtain ⟨next,stepped,later⟩ := run_cons ran
    have shrinks : Listed ino next.metadata ∧ (name ∈ listing ino next.metadata → name ∈ listing ino σ.metadata) := by
      cases event with
      | readdir more =>
        have same := (step_readdir h stepped).1
        rw [same]
        exact ⟨h,id⟩
      | unlink other =>
        obtain ⟨_,listed,⟨_,rfl⟩ | ⟨_,walk,_⟩⟩ := step_unlink h stepped
        · exact ⟨h,id⟩
        · refine ⟨listed,?_⟩
          have keys : listing ino next.metadata = (listing ino σ.metadata).filter (· ≠ other) := congrArg Walk.keys walk
          rw [keys]
          exact List.mem_of_mem_filter
    have tail := ih shrinks.1 later
    constructor
    · intro survives
      exact tail.mp (survives.2 next stepped)
    · intro present
      have then_ := tail.mpr present
      refine ⟨?_,?_⟩
      · have first : name ∈ listing ino next.metadata := by
          cases rest with
          | nil => exact then_
          | cons _ _ => exact then_.1
        exact shrinks.2 first
      · intro other stepped'
        rw [stepped] at stepped'
        cases stepped'
        exact then_

theorem run_done (events : List IterationEvent) {all : List String} (h : Listed ino σ.metadata) (done : Walk.Done all (σ.walk ino))
    (ran : Iteration.run ino events σ = some τ) : Walk.Done all (τ.walk ino) ∧ AllLate ino events σ := by
  induction events generalizing σ with
  | nil =>
    cases ran
    exact ⟨done,trivial⟩
  | cons event rest ih =>
    obtain ⟨next,stepped,later⟩ := run_cons ran
    have kept : Listed ino next.metadata ∧ Walk.Done all (next.walk ino) := by
      cases event with
      | readdir more =>
        obtain ⟨same,walk,_⟩ := step_readdir h stepped
        rw [same,walk]
        exact ⟨h,done.read _⟩
      | unlink name =>
        obtain ⟨_,listed,⟨_,rfl⟩ | ⟨_,walk,_⟩⟩ := step_unlink h stepped
        · exact ⟨h,done⟩
        · rw [walk]
          exact ⟨listed,done.remove name⟩
    obtain ⟨final,late⟩ := ih kept.1 kept.2 later
    refine ⟨final,fun _ _ _ => done.past,?_⟩
    intro other stepped'
    rw [stepped] at stepped'
    cases stepped'
    exact late

/-- A name the offset has passed is not returned any more. -/
theorem run_missed (events : List IterationEvent) {name : String} (h : Listed ino σ.metadata) (missed : Walk.Missed name (σ.walk ino))
    (ran : Iteration.run ino events σ = some τ) : Walk.Missed name (τ.walk ino) := by
  induction events generalizing σ with
  | nil =>
    cases ran
    exact missed
  | cons event rest ih =>
    obtain ⟨next,stepped,later⟩ := run_cons ran
    cases event with
    | readdir more =>
      obtain ⟨same,walk,_⟩ := step_readdir h stepped
      refine ih ?_ ?_ later
      · rw [same]
        exact h
      · rw [walk]
        exact missed.read _
    | unlink other =>
      obtain ⟨seen,listed,⟨_,rfl⟩ | ⟨_,walk,_⟩⟩ := step_unlink h stepped
      · exact ih h missed later
      · refine ih listed ?_ later
        rw [walk]
        exact missed.remove seen

theorem run_fresh (events : List IterationEvent) {all : List String} (distinct : all.Nodup) (h : Listed ino σ.metadata)
    (fresh : Walk.Fresh all (σ.walk ino)) (atEnd : σ.ended = true → all.length ≤ σ.offset)
    (ran : Iteration.run ino events σ = some τ) (ended : τ.ended = true) :
    (∀ name ∈ listing ino τ.metadata, τ.returned.count name = 1) ↔ AllLate ino events σ := by
  have once {ρ : Iteration} (done : Walk.Done all (ρ.walk ino)) : ∀ name ∈ listing ino ρ.metadata, ρ.returned.count name = 1 := by
    intro name member
    have returned : ρ.returned = all := done.returned
    rw [returned]
    exact List.count_eq_one_of_mem distinct (done.keys.subset member)
  induction events generalizing σ with
  | nil =>
    cases ran
    exact ⟨fun _ => trivial,fun _ => once (fresh.done (atEnd ended))⟩
  | cons event rest ih =>
    obtain ⟨next,stepped,later⟩ := run_cons ran
    have alone (late : Late ino event σ) : AllLate ino (event::rest) σ ↔ AllLate ino rest next := by
      constructor
      · intro both
        exact both.2 next stepped
      · intro tail
        refine ⟨late,?_⟩
        intro other stepped'
        rw [stepped] at stepped'
        cases stepped'
        exact tail
    cases event with
    | readdir more =>
      obtain ⟨same,walk,empty⟩ := step_readdir h stepped
      have late : Late ino (.readdir more) σ := by
        intro name other
        cases other
      have listed : Listed ino next.metadata := by
        rw [same]
        exact h
      have kept : Walk.Fresh all (next.walk ino) := by
        rw [walk]
        exact fresh.read _
      have offset : next.offset = ((σ.walk ino).read (more + 1)).offset := congrArg Walk.offset walk
      rw [alone late]
      refine ih listed kept ?_ later
      intro over_
      have past := empty over_
      rw [show listing ino σ.metadata = all from fresh.keys] at past
      rw [offset]
      exact Nat.le_trans past (Nat.le_add_right _ _)
    | unlink name =>
      obtain ⟨seen,listed,⟨failed,rfl⟩ | ⟨removed,walk,still⟩⟩ := step_unlink h stepped
      · have late : Late ino (.unlink name) next := by
          intro other same accepted
          cases same
          rw [failed] at accepted
          cases accepted
        rw [alone late]
        exact ih h fresh atEnd later
      · by_cases past : all.length ≤ σ.offset
        · have done : Walk.Done all (next.walk ino) := by
            rw [walk]
            exact (fresh.done past).remove name
          obtain ⟨final,late⟩ := run_done rest listed done later
          have now : Late ino (.unlink name) σ := by
            intro _ _ _
            rw [show listing ino σ.metadata = all from fresh.keys]
            exact past
          rw [alone now]
          exact ⟨fun _ => late,fun _ => once final⟩
        · obtain ⟨skipped,missed⟩ := fresh.remove distinct (Nat.lt_of_not_le past) seen
          rw [← walk] at missed
          have lost := run_missed rest listed missed later
          constructor
          · intro counted
            have one := counted skipped (List.mem_of_mem_take lost.behind)
            have unseen : skipped ∉ τ.returned := lost.unseen
            rw [List.count_eq_zero_of_not_mem unseen] at one
            cases one
          · intro late
            have early := late.1 name rfl removed
            rw [show listing ino σ.metadata = all from fresh.keys] at early
            exact absurd early past

end Runs

/-- A directory iteration that has come to its end has returned every name that was
there all the time exactly once if and only if nothing was unlinked before the last
name had been returned. -/
theorem iteration_exact (now : SystemTime) (replicationFactor : Nat) (before : List (Host × Call))
    (filled : ∀ request ∈ before, NonEmptyName request.2) (ino : InodeId) (dir : Map String InodeId)
    (found : (run before (new now replicationFactor)).dirs[ino]? = some dir) (events : List IterationEvent) (τ : Iteration)
    (ran : Iteration.run ino events ⟨run before (new now replicationFactor),0,[],false⟩ = some τ) (ended : τ.ended = true) :
    (∀ name, Survives ino name events ⟨run before (new now replicationFactor),0,[],false⟩ → τ.returned.count name = 1) ↔
      AllLate ino events ⟨run before (new now replicationFactor),0,[],false⟩ := by
  have listed : Listed ino (run before (new now replicationFactor)) :=
    ⟨run_named before _ (named_new now replicationFactor) filled,dir,found⟩
  have keys : listing ino (run before (new now replicationFactor)) = dir.keys := by
    rw [listing,found]
    rfl
  have fresh : Walk.Fresh dir.keys (Iteration.walk ino ⟨run before (new now replicationFactor),0,[],false⟩) :=
    ⟨keys,rfl,Nat.zero_le _⟩
  rw [← run_fresh events Std.ExtTreeMap.nodup_keys listed fresh (fun early => absurd early Bool.false_ne_true) ran ended]
  constructor
  · intro survivors name present
    exact survivors name ((run_survives events listed ran name).mpr present)
  · intro present name survives
    exact present name ((run_survives events listed ran name).mp survives)

/-- Three files in the root directory. -/
def threeFiles : List (Host × Call) :=
  [(Host.still,Call.create ⟨ROOT,"a",0,0,0⟩),(Host.still,Call.create ⟨ROOT,"b",0,0,0⟩),(Host.still,Call.create ⟨ROOT,"c",0,0,0⟩)]

def atFirst : Iteration := ⟨run threeFiles (new 0 1),0,[],false⟩

theorem atFirst_listed : Listed ROOT atFirst.metadata := by
  have filled : ∀ request ∈ threeFiles, NonEmptyName request.2 := by decide
  exact ⟨run_named threeFiles _ (named_new 0 1) filled,_,rfl⟩

/-- All names fit one reply, and then one of them is unlinked. -/
theorem iteration_exact_one_reply :
    ∃ τ, Iteration.run ROOT [.readdir 2,.unlink "a",.readdir 0] atFirst = some τ ∧ τ.returned = ["a","b","c"] ∧
      listing ROOT τ.metadata = ["b","c"] ∧
      ∀ name, Survives ROOT name [.readdir 2,.unlink "a",.readdir 0] atFirst → τ.returned.count name = 1 := by
  have outcome : ((Iteration.run ROOT [.readdir 2,.unlink "a",.readdir 0] atFirst).map
      (fun τ => (τ.returned,τ.ended,listing ROOT τ.metadata))) = some (["a","b","c"],true,["b","c"]) := by decide +kernel
  obtain ⟨τ,ran,values⟩ := Option.map_eq_some_iff.mp outcome
  obtain ⟨returned,rest⟩ := Prod.mk.inj values
  obtain ⟨ended,keys⟩ := Prod.mk.inj rest
  refine ⟨τ,ran,returned,keys,?_⟩
  apply (iteration_exact 0 1 threeFiles (by decide) ROOT _ rfl _ τ ran ended).mpr
  refine ⟨nofun,?_⟩
  intro σ stepped
  obtain ⟨same,walk,_⟩ := step_readdir atFirst_listed stepped
  have past : (listing ROOT atFirst.metadata).length ≤ ((atFirst.walk ROOT).read 3).offset := by decide +kernel
  have offset : σ.offset = ((atFirst.walk ROOT).read 3).offset := congrArg Walk.offset walk
  refine ⟨?_,fun _ _ => ⟨nofun,fun _ _ => trivial⟩⟩
  intro _ _ _
  rw [same,offset]
  exact past

/-- The reply has room for one name at a time, and each is unlinked at once as
`rm -rf` does: `b` is never returned. -/
theorem iteration_skips :
    ∃ τ, Iteration.run ROOT [.readdir 0,.unlink "a",.readdir 0,.unlink "c",.readdir 0] atFirst = some τ ∧ τ.ended = true ∧
      τ.returned = ["a","c"] ∧ Survives ROOT "b" [.readdir 0,.unlink "a",.readdir 0,.unlink "c",.readdir 0] atFirst ∧
      τ.returned.count "b" ≠ 1 := by
  have outcome : ((Iteration.run ROOT [.readdir 0,.unlink "a",.readdir 0,.unlink "c",.readdir 0] atFirst).map
      (fun τ => (τ.returned,τ.ended,listing ROOT τ.metadata))) = some (["a","c"],true,["b"]) := by decide +kernel
  obtain ⟨τ,ran,values⟩ := Option.map_eq_some_iff.mp outcome
  obtain ⟨returned,rest⟩ := Prod.mk.inj values
  obtain ⟨ended,keys⟩ := Prod.mk.inj rest
  refine ⟨τ,ran,ended,returned,?_,?_⟩
  · apply (run_survives _ atFirst_listed ran "b").mpr
    rw [keys]
    exact List.mem_cons_self
  · rw [returned]
    decide

end Dtmpfs
