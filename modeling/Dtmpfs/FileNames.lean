import Dtmpfs.DirectoryIteration
import Dtmpfs.Errnos
import Dtmpfs.Semantics.LossyUtf8

/-! File names on their way through the client. The kernel's bytes are decoded with
`to_string_lossy` and the server's strings go back as their UTF-8. -/
namespace Dtmpfs
open MetaService MetaState OrderedMap LossyUtf8

-- The callbacks of `DtmpfsFs` that take names, as far as the metadata server.
namespace Fuse

def lookup (parent : InodeId) (name : Bytes) (s : MetaState) : Except Fault Attr := MetaService.lookup parent (decode name) s

def create (host : Host) (parent : InodeId) (name : Bytes) (mode uid gid : Nat) (s : MetaState) : Served CreateResp :=
  MetaService.create host ⟨parent,decode name,mode,uid,gid⟩ s

def mkdir (host : Host) (parent : InodeId) (name : Bytes) (mode uid gid : Nat) (s : MetaState) : Served Attr :=
  MetaService.mkdir host ⟨parent,decode name,mode,uid,gid⟩ s

def unlink (parent : InodeId) (name : Bytes) (s : MetaState) : Served Unit := MetaService.unlink parent (decode name) s

def rmdir (parent : InodeId) (name : Bytes) (s : MetaState) : Served Unit := MetaService.rmdir parent (decode name) s

def rename (parent : InodeId) (name : Bytes) (newparent : InodeId) (newname : Bytes) (s : MetaState) : Served Unit :=
  MetaService.rename ⟨parent,decode name,newparent,decode newname⟩ s

/-- The whole listing, as the kernel gets it: bytes and inode numbers. -/
def readdir (ino : InodeId) (s : MetaState) : Option (Except Fault (List (Bytes × InodeId))) :=
  (fetched ino s).map (·.map fun entries => (Dtmpfs.readdir 0 entries.length entries).map fun e => (encode e.name,e.ino))

end Fuse

/-- The two requests that add an entry. -/
inductive Maker where
  | create
  | mkdir
deriving DecidableEq, Repr

/-- The number of the new inode, and the state left behind. -/
def Maker.make (maker : Maker) (host : Host) (parent : InodeId) (name : Bytes) (mode uid gid : Nat) (s : MetaState) :
    Except Fault InodeId × MetaState :=
  match maker with
  | .create => ((Fuse.create host parent name mode uid gid s).reply.map (·.attr.ino),(Fuse.create host parent name mode uid gid s).state)
  | .mkdir => ((Fuse.mkdir host parent name mode uid gid s).reply.map (·.ino),(Fuse.mkdir host parent name mode uid gid s).state)

/-- Once `t` has an entry made for `a`, nothing finds it under `b`. -/
structure Unfound (parent : InodeId) (b : Bytes) (t : MetaState) : Prop where
  lookup : errnoOf (Fuse.lookup parent b t) = some .enoent
  unlink : errnoOf (Fuse.unlink parent b t).reply = some .enoent
  rmdir : errnoOf (Fuse.rmdir parent b t).reply = some .enoent
  rename : ∀ newparent newname, errnoOf (Fuse.rename parent b newparent newname t).reply = some .enoent

/-- An entry can be made for `a`, after which `b` is not found, another one can be made
for `b`, and the listing has the first one under the bytes of `a`. -/
def KeptApart (maker : Maker) (host host' : Host) (parent : InodeId) (a b : Bytes) (mode uid gid : Nat) (s : MetaState) : Prop :=
  ∃ ino t, maker.make host parent a mode uid gid s = (.ok ino,t) ∧ Unfound parent b t ∧
    (∃ ino' u, Maker.create.make host' parent b mode uid gid t = (.ok ino',u) ∧ ino' ≠ ino ∧
      u.resolve parent (decode a) = some ino ∧ u.resolve parent (decode b) = some ino') ∧
    ∃ entries, Fuse.readdir parent t = some (.ok entries) ∧ (a,ino) ∈ entries

/-- What is left of a directory when an entry is made in it: `mkdir` empties it when it
draws its number. -/
def Maker.kept (maker : Maker) (parent : InodeId) (dir : Map String InodeId) (s : MetaState) : Map String InodeId :=
  if maker = .mkdir ∧ s.nextIno = parent then ∅ else dir

section Making

variable (maker : Maker) {parent : InodeId} {dir : Map String InodeId} {name : Bytes} {s : MetaState}

theorem make_taken (host : Host) (mode uid gid : Nat) (found : s.dirs[parent]? = some dir) (taken : dir.contains (decode name) = true) :
    ∃ fault, (maker.make host parent name mode uid gid s).1 = .error fault := by
  cases maker with
  | create =>
    simp only [Maker.make,Fuse.create,MetaService.create,found,taken,if_true]
    exact ⟨_,rfl⟩
  | mkdir =>
    simp only [Maker.make,Fuse.mkdir,MetaService.mkdir,found,taken,if_true]
    exact ⟨_,rfl⟩

theorem make_free (host : Host) (mode uid gid : Nat) (found : s.dirs[parent]? = some dir) (free : dir[decode name]? = none) :
    ∃ t, maker.make host parent name mode uid gid s = (.ok s.nextIno,t) ∧
      t.dirs[parent]? = some ((maker.kept parent dir s).insert (decode name) s.nextIno) ∧ t.nextIno = (s.nextIno + 1) % 2^64 := by
  have fresh : dir.contains (decode name) = false := (vacant_iff dir _).mpr free
  cases maker with
  | create =>
    rcases create_cases host ⟨parent,decode name,mode,uid,gid⟩ s with ⟨refused,_⟩ | ⟨dir',found',_,made⟩
    · rw [refused dir found] at fresh
      cases fresh
    · rw [found] at found'
      cases found'
      refine ⟨s.created host ⟨parent,decode name,mode,uid,gid⟩ dir,?_,?_,rfl⟩
      · simp only [Maker.make,Fuse.create,made]
        rfl
      · simp [created,Maker.kept]
  | mkdir =>
    rcases mkdir_cases host ⟨parent,decode name,mode,uid,gid⟩ s with ⟨refused,_⟩ | ⟨_,placed,_,_,kept,made⟩
    · rw [refused dir found] at fresh
      cases fresh
    · have same : placed = Maker.mkdir.kept parent dir s := by
        rw [get_insert] at kept
        unfold Maker.kept
        split at kept
        next drawn =>
          rw [if_pos ⟨rfl,drawn⟩]
          exact (Option.some.inj kept).symm
        next other =>
          rw [found] at kept
          rw [if_neg (fun drawn => other drawn.2)]
          exact (Option.some.inj kept).symm
      refine ⟨s.madeDir host ⟨parent,decode name,mode,uid,gid⟩ placed,?_,?_,?_⟩
      · simp only [Maker.make,Fuse.mkdir,made]
        rfl
      · rw [← same]
        simp [madeDir]
      · simp [madeDir]

theorem make_named (host : Host) (parent : InodeId) (mode uid gid : Nat) (named : Named s) (filled : name ≠ []) :
    Named (maker.make host parent name mode uid gid s).2 := by
  have some_ := decode_filled filled
  cases maker with
  | create => exact serve_named named host (.create ⟨parent,decode name,mode,uid,gid⟩) some_
  | mkdir => exact serve_named named host (.mkdir ⟨parent,decode name,mode,uid,gid⟩) some_

end Making

section Finding

variable {parent : InodeId} {t : MetaState}

theorem unfound_of_vacant {b : Bytes} (vacant : t.resolve parent (decode b) = none) : Unfound parent b t where
  lookup := by
    rw [Fuse.lookup,MetaService.lookup,vacant]
    rfl
  unlink := by rw [Fuse.unlink,unlink_errno,vacant]
  rmdir := by rw [Fuse.rmdir,rmdir_errno,vacant]
  rename newparent newname := by
    rw [Fuse.rename,rename_errno]
    simp only [vacant]

/-- A reply with room for all entries has all of them. -/
theorem readdir_whole (entries : List DirEntry) :
    (readdir 0 entries.length entries).map (fun e => (encode e.name,e.ino)) = entries.map (fun e => (encode e.name,e.ino)) := by
  have whole : (entries.zipIdx.drop 0).take entries.length = entries.zipIdx := by
    rw [List.drop_zero,List.take_of_length_le (Nat.le_of_eq List.length_zipIdx)]
  have first : entries.zipIdx.map Prod.fst = entries := List.zipIdx_map_fst 0 entries
  rw [readdir,whole,List.map_map]
  nth_rewrite 2 [← first]
  rw [List.map_map]
  rfl

theorem readdir_lists {dir : Map String InodeId} (named : Named t) (found : t.dirs[parent]? = some dir) :
    ∃ entries, Fuse.readdir parent t = some (.ok entries) ∧
      ∀ bytes ino, (bytes,ino) ∈ entries ↔ ∃ name, dir[name]? = some ino ∧ encode name = bytes := by
  obtain ⟨entries,read,pairs⟩ := fetched_pairs named found
  refine ⟨_,by rw [Fuse.readdir,read]; rfl,?_⟩
  intro bytes ino
  have split_ : entries.map (fun e => (encode e.name,e.ino)) = dir.toList.map (fun pair => (encode pair.1,pair.2)) := by
    rw [← pairs,List.map_map]
    rfl
  dsimp only
  rw [readdir_whole,split_,List.mem_map]
  constructor
  · rintro ⟨⟨name,ino'⟩,member,same⟩
    cases same
    exact ⟨name,Std.ExtTreeMap.mem_toList_iff_getElem?_eq_some.mp member,rfl⟩
  · rintro ⟨name,entry,rfl⟩
    exact ⟨(name,ino),Std.ExtTreeMap.mem_toList_iff_getElem?_eq_some.mpr entry,rfl⟩

end Finding

section Apart

variable {maker : Maker} {host host' : Host} {parent : InodeId} {dir : Map String InodeId} {a b : Bytes} {mode uid gid : Nat} {s : MetaState}

theorem apart_of_free (named : Named s) (found : s.dirs[parent]? = some dir) (filled : a ≠ []) (valid : Utf8 a)
    (absent : dir[decode a]? = none) (apart : decode b ≠ decode a) (free : (maker.kept parent dir s)[decode b]? = none) :
    KeptApart maker host host' parent a b mode uid gid s := by
  obtain ⟨t,made,holds,next⟩ := make_free maker host mode uid gid found absent
  have named' : Named t := by
    have kept := make_named maker host parent mode uid gid named filled
    rwa [made] at kept
  have vacant : ((maker.kept parent dir s).insert (decode a) s.nextIno)[decode b]? = none := by
    rw [get_insert,if_neg (Ne.symm apart)]
    exact free
  obtain ⟨u,made',holds',_⟩ := make_free .create host' mode uid gid holds vacant
  obtain ⟨entries,listed,member⟩ := readdir_lists named' holds
  refine ⟨s.nextIno,t,made,unfound_of_vacant ((resolve_of_dir holds _).trans vacant),⟨t.nextIno,u,made',?_,?_,?_⟩,entries,listed,?_⟩
  · have other (n : Nat) : (n + 1) % 2^64 ≠ n := by omega
    rw [next]
    exact other s.nextIno
  · rw [resolve_of_dir holds',Maker.kept,if_neg nofun,get_insert,if_neg apart,get_insert,if_pos rfl]
  · rw [resolve_of_dir holds',get_insert,if_pos rfl]
  · refine (member a s.nextIno).mpr ⟨decode a,?_,(encode_decode_iff a).mpr valid⟩
    rw [get_insert,if_pos rfl]

theorem apart_free (found : s.dirs[parent]? = some dir) (kept : KeptApart maker host host' parent a b mode uid gid s) :
    dir[decode a]? = none ∧ decode b ≠ decode a ∧ (maker.kept parent dir s)[decode b]? = none := by
  obtain ⟨ino,t,made,_,⟨ino',u,made',_⟩,_⟩ := kept
  have absent : dir[decode a]? = none := by
    rw [← vacant_iff]
    by_contra taken
    obtain ⟨fault,failed⟩ := make_taken maker host mode uid gid found (Bool.not_eq_false _ ▸ taken)
    rw [made] at failed
    cases failed
  obtain ⟨t',again,holds,_⟩ := make_free maker host mode uid gid found absent
  rw [made] at again
  cases again
  have vacant : ((maker.kept parent dir s).insert (decode a) s.nextIno)[decode b]? = none := by
    rw [← vacant_iff]
    by_contra taken
    obtain ⟨fault,failed⟩ := make_taken .create host' mode uid gid holds (Bool.not_eq_false _ ▸ taken)
    rw [made'] at failed
    cases failed
  rw [get_insert] at vacant
  split at vacant
  next => cases vacant
  next apart => exact ⟨absent,fun same => apart same.symm,vacant⟩

theorem apart_utf8 (named : Named s) (found : s.dirs[parent]? = some dir) (filled : a ≠ [])
    (kept : KeptApart maker host host' parent a b mode uid gid s) : Utf8 a := by
  obtain ⟨absent,_⟩ := apart_free found kept
  obtain ⟨ino,t,made,_,_,entries,listed,member⟩ := kept
  have named' : Named t := by
    have kept := make_named maker host parent mode uid gid named filled
    rwa [made] at kept
  obtain ⟨t',again,holds,_⟩ := make_free maker host mode uid gid found absent
  rw [made] at again
  cases again
  obtain ⟨entries',listed',mem⟩ := readdir_lists named' holds
  rw [listed] at listed'
  cases listed'
  obtain ⟨name,_,same⟩ := (mem a s.nextIno).mp member
  exact ⟨name,same⟩

end Apart

/-- Entries made for `a` are kept apart from `b` exactly if `a` is UTF-8 and `b` decodes
neither to it nor to another name in the directory; two names in UTF-8 always are. -/
theorem names_apart_iff (now : SystemTime) (replicationFactor : Nat) (before : List (Host × Call))
    (filled : ∀ request ∈ before, NonEmptyName request.2) (maker : Maker) (host host' : Host) (parent : InodeId) (dir : Map String InodeId)
    (a b : Bytes) (mode uid gid : Nat) :
    let s := run before (new now replicationFactor)
    s.dirs[parent]? = some dir → a ≠ [] → (∀ name, dir.contains name = true → encode name ≠ a) →
      (KeptApart maker host host' parent a b mode uid gid s ↔
        Utf8 a ∧ decode b ≠ decode a ∧ (dir.contains (decode b) = true → maker = .mkdir ∧ s.nextIno = parent)) ∧
      (Utf8 a → Utf8 b → a ≠ b → (∀ name, dir.contains name = true → encode name ≠ b) →
        KeptApart maker host host' parent a b mode uid gid s) := by
  intro s found some_ absentA
  have named : Named s := run_named before _ (named_new now replicationFactor) filled
  have absent (bytes : Bytes) (valid : Utf8 bytes) (out : ∀ name, dir.contains name = true → encode name ≠ bytes) :
      dir[decode bytes]? = none := by
    rw [← vacant_iff]
    by_contra taken
    exact out (decode bytes) (Bool.not_eq_false _ ▸ taken) ((encode_decode_iff bytes).mpr valid)
  refine ⟨⟨?_,?_⟩,?_⟩
  · intro kept
    obtain ⟨_,apart,free⟩ := apart_free found kept
    refine ⟨apart_utf8 named found some_ kept,apart,?_⟩
    intro taken
    by_contra other
    rw [Maker.kept,if_neg other] at free
    rw [(vacant_iff dir (decode b)).mpr free] at taken
    cases taken
  · intro ⟨valid,apart,free⟩
    refine apart_of_free named found some_ valid (absent a valid absentA) apart ?_
    unfold Maker.kept
    split
    next => exact Std.ExtTreeMap.getElem?_empty
    next other =>
      rw [← vacant_iff]
      by_contra taken
      exact other (free (Bool.not_eq_false _ ▸ taken))
  · intro valid validB differ absentB
    refine apart_of_free named found some_ valid (absent a valid absentA) ?_ ?_
    · intro same
      exact differ (decode_injective validB valid same).symm
    · unfold Maker.kept
      split
      next => exact Std.ExtTreeMap.getElem?_empty
      next => exact absent b validB absentB

theorem names_apart_iff_letters : KeptApart .create .still .still ROOT [97] [98] 0o644 0 0 (new 0 1) := by
  have found : (run [] (new 0 1)).dirs[ROOT]? = some ∅ := by decide
  have absent (bytes : Bytes) (name : String) (taken : (∅ : Map String InodeId).contains name = true) : encode name ≠ bytes := by
    rw [Std.ExtTreeMap.contains_empty] at taken
    cases taken
  have filled : ∀ request ∈ ([] : List (Host × Call)), NonEmptyName request.2 := List.forall_mem_nil _
  obtain ⟨_,both⟩ := names_apart_iff 0 1 [] filled .create .still .still ROOT ∅ [97] [98] 0o644 0 0 found (List.cons_ne_nil _ _) (absent [97])
  exact both ⟨"a",by decide⟩ ⟨"b",by decide⟩ (by decide) (absent [98])

/-- A file is made under one byte that is not UTF-8 and unlinked under another. -/
theorem names_collide : ¬ KeptApart .create .still .still ROOT [0xFF] [0xFE] 0o644 0 0 (new 0 1) ∧
    errnoOf (Fuse.unlink ROOT [0xFE] (Maker.create.make .still ROOT [0xFF] 0o644 0 0 (new 0 1)).2).reply = none := by
  have found : (new 0 1).dirs[ROOT]? = some ∅ := by decide
  have same : decode [0xFE] = "\uFFFD" := by decide
  have same' : decode [0xFF] = "\uFFFD" := by decide
  constructor
  · intro kept
    obtain ⟨_,apart,_⟩ := apart_free found kept
    exact apart (same.trans same'.symm)
  · simp only [Fuse.unlink,Maker.make,Fuse.create,same,same']
    decide

end Dtmpfs
