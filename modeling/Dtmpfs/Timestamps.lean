import Dtmpfs.Attributes

/-! Times on their way through a `setattr` of the client: encoded, added up by the
metadata server, put on the wire and decoded. The sum fails at the top of `i64`. -/
namespace Dtmpfs
open MetaService MetaState OrderedMap

/-- `fuser::TimeOrNow`. -/
inductive TimeOrNow where
  | specificTime (t : SystemTime)
  | now

/-- The arguments of the callback `setattr` that reach the metadata server. -/
structure FuseSetattr where
  ino : InodeId
  mode : Option Nat
  uid : Option Nat
  gid : Option Nat
  size : Option Nat
  atime : Option TimeOrNow
  mtime : Option TimeOrNow

/-- The seconds and nanoseconds of one time in the request. -/
def encodeTime : Option TimeOrNow → Option Int × Option Nat
  | some (.specificTime t) => (some (timestamp t).1,some (timestamp t).2)
  | _ => (none,none)

def FuseSetattr.request (a : FuseSetattr) : SetAttrReq where
  ino := a.ino
  size := a.size
  mode := a.mode
  uid := a.uid
  gid := a.gid
  atimeS := (encodeTime a.atime).1
  atimeNs := (encodeTime a.atime).2
  mtimeS := (encodeTime a.mtime).1
  mtimeNs := (encodeTime a.mtime).2

/-- A requested time lies between the epoch and the last second an `i64` counts. -/
def Representable (requested : Option TimeOrNow) : Prop :=
  ∀ t, requested = some (.specificTime t) → 0 ≤ t ∧ t < 10^9 * 2^63

/-- What a reported time has to be after a `setattr` that began at `start`. -/
def TimeKept (start : SystemTime) (requested : Option TimeOrNow) (before after : SystemTime) : Prop :=
  match requested with
  | none => after = before
  | some (.specificTime t) => after = t
  | some .now => start ≤ after

/-- The times that a `getattr` of the client reports survive the `setattr`. -/
def TimesSurvive (host : Host) (start : SystemTime) (a : FuseSetattr) (s : MetaState) : Prop :=
  ∃ before after, getAttr a.ino s = .ok before ∧ getAttr a.ino (setAttr host a.request s).state = .ok after ∧
    TimeKept start a.atime (protoAttrToFuse before).atime (protoAttrToFuse after).atime ∧
    TimeKept start a.mtime (protoAttrToFuse before).mtime (protoAttrToFuse after).mtime

/-- The seconds, counted from 0 up, and the whole seconds in the nanoseconds do not fit an `i64`. -/
def OutOfRange (seconds : Int) (nanos : Nat) : Prop := 2^63 ≤ (max seconds 0).toNat + nanos / 10^9

/-- The request has a time, and it is out of range. -/
def TooLate (seconds : Option Int) (nanos : Option Nat) : Prop := ∃ s, seconds = some s ∧ OutOfRange s (nanos.getD 0)

section Conversions

theorem wireTime_timestamp (t : SystemTime) : wireTime (timestamp t).1 (timestamp t).2 = max t 0 := by
  have whole := Nat.div_add_mod t.toNat (10^9)
  rw [← Int.toNat_eq_max]
  simp only [wireTime,timestamp]
  exact_mod_cast whole

theorem reported_atime (inode : Inode) : (protoAttrToFuse (buildAttr inode)).atime = max inode.atime 0 := wireTime_timestamp inode.atime

theorem reported_mtime (inode : Inode) : (protoAttrToFuse (buildAttr inode)).mtime = max inode.mtime 0 := wireTime_timestamp inode.mtime

theorem epochPlus_none_iff (seconds : Int) (nanos : Nat) : epochPlus (max seconds 0).toNat nanos = none ↔ OutOfRange seconds nanos := by
  have carried : (10^9 * (max seconds 0).toNat + nanos) / 10^9 = (max seconds 0).toNat + nanos / 10^9 :=
    Nat.mul_add_div (by norm_num) _ _
  have fits : 10^9 * (max seconds 0).toNat + nanos < 10^9 * 2^63 ↔ (max seconds 0).toNat + nanos / 10^9 < 2^63 := by
    rw [← carried,Nat.div_lt_iff_lt_mul (by norm_num),Nat.mul_comm (2^63)]
  unfold epochPlus OutOfRange
  dsimp only
  rw [ite_eq_right_iff,← Nat.not_lt,← fits]
  constructor
  · intro none below
    cases none below
  · intro late below
    exact absurd below late

theorem requestedTime_none_iff (seconds : Option Int) (nanos : Option Nat) (old : SystemTime) :
    requestedTime seconds nanos old = none ↔ TooLate seconds nanos := by
  cases seconds with
  | none => exact ⟨nofun,fun late => nomatch late.choose_spec.1⟩
  | some s =>
    simp only [requestedTime,epochPlus_none_iff,TooLate,Option.some.injEq,exists_eq_left']

/-- The time stored for what `setattr` encodes. -/
theorem requestedTime_encoded {requested : Option TimeOrNow} (proper : Representable requested) (old : SystemTime) :
    requestedTime (encodeTime requested).1 (encodeTime requested).2 old =
      some (match requested with | some (.specificTime t) => t | _ => old) := by
  cases requested with
  | none => rfl
  | some time =>
    cases time with
    | now => rfl
    | specificTime t =>
      obtain ⟨late,early⟩ := proper t rfl
      simp only [encodeTime,requestedTime,Option.getD_some]
      rw [epochPlus_timestamp early,max_eq_left late]

end Conversions

section Handlers

variable {host : Host} {s : MetaState} {inode : Inode}

theorem setAttr_times {r : SetAttrReq} {atime mtime : SystemTime} (found : s.inodes[r.ino]? = some inode)
    (first : requestedTime r.atimeS r.atimeNs inode.atime = some atime)
    (second : requestedTime r.mtimeS r.mtimeNs inode.mtime = some mtime) :
    ∃ new, (setAttr host r s).state = s.putInode r.ino new ∧ new.atime = atime ∧ new.mtime = mtime := by
  unfold setAttr
  rw [found]
  dsimp only
  rw [first]
  dsimp only
  rw [second]
  refine ⟨_,rfl,?_,?_⟩ <;>
  · unfold resize
    split <;> rfl

theorem setAttr_panics_iff (host : Host) (r : SetAttrReq) (s : MetaState) : (setAttr host r s).reply = .error .panicked ↔
    (∃ inode, s.inodes[r.ino]? = some inode) ∧ (TooLate r.atimeS r.atimeNs ∨ TooLate r.mtimeS r.mtimeNs) := by
  unfold setAttr
  cases found : s.inodes[r.ino]? with
  | none => exact ⟨nofun,fun late => nomatch late.1.choose_spec⟩
  | some inode =>
    rw [← requestedTime_none_iff r.atimeS r.atimeNs inode.atime,← requestedTime_none_iff r.mtimeS r.mtimeNs inode.mtime]
    dsimp only
    cases requestedTime r.atimeS r.atimeNs inode.atime with
    | none => exact ⟨fun _ => ⟨⟨inode,rfl⟩,.inl rfl⟩,fun _ => rfl⟩
    | some atime =>
      cases requestedTime r.mtimeS r.mtimeNs inode.mtime with
      | none => exact ⟨fun _ => ⟨⟨inode,rfl⟩,.inr rfl⟩,fun _ => rfl⟩
      | some mtime =>
        refine ⟨nofun,fun late => ?_⟩
        rcases late.2 with never | never <;> cases never

/-- The request gets as far as the time computation of `close`. -/
def Publishes (r : CloseReq) (s : MetaState) : Prop :=
  r.writtenBlockIdxs ≠ [] ∧ ∃ handle inode, s.openHandles[r.fh]? = some handle ∧ s.inodes[handle.ino]? = some inode ∧
    inode.generation = r.expectedGeneration

theorem close_panics_iff (host : Host) (r : CloseReq) (s : MetaState) : (close host r s).reply = .error .panicked ↔
    Publishes r s ∧ OutOfRange r.mtimeS r.mtimeNs := by
  unfold close Publishes
  cases entry : s.openHandles[r.fh]? with
  | none => exact ⟨nofun,fun late => nomatch late.1.2.choose_spec.choose_spec.1⟩
  | some handle =>
    dsimp only
    cases found : s.inodes[handle.ino]? with
    | none =>
      refine ⟨nofun,fun late => ?_⟩
      obtain ⟨⟨_,_,_,same,present,_⟩,_⟩ := late
      cases same
      rw [found] at present
      cases present
    | some inode =>
      dsimp only
      split
      next unwritten => exact ⟨nofun,fun late => absurd (List.isEmpty_iff.mp unwritten) late.1.1⟩
      next written =>
        have some : r.writtenBlockIdxs ≠ [] := fun none => written (List.isEmpty_iff.mpr none)
        split
        next stale =>
          refine ⟨nofun,fun late => ?_⟩
          obtain ⟨⟨_,_,_,same,present,current⟩,_⟩ := late
          cases same
          cases found.symm.trans present
          exact absurd current stale
        next current =>
          rw [← epochPlus_none_iff]
          cases epochPlus (max r.mtimeS 0).toNat r.mtimeNs with
          | none => exact ⟨fun _ => ⟨⟨some,handle,inode,rfl,found,not_not.mp current⟩,rfl⟩,fun _ => rfl⟩
          | some requested => exact ⟨nofun,fun late => nomatch late.2⟩

end Handlers

theorem timeKept_iff (start : SystemTime) {requested : Option TimeOrNow} (old : SystemTime) (proper : Representable requested) :
    TimeKept start requested (max old 0) (max (match requested with | some (.specificTime t) => t | _ => old) 0) ↔
      (requested = some .now → start ≤ max old 0) := by
  cases requested with
  | none => exact iff_of_true rfl nofun
  | some time =>
    cases time with
    | now => exact ⟨fun late _ => late,fun late => late rfl⟩
    | specificTime t => exact iff_of_true (max_eq_left (proper t rfl).1) nofun

/-- Times survive a `setattr`, except that `Now` is not asked for: it leaves the time
as it was. -/
theorem times_survive_iff (host : Host) (start : SystemTime) (a : FuseSetattr) {s : MetaState} {inode : Inode}
    (found : s.inodes[a.ino]? = some inode) (first : Representable a.atime) (second : Representable a.mtime) :
    TimesSurvive host start a s ↔
      (a.atime = some .now → start ≤ max inode.atime 0) ∧ (a.mtime = some .now → start ≤ max inode.mtime 0) := by
  obtain ⟨new,state,atime,mtime⟩ := @setAttr_times host s inode a.request _ _ found (requestedTime_encoded first inode.atime)
    (requestedTime_encoded second inode.mtime)
  have before : getAttr a.ino s = .ok (buildAttr inode) := by rw [getAttr,found]
  have after : getAttr a.ino (setAttr host a.request s).state = .ok (buildAttr new) := by
    have stored : (setAttr host a.request s).state.inodes[a.ino]? = some new := by
      rw [state,putInode,get_insert]
      exact if_pos rfl
    rw [getAttr,stored]
  rw [← timeKept_iff start inode.atime first,← timeKept_iff start inode.mtime second,← atime,← mtime]
  simp only [← reported_atime,← reported_mtime]
  constructor
  · intro survive
    obtain ⟨old,now,reported,shown,times⟩ := survive
    rw [before] at reported
    rw [after] at shown
    cases reported
    cases shown
    exact times
  · intro times
    exact ⟨_,_,before,after,times⟩

/-- The file `f`, inode 2, created at the epoch. -/
def createdAtEpoch : MetaState := run [(Host.still,.create ⟨ROOT,"f",0,0,0⟩)] (new 0 1)

theorem createdAtEpoch_inode : createdAtEpoch.inodes[(2 : InodeId)]? = some (freshInode Host.still ⟨ROOT,"f",0,0,0⟩ .file 2) := rfl

theorem times_survive_iff_specific : TimesSurvive Host.still 1 ⟨2,none,none,none,none,some (.specificTime 1500000000),none⟩ createdAtEpoch := by
  refine (times_survive_iff Host.still 1 _ createdAtEpoch_inode ?_ ?_).mpr ⟨nofun,nofun⟩
  · intro t requested
    cases requested
    decide
  · intro t requested
    cases requested

/-- `touch` one nanosecond later: the time stays what it was. -/
theorem touch_forgotten : ¬ TimesSurvive Host.still 1 ⟨2,none,none,none,none,none,some .now⟩ createdAtEpoch := by
  intro survive
  obtain ⟨_,after,_,shown,_,kept⟩ := survive
  have reported : getAttr 2 (setAttr Host.still
      (FuseSetattr.request ⟨2,none,none,none,none,none,some .now⟩) createdAtEpoch).state = .ok after := shown
  have same : after.mtimeS = 0 ∧ after.mtimeNs = 0 := by
    cases reported
    exact ⟨rfl,rfl⟩
  have late : 1 ≤ wireTime after.mtimeS after.mtimeNs := kept
  rw [same.1,same.2] at late
  exact absurd late (by decide)

/-- The handlers answer every request whose times are in range, and no other that gets
as far as its times. -/
theorem times_total_iff (host : Host) (s : MetaState) :
    (∀ r : SetAttrReq, (setAttr host r s).reply ≠ .error .panicked ↔
      ((∃ inode, s.inodes[r.ino]? = some inode) → ¬ TooLate r.atimeS r.atimeNs ∧ ¬ TooLate r.mtimeS r.mtimeNs)) ∧
    ∀ r : CloseReq, (close host r s).reply ≠ .error .panicked ↔ (Publishes r s → ¬ OutOfRange r.mtimeS r.mtimeNs) := by
  refine ⟨?_,?_⟩
  · intro r
    rw [Ne,setAttr_panics_iff,not_and,not_or]
  · intro r
    rw [Ne,close_panics_iff,not_and]

/-- A `chmod` with a time of a second too many changes the mode and is never answered, and
a `Close` with it takes the handle away. -/
theorem late_times_abort :
    let r : SetAttrReq := ⟨2,none,some 0o600,none,none,none,none,some (2^63 - 1),some (10^9)⟩
    let c : CloseReq := ⟨1,2,0,0,2^63 - 1,10^9,[0]⟩
    (setAttr Host.still r createdAtEpoch).reply = .error .panicked ∧
      (setAttr Host.still r createdAtEpoch).state.inodes[(2 : InodeId)]?.map (·.mode) = some 0o600 ∧
      (close Host.still c createdAtEpoch).reply = .error .panicked ∧ createdAtEpoch.openHandles.contains 1 = true ∧
      (close Host.still c createdAtEpoch).state.openHandles.contains 1 = false := by
  refine ⟨?_,?_,?_,?_,?_⟩ <;> decide +kernel

end Dtmpfs
