import Dtmpfs.AttrCache

/-! How old the attributes can be that a client shows, with a clock, entries that live for
`attr_cache_ttl_ms`, answers that take their time, and any number of other clients. -/
namespace Dtmpfs
open MetaService MetaState OrderedMap

structure CachedAttr where
  attr : FileAttr
  fetched : Nat

/-- An answer on its way to the callback that waits for it. -/
structure AttrReply where
  ino : InodeId
  attr : FileAttr
  executed : Nat

/-- The client with the cache, in its cluster. The clock counts milliseconds. -/
structure Station where
  cluster : Cluster
  clock : Nat
  attrCache : Map InodeId CachedAttr
  awaited : Option AttrReply

inductive StationAct where
  | wait (ms : Nat)
  | ask (act : AttrAct)
  | receive
  | evict (ino : InodeId)
  | others (label : Label)

namespace Station

def new (now : SystemTime) (replicationFactor ramBudget : Nat) : Station :=
  ⟨.new now replicationFactor ramBudget,0,∅,none⟩

/-- The entries the cache still gives out. -/
def live (ttl : Nat) (v : Station) : Map InodeId FileAttr :=
  (v.attrCache.filter (fun _ entry => v.clock < entry.fetched + ttl)).map (fun _ entry => entry.attr)

def mount (ttl : Nat) (v : Station) : Mount := ⟨v.cluster,v.live ttl⟩

/-- The request of a callback is executed at the server, and later its answer is received.
The client serves one callback at a time, everybody else goes on. -/
def step (bs : Nat) (c : ClientId) (ttl : Nat) (act : StationAct) (v : Station) : Option Station :=
  match act with
  | .wait ms => some {v with clock := v.clock + ms}
  | .ask act =>
    match v.awaited,act with
    | none,.expire _ | none,.other _ | some _,_ => none
    | none,act => (Mount.serve bs c act v.cluster).map fun τ =>
        {v with cluster := τ, awaited := ((v.mount ttl).fill act).map fun (ino,attr) => ⟨ino,attr,v.clock⟩}
  | .receive => v.awaited.map fun reply =>
      {v with attrCache := v.attrCache.insert reply.ino ⟨reply.attr,v.clock⟩, awaited := none}
  | .evict ino => some {v with attrCache := v.attrCache.erase ino}
  | .others label =>
    if label.client = some c ∧ v.awaited.isSome then none
    else (Cluster.step bs label v.cluster).map fun τ => {v with cluster := τ}

/-- The attributes a callback replies with in this act. -/
def shown (ttl : Nat) (act : StationAct) (v : Station) : Option (InodeId × FileAttr) :=
  match act with
  | .ask (.getattr ino) => (v.live ttl)[ino]?.map fun attr => (ino,attr)
  | .receive => v.awaited.map fun reply => (reply.ino,reply.attr)
  | _ => none

/-- Answers take at most `delay`, and a `mkdir` draws another number than that of its parent. -/
def Prompt (delay : Nat) (act : StationAct) (v : Station) : Prop :=
  match act with
  | .receive => ∀ reply ∈ v.awaited, v.clock ≤ reply.executed + delay
  | .ask (.mkdir _ r) => v.cluster.metadata.nextIno ≠ r.parentIno
  | _ => True

end Station

namespace Mount

variable {bs : Nat} {c : ClientId} {m : Mount} {act : AttrAct} {τ : Cluster} {i : InodeId} {attr : FileAttr}

/-- What an act puts into the cache is what the server would answer right after it. -/
theorem fill_exact (stamped : m.cluster.metadata.Stamped)
    (drawn : ∀ host r, act = .mkdir host r → m.cluster.metadata.nextIno ≠ r.parentIno) (filled : m.fill act = some (i,attr))
    (served : serve bs c act m.cluster = some τ) : ∃ a, MetaService.getAttr i τ.metadata = .ok a ∧ attr = protoAttrToFuse a := by
  have told (inode : Inode) (found : τ.metadata.inodes[i]? = some inode) (same : attr = protoAttrToFuse (buildAttr inode)) :
      ∃ a, MetaService.getAttr i τ.metadata = .ok a ∧ attr = protoAttrToFuse a :=
    ⟨buildAttr inode,by simp only [MetaService.getAttr,found],same⟩
  cases act with
  | lookup parent name =>
    obtain ⟨a,answered,same⟩ := filled_ok filled
    cases idle_served served
    unfold MetaService.lookup at answered
    split at answered
    · cases answered
    next child named =>
      split at answered
      · cases answered
      next inode alive =>
        cases answered
        cases same
        have own : (buildAttr inode).ino = child := stamped child inode alive
        exact told inode (by rw [own]; exact alive) rfl
  | getattr ino =>
    simp only [fill] at filled
    split at filled
    · cases filled
    next =>
      obtain ⟨a,answered,same⟩ := filled_ok filled
      cases idle_served served
      cases same
      exact ⟨a,answered,rfl⟩
  | setattr host r =>
    obtain ⟨a,answered,same⟩ := filled_ok filled
    obtain ⟨_,rfl⟩ := Cluster.call_steps (idle_served served)
    cases same
    rcases setAttr_cases host r m.cluster.metadata with ⟨_,missing⟩ | ⟨_,after,_,_,_,state,⟨failed,_⟩ | ⟨reply,_⟩⟩
    · rw [missing] at answered
      cases answered
    · rw [failed] at answered
      cases answered
    · rw [reply] at answered
      cases answered
      exact told after (by simp only [MetaService.serve,state,putInode,get_insert,if_true]) rfl
  | create host r flags =>
    obtain ⟨a,answered,same⟩ := filled_ok filled
    rcases create_cases host r m.cluster.metadata with ⟨_,_,failed⟩ | ⟨_,_,_,made⟩
    · rw [failed] at answered
      cases answered
    · have stepped : Cluster.step bs (.create c host r flags) m.cluster = some τ := served
      have state := Cluster.step_metadata stepped
      rw [made] at answered
      cases answered
      cases same
      refine told (freshInode host r .file m.cluster.metadata.nextIno) ?_ rfl
      rw [state]
      simp only [Cluster.requested,Cluster.served,MetaService.serve,made,created,freshInode,buildAttr,get_insert,if_true]
  | mkdir host r =>
    obtain ⟨a,answered,same⟩ := filled_ok filled
    obtain ⟨_,rfl⟩ := Cluster.call_steps (idle_served served)
    rcases mkdir_cases host r m.cluster.metadata with ⟨_,_,failed⟩ | ⟨_,_,_,_,_,made⟩
    · rw [failed] at answered
      cases answered
    · rw [made] at answered
      cases answered
      cases same
      refine told (freshInode host r .dir m.cluster.metadata.nextIno) ?_ rfl
      have apart : r.parentIno ≠ m.cluster.metadata.nextIno := Ne.symm (drawn host r rfl)
      simp only [MetaService.serve,made,madeDir,editNlink]
      split
      next parent found => simp only [putInode,get_insert,apart,if_false,if_true,buildAttr,freshInode]
      next => simp only [get_insert,if_true,buildAttr,freshInode]
  | expire ino => cases filled
  | other label => cases filled

end Mount

namespace Station

/-- At some point of the run, at that time or later, the server would have answered so. -/
def Held (bs : Nat) (c : ClientId) (ttl : Nat) (start : Station) (seen : List StationAct) (time : Nat) (ino : InodeId) (attr : FileAttr) : Prop :=
  ∃ before after u a, seen = before ++ after ∧ Runs.run (step bs c ttl) before start = some u ∧ time ≤ u.clock ∧
    MetaService.getAttr ino u.cluster.metadata = .ok a ∧ attr = protoAttrToFuse a

variable {bs : Nat} {c : ClientId} {ttl delay : Nat} {start v w : Station} {seen : List StationAct} {time : Nat} {ino : InodeId} {attr : FileAttr}

theorem Held.later (held : Held bs c ttl start seen time ino attr) (act : StationAct) : Held bs c ttl start (seen ++ [act]) time ino attr := by
  obtain ⟨before,after,u,a,rfl,ran,recent,answered⟩ := held
  exact ⟨before,after ++ [act],u,a,List.append_assoc before after [act],ran,recent,answered⟩

theorem Held.since {earliest : Nat} (held : Held bs c ttl start seen time ino attr) (before : earliest ≤ time) :
    Held bs c ttl start seen earliest ino attr := by
  obtain ⟨first,after,u,a,split,ran,recent,answered⟩ := held
  exact ⟨first,after,u,a,split,ran,Nat.le_trans before recent,answered⟩

theorem Held.now {a : Attr} (ran : Runs.run (step bs c ttl) seen start = some v) (answered : MetaService.getAttr ino v.cluster.metadata = .ok a) :
    Held bs c ttl start seen v.clock ino (protoAttrToFuse a) :=
  ⟨seen,[],v,a,(List.append_nil seen).symm,ran,Nat.le_refl _,answered,rfl⟩

/-- What is cached and what is awaited goes back to what the server held not too long ago. -/
structure Backed (bs : Nat) (c : ClientId) (ttl delay : Nat) (start : Station) (seen : List StationAct) (v : Station) : Prop where
  stamped : v.cluster.metadata.Stamped
  cached : ∀ (ino : InodeId) (entry : CachedAttr), v.attrCache[ino]? = some entry →
    Held bs c ttl start seen (entry.fetched - delay) ino entry.attr
  awaited : ∀ reply, v.awaited = some reply → Held bs c ttl start seen reply.executed reply.ino reply.attr

theorem backed_new (now : SystemTime) (replicationFactor ramBudget : Nat) :
    Backed bs c ttl delay start [] (new now replicationFactor ramBudget) := by
  constructor
  · exact (sound_new now replicationFactor).stamped
  · intro ino entry found
    simp [new] at found
  · intro reply none
    cases none

theorem step_stamped {act : StationAct} (stamped : v.cluster.metadata.Stamped) (stepped : step bs c ttl act v = some w) :
    w.cluster.metadata.Stamped := by
  cases act with
  | wait ms =>
    cases stepped
    exact stamped
  | receive =>
    obtain ⟨reply,_,rfl⟩ := Option.map_eq_some_iff.mp stepped
    exact stamped
  | evict ino =>
    cases stepped
    exact stamped
  | ask act =>
    simp only [step] at stepped
    split at stepped
    · cases stepped
    · cases stepped
    · cases stepped
    next =>
      obtain ⟨τ,served,rfl⟩ := Option.map_eq_some_iff.mp stepped
      exact @Mount.serve_keeps_stamps _ _ (v.mount ttl) _ _ stamped served
  | others label =>
    simp only [step] at stepped
    split at stepped
    · cases stepped
    next =>
      obtain ⟨τ,moved,rfl⟩ := Option.map_eq_some_iff.mp stepped
      rw [Cluster.step_metadata moved]
      cases Cluster.requested label v.cluster with
      | none => exact stamped
      | some request => exact serve_stamped stamped request.1 request.2

theorem backed_step {act : StationAct} (ran : Runs.run (step bs c ttl) seen start = some v) (backed : Backed bs c ttl delay start seen v)
    (prompt : Prompt delay act v) (stepped : step bs c ttl act v = some w) : Backed bs c ttl delay start (seen ++ [act]) w := by
  have reached : Runs.run (step bs c ttl) (seen ++ [act]) start = some w := by
    rw [Runs.run_append,ran,Option.bind_some,Runs.run,stepped]
    rfl
  have cached (ino : InodeId) (entry : CachedAttr) (found : v.attrCache[ino]? = some entry) :
      Held bs c ttl start (seen ++ [act]) (entry.fetched - delay) ino entry.attr := (backed.cached ino entry found).later act
  have awaited (reply : AttrReply) (waiting : v.awaited = some reply) :
      Held bs c ttl start (seen ++ [act]) reply.executed reply.ino reply.attr := (backed.awaited reply waiting).later act
  have stamped := step_stamped backed.stamped stepped
  cases act with
  | wait ms =>
    cases stepped
    exact ⟨stamped,cached,awaited⟩
  | evict gone =>
    cases stepped
    refine ⟨stamped,?_,awaited⟩
    intro ino entry found
    simp only [get_erase] at found
    split at found
    · cases found
    · exact cached ino entry found
  | others label =>
    simp only [step] at stepped
    split at stepped
    · cases stepped
    next =>
      obtain ⟨τ,_,rfl⟩ := Option.map_eq_some_iff.mp stepped
      exact ⟨stamped,cached,awaited⟩
  | receive =>
    obtain ⟨reply,waiting,rfl⟩ := Option.map_eq_some_iff.mp stepped
    refine ⟨stamped,?_,?_⟩
    · intro ino entry found
      rcases insert_some found with ⟨rfl,rfl⟩ | ⟨_,old⟩
      · have soon : v.clock ≤ reply.executed + delay := prompt reply waiting
        exact (awaited reply waiting).since (Nat.sub_le_of_le_add soon)
      · exact cached ino entry old
    · intro other none
      cases none
  | ask act =>
    simp only [step] at stepped
    split at stepped
    · cases stepped
    · cases stepped
    · cases stepped
    next =>
      obtain ⟨τ,served,rfl⟩ := Option.map_eq_some_iff.mp stepped
      refine ⟨stamped,cached,?_⟩
      intro reply waiting
      obtain ⟨⟨ino,attr⟩,filled,rfl⟩ := Option.map_eq_some_iff.mp waiting
      obtain ⟨a,answered,rfl⟩ := @Mount.fill_exact _ _ (v.mount ttl) _ _ _ _ backed.stamped (fun host r same => by subst same; exact prompt) filled served
      have held := Held.now reached answered
      exact held

/-- Staleness is bounded: whatever attributes a callback shows, the server would have
answered a `GetAttr` with them at some point of the run, no longer ago than an entry
lives and an answer takes. -/
theorem bounded_staleness (bs : Nat) (c : ClientId) (ttl delay : Nat) (now : SystemTime) (replicationFactor ramBudget : Nat)
    (acts : List StationAct) (prompt : Runs.Each (step bs c ttl) (Prompt delay) acts (new now replicationFactor ramBudget)) :
    ∀ before act after v, acts = before ++ act::after → Runs.run (step bs c ttl) before (new now replicationFactor ramBudget) = some v →
      ∀ ino attr, shown ttl act v = some (ino,attr) → ∃ earlier later u a, before = earlier ++ later ∧
        Runs.run (step bs c ttl) earlier (new now replicationFactor ramBudget) = some u ∧ v.clock ≤ u.clock + ttl + delay ∧
        MetaService.getAttr ino u.cluster.metadata = .ok a ∧ attr = protoAttrToFuse a := by
  intro before act after v split ran ino attr shows
  have sooner : Runs.Each (step bs c ttl) (Prompt delay) before (new now replicationFactor ramBudget) := by
    intro first next rest u parts there
    exact prompt first next (rest ++ act::after) u (by rw [split,parts]; simp) there
  have backed : Backed bs c ttl delay (new now replicationFactor ramBudget) before v :=
    Runs.run_histories (backed_new now replicationFactor ramBudget)
      (fun seen act s t there backed prompt stepped => backed_step there backed prompt stepped) before sooner ran
  have held : Held bs c ttl (new now replicationFactor ramBudget) before (v.clock - (ttl + delay)) ino attr := by
    cases act with
    | ask act =>
      cases act with
      | getattr asked =>
        obtain ⟨other,found,same⟩ := Option.map_eq_some_iff.mp shows
        cases same
        simp only [live,Std.ExtTreeMap.getElem?_map,Option.map_eq_some_iff] at found
        obtain ⟨entry,found,rfl⟩ := found
        rw [get_filter,Option.filter_eq_some_iff,decide_eq_true_iff] at found
        exact (backed.cached ino entry found.1).since (by omega)
      | _ => cases shows
    | receive =>
      obtain ⟨reply,waiting,same⟩ := Option.map_eq_some_iff.mp shows
      cases same
      have soon : v.clock ≤ reply.executed + delay := prompt before .receive after v split ran reply waiting
      exact (backed.awaited reply waiting).since (by omega)
    | _ => cases shows
  obtain ⟨earlier,later,u,a,parts,there,recent,answered⟩ := held
  exact ⟨earlier,later,u,a,parts,there,by omega,answered⟩

/-- Client 0 makes a file, and somebody else resizes it. -/
def resizedBehind : List StationAct :=
  [.ask (.create Host.still ⟨ROOT,"f",0,0,0⟩ 0),.wait 3,.receive,
    .others (.call Host.still (.setAttr ⟨2,some 9,none,none,none,none,none,none,none⟩)),.wait 7]

/-- Client 0 is shown the old size, which the server has held ten milliseconds before. -/
theorem bounded_staleness_resized : ∃ v, Runs.run (step 1 0 9) resizedBehind (new 0 1 64) = some v ∧
    (shown 9 (.ask (.getattr 2)) v).map (fun pair => (pair.1,pair.2.size)) = some (2,0) ∧
    (MetaService.getAttr 2 v.cluster.metadata).toOption.map (·.size) = some 9 ∧
    ∀ ino attr, shown 9 (.ask (.getattr 2)) v = some (ino,attr) → ∃ earlier later u a, resizedBehind = earlier ++ later ∧
      Runs.run (step 1 0 9) earlier (new 0 1 64) = some u ∧ v.clock ≤ u.clock + 9 + 3 ∧
      MetaService.getAttr ino u.cluster.metadata = .ok a ∧ attr = protoAttrToFuse a := by
  have prompt : Runs.Each (step 1 0 9) (Prompt 3) (resizedBehind ++ [.ask (.getattr 2)]) (new 0 1 64) := by
    refine (Runs.each_cons rfl _).mpr ⟨trivial,?_⟩
    refine (Runs.each_cons rfl _).mpr ⟨trivial,?_⟩
    refine (Runs.each_cons rfl _).mpr ⟨?_,?_⟩
    · intro reply waiting
      cases waiting
      decide
    refine (Runs.each_cons rfl _).mpr ⟨trivial,?_⟩
    refine (Runs.each_cons rfl _).mpr ⟨trivial,?_⟩
    exact (Runs.each_cons rfl _).mpr ⟨trivial,Runs.each_nil _⟩
  refine ⟨_,rfl,by decide +kernel,by decide +kernel,?_⟩
  exact bounded_staleness 1 0 9 3 0 1 64 _ prompt resizedBehind (.ask (.getattr 2)) [] _ rfl rfl

end Station

end Dtmpfs
