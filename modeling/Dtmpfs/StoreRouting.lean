import Dtmpfs.Allocation
import Dtmpfs.Semantics.Runs

/-! How a client finds its stores, `StoreClientPool` of `dtmpfs-client::client`: the
addresses it was last told and the channels it has opened. The metadata server may list
a node elsewhere in the meantime. -/
namespace Dtmpfs
open MetaService MetaState OrderedMap

/-- What the network makes of a request: which addresses can be connected to, and what
comes back over a channel to an address. -/
structure Network where
  connects : String → Bool
  read : String → Except Status Bytes
  write : String → Except Status Unit

/-- A channel is known by the address it was opened to. -/
structure StoreClientPool where
  clients : Map NodeId String
  addrs : Map NodeId String

def uri (addr : String) : String := "http://" ++ addr

/-- The address map both callers collect from a reply to `list_nodes`. -/
def addrMap (nodes : List NodeInfo) : Map NodeId String := nodes.foldl (fun addrs n => addrs.insert n.nodeId (uri n.addr)) ∅

namespace StoreClientPool

def new : StoreClientPool := ⟨∅,∅⟩

def get (net : Network) (id : NodeId) (pool : StoreClientPool) : Except DtmpfsError String × StoreClientPool :=
  match pool.clients[id]? with
  | some channel => (.ok channel,pool)
  | none =>
    match pool.addrs[id]? with
    | none => (.error (.storeUnavailable id),pool)
    | some addr =>
      if net.connects addr then (.ok addr,{pool with clients := pool.clients.insert id addr})
      else (.error (.storeUnavailable id),pool)

def refreshAddrs (addrs : Map NodeId String) (pool : StoreClientPool) : StoreClientPool := {pool with addrs := addrs}

def evict (id : NodeId) (pool : StoreClientPool) : StoreClientPool := {pool with clients := pool.clients.erase id}

/-- `fetch_block` asks for addresses when it knows none, and goes on without if the
request fails. -/
def lazyRefresh (listing : Option (List NodeInfo)) (pool : StoreClientPool) : StoreClientPool :=
  if pool.addrs.isEmpty then
    match listing with
    | some nodes => pool.refreshAddrs (addrMap nodes)
    | none => pool
  else pool

/-- One round of the replica loop of `fetch_block`. -/
def readBlock (net : Network) (node : NodeId) (pool : StoreClientPool) : NodeAnswer × StoreClientPool :=
  match pool.get net node with
  | (.error _,pool) => (.noClient,pool)
  | (.ok channel,pool) =>
    match net.read channel with
    | .ok bytes => (.data bytes,pool)
    | .error status => if status.code = .notFound then (.notFound,pool) else (.failed,pool.evict node)

/-- `write_one` of `publish`. -/
def writeOne (net : Network) (node : NodeId) (pool : StoreClientPool) : Except DtmpfsError Unit × StoreClientPool :=
  match pool.get net node with
  | (.error e,pool) => (.error e,pool)
  | (.ok channel,pool) =>
    match net.write channel with
    | .ok () => (.ok (),pool)
    | .error status => (.error (.fromStatus status (some node)),pool)

/-- The address a request to the node goes to, if it goes anywhere. -/
def contacted (net : Network) (node : NodeId) (pool : StoreClientPool) : Option String := (pool.get net node).1.toOption

end StoreClientPool

/-- Where the metadata server has a node, up or not. -/
def MetaState.address (s : MetaState) (n : NodeId) : Option String := s.nodes[n]?.map fun info => uri info.addr

/-- Where `list_nodes` says a node is up. -/
def MetaState.upAt (s : MetaState) (n : NodeId) : Option String :=
  (s.nodes[n]?.filter fun info => info.status = .up).map fun info => uri info.addr

/-- What goes on: heartbeats and ticks of the watcher at the metadata server; the
beginning of a `fetch_block` and the rounds of its loop; the beginning of a `publish` and
its `write_one`s, those of spawned tasks among them. -/
inductive RouteAct where
  | heartbeat (host : Host) (instant : Nat) (r : HeartbeatReq)
  | tick (now deadAfter : Nat)
  | beginFetch (host : Host) (delivered : Bool)
  | read (node : NodeId) (net : Network)
  | beginPublish (host : Host)
  | write (node : NodeId) (net : Network)

/-- The pool of a client and the metadata server. Beside them: the nodes whose channel
and those whose entry in the address map are of the time before their address changed,
and the nodes that this publish, and that an earlier one, has missed where they are. -/
structure Routing where
  metadata : MetaState
  pool : StoreClientPool
  moved : List NodeId
  dated : List NodeId
  missing : List NodeId
  missed : List NodeId

namespace Routing

def new (now : SystemTime) (replicationFactor : Nat) : Routing := ⟨.new now replicationFactor,.new,[],[],[],[]⟩

/-- The membership changes. A node at a new address may be missed once more. -/
def member (t : MetaState) (w : Routing) : Routing :=
  let changed := t.nodes.keys.filter fun n => w.metadata.address n ≠ t.address n
  { metadata := t
    pool := w.pool
    moved := changed ++ w.moved
    dated := changed ++ w.dated
    missing := w.missing.filter (· ∉ changed)
    missed := w.missed.filter (· ∉ changed) }

/-- The nodes an address map that comes in now lacks. -/
def unlisted (w : Routing) : List NodeId := w.metadata.nodes.keys.filter fun n => w.metadata.upAt n = none

/-- A channel opened now is as old as the address map. -/
def asked (net : Network) (n : NodeId) (w : Routing) : List NodeId :=
  if w.pool.clients[n]? = none ∧ (w.pool.contacted net n).isSome then
    if n ∈ w.dated then n::w.moved else w.moved.filter (· ≠ n)
  else w.moved

/-- The node is up somewhere it can be reached, and a request to it goes elsewhere. -/
def misses (net : Network) (n : NodeId) (w : Routing) : Bool :=
  match w.metadata.upAt n with
  | some addr => net.connects addr && w.pool.contacted net n ≠ some addr
  | none => false

def step (act : RouteAct) (w : Routing) : Option Routing :=
  match act with
  | .heartbeat host instant r => some (w.member (heartbeatNode host instant r w.metadata).2)
  | .tick now deadAfter => some (w.member (w.metadata.watcherTick now deadAfter))
  | .beginFetch host delivered => some {w with
      pool := w.pool.lazyRefresh (if delivered then some (listNodes host w.metadata) else none)
      dated := if w.pool.addrs.isEmpty && delivered then w.unlisted else w.dated}
  | .read n net => some {w with pool := (w.pool.readBlock net n).2, moved := w.asked net n}
  | .beginPublish host => some {w with
      pool := w.pool.refreshAddrs (addrMap (listNodes host w.metadata))
      dated := w.unlisted
      missing := []
      missed := w.missing ++ w.missed}
  | .write n net => some {w with
      pool := (w.pool.writeOne net n).2
      moved := w.asked net n
      missing := if w.misses net n then n::w.missing else w.missing.filter (· ≠ n)
      missed := if w.misses net n then w.missed else w.missed.filter (· ≠ n)}

/-- What the client goes by for a node, the channel or else the address map, is of the
time since the node's address last changed. -/
def Current (n : NodeId) (w : Routing) : Prop :=
  match w.pool.clients[n]? with
  | some _ => n ∉ w.moved
  | none => n ∉ w.dated

end Routing

/-- A read of a node that is up and reachable goes to where it is, and so does a write,
unless it is the first publish that misses the node. -/
def RoutesCurrent (act : RouteAct) (w : Routing) : Prop :=
  match act with
  | .read n net => w.misses net n = false
  | .write n net => w.misses net n = false ∨ n ∉ w.missed
  | _ => True

/-- Reads, and writes to nodes that a publish has missed before, go by what is of the
time since the node's address last changed. -/
def NotPredated (act : RouteAct) (w : Routing) : Prop :=
  match act with
  | .read n _ => w.Current n
  | .write n _ => n ∈ w.missed → w.Current n
  | _ => True

namespace StoreClientPool

variable {net : Network} {n : NodeId} {pool : StoreClientPool}

theorem get_cases (net : Network) (n : NodeId) (pool : StoreClientPool) :
    (∃ channel, pool.clients[n]? = some channel ∧ pool.get net n = (.ok channel,pool)) ∨
    (pool.clients[n]? = none ∧ pool.get net n = (.error (.storeUnavailable n),pool)) ∨
    ∃ addr, pool.clients[n]? = none ∧ pool.addrs[n]? = some addr ∧ net.connects addr = true ∧
      pool.get net n = (.ok addr,{pool with clients := pool.clients.insert n addr}) := by
  unfold get
  cases cached : pool.clients[n]? with
  | some channel => exact .inl ⟨channel,rfl,rfl⟩
  | none =>
    dsimp only
    cases known : pool.addrs[n]? with
    | none => exact .inr (.inl ⟨rfl,rfl⟩)
    | some addr =>
      dsimp only
      split
      next connected => exact .inr (.inr ⟨addr,rfl,rfl,connected,rfl⟩)
      next => exact .inr (.inl ⟨rfl,rfl⟩)

theorem get_addrs (net : Network) (n : NodeId) (pool : StoreClientPool) : (pool.get net n).2.addrs = pool.addrs := by
  rcases get_cases net n pool with ⟨_,_,same⟩ | ⟨_,same⟩ | ⟨_,_,_,_,same⟩
  · rw [same]
  · rw [same]
  · rw [same]

theorem get_other {m : NodeId} (other : n ≠ m) : (pool.get net n).2.clients[m]? = pool.clients[m]? := by
  rcases get_cases net n pool with ⟨_,_,same⟩ | ⟨_,same⟩ | ⟨_,_,_,_,same⟩
  · rw [same]
  · rw [same]
  · rw [same]
    simp only [get_insert,if_neg other]

/-- A round of the loop leaves the channel it used, or none after an error. -/
theorem readBlock_pool (net : Network) (n : NodeId) (pool : StoreClientPool) :
    (pool.readBlock net n).2 = (pool.get net n).2 ∨ (pool.readBlock net n).2 = (pool.get net n).2.evict n := by
  unfold readBlock
  split
  next same =>
    rw [same]
    exact .inl rfl
  next same =>
    rw [same]
    split
    · exact .inl rfl
    · split
      · exact .inl rfl
      · exact .inr rfl

theorem readBlock_addrs (net : Network) (n : NodeId) (pool : StoreClientPool) : (pool.readBlock net n).2.addrs = pool.addrs := by
  rcases readBlock_pool net n pool with same | same
  · rw [same,get_addrs]
  · rw [same]
    exact get_addrs net n pool

theorem readBlock_clients {m : NodeId} (other : n ≠ m) : (pool.readBlock net n).2.clients[m]? = pool.clients[m]? := by
  rcases readBlock_pool net n pool with same | same
  · rw [same,get_other other]
  · rw [same]
    simp only [evict,get_erase,if_neg other]
    exact get_other other

theorem writeOne_pool (net : Network) (n : NodeId) (pool : StoreClientPool) : (pool.writeOne net n).2 = (pool.get net n).2 := by
  unfold writeOne
  split
  next same => rw [same]
  next same =>
    rw [same]
    split
    · rfl
    · rfl

end StoreClientPool

/-- A map collected from a list in which a node has one address. -/
theorem addrMap_get {n : NodeId} {addr : String} (nodes : List NodeInfo) (acc : Map NodeId String)
    (only : ∀ info ∈ nodes, info.nodeId = n → uri info.addr = addr)
    (known : acc[n]? = some addr ∨ ∃ info ∈ nodes, info.nodeId = n) :
    (nodes.foldl (fun addrs info => addrs.insert info.nodeId (uri info.addr)) acc)[n]? = some addr := by
  induction nodes generalizing acc with
  | nil =>
    rcases known with known | ⟨_,member,_⟩
    · exact known
    · cases member
  | cons info rest ih =>
    refine ih _ (fun other member => only other (List.mem_cons_of_mem _ member)) ?_
    rw [get_insert]
    by_cases mine : info.nodeId = n
    · rw [if_pos mine]
      exact .inl (congrArg some (only info List.mem_cons_self mine))
    · rw [if_neg mine]
      rcases known with known | ⟨other,member,named⟩
      · exact .inl known
      · rcases List.mem_cons.mp member with same | later
        · exact absurd (same ▸ named) mine
        · exact .inr ⟨other,later,named⟩

theorem addrMap_upAt (host : Host) {s : MetaState} (filed : Filed s) {n : NodeId} {addr : String} (up : s.upAt n = some addr) :
    (addrMap (listNodes host s))[n]? = some addr := by
  obtain ⟨info,kept,at_⟩ := Option.map_eq_some_iff.mp up
  obtain ⟨found,live⟩ := Option.filter_eq_some_iff.mp kept
  have mine : info.nodeId = n := filed n info found
  refine addrMap_get (listNodes host s) ∅ ?_ (.inr ⟨info,?_,mine⟩)
  · intro other listed named
    obtain ⟨stored,_⟩ := (mem_listNodes host filed other).mp listed
    rw [named,found] at stored
    cases stored
    exact at_
  · rw [mem_listNodes host filed,mine]
    exact ⟨found,of_decide_eq_true live⟩

theorem upAt_address {s : MetaState} {n : NodeId} {addr : String} (up : s.upAt n = some addr) : s.address n = some addr := by
  obtain ⟨info,kept,at_⟩ := Option.map_eq_some_iff.mp up
  obtain ⟨found,_⟩ := Option.filter_eq_some_iff.mp kept
  unfold MetaState.address
  rw [found,← at_]
  rfl

theorem address_keys {s : MetaState} {n : NodeId} {addr : String} (at_ : s.address n = some addr) : n ∈ s.nodes.keys := by
  obtain ⟨info,found,_⟩ := Option.map_eq_some_iff.mp at_
  rw [Std.ExtTreeMap.mem_keys,Std.ExtTreeMap.mem_iff_isSome_getElem?,found]
  rfl

/-- Channels and address map agree with the metadata server where nothing has changed since. -/
structure Routing.Sound (w : Routing) : Prop where
  filed : Filed w.metadata
  channels : ∀ (n : NodeId) (channel addr : String), w.pool.clients[n]? = some channel → n ∉ w.moved →
    w.metadata.address n = some addr → channel = addr
  addrs : ∀ (n : NodeId) (addr : String), n ∉ w.dated → w.metadata.address n = some addr → w.pool.addrs[n]? = some addr

namespace Routing.Sound

variable {w : Routing} {n : NodeId} {net : Network}

theorem member {t : MetaState} (sound : w.Sound) (filed : Filed t) : (w.member t).Sound := by
  have unchanged {n : NodeId} {addr : String} {others : List NodeId}
      (old : n ∉ (t.nodes.keys.filter fun n => w.metadata.address n ≠ t.address n) ++ others) (at_ : t.address n = some addr) :
      n ∉ others ∧ w.metadata.address n = some addr := by
    rw [List.mem_append,not_or] at old
    refine ⟨old.2,?_⟩
    by_contra moved
    exact old.1 (List.mem_filter.mpr ⟨address_keys at_,decide_eq_true (fun same => moved (same.trans at_))⟩)
  refine ⟨filed,?_,?_⟩
  · intro n channel addr opened old at_
    obtain ⟨old,at_⟩ := unchanged old at_
    exact sound.channels n channel addr opened old at_
  · intro n addr old at_
    obtain ⟨old,at_⟩ := unchanged old at_
    exact sound.addrs n addr old at_

/-- A map that has come in has every node but the unlisted ones. -/
theorem listed (host : Host) (filed : Filed w.metadata) {addr : String} (old : n ∉ w.unlisted) (at_ : w.metadata.address n = some addr) :
    (addrMap (listNodes host w.metadata))[n]? = some addr := by
  cases up : w.metadata.upAt n with
  | none => exact absurd (List.mem_filter.mpr ⟨address_keys at_,decide_eq_true up⟩) old
  | some addr' =>
    have same := upAt_address up
    rw [at_] at same
    cases same
    exact addrMap_upAt host filed up

/-- After a request to node `n` its channel is as old as it says. -/
theorem asked {pool : StoreClientPool} {missing missed : List NodeId} (sound : w.Sound)
    (opened : ∀ (m : NodeId) (channel : String), pool.clients[m]? = some channel → (w.pool.get net n).2.clients[m]? = some channel)
    (told : pool.addrs = w.pool.addrs) :
    Routing.Sound ⟨w.metadata,pool,w.asked net n,w.dated,missing,missed⟩ := by
  refine ⟨sound.filed,?_,?_⟩
  · intro m channel addr cached old at_
    have got := opened m channel cached
    by_cases mine : n = m
    · subst mine
      rcases StoreClientPool.get_cases net n w.pool with ⟨before,there,same⟩ | ⟨absent,same⟩ | ⟨addr',absent,known,_,same⟩
      · have kept : n ∉ w.moved := by
          simpa only [Routing.asked,there,reduceCtorEq,false_and,if_false] using old
        rw [same] at got
        exact sound.channels n channel addr got kept at_
      · rw [same,absent] at got
        cases got
      · have fresh : n ∉ w.dated := by
          intro dated
          apply old
          simp only [Routing.asked,absent,StoreClientPool.contacted,same,Except.toOption,Option.isSome_some,and_self,if_true,if_pos dated]
          exact List.mem_cons_self
        rw [same] at got
        simp only [get_insert,if_true] at got
        cases got
        rw [sound.addrs n addr fresh at_] at known
        exact (Option.some.inj known).symm
    · rw [StoreClientPool.get_other mine] at got
      refine sound.channels m channel addr got ?_ at_
      intro moved
      apply old
      unfold Routing.asked
      split
      · split
        · exact List.mem_cons_of_mem _ moved
        · exact List.mem_filter.mpr ⟨moved,decide_eq_true (fun same => mine same.symm)⟩
      · exact moved
  · intro m addr old at_
    rw [told]
    exact sound.addrs m addr old at_

theorem step {act : RouteAct} {v : Routing} (sound : w.Sound) (stepped : w.step act = some v) : v.Sound := by
  cases act with
  | heartbeat host instant r =>
    cases stepped
    exact sound.member ((heartbeatNode_nodes host instant r w.metadata).filed sound.filed)
  | tick now deadAfter =>
    cases stepped
    exact sound.member ((watcherTick_nodes now deadAfter w.metadata).filed sound.filed)
  | beginFetch host delivered =>
    cases stepped
    unfold StoreClientPool.lazyRefresh
    cases empty : w.pool.addrs.isEmpty with
    | false => exact sound
    | true =>
      cases delivered with
      | false => exact sound
      | true =>
        refine ⟨sound.filed,sound.channels,?_⟩
        intro n addr old at_
        exact listed host sound.filed old at_
  | read n net =>
    cases stepped
    refine sound.asked ?_ ?_
    · intro m channel cached
      rcases StoreClientPool.readBlock_pool net n w.pool with same | same
      · rwa [same] at cached
      · rw [same] at cached
        simp only [StoreClientPool.evict,get_erase] at cached
        split at cached
        · cases cached
        · exact cached
    · exact StoreClientPool.readBlock_addrs net n w.pool
  | beginPublish host =>
    cases stepped
    refine ⟨sound.filed,sound.channels,?_⟩
    intro n addr old at_
    exact listed host sound.filed old at_
  | write n net =>
    cases stepped
    refine sound.asked ?_ ?_
    · intro m channel cached
      rwa [StoreClientPool.writeOne_pool] at cached
    · rw [StoreClientPool.writeOne_pool]
      exact StoreClientPool.get_addrs net n w.pool

/-- What is not older than the last change leads to the node. -/
theorem contacts (sound : w.Sound) (current : w.Current n) (net : Network) : w.misses net n = false := by
  unfold Routing.misses
  cases up : w.metadata.upAt n with
  | none => rfl
  | some addr =>
    have at_ := upAt_address up
    dsimp only
    cases connects : net.connects addr with
    | false => rfl
    | true =>
      have reached : w.pool.contacted net n = some addr := by
        unfold Routing.Current at current
        rcases StoreClientPool.get_cases net n w.pool with ⟨channel,there,same⟩ | ⟨absent,same⟩ | ⟨addr',absent,known,_,same⟩
        · rw [there] at current
          rw [StoreClientPool.contacted,same,← sound.channels n channel addr there current at_]
          rfl
        · rw [absent] at current
          have known := sound.addrs n addr current at_
          simp only [StoreClientPool.contacted,StoreClientPool.get,absent,known,connects,if_true]
          rfl
        · rw [absent] at current
          rw [sound.addrs n addr current at_] at known
          cases known
          rw [StoreClientPool.contacted,same]
          rfl
      simp only [reached,ne_eq,not_true_eq_false,decide_false,Bool.and_false]

end Routing.Sound

/-- In every history in which reads, and publishes after one that missed a node, go by
nothing older than the node's last change of address, they go to where the node is. -/
theorem routes_current (now : SystemTime) (replicationFactor : Nat) (acts : List RouteAct)
    (current : Runs.Each Routing.step NotPredated acts (.new now replicationFactor)) :
    Runs.Each Routing.step RoutesCurrent acts (.new now replicationFactor) := by
  have start : (Routing.new now replicationFactor).Sound := by
    refine ⟨?_,?_,?_⟩
    · intro id info found
      simp [Routing.new,MetaState.new] at found
    · intro n channel addr opened
      simp [Routing.new,StoreClientPool.new] at opened
    · intro n addr _ at_
      simp [Routing.new,MetaState.new,MetaState.address] at at_
  refine Runs.each_of_inv (fun act w v sound stepped => sound.step stepped) ?_ acts start current
  intro act w sound met
  cases act with
  | read n net => exact sound.contacts met net
  | write n net =>
    by_cases before : n ∈ w.missed
    · exact .inl (sound.contacts (met before) net)
    · exact .inr before
  | _ => trivial

/-- A network in which only `addr` can be reached. -/
def Network.only (addr : String) : Network where
  connects other := other = addr
  read other := if other = addr then .ok [7] else .error ⟨.unavailable,""⟩
  write other := if other = addr then .ok () else .error ⟨.unavailable,""⟩

theorem routes_current_read : ∃ w, Runs.run Routing.step [.heartbeat Host.still 0 ⟨"n","a",0,0,0⟩,.beginFetch Host.still true] (.new 0 1) = some w ∧
    w.metadata.upAt "n" = some "http://a" ∧ RoutesCurrent (.read "n" (.only "http://a")) w := by
  have current : Runs.Each Routing.step NotPredated [.heartbeat Host.still 0 ⟨"n","a",0,0,0⟩,.beginFetch Host.still true,
      .read "n" (.only "http://a")] (.new 0 1) := by
    refine (Runs.each_cons rfl _).mpr ⟨trivial,?_⟩
    refine (Runs.each_cons rfl _).mpr ⟨trivial,?_⟩
    refine (Runs.each_cons rfl _).mpr ⟨?_,Runs.each_nil _⟩
    exact List.not_mem_nil
  have routed := routes_current 0 1 _ current
  exact ⟨_,rfl,rfl,routed [.heartbeat Host.still 0 ⟨"n","a",0,0,0⟩,.beginFetch Host.still true] _ [] _ rfl rfl⟩

/-- Node `n` comes back under another address. The publishes that follow use the channel
that the first one opened. -/
def movedStore : List RouteAct :=
  [.heartbeat Host.still 0 ⟨"n","a",0,0,0⟩,.beginPublish Host.still,.write "n" (.only "http://a"),
    .heartbeat Host.still 1 ⟨"n","b",0,0,0⟩,.beginPublish Host.still,.write "n" (.only "http://b"),.beginPublish Host.still]

theorem moved_store_missed : ¬ Runs.Each Routing.step RoutesCurrent (movedStore ++ [.write "n" (.only "http://b")]) (.new 0 1) := by
  intro routed
  rcases routed movedStore _ [] _ rfl rfl with found | first
  · cases found
  · exact first (List.mem_singleton.mpr rfl)

end Dtmpfs
