import Dtmpfs.Error

/-! The block store, `dtmpfs-store::state` and `dtmpfs-store::service`. Requests run
one at a time here; the counters are atomics and wrap. -/
namespace Dtmpfs

def wrappingAdd (a b : Nat) : Nat := (a + b) % 2^64

def wrappingSub (a b : Nat) : Nat := (a + (2^64 - b % 2^64)) % 2^64

structure StoreState where
  blocks : Map BlockKey Bytes
  highWater : Map LogicalKey Generation
  nodeId : NodeId
  ramBudget : Nat
  ramUsed : Nat

structure StoreStat where
  nodeId : NodeId
  usedBytes : Nat
  capacityBytes : Nat
  blockCount : Nat
deriving DecidableEq, Repr

namespace StoreState

def new (nodeId : NodeId) (ramBudget : Nat) : StoreState := ⟨∅,∅,nodeId,ramBudget,0⟩

/-- `read_block`; offset and length of the request are ignored. -/
def readBlock (key : BlockKey) (s : StoreState) : Except Status Bytes :=
  match s.blocks[key]? with
  | none => .error ⟨.notFound,"block not found"⟩
  | some data => .ok data

def insertBlock (key : BlockKey) (data : Bytes) (s : StoreState) : StoreState :=
  let previous := (s.blocks[key]?.map List.length).getD 0
  {s with
    blocks := s.blocks.insert key data
    ramUsed := wrappingSub (wrappingAdd s.ramUsed data.length) previous
    highWater := s.highWater.insert key.logical
      (match s.highWater[key.logical]? with
        | some mark => if mark < key.generation then key.generation else mark
        | none => key.generation)}

def writeBlock (key : BlockKey) (data : Bytes) (s : StoreState) : Except Status Nat × StoreState :=
  if s.highWater[key.logical]?.any (fun mark => key.generation < mark) then
    (.error ⟨.failedPrecondition,"stale generation"⟩,s)
  else if s.ramBudget < s.ramUsed + data.length then
    (.error ⟨.resourceExhausted,"ram budget exceeded"⟩,s)
  else (.ok data.length,s.insertBlock key data)

def deleteBlock (key : BlockKey) (s : StoreState) : StoreState :=
  {s with
    blocks := s.blocks.erase key
    ramUsed := match s.blocks[key]? with
      | some previous => wrappingSub s.ramUsed previous.length
      | none => s.ramUsed
    highWater := s.highWater.erase key.logical}

/-- `check_token` of `auth.rs`, the interceptor before every request. -/
def checkToken (expected : String) (got : Option String) : Except Status Unit :=
  if got.getD "" = expected then .ok () else .error ⟨.unauthenticated,"invalid cluster token"⟩

/-- `replicate`, between two stores of one cluster: the data comes from the source, asked
without a `cluster-token`, and neither the mark nor the budget is looked at. -/
def replicate (token : String) (source : StoreState) (key : BlockKey) (s : StoreState) : Except Status Unit × StoreState :=
  match checkToken token none with
  | .error status => (.error status,s)
  | .ok () =>
    match source.readBlock key with
    | .error status => (.error status,s)
    | .ok data => (.ok (),{s with
        ramUsed := wrappingAdd s.ramUsed data.length
        blocks := s.blocks.insert key data})

def stat (s : StoreState) : StoreStat := ⟨s.nodeId,s.ramUsed,s.ramBudget,s.blocks.size⟩

end StoreState

end Dtmpfs
