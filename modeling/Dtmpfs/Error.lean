import Dtmpfs.Id

/-! Statuses of the gRPC layer, `DtmpfsError` and its `errno` of
`dtmpfs-common::error`. -/
namespace Dtmpfs

/-- The status codes of `tonic::Code` other than `Ok`. -/
inductive Code where
  | cancelled
  | unknown
  | invalidArgument
  | deadlineExceeded
  | notFound
  | alreadyExists
  | permissionDenied
  | resourceExhausted
  | failedPrecondition
  | aborted
  | outOfRange
  | unimplemented
  | internal
  | unavailable
  | dataLoss
  | unauthenticated
deriving DecidableEq, Repr

structure Status where
  code : Code
  message : String
deriving DecidableEq, Repr

/-- How a handler ends when it does not answer `Ok`: with a status, or by the
panic of an `unwrap` or of an overflowing time computation. -/
inductive Fault where
  | status (status : Status)
  | panicked
deriving DecidableEq, Repr

def refuse {α : Type} (code : Code) (message : String) : Except Fault α :=
  .error (.status ⟨code,message⟩)

inductive DtmpfsError where
  | metaUnavailable
  | storeUnavailable (node : NodeId)
  | blockGenerationMismatch
  | notFound
  | alreadyExists
  | notADirectory
  | isADirectory
  | notEmpty
  | permissionDenied
  | resourceExhausted
  | invalidArgument
  | unauthenticated
  | io
  | rpc (status : Status)
deriving DecidableEq, Repr

inductive Errno where
  | enoent
  | eexist
  | enotdir
  | eisdir
  | enotempty
  | eacces
  | enospc
  | einval
  | eio
deriving DecidableEq, Repr

def DtmpfsError.errno : DtmpfsError → Errno
  | .notFound => .enoent
  | .alreadyExists => .eexist
  | .notADirectory => .enotdir
  | .isADirectory => .eisdir
  | .notEmpty => .enotempty
  | .permissionDenied | .unauthenticated => .eacces
  | .resourceExhausted => .enospc
  | .invalidArgument => .einval
  | .metaUnavailable | .storeUnavailable _ | .blockGenerationMismatch | .io | .rpc _ => .eio

def DtmpfsError.fromStatus (status : Status) (node : Option NodeId) : DtmpfsError :=
  match status.code with
  | .invalidArgument | .outOfRange => .invalidArgument
  | .notFound => .notFound
  | .alreadyExists => .alreadyExists
  | .permissionDenied => .permissionDenied
  | .unauthenticated => .unauthenticated
  | .resourceExhausted => .resourceExhausted
  | .failedPrecondition => .blockGenerationMismatch
  | .unavailable =>
    match node with
    | some n => .storeUnavailable n
    | none => .metaUnavailable
  | _ => .rpc status

end Dtmpfs
