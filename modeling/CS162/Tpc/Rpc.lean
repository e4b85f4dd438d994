import Mathlib

/-!
# Messages between the leader and the followers

The messages of `pkg/rpc/tpc.proto`.  A Go string is a list of bytes, and an enumeration of the
protocol is an `int32` that need not be one of the named values.
-/

namespace CS162.Tpc

abbrev Bytes := List UInt8

abbrev Action := Int32

namespace Action

def prepare : Action := 0

def abort : Action := 1

def commit : Action := 2

def ack : Action := 3

end Action

/-- `LeaderMsg`; `type` is a `MessageType`. -/
structure LeaderMsg where
  type : Int32
  action : Action
  key : Bytes
  value : Bytes
  deriving DecidableEq

structure Response where
  action : Action
  deriving DecidableEq

end CS162.Tpc
