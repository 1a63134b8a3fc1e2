import Quantas.Common.Packet
import Quantas.Lib.Lossy

/-!
# The messages of the two link peers

The alternating bit peers and the stable data link peers exchange data and acks with a number. Both compare a
round, which is a `size_t`, with an `int`.
-/

namespace Quantas.Link

inductive Action
  | data
  | ack
  deriving DecidableEq, Repr

structure Message where
  action : Action
  roundSubmitted : Nat
  messageNum : Int
  deriving DecidableEq, Repr

/-- Conversion of an `int` to `size_t`. -/
def toSizeT (i : Int) : Nat := (i % 2 ^ 64).toNat

/-- `previousMessageRound + timeOutRate < currentRound`. -/
def timedOut (previousMessageRound : Nat) (timeOutRate : Int) (round : Nat) : Bool :=
  toSizeT (previousMessageRound + timeOutRate) < round

abbrev Event := Lib.Lossy.Event InterfaceId (Packet Message)

def silentRound : List Event := [.react 0 [], .react 1 [], .tick]

end Quantas.Link
