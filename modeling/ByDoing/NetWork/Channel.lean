import Mathlib.Init

/-!
This module contains the channels of `channel.c`. A channel keeps the pointer its callbacks get, and
`channel_write_event_enable` and `channel_write_event_disable` hand that same pointer to
`event_loop_update_channel_event` as an event loop, whatever it points to: next to the new channel both
return the pointer they have used that way.
-/

namespace NetWork

def EVENT_READ : BitVec 32 := 0x02
def EVENT_WRITE : BitVec 32 := 0x04

inductive CallbackData where
  | eventLoop
  | tcpServer
  | tcpConnection
  deriving Repr, DecidableEq

structure Channel where
  fd : Int
  events : BitVec 32
  data : CallbackData
  deriving Repr, DecidableEq

namespace Channel

def channelNew (fd : Int) (events : BitVec 32) (data : CallbackData) : Channel :=
  { fd, events, data }

def channelWriteEventIsEnabled (c : Channel) : Bool :=
  c.events &&& EVENT_WRITE != 0

def channelWriteEventEnable (c : Channel) : Channel × CallbackData :=
  ({ c with events := c.events ||| EVENT_WRITE }, c.data)

def channelWriteEventDisable (c : Channel) : Channel × CallbackData :=
  ({ c with events := c.events &&& ~~~EVENT_WRITE }, c.data)

end Channel
end NetWork
