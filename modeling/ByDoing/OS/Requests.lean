import Mathlib.Data.List.Nodup
import ByDoing.Lib.Run
import ByDoing.Lib.Sweep
import ByDoing.Lib.Threaded

namespace OS
namespace Requests

def NR_REQUEST : Nat := 32

-- `struct request`, with -1 for the device of a free one. `cmd` is 0 for `READ` and 1 for `WRITE`.
structure Request where
  dev : Int
  cmd : Nat
  errors : Nat
  sector : Nat
  nrSectors : Nat
  bh : Nat
  next : Nat

def IN_ORDER (s1 s2 : Request) : Prop :=
  s1.cmd < s2.cmd ∨ s1.cmd = s2.cmd ∧ (s1.dev < s2.dev ∨ s1.dev = s2.dev ∧ s1.sector < s2.sector)

instance decidableInOrder (s1 s2 : Request) : Decidable (IN_ORDER s1 s2) :=
  inferInstanceAs (Decidable (_ ∨ _))

def Request.key (request : Request) : Nat × Int × Nat :=
  (request.cmd, request.dev, request.sector)

-- The table of requests, the queue from `current_request` on, and what they do to the buffers. `pending` is the addresses
-- and the keys of the requests that have been added and not ended.
structure State where
  request : Nat → Request
  currentRequest : Nat
  bDirt : Nat → Bool
  bUptodate : Nat → Bool
  bLock : Nat → Bool
  pending : List (Nat × (Nat × Int × Nat))

-- What `make_request` fills in for a buffer, where `sector` is its first one.
structure Order where
  dev : Int
  cmd : Nat
  sector : Nat
  bh : Nat

def Order.request (order : Order) : Request :=
  {
    dev := order.dev, cmd := order.cmd, errors := 0, sector := order.sector, nrSectors := 2, bh := order.bh, next := 0
  }

inductive Act where
  | add (req : Nat) (order : Order)
  | finish (uptodate : Bool)

namespace State

def next (s : State) (p : Nat) : Nat :=
  (s.request p).next

def Before (s : State) (p q : Nat) : Prop :=
  IN_ORDER (s.request p) (s.request q)

instance decidableBefore (s : State) : DecidableRel s.Before :=
  fun p q => decidableInOrder (s.request p) (s.request q)

-- The loop of `add_request`, which ends at the request that the new one is put behind. There is no result without fuel.
def place (s : State) (req : Nat) : Nat → Nat → Option Nat
  | 0, _ => none
  | fuel + 1, tmp =>
    if s.next tmp = 0 then
      some tmp
    else if (s.Before tmp req ∨ ¬s.Before tmp (s.next tmp)) ∧ s.Before req (s.next tmp) then
      some tmp
    else
      s.place req fuel (s.next tmp)

def setNext (s : State) (p q : Nat) : State :=
  { s with request := Function.update s.request p { s.request p with next := q } }

-- `if (req->bh) req->bh->b_dirt = 0`
def clean (s : State) (req : Nat) : State :=
  if (s.request req).bh ≠ 0 then { s with bDirt := Function.update s.bDirt (s.request req).bh false } else s

def addRequest (s : State) (req : Nat) : Option State :=
  let s := (s.setNext req 0).clean req
  if s.currentRequest = 0 then
    some { s with currentRequest := req }
  else do
    let tmp ← s.place req NR_REQUEST s.currentRequest
    let s := s.setNext req (s.next tmp)
    some (s.setNext tmp req)

-- The last part of `make_request`, for a request that it has found to be free.
def makeRequest (s : State) (req : Nat) (order : Order) : Option State :=
  addRequest { s with
    request := Function.update s.request req order.request
    pending := (req, order.request.key) :: s.pending } req

def release (s : State) (bh : Nat) (uptodate : Bool) : State :=
  if bh ≠ 0 then
    { s with
      bUptodate := Function.update s.bUptodate bh uptodate
      bLock := Function.update s.bLock bh false }
  else
    s

-- `end_request`, which is a fault without a request.
def endRequest (s : State) (uptodate : Bool) : Option State :=
  if s.currentRequest = 0 then
    none
  else
    let current := s.request s.currentRequest
    let s := s.release current.bh uptodate
    some { s with
      request := Function.update s.request s.currentRequest { current with dev := -1 }
      currentRequest := current.next
      pending := s.pending.erase (s.currentRequest, current.key) }

def step (s : State) : Act → Option State
  | .add req order =>
    if 1 ≤ req ∧ req ≤ NR_REQUEST ∧ (s.request req).dev < 0 ∧ 0 ≤ order.dev then
      s.makeRequest req order
    else
      none
  | .finish uptodate => s.endRequest uptodate

-- `blk_dev_init`.
def init (bDirt bUptodate bLock : Nat → Bool) : State :=
  {
    request := fun _ => { dev := -1, cmd := 0, errors := 0, sector := 0, nrSectors := 0, bh := 0, next := 0 }
    currentRequest := 0
    bDirt, bUptodate, bLock
    pending := []
  }

end State
end Requests
end OS
