import Mathlib.Logic.Function.Basic
import Mathlib.Data.Nat.Defs

/-! The data of `client::legacy::pool`: the `Poolable` capability, the idle entries, the
shared `PoolInner`, the oneshot channels between parked `Checkout`s and `put`, and the
handles the pool gives out. Instants and durations are nanoseconds. -/

namespace LegacyPool

/-- `Reservation<T>`: `Shared(keep, give)` keeps its first half in the pool. -/
inductive Reservation (T : Type) where
  | shared (keep give : T)
  | unique (value : T)
  deriving DecidableEq, Repr

/-- The half a reservation keeps (`Some` only for `Shared`) and the half it hands out:
the `match reserve()` of `put`, `IdlePopper::pop` and `Pool::pooled`. -/
def Reservation.split {T : Type} : Reservation T → Option T × T
  | .shared keep give => (some keep, give)
  | .unique value => (none, value)

/-- `Poolable` without `is_open`: whether a connection is open is read from the world at
each operation (`Env.isOpen`). -/
structure Poolable (T : Type) where
  reserve : T → Reservation T
  canShare : T → Bool

/-- `Ver`. -/
inductive Ver where
  | auto
  | http2
  deriving DecidableEq, Repr

/-- `Config`. -/
structure Config where
  idleTimeout : Option Nat
  maxIdlePerHost : Nat
  deriving DecidableEq, Repr

def Config.isEnabled (c : Config) : Bool := decide (0 < c.maxIdlePerHost)

/-- `Idle<T>`. -/
structure Idle (T : Type) where
  idleAt : Nat
  value : T
  deriving DecidableEq, Repr

/-- `Expiration(Option<Duration>)`. -/
structure Expiration where
  timeout : Option Nat
  deriving DecidableEq, Repr

/-- `Expiration::expires`, with `Instant::now()` read as `now`; the subtraction saturates. -/
def Expiration.expires (e : Expiration) (now instant : Nat) : Bool :=
  match e.timeout with
  | some timeout => decide (timeout < now - instant)
  | none => false

/-- A `futures_channel::oneshot` channel. Its sender sits in a waiters queue and its
receiver in the `Checkout` named by `owner`, a ghost field the code does not keep. -/
structure Chan (T : Type) where
  owner : Nat
  rxLive : Bool
  txLive : Bool
  data : Option T
  deriving DecidableEq, Repr

/-- A channel id never handed out. -/
def Chan.unused {T : Type} : Chan T := ⟨0, false, false, none⟩

/-- `oneshot::channel()`, made by the `Checkout` `owner`. -/
def Chan.fresh {T : Type} (owner : Nat) : Chan T := ⟨owner, true, true, none⟩

/-- `Sender::is_canceled`: the receiver is gone. -/
def Chan.isCanceled {T : Type} (c : Chan T) : Bool := !c.rxLive

/-- `Sender::send` consumes the sender and gives the value back when the receiver is gone. -/
def Chan.send {T : Type} (c : Chan T) (v : T) : Chan T × Except T Unit :=
  if c.rxLive then ({ c with txLive := false, data := some v }, .ok ())
  else ({ c with txLive := false }, .error v)

def Chan.dropSender {T : Type} (c : Chan T) : Chan T := { c with txLive := false }

def Chan.dropReceiver {T : Type} (c : Chan T) : Chan T := { c with rxLive := false, data := none }

inductive RecvPoll (T : Type) where
  | ready (value : T)
  | canceled
  | pending
  deriving DecidableEq, Repr

/-- `Receiver::poll`. -/
def Chan.poll {T : Type} (c : Chan T) : RecvPoll T :=
  match c.data with
  | some v => .ready v
  | none => if c.txLive then .pending else .canceled

/-- `PoolInner<T, K>`. A `HashMap` is a total function to `Option`, a `HashSet` one to
`Bool`; a queue of senders is a list of channel ids. `exec` is the executor, seen through
the periods of the `IdleTask`s given to it; `timer` is whether a `Timer` is configured. -/
structure PoolInner (T K : Type) where
  connecting : K → Bool
  idle : K → Option (List (Idle T))
  maxIdlePerHost : Nat
  waiters : K → Option (List Nat)
  idleIntervalRef : Bool
  exec : List Nat
  timer : Bool
  timeout : Option Nat

/-- `Checkout<T, K>`: `waiter` is the channel of the receiver it holds. -/
structure Checkout (K : Type) where
  key : K
  waiter : Option Nat
  deriving DecidableEq, Repr

/-- `Connecting<T, K>`: `pool` is whether the token holds a back-reference. -/
structure Connecting (K : Type) where
  key : K
  pool : Bool
  deriving DecidableEq, Repr

/-- `Pooled<T, K>`: `pool` is whether the handle holds a back-reference. -/
structure Pooled (T K : Type) where
  value : Option T
  isReused : Bool
  key : K
  pool : Bool
  deriving DecidableEq, Repr

/-- `Error`. -/
inductive Error where
  | poolDisabled
  | checkoutNoLongerWanted
  | checkedOutClosedValue
  deriving DecidableEq, Repr

/-- `std::task::Poll`. -/
inductive Poll (α : Type) where
  | ready (a : α)
  | pending
  deriving DecidableEq, Repr

/-- What the world decides at one operation: the reading of `Instant::now()`, which
connections are open, and which receivers a concurrent `Checkout` drop takes between a
cancel check of `put` and its send. -/
structure Env (T : Type) where
  now : Nat
  isOpen : T → Bool
  racing : Nat → Bool

end LegacyPool
