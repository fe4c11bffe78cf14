import LegacyPool.Spec.Types

/-! `PoolInner`'s operations, each a critical section under the pool's lock: `put` with its
waiter handoff, `connected`, `clean_waiters`, `clear_expired`, `spawn_idle_interval`,
`IdlePopper::pop`, and the idle probe of `Checkout::checkout`. A panic is an `Except` error
carrying the message of the `expect` or `assert!`. -/

namespace LegacyPool

open Function

variable {T K : Type}

/-- `MIN_CHECK` of `spawn_idle_interval`, `Duration::from_millis(90)`. -/
def MIN_CHECK : Nat := 90000000

/-- `PoolInner::spawn_idle_interval`: one `IdleTask`, and only with a positive timeout and
a timer, of period `max(timeout, MIN_CHECK)`. -/
def PoolInner.spawnIdleInterval (inner : PoolInner T K) : PoolInner T K :=
  if inner.idleIntervalRef then inner
  else match inner.timeout with
    | none => inner
    | some dur =>
      if dur = 0 then inner
      else if !inner.timer then inner
      else { inner with idleIntervalRef := true, exec := inner.exec ++ [max dur MIN_CHECK] }

@[simp] theorem PoolInner.spawnIdleInterval_idle (inner : PoolInner T K) :
    inner.spawnIdleInterval.idle = inner.idle := by
  unfold PoolInner.spawnIdleInterval; split <;> (try split) <;> (try split) <;> (try split) <;> rfl

@[simp] theorem PoolInner.spawnIdleInterval_waiters (inner : PoolInner T K) :
    inner.spawnIdleInterval.waiters = inner.waiters := by
  unfold PoolInner.spawnIdleInterval; split <;> (try split) <;> (try split) <;> (try split) <;> rfl

@[simp] theorem PoolInner.spawnIdleInterval_maxIdlePerHost (inner : PoolInner T K) :
    inner.spawnIdleInterval.maxIdlePerHost = inner.maxIdlePerHost := by
  unfold PoolInner.spawnIdleInterval; split <;> (try split) <;> (try split) <;> (try split) <;> rfl

@[simp] theorem PoolInner.spawnIdleInterval_connecting (inner : PoolInner T K) :
    inner.spawnIdleInterval.connecting = inner.connecting := by
  unfold PoolInner.spawnIdleInterval; split <;> (try split) <;> (try split) <;> (try split) <;> rfl

@[simp] theorem PoolInner.spawnIdleInterval_timeout (inner : PoolInner T K) :
    inner.spawnIdleInterval.timeout = inner.timeout := by
  unfold PoolInner.spawnIdleInterval; split <;> (try split) <;> (try split) <;> (try split) <;> rfl

variable [DecidableEq K]

/-- `tx.send(w)`, with the receiver dropped first when a concurrent `Checkout` drop takes it
between the cancel check of `put` and the send. -/
def sendAt (racing : Nat → Bool) (chans : Nat → Chan T) (tx : Nat) (w : T) : Chan T × Except T Unit :=
  (if racing tx then (chans tx).dropReceiver else chans tx).send w

/-- The `while let Some(tx) = waiters.pop_front()` loop of `put`: the channels, the value
still in hand and the senders left in the queue. -/
def handoff (P : Poolable T) (racing : Nat → Bool) :
    (Nat → Chan T) → Option T → List Nat → Except String ((Nat → Chan T) × Option T × List Nat)
  | chans, value, [] => .ok (chans, value, [])
  | chans, value, tx :: rest =>
    if (chans tx).isCanceled then handoff P racing chans value rest
    else match value with
      | none => .error "value already sent"
      | some v =>
        match (sendAt racing chans tx (P.reserve v).split.2).2 with
        | .ok () =>
          match (P.reserve v).split.1 with
          | none => .ok (update chans tx (sendAt racing chans tx (P.reserve v).split.2).1, none, rest)
          | some keep =>
            handoff P racing (update chans tx (sendAt racing chans tx (P.reserve v).split.2).1)
              (some keep) rest
        | .error e =>
          handoff P racing (update chans tx (sendAt racing chans tx (P.reserve v).split.2).1)
            (some e) rest

/-- The handoff half of `put`: offer the value to the waiters for `key`, and remove their
queue if it emptied. -/
def PoolInner.offer (P : Poolable T) (racing : Nat → Bool) (inner : PoolInner T K)
    (chans : Nat → Chan T) (key : K) (value : T) :
    Except String (PoolInner T K × (Nat → Chan T) × Option T) :=
  match inner.waiters key with
  | none => .ok (inner, chans, some value)
  | some q => (handoff P racing chans (some value) q).map fun r =>
      ({ inner with waiters := update inner.waiters key (if r.2.2.isEmpty then none else some r.2.2) },
        r.1, r.2.1)

/-- The insertion half of `put`: `entry(key).or_default()`, then a push under the cap. -/
def PoolInner.insert (now : Nat) (inner : PoolInner T K) (key : K) : Option T → PoolInner T K
  | none => inner
  | some value =>
    if inner.maxIdlePerHost ≤ ((inner.idle key).getD []).length then
      { inner with idle := update inner.idle key (some ((inner.idle key).getD [])) }
    else
      PoolInner.spawnIdleInterval
        { inner with idle := update inner.idle key (some ((inner.idle key).getD [] ++ [⟨now, value⟩])) }

/-- `PoolInner::put`. -/
def PoolInner.put (P : Poolable T) (env : Env T) (inner : PoolInner T K) (chans : Nat → Chan T)
    (key : K) (value : T) : Except String (PoolInner T K × (Nat → Chan T)) :=
  if P.canShare value && (inner.idle key).isSome then .ok (inner, chans)
  else (inner.offer P env.racing chans key value).map fun r => (r.1.insert env.now key r.2.2, r.2.1)

/-- The senders of `q` dropped. -/
def dropSenders (chans : Nat → Chan T) (q : List Nat) : Nat → Chan T :=
  fun c => if c ∈ q then (chans c).dropSender else chans c

/-- `PoolInner::connected`, with `existed`, the condition of its `debug_assert!`. Removing
the queue drops its senders, so their receivers see `Canceled`. -/
def PoolInner.connected (inner : PoolInner T K) (chans : Nat → Chan T) (key : K) :
    PoolInner T K × (Nat → Chan T) × Bool :=
  ({ inner with connecting := update inner.connecting key false,
                waiters := update inner.waiters key none },
    dropSenders chans ((inner.waiters key).getD []), inner.connecting key)

/-- `PoolInner::clean_waiters`. The senders it drops have lost their receivers, so their
channels are left as they are. -/
def PoolInner.cleanWaiters (inner : PoolInner T K) (chans : Nat → Chan T) (key : K) :
    PoolInner T K :=
  match inner.waiters key with
  | none => inner
  | some q =>
    let q := q.filter fun tx => !(chans tx).isCanceled
    { inner with waiters := update inner.waiters key (if q.isEmpty then none else some q) }

/-- Whether `clear_expired` keeps an entry. -/
def keepFresh (isOpen : T → Bool) (now dur : Nat) (e : Idle T) : Bool :=
  isOpen e.value && !decide (dur < now - e.idleAt)

/-- `values.retain(..)` of `clear_expired`, and whether the key stays. -/
def retainFresh (isOpen : T → Bool) (now dur : Nat) (values : List (Idle T)) :
    Option (List (Idle T)) :=
  if (values.filter (keepFresh isOpen now dur)).isEmpty then none
  else some (values.filter (keepFresh isOpen now dur))

/-- `PoolInner::clear_expired`. -/
def PoolInner.clearExpired (isOpen : T → Bool) (now : Nat) (inner : PoolInner T K) :
    Except String (PoolInner T K) :=
  match inner.timeout with
  | none => .error "interval assumes timeout"
  | some dur => .ok { inner with idle := fun key => (inner.idle key).bind (retainFresh isOpen now dur) }

/-- `IdlePopper::pop` on the list read from its end: the head of `rev` is the last entry. -/
def IdlePopper.popRev (P : Poolable T) (isOpen : T → Bool) (exp : Expiration) (now : Nat) :
    List (Idle T) → Option (Idle T) × List (Idle T)
  | [] => (none, [])
  | entry :: rev =>
    if !isOpen entry.value then popRev P isOpen exp now rev
    else if exp.expires now entry.idleAt then popRev P isOpen exp now rev
    else match P.reserve entry.value with
      | .shared toReinsert toCheckout => (some ⟨entry.idleAt, toCheckout⟩, ⟨now, toReinsert⟩ :: rev)
      | .unique unique => (some ⟨entry.idleAt, unique⟩, rev)

/-- `IdlePopper::pop`: the entry handed out, and the list left behind. -/
def IdlePopper.pop (P : Poolable T) (isOpen : T → Bool) (exp : Expiration) (now : Nat)
    (list : List (Idle T)) : Option (Idle T) × List (Idle T) :=
  ((popRev P isOpen exp now list.reverse).1, (popRev P isOpen exp now list.reverse).2.reverse)

/-- The idle probe of `Checkout::checkout`: pop from `idle[key]`, and remove the list when
the pop found nothing or left it empty. -/
def PoolInner.takeIdle (P : Poolable T) (isOpen : T → Bool) (now : Nat) (inner : PoolInner T K)
    (key : K) : PoolInner T K × Option (Idle T) :=
  match (inner.idle key).map (IdlePopper.pop P isOpen ⟨inner.timeout⟩ now) with
  | some (some e, list) =>
    ({ inner with idle := update inner.idle key (if list.isEmpty then none else some list) }, some e)
  | _ => ({ inner with idle := update inner.idle key none }, none)

/-- `waiters.entry(key).or_insert_with(VecDeque::new).push_back(tx)`. -/
def PoolInner.pushWaiter (inner : PoolInner T K) (key : K) (tx : Nat) : PoolInner T K :=
  { inner with waiters := update inner.waiters key (some ((inner.waiters key).getD [] ++ [tx])) }

end LegacyPool
