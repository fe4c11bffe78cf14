import LegacyPool.Spec.Inner

/-! The pool with everything that refers back to it: the `Checkout` futures, the
`Connecting` tokens and the `Pooled` handles a client holds, and the oneshot channels
between them. `step` runs one operation of a client or of the `IdleTask`; `Reachable`
closes `Pool::new` under the steps a client discipline allows. The pool itself is never
freed, so every back-reference upgrades and the lock is never poisoned. -/

namespace LegacyPool

open Function

variable {T K : Type} [DecidableEq K]

/-- The pool and its clients. `dropping` holds the `Checkout`s whose `Drop` took the
receiver and has not yet locked the pool; `clock` (the time of the last step) and
`debugLog` (the messages of failed `debug_assert!`s) are ghost fields. -/
structure State (T K : Type) where
  pool : Option (PoolInner T K)
  chans : Nat → Chan T
  nextChan : Nat
  checkouts : Nat → Option (Checkout K)
  dropping : Nat → Option K
  nextCheckout : Nat
  tokens : Nat → Option (Connecting K)
  nextToken : Nat
  pooleds : Nat → Option (Pooled T K)
  nextPooled : Nat
  clock : Nat
  debugLog : List String

/-- `Pool::new`: the shared state exists only when `max_idle_per_host > 0`. -/
def Pool.new (config : Config) (timer : Bool) : Option (PoolInner T K) :=
  if config.isEnabled then
    some { connecting := fun _ => false, idle := fun _ => none, idleIntervalRef := false,
           maxIdlePerHost := config.maxIdlePerHost, waiters := fun _ => none, exec := [],
           timer := timer, timeout := config.idleTimeout }
  else none

def State.init (config : Config) (timer : Bool) : State T K :=
  { pool := Pool.new config timer, chans := fun _ => Chan.unused, nextChan := 0,
    checkouts := fun _ => none, dropping := fun _ => none, nextCheckout := 0,
    tokens := fun _ => none, nextToken := 0, pooleds := fun _ => none, nextPooled := 0,
    clock := 0, debugLog := [] }

/-- `debug_assert!(cond, msg)`, which a release build does not check. -/
def State.debugAssert (s : State T K) (cond : Bool) (msg : String) : State T K :=
  { s with debugLog := if cond then s.debugLog else s.debugLog ++ [msg] }

/-- `Pool::reuse`: a back-reference only for a value that cannot be shared. -/
def Pool.reuse (P : Poolable T) (pool : Option (PoolInner T K)) (key : K) (value : T) :
    Pooled T K :=
  { value := some value, isReused := true, key := key, pool := !P.canShare value && pool.isSome }

/-- `Pool::connecting`: a single-flight token for HTTP/2 on an enabled pool, `None` when
one is already out for `key`. -/
def Pool.connecting (pool : Option (PoolInner T K)) (key : K) (ver : Ver) :
    Option (PoolInner T K) × Option (Connecting K) :=
  match ver, pool with
  | .http2, some inner =>
    if inner.connecting key then (pool, none)
    else (some { inner with connecting := update inner.connecting key true }, some ⟨key, true⟩)
  | _, _ => (pool, some ⟨key, false⟩)

def State.addToken (s : State T K) : Option (Connecting K) → State T K
  | none => s
  | some tok => { s with tokens := update s.tokens s.nextToken (some tok), nextToken := s.nextToken + 1 }

omit [DecidableEq K] in
@[simp] theorem State.addToken_pool (s : State T K) (t : Option (Connecting K)) :
    (s.addToken t).pool = s.pool := by cases t <;> rfl

omit [DecidableEq K] in
@[simp] theorem State.addToken_chans (s : State T K) (t : Option (Connecting K)) :
    (s.addToken t).chans = s.chans := by cases t <;> rfl

omit [DecidableEq K] in
@[simp] theorem State.addToken_nextChan (s : State T K) (t : Option (Connecting K)) :
    (s.addToken t).nextChan = s.nextChan := by cases t <;> rfl

omit [DecidableEq K] in
@[simp] theorem State.addToken_clock (s : State T K) (t : Option (Connecting K)) :
    (s.addToken t).clock = s.clock := by cases t <;> rfl

def State.addPooled (s : State T K) (p : Pooled T K) : State T K :=
  { s with pooleds := update s.pooleds s.nextPooled (some p), nextPooled := s.nextPooled + 1 }

/-- `Drop for Connecting`. -/
def Connecting.drop (tok : Connecting K) (s : State T K) : State T K :=
  match tok.pool, s.pool with
  | true, some inner =>
    State.debugAssert
      { s with pool := some (inner.connected s.chans tok.key).1,
               chans := (inner.connected s.chans tok.key).2.1 }
      (inner.connected s.chans tok.key).2.2 "Connecting dropped, key not in pool.connecting"
  | _, _ => s

theorem Connecting.drop_of_pool (tok : Connecting K) {s : State T K} {inner : PoolInner T K}
    (hpool : s.pool = some inner) :
    tok.drop s = if tok.pool then State.debugAssert
      { s with pool := some (inner.connected s.chans tok.key).1,
               chans := (inner.connected s.chans tok.key).2.1 }
      (inner.connected s.chans tok.key).2.2 "Connecting dropped, key not in pool.connecting"
    else s := by
  unfold Connecting.drop; cases tok.pool <;> simp [hpool]

/-- `Pool::pooled`: a shared reservation keeps a half in the pool and clears the token
under the same lock; a unique one hands the whole value out, and the token is dropped. -/
def Pool.pooled (P : Poolable T) (env : Env T) (s : State T K) (tok : Connecting K) (value : T) :
    Except String (State T K × Pooled T K) :=
  match s.pool with
  | some inner =>
    match P.reserve value with
    | .shared toInsert toReturn =>
      (inner.put P env s.chans tok.key toInsert).map fun r =>
        (State.debugAssert
          { s with pool := some (r.1.connected r.2 tok.key).1, chans := (r.1.connected r.2 tok.key).2.1 }
          (r.1.connected r.2 tok.key).2.2 "Connecting dropped, key not in pool.connecting",
         ⟨some toReturn, false, tok.key, false⟩)
    | .unique v => .ok (tok.drop s, ⟨some v, false, tok.key, true⟩)
  | none =>
    .ok (s.debugAssert (!tok.pool) "assertion failed: connecting.pool.upgrade().is_none()",
      ⟨some value, false, tok.key, false⟩)

/-- `Checkout::poll_waiter`: a value that came through the channel is handed out only if
it is open. -/
def Checkout.pollWaiter (P : Poolable T) (env : Env T) (s : State T K) (i : Nat)
    (co : Checkout K) : State T K × Poll (Option (Except Error (Pooled T K))) :=
  match co.waiter with
  | none => (s, .ready none)
  | some rx =>
    match (s.chans rx).poll with
    | .ready value =>
      ({ s with chans := update s.chans rx (s.chans rx).dropReceiver,
                checkouts := update s.checkouts i (some { co with waiter := none }) },
        if env.isOpen value then .ready (some (.ok (Pool.reuse P s.pool co.key value)))
        else .ready (some (.error .checkedOutClosedValue)))
    | .pending => (s, .pending)
    | .canceled =>
      ({ s with chans := update s.chans rx (s.chans rx).dropReceiver,
                checkouts := update s.checkouts i (some { co with waiter := none }) },
        .ready (some (.error .checkoutNoLongerWanted)))

/-- `Checkout::checkout`: the idle probe, and a new waiter when it found nothing. -/
def Checkout.checkout (P : Poolable T) (env : Env T) (s : State T K) (i : Nat)
    (co : Checkout K) : Except String (State T K × Option (Pooled T K)) :=
  match s.pool with
  | none => .ok (s, none)
  | some inner =>
    match (inner.takeIdle P env.isOpen env.now co.key).2, co.waiter with
    | none, none =>
      match (Chan.fresh i : Chan T).poll with
      | .pending =>
        .ok ({ s with pool := some ((inner.takeIdle P env.isOpen env.now co.key).1.pushWaiter co.key s.nextChan),
                      chans := update s.chans s.nextChan (Chan.fresh i), nextChan := s.nextChan + 1,
                      checkouts := update s.checkouts i (some { co with waiter := some s.nextChan }) },
          none)
      | _ => .error "assertion failed: Pin::new(&mut rx).poll(cx).is_pending()"
    | entry, _ =>
      .ok ({ s with pool := some (inner.takeIdle P env.isOpen env.now co.key).1 },
        entry.map fun e => Pool.reuse P s.pool co.key e.value)

/-- `Future for Checkout`: the waiter first; the idle probe only when there is none. -/
def Checkout.poll (P : Poolable T) (env : Env T) (s : State T K) (i : Nat) (co : Checkout K) :
    Except String (State T K × Poll (Except Error (Pooled T K))) :=
  match Checkout.pollWaiter P env s i co with
  | (s, .pending) => .ok (s, .pending)
  | (s, .ready (some r)) => .ok (s, .ready r)
  | (s, .ready none) =>
    (Checkout.checkout P env s i co).map fun r =>
      match r.2 with
      | some p => (r.1, .ready (.ok p))
      | none =>
        if r.1.pool.isNone then (r.1, .ready (.error .poolDisabled))
        else (r.1.debugAssert ((r.1.checkouts i).bind (·.waiter)).isSome
          "assertion failed: self.waiter.is_some()", .pending)

/-- The caller takes what a ready `Checkout` gives, and the future is dropped. -/
def State.settle (i : Nat) : State T K × Poll (Except Error (Pooled T K)) → State T K
  | (s, .pending) => s
  | (s, .ready (.ok p)) => { s with checkouts := update s.checkouts i none }.addPooled p
  | (s, .ready (.error _)) => { s with checkouts := update s.checkouts i none }

def State.checkout (s : State T K) (key : K) : State T K :=
  { s with checkouts := update s.checkouts s.nextCheckout (some ⟨key, none⟩),
           nextCheckout := s.nextCheckout + 1 }

def State.poll (P : Poolable T) (env : Env T) (s : State T K) (i : Nat) : Except String (State T K) :=
  match s.checkouts i with
  | none => .ok s
  | some co => (Checkout.poll P env s i co).map (State.settle i)

/-- `Drop for Checkout` up to the lock: `self.waiter.take()` drops the receiver. -/
def State.dropCheckout (s : State T K) (i : Nat) : State T K :=
  match s.checkouts i with
  | none => s
  | some co =>
    match co.waiter with
    | none => { s with checkouts := update s.checkouts i none }
    | some rx =>
      { s with chans := update s.chans rx (s.chans rx).dropReceiver,
               checkouts := update s.checkouts i none, dropping := update s.dropping i (some co.key) }

/-- The rest of `Drop for Checkout`: `clean_waiters` under the lock. -/
def State.cleanCheckout (s : State T K) (i : Nat) : State T K :=
  match s.dropping i with
  | none => s
  | some key => { s with pool := s.pool.map (·.cleanWaiters s.chans key),
                         dropping := update s.dropping i none }

def State.connecting (s : State T K) (key : K) (ver : Ver) : State T K :=
  { s with pool := (Pool.connecting s.pool key ver).1 }.addToken (Pool.connecting s.pool key ver).2

/-- `Connecting::alpn_h2`: an HTTP/2 token from the pool, then `self` is dropped. -/
def State.alpnH2 (s : State T K) (j : Nat) : State T K :=
  match s.tokens j with
  | none => s
  | some tok =>
    let s := { s with tokens := update s.tokens j none }.debugAssert (!tok.pool)
      "Connecting::alpn_h2 but already Http2"
    (tok.drop { s with pool := (Pool.connecting s.pool tok.key .http2).1 }).addToken
      (Pool.connecting s.pool tok.key .http2).2

def State.dropConnecting (s : State T K) (j : Nat) : State T K :=
  match s.tokens j with
  | none => s
  | some tok => tok.drop { s with tokens := update s.tokens j none }

def State.pooled (P : Poolable T) (env : Env T) (s : State T K) (j : Nat) (value : T) :
    Except String (State T K) :=
  match s.tokens j with
  | none => .ok s
  | some tok => (Pool.pooled P env { s with tokens := update s.tokens j none } tok value).map
      fun r => r.1.addPooled r.2

/-- `Drop for Pooled`: an open value goes back through `put` when the handle has a
back-reference. -/
def State.dropPooled (P : Poolable T) (env : Env T) (s : State T K) (p : Nat) :
    Except String (State T K) :=
  match s.pooleds p with
  | none => .ok s
  | some pd =>
    match pd.value, s.pool with
    | some v, some inner =>
      if env.isOpen v && pd.pool then
        (inner.put P env s.chans pd.key v).map fun r =>
          { s with pooleds := update s.pooleds p none, pool := some r.1, chans := r.2 }
      else .ok { s with pooleds := update s.pooleds p none }
    | _, _ => .ok { s with pooleds := update s.pooleds p none }

/-- A `Checkout` whose receiver a racing drop took during `put` has begun its `Drop`. -/
def State.syncDrops (s : State T K) : State T K :=
  { s with
    checkouts := fun i => (s.checkouts i).filter fun co => co.waiter.all fun rx => (s.chans rx).rxLive
    dropping := fun i =>
      match s.checkouts i with
      | some ⟨key, some rx⟩ => if (s.chans rx).rxLive then s.dropping i else some key
      | _ => s.dropping i }

/-- The part of a wake-up of the `IdleTask` under the lock, once one was spawned:
`clear_expired`. The deadline it sets after the lock is released is `State.idleSleep`. -/
def State.idleTick (env : Env T) (s : State T K) : Except String (State T K) :=
  match s.pool with
  | some inner =>
    if inner.exec.isEmpty then .ok s
    else (inner.clearExpired env.isOpen env.now).map fun inner => { s with pool := some inner }
  | none => .ok s

/-- `Duration::MAX` in nanoseconds: `u64::MAX` seconds and 999,999,999 nanoseconds. -/
def DURATION_MAX : Nat := 18446744073709551615 * 1000000000 + 999999999

/-- The last `Instant` of the unix clock, in nanoseconds: a `Timespec` of `i64::MAX`
seconds and 999,999,999 nanoseconds. -/
def INSTANT_MAX : Nat := 9223372036854775807 * 1000000000 + 999999999

/-- `Instant + Duration`, which is `checked_add(..).expect(..)`: a panic past the last
`Instant`. -/
def Instant.add (now dur : Nat) : Except String Nat :=
  if now + dur ≤ INSTANT_MAX then .ok (now + dur)
  else .error "overflow when adding duration to instant"

theorem Instant.add_overflow {now dur : Nat} (h : INSTANT_MAX < now + dur) :
    Instant.add now dur = .error "overflow when adding duration to instant" :=
  if_neg (Nat.not_le.2 h)

/-- The deadline `IdleTask::run` gives its sleep, first and after every wake-up:
`Instant::now() + self.duration`, with no saturation. -/
def IdleTask.deadline (now duration : Nat) : Except String Nat := Instant.add now duration

/-- `IdleTask::run` setting its sleep, at its first poll and again after each wake-up: the
deadline of the task `spawn_idle_interval` gave the executor. The deadline goes to the
`Timer`, which the model leaves out, so a wake-up may come at any time. -/
def State.idleSleep (env : Env T) (s : State T K) : Except String (State T K) :=
  match s.pool with
  | some inner =>
    match inner.exec with
    | duration :: _ => (IdleTask.deadline env.now duration).map fun _ => s
    | [] => .ok s
  | none => .ok s

/-- The operations of a client and of the `IdleTask`. -/
inductive Op (T K : Type) where
  | checkout (key : K)
  | poll (i : Nat)
  | dropCheckout (i : Nat)
  | cleanCheckout (i : Nat)
  | connecting (key : K) (ver : Ver)
  | alpnH2 (j : Nat)
  | dropConnecting (j : Nat)
  | pooled (j : Nat) (value : T)
  | dropPooled (p : Nat)
  | idleTick
  | idleSleep

def stepOp (P : Poolable T) (env : Env T) : Op T K → State T K → Except String (State T K)
  | .checkout key, s => .ok (s.checkout key)
  | .poll i, s => s.poll P env i
  | .dropCheckout i, s => .ok (s.dropCheckout i)
  | .cleanCheckout i, s => .ok (s.cleanCheckout i)
  | .connecting key ver, s => .ok (s.connecting key ver)
  | .alpnH2 j, s => .ok (s.alpnH2 j)
  | .dropConnecting j, s => .ok (s.dropConnecting j)
  | .pooled j value, s => (s.pooled P env j value).map State.syncDrops
  | .dropPooled p, s => (s.dropPooled P env p).map State.syncDrops
  | .idleTick, s => s.idleTick env
  | .idleSleep, s => s.idleSleep env

/-- One step at time `env.now`; an error is a panic. -/
def step (P : Poolable T) (env : Env T) (op : Op T K) (s : State T K) : Except String (State T K) :=
  stepOp P env op { s with clock := env.now }

/-- The states reachable from `Pool::new` by steps that `allowed` permits. -/
inductive Reachable (P : Poolable T) (allowed : State T K → Env T → Op T K → Prop) :
    State T K → Prop
  | init (config : Config) (timer : Bool) : Reachable P allowed (State.init config timer)
  | step {s s' : State T K} {env : Env T} {op : Op T K} :
      Reachable P allowed s → allowed s env op → step P env op s = .ok s' →
        Reachable P allowed s'

/-- Any step at all. -/
def anyStep (_ : State T K) (_ : Env T) (_ : Op T K) : Prop := True

/-- The steps of a trace in order; a panic stops it. -/
def run (P : Poolable T) : List (Env T × Op T K) → State T K → Except String (State T K)
  | [], s => .ok s
  | (env, op) :: trace, s =>
    match step P env op s with
    | .ok s' => run P trace s'
    | .error e => .error e

theorem Reachable.run {P : Poolable T} {trace : List (Env T × Op T K)} {s s' : State T K}
    (h : Reachable P anyStep s) (hr : run P trace s = .ok s') : Reachable P anyStep s' := by
  induction trace generalizing s with
  | nil => cases hr; exact h
  | cons e trace ih =>
    simp only [LegacyPool.run] at hr
    split at hr
    · exact ih (h.step trivial ‹_›) hr
    · cases hr

/-- The tests' `Uniq`: a connection whose reservation is always unique and never shared. -/
def uniq : Poolable Nat := ⟨.unique, fun _ => false⟩

/-- A multiplexed connection: its reservation keeps one clone and hands out another. -/
def multiplexed : Poolable Nat := ⟨fun v => .shared v v, fun _ => true⟩

/-- A connection that is multiplexed when even, as HTTP/2, and unique when odd, as HTTP/1. -/
def mixed : Poolable Nat := ⟨fun v => if v % 2 = 0 then .shared v v else .unique v, fun v => v % 2 = 0⟩

/-- The tests' `pool_max_idle_no_timer`, with the 100 ms idle timeout in nanoseconds. -/
def State.noTimer (maxIdle : Nat) : State Nat Nat := State.init ⟨some 100000000, maxIdle⟩ false

/-- A step at `now` where every connection is open and no receiver is dropped concurrently. -/
def Env.quiet (now : Nat) : Env Nat := ⟨now, fun _ => true, fun _ => false⟩

/-- `test_pool_checkout_smoke` up to its checkout: a token for key 7, `Uniq(41)` pooled
with it, and the handle dropped. -/
def smokeTrace : List (Env Nat × Op Nat Nat) :=
  [(Env.quiet 0, .connecting 7 .auto), (Env.quiet 1, .pooled 0 41), (Env.quiet 2, .dropPooled 0)]

/-- A single-flight HTTP/2 connect for key 7 whose connection, 41, is multiplexed. -/
def h2Trace : List (Env Nat × Op Nat Nat) :=
  [(Env.quiet 0, .connecting 7 .http2), (Env.quiet 1, .pooled 0 41)]

/-- A single-flight HTTP/2 connect for key 7 under way, and a `Checkout` for 7 parked as
a waiter meanwhile. -/
def waitTrace : List (Env Nat × Op Nat Nat) :=
  [(Env.quiet 0, .connecting 7 .http2), (Env.quiet 1, .checkout 7), (Env.quiet 2, .poll 0)]

/-- `test_pool_checkout_drop_cleans_up_waiters` with one `Checkout` for key 7, stopped
inside its drop: parked as a waiter, then its receiver taken before `clean_waiters` runs. -/
def dropTrace : List (Env Nat × Op Nat Nat) :=
  [(Env.quiet 0, .checkout 7), (Env.quiet 1, .poll 0), (Env.quiet 2, .dropCheckout 0)]

/-- `test_pool_checkout_task_unparked`: `Uniq(41)` pooled for key 7, a `Checkout` for 7
parked meanwhile, then the handle dropped, which sends 41 to the parked `Checkout`. -/
def unparkTrace : List (Env Nat × Op Nat Nat) :=
  [(Env.quiet 0, .connecting 7 .auto), (Env.quiet 1, .pooled 0 41), (Env.quiet 2, .checkout 7),
    (Env.quiet 3, .poll 0), (Env.quiet 4, .dropPooled 0)]

end LegacyPool
