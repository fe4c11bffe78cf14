import LegacyPool.Sanity.Pop

/-! Keys do not interfere. Every critical section that names a key reads and writes the
maps of `PoolInner` at that key only: the idle list, the waiter queue and the connecting
mark of any other key come out as they went in. `clear_expired` names no key; it rewrites
each idle list by one function of that list alone. -/

namespace LegacyPool

open Function

variable {T K : Type} [DecidableEq K] {P : Poolable T}

/-- What an operation on another key must leave alone: the idle list, the waiter queue and
the connecting mark of `k`. -/
structure Untouched (k : K) (inner inner' : PoolInner T K) : Prop where
  idle : inner'.idle k = inner.idle k
  waiters : inner'.waiters k = inner.waiters k
  connecting : inner'.connecting k = inner.connecting k

namespace Untouched

variable {k key : K} {inner inner' inner'' : PoolInner T K}

omit [DecidableEq K] in
theorem refl (k : K) (inner : PoolInner T K) : Untouched k inner inner := ⟨rfl, rfl, rfl⟩

omit [DecidableEq K] in
theorem trans (h1 : Untouched k inner inner') (h2 : Untouched k inner' inner'') :
    Untouched k inner inner'' :=
  ⟨h2.idle.trans h1.idle, h2.waiters.trans h1.waiters, h2.connecting.trans h1.connecting⟩

theorem update_idle (hne : k ≠ key) (l : Option (List (Idle T))) :
    Untouched k inner { inner with idle := update inner.idle key l } :=
  ⟨update_noteq hne _ _, rfl, rfl⟩

theorem update_waiters (hne : k ≠ key) (w : Option (List Nat)) :
    Untouched k inner { inner with waiters := update inner.waiters key w } :=
  ⟨rfl, update_noteq hne _ _, rfl⟩

theorem insert (hne : k ≠ key) (now : Nat) (v : Option T) :
    Untouched k inner (inner.insert now key v) :=
  ⟨insert_idle_of_ne now inner v hne, by simp, by simp⟩

end Untouched

variable {k k' : K}

theorem put_untouched (hne : k' ≠ k) {env : Env T} {inner : PoolInner T K} {chans : Nat → Chan T}
    {v : T} {r : PoolInner T K × (Nat → Chan T)} (h : inner.put P env chans k v = .ok r) :
    Untouched k' inner r.1 := by
  rcases put_cases h with ⟨-, -, rfl⟩ | ⟨-, o, ho, rfl⟩
  · exact .refl _ _
  · obtain ⟨w, hw⟩ := offer_frame ho
    exact hw ▸ (Untouched.update_waiters hne w).trans (.insert hne _ _)

theorem checkout_pool (env : Env T) (i : Nat) (co : Checkout K) {s : State T K}
    {inner : PoolInner T K} (hpool : s.pool = some inner) :
    ∃ r, Checkout.checkout P env s i co = .ok r ∧
      (r.1.pool = some (inner.takeIdle P env.isOpen env.now co.key).1 ∨
       r.1.pool = some ((inner.takeIdle P env.isOpen env.now co.key).1.pushWaiter co.key s.nextChan)) := by
  unfold Checkout.checkout
  simp only [hpool]
  split
  · exact ⟨_, rfl, .inr rfl⟩
  · exact ⟨_, rfl, .inl rfl⟩

theorem takeIdle_untouched (hne : k' ≠ k) (isOpen : T → Bool) (now : Nat) (inner : PoolInner T K) :
    Untouched k' inner (inner.takeIdle P isOpen now k).1 := by
  obtain ⟨l, hl⟩ := takeIdle_frame (P := P) isOpen now inner k
  exact hl ▸ Untouched.update_idle hne l

/-- Every key-indexed operation on `k` leaves the idle list, the waiter queue and the
connecting mark of any other key as they were, in any state: `put`, `connected`,
`clean_waiters`, `Checkout::checkout`'s probe and registration, and `Pool::connecting`.
`clear_expired` keeps the queues and marks and filters every idle list by itself: it keeps
the entries that are open and within the timeout, and drops the key when none is left. -/
theorem keys_independent (inner : PoolInner T K) (hne : k' ≠ k) :
    (∀ env chans v, ∃ r, inner.put P env chans k v = .ok r ∧ Untouched k' inner r.1) ∧
    (∀ chans, Untouched k' inner (inner.connected chans k).1) ∧
    (∀ chans, Untouched k' inner (inner.cleanWaiters chans k)) ∧
    (∀ env (s : State T K) i (co : Checkout K), s.pool = some inner → co.key = k →
      ∃ r inner', Checkout.checkout P env s i co = .ok r ∧ r.1.pool = some inner' ∧
        Untouched k' inner inner') ∧
    (∀ ver, ∃ inner', (Pool.connecting (some inner) k ver).1 = some inner' ∧
      Untouched k' inner inner') ∧
    (∀ isOpen now inner', inner.clearExpired isOpen now = .ok inner' →
      inner'.waiters = inner.waiters ∧ inner'.connecting = inner.connecting ∧
      ∃ dur, inner.timeout = some dur ∧
        ∀ key, inner'.idle key = (inner.idle key).bind (retainFresh isOpen now dur)) := by
  refine ⟨fun env chans v => ?put, fun chans => ⟨rfl, update_noteq hne _ _, update_noteq hne _ _⟩,
    fun chans => ?clean, fun env s i co hpool hkey => ?checkout, fun ver => ?connecting,
    fun isOpen now inner' h => ?expire⟩
  case put =>
    obtain ⟨r, hr⟩ := put_ok (P := P) env inner chans k v
    exact ⟨r, hr, put_untouched hne hr⟩
  case clean =>
    obtain ⟨w, hw, -⟩ := cleanWaiters_frame inner chans k
    exact hw ▸ Untouched.update_waiters hne w
  case checkout =>
    subst hkey
    have hprobe := takeIdle_untouched (P := P) hne env.isOpen env.now inner
    obtain ⟨r, hr, hp | hp⟩ := checkout_pool (P := P) env i co hpool
    · exact ⟨r, _, hr, hp, hprobe⟩
    · exact ⟨r, _, hr, hp, hprobe.trans (Untouched.update_waiters hne _)⟩
  case connecting =>
    cases ver with
    | auto => exact ⟨inner, rfl, .refl _ _⟩
    | http2 =>
      by_cases hc : inner.connecting k
      · exact ⟨inner, by simp [Pool.connecting, hc], .refl _ _⟩
      · exact ⟨{ inner with connecting := update inner.connecting k true }, by simp [Pool.connecting, hc],
          ⟨rfl, rfl, update_noteq hne _ _⟩⟩
  case expire =>
    obtain ⟨dur, hdur, rfl⟩ := clearExpired_spec h
    exact ⟨rfl, rfl, dur, hdur, fun _ => rfl⟩

/-- Keys 7 and 8 of a busy pool: a `Checkout` parked on 7 while an HTTP/2 connect for 7 is
under way, and an idle connection for 8 beside an HTTP/2 connect for 8. What is done on
either key leaves the other alone. -/
theorem keys_independent_busy : ∃ s inner,
    run uniq [(Env.quiet 0, .connecting 8 .auto), (Env.quiet 1, .pooled 0 41), (Env.quiet 2, .dropPooled 0),
      (Env.quiet 3, .connecting 8 .http2), (Env.quiet 4, .connecting 7 .http2), (Env.quiet 5, .checkout 7),
      (Env.quiet 6, .poll 0)] (State.noTimer 2) = .ok s ∧ s.pool = some inner ∧
    inner.waiters 7 = some [0] ∧ inner.connecting 7 = true ∧
    inner.idle 8 = some [⟨2, 41⟩] ∧ inner.connecting 8 = true ∧
    ((8 : Nat) ≠ 7 ∧
      (∀ env chans v, ∃ r, inner.put uniq env chans 7 v = .ok r ∧ Untouched 8 inner r.1) ∧
      (∀ chans, Untouched 8 inner (inner.connected chans 7).1) ∧
      (∀ chans, Untouched 8 inner (inner.cleanWaiters chans 7)) ∧
      (∀ env (s₁ : State Nat Nat) i (co : Checkout Nat), s₁.pool = some inner → co.key = 7 →
        ∃ r inner', Checkout.checkout uniq env s₁ i co = .ok r ∧ r.1.pool = some inner' ∧
          Untouched 8 inner inner') ∧
      (∀ ver, ∃ inner', (Pool.connecting (some inner) 7 ver).1 = some inner' ∧ Untouched 8 inner inner') ∧
      (∀ isOpen now inner', inner.clearExpired isOpen now = .ok inner' →
        inner'.waiters = inner.waiters ∧ inner'.connecting = inner.connecting ∧
        ∃ dur, inner.timeout = some dur ∧
          ∀ key, inner'.idle key = (inner.idle key).bind (retainFresh isOpen now dur))) ∧
    ((7 : Nat) ≠ 8 ∧
      (∀ env chans v, ∃ r, inner.put uniq env chans 8 v = .ok r ∧ Untouched 7 inner r.1) ∧
      (∀ chans, Untouched 7 inner (inner.connected chans 8).1) ∧
      (∀ chans, Untouched 7 inner (inner.cleanWaiters chans 8)) ∧
      (∀ env (s₁ : State Nat Nat) i (co : Checkout Nat), s₁.pool = some inner → co.key = 8 →
        ∃ r inner', Checkout.checkout uniq env s₁ i co = .ok r ∧ r.1.pool = some inner' ∧
          Untouched 7 inner inner') ∧
      (∀ ver, ∃ inner', (Pool.connecting (some inner) 8 ver).1 = some inner' ∧ Untouched 7 inner inner') ∧
      (∀ isOpen now inner', inner.clearExpired isOpen now = .ok inner' →
        inner'.waiters = inner.waiters ∧ inner'.connecting = inner.connecting ∧
        ∃ dur, inner.timeout = some dur ∧
          ∀ key, inner'.idle key = (inner.idle key).bind (retainFresh isOpen now dur))) := by
  obtain ⟨s, inner, hr, hpool, hw7, hc7, hi8, hc8⟩ : ∃ s inner,
      run uniq [(Env.quiet 0, .connecting 8 .auto), (Env.quiet 1, .pooled 0 41), (Env.quiet 2, .dropPooled 0),
        (Env.quiet 3, .connecting 8 .http2), (Env.quiet 4, .connecting 7 .http2), (Env.quiet 5, .checkout 7),
        (Env.quiet 6, .poll 0)] (State.noTimer 2) = .ok s ∧ s.pool = some inner ∧
      inner.waiters 7 = some [0] ∧ inner.connecting 7 = true ∧
      inner.idle 8 = some [⟨2, 41⟩] ∧ inner.connecting 8 = true :=
    ⟨_, _, rfl, rfl, rfl, rfl, rfl, rfl⟩
  exact ⟨s, inner, hr, hpool, hw7, hc7, hi8, hc8, ⟨by decide, keys_independent inner (by decide)⟩,
    ⟨by decide, keys_independent inner (by decide)⟩⟩

end LegacyPool
