import LegacyPool.Proofs.Shared
import LegacyPool.Proofs.Waiters

/-! A failed connect releases its waiters. Dropping a `Connecting` token that holds a
back-reference runs `connected`, which removes the queue of its key and so drops every
sender in it. The receiver of such a sender is then `Released`: nothing was sent on it, its
sender is gone, and no queue holds it. No later operation can send on it, since `put` sends
only along a queue and `Checkout::checkout` queues only fresh channels; so the `Checkout`
parked on it resolves, at its next poll, to `CheckoutNoLongerWanted`, whatever ran in between.
`Pool::pooled` drops the token the same way when the connect succeeds with a connection that
cannot be shared, so its waiters are released then too. -/

namespace LegacyPool

open Function

variable {T K : Type} [DecidableEq K] {P : Poolable T}

/-- Channel `c` has been given up: nothing was sent, its sender is gone, and no queue holds it. -/
structure Released (c : Nat) (s : State T K) : Prop where
  lt : c < s.nextChan
  dropped : (s.chans c).txLive = false
  empty : (s.chans c).data = none
  unqueued : ∀ inner, s.pool = some inner → ∀ k, c ∉ (inner.waiters k).getD []

theorem put_unqueued {env : Env T} {inner : PoolInner T K} {chans : Nat → Chan T} {key : K} {value : T}
    {r : PoolInner T K × (Nat → Chan T)} {c : Nat} (h : inner.put P env chans key value = .ok r)
    (hc : ∀ k, c ∉ (inner.waiters k).getD []) : r.2 c = chans c ∧ ∀ k, c ∉ (r.1.waiters k).getD [] := by
  rcases put_cases h with ⟨-, -, rfl⟩ | ⟨-, o, ho, rfl⟩
  · exact ⟨rfl, hc⟩
  rcases offer_cases ho with ⟨-, rfl⟩ | ⟨q, r', hq, hr', rfl⟩
  · exact ⟨rfl, by simpa using hc⟩
  have hcq : c ∉ q := by simpa [hq] using hc key
  refine ⟨handoff_frame hr' c hcq, fun k => ?_⟩
  simp only [insert_waiters]
  by_cases hk : k = key
  · subst hk
    simp only [update_same]
    split
    · simp
    · exact fun hm => hcq ((handoff_rest hr').1.subset hm)
  · rw [update_noteq hk]; exact hc k

namespace Released

variable {c : Nat} {s : State T K}

omit [DecidableEq K] in
theorem clock (hd : Released c s) (now : Nat) : Released c { s with clock := now } :=
  ⟨hd.lt, hd.dropped, hd.empty, hd.unqueued⟩

theorem move {s' : State T K} (hm : Move P s s') (hd : Released c s) : Released c s' := by
  cases hm with
  | @put inner env key value r hpool _ hput =>
    obtain ⟨hch, hq⟩ := put_unqueued hput (hd.unqueued inner hpool)
    exact ⟨hd.lt, by simp only [hch, hd.dropped], by simp only [hch, hd.empty],
      fun _ h => by cases h; exact hq⟩
  | @connected inner key hpool =>
    have hc : c ∉ (inner.waiters key).getD [] := hd.unqueued inner hpool key
    have hch : (inner.connected s.chans key).2.1 c = s.chans c := by
      simp only [PoolInner.connected, dropSenders, if_neg hc]
    refine ⟨hd.lt, by simp only [hch, hd.dropped], by simp only [hch, hd.empty], fun _ h k => ?_⟩
    cases h
    by_cases hk : k = key
    · subst hk; simp [connected_fst]
    · simp only [connected_fst, update_noteq hk]; exact hd.unqueued inner hpool k
  | @mark inner key hpool => exact ⟨hd.lt, hd.dropped, hd.empty, fun _ h => by cases h; exact hd.unqueued inner hpool⟩
  | @probe inner isOpen key hpool =>
    obtain ⟨l, hl⟩ := takeIdle_frame (P := P) isOpen s.clock inner key
    exact ⟨hd.lt, hd.dropped, hd.empty, fun _ h => by cases h; rw [hl]; exact hd.unqueued inner hpool⟩
  | @register inner key i hpool _ =>
    have hne : c ≠ s.nextChan := Nat.ne_of_lt hd.lt
    refine ⟨Nat.lt_succ_of_lt hd.lt, by simp [hne, hd.dropped], by simp [hne, hd.empty], fun _ h k => ?_⟩
    cases h
    by_cases hk : k = key
    · subst hk
      simp only [PoolInner.pushWaiter, update_same, Option.getD_some, List.mem_append, List.mem_singleton,
        not_or]
      exact ⟨hd.unqueued inner hpool k, hne⟩
    · simp only [PoolInner.pushWaiter, update_noteq hk]; exact hd.unqueued inner hpool k
  | @clean inner key hpool =>
    obtain ⟨w, hw, hcases⟩ := cleanWaiters_frame inner s.chans key
    refine ⟨hd.lt, hd.dropped, hd.empty, fun _ h k => ?_⟩
    cases h
    rw [hw]
    by_cases hk : k = key
    · subst hk
      simp only [update_same]
      rcases hcases with rfl | ⟨q, rfl, -, rfl⟩
      · simp
      · exact fun hm => hd.unqueued inner hpool k (List.mem_filter.1 hm).1
    · simp only [update_noteq hk]; exact hd.unqueued inner hpool k
  | @expire inner inner' isOpen hpool hexp =>
    obtain ⟨dur, -, rfl⟩ := clearExpired_spec hexp
    exact ⟨hd.lt, hd.dropped, hd.empty, fun _ h => by cases h; exact hd.unqueued inner hpool⟩
  | dropRx rx =>
    by_cases hc : c = rx
    · subst hc
      exact ⟨hd.lt, by simp [Chan.dropReceiver, hd.dropped], by simp [Chan.dropReceiver], hd.unqueued⟩
    · exact ⟨hd.lt, by simp [hc, hd.dropped], by simp [hc, hd.empty], hd.unqueued⟩
  | client h1 h2 h3 _ =>
    exact ⟨h3 ▸ hd.lt, h2 ▸ hd.dropped, h2 ▸ hd.empty, fun inner h => hd.unqueued inner (h1 ▸ h)⟩

theorem poll (hd : Released c s) (env : Env T) (i : Nat) {co : Checkout K} (hw : co.waiter = some c) :
    ∃ s', Checkout.poll P env s i co = .ok (s', .ready (.error .checkoutNoLongerWanted)) := by
  have hc : (s.chans c).poll = .canceled := by simp [Chan.poll, hd.empty, hd.dropped]
  exact ⟨{ s with chans := update s.chans c (s.chans c).dropReceiver,
                  checkouts := update s.checkouts i (some { co with waiter := none }) },
    by simp [Checkout.poll, Checkout.pollWaiter, hw, hc]⟩

end Released

omit [DecidableEq K] in
theorem Connecting.drop_nextPooled [DecidableEq K] (tok : Connecting K) (s : State T K) :
    (tok.drop s).nextPooled = s.nextPooled := by
  unfold Connecting.drop; split <;> rfl

theorem released_of_dropConnecting {s : State T K} (hw : Waiting s) {inner : PoolInner T K}
    (hpool : s.pool = some inner) {j : Nat} {tok : Connecting K} (htok : s.tokens j = some tok)
    (hback : tok.pool = true) {c : Nat} (hc : c ∈ (inner.waiters tok.key).getD []) :
    Released c (s.dropConnecting j) := by
  obtain ⟨hlt, hdata, -, -⟩ := hw.queued inner hpool tok.key c hc
  simp only [State.dropConnecting, htok]
  rw [Connecting.drop_of_pool tok (s := { s with tokens := update s.tokens j none }) hpool, if_pos hback]
  have hch : (inner.connected s.chans tok.key).2.1 c = (s.chans c).dropSender := by
    simp only [PoolInner.connected, dropSenders, if_pos hc]
  refine ⟨hlt, by simp only [State.debugAssert, hch]; rfl, by simp only [State.debugAssert, hch]; exact hdata,
    fun _ h k => ?_⟩
  cases h
  by_cases hk : k = tok.key
  · subst hk; simp [connected_fst]
  · simp only [connected_fst, update_noteq hk]
    exact fun hk' => hk (hw.queue_unique hpool hk' hc)

/-- A failed connect releases its waiters. When a client drops a back-referenced `Connecting`
token (its HTTP/2 connect failed) while `Checkout`s are parked on its key, each of them, after
any operations of any clients, resolves at its next poll to `CheckoutNoLongerWanted`: it is
neither left pending nor handed a connection later returned for the key. -/
theorem failed_connect_releases_waiters {s : State T K} (h : Reachable P anyStep s)
    {inner : PoolInner T K} (hpool : s.pool = some inner) {j : Nat} {tok : Connecting K}
    (htok : s.tokens j = some tok) (hback : tok.pool = true) {c : Nat}
    (hc : c ∈ (inner.waiters tok.key).getD []) {env : Env T} {s1 : State T K}
    (h1 : step P env (.dropConnecting j) s = .ok s1) {trace : List (Env T × Op T K)} {s' : State T K}
    (hr : run P trace s1 = .ok s') (env' : Env T) (i : Nat) {co : Checkout K} (hw : co.waiter = some c) :
    ∃ s'', Checkout.poll P env' s' i co = .ok (s'', .ready (.error .checkoutNoLongerWanted)) := by
  cases h1
  have hd := released_of_dropConnecting ((reachable_waiting h).clock env.now) hpool htok hback hc
  exact (run_of_moves (fun _ now hd => Released.clock hd now) (fun _ _ hm hd => hd.move hm) hd hr).poll
    env' i hw

/-- `waitTrace` leaves a `Checkout` for key 7 parked behind an HTTP/2 connect. The connect
fails; then an HTTP/1 connection for key 7 is made, handed out and returned to the pool. The
parked `Checkout` does not get it: it resolves to `CheckoutNoLongerWanted`. -/
theorem failed_connect_releases_waiters_wait : ∃ s inner s1 s' s'',
    run uniq waitTrace (State.noTimer 2) = .ok s ∧ s.pool = some inner ∧ s.tokens 0 = some ⟨7, true⟩ ∧
    0 ∈ (inner.waiters 7).getD [] ∧ step uniq (Env.quiet 3) (.dropConnecting 0) s = .ok s1 ∧
    run uniq [(Env.quiet 4, .connecting 7 .auto), (Env.quiet 5, .pooled 1 42), (Env.quiet 6, .dropPooled 0)]
      s1 = .ok s' ∧
    s'.checkouts 0 = some ⟨7, some 0⟩ ∧ (s'.pool.map fun inner => (inner.idle 7).isSome) = some true ∧
    Checkout.poll uniq (Env.quiet 7) s' 0 ⟨7, some 0⟩ = .ok (s'', .ready (.error .checkoutNoLongerWanted)) := by
  have hr : run uniq waitTrace (State.noTimer 2) = .ok _ := rfl
  obtain ⟨s'', hs''⟩ := @failed_connect_releases_waiters Nat Nat _ uniq _ (Reachable.run (.init _ _) hr) _ rfl 0 _
    rfl rfl 0 (by decide) (Env.quiet 3) _ rfl
    [(Env.quiet 4, .connecting 7 .auto), (Env.quiet 5, .pooled 1 42), (Env.quiet 6, .dropPooled 0)] _ rfl
    (Env.quiet 7) 0 ⟨7, some 0⟩ rfl
  exact ⟨_, _, _, _, s'', hr, rfl, rfl, by decide, rfl, rfl, rfl, rfl, hs''⟩

/-- A connect that succeeds with a connection that cannot be shared still turns its waiters
away. `pooled` with a back-referenced `Connecting` token (the client asked for HTTP/2) and a
value whose reservation is `Unique` hands the value to its caller, with a back-reference so
that its drop returns it, and drops the token; the token's `Drop` runs `connected`, which
removes the queue of the key. Every `Checkout` parked on the key then resolves, after any
further operations, to `CheckoutNoLongerWanted`. The comment in `connected` reads waiters left
at that point as a sign that the connect did not complete successfully; here it did. -/
theorem unique_connect_releases_waiters {s : State T K} (h : Reachable P anyStep s)
    {inner : PoolInner T K} (hpool : s.pool = some inner) {j : Nat} {tok : Connecting K}
    (htok : s.tokens j = some tok) (hback : tok.pool = true) {v u : T} (hres : P.reserve v = .unique u)
    {c : Nat} (hc : c ∈ (inner.waiters tok.key).getD []) (env : Env T) :
    ∃ s1, step P env (.pooled j v) s = .ok s1 ∧ s1.pooleds s.nextPooled = some ⟨some u, false, tok.key, true⟩ ∧
      ∀ trace s', run P trace s1 = .ok s' → ∀ env' i (co : Checkout K), co.waiter = some c →
        ∃ s'', Checkout.poll P env' s' i co = .ok (s'', .ready (.error .checkoutNoLongerWanted)) := by
  let s1 := (({ s with clock := env.now }.dropConnecting j).addPooled ⟨some u, false, tok.key, true⟩).syncDrops
  have hm : Move P ({ s with clock := env.now }.dropConnecting j) s1 := .client rfl rfl rfl rfl
  have hd : Released c s1 :=
    (released_of_dropConnecting ((reachable_waiting h).clock env.now) hpool htok hback hc).move hm
  refine ⟨s1, ?_, by simp [s1, State.syncDrops, State.addPooled, State.dropConnecting, htok, Connecting.drop_nextPooled],
    fun trace s' hr env' i co hw => ?_⟩
  · simp only [s1, step, stepOp, State.pooled, State.dropConnecting, htok, Pool.pooled, hpool, hres]
    rfl
  · exact (run_of_moves (fun _ now hd => Released.clock hd now) (fun _ _ hm hd => hd.move hm) hd hr).poll env' i hw

/-- `waitTrace` leaves a `Checkout` for key 7 parked behind an HTTP/2 connect for 7, whose
connection 41 turns out to be HTTP/1. The caller gets 41 with a back-reference to the pool; the
parked `Checkout` is still there and resolves to `CheckoutNoLongerWanted`. -/
theorem unique_connect_releases_waiters_wait : ∃ s inner s1 s'',
    run uniq waitTrace (State.noTimer 2) = .ok s ∧ s.pool = some inner ∧ s.tokens 0 = some ⟨7, true⟩ ∧
    inner.waiters 7 = some [0] ∧ step uniq (Env.quiet 3) (.pooled 0 41) s = .ok s1 ∧
    s1.pooleds 0 = some ⟨some 41, false, 7, true⟩ ∧ s1.checkouts 0 = some ⟨7, some 0⟩ ∧
    Checkout.poll uniq (Env.quiet 4) s1 0 ⟨7, some 0⟩ = .ok (s'', .ready (.error .checkoutNoLongerWanted)) := by
  obtain ⟨s, inner, s1, hr, hpool, htok, hw, h1, hco, hnp⟩ : ∃ s inner s1,
      run uniq waitTrace (State.noTimer 2) = .ok s ∧ s.pool = some inner ∧ s.tokens 0 = some ⟨7, true⟩ ∧
      inner.waiters 7 = some [0] ∧ step uniq (Env.quiet 3) (.pooled 0 41) s = .ok s1 ∧
      s1.checkouts 0 = some ⟨7, some 0⟩ ∧ s.nextPooled = 0 :=
    ⟨_, _, _, rfl, rfl, rfl, rfl, rfl, rfl, rfl⟩
  obtain ⟨s1', h1', hp, hrest⟩ := unique_connect_releases_waiters (Reachable.run (.init _ _) hr) hpool htok rfl
    (rfl : uniq.reserve 41 = .unique 41) (show 0 ∈ (inner.waiters 7).getD [] by simp [hw]) (Env.quiet 3)
  obtain rfl : s1 = s1' := Except.ok.inj (h1.symm.trans h1')
  obtain ⟨s'', hs''⟩ := hrest [] s1 rfl (Env.quiet 4) 0 ⟨7, some 0⟩ rfl
  exact ⟨s, inner, s1, s'', hr, hpool, htok, hw, h1, hnp ▸ hp, hco, hs''⟩

end LegacyPool
