import LegacyPool.Proofs.SingleFlight

/-! A disabled pool, and which `debug_assert!`s can fire. `Pool::new` with
`max_idle_per_host = 0` makes no `PoolInner`; nothing creates one later, so every token and
every handle is plain, no `Checkout` parks, and each poll resolves to `PoolDisabled`. Of the
four `debug_assert!`s, the one of `Pool::pooled` needs a token pointing to a pool that is gone,
which a disabled pool never hands out and an enabled one never loses, and the one of
`Future for Checkout` holds because `checkout` registers the waiter before `Pending` is
returned: only those of `connected` and `Connecting::alpn_h2` can fire. -/

namespace LegacyPool

open Function

variable {T K : Type} [DecidableEq K] {P : Poolable T}

theorem Pool.connecting_none (key : K) (ver : Ver) :
    Pool.connecting (none : Option (PoolInner T K)) key ver = (none, some ⟨key, false⟩) := by
  cases ver <;> rfl

theorem Connecting.drop_of_none (tok : Connecting K) {s : State T K} (hpool : s.pool = none) :
    tok.drop s = s := by
  unfold Connecting.drop; simp [hpool]

theorem Checkout.poll_disabled (env : Env T) {s : State T K} (hpool : s.pool = none) (i : Nat)
    {co : Checkout K} (hw : co.waiter = none) :
    Checkout.poll P env s i co = .ok (s, .ready (.error .poolDisabled)) := by
  simp [Checkout.poll, Checkout.pollWaiter, Checkout.checkout, hw, hpool, Except.map]

/-- A pool `Pool::new` did not enable, with what its clients hold. -/
structure Disabled (s : State T K) : Prop where
  pool : s.pool = none
  tokens : ∀ j tok, s.tokens j = some tok → tok.pool = false
  pooleds : ∀ p pd, s.pooleds p = some pd → pd.pool = false
  waiters : ∀ i co, s.checkouts i = some co → co.waiter = none
  quiet : s.debugLog = []

namespace Disabled

variable {s : State T K}

omit [DecidableEq K] in
theorem shrink (hd : Disabled s) {s' : State T K} (h1 : s'.pool = s.pool)
    (h2 : ∀ j tok, s'.tokens j = some tok → s.tokens j = some tok)
    (h3 : ∀ p pd, s'.pooleds p = some pd → s.pooleds p = some pd)
    (h4 : ∀ i co, s'.checkouts i = some co → s.checkouts i = some co) (h5 : s'.debugLog = s.debugLog) :
    Disabled s' :=
  ⟨h1.trans hd.pool, fun j tok h => hd.tokens j tok (h2 j tok h), fun p pd h => hd.pooleds p pd (h3 p pd h),
   fun i co h => hd.waiters i co (h4 i co h), h5.trans hd.quiet⟩

omit [DecidableEq K] in
theorem addToken (hd : Disabled s) (key : K) : Disabled (s.addToken (some ⟨key, false⟩)) := by
  refine ⟨hd.pool, fun j tok h => ?_, hd.pooleds, hd.waiters, hd.quiet⟩
  by_cases hj : j = s.nextToken
  · subst hj; simp only [State.addToken, update_same, Option.some.injEq] at h; rw [← h]
  · simp only [State.addToken, update_noteq hj] at h; exact hd.tokens j tok h

omit [DecidableEq K] in
theorem debugAssert (hd : Disabled s) (msg : String) : Disabled (s.debugAssert true msg) :=
  hd.shrink rfl (fun _ _ h => h) (fun _ _ h => h) (fun _ _ h => h) (by simp [State.debugAssert])

omit [DecidableEq K] in
theorem addPooled (hd : Disabled s) {pd : Pooled T K} (hpd : pd.pool = false) : Disabled (s.addPooled pd) := by
  refine ⟨hd.pool, hd.tokens, fun p pd' h => ?_, hd.waiters, hd.quiet⟩
  by_cases hp : p = s.nextPooled
  · subst hp; simp only [State.addPooled, update_same, Option.some.injEq] at h; rw [← h, hpd]
  · simp only [State.addPooled, update_noteq hp] at h; exact hd.pooleds p pd' h

omit [DecidableEq K] in
theorem syncDrops (hd : Disabled s) : Disabled s.syncDrops :=
  hd.shrink rfl (fun _ _ h => h) (fun _ _ h => h) (fun _ _ h => (Option.filter_eq_some.1 h).1) rfl

omit [DecidableEq K] in
theorem poolNone (hd : Disabled s) : Disabled { s with pool := none } :=
  hd.shrink hd.pool.symm (fun _ _ h => h) (fun _ _ h => h) (fun _ _ h => h) rfl

omit [DecidableEq K] in
theorem clock (hd : Disabled s) (now : Nat) : Disabled { s with clock := now } :=
  hd.shrink rfl (fun _ _ h => h) (fun _ _ h => h) (fun _ _ h => h) rfl

omit [DecidableEq K] in
theorem dropToken (hd : Disabled s) (j : Nat) : Disabled { s with tokens := update s.tokens j none } :=
  hd.shrink rfl (fun _ _ h => (of_update_none h).2) (fun _ _ h => h) (fun _ _ h => h) rfl

omit [DecidableEq K] in
theorem dropCheckout (hd : Disabled s) (i : Nat) : Disabled { s with checkouts := update s.checkouts i none } :=
  hd.shrink rfl (fun _ _ h => h) (fun _ _ h => h) (fun _ _ h => (of_update_none h).2) rfl

theorem stepOp {env : Env T} {op : Op T K} {s' : State T K} (hd : Disabled s)
    (h : stepOp P env op s = .ok s') : Disabled s' := by
  cases op with
  | checkout key =>
    cases h
    refine ⟨hd.pool, hd.tokens, hd.pooleds, fun i co h => ?_, hd.quiet⟩
    by_cases hi : i = s.nextCheckout
    · subst hi; simp only [State.checkout, update_same, Option.some.injEq] at h; rw [← h]
    · simp only [State.checkout, update_noteq hi] at h; exact hd.waiters i co h
  | poll i =>
    rcases stepOp_poll h with ⟨-, rfl⟩ | ⟨co, r, hco, hr, rfl⟩
    · exact hd
    · rw [Checkout.poll_disabled env hd.pool i (hd.waiters i co hco)] at hr
      cases hr
      exact hd.dropCheckout i
  | dropCheckout i =>
    cases h
    unfold State.dropCheckout
    split
    · exact hd
    · rename_i co hco
      rw [hd.waiters i co hco]
      exact hd.dropCheckout i
  | cleanCheckout i =>
    cases h
    unfold State.cleanCheckout
    split
    · exact hd
    · exact hd.shrink (by simp [hd.pool]) (fun _ _ h => h) (fun _ _ h => h) (fun _ _ h => h) rfl
  | connecting key ver =>
    cases h
    simp only [State.connecting, hd.pool, Pool.connecting_none]
    exact hd.poolNone.addToken key
  | alpnH2 j =>
    cases h
    unfold State.alpnH2
    split
    · exact hd
    · rename_i tok htok
      simp only [State.debugAssert, hd.tokens j tok htok, Bool.not_false, ite_true, hd.pool,
        Pool.connecting_none, Connecting.drop_of_plain tok _ (hd.tokens j tok htok)]
      exact (hd.dropToken j).poolNone.addToken tok.key
  | dropConnecting j =>
    cases h
    unfold State.dropConnecting
    split
    · exact hd
    · rename_i tok htok
      rw [Connecting.drop_of_plain tok _ (hd.tokens j tok htok)]
      exact hd.dropToken j
  | pooled j value =>
    obtain ⟨s1, rfl, ⟨-, rfl⟩ | ⟨tok, r, htok, hr, rfl⟩⟩ := stepOp_pooled h
    · exact hd.syncDrops
    · simp only [Pool.pooled, hd.pool, hd.tokens j tok htok, Bool.not_false] at hr
      cases hr
      exact (((hd.dropToken j).poolNone.debugAssert _).addPooled rfl).syncDrops
  | dropPooled p =>
    have hclear : Disabled { s with pooleds := update s.pooleds p none } :=
      hd.shrink rfl (fun _ _ h => h) (fun _ _ h => (of_update_none h).2) (fun _ _ h => h) rfl
    obtain ⟨s1, rfl, ⟨-, rfl⟩ | rfl | ⟨_, _, _, _, -, -, hpool, -⟩⟩ := stepOp_dropPooled h
    · exact hd.syncDrops
    · exact hclear.syncDrops
    · rw [hd.pool] at hpool; cases hpool
  | idleTick =>
    rcases stepOp_idleTick h with rfl | ⟨_, _, hpool, -⟩
    · exact hd
    · rw [hd.pool] at hpool; cases hpool
  | idleSleep => obtain rfl := stepOp_idleSleep h; exact hd

end Disabled

omit [DecidableEq K] in
theorem disabled_init {config : Config} (hoff : config.isEnabled = false) (timer : Bool) :
    Disabled (State.init config timer : State T K) :=
  ⟨by simp [State.init, Pool.new, hoff], fun _ _ h => (nomatch h), fun _ _ h => (nomatch h),
   fun _ _ h => (nomatch h), rfl⟩

theorem run_disabled {config : Config} (hoff : config.isEnabled = false) (timer : Bool)
    {trace : List (Env T × Op T K)} {s : State T K} (hr : run P trace (State.init config timer) = .ok s) :
    Disabled s :=
  run_of_steps (fun _ _ env _ hd hs => (hd.clock env.now).stepOp hs) (disabled_init hoff timer) hr

/-- A disabled pool stays off. Whatever the clients do with a pool that `Pool::new` got with
`max_idle_per_host = 0`, it stays `None`; no handle points back to it, so `Drop for Pooled`
never returns a connection; no `Checkout` parks a waiter, and polling any of them resolves
at once to `PoolDisabled`; and no `debug_assert!` fires. -/
theorem disabled_pool_stays_off {config : Config} (hoff : config.isEnabled = false) (timer : Bool)
    {trace : List (Env T × Op T K)} {s : State T K} (hr : run P trace (State.init config timer) = .ok s) :
    s.pool = none ∧ (∀ p pd, s.pooleds p = some pd → pd.pool = false) ∧ s.debugLog = [] ∧
    ∀ env i co, s.checkouts i = some co →
      co.waiter = none ∧ Checkout.poll P env s i co = .ok (s, .ready (.error .poolDisabled)) := by
  have hd := run_disabled hoff timer hr
  exact ⟨hd.pool, hd.pooleds, hd.quiet, fun env i co h =>
    ⟨hd.waiters i co h, Checkout.poll_disabled env hd.pool i (hd.waiters i co h)⟩⟩

/-- `test_pool_checkout_smoke` on a pool with `max_idle_per_host = 0`, and a `Checkout` for
key 7 afterwards: the connection was not kept, and the `Checkout` fails at once. -/
theorem disabled_pool_smoke : ∃ s,
    run uniq (smokeTrace ++ [(Env.quiet 3, .checkout 7)]) (State.init ⟨some 100000000, 0⟩ false) = .ok s ∧
    s.checkouts 0 = some ⟨7, none⟩ ∧
    s.pool = none ∧ (∀ p pd, s.pooleds p = some pd → pd.pool = false) ∧ s.debugLog = [] ∧
    ∀ env i co, s.checkouts i = some co →
      co.waiter = none ∧ Checkout.poll uniq env s i co = .ok (s, .ready (.error .poolDisabled)) :=
  have hr : run uniq (smokeTrace ++ [(Env.quiet 3, .checkout 7)])
      (State.init ⟨some 100000000, 0⟩ false : State Nat Nat) = .ok _ := rfl
  ⟨_, hr, rfl, disabled_pool_stays_off (by rfl) false hr⟩

/-! An enabled pool stays enabled, and its log holds only the failures a client can cause. -/

/-- The log holds only failures of the two assertions a client can break: `connected` on a
key not marked as connecting, and `alpn_h2` on an HTTP/2 token. -/
def Logged (s : State T K) : Prop :=
  ∀ m ∈ s.debugLog, m = "Connecting dropped, key not in pool.connecting" ∨
    m = "Connecting::alpn_h2 but already Http2"

theorem Move.pool_isSome {s s' : State T K} (hm : Move P s s') (h : s.pool.isSome) : s'.pool.isSome := by
  cases hm <;> first | rfl | exact h | (rename_i h1 _ _ _; rwa [h1])

omit [DecidableEq K] in
theorem State.addToken_debugLog (s : State T K) (t : Option (Connecting K)) :
    (s.addToken t).debugLog = s.debugLog := by
  cases t <;> rfl

omit [DecidableEq K] in
theorem State.settle_debugLog (i : Nat) (r : State T K × Poll (Except Error (Pooled T K))) :
    (State.settle i r).debugLog = r.1.debugLog := by
  rcases r with ⟨s, (_ | _) | _⟩ <;> rfl

omit [DecidableEq K] in
theorem Checkout.pollWaiter_debugLog (env : Env T) (s : State T K) (i : Nat) (co : Checkout K) :
    (Checkout.pollWaiter P env s i co).1.debugLog = s.debugLog := by
  unfold Checkout.pollWaiter
  split
  · rfl
  · split <;> rfl

theorem Checkout.poll_debugLog {env : Env T} {s : State T K} {i : Nat} {co : Checkout K}
    {r : State T K × Poll (Except Error (Pooled T K))} (h : Checkout.poll P env s i co = .ok r) :
    r.1.debugLog = s.debugLog := by
  have hw := Checkout.pollWaiter_debugLog (P := P) env s i co
  unfold Checkout.poll at h
  split at h
  · rename_i hsplit; cases h; rw [hsplit] at hw; exact hw
  · rename_i hsplit; cases h; rw [hsplit] at hw; exact hw
  · rename_i s1 hsplit
    have h0 : (Checkout.pollWaiter P env s i co).2 = .ready none := by rw [hsplit]
    obtain ⟨hnone, hs1⟩ := pollWaiter_of_ready_none h0
    rw [hsplit] at hs1
    cases hs1
    obtain ⟨r1, hr1, rfl⟩ := except_map_eq_ok.1 h
    unfold Checkout.checkout at hr1
    split at hr1
    · rename_i hp; cases hr1; simp [hp]
    · split at hr1
      · split at hr1
        · cases hr1; simp [State.debugAssert]
        · cases hr1
      · rename_i hne
        cases hr1
        cases he : (PoolInner.takeIdle P env.isOpen env.now _ co.key).2 with
        | none => exact absurd hnone (hne he)
        | some e => simp [he]

namespace Logged

variable {s : State T K}

omit [DecidableEq K] in
theorem of_eq {s' : State T K} (hl : Logged s) (h : s'.debugLog = s.debugLog) : Logged s' := by
  unfold Logged; rw [h]; exact hl

omit [DecidableEq K] in
theorem debugAssert (hl : Logged s) (cond : Bool) {msg : String}
    (hmsg : msg = "Connecting dropped, key not in pool.connecting" ∨
      msg = "Connecting::alpn_h2 but already Http2") : Logged (s.debugAssert cond msg) := by
  intro m hm
  simp only [State.debugAssert] at hm
  split at hm
  · exact hl m hm
  · rcases List.mem_append.1 hm with hm | hm
    · exact hl m hm
    · rw [List.mem_singleton.1 hm]; exact hmsg

theorem drop (hl : Logged s) (tok : Connecting K) : Logged (tok.drop s) := by
  unfold Connecting.drop
  split
  · exact debugAssert hl _ (.inl rfl)
  · exact hl

theorem stepOp {env : Env T} {op : Op T K} {s' : State T K} (hl : Logged s) (hpool : s.pool.isSome)
    (h : stepOp P env op s = .ok s') : Logged s' := by
  cases op with
  | checkout key => cases h; exact hl
  | poll i =>
    rcases stepOp_poll h with ⟨-, rfl⟩ | ⟨co, r, -, hr, rfl⟩
    · exact hl
    · exact hl.of_eq ((State.settle_debugLog i r).trans (Checkout.poll_debugLog hr))
  | dropCheckout i =>
    cases h
    unfold State.dropCheckout
    split
    · exact hl
    · split <;> exact hl
  | cleanCheckout i =>
    cases h
    unfold State.cleanCheckout
    split <;> exact hl
  | connecting key ver => cases h; exact hl.of_eq (State.addToken_debugLog _ _)
  | alpnH2 j =>
    cases h
    unfold State.alpnH2
    split
    · exact hl
    · rename_i tok _
      have h1 : Logged ({ s with tokens := update s.tokens j none }.debugAssert (!tok.pool)
          "Connecting::alpn_h2 but already Http2") := debugAssert hl _ (.inr rfl)
      refine Logged.of_eq (drop ?_ tok) (State.addToken_debugLog _ _)
      exact h1
  | dropConnecting j =>
    cases h
    unfold State.dropConnecting
    split
    · exact hl
    · refine drop ?_ _; exact hl
  | pooled j value =>
    obtain ⟨s1, rfl, ⟨-, rfl⟩ | ⟨tok, r, -, hr, rfl⟩⟩ := stepOp_pooled h
    · exact hl
    · show Logged r.1
      unfold Pool.pooled at hr
      split at hr
      · split at hr
        · obtain ⟨r', -, rfl⟩ := except_map_eq_ok.1 hr
          exact debugAssert hl _ (.inl rfl)
        · cases hr; refine drop ?_ tok; exact hl
      · rename_i hnone
        have hnone : s.pool = none := hnone
        rw [hnone] at hpool; cases hpool
  | dropPooled p =>
    obtain ⟨s1, rfl, ⟨-, rfl⟩ | rfl | ⟨_, _, _, _, -, -, -, -, -, -, rfl⟩⟩ := stepOp_dropPooled h <;> exact hl
  | idleTick => rcases stepOp_idleTick h with rfl | ⟨_, _, -, -, -, rfl⟩ <;> exact hl
  | idleSleep => obtain rfl := stepOp_idleSleep h; exact hl

end Logged

omit [DecidableEq K] in
theorem enabled_init {config : Config} (hon : config.isEnabled = true) (timer : Bool) :
    (State.init config timer : State T K).pool.isSome := by
  simp [State.init, Pool.new, hon]

theorem run_logged {config : Config} (hon : config.isEnabled = true) (timer : Bool)
    {trace : List (Env T × Op T K)} {s : State T K} (hr : run P trace (State.init config timer) = .ok s) :
    s.pool.isSome ∧ Logged s := by
  refine run_of_steps (I := fun s : State T K => s.pool.isSome ∧ Logged s) (fun s s' env op hs h => ?_)
    ⟨enabled_init hon timer, nofun⟩ hr
  have hm : Relation.ReflTransGen (Move P) { s with clock := env.now } s' := stepOp_moves rfl h
  exact ⟨moves_preserve (fun _ _ hm h => Move.pool_isSome hm h) hm hs.1,
    Logged.stepOp (s := { s with clock := env.now }) hs.2 hs.1 h⟩

/-- Two of the four `debug_assert!`s never fire, in any run of any pool: that of
`Pool::pooled` (a token given to a disabled pool holds no back-reference to a live pool)
and that of `Future for Checkout` (`Pending` without a waiter). The log of failed
assertions holds only those of `connected` and `Connecting::alpn_h2`, which a client can
break. -/
theorem only_client_asserts_fire (config : Config) (timer : Bool) {trace : List (Env T × Op T K)}
    {s : State T K} (hr : run P trace (State.init config timer) = .ok s) :
    ∀ m ∈ s.debugLog, m = "Connecting dropped, key not in pool.connecting" ∨
      m = "Connecting::alpn_h2 but already Http2" := by
  cases hon : config.isEnabled
  · rw [(run_disabled hon timer hr).quiet]
    exact nofun
  · exact (run_logged hon timer hr).2

/-- `alpn_h2` called on the HTTP/2 token `connecting(7, Http2)` gave: its assertion fails,
and that is all the log holds. -/
theorem only_client_asserts_fire_h2 : ∃ s,
    run multiplexed [(Env.quiet 0, .connecting 7 .http2), (Env.quiet 1, .alpnH2 0)] (State.noTimer 2) = .ok s ∧
    s.debugLog = ["Connecting::alpn_h2 but already Http2"] ∧
    ∀ m ∈ s.debugLog, m = "Connecting dropped, key not in pool.connecting" ∨
      m = "Connecting::alpn_h2 but already Http2" :=
  have hr : run multiplexed [(Env.quiet 0, .connecting 7 .http2), (Env.quiet 1, .alpnH2 0)]
      (State.noTimer 2) = .ok _ := rfl
  ⟨_, hr, rfl, only_client_asserts_fire _ _ hr⟩

end LegacyPool
