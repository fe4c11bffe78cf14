import LegacyPool.Sanity.Pop

/-! Single flight for HTTP/2 connects. A key is marked as connecting exactly while one
token with a back-reference for it is out, and never two are: `Pool::connecting` hands a
token out only when it marks the key, and every way a token ends (its drop, `pooled` with
either reservation) runs `connected` once, which clears the mark. So the `debug_assert!`
of `connected` never fires. This needs the client to give a shared value to `pooled` only
with a back-referenced token and to upgrade only tokens without one, as the client of the
pool does. -/

namespace LegacyPool

open Function

variable {T K : Type} [DecidableEq K] {P : Poolable T}

/-- The client discipline single flight needs: a value whose reservation is `Shared` is
pooled only with a back-referenced token, and `alpn_h2` upgrades only a token without one. -/
def singleFlight (P : Poolable T) (s : State T K) (_ : Env T) : Op T K → Prop
  | .pooled j value => ∀ tok, s.tokens j = some tok → (P.reserve value).split.1.isSome → tok.pool = true
  | .alpnH2 j => ∀ tok, s.tokens j = some tok → tok.pool = false
  | _ => True

/-- The single-flight bookkeeping: token ids are fresh, a key is marked exactly when a
back-referenced token for it is out, there is one such token per key, and the
`debug_assert!` of `connected` has not fired. -/
structure Flight (s : State T K) : Prop where
  fresh : ∀ j, s.nextToken ≤ j → s.tokens j = none
  marked : ∀ inner, s.pool = some inner → ∀ k, inner.connecting k = true ↔ ∃ j, s.tokens j = some ⟨k, true⟩
  unique : ∀ j j' k, s.tokens j = some ⟨k, true⟩ → s.tokens j' = some ⟨k, true⟩ → j = j'
  quiet : "Connecting dropped, key not in pool.connecting" ∉ s.debugLog

/-- A change the single-flight bookkeeping cannot see. -/
structure FlightFrame (s s' : State T K) : Prop where
  tokens : s'.tokens = s.tokens
  nextToken : s'.nextToken = s.nextToken
  connecting : s'.pool.map PoolInner.connecting = s.pool.map PoolInner.connecting
  log : "Connecting dropped, key not in pool.connecting" ∈ s'.debugLog →
    "Connecting dropped, key not in pool.connecting" ∈ s.debugLog

omit [DecidableEq K] in
theorem FlightFrame.refl (s : State T K) : FlightFrame s s := ⟨rfl, rfl, rfl, id⟩

omit [DecidableEq K] in
theorem FlightFrame.trans {s s' s'' : State T K} (h1 : FlightFrame s s') (h2 : FlightFrame s' s'') :
    FlightFrame s s'' :=
  ⟨h2.tokens.trans h1.tokens, h2.nextToken.trans h1.nextToken, h2.connecting.trans h1.connecting,
   fun h => h1.log (h2.log h)⟩

omit [DecidableEq K] in
theorem FlightFrame.of_pool {s s' : State T K} (h1 : s'.tokens = s.tokens) (h2 : s'.nextToken = s.nextToken)
    (h3 : s'.pool.map PoolInner.connecting = s.pool.map PoolInner.connecting)
    (h4 : s'.debugLog = s.debugLog ∨ ∃ msg, msg ≠ "Connecting dropped, key not in pool.connecting" ∧
      s'.debugLog = s.debugLog ++ [msg]) : FlightFrame s s' := by
  refine ⟨h1, h2, h3, fun h => ?_⟩
  rcases h4 with h4 | ⟨msg, hne, h4⟩
  · exact h4 ▸ h
  · rw [h4, List.mem_append, List.mem_singleton] at h
    exact h.resolve_right (Ne.symm hne)

omit [DecidableEq K] in
theorem FlightFrame.debugAssert (s : State T K) (cond : Bool) (msg : String)
    (hne : msg ≠ "Connecting dropped, key not in pool.connecting") : FlightFrame s (s.debugAssert cond msg) := by
  refine .of_pool rfl rfl rfl ?_
  cases cond
  · exact .inr ⟨msg, hne, rfl⟩
  · exact .inl rfl

omit [DecidableEq K] in
theorem Flight.frame {s s' : State T K} (hf : Flight s) (hfr : FlightFrame s s') : Flight s' := by
  refine ⟨fun j hj => hfr.tokens ▸ hf.fresh j (hfr.nextToken ▸ hj), fun inner' hpool' k => ?_,
    fun j j' k => hfr.tokens ▸ hf.unique j j' k, fun h => hf.quiet (hfr.log h)⟩
  have hc := hfr.connecting
  rw [hpool'] at hc
  obtain ⟨inner, hpool, hconn⟩ := Option.map_eq_some'.1 hc.symm
  rw [← hconn, hfr.tokens]
  exact hf.marked inner hpool k

/-! Only `Pool::connecting`, `connected` and the token's own operations touch the marks. -/

theorem put_connecting {inner : PoolInner T K} {env : Env T} {chans : Nat → Chan T} {key : K}
    {value : T} {r : PoolInner T K × (Nat → Chan T)} (h : inner.put P env chans key value = .ok r) :
    r.1.connecting = inner.connecting := by
  rcases put_cases h with ⟨-, -, rfl⟩ | ⟨-, o, ho, rfl⟩
  · rfl
  · obtain ⟨w, hw⟩ := offer_frame ho
    simp [hw]

theorem takeIdle_connecting (isOpen : T → Bool) (now : Nat) (inner : PoolInner T K) (key : K) :
    (inner.takeIdle P isOpen now key).1.connecting = inner.connecting := by
  obtain ⟨l, hl⟩ := takeIdle_frame (P := P) isOpen now inner key
  rw [hl]

omit [DecidableEq K] in
theorem pollWaiter_flightFrame (env : Env T) (s : State T K) (i : Nat) (co : Checkout K) :
    FlightFrame s (Checkout.pollWaiter P env s i co).1 := by
  unfold Checkout.pollWaiter
  split
  · exact .refl s
  · split <;> exact ⟨rfl, rfl, rfl, id⟩

theorem checkout_flightFrame {env : Env T} {s : State T K} {i : Nat} {co : Checkout K}
    {r : State T K × Option (Pooled T K)} (h : Checkout.checkout P env s i co = .ok r) :
    FlightFrame s r.1 := by
  unfold Checkout.checkout at h
  split at h
  · cases h; exact .refl s
  · rename_i inner hpool
    have hc := takeIdle_connecting (P := P) env.isOpen env.now inner co.key
    split at h
    · split at h
      · cases h
        exact .of_pool rfl rfl (by simp [hpool, PoolInner.pushWaiter, hc]) (.inl rfl)
      · cases h
    · cases h
      exact .of_pool rfl rfl (by simp [hpool, hc]) (.inl rfl)

theorem poll_flightFrame {env : Env T} {s s' : State T K} {i : Nat} (h : s.poll P env i = .ok s') :
    FlightFrame s s' := by
  unfold State.poll at h
  split at h
  · cases h; exact .refl s
  · rename_i co _
    obtain ⟨r, hr, rfl⟩ := except_map_eq_ok.1 h
    have hw := pollWaiter_flightFrame (P := P) env s i co
    unfold Checkout.poll at hr
    split at hr
    · rename_i hsplit; cases hr; rw [hsplit] at hw; exact hw
    · rename_i r hsplit; cases hr; rw [hsplit] at hw
      cases r <;> exact hw.trans ⟨rfl, rfl, rfl, id⟩
    · rename_i s1 hsplit
      obtain ⟨-, hs1⟩ := pollWaiter_of_ready_none (by rw [hsplit])
      rw [hsplit] at hs1; subst hs1
      obtain ⟨r1, hr1, rfl⟩ := except_map_eq_ok.1 hr
      have hc := checkout_flightFrame hr1
      rcases r1 with ⟨s2, _ | p⟩
      · dsimp only
        split
        · exact hc.trans ⟨rfl, rfl, rfl, id⟩
        · exact hc.trans (.debugAssert _ _ _ (by decide))
      · exact hc.trans ⟨rfl, rfl, rfl, id⟩

omit [DecidableEq K] in
theorem dropCheckout_flightFrame (s : State T K) (i : Nat) : FlightFrame s (s.dropCheckout i) := by
  unfold State.dropCheckout
  split
  · exact .refl s
  · split <;> exact ⟨rfl, rfl, rfl, id⟩

theorem cleanCheckout_flightFrame (s : State T K) (i : Nat) : FlightFrame s (s.cleanCheckout i) := by
  unfold State.cleanCheckout
  split
  · exact .refl s
  · rename_i key _
    refine .of_pool rfl rfl ?_ (.inl rfl)
    cases s.pool with
    | none => rfl
    | some inner =>
      obtain ⟨w, hw, -⟩ := cleanWaiters_frame inner s.chans key
      simp [hw]

theorem dropPooled_flightFrame {env : Env T} {s s' : State T K} {p : Nat}
    (h : s.dropPooled P env p = .ok s') : FlightFrame s s' := by
  unfold State.dropPooled at h
  split at h
  · cases h; exact .refl s
  · split at h
    · rename_i inner hpool
      split at h
      · obtain ⟨r, hr, rfl⟩ := except_map_eq_ok.1 h
        exact .of_pool rfl rfl (by simp [hpool, put_connecting hr]) (.inl rfl)
      · cases h; exact ⟨rfl, rfl, rfl, id⟩
    · cases h; exact ⟨rfl, rfl, rfl, id⟩

omit [DecidableEq K] in
theorem idleTick_flightFrame {env : Env T} {s s' : State T K} (h : s.idleTick env = .ok s') :
    FlightFrame s s' := by
  unfold State.idleTick at h
  split at h
  · rename_i inner hpool
    split at h
    · cases h; exact .refl s
    · obtain ⟨inner', he, rfl⟩ := except_map_eq_ok.1 h
      obtain ⟨dur, -, rfl⟩ := clearExpired_spec he
      exact .of_pool rfl rfl (by simp [hpool]) (.inl rfl)
  · cases h; exact .refl s

omit [DecidableEq K] in
theorem syncDrops_flightFrame (s : State T K) : FlightFrame s s.syncDrops := ⟨rfl, rfl, rfl, id⟩

omit [DecidableEq K] in
theorem addPooled_flightFrame (s : State T K) (p : Pooled T K) : FlightFrame s (s.addPooled p) :=
  ⟨rfl, rfl, rfl, id⟩

/-! How tokens come and go. -/

omit [DecidableEq K] in
theorem Flight.remove {s : State T K} (hf : Flight s) {j : Nat} {tok : Connecting K}
    (hj : s.tokens j = some tok) (hplain : tok.pool = false ∨ s.pool = none) :
    Flight { s with tokens := update s.tokens j none } := by
  refine ⟨fun j' hj' => ?_, fun inner hpool k => ?_, fun a b k ha hb => ?_, hf.quiet⟩
  · simp only [update_apply]; split
    · rfl
    · exact hf.fresh j' hj'
  · -- the token that goes is not the back-referenced one for `k`
    have hother : s.tokens j ≠ some ⟨k, true⟩ := by
      rw [hj]; rintro ⟨⟩
      rcases hplain with h | h
      · cases h
      · simp [h] at hpool
    have hne : ∀ j', update s.tokens j none j' = some ⟨k, true⟩ ↔ s.tokens j' = some ⟨k, true⟩ := fun j' => by
      by_cases hjj : j' = j
      · subst hjj; simpa using hother
      · simp [hjj]
    simp only [hne]
    exact hf.marked inner hpool k
  · exact hf.unique a b k (of_update_none ha).2 (of_update_none hb).2

omit [DecidableEq K] in
theorem Flight.addPlain {s : State T K} (hf : Flight s) (key : K) :
    Flight (s.addToken (some ⟨key, false⟩)) := by
  have hne : ∀ j k, update s.tokens s.nextToken (some ⟨key, false⟩) j = some ⟨k, true⟩ ↔
      s.tokens j = some ⟨k, true⟩ := fun j k => by
    by_cases hj : j = s.nextToken
    · subst hj; simp [hf.fresh _ (Nat.le_refl _)]
    · simp [hj]
  refine ⟨fun j hj => ?_, fun inner hpool k => ?_, fun a b k ha hb => ?_, hf.quiet⟩
  · simp only [State.addToken] at hj ⊢
    rw [update_noteq (by omega)]
    exact hf.fresh j (by omega)
  · simp only [State.addToken, hne]; exact hf.marked inner hpool k
  · simp only [State.addToken, hne] at ha hb; exact hf.unique a b k ha hb

theorem Flight.mark {s : State T K} (hf : Flight s) {inner : PoolInner T K} (hpool : s.pool = some inner)
    {key : K} (hfree : inner.connecting key = false) :
    Flight ({ s with pool := some { inner with connecting := update inner.connecting key true } }.addToken
      (some ⟨key, true⟩)) := by
  have hnew : ∀ j k, update s.tokens s.nextToken (some ⟨key, true⟩) j = some ⟨k, true⟩ ↔
      (j = s.nextToken ∧ k = key) ∨ s.tokens j = some ⟨k, true⟩ := fun j k => by
    by_cases hj : j = s.nextToken
    · subst hj; simp [hf.fresh _ (Nat.le_refl _), eq_comm]
    · simp [hj]
  -- no token for `key` is out, since it was not marked
  have hnone : ∀ j, s.tokens j ≠ some ⟨key, true⟩ := fun j hj => by
    have := (hf.marked inner hpool key).2 ⟨j, hj⟩
    rw [hfree] at this; cases this
  refine ⟨fun j hj => ?_, fun inner' hpool' k => ?_, fun a b k ha hb => ?_, hf.quiet⟩
  · simp only [State.addToken] at hj ⊢
    rw [update_noteq (by omega)]
    exact hf.fresh j (by omega)
  · simp only [State.addToken, Option.some.injEq] at hpool'
    subst hpool'
    simp only [State.addToken, hnew]
    by_cases hk : k = key
    · subst hk; simp
    · simp only [update_noteq hk, hk, and_false, false_or]
      exact hf.marked inner hpool k
  · simp only [State.addToken, hnew] at ha hb
    rcases ha with ⟨rfl, rfl⟩ | ha <;> rcases hb with ⟨rfl, hk⟩ | hb
    · rfl
    · exact absurd hb (hnone b)
    · exact absurd (hk ▸ ha) (hnone a)
    · exact hf.unique a b k ha hb

theorem Flight.connecting {s : State T K} (hf : Flight s) (key : K) (ver : Ver) :
    Flight (s.connecting key ver) := by
  unfold State.connecting Pool.connecting
  split
  · rename_i inner hpool
    split
    · exact hf.frame ⟨rfl, rfl, by simp [hpool], id⟩
    · rename_i hfree
      exact hf.mark hpool (by simpa using hfree)
  · exact (hf.frame ⟨rfl, rfl, rfl, id⟩).addPlain key

theorem Flight.consume {s : State T K} (hf : Flight s) {j : Nat} {k : K} (hj : s.tokens j = some ⟨k, true⟩)
    {inner inner' : PoolInner T K} (hpool : s.pool = some inner) (hconn : inner'.connecting = inner.connecting)
    (chans : Nat → Chan T) :
    Flight (State.debugAssert
      { s with tokens := update s.tokens j none, pool := some (inner'.connected chans k).1,
               chans := (inner'.connected chans k).2.1 }
      (inner'.connected chans k).2.2 "Connecting dropped, key not in pool.connecting") := by
  have hmarked : inner'.connecting k = true := hconn ▸ (hf.marked inner hpool k).2 ⟨j, hj⟩
  have hgone : ∀ j' k', update s.tokens j none j' = some ⟨k', true⟩ ↔
      s.tokens j' = some ⟨k', true⟩ ∧ j' ≠ j := fun j' k' => by
    by_cases hjj : j' = j
    · subst hjj; simp
    · simp [hjj]
  refine ⟨fun j' hj' => ?_, fun inner'' hpool'' k' => ?_, fun a b k' ha hb => ?_, ?_⟩
  · simp only [State.debugAssert, update_apply]
    split
    · rfl
    · exact hf.fresh j' hj'
  · simp only [State.debugAssert, Option.some.injEq] at hpool''
    subst hpool''
    simp only [State.debugAssert, connected_fst, hgone, hconn]
    by_cases hk : k' = k
    · -- the token was the only one for `k`
      subst hk
      simp only [update_same, Bool.false_eq_true, false_iff, not_exists, not_and]
      exact fun j' h hne => hne (hf.unique j' j k' h hj)
    · rw [update_noteq hk, hf.marked inner hpool k']
      refine ⟨fun ⟨j', h⟩ => ⟨j', h, ?_⟩, fun ⟨j', h, _⟩ => ⟨j', h⟩⟩
      rintro rfl
      rw [hj] at h
      cases h
      exact hk rfl
  · simp only [State.debugAssert, hgone] at ha hb
    exact hf.unique a b k' ha.1 hb.1
  · simpa [State.debugAssert, PoolInner.connected, hmarked] using hf.quiet

theorem Connecting.drop_of_plain (tok : Connecting K) (s : State T K) (h : tok.pool = false) :
    tok.drop s = s := by
  unfold Connecting.drop; rw [h]

theorem Flight.dropToken {s : State T K} (hf : Flight s) {j : Nat} {tok : Connecting K}
    (hj : s.tokens j = some tok) : Flight (tok.drop { s with tokens := update s.tokens j none }) := by
  have hcases : s.pool = none ∨ ∃ inner, s.pool = some inner := by cases s.pool <;> simp
  rcases hcases with hpool | ⟨inner, hpool⟩
  · have : tok.drop { s with tokens := update s.tokens j none } = { s with tokens := update s.tokens j none } := by
      unfold Connecting.drop; split <;> simp_all
    rw [this]; exact hf.remove hj (.inr hpool)
  · rw [Connecting.drop_of_pool tok (s := { s with tokens := update s.tokens j none }) hpool]
    obtain ⟨k, b⟩ := tok
    cases b
    · exact hf.remove hj (.inl rfl)
    · exact hf.consume hj hpool rfl s.chans

theorem Flight.alpnH2 {s : State T K} (hf : Flight s) (j : Nat)
    (hd : ∀ tok, s.tokens j = some tok → tok.pool = false) : Flight (s.alpnH2 j) := by
  unfold State.alpnH2
  split
  · exact hf
  · rename_i tok hj
    have hplain := hd tok hj
    have hs1 := (hf.remove hj (.inl hplain)).frame
      (FlightFrame.debugAssert _ (!tok.pool) "Connecting::alpn_h2 but already Http2" (by decide))
    dsimp only
    rw [Connecting.drop_of_plain tok _ hplain]
    exact hs1.connecting tok.key .http2

theorem Flight.pooled {s s' : State T K} (hf : Flight s) {env : Env T} {j : Nat} {value : T}
    (hd : ∀ tok, s.tokens j = some tok → (P.reserve value).split.1.isSome → tok.pool = true)
    (h : s.pooled P env j value = .ok s') : Flight s' := by
  unfold State.pooled at h
  split at h
  · cases h; exact hf
  · rename_i tok hj
    obtain ⟨r, hr, rfl⟩ := except_map_eq_ok.1 h
    refine Flight.frame ?_ (addPooled_flightFrame _ _)
    unfold Pool.pooled at hr
    split at hr
    · rename_i inner hpool
      split at hr
      · rename_i a b hres
        obtain ⟨r', hput, rfl⟩ := except_map_eq_ok.1 hr
        obtain ⟨k, back⟩ := tok
        obtain rfl : back = true := hd _ hj (by simp [hres, Reservation.split])
        exact hf.consume hj hpool (put_connecting hput) r'.2
      · cases hr; exact hf.dropToken hj
    · rename_i hpool
      cases hr
      exact (hf.remove hj (.inr hpool)).frame (FlightFrame.debugAssert _ _ _ (by decide))

theorem Flight.step {s s' : State T K} {env : Env T} {op : Op T K} (hf : Flight s)
    (hd : singleFlight P s env op) (h : step P env op s = .ok s') : Flight s' := by
  have hf0 : Flight { s with clock := env.now } := hf.frame ⟨rfl, rfl, rfl, id⟩
  unfold LegacyPool.step at h
  cases op with
  | checkout key => cases h; exact hf0.frame ⟨rfl, rfl, rfl, id⟩
  | poll i => exact hf0.frame (poll_flightFrame h)
  | dropCheckout i => cases h; exact hf0.frame (dropCheckout_flightFrame _ i)
  | cleanCheckout i => cases h; exact hf0.frame (cleanCheckout_flightFrame _ i)
  | connecting key ver => cases h; exact hf0.connecting key ver
  | alpnH2 j => cases h; exact hf0.alpnH2 j hd
  | dropConnecting j =>
    cases h; unfold State.dropConnecting
    split
    · exact hf0
    · exact hf0.dropToken ‹_›
  | pooled j value =>
    obtain ⟨s1, h1, rfl⟩ := except_map_eq_ok.1 h
    exact (hf0.pooled hd h1).frame (syncDrops_flightFrame _)
  | dropPooled p =>
    obtain ⟨s1, h1, rfl⟩ := except_map_eq_ok.1 h
    exact (hf0.frame (dropPooled_flightFrame h1)).frame (syncDrops_flightFrame _)
  | idleTick => exact hf0.frame (idleTick_flightFrame h)
  | idleSleep => obtain rfl := stepOp_idleSleep h; exact hf0

omit [DecidableEq K] in
theorem flight_init (config : Config) (timer : Bool) : Flight (State.init config timer : State T K) := by
  refine ⟨fun _ _ => rfl, fun inner h k => ?_, fun _ _ _ h => (by cases h), by simp [State.init]⟩
  simp only [State.init, Pool.new] at h
  split at h
  · cases h; simp [State.init]
  · cases h

theorem reachable_flight {s : State T K} (h : Reachable P (singleFlight P) s) : Flight s := by
  induction h with
  | init c t => exact flight_init c t
  | step _ hd hstep ih => exact ih.step hd hstep

/-- Single flight: in every state reached under the client discipline, a key is marked as
connecting exactly when a back-referenced token for it is out, never two are, and the
`debug_assert!` of `connected` has never fired, so `connected` ran only on marked keys. -/
theorem single_flight {s : State T K} (h : Reachable P (singleFlight P) s) {inner : PoolInner T K}
    (hpool : s.pool = some inner) (k : K) :
    (inner.connecting k = true ↔ ∃ j, s.tokens j = some ⟨k, true⟩) ∧
    (∀ j j', s.tokens j = some ⟨k, true⟩ → s.tokens j' = some ⟨k, true⟩ → j = j') ∧
    "Connecting dropped, key not in pool.connecting" ∉ s.debugLog :=
  ⟨(reachable_flight h).marked inner hpool k, fun j j' => (reachable_flight h).unique j j' k,
    (reachable_flight h).quiet⟩

theorem single_flight_h2 : ∃ s inner,
    step multiplexed (Env.quiet 0) (.connecting 7 .http2) (State.noTimer 2) = .ok s ∧
    s.pool = some inner ∧ s.tokens 0 = some ⟨7, true⟩ ∧
    (inner.connecting 7 = true ↔ ∃ j, s.tokens j = some ⟨7, true⟩) ∧
    (∀ j j', s.tokens j = some ⟨7, true⟩ → s.tokens j' = some ⟨7, true⟩ → j = j') ∧
    "Connecting dropped, key not in pool.connecting" ∉ s.debugLog :=
  have hs : step multiplexed (Env.quiet 0) (.connecting 7 .http2) (State.noTimer 2) = .ok _ := rfl
  ⟨_, _, hs, rfl, rfl, single_flight ((Reachable.init _ _).step (by exact trivial) hs) rfl 7⟩

end LegacyPool
