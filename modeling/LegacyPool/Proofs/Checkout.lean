import LegacyPool.Proofs.Wakeup

/-! What a `Checkout` hands out. Through the waiter channel it gives a value only if that
value is open; through the idle probe it gives the handed-out half of the last usable
entry, open and not expired at the probe. Either way the handle is marked reused. Then the
round trip of the client: a unique value returned through `Pooled`'s drop is the one the
next `Checkout` for its key gets back. Both hold in every state, reachable or not. -/

namespace LegacyPool

open Function

variable {T K : Type} [DecidableEq K] {P : Poolable T} {env : Env T} {s : State T K}
  {i : Nat} {co : Checkout K}

omit [DecidableEq K] in
theorem pollWaiter_ready_some {r : Except Error (Pooled T K)}
    (h : (Checkout.pollWaiter P env s i co).2 = .ready (some r)) :
    ∃ rx, co.waiter = some rx ∧
      (((s.chans rx).poll = .canceled ∧ r = .error .checkoutNoLongerWanted) ∨
       ∃ v, (s.chans rx).poll = .ready v ∧
         ((env.isOpen v = true ∧ r = .ok (Pool.reuse P s.pool co.key v)) ∨
          (env.isOpen v = false ∧ r = .error .checkedOutClosedValue))) := by
  unfold Checkout.pollWaiter at h
  split at h
  · cases h
  · rename_i rx hw
    refine ⟨rx, hw, ?_⟩
    split at h
    · rename_i v hv
      refine .inr ⟨v, hv, ?_⟩
      split at h <;> cases h
      · exact .inl ⟨‹_›, rfl⟩
      · rename_i hclosed; exact .inr ⟨by simpa using hclosed, rfl⟩
    · cases h
    · cases h; exact .inl ⟨‹_›, rfl⟩

/-- `IdlePopper::pop` hands out the most recent usable entry of any list. It returns an
entry exactly when some entry is open and within the timeout (the idle time saturating,
and no timeout never expiring); with `j` the largest such index the entry carries
`L[j].idle_at` and the half `L[j]`'s reservation hands out, and the list left is
`L[0..j]`, then for a shared reservation the retained half stamped `now`. With nothing to
hand out it leaves the list empty. -/
theorem pop_most_recent_usable (isOpen : T → Bool) (timeout : Option Nat) (now : Nat)
    (L : List (Idle T)) :
    ((IdlePopper.pop P isOpen ⟨timeout⟩ now L).1.isSome ↔
      ∃ j, ∃ hj : j < L.length, isOpen L[j].value = true ∧ ∀ t, timeout = some t → now - L[j].idleAt ≤ t) ∧
    (∀ j (hj : j < L.length), (isOpen L[j].value = true ∧ ∀ t, timeout = some t → now - L[j].idleAt ≤ t) →
      (∀ i (hi : i < L.length), j < i →
        ¬(isOpen L[i].value = true ∧ ∀ t, timeout = some t → now - L[i].idleAt ≤ t)) →
      (∀ keep give, P.reserve L[j].value = .shared keep give →
        IdlePopper.pop P isOpen ⟨timeout⟩ now L = (some ⟨L[j].idleAt, give⟩, L.take j ++ [⟨now, keep⟩])) ∧
      (∀ u, P.reserve L[j].value = .unique u →
        IdlePopper.pop P isOpen ⟨timeout⟩ now L = (some ⟨L[j].idleAt, u⟩, L.take j))) ∧
    ((IdlePopper.pop P isOpen ⟨timeout⟩ now L).1 = none →
      (IdlePopper.pop P isOpen ⟨timeout⟩ now L).2 = []) := by
  obtain ⟨hfound, hempty⟩ := pop_found_iff (P := P) isOpen ⟨timeout⟩ now L
  refine ⟨by simpa only [usable_iff] using hfound, fun j hj hu hmax => ?_, hempty⟩
  have hpop := pop_of_last_usable (P := P) isOpen ⟨timeout⟩ now L j hj ((usable_iff ..).2 hu)
    fun i hi hji => Bool.eq_false_iff.2 fun h => hmax i hi hji ((usable_iff ..).1 h)
  exact ⟨fun keep give hres => by simpa [kept, hres, Reservation.split] using hpop,
    fun u hres => by simpa [kept, hres, Reservation.split] using hpop⟩

theorem takeIdle_some {isOpen : T → Bool} {now : Nat} {inner : PoolInner T K} {key : K}
    {e : Idle T} (h : (inner.takeIdle P isOpen now key).2 = some e) :
    ∃ list x, inner.idle key = some list ∧ x ∈ list ∧ usable isOpen ⟨inner.timeout⟩ now x ∧
      e = ⟨x.idleAt, (P.reserve x.value).split.2⟩ := by
  unfold PoolInner.takeIdle at h
  split at h
  · rename_i list hm
    cases h
    obtain ⟨l, hl, hp⟩ := Option.map_eq_some'.1 hm
    rcases pop_spec (P := P) isOpen ⟨inner.timeout⟩ now l with
      ⟨-, hpop⟩ | ⟨pre, x, post, rfl, -, hx, hpop⟩ <;> rw [hpop] at hp <;> cases hp
    exact ⟨_, x, hl, by simp, hx, rfl⟩
  · cases h

theorem checkout_some {s' : State T K} {p : Pooled T K}
    (h : Checkout.checkout P env s i co = .ok (s', some p)) :
    ∃ inner e, s.pool = some inner ∧ (inner.takeIdle P env.isOpen env.now co.key).2 = some e ∧
      p = Pool.reuse P s.pool co.key e.value := by
  unfold Checkout.checkout at h
  split at h
  · cases h
  · rename_i inner hpool
    split at h
    · split at h <;> cases h
    · obtain ⟨e, he, rfl⟩ := Option.map_eq_some'.1 (Prod.mk.inj (Except.ok.inj h)).2
      exact ⟨inner, e, hpool, he, rfl⟩

theorem poll_ready_ok_cases {s' : State T K} {p : Pooled T K}
    (h : Checkout.poll P env s i co = .ok (s', .ready (.ok p))) :
    (∃ rx v, co.waiter = some rx ∧ (s.chans rx).poll = .ready v ∧ env.isOpen v = true ∧
      p = Pool.reuse P s.pool co.key v) ∨
    (co.waiter = none ∧ ∃ inner e, s.pool = some inner ∧
      (inner.takeIdle P env.isOpen env.now co.key).2 = some e ∧ p = Pool.reuse P s.pool co.key e.value) := by
  unfold Checkout.poll at h
  split at h
  · cases h
  · rename_i r hsplit
    cases h
    obtain ⟨rx, hw, ⟨-, hr⟩ | ⟨v, hv, ⟨ho, hr⟩ | ⟨-, hr⟩⟩⟩ := pollWaiter_ready_some (by rw [hsplit])
    · cases hr
    · cases hr; exact .inl ⟨rx, v, hw, hv, ho, rfl⟩
    · cases hr
  · rename_i s1 hsplit
    obtain ⟨hw, hs1⟩ := pollWaiter_of_ready_none (by rw [hsplit])
    rw [hsplit] at hs1; subst hs1
    obtain ⟨r, hr, hp⟩ := except_map_eq_ok.1 h
    rcases r with ⟨r1, _ | p'⟩
    · dsimp only at hp; split at hp <;> cases hp
    · cases hp; exact .inr ⟨hw, checkout_some hr⟩

theorem poll_closed {rx : Nat} {v : T} (hw : co.waiter = some rx) (hv : (s.chans rx).poll = .ready v)
    (hclosed : env.isOpen v = false) :
    ∃ s', Checkout.poll P env s i co = .ok (s', .ready (.error .checkedOutClosedValue)) :=
  ⟨_, by simp [Checkout.poll, Checkout.pollWaiter, hw, hv, hclosed]; rfl⟩

/-- A `Checkout` never yields a closed or expired connection: given that the half a
reservation hands out is open when the value is, a ready handle is reused and holds an
open value, which came through the waiter channel or from an idle entry that was open and
within the idle timeout at the probe; a closed value from the channel is refused. -/
theorem checkout_yields_open
    (hhalf : ∀ v, env.isOpen v = true → env.isOpen (P.reserve v).split.2 = true) :
    (∀ s' p, Checkout.poll P env s i co = .ok (s', .ready (.ok p)) →
      p.isReused = true ∧ ∃ v, p.value = some v ∧ env.isOpen v = true ∧
        ((∃ rx, co.waiter = some rx ∧ (s.chans rx).poll = .ready v) ∨
         ∃ inner list x, s.pool = some inner ∧ inner.idle co.key = some list ∧ x ∈ list ∧
           env.isOpen x.value = true ∧ (∀ t, inner.timeout = some t → env.now - x.idleAt ≤ t) ∧
           v = (P.reserve x.value).split.2)) ∧
    (∀ rx v, co.waiter = some rx → (s.chans rx).poll = .ready v → env.isOpen v = false →
      ∃ s', Checkout.poll P env s i co = .ok (s', .ready (.error .checkedOutClosedValue))) := by
  refine ⟨fun s' p h => ?_, fun rx v hw hv hc => poll_closed hw hv hc⟩
  rcases poll_ready_ok_cases h with ⟨rx, v, hw, hv, ho, rfl⟩ | ⟨-, inner, e, hpool, he, rfl⟩
  · exact ⟨rfl, v, rfl, ho, .inl ⟨rx, hw, hv⟩⟩
  · obtain ⟨list, x, hl, hx, hu, rfl⟩ := takeIdle_some he
    obtain ⟨ho, hfresh⟩ := (usable_iff ..).1 hu
    exact ⟨rfl, _, rfl, hhalf _ ho, .inr ⟨inner, list, x, hpool, hl, hx, ho, hfresh, rfl⟩⟩

/-- Checkouts for key 7 that yield: one from the idle list (`test_pool_checkout_smoke`, 41
returned at 2 and probed at 4), one through its channel (`test_pool_checkout_task_unparked`,
41 sent by the drop of its handle), and that channel's 41 refused when it has closed by the
poll. -/
theorem checkout_yields_open_smoke :
    (∃ s s' p, run uniq smokeTrace (State.noTimer 2) = .ok s ∧
      Checkout.poll uniq (Env.quiet 4) s 0 ⟨7, none⟩ = .ok (s', .ready (.ok p)) ∧ p.value = some 41 ∧
      p.isReused = true ∧ ∃ v, p.value = some v ∧ (Env.quiet 4).isOpen v = true ∧
        ((∃ rx, (⟨7, none⟩ : Checkout Nat).waiter = some rx ∧ (s.chans rx).poll = .ready v) ∨
         ∃ inner list x, s.pool = some inner ∧ inner.idle 7 = some list ∧ x ∈ list ∧
           (Env.quiet 4).isOpen x.value = true ∧ (∀ t, inner.timeout = some t → 4 - x.idleAt ≤ t) ∧
           v = (uniq.reserve x.value).split.2)) ∧
    (∃ s s' p, run uniq unparkTrace (State.noTimer 2) = .ok s ∧ s.checkouts 0 = some ⟨7, some 0⟩ ∧
      Checkout.poll uniq (Env.quiet 5) s 0 ⟨7, some 0⟩ = .ok (s', .ready (.ok p)) ∧ p.value = some 41 ∧
      p.isReused = true ∧ ∃ v, p.value = some v ∧ (Env.quiet 5).isOpen v = true ∧
        ((∃ rx, (⟨7, some 0⟩ : Checkout Nat).waiter = some rx ∧ (s.chans rx).poll = .ready v) ∨
         ∃ inner list x, s.pool = some inner ∧ inner.idle 7 = some list ∧ x ∈ list ∧
           (Env.quiet 5).isOpen x.value = true ∧ (∀ t, inner.timeout = some t → 5 - x.idleAt ≤ t) ∧
           v = (uniq.reserve x.value).split.2)) ∧
    (∃ s, run uniq unparkTrace (State.noTimer 2) = .ok s ∧ ∃ s',
      Checkout.poll uniq ⟨5, fun _ => false, fun _ => false⟩ s 0 ⟨7, some 0⟩ =
        .ok (s', .ready (.error .checkedOutClosedValue))) := by
  refine ⟨?_, ?_, ?_⟩
  · obtain ⟨s, s', p, hr, hpoll, hp⟩ : ∃ s s' p, run uniq smokeTrace (State.noTimer 2) = .ok s ∧
        Checkout.poll uniq (Env.quiet 4) s 0 ⟨7, none⟩ = .ok (s', .ready (.ok p)) ∧ p.value = some 41 :=
      ⟨_, _, _, rfl, rfl, rfl⟩
    exact ⟨s, s', p, hr, hpoll, hp, (checkout_yields_open fun _ _ => rfl).1 s' p hpoll⟩
  · obtain ⟨s, s', p, hr, hco, hpoll, hp⟩ : ∃ s s' p, run uniq unparkTrace (State.noTimer 2) = .ok s ∧
        s.checkouts 0 = some ⟨7, some 0⟩ ∧
        Checkout.poll uniq (Env.quiet 5) s 0 ⟨7, some 0⟩ = .ok (s', .ready (.ok p)) ∧ p.value = some 41 :=
      ⟨_, _, _, rfl, rfl, rfl, rfl⟩
    exact ⟨s, s', p, hr, hco, hpoll, hp, (checkout_yields_open fun _ _ => rfl).1 s' p hpoll⟩
  · obtain ⟨s, hr, hc0⟩ : ∃ s, run uniq unparkTrace (State.noTimer 2) = .ok s ∧
        (s.chans 0).poll = .ready 41 := ⟨_, rfl, rfl⟩
    refine ⟨s, hr, ?_⟩
    exact (checkout_yields_open fun _ h => h).2 0 41 rfl hc0 rfl

theorem offer_of_canceled {racing : Nat → Bool} {inner : PoolInner T K} {chans : Nat → Chan T}
    {key : K} {value : T} (hfree : ∀ c ∈ (inner.waiters key).getD [], (chans c).isCanceled) :
    inner.offer P racing chans key value =
      .ok ({ inner with waiters := update inner.waiters key none }, chans, some value) := by
  unfold PoolInner.offer
  cases hw : inner.waiters key with
  | none => simp only [← hw, update_eq_self]
  | some q =>
    simp only [hw, Option.getD_some] at hfree
    simp [handoff_of_canceled hfree, Except.map]

theorem put_appends (env : Env T) {inner : PoolInner T K} {chans : Nat → Chan T} {key : K}
    {value : T} (hshare : P.canShare value = false)
    (hfree : ∀ c ∈ (inner.waiters key).getD [], (chans c).isCanceled)
    (hroom : ((inner.idle key).getD []).length < inner.maxIdlePerHost) :
    ∃ inner', inner.put P env chans key value = .ok (inner', chans) ∧
      inner'.idle key = some ((inner.idle key).getD [] ++ [⟨env.now, value⟩]) ∧
      inner'.timeout = inner.timeout := by
  refine ⟨({ inner with waiters := update inner.waiters key none }).insert env.now key (some value),
    by simp [PoolInner.put, hshare, offer_of_canceled hfree, Except.map], ?_, by simp⟩
  simp [PoolInner.insert, Nat.not_le.2 hroom]

theorem takeIdle_last {isOpen : T → Bool} {now : Nat} {inner : PoolInner T K} {key : K}
    {pre : List (Idle T)} {x : Idle T} {w : T} (hl : inner.idle key = some (pre ++ [x]))
    (hx : usable isOpen ⟨inner.timeout⟩ now x) (hres : P.reserve x.value = .unique w) :
    (inner.takeIdle P isOpen now key).2 = some ⟨x.idleAt, w⟩ := by
  simp only [usable, Bool.and_eq_true, Bool.not_eq_true'] at hx
  simp [PoolInner.takeIdle, hl, IdlePopper.pop, IdlePopper.popRev, hx.1, hx.2, hres]

theorem pooled_unique_step {s : State T K} {inner : PoolInner T K} (hpool : s.pool = some inner)
    {j : Nat} {tok : Connecting K} (htok : s.tokens j = some tok) {v : T}
    (hres : P.reserve v = .unique v) (env : Env T)
    (hfree : ∀ c ∈ (inner.waiters tok.key).getD [], (s.chans c).rxLive = false) :
    ∃ s₁ inner₁, step P env (.pooled j v) s = .ok s₁ ∧
      s₁.pooleds s.nextPooled = some ⟨some v, false, tok.key, true⟩ ∧
      s₁.pool = some inner₁ ∧ inner₁.idle = inner.idle ∧ inner₁.maxIdlePerHost = inner.maxIdlePerHost ∧
      inner₁.timeout = inner.timeout ∧
      ∀ c ∈ (inner₁.waiters tok.key).getD [], (s₁.chans c).rxLive = false := by
  simp only [step, stepOp, State.pooled, Pool.pooled, htok, hpool, hres]
  cases htp : tok.pool
  · refine ⟨_, inner, rfl, ?_⟩
    simp only [State.syncDrops, State.addPooled, Connecting.drop, htp, update_same, true_and]
    exact hfree
  · refine ⟨_, (inner.connected s.chans tok.key).1, rfl, ?_⟩
    simp only [State.syncDrops, State.addPooled, Connecting.drop, htp, State.debugAssert, connected_fst,
      update_same, Option.getD_none, List.not_mem_nil, false_implies, implies_true, and_self]

theorem dropPooled_checkout_reuses {s₁ : State T K} {inner₁ : PoolInner T K}
    (hpool : s₁.pool = some inner₁) {p : Nat} {k : K} {v : T}
    (hp : s₁.pooleds p = some ⟨some v, false, k, true⟩)
    (hshare : P.canShare v = false) (hres : P.reserve v = .unique v)
    (hfree : ∀ c ∈ (inner₁.waiters k).getD [], (s₁.chans c).rxLive = false)
    (hroom : ((inner₁.idle k).getD []).length < inner₁.maxIdlePerHost)
    (env₂ env₃ env₄ : Env T) (hopen₂ : env₂.isOpen v = true) (hopen₄ : env₄.isOpen v = true)
    (hfresh : ∀ t, inner₁.timeout = some t → env₄.now - env₂.now ≤ t) :
    ∃ s₂ s₃ s₄ p', step P env₂ (.dropPooled p) s₁ = .ok s₂ ∧ step P env₃ (.checkout k) s₂ = .ok s₃ ∧
      s₃.checkouts s₂.nextCheckout = some ⟨k, none⟩ ∧
      Checkout.poll P env₄ { s₃ with clock := env₄.now } s₂.nextCheckout ⟨k, none⟩ =
        .ok (s₄, .ready (.ok p')) ∧
      p'.value = some v ∧ p'.isReused = true := by
  obtain ⟨inner₂, hput, hidle, htime⟩ := put_appends env₂ hshare
    (fun c hc => by simpa [Chan.isCanceled] using hfree c hc) hroom
  have hfresh' : usable env₄.isOpen ⟨inner₂.timeout⟩ env₄.now ⟨env₂.now, v⟩ :=
    (usable_iff ..).2 ⟨hopen₄, fun t ht => hfresh t (htime ▸ ht)⟩
  have he := takeIdle_last hidle hfresh' hres
  exact ⟨_, _, _, Pool.reuse P (some inner₂) k v,
    by simp [step, stepOp, State.dropPooled, hp, hpool, hopen₂, hput, Except.map]; rfl,
    rfl, by simp [State.checkout],
    by simp [Checkout.poll, Checkout.pollWaiter, Checkout.checkout, State.syncDrops, State.checkout, he,
      Except.map]; rfl, rfl, rfl⟩

/-- Return-then-checkout round trip: from any state, an open unique value given to
`pooled` with a token for `k`, at a time when no live waiter is parked for `k` and
`idle[k]` has room, is what a fresh `Checkout` for `k` gets back, marked reused, when it
is polled within the idle timeout of the handle's drop. -/
theorem pooled_drop_then_checkout (s : State T K) {inner : PoolInner T K}
    (hpool : s.pool = some inner) (j : Nat) {tok : Connecting K} (htok : s.tokens j = some tok)
    {v : T} (hres : P.reserve v = .unique v) (hshare : P.canShare v = false)
    (hfree : ∀ c ∈ (inner.waiters tok.key).getD [], (s.chans c).rxLive = false)
    (hroom : ((inner.idle tok.key).getD []).length < inner.maxIdlePerHost)
    (env₁ env₂ env₃ env₄ : Env T) (hopen₂ : env₂.isOpen v = true) (hopen₄ : env₄.isOpen v = true)
    (hfresh : ∀ t, inner.timeout = some t → env₄.now - env₂.now ≤ t) :
    ∃ s₁ s₂ s₃ s₄ p, step P env₁ (.pooled j v) s = .ok s₁ ∧
      step P env₂ (.dropPooled s.nextPooled) s₁ = .ok s₂ ∧
      step P env₃ (.checkout tok.key) s₂ = .ok s₃ ∧ s₃.checkouts s₂.nextCheckout = some ⟨tok.key, none⟩ ∧
      Checkout.poll P env₄ { s₃ with clock := env₄.now } s₂.nextCheckout ⟨tok.key, none⟩ =
        .ok (s₄, .ready (.ok p)) ∧
      p.value = some v ∧ p.isReused = true := by
  obtain ⟨s₁, inner₁, h₁, hp, hpool₁, hidle, hmax, htime, hfree₁⟩ :=
    pooled_unique_step hpool htok hres env₁ hfree
  obtain ⟨s₂, s₃, s₄, p, rest⟩ := dropPooled_checkout_reuses hpool₁ hp hshare hres hfree₁
    (by rw [hidle, hmax]; exact hroom) env₂ env₃ env₄ hopen₂ hopen₄ (by rw [htime]; exact hfresh)
  exact ⟨s₁, s₂, s₃, s₄, p, h₁, rest⟩

/-- The round trip of `test_pool_checkout_smoke`: `Uniq(41)` pooled for key 7 on an empty
pool, dropped at 2 and checked out at 4. -/
theorem pooled_drop_then_checkout_smoke :
    ∃ s₁ s₂ s₃ s₄ p, step uniq (Env.quiet 1) (.pooled 0 41) ((State.noTimer 2).addToken (some ⟨7, false⟩)) = .ok s₁ ∧
      step uniq (Env.quiet 2) (.dropPooled 0) s₁ = .ok s₂ ∧
      step uniq (Env.quiet 3) (.checkout 7) s₂ = .ok s₃ ∧ s₃.checkouts s₂.nextCheckout = some ⟨7, none⟩ ∧
      Checkout.poll uniq (Env.quiet 4) { s₃ with clock := 4 } s₂.nextCheckout ⟨7, none⟩ =
        .ok (s₄, .ready (.ok p)) ∧
      p.value = some 41 ∧ p.isReused = true :=
  pooled_drop_then_checkout ((State.noTimer 2).addToken (some ⟨7, false⟩)) rfl 0 rfl rfl rfl
    (fun _ h => by simp at h) (by decide) (Env.quiet 1) (Env.quiet 2) (Env.quiet 3) (Env.quiet 4) rfl rfl
    (fun t ht => by cases ht; decide)

end LegacyPool
