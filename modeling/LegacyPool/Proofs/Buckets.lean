import LegacyPool.Sanity.Pop

/-! The shape of the two maps. In every reachable state of an enabled pool each idle list
is non-empty and at most `max_idle_per_host` long, and each waiter queue is non-empty. The
cap is what `put` checks before its push; non-emptiness rests on the cap being positive,
since `put` creates the list with `or_default` before it compares. -/

namespace LegacyPool

open Function

variable {T K : Type} [DecidableEq K] {P : Poolable T}

/-- The shape of the idle lists and waiter queues of one pool. -/
structure Buckets (inner : PoolInner T K) : Prop where
  max_pos : 0 < inner.maxIdlePerHost
  cap : ∀ k l, inner.idle k = some l → l.length ≤ inner.maxIdlePerHost
  idle_ne : ∀ k l, inner.idle k = some l → l ≠ []
  waiters_ne : ∀ k q, inner.waiters k = some q → q ≠ []

theorem Buckets.of_waiters {inner inner' : PoolInner T K} (hb : Buckets inner) (key : K)
    (hidle : inner'.idle = inner.idle) (hmax : inner'.maxIdlePerHost = inner.maxIdlePerHost)
    (hw : ∀ k, k ≠ key → inner'.waiters k = inner.waiters k)
    (hkey : ∀ q, inner'.waiters key = some q → q ≠ []) : Buckets inner' :=
  ⟨hmax ▸ hb.max_pos, fun k l hl => hmax ▸ hb.cap k l (hidle ▸ hl),
   fun k l hl => hb.idle_ne k l (hidle ▸ hl), fun k q hq => by
    by_cases hk : k = key
    · subst hk; exact hkey q hq
    · exact hb.waiters_ne k q (hw k hk ▸ hq)⟩

theorem Buckets.of_idle {inner : PoolInner T K} (hb : Buckets inner) (key : K)
    (l : Option (List (Idle T))) (hl : ∀ x, l = some x → x ≠ [] ∧ x.length ≤ inner.maxIdlePerHost) :
    Buckets { inner with idle := update inner.idle key l } :=
  ⟨hb.max_pos, fun k x hx => by
    by_cases hk : k = key
    · subst hk; exact (hl x (by simpa using hx)).2
    · exact hb.cap k x (by simpa [hk] using hx),
   fun k x hx => by
    by_cases hk : k = key
    · subst hk; exact (hl x (by simpa using hx)).1
    · exact hb.idle_ne k x (by simpa [hk] using hx),
   hb.waiters_ne⟩

theorem Buckets.insert {inner : PoolInner T K} (hb : Buckets inner) (now : Nat) (key : K)
    (v : Option T) : Buckets (inner.insert now key v) := by
  have hidle : ∀ k l, (inner.insert now key v).idle k = some l →
      l ≠ [] ∧ l.length ≤ inner.maxIdlePerHost := by
    intro k l hl
    rcases insert_idle now inner key v k with h | ⟨-, hle, h⟩ | ⟨-, w, -, hlt, h⟩ <;> rw [h] at hl
    · exact ⟨hb.idle_ne k l hl, hb.cap k l hl⟩
    · cases hk : inner.idle k with
      | none => have := hb.max_pos; simp only [hk, Option.getD_none, List.length_nil] at hle; omega
      | some l' =>
        simp only [hk, Option.getD_some, Option.some.injEq] at hl
        subst hl; exact ⟨hb.idle_ne k _ hk, hb.cap k _ hk⟩
    · cases hl; exact ⟨by simp, by simp only [List.length_append, List.length_singleton]; omega⟩
  exact ⟨by simpa using hb.max_pos, fun k l hl => by simpa using (hidle k l hl).2,
    fun k l hl => (hidle k l hl).1, fun k q hq => hb.waiters_ne k q (by simpa using hq)⟩

theorem Buckets.put {inner : PoolInner T K} {env : Env T} {chans : Nat → Chan T} {key : K}
    {value : T} {r : PoolInner T K × (Nat → Chan T)} (hb : Buckets inner)
    (h : inner.put P env chans key value = .ok r) : Buckets r.1 := by
  rcases put_cases h with ⟨-, -, rfl⟩ | ⟨-, o, ho, rfl⟩
  · exact hb
  · obtain ⟨w, hw⟩ := offer_frame ho
    have hb' : Buckets o.1 := hb.of_waiters key (by rw [hw]) (by rw [hw]) (fun k hk => by simp [hw, hk])
      fun q hq => by
        rcases offer_waiters ho with h0 | ⟨-, q', hq', hne⟩
        · rw [hq] at h0; cases h0
        · rw [hq] at hq'; cases hq'; exact hne
    exact hb'.insert env.now key o.2.2

theorem Buckets.takeIdle {inner : PoolInner T K} (hb : Buckets inner) (isOpen : T → Bool)
    (now : Nat) (key : K) : Buckets (inner.takeIdle P isOpen now key).1 := by
  obtain ⟨l, hl⟩ := takeIdle_frame (P := P) isOpen now inner key
  rw [hl]
  refine hb.of_idle key l fun x hx => ?_
  have hx' : (inner.takeIdle P isOpen now key).1.idle key = some x := by simp [hl, hx]
  rcases takeIdle_idle (P := P) isOpen now inner key with h | ⟨list, hlist, -, hne, h⟩
  · simp [h] at hx'
  · rw [h] at hx'; cases hx'
    refine ⟨hne, Nat.le_trans ?_ (hb.cap key list hlist)⟩
    rcases pop_spec (P := P) isOpen ⟨inner.timeout⟩ now list with ⟨-, hp⟩ | ⟨pre, e, post, rfl, -, -, hp⟩
    · simp [hp]
    · have := kept_length_le (P := P) now e.value
      simp only [hp, List.length_append, List.length_cons]; omega

omit [DecidableEq K] in
theorem Buckets.clearExpired {inner inner' : PoolInner T K} {isOpen : T → Bool} {now : Nat}
    (hb : Buckets inner) (h : inner.clearExpired isOpen now = .ok inner') : Buckets inner' := by
  obtain ⟨dur, -, rfl⟩ := clearExpired_spec h
  refine ⟨hb.max_pos, fun k l hl => ?_, fun k l hl => ?_, hb.waiters_ne⟩ <;>
  · obtain ⟨values, hv, hr⟩ := Option.bind_eq_some.1 hl
    obtain ⟨rfl, hne⟩ := retainFresh_spec isOpen now dur values l hr
    first | exact hne | exact Nat.le_trans (List.length_filter_le _ _) (hb.cap k values hv)

theorem Buckets.move {s s' : State T K} (hm : Move P s s')
    (hb : ∀ inner, s.pool = some inner → Buckets inner) :
    ∀ inner, s'.pool = some inner → Buckets inner := by
  intro inner' hpool'
  cases hm with
  | put hpool _ hput => cases hpool'; exact (hb _ hpool).put hput
  | @connected inner key hpool =>
    cases hpool'
    exact (hb _ hpool).of_waiters key rfl rfl (fun k hk => by simp [connected_fst, hk])
      (by simp [connected_fst])
  | @mark inner key hpool =>
    cases hpool'; exact (hb _ hpool).of_waiters key rfl rfl (fun _ _ => rfl) ((hb _ hpool).4 key)
  | probe isOpen key hpool => cases hpool'; exact (hb _ hpool).takeIdle isOpen _ key
  | @register inner key i hpool hidle =>
    cases hpool'
    exact (hb _ hpool).of_waiters key rfl rfl (fun k hk => by simp [PoolInner.pushWaiter, hk])
      (by simp [PoolInner.pushWaiter])
  | @clean inner key hpool =>
    cases hpool'
    obtain ⟨w, hw, hw'⟩ := cleanWaiters_frame inner s.chans key
    rw [hw]
    exact (hb _ hpool).of_waiters key rfl rfl (fun k hk => by simp [hk]) fun q hq => by
      rcases hw' with rfl | ⟨q', rfl, hne, -⟩ <;> simp_all
  | expire isOpen hpool hexp => cases hpool'; exact (hb _ hpool).clearExpired hexp
  | dropRx rx => exact hb _ hpool'
  | client h1 _ _ _ => exact hb _ (h1 ▸ hpool')

omit [DecidableEq K] in
theorem buckets_init (config : Config) (timer : Bool) :
    ∀ inner, (State.init config timer : State T K).pool = some inner → Buckets inner := by
  intro inner h
  simp only [State.init, Pool.new] at h
  split at h
  · rename_i hen
    cases h
    exact ⟨by simpa [Config.isEnabled] using hen, by simp, by simp, by simp⟩
  · cases h

theorem reachable_buckets {s : State T K} (h : Reachable P anyStep s) :
    ∀ inner, s.pool = some inner → Buckets inner :=
  Reachable.of_moves (I := fun s => ∀ inner, s.pool = some inner → Buckets inner)
    buckets_init (fun _ _ _ _ h => h) (fun _ _ hm h => Buckets.move hm h) h

/-- Per-host cap: every idle list of a reachable enabled pool is at most
`max_idle_per_host` long. -/
theorem idle_length_le_max {s : State T K} (h : Reachable P anyStep s) {inner : PoolInner T K}
    (hpool : s.pool = some inner) (k : K) (l : List (Idle T)) (hl : inner.idle k = some l) :
    l.length ≤ inner.maxIdlePerHost :=
  (reachable_buckets h inner hpool).cap k l hl

/-- `test_pool_max_idle_per_host`: three connections for key 7 pooled and returned in turn
under a cap of two; the third finds the list full and is dropped. -/
theorem idle_length_le_max_smoke : ∃ s inner l,
    run uniq [(Env.quiet 0, .connecting 7 .auto), (Env.quiet 1, .pooled 0 41), (Env.quiet 2, .dropPooled 0),
      (Env.quiet 3, .connecting 7 .auto), (Env.quiet 4, .pooled 1 5), (Env.quiet 5, .dropPooled 1),
      (Env.quiet 6, .connecting 7 .auto), (Env.quiet 7, .pooled 2 99), (Env.quiet 8, .dropPooled 2)]
      (State.noTimer 2) = .ok s ∧
    s.pool = some inner ∧ inner.idle 7 = some l ∧ l = [⟨2, 41⟩, ⟨5, 5⟩] ∧ s.pooleds 2 = none ∧
    l.length ≤ inner.maxIdlePerHost := by
  obtain ⟨s, inner, hr, hpool, hl, hp⟩ : ∃ s inner,
      run uniq [(Env.quiet 0, .connecting 7 .auto), (Env.quiet 1, .pooled 0 41), (Env.quiet 2, .dropPooled 0),
        (Env.quiet 3, .connecting 7 .auto), (Env.quiet 4, .pooled 1 5), (Env.quiet 5, .dropPooled 1),
        (Env.quiet 6, .connecting 7 .auto), (Env.quiet 7, .pooled 2 99), (Env.quiet 8, .dropPooled 2)]
        (State.noTimer 2) = .ok s ∧
      s.pool = some inner ∧ inner.idle 7 = some [⟨2, 41⟩, ⟨5, 5⟩] ∧ s.pooleds 2 = none :=
    ⟨_, _, rfl, rfl, rfl, rfl⟩
  exact ⟨s, inner, _, hr, hpool, hl, rfl, hp, idle_length_le_max (Reachable.run (.init _ _) hr) hpool 7 _ hl⟩

/-- No empty buckets: every key of `idle` maps to a non-empty list and every key of
`waiters` to a non-empty queue. -/
theorem no_empty_buckets {s : State T K} (h : Reachable P anyStep s) {inner : PoolInner T K}
    (hpool : s.pool = some inner) (k : K) :
    (∀ l, inner.idle k = some l → l ≠ []) ∧ (∀ q, inner.waiters k = some q → q ≠ []) :=
  ⟨(reachable_buckets h inner hpool).idle_ne k, (reachable_buckets h inner hpool).waiters_ne k⟩

/-- `test_pool_checkout_smoke` run on: the only idle connection for 7 checked out, which
removes the emptied list, then a second `Checkout` for 7 parked. -/
theorem no_empty_buckets_smoke : ∃ s inner,
    run uniq [(Env.quiet 0, .connecting 7 .auto), (Env.quiet 1, .pooled 0 41), (Env.quiet 2, .dropPooled 0),
      (Env.quiet 3, .checkout 7), (Env.quiet 4, .poll 0), (Env.quiet 5, .checkout 7), (Env.quiet 6, .poll 1)]
      (State.noTimer 2) = .ok s ∧
    s.pool = some inner ∧ inner.idle 7 = none ∧ inner.waiters 7 = some [0] ∧
    (∀ l, inner.idle 7 = some l → l ≠ []) ∧ (∀ q, inner.waiters 7 = some q → q ≠ []) := by
  obtain ⟨s, inner, hr, hpool, hi, hw⟩ : ∃ s inner,
      run uniq [(Env.quiet 0, .connecting 7 .auto), (Env.quiet 1, .pooled 0 41), (Env.quiet 2, .dropPooled 0),
        (Env.quiet 3, .checkout 7), (Env.quiet 4, .poll 0), (Env.quiet 5, .checkout 7), (Env.quiet 6, .poll 1)]
        (State.noTimer 2) = .ok s ∧
      s.pool = some inner ∧ inner.idle 7 = none ∧ inner.waiters 7 = some [0] :=
    ⟨_, _, rfl, rfl, rfl, rfl⟩
  exact ⟨s, inner, hr, hpool, hi, hw, no_empty_buckets (Reachable.run (.init _ _) hr) hpool 7⟩

end LegacyPool
