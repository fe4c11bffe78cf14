import LegacyPool.Proofs.Buckets

/-! No lost wakeup. `idle` and `waiters` never hold the same key: `put` inserts only after
its loop drained the key's queue (or found none), and the idle probe registers a waiter
only after it removed the key's list. So while `idle` holds a key, no sender, live or
canceled, is parked for it. -/

namespace LegacyPool

open Function

variable {T K : Type} [DecidableEq K] {P : Poolable T}

/-- No key is both in `idle` and in `waiters`. -/
def KeysApart (inner : PoolInner T K) : Prop :=
  ∀ k, (inner.idle k).isSome → inner.waiters k = none

omit [DecidableEq K] in
theorem KeysApart.mono {inner inner' : PoolInner T K} (ha : KeysApart inner)
    (h : ∀ k, (inner'.idle k).isSome → inner'.waiters k = none ∨
      ((inner.idle k).isSome ∧ (inner.waiters k = none → inner'.waiters k = none))) :
    KeysApart inner' := fun k hk =>
  (h k hk).elim id fun ⟨hi, hw⟩ => hw (ha k hi)

theorem KeysApart.put {inner : PoolInner T K} {env : Env T} {chans : Nat → Chan T} {key : K}
    {value : T} {r : PoolInner T K × (Nat → Chan T)} (ha : KeysApart inner)
    (h : inner.put P env chans key value = .ok r) : KeysApart r.1 := by
  rcases put_cases h with ⟨-, -, rfl⟩ | ⟨-, o, ho, rfl⟩
  · exact ha
  obtain ⟨w, hw⟩ := offer_frame ho
  refine ha.mono fun k hk => ?_
  by_cases hkk : k = key
  · subst hkk
    rcases offer_waiters ho with h0 | ⟨hv, -⟩
    · exact .inl (by simpa using h0)
    · -- a send succeeded, so the insertion did nothing
      simp only [hv, PoolInner.insert] at hk ⊢
      rw [hw] at hk ⊢
      exact .inr ⟨hk, fun h0 => by
        rcases offer_cases ho with ⟨-, rfl⟩ | ⟨q, -, hq, -⟩
        · simp at hv
        · simp [hq] at h0⟩
  · rw [insert_idle_of_ne _ _ _ hkk, hw] at hk
    exact .inr ⟨hk, fun h0 => by simp [hw, hkk, h0]⟩

theorem KeysApart.move {s s' : State T K} (hm : Move P s s')
    (ha : ∀ inner, s.pool = some inner → KeysApart inner) :
    ∀ inner, s'.pool = some inner → KeysApart inner := by
  intro inner' hpool'
  cases hm with
  | put hpool _ hput => cases hpool'; exact (ha _ hpool).put hput
  | @connected inner key hpool =>
    cases hpool'
    refine (ha _ hpool).mono fun k hk => .inr ⟨by simpa [connected_fst] using hk, fun h0 => ?_⟩
    by_cases hkk : k = key <;> simp [connected_fst, hkk, h0]
  | @mark inner key hpool => cases hpool'; exact fun k hk => ha inner hpool k hk
  | @probe inner isOpen key hpool =>
    cases hpool'
    obtain ⟨l, hl⟩ := takeIdle_frame (P := P) isOpen s.clock inner key
    refine (ha _ hpool).mono fun k hk => .inr ⟨?_, fun h0 => by simp [hl, h0]⟩
    by_cases hkk : k = key
    · subst hkk
      rcases takeIdle_idle (P := P) isOpen s.clock inner k with h | ⟨list, hlist, -⟩
      · simp [h] at hk
      · simp [hlist]
    · simpa [hl, hkk] using hk
  | @register inner key i hpool hidle =>
    cases hpool'
    refine (ha _ hpool).mono fun k hk => .inr ⟨by simpa [PoolInner.pushWaiter] using hk, fun h0 => ?_⟩
    have hkk : k ≠ key := by rintro rfl; simp [PoolInner.pushWaiter, hidle] at hk
    simp [PoolInner.pushWaiter, hkk, h0]
  | @clean inner key hpool =>
    cases hpool'
    obtain ⟨w, hw, hw'⟩ := cleanWaiters_frame inner s.chans key
    rw [hw]
    refine (ha _ hpool).mono fun k hk => .inr ⟨hk, fun h0 => ?_⟩
    by_cases hkk : k = key
    · subst hkk
      rcases hw' with rfl | ⟨q, rfl, hne, rfl⟩
      · simp
      · simp [h0] at hne
    · simp [hkk, h0]
  | @expire inner _ isOpen hpool hexp =>
    cases hpool'
    obtain ⟨dur, -, rfl⟩ := clearExpired_spec hexp
    refine (ha _ hpool).mono fun k hk => .inr ⟨?_, id⟩
    cases h : inner.idle k <;> simp_all
  | dropRx rx => exact ha _ hpool'
  | client h1 _ _ _ => exact ha _ (h1 ▸ hpool')

omit [DecidableEq K] in
theorem keysApart_init (config : Config) (timer : Bool) :
    ∀ inner, (State.init config timer : State T K).pool = some inner → KeysApart inner := by
  intro inner h
  simp only [State.init, Pool.new] at h
  split at h
  · cases h; intro k hk; simp at hk
  · cases h

theorem reachable_keysApart {s : State T K} (h : Reachable P anyStep s) :
    ∀ inner, s.pool = some inner → KeysApart inner :=
  Reachable.of_moves (I := fun s => ∀ inner, s.pool = some inner → KeysApart inner)
    keysApart_init (fun _ _ _ _ h => h) (fun _ _ hm h => KeysApart.move hm h) h

/-- No lost wakeup: in every reachable state, while `idle` holds `k`, every sender queued
in `waiters[k]` (none if the key is absent) has lost its receiver. -/
theorem no_lost_wakeup {s : State T K} (h : Reachable P anyStep s) {inner : PoolInner T K}
    (hpool : s.pool = some inner) (k : K) (hidle : (inner.idle k).isSome) :
    ∀ c ∈ (inner.waiters k).getD [], (s.chans c).rxLive = false := by
  simp [reachable_keysApart h inner hpool k hidle]

theorem no_lost_wakeup_smoke : ∃ s inner, run uniq smokeTrace (State.noTimer 2) = .ok s ∧
    s.pool = some inner ∧ (inner.idle 7).isSome ∧
    ∀ c ∈ (inner.waiters 7).getD [], (s.chans c).rxLive = false :=
  have hr : run uniq smokeTrace (State.noTimer 2) = .ok _ := rfl
  ⟨_, _, hr, rfl, rfl, no_lost_wakeup (Reachable.run (.init _ _) hr) rfl 7 rfl⟩

end LegacyPool
