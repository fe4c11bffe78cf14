import LegacyPool.Sanity.Pop

/-! The eviction task. `spawn_idle_interval` gives the executor at most one `IdleTask`,
guarded by `idle_interval_ref`, and only for a positive timeout with a timer; nothing
writes the timeout after `Pool::new`, so the `expect` of `clear_expired` never fails. The
task's period is `max(timeout, 90 ms)` and its deadline `Instant::now() + period` is not
saturated: with `idle_timeout = Duration::MAX` the task panics on its first deadline. -/

namespace LegacyPool

open Function

variable {T K : Type} [DecidableEq K] {P : Poolable T}

/-- The interval task as `Pool::new` configured it: the timeout and the timer as given,
and `exec` empty until `idle_interval_ref` is set, then holding the one task spawned,
which needed a positive timeout and a timer. -/
structure OneIdleTask (config : Config) (timer : Bool) (inner : PoolInner T K) : Prop where
  keeps_timeout : inner.timeout = config.idleTimeout
  keeps_timer : inner.timer = timer
  spawned : (inner.idleIntervalRef = false ∧ inner.exec = []) ∨
    (inner.idleIntervalRef = true ∧ ∃ d, config.idleTimeout = some d ∧ 0 < d ∧ timer = true ∧
      inner.exec = [max d MIN_CHECK])

namespace OneIdleTask

variable {config : Config} {timer : Bool} {inner inner' : PoolInner T K}

omit [DecidableEq K] in
theorem same (hi : OneIdleTask config timer inner) (h1 : inner'.timeout = inner.timeout)
    (h2 : inner'.timer = inner.timer) (h3 : inner'.idleIntervalRef = inner.idleIntervalRef)
    (h4 : inner'.exec = inner.exec) : OneIdleTask config timer inner' :=
  ⟨h1 ▸ hi.keeps_timeout, h2 ▸ hi.keeps_timer, h3 ▸ h4 ▸ hi.spawned⟩

omit [DecidableEq K] in
theorem spawnIdleInterval (hi : OneIdleTask config timer inner) :
    OneIdleTask config timer inner.spawnIdleInterval := by
  unfold PoolInner.spawnIdleInterval
  split
  · exact hi
  · rename_i href
    split
    · exact hi
    · rename_i dur hdur
      split
      · exact hi
      · split
        · exact hi
        · rename_i hd ht
          have hexec : inner.exec = [] := by
            rcases hi.spawned with ⟨-, h⟩ | ⟨h, -⟩
            · exact h
            · exact absurd h href
          refine ⟨hi.keeps_timeout, hi.keeps_timer, .inr ⟨rfl, dur, hi.keeps_timeout.symm.trans hdur,
            Nat.pos_of_ne_zero hd, ?_, by simp [hexec]⟩⟩
          simpa [hi.keeps_timer] using ht

theorem insert (hi : OneIdleTask config timer inner) (now : Nat) (key : K) (v : Option T) :
    OneIdleTask config timer (inner.insert now key v) := by
  unfold PoolInner.insert
  split
  · exact hi
  · split
    · exact hi.same rfl rfl rfl rfl
    · refine OneIdleTask.spawnIdleInterval ?_
      exact hi.same rfl rfl rfl rfl

theorem put (hi : OneIdleTask config timer inner) {env : Env T} {chans : Nat → Chan T} {key : K}
    {value : T} {r : PoolInner T K × (Nat → Chan T)} (h : inner.put P env chans key value = .ok r) :
    OneIdleTask config timer r.1 := by
  rcases put_cases h with ⟨-, -, rfl⟩ | ⟨-, o, ho, rfl⟩
  · exact hi
  · obtain ⟨w, hw⟩ := offer_frame ho
    have ho1 : OneIdleTask config timer o.1 := by rw [hw]; exact hi.same rfl rfl rfl rfl
    exact ho1.insert _ _ _

theorem move {s s' : State T K} (hm : Move P s s')
    (hi : ∀ inner, s.pool = some inner → OneIdleTask config timer inner) :
    ∀ inner, s'.pool = some inner → OneIdleTask config timer inner := by
  intro inner' hpool'
  cases hm with
  | put hpool _ hput => cases hpool'; exact (hi _ hpool).put hput
  | connected key hpool => cases hpool'; exact (hi _ hpool).same rfl rfl rfl rfl
  | mark key hpool => cases hpool'; exact (hi _ hpool).same rfl rfl rfl rfl
  | @probe inner isOpen key hpool =>
    cases hpool'
    obtain ⟨l, hl⟩ := takeIdle_frame (P := P) isOpen s.clock inner key
    rw [hl]; exact (hi _ hpool).same rfl rfl rfl rfl
  | register key i hpool => cases hpool'; exact (hi _ hpool).same rfl rfl rfl rfl
  | @clean inner key hpool =>
    cases hpool'
    obtain ⟨w, hw, -⟩ := cleanWaiters_frame inner s.chans key
    rw [hw]; exact (hi _ hpool).same rfl rfl rfl rfl
  | expire isOpen hpool hexp =>
    cases hpool'
    obtain ⟨dur, -, rfl⟩ := clearExpired_spec hexp
    exact (hi _ hpool).same rfl rfl rfl rfl
  | dropRx rx => exact hi _ hpool'
  | client h1 _ _ _ => exact hi _ (h1 ▸ hpool')

end OneIdleTask

omit [DecidableEq K] in
theorem oneIdleTask_init (config : Config) (timer : Bool) :
    ∀ inner, (State.init config timer : State T K).pool = some inner →
      OneIdleTask config timer inner := by
  intro inner h
  simp only [State.init, Pool.new] at h
  split at h
  · cases h; exact ⟨rfl, rfl, .inl ⟨rfl, rfl⟩⟩
  · cases h

theorem run_oneIdleTask {config : Config} {timer : Bool} {trace : List (Env T × Op T K)}
    {s : State T K} (hr : run P trace (State.init config timer) = .ok s) :
    ∀ inner, s.pool = some inner → OneIdleTask config timer inner :=
  run_of_moves (I := fun s => ∀ inner, s.pool = some inner → OneIdleTask config timer inner)
    (fun _ _ h => h) (fun _ _ hm h => OneIdleTask.move hm h) (oneIdleTask_init config timer) hr

omit [DecidableEq K] in
theorem OneIdleTask.idleTick {config : Config} {timer : Bool} {s : State T K} {inner : PoolInner T K}
    (hi : OneIdleTask config timer inner) (hpool : s.pool = some inner) (env : Env T) :
    ∃ s', s.idleTick env = .ok s' := by
  unfold State.idleTick
  simp only [hpool]
  split
  · exact ⟨_, rfl⟩
  · rename_i hne
    rcases hi.spawned with ⟨-, h⟩ | ⟨-, d, hd, -, -, -⟩
    · simp [h] at hne
    · exact ⟨_, by simp [PoolInner.clearExpired, hi.keeps_timeout, hd]; rfl⟩

/-- At most one eviction task, and only with a timeout: along every run of an enabled
pool the executor has received no task, or exactly one of period `max(d, 90 ms)`, where
`Pool::new` got `idle_timeout = Some(d)` with `d > 0` and a timer. The timeout and the
timer stay as configured, so every wake-up of the task runs `clear_expired` without its
`expect` failing. -/
theorem at_most_one_idle_task {config : Config} {timer : Bool} {trace : List (Env T × Op T K)}
    {s : State T K} (hr : run P trace (State.init config timer) = .ok s) {inner : PoolInner T K}
    (hpool : s.pool = some inner) :
    inner.timeout = config.idleTimeout ∧ inner.timer = timer ∧
    (inner.exec = [] ∨
      ∃ d, config.idleTimeout = some d ∧ 0 < d ∧ timer = true ∧ inner.exec = [max d MIN_CHECK]) ∧
    ∀ env, ∃ s', step P env .idleTick s = .ok s' := by
  have hi := run_oneIdleTask hr inner hpool
  exact ⟨hi.keeps_timeout, hi.keeps_timer, hi.spawned.imp (·.2) (·.2),
    fun env => hi.idleTick (s := { s with clock := env.now }) hpool env⟩

/-- A 10 ms timeout with a timer, as in `test_pool_timer_removes_expired`: the first idle
connection spawns the task, whose period is the 90 ms minimum. -/
theorem at_most_one_idle_task_timer : ∃ s inner,
    run uniq smokeTrace (State.init ⟨some 10000000, 1⟩ true : State Nat Nat) = .ok s ∧
    s.pool = some inner ∧ inner.exec = [MIN_CHECK] ∧
    inner.timeout = some 10000000 ∧ inner.timer = true ∧
    (inner.exec = [] ∨
      ∃ d, some 10000000 = some d ∧ 0 < d ∧ true = true ∧ inner.exec = [max d MIN_CHECK]) ∧
    ∀ env, ∃ s', step uniq env .idleTick s = .ok s' :=
  have hr : run uniq smokeTrace (State.init ⟨some 10000000, 1⟩ true : State Nat Nat) = .ok _ := rfl
  ⟨_, _, hr, rfl, rfl, at_most_one_idle_task hr rfl⟩

/-- The deadline overflows: a pool configured with `idle_timeout = Some(Duration::MAX)`
and a timer spawns its task with period `Duration::MAX` on the first idle connection, and
`Instant::now() + Duration::MAX` panics at every clock reading. -/
theorem idle_deadline_overflows : ∃ s inner,
    run uniq smokeTrace (State.init ⟨some DURATION_MAX, 1⟩ true : State Nat Nat) = .ok s ∧
    s.pool = some inner ∧ inner.exec = [DURATION_MAX] ∧
    ∀ now, IdleTask.deadline now DURATION_MAX = .error "overflow when adding duration to instant" :=
  ⟨_, _, rfl, rfl, rfl, fun _ => Instant.add_overflow (by unfold DURATION_MAX INSTANT_MAX; omega)⟩

end LegacyPool
