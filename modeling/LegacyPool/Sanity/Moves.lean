import LegacyPool.Spec.System
import Mathlib.Logic.Relation

/-! Every step is a run of moves: a critical section on the shared state (`put`,
`connected`, marking a key as connecting, the idle probe, registering a waiter,
`clean_waiters`, `clear_expired`), a receiver dropped outside the lock, or a change the
pool cannot see. An invariant of the shared state and the channels is then proved once per
move (`Reachable.of_moves`). -/

namespace LegacyPool

open Function Relation

variable {T K : Type} [DecidableEq K]

theorem except_map_eq_ok {ε α β : Type} {x : Except ε α} {f : α → β} {b : β} :
    x.map f = .ok b ↔ ∃ a, x = .ok a ∧ f a = b := by
  cases x <;> simp [Except.map]

theorem of_update_none {α : Type} {f : Nat → Option α} {i i' : Nat} {a : α}
    (h : update f i none i' = some a) : i' ≠ i ∧ f i' = some a := by
  by_cases hi : i' = i
  · subst hi; simp at h
  · exact ⟨hi, by rwa [update_noteq hi] at h⟩

/-- One move, at the clock of the state it starts from. -/
inductive Move (P : Poolable T) : State T K → State T K → Prop
  | put {s : State T K} {inner : PoolInner T K} {env : Env T} {key : K} {value : T}
      {r : PoolInner T K × (Nat → Chan T)} :
      s.pool = some inner → env.now = s.clock → inner.put P env s.chans key value = .ok r →
      Move P s { s with pool := some r.1, chans := r.2 }
  | connected {s : State T K} {inner : PoolInner T K} (key : K) : s.pool = some inner →
      Move P s { s with pool := some (inner.connected s.chans key).1,
                        chans := (inner.connected s.chans key).2.1 }
  | mark {s : State T K} {inner : PoolInner T K} (key : K) : s.pool = some inner →
      Move P s { s with pool := some { inner with connecting := update inner.connecting key true } }
  | probe {s : State T K} {inner : PoolInner T K} (isOpen : T → Bool) (key : K) :
      s.pool = some inner → Move P s { s with pool := some (inner.takeIdle P isOpen s.clock key).1 }
  | register {s : State T K} {inner : PoolInner T K} (key : K) (i : Nat) :
      s.pool = some inner → inner.idle key = none →
      Move P s { s with pool := some (inner.pushWaiter key s.nextChan),
                        chans := update s.chans s.nextChan (Chan.fresh i), nextChan := s.nextChan + 1 }
  | clean {s : State T K} {inner : PoolInner T K} (key : K) : s.pool = some inner →
      Move P s { s with pool := some (inner.cleanWaiters s.chans key) }
  | expire {s : State T K} {inner inner' : PoolInner T K} (isOpen : T → Bool) :
      s.pool = some inner → inner.clearExpired isOpen s.clock = .ok inner' →
      Move P s { s with pool := some inner' }
  | dropRx {s : State T K} (rx : Nat) :
      Move P s { s with chans := update s.chans rx (s.chans rx).dropReceiver }
  | client {s s' : State T K} : s'.pool = s.pool → s'.chans = s.chans →
      s'.nextChan = s.nextChan → s'.clock = s.clock → Move P s s'

variable {P : Poolable T} {env : Env T} {s s' : State T K}

theorem moves_client (h1 : s'.pool = s.pool) (h2 : s'.chans = s.chans)
    (h3 : s'.nextChan = s.nextChan) (h4 : s'.clock = s.clock) : ReflTransGen (Move P) s s' :=
  .single (.client h1 h2 h3 h4)

theorem takeIdle_idle_of_none {inner : PoolInner T K} {isOpen : T → Bool} {now : Nat} {key : K}
    (h : (inner.takeIdle P isOpen now key).2 = none) :
    (inner.takeIdle P isOpen now key).1.idle key = none := by
  unfold PoolInner.takeIdle at h ⊢
  split <;> simp_all

theorem drop_moves (tok : Connecting K) (s : State T K) : ReflTransGen (Move P) s (tok.drop s) := by
  unfold Connecting.drop
  split
  · rename_i inner hpool
    exact .tail (.single (.connected tok.key hpool)) (.client rfl rfl rfl rfl)
  · exact .refl

theorem pollWaiter_moves (i : Nat) (co : Checkout K) :
    ReflTransGen (Move P) s (Checkout.pollWaiter P env s i co).1 := by
  unfold Checkout.pollWaiter
  split
  · exact .refl
  · rename_i rx _
    split
    · exact .tail (.single (.dropRx rx)) (.client rfl rfl rfl rfl)
    · exact .refl
    · exact .tail (.single (.dropRx rx)) (.client rfl rfl rfl rfl)

omit [DecidableEq K] in
theorem pollWaiter_of_ready_none {i : Nat} {co : Checkout K}
    (h : (Checkout.pollWaiter P env s i co).2 = .ready none) :
    co.waiter = none ∧ (Checkout.pollWaiter P env s i co).1 = s := by
  unfold Checkout.pollWaiter at h ⊢
  split at h
  · simp_all
  · split at h
    · split at h <;> cases h
    · cases h
    · cases h

theorem checkout_moves {i : Nat} {co : Checkout K} {r : State T K × Option (Pooled T K)}
    (hclock : env.now = s.clock) (h : Checkout.checkout P env s i co = .ok r) :
    ReflTransGen (Move P) s r.1 := by
  unfold Checkout.checkout at h
  split at h
  · cases h; exact .refl
  · rename_i inner hpool
    rw [hclock] at h
    have hprobe := Move.probe (P := P) env.isOpen co.key hpool
    split at h
    · rename_i hnone _
      simp only [Chan.poll, Chan.fresh, ite_true] at h
      cases h
      exact .tail (.tail (.single hprobe)
        (.register co.key i rfl (takeIdle_idle_of_none hnone))) (.client rfl rfl rfl rfl)
    · cases h
      exact .single hprobe

theorem poll_moves {i : Nat} {co : Checkout K} {r : State T K × Poll (Except Error (Pooled T K))}
    (hclock : env.now = s.clock) (h : Checkout.poll P env s i co = .ok r) :
    ReflTransGen (Move P) s r.1 := by
  have hw : ReflTransGen (Move P) s (Checkout.pollWaiter P env s i co).1 := pollWaiter_moves i co
  unfold Checkout.poll at h
  split at h
  · cases h; simpa [*] using hw
  · cases h; simpa [*] using hw
  · rename_i s1 hsplit
    obtain ⟨r1, hr1, rfl⟩ := except_map_eq_ok.1 h
    obtain ⟨-, hs1⟩ := pollWaiter_of_ready_none (by rw [hsplit])
    rw [hsplit] at hs1
    subst hs1
    have hm := checkout_moves hclock hr1
    split <;> (try split) <;> exact hm.tail (.client rfl rfl rfl rfl)

theorem connecting_moves (key : K) (ver : Ver) :
    ReflTransGen (Move P) s { s with pool := (Pool.connecting s.pool key ver).1 } := by
  unfold Pool.connecting
  split
  · rename_i inner hpool
    split
    · exact moves_client (by simp [hpool]) rfl rfl rfl
    · exact .single (.mark key hpool)
  · exact moves_client rfl rfl rfl rfl

theorem pooled_moves {tok : Connecting K} {value : T} {r : State T K × Pooled T K}
    (hclock : env.now = s.clock) (h : Pool.pooled P env s tok value = .ok r) :
    ReflTransGen (Move P) s r.1 := by
  unfold Pool.pooled at h
  split at h
  · rename_i inner hpool
    split at h
    · obtain ⟨r1, hput, rfl⟩ := except_map_eq_ok.1 h
      exact .tail (.tail (.single (.put hpool hclock hput)) (.connected tok.key rfl))
        (.client rfl rfl rfl rfl)
    · cases h; exact drop_moves tok s
  · cases h; exact moves_client rfl rfl rfl rfl

/-! What each operation that goes through a critical section can do, said once: the step
lemma of every invariant starts from these. -/

theorem stepOp_poll {i : Nat} (h : stepOp P env (.poll i) s = .ok s') :
    (s.checkouts i = none ∧ s' = s) ∨
    ∃ co r, s.checkouts i = some co ∧ Checkout.poll P env s i co = .ok r ∧ s' = State.settle i r := by
  simp only [stepOp, State.poll] at h
  split at h
  · exact .inl ⟨‹_›, (Except.ok.inj h).symm⟩
  · obtain ⟨r, hr, rfl⟩ := except_map_eq_ok.1 h
    exact .inr ⟨_, r, ‹_›, hr, rfl⟩

theorem stepOp_pooled {j : Nat} {value : T} (h : stepOp P env (.pooled j value) s = .ok s') :
    ∃ s1, s' = s1.syncDrops ∧ ((s.tokens j = none ∧ s1 = s) ∨
      ∃ tok r, s.tokens j = some tok ∧
        Pool.pooled P env { s with tokens := update s.tokens j none } tok value = .ok r ∧
        s1 = r.1.addPooled r.2) := by
  simp only [stepOp, State.pooled] at h
  obtain ⟨s1, h1, rfl⟩ := except_map_eq_ok.1 h
  refine ⟨s1, rfl, ?_⟩
  split at h1
  · exact .inl ⟨‹_›, (Except.ok.inj h1).symm⟩
  · obtain ⟨r, hr, rfl⟩ := except_map_eq_ok.1 h1
    exact .inr ⟨_, r, ‹_›, hr, rfl⟩

theorem stepOp_dropPooled {p : Nat} (h : stepOp P env (.dropPooled p) s = .ok s') :
    ∃ s1, s' = s1.syncDrops ∧ ((s.pooleds p = none ∧ s1 = s) ∨
      s1 = { s with pooleds := update s.pooleds p none } ∨
      ∃ pd v inner r, s.pooleds p = some pd ∧ pd.value = some v ∧ s.pool = some inner ∧
        env.isOpen v = true ∧ pd.pool = true ∧ inner.put P env s.chans pd.key v = .ok r ∧
        s1 = { s with pooleds := update s.pooleds p none, pool := some r.1, chans := r.2 }) := by
  simp only [stepOp, State.dropPooled] at h
  obtain ⟨s1, h1, rfl⟩ := except_map_eq_ok.1 h
  refine ⟨s1, rfl, ?_⟩
  split at h1
  · exact .inl ⟨‹_›, (Except.ok.inj h1).symm⟩
  · rename_i pd hpd
    split at h1
    · rename_i v inner hv hpool
      split at h1
      · rename_i hg
        obtain ⟨r, hr, rfl⟩ := except_map_eq_ok.1 h1
        simp only [Bool.and_eq_true] at hg
        exact .inr (.inr ⟨pd, v, inner, r, hpd, hv, hpool, hg.1, hg.2, hr, rfl⟩)
      · exact .inr (.inl (Except.ok.inj h1).symm)
    · exact .inr (.inl (Except.ok.inj h1).symm)

theorem stepOp_idleTick (h : stepOp P env .idleTick s = .ok s') :
    s' = s ∨ ∃ inner inner', s.pool = some inner ∧ inner.exec.isEmpty = false ∧
      inner.clearExpired env.isOpen env.now = .ok inner' ∧ s' = { s with pool := some inner' } := by
  simp only [stepOp, State.idleTick] at h
  split at h
  · rename_i inner hpool
    split at h
    · exact .inl (Except.ok.inj h).symm
    · obtain ⟨inner', he, rfl⟩ := except_map_eq_ok.1 h
      exact .inr ⟨inner, inner', hpool, Bool.eq_false_iff.2 ‹_›, he, rfl⟩
  · exact .inl (Except.ok.inj h).symm

theorem stepOp_idleSleep (h : stepOp P env .idleSleep s = .ok s') : s' = s := by
  simp only [stepOp, State.idleSleep] at h
  split at h
  · split at h
    · obtain ⟨_, -, rfl⟩ := except_map_eq_ok.1 h; rfl
    · exact (Except.ok.inj h).symm
  · exact (Except.ok.inj h).symm

theorem stepOp_moves {op : Op T K} (hclock : env.now = s.clock) (h : stepOp P env op s = .ok s') :
    ReflTransGen (Move P) s s' := by
  cases op with
  | checkout key => cases h; exact moves_client rfl rfl rfl rfl
  | poll i =>
    rcases stepOp_poll h with ⟨-, rfl⟩ | ⟨co, r, -, hr, rfl⟩
    · exact .refl
    · refine (poll_moves hclock hr).tail (.client ?_ ?_ ?_ ?_) <;>
        rcases r with ⟨_, (_ | _) | _⟩ <;> rfl
  | dropCheckout i =>
    cases h; unfold State.dropCheckout
    split
    · exact .refl
    · split
      · exact moves_client rfl rfl rfl rfl
      · exact .tail (.single (.dropRx _)) (.client rfl rfl rfl rfl)
  | cleanCheckout i =>
    cases h; unfold State.cleanCheckout
    split
    · exact .refl
    · rename_i key _
      cases hpool : s.pool with
      | none => exact moves_client (by simp [hpool]) rfl rfl rfl
      | some inner =>
        exact .tail (.single (.clean key hpool)) (.client (by simp [hpool]) rfl rfl rfl)
  | connecting key ver =>
    cases h
    exact (connecting_moves key ver).tail (.client (by simp [State.connecting])
      (by simp [State.connecting]) (by simp [State.connecting]) (by simp [State.connecting]))
  | alpnH2 j =>
    cases h; unfold State.alpnH2
    split
    · exact .refl
    · rename_i tok _
      dsimp only
      have h1 : ReflTransGen (Move P) s ({ s with tokens := update s.tokens j none }.debugAssert
          (!tok.pool) "Connecting::alpn_h2 but already Http2") := moves_client rfl rfl rfl rfl
      have h2 := h1.trans ((connecting_moves tok.key .http2).trans (drop_moves tok _))
      exact h2.tail (.client (State.addToken_pool _ _) (State.addToken_chans _ _)
        (State.addToken_nextChan _ _) (State.addToken_clock _ _))
  | dropConnecting j =>
    cases h; unfold State.dropConnecting
    split
    · exact .refl
    · exact (moves_client rfl rfl rfl rfl :
        ReflTransGen (Move P) s { s with tokens := update s.tokens j none }).trans (drop_moves _ _)
  | pooled j value =>
    obtain ⟨s1, rfl, ⟨-, rfl⟩ | ⟨tok, r, -, hr, rfl⟩⟩ := stepOp_pooled h
    · exact moves_client rfl rfl rfl rfl
    · have hm : ReflTransGen (Move P) s r.1 :=
        (moves_client rfl rfl rfl rfl :
          ReflTransGen (Move P) s { s with tokens := update s.tokens j none }).trans (pooled_moves hclock hr)
      exact hm.tail (.client rfl rfl rfl rfl)
  | dropPooled p =>
    obtain ⟨s1, rfl, ⟨-, rfl⟩ | rfl | ⟨_, _, _, r, -, -, hpool, -, -, hr, rfl⟩⟩ := stepOp_dropPooled h
    · exact moves_client rfl rfl rfl rfl
    · exact moves_client rfl rfl rfl rfl
    · have hm : Move P s { s with pooleds := update s.pooleds p none } := .client rfl rfl rfl rfl
      exact .tail (.tail (.single hm) (.put hpool hclock hr)) (.client rfl rfl rfl rfl)
  | idleTick =>
    rcases stepOp_idleTick h with rfl | ⟨_, _, hpool, -, he, rfl⟩
    · exact .refl
    · exact .single (.expire env.isOpen hpool (hclock ▸ he))
  | idleSleep => obtain rfl := stepOp_idleSleep h; exact .refl

theorem moves_preserve {I : State T K → Prop} (hmove : ∀ s s', Move P s s' → I s → I s')
    (h : ReflTransGen (Move P) s s') (hs : I s) : I s' := by
  induction h with
  | refl => exact hs
  | tail _ hm ih => exact hmove _ _ hm ih

theorem Reachable.of_moves {allowed : State T K → Env T → Op T K → Prop} {I : State T K → Prop}
    (init : ∀ c t, I (State.init c t))
    (clock : ∀ s env op, allowed s env op → I s → I { s with clock := env.now })
    (move : ∀ s s', Move P s s' → I s → I s') (h : Reachable P allowed s) : I s := by
  induction h with
  | init c t => exact init c t
  | step _ hallow hstep ih => exact moves_preserve move (stepOp_moves rfl hstep) (clock _ _ _ hallow ih)

theorem run_of_moves {I : State T K → Prop} (clock : ∀ s now, I s → I { s with clock := now })
    (move : ∀ s s', Move P s s' → I s → I s') {trace : List (Env T × Op T K)}
    (hs : I s) (hr : run P trace s = .ok s') : I s' := by
  induction trace generalizing s with
  | nil => cases hr; exact hs
  | cons e trace ih =>
    simp only [run] at hr
    split at hr
    · exact ih (moves_preserve move (stepOp_moves rfl ‹_›) (clock _ _ hs)) hr
    · cases hr

theorem run_of_steps {I : State T K → Prop}
    (hstep : ∀ s s' env op, I s → step P env op s = .ok s' → I s') {trace : List (Env T × Op T K)}
    (hs : I s) (hr : run P trace s = .ok s') : I s' := by
  induction trace generalizing s with
  | nil => cases hr; exact hs
  | cons e trace ih =>
    simp only [run] at hr
    split at hr
    · exact ih (hstep _ _ _ _ hs ‹_›) hr
    · cases hr

end LegacyPool
