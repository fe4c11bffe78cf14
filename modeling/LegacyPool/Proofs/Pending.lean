import LegacyPool.Proofs.Shared
import LegacyPool.Proofs.Waiters

/-! A pending `Checkout` can be woken. A `Checkout` parked on a channel holds its receiver
until it resolves or is dropped (a receiver taken by a racing drop moves it into its `Drop`),
and while the sender is alive and has sent nothing, the sender sits in the queue of the
`Checkout`'s key: `put` pops only the senders it sends on or finds canceled, `connected`
drops every sender it unqueues, and `clean_waiters` removes only canceled ones. So when
`Future for Checkout` returns `Pending`, the next `put` or `connected` for its key reaches
the `Checkout`. -/

namespace LegacyPool

open Function

variable {T K : Type} [DecidableEq K] {P : Poolable T} {racing : Nat → Bool}

theorem sendAt_txLive (chans : Nat → Chan T) (tx : Nat) (w : T) : (sendAt racing chans tx w).1.txLive = false := by
  unfold sendAt Chan.send; split <;> split <;> rfl

theorem handoff_txLive {chans : Nat → Chan T} {value : Option T} {q : List Nat}
    {r : (Nat → Chan T) × Option T × List Nat} (h : handoff P racing chans value q = .ok r) {c : Nat}
    (hc : (chans c).txLive = false) : (r.1 c).txLive = false := by
  induction q generalizing chans value with
  | nil => cases h; exact hc
  | cons tx rest ih =>
    have hupd : ∀ w, (update chans tx (sendAt racing chans tx w).1 c).txLive = false := by
      intro w
      by_cases hct : c = tx
      · subst hct; rw [update_same]; exact sendAt_txLive chans c w
      · rw [update_noteq hct]; exact hc
    rcases handoff_cons h with ⟨-, h⟩ | ⟨-, v, -, ⟨-, -, rfl⟩ | ⟨w, h, -⟩⟩
    · exact ih h hc
    · exact hupd _
    · exact ih h (hupd _)

theorem handoff_keeps {chans : Nat → Chan T} {value : Option T} {q : List Nat}
    {r : (Nat → Chan T) × Option T × List Nat} (h : handoff P racing chans value q = .ok r) {c : Nat}
    (hc : c ∈ q) (hrx : (chans c).rxLive = true) (ht : (r.1 c).txLive = true) : c ∈ r.2.2 := by
  induction q generalizing chans value with
  | nil => cases hc
  | cons tx rest ih =>
    rcases handoff_cons h with ⟨hcan, h⟩ | ⟨-, v, -, ⟨-, -, rfl⟩ | ⟨w, h, -⟩⟩
    · rcases List.mem_cons.1 hc with rfl | hc
      · simp [Chan.isCanceled, hrx] at hcan
      · exact ih h hc hrx
    · rcases List.mem_cons.1 hc with rfl | hc
      · simp [sendAt_txLive] at ht
      · exact hc
    · by_cases hct : c = tx
      · subst hct
        rw [handoff_txLive h (by rw [update_same]; exact sendAt_txLive chans c _)] at ht
        cases ht
      · exact ih h ((List.mem_cons.1 hc).resolve_left hct) (by rwa [update_noteq hct])

omit [DecidableEq K] in
theorem Chan.poll_eq_pending {c : Chan T} (h : c.poll = .pending) : c.data = none ∧ c.txLive = true := by
  unfold Chan.poll at h
  split at h
  · cases h
  · rename_i hd
    split at h
    · exact ⟨hd, ‹_›⟩
    · cases h

/-- A parked `Checkout` still holding its receiver, whose sender is alive and has sent
nothing, has that sender in the queue of its key. -/
def Findable (s : State T K) : Prop :=
  ∀ i co c, s.checkouts i = some co → co.waiter = some c → (s.chans c).rxLive = true →
    (s.chans c).data = none → (s.chans c).txLive = true →
    ∃ inner, s.pool = some inner ∧ c ∈ (inner.waiters co.key).getD []

/-- Every parked `Checkout` holds its receiver and can be found from the queue of its key. -/
structure Parked (s : State T K) : Prop where
  holds : ∀ i co c, s.checkouts i = some co → co.waiter = some c → (s.chans c).rxLive = true
  findable : Findable s

section Frame

variable {s s' : State T K}

omit [DecidableEq K] in
theorem Findable.frame (hf : Findable s)
    (hco : ∀ i co c, s'.checkouts i = some co → co.waiter = some c →
      s.checkouts i = some co ∧ s'.chans c = s.chans c)
    (hq : s'.pool.map (·.waiters) = s.pool.map (·.waiters)) : Findable s' := by
  intro i co c h hc hrx hd ht
  obtain ⟨h0, hch⟩ := hco i co c h hc
  rw [hch] at hrx hd ht
  obtain ⟨inner, hpool, hm⟩ := hf i co c h0 hc hrx hd ht
  rw [hpool] at hq
  cases hs : s'.pool with
  | none => rw [hs] at hq; cases hq
  | some inner' =>
    simp only [hs, Option.map_some', Option.some.injEq] at hq
    exact ⟨inner', rfl, by rw [hq]; exact hm⟩

omit [DecidableEq K] in
theorem Parked.frame (hp : Parked s)
    (hco : ∀ i co c, s'.checkouts i = some co → co.waiter = some c →
      s.checkouts i = some co ∧ s'.chans c = s.chans c)
    (hq : s'.pool.map (·.waiters) = s.pool.map (·.waiters)) : Parked s' :=
  ⟨fun i co c h hc => by obtain ⟨h0, hch⟩ := hco i co c h hc; rw [hch]; exact hp.holds i co c h0 hc,
    hp.findable.frame hco hq⟩

end Frame

section

variable {s : State T K}

omit [DecidableEq K] in
theorem Findable.of_eq (hf : Findable s) {s' : State T K} (h1 : s'.checkouts = s.checkouts)
    (h2 : s'.chans = s.chans) (h3 : s'.pool = s.pool) : Findable s' :=
  hf.frame (fun _ _ _ h _ => ⟨h1 ▸ h, by rw [h2]⟩) (by rw [h3])

omit [DecidableEq K] in
theorem Parked.of_eq (hp : Parked s) {s' : State T K} (h1 : s'.checkouts = s.checkouts)
    (h2 : s'.chans = s.chans) (h3 : s'.pool = s.pool) : Parked s' :=
  hp.frame (fun _ _ _ h _ => ⟨h1 ▸ h, by rw [h2]⟩) (by rw [h3])

omit [DecidableEq K] in
theorem Parked.clock (hp : Parked s) (now : Nat) : Parked { s with clock := now } :=
  hp.of_eq rfl rfl rfl

omit [DecidableEq K] in
theorem Parked.addToken (hp : Parked s) (t : Option (Connecting K)) : Parked (s.addToken t) := by
  cases t <;> exact hp.of_eq rfl rfl rfl

omit [DecidableEq K] in
theorem Parked.forget (hp : Parked s) {i : Nat} {x : Option (Checkout K)}
    (hx : ∀ co, x = some co → co.waiter = none) : Parked { s with checkouts := update s.checkouts i x } := by
  refine hp.frame (fun j co c h hc => ?_) rfl
  by_cases hj : j = i
  · subst hj; simp only [update_same] at h; rw [hx co h] at hc; cases hc
  · simp only [update_noteq hj] at h; exact ⟨h, rfl⟩

omit [DecidableEq K] in
theorem Parked.resolve (hp : Parked s) (hw : Waiting s) {i rx : Nat} {co : Checkout K}
    (hco : s.checkouts i = some co) (hrx : co.waiter = some rx) (x : Option (Checkout K))
    (hx : ∀ co, x = some co → co.waiter = none) :
    Parked { s with chans := update s.chans rx (s.chans rx).dropReceiver, checkouts := update s.checkouts i x } := by
  refine hp.frame (fun j co' c h hc => ?_) rfl
  by_cases hj : j = i
  · subst hj; simp only [update_same] at h; rw [hx co' h] at hc; cases hc
  · simp only [update_noteq hj] at h
    have hne : c ≠ rx := fun he => hj (by
      rw [← (hw.waiter_some j co' c h hc).2, ← (hw.waiter_some i co rx hco hrx).2, he])
    exact ⟨h, update_noteq hne _ _⟩

theorem Parked.connecting (hp : Parked s) (key : K) (ver : Ver) :
    Parked { s with pool := (Pool.connecting s.pool key ver).1 } := by
  refine hp.frame (fun _ _ _ h _ => ⟨h, rfl⟩) ?_
  unfold Pool.connecting
  split
  · split <;> simp_all
  · rfl

theorem Findable.connected (hf : Findable s) {inner : PoolInner T K} (hpool : s.pool = some inner) (key : K) :
    Findable { s with pool := some (inner.connected s.chans key).1,
                      chans := (inner.connected s.chans key).2.1 } := by
  intro i co c h hc hrx hd ht
  have hcq : c ∉ (inner.waiters key).getD [] := fun hm => by
    simp [PoolInner.connected, dropSenders, hm, Chan.dropSender] at ht
  have hch : (inner.connected s.chans key).2.1 c = s.chans c := by
    simp [PoolInner.connected, dropSenders, hcq]
  simp only [hch] at hrx hd ht
  obtain ⟨inner', hp', hm⟩ := hf i co c h hc hrx hd ht
  cases hpool.symm.trans hp'
  have hk : co.key ≠ key := fun he => hcq (he ▸ hm)
  exact ⟨_, rfl, by simp only [connected_fst, update_noteq hk]; exact hm⟩

theorem Parked.connected (hp : Parked s) {inner : PoolInner T K} (hpool : s.pool = some inner) (key : K) :
    Parked { s with pool := some (inner.connected s.chans key).1,
                    chans := (inner.connected s.chans key).2.1 } :=
  ⟨fun i co c h hc => by rw [connected_chans]; exact hp.holds i co c h hc, hp.findable.connected hpool key⟩

theorem Parked.drop (hp : Parked s) (tok : Connecting K) : Parked (tok.drop s) := by
  unfold Connecting.drop
  split
  · exact (hp.connected ‹_› tok.key).of_eq rfl rfl rfl
  · exact hp

theorem Parked.cleanCheckout (hp : Parked s) (i : Nat) : Parked (s.cleanCheckout i) := by
  unfold State.cleanCheckout
  split
  · exact hp
  · rename_i key _
    refine ⟨hp.holds, fun j co c h hc hrx hd ht => ?_⟩
    obtain ⟨inner, hpool, hm⟩ := hp.findable j co c h hc hrx hd ht
    refine ⟨_, by rw [hpool]; rfl, ?_⟩
    rw [cleanWaiters_getD]
    split
    · exact List.mem_filter.2 ⟨hm, hrx⟩
    · exact hm

omit [DecidableEq K] in
theorem Findable.syncDrops (hf : Findable s) : Parked s.syncDrops := by
  refine ⟨fun i co c h hc => ?_, fun i co c h hc => hf i co c (Option.filter_eq_some.1 h).1 hc⟩
  have hlive := (Option.filter_eq_some.1 h).2
  simp only [hc, Option.all_some] at hlive
  exact hlive

theorem Findable.put (hf : Findable s) (hw : Waiting s) {inner : PoolInner T K} (hpool : s.pool = some inner)
    {env : Env T} {key : K} {v : T} {r : PoolInner T K × (Nat → Chan T)}
    (h : inner.put P env s.chans key v = .ok r) : Findable { s with pool := some r.1, chans := r.2 } := by
  rcases put_cases h with ⟨-, -, rfl⟩ | ⟨-, o, ho, rfl⟩
  · exact hf.of_eq rfl rfl hpool.symm
  intro i co c hco hc hrx hd ht
  rcases offer_cases ho with ⟨-, rfl⟩ | ⟨q, r, hq, hr, rfl⟩
  · obtain ⟨inner', hp', hm⟩ := hf i co c hco hc hrx hd ht
    cases hpool.symm.trans hp'
    exact ⟨_, rfl, by simpa using hm⟩
  have hrx0 : (s.chans c).rxLive = true := handoff_rxLive hr c hrx
  refine ⟨_, rfl, ?_⟩
  simp only [insert_waiters]
  by_cases hcq : c ∈ q
  · -- a queued sender still alive after the loop was not popped
    obtain ⟨-, hd0, ht0, -⟩ := hw.queued inner hpool key c (by rw [hq]; exact hcq)
    obtain ⟨inner', hp', hm⟩ := hf i co c hco hc hrx0 hd0 ht0
    cases hpool.symm.trans hp'
    have hk : co.key = key := hw.queue_unique hpool hm (by rw [hq]; exact hcq)
    have hrest := handoff_keeps hr hcq hrx0 ht
    rw [hk, update_same]
    split
    · rename_i hemp; rw [List.isEmpty_iff.1 hemp] at hrest; cases hrest
    · exact hrest
  · have hch : r.1 c = s.chans c := handoff_frame hr c hcq
    simp only [hch] at hd ht
    obtain ⟨inner', hp', hm⟩ := hf i co c hco hc hrx0 hd ht
    cases hpool.symm.trans hp'
    have hk : co.key ≠ key := fun he => hcq (by rw [he, hq] at hm; exact hm)
    rw [update_noteq hk]; exact hm

theorem Parked.pooled (hp : Parked s) (hw : Waiting s) {env : Env T} {tok : Connecting K} {value : T}
    {r : State T K × Pooled T K} (h : Pool.pooled P env s tok value = .ok r) : Findable r.1 := by
  unfold Pool.pooled at h
  split at h
  · rename_i inner hpool
    split at h
    · obtain ⟨r', hr', rfl⟩ := except_map_eq_ok.1 h
      exact ((hp.findable.put hw hpool hr').connected rfl tok.key).of_eq rfl rfl rfl
    · cases h; exact (hp.drop tok).findable
  · cases h; exact hp.findable.of_eq rfl rfl rfl

theorem Parked.register (hp : Parked s) (hw : Waiting s) {inner inner' : PoolInner T K}
    (hpool : s.pool = some inner) (hq : inner'.waiters = inner.waiters) (i : Nat) (co : Checkout K) :
    Parked { s with pool := some (inner'.pushWaiter co.key s.nextChan),
                    chans := update s.chans s.nextChan (Chan.fresh i), nextChan := s.nextChan + 1,
                    checkouts := update s.checkouts i (some { co with waiter := some s.nextChan }) } := by
  have hold : ∀ j co' c, s.checkouts j = some co' → co'.waiter = some c → c ≠ s.nextChan :=
    fun j co' c h hc => Nat.ne_of_lt (hw.waiter_some j co' c h hc).1
  refine ⟨fun j co' c h hc => ?_, fun j co' c h hc hrx hd ht => ?_⟩
  · by_cases hj : j = i
    · subst hj; simp only [update_same, Option.some.injEq] at h; subst h; cases hc; simp [Chan.fresh]
    · simp only [update_noteq hj] at h
      simp only [update_noteq (hold j co' c h hc)]; exact hp.holds j co' c h hc
  · by_cases hj : j = i
    · subst hj; simp only [update_same, Option.some.injEq] at h; subst h; cases hc
      exact ⟨_, rfl, by simp [PoolInner.pushWaiter]⟩
    · simp only [update_noteq hj] at h
      simp only [update_noteq (hold j co' c h hc)] at hrx hd ht
      obtain ⟨inner0, hp0, hm⟩ := hp.findable j co' c h hc hrx hd ht
      cases hpool.symm.trans hp0
      refine ⟨_, rfl, ?_⟩
      simp only [PoolInner.pushWaiter]
      by_cases hk : co'.key = co.key
      · rw [hk, update_same, hq]; rw [hk] at hm; simp [hm]
      · rw [update_noteq hk, hq]; exact hm

theorem Parked.checkout (hp : Parked s) (hw : Waiting s) {env : Env T} {i : Nat} {co : Checkout K}
    (hco : s.checkouts i = some co) (hnone : co.waiter = none)
    {r : State T K × Option (Pooled T K)} (h : Checkout.checkout P env s i co = .ok r) :
    Parked r.1 ∧ ((r.1.checkouts i = some co ∧ (r.2.isSome ∨ r.1.pool = none)) ∨
      (r.2 = none ∧ ∃ inner c, r.1.pool = some inner ∧ r.1.checkouts i = some { co with waiter := some c } ∧
        (r.1.chans c).poll = .pending ∧ c ∈ (inner.waiters co.key).getD [])) := by
  unfold Checkout.checkout at h
  split at h
  · cases h; exact ⟨hp, .inl ⟨hco, .inr ‹_›⟩⟩
  · rename_i inner hpool
    obtain ⟨l, hl⟩ := takeIdle_frame (P := P) env.isOpen env.now inner co.key
    split at h
    · split at h
      · cases h
        exact ⟨hp.register hw hpool (by rw [hl]) i co, .inr ⟨rfl, _, s.nextChan, rfl, by simp,
          by simp [Chan.poll, Chan.fresh], by simp [PoolInner.pushWaiter]⟩⟩
      · cases h
    · rename_i hne
      cases h
      refine ⟨hp.frame (fun _ _ _ h _ => ⟨h, rfl⟩) (by rw [hpool, hl]; rfl), .inl ⟨hco, .inl ?_⟩⟩
      cases he : (inner.takeIdle P env.isOpen env.now co.key).2 with
      | none => exact absurd hnone (hne he)
      | some e => simp [he]

theorem Parked.poll (hp : Parked s) (hw : Waiting s) {env : Env T} {i : Nat} {co : Checkout K}
    (hco : s.checkouts i = some co) {r : State T K × Poll (Except Error (Pooled T K))}
    (h : Checkout.poll P env s i co = .ok r) :
    Parked r.1 ∧ (r.2 = .pending → ∃ inner c, r.1.pool = some inner ∧
      r.1.checkouts i = some { co with waiter := some c } ∧ (r.1.chans c).poll = .pending ∧
      c ∈ (inner.waiters co.key).getD []) := by
  obtain ⟨hp1, hpend1⟩ : Parked (Checkout.pollWaiter P env s i co).1 ∧
      ((Checkout.pollWaiter P env s i co).2 = .pending → (Checkout.pollWaiter P env s i co).1 = s ∧
        ∃ c, co.waiter = some c ∧ (s.chans c).poll = .pending) := by
    unfold Checkout.pollWaiter
    split
    · exact ⟨hp, nofun⟩
    · rename_i rx hrx
      have hres := hp.resolve hw hco hrx (some { co with waiter := none }) fun _ h => by cases h; rfl
      split
      · exact ⟨hres, by split <;> nofun⟩
      · exact ⟨hp, fun _ => ⟨rfl, rx, hrx, ‹_›⟩⟩
      · exact ⟨hres, nofun⟩
  unfold Checkout.poll at h
  split at h
  · rename_i s1 hsplit
    cases h; rw [hsplit] at hp1 hpend1
    obtain ⟨rfl, c, hc, hpoll⟩ := hpend1 rfl
    obtain ⟨hd, ht⟩ := Chan.poll_eq_pending hpoll
    obtain ⟨inner, hpool, hm⟩ := hp.findable i co c hco hc (hp.holds i co c hco hc) hd ht
    have hco' : { co with waiter := some c } = co := by cases co; cases hc; rfl
    exact ⟨hp, fun _ => ⟨inner, c, hpool, by rw [hco', hco], hpoll, hm⟩⟩
  · rename_i s1 out hsplit
    cases h; rw [hsplit] at hp1
    exact ⟨hp1, nofun⟩
  · rename_i s1 hsplit
    obtain ⟨r1, hr1, rfl⟩ := except_map_eq_ok.1 h
    have h0 : (Checkout.pollWaiter P env s i co).2 = .ready none := by rw [hsplit]
    obtain ⟨hnone, rfl⟩ : co.waiter = none ∧ s1 = s := by simpa [hsplit] using pollWaiter_of_ready_none h0
    obtain ⟨hp2, hcases⟩ := hp.checkout hw hco hnone hr1
    split
    · exact ⟨hp2, nofun⟩
    · rename_i hr2
      split
      · exact ⟨hp2, nofun⟩
      · rename_i hsome
        refine ⟨hp2.of_eq rfl rfl rfl, fun _ => ?_⟩
        rcases hcases with ⟨-, hs | hs⟩ | ⟨-, hq⟩
        · rw [hr2] at hs; cases hs
        · rw [hs] at hsome; exact absurd rfl hsome
        · exact hq

omit [DecidableEq K] in
theorem Parked.settle {r : State T K × Poll (Except Error (Pooled T K))} (i : Nat) (hp : Parked r.1) :
    Parked (State.settle i r) := by
  obtain ⟨s, out⟩ := r
  rcases out with (e | pd) | _
  · exact hp.forget fun _ h => by cases h
  · exact (hp.forget fun _ h => by cases h).of_eq rfl rfl rfl
  · exact hp

theorem Parked.stepOp (hp : Parked s) (hw : Waiting s) {env : Env T} {op : Op T K} {s' : State T K}
    (h : LegacyPool.stepOp P env op s = .ok s') : Parked s' := by
  cases op with
  | checkout key =>
    cases h
    exact (hp.forget (i := s.nextCheckout) (x := some ⟨key, none⟩) fun _ h => by cases h; rfl).of_eq rfl rfl rfl
  | poll i =>
    rcases stepOp_poll h with ⟨-, rfl⟩ | ⟨co, r, hco, hr, rfl⟩
    · exact hp
    · exact (hp.poll hw hco hr).1.settle i
  | dropCheckout i =>
    cases h; unfold State.dropCheckout
    split
    · exact hp
    · rename_i co hco
      split
      · exact hp.forget fun _ h => by cases h
      · exact (hp.resolve hw hco ‹_› none fun _ h => by cases h).of_eq rfl rfl rfl
  | cleanCheckout i => cases h; exact hp.cleanCheckout i
  | connecting key ver => cases h; exact (hp.connecting key ver).addToken _
  | alpnH2 j =>
    cases h; unfold State.alpnH2
    split
    · exact hp
    · rename_i tok _
      have h1 : Parked ({ s with tokens := update s.tokens j none }.debugAssert (!tok.pool)
          "Connecting::alpn_h2 but already Http2") := hp.of_eq rfl rfl rfl
      exact ((h1.connecting tok.key .http2).drop tok).addToken _
  | dropConnecting j =>
    cases h; unfold State.dropConnecting
    split
    · exact hp
    · rename_i tok _
      have h1 : Parked { s with tokens := update s.tokens j none } := hp.of_eq rfl rfl rfl
      exact h1.drop tok
  | pooled j value =>
    obtain ⟨s1, rfl, ⟨-, rfl⟩ | ⟨tok, r, -, hr, rfl⟩⟩ := stepOp_pooled h <;> refine Findable.syncDrops ?_
    · exact hp.findable
    · have h2 : Parked { s with tokens := update s.tokens j none } := hp.of_eq rfl rfl rfl
      exact (h2.pooled (hw.dropToken j) hr).of_eq rfl rfl rfl
  | dropPooled p =>
    have h2 : Findable { s with pooleds := update s.pooleds p none } := hp.findable.of_eq rfl rfl rfl
    obtain ⟨s1, rfl, ⟨-, rfl⟩ | rfl | ⟨_, _, _, r, -, -, hpool, -, -, hr, rfl⟩⟩ := stepOp_dropPooled h <;>
      refine Findable.syncDrops ?_
    · exact hp.findable
    · exact h2
    · exact h2.put (hw.frame rfl rfl rfl rfl rfl rfl) hpool hr
  | idleTick =>
    rcases stepOp_idleTick h with rfl | ⟨inner, _, hpool, -, he, rfl⟩
    · exact hp
    · obtain ⟨dur, -, rfl⟩ := clearExpired_spec he
      exact hp.frame (fun _ _ _ h _ => ⟨h, rfl⟩) (by rw [hpool]; rfl)
  | idleSleep => obtain rfl := stepOp_idleSleep h; exact hp

end

omit [DecidableEq K] in
theorem parked_init (config : Config) (timer : Bool) : Parked (State.init config timer : State T K) :=
  ⟨fun _ _ _ h => (by cases h), fun _ _ _ h => (by cases h)⟩

theorem reachable_parked {allowed : State T K → Env T → Op T K → Prop} {s : State T K}
    (h : Reachable P allowed s) : Parked s := by
  induction h with
  | init config timer => exact parked_init config timer
  | @step _ _ env _ hr _ hs ih => exact (ih.clock env.now).stepOp ((reachable_waiting hr).clock env.now) hs

/-- A pending `Checkout` can be woken. In every reachable state a parked `Checkout` holds its
receiver, and while its sender is alive and has sent nothing the sender is queued under the
`Checkout`'s key. So when `Future for Checkout` returns `Pending`, the `Checkout` is parked on
a pending channel whose sender sits in the queue of its key, where the next `put` or
`connected` for that key finds it. -/
theorem pending_checkout_is_queued {allowed : State T K → Env T → Op T K → Prop} {s : State T K}
    (h : Reachable P allowed s) :
    (∀ i co c, s.checkouts i = some co → co.waiter = some c → (s.chans c).rxLive = true ∧
      ((s.chans c).data = none → (s.chans c).txLive = true →
        ∃ inner, s.pool = some inner ∧ c ∈ (inner.waiters co.key).getD [])) ∧
    ∀ env i co r, s.checkouts i = some co → Checkout.poll P env s i co = .ok r → r.2 = .pending →
      ∃ inner c, r.1.pool = some inner ∧ r.1.checkouts i = some { co with waiter := some c } ∧
        (r.1.chans c).poll = .pending ∧ c ∈ (inner.waiters co.key).getD [] := by
  have hp := reachable_parked h
  exact ⟨fun i co c hco hc => ⟨hp.holds i co c hco hc, hp.findable i co c hco hc (hp.holds i co c hco hc)⟩,
    fun env i co r hco hr => (hp.poll (reachable_waiting h) hco hr).2⟩

/-- `waitTrace` parks a `Checkout` for key 7 behind an HTTP/2 connect; polled again, it stays
pending, with its sender queued under 7. -/
theorem pending_checkout_is_queued_wait : ∃ s r, run uniq waitTrace (State.noTimer 2) = .ok s ∧
    s.checkouts 0 = some ⟨7, some 0⟩ ∧ Checkout.poll uniq (Env.quiet 3) s 0 ⟨7, some 0⟩ = .ok r ∧
    r.2 = .pending ∧ ∃ inner c, r.1.pool = some inner ∧ r.1.checkouts 0 = some ⟨7, some c⟩ ∧
      (r.1.chans c).poll = .pending ∧ c ∈ (inner.waiters 7).getD [] := by
  have hr : run uniq waitTrace (State.noTimer 2) = .ok _ := rfl
  exact ⟨_, _, hr, rfl, rfl, rfl, (pending_checkout_is_queued (Reachable.run (.init _ _) hr)).2 (Env.quiet 3) 0 _ _ rfl rfl rfl⟩

end LegacyPool
