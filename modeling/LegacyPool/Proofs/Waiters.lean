import LegacyPool.Sanity.Pop

/-! Waiter bookkeeping. Each sender queued in `waiters[k]` belongs to its own `Checkout`
for `k`: one still holding the receiver, or one whose `Drop` has taken the receiver and has
not yet run `clean_waiters`. Each `Checkout` registers at most one sender in its life, and
once it has resolved or finished its drop, none of its senders is queued. The window of
the drop is real: `Drop for Checkout` drops the receiver in the condition of its `if`,
before it locks the pool. -/

namespace LegacyPool

open Function

variable {T K : Type} [DecidableEq K] {P : Poolable T}

/-- A sender queued for `k`: allocated, neither sent to nor dropped, and held by a
`Checkout` for `k` with a live receiver, or by one whose drop took the receiver. The
`Checkout` is the channel's ghost owner. -/
def Queued (s : State T K) (k : K) (c : Nat) : Prop :=
  c < s.nextChan ∧ (s.chans c).data = none ∧ (s.chans c).txLive = true ∧
  ((s.checkouts (s.chans c).owner = some ⟨k, some c⟩ ∧ (s.chans c).rxLive = true) ∨
   (s.dropping (s.chans c).owner = some k ∧ (s.chans c).rxLive = false))

/-- The waiter bookkeeping of a state. -/
structure Waiting (s : State T K) : Prop where
  owner_lt : ∀ c, c < s.nextChan → (s.chans c).owner < s.nextCheckout
  one_chan : ∀ c c', c < s.nextChan → c' < s.nextChan → (s.chans c).owner = (s.chans c').owner → c = c'
  checkout_lt : ∀ i, s.nextCheckout ≤ i → s.checkouts i = none
  dropping_lt : ∀ i, s.nextCheckout ≤ i → s.dropping i = none
  waiter_some : ∀ i co rx, s.checkouts i = some co → co.waiter = some rx →
    rx < s.nextChan ∧ (s.chans rx).owner = i
  waiter_none : ∀ i co, s.checkouts i = some co → co.waiter = none →
    ∀ c, c < s.nextChan → (s.chans c).owner ≠ i
  dropping_out : ∀ i k, s.dropping i = some k → s.checkouts i = none
  queued : ∀ inner, s.pool = some inner → ∀ k c, c ∈ (inner.waiters k).getD [] → Queued s k c
  nodup : ∀ inner, s.pool = some inner → ∀ k, ((inner.waiters k).getD []).Nodup

section

variable {s : State T K} (hw : Waiting s)
include hw

omit [DecidableEq K] in
theorem Waiting.queue_unique {inner : PoolInner T K} (hpool : s.pool = some inner) {k k' : K} {c : Nat}
    (hk : c ∈ (inner.waiters k).getD []) (hk' : c ∈ (inner.waiters k').getD []) : k = k' := by
  obtain ⟨-, -, -, h⟩ := hw.queued inner hpool k c hk
  obtain ⟨-, -, -, h'⟩ := hw.queued inner hpool k' c hk'
  rcases h with ⟨h, -⟩ | ⟨h, -⟩ <;> rcases h' with ⟨h', -⟩ | ⟨h', -⟩
  · rw [h] at h'; cases h'; rfl
  · simp [hw.dropping_out _ _ h'] at h
  · simp [hw.dropping_out _ _ h] at h'
  · rw [h] at h'; cases h'; rfl

omit [DecidableEq K] in
theorem Waiting.not_queued {inner : PoolInner T K} (hpool : s.pool = some inner) {i : Nat}
    {co : Checkout K} (hco : s.checkouts i = some co) (hnone : co.waiter = none) {k : K} {c : Nat}
    (hc : c ∈ (inner.waiters k).getD []) : (s.chans c).owner ≠ i := by
  obtain ⟨hlt, -⟩ := hw.queued inner hpool k c hc
  exact hw.waiter_none i co hco hnone c hlt

omit [DecidableEq K] in
theorem Waiting.owner_queued {inner : PoolInner T K} (hpool : s.pool = some inner) {i : Nat}
    {co : Checkout K} (hco : s.checkouts i = some co) {k : K} {c : Nat}
    (hc : c ∈ (inner.waiters k).getD []) (hown : (s.chans c).owner = i) : co = ⟨k, some c⟩ := by
  obtain ⟨-, -, -, h⟩ := hw.queued inner hpool k c hc
  rw [hown] at h
  rcases h with ⟨h, -⟩ | ⟨h, -⟩
  · rw [hco] at h; cases h; rfl
  · rw [hw.dropping_out i k h] at hco; cases hco

omit [DecidableEq K] in
theorem Waiting.mono {s' : State T K} (hnc : s'.nextChan = s.nextChan)
    (hnco : s'.nextCheckout = s.nextCheckout) (hco : s'.checkouts = s.checkouts)
    (hdr : s'.dropping = s.dropping) (howner : ∀ c, (s'.chans c).owner = (s.chans c).owner)
    (hpool : ∀ inner', s'.pool = some inner' → ∃ inner, s.pool = some inner ∧
      ∀ k, List.Sublist ((inner'.waiters k).getD []) ((inner.waiters k).getD []))
    (hq : ∀ inner', s'.pool = some inner' → ∀ k c, c ∈ (inner'.waiters k).getD [] → s'.chans c = s.chans c) :
    Waiting s' := by
  refine ⟨fun c hc => ?_, fun c c' hc hc' h => ?_, fun i hi => ?_, fun i hi => ?_,
    fun i co rx h1 h2 => ?_, fun i co h1 h2 c hc => ?_, fun i k h => ?_, fun inner' hp k c hc => ?_,
    fun inner' hp k => ?_⟩
  · rw [howner, hnco]; exact hw.owner_lt c (hnc ▸ hc)
  · rw [howner, howner] at h; exact hw.one_chan c c' (hnc ▸ hc) (hnc ▸ hc') h
  · rw [hco]; exact hw.checkout_lt i (hnco ▸ hi)
  · rw [hdr]; exact hw.dropping_lt i (hnco ▸ hi)
  · rw [hco] at h1; rw [hnc, howner]; exact hw.waiter_some i co rx h1 h2
  · rw [hco] at h1; rw [howner]; exact hw.waiter_none i co h1 h2 c (hnc ▸ hc)
  · rw [hdr] at h; rw [hco]; exact hw.dropping_out i k h
  · obtain ⟨inner, hpool, hsub⟩ := hpool inner' hp
    obtain ⟨hlt, hd, ht, hrest⟩ := hw.queued inner hpool k c ((hsub k).subset hc)
    rw [Queued, hq inner' hp k c hc, hnc, hco, hdr]
    exact ⟨hlt, hd, ht, hrest⟩
  · obtain ⟨inner, hpool, hsub⟩ := hpool inner' hp
    exact (hw.nodup inner hpool k).sublist (hsub k)

end

/-! What the critical sections do to the queues. -/

theorem put_queues {inner : PoolInner T K} {env : Env T} {chans : Nat → Chan T} {key : K} {value : T}
    {r : PoolInner T K × (Nat → Chan T)} (h : inner.put P env chans key value = .ok r)
    (hnodup : ((inner.waiters key).getD []).Nodup)
    (hdisj : ∀ k c, c ∈ (inner.waiters k).getD [] → c ∈ (inner.waiters key).getD [] → k = key) :
    (∀ c, (r.2 c).owner = (chans c).owner) ∧
    (∀ k, List.Sublist ((r.1.waiters k).getD []) ((inner.waiters k).getD [])) ∧
    (∀ k c, c ∈ (r.1.waiters k).getD [] → r.2 c = chans c) := by
  rcases put_cases h with ⟨-, -, rfl⟩ | ⟨-, o, ho, rfl⟩
  · exact ⟨fun _ => rfl, fun _ => List.Sublist.refl _, fun _ _ _ => rfl⟩
  rcases offer_cases ho with ⟨-, rfl⟩ | ⟨q, r', hq, hr', rfl⟩
  · exact ⟨fun _ => rfl, fun _ => by simp, fun _ _ _ => rfl⟩
  obtain ⟨popped, hsplit, hframe⟩ := handoff_split hr'
  rw [hq, Option.getD_some] at hnodup hdisj
  -- the queue for `key` is what the loop left of it
  have hnew : ∀ k, ((update inner.waiters key (if r'.2.2.isEmpty then none else some r'.2.2)) k).getD [] =
      if k = key then r'.2.2 else (inner.waiters k).getD [] := by
    intro k
    by_cases hk : k = key
    · subst hk
      cases hrest : r'.2.2 <;> simp [hrest]
    · simp [hk]
  have hout : ∀ k c, c ∈ (inner.waiters k).getD [] → k ≠ key → c ∉ popped := fun k c hc hk hp =>
    hk (hdisj k c hc (hsplit ▸ List.mem_append_left _ hp))
  refine ⟨handoff_owner hr', fun k => ?_, fun k c hc => ?_⟩
  · simp only [insert_waiters, hnew]
    split
    · rename_i hk; subst hk; rw [hq, Option.getD_some, hsplit]; exact List.sublist_append_right _ _
    · exact List.Sublist.refl _
  · simp only [insert_waiters, hnew] at hc
    split at hc
    · rw [hsplit] at hnodup
      exact hframe c fun hp => (List.pairwise_append.1 hnodup).2.2 c hp c hc rfl
    · exact hframe c (hout k c hc ‹_›)

theorem connected_queues (inner : PoolInner T K) (chans : Nat → Chan T) (key : K)
    (hdisj : ∀ k c, c ∈ (inner.waiters k).getD [] → c ∈ (inner.waiters key).getD [] → k = key) :
    (∀ c, ((inner.connected chans key).2.1 c).owner = (chans c).owner) ∧
    (∀ k, List.Sublist (((inner.connected chans key).1.waiters k).getD []) ((inner.waiters k).getD [])) ∧
    (∀ k c, c ∈ ((inner.connected chans key).1.waiters k).getD [] → (inner.connected chans key).2.1 c = chans c) := by
  refine ⟨fun c => ?_, fun k => ?_, fun k c hc => ?_⟩
  · simp only [PoolInner.connected, dropSenders]; split <;> rfl
  · by_cases hk : k = key
    · subst hk; simp [connected_fst]
    · simp [connected_fst, hk]
  · have hk : k ≠ key := by rintro rfl; simp [connected_fst] at hc
    simp only [connected_fst, update_noteq hk] at hc
    simp only [PoolInner.connected, dropSenders]
    rw [if_neg fun h => hk (hdisj k c hc h)]

omit [DecidableEq K] in
theorem Waiting.of_pool {s : State T K} (hw : Waiting s) {inner inner' : PoolInner T K}
    (hpool : s.pool = some inner) {chans : Nat → Chan T}
    (h : (∀ c, (chans c).owner = (s.chans c).owner) ∧
      (∀ k, List.Sublist ((inner'.waiters k).getD []) ((inner.waiters k).getD [])) ∧
      (∀ k c, c ∈ (inner'.waiters k).getD [] → chans c = s.chans c)) :
    Waiting { s with pool := some inner', chans := chans } :=
  hw.mono rfl rfl rfl rfl h.1 (fun _ hp => by cases hp; exact ⟨inner, hpool, h.2.1⟩)
    fun _ hp => by cases hp; exact h.2.2

theorem Waiting.put {s : State T K} (hw : Waiting s) {inner : PoolInner T K} (hpool : s.pool = some inner)
    {env : Env T} {key : K} {value : T} {r : PoolInner T K × (Nat → Chan T)}
    (h : inner.put P env s.chans key value = .ok r) : Waiting { s with pool := some r.1, chans := r.2 } :=
  hw.of_pool hpool (put_queues h (hw.nodup inner hpool key) fun _ _ hk hkey => hw.queue_unique hpool hk hkey)

theorem Waiting.connected {s : State T K} (hw : Waiting s) {inner : PoolInner T K} (hpool : s.pool = some inner)
    (key : K) :
    Waiting { s with pool := some (inner.connected s.chans key).1, chans := (inner.connected s.chans key).2.1 } :=
  hw.of_pool hpool (connected_queues inner s.chans key fun _ _ hk hkey => hw.queue_unique hpool hk hkey)

omit [DecidableEq K] in
theorem Queued.congr {s s' : State T K} {k : K} {c : Nat} (hq : Queued s k c) (hc : s'.chans c = s.chans c)
    (hnc : s.nextChan ≤ s'.nextChan)
    (hco : s'.checkouts (s.chans c).owner = s.checkouts (s.chans c).owner)
    (hdr : s'.dropping (s.chans c).owner = s.dropping (s.chans c).owner) : Queued s' k c := by
  obtain ⟨hlt, hrest⟩ := hq
  rw [Queued, hc, hco, hdr]
  exact ⟨Nat.lt_of_lt_of_le hlt hnc, hrest⟩

@[simp] theorem dropReceiver_owner (chans : Nat → Chan T) (rx c : Nat) :
    (update chans rx (chans rx).dropReceiver c).owner = (chans c).owner := by
  rw [update_apply]; split <;> simp_all [Chan.dropReceiver]

theorem cleanWaiters_getD (inner : PoolInner T K) (chans : Nat → Chan T) (key k : K) :
    ((inner.cleanWaiters chans key).waiters k).getD [] =
      if k = key then ((inner.waiters k).getD []).filter fun tx => (chans tx).rxLive
      else (inner.waiters k).getD [] := by
  unfold PoolInner.cleanWaiters
  split
  · split <;> simp_all
  · rename_i q hq
    by_cases hk : k = key
    · subst hk
      simp only [update_same, if_true, Chan.isCanceled, Bool.not_not, hq, Option.getD_some]
      split <;> simp_all
    · simp [hk]

omit [DecidableEq K] in
theorem Queued.poll_pending {s : State T K} {k : K} {c : Nat} (hq : Queued s k c) : (s.chans c).poll = .pending := by
  simp [Chan.poll, hq.2.1, hq.2.2.1]

section

variable {s : State T K} (hw : Waiting s)
include hw

omit [DecidableEq K] in
theorem Waiting.frame {s' : State T K} (hc : s'.chans = s.chans) (hnc : s'.nextChan = s.nextChan)
    (hnco : s'.nextCheckout = s.nextCheckout) (hco : s'.checkouts = s.checkouts)
    (hdr : s'.dropping = s.dropping) (hq : s'.pool.map (·.waiters) = s.pool.map (·.waiters)) :
    Waiting s' := by
  refine hw.mono hnc hnco hco hdr (fun c => by rw [hc]) (fun inner' hp => ?_) fun _ _ _ _ _ => by rw [hc]
  rw [hp] at hq
  cases hs : s.pool with
  | none => simp [hs] at hq
  | some inner => simp only [hs, Option.map_some', Option.some.injEq] at hq; exact ⟨inner, rfl, fun k => hq ▸ .refl _⟩

omit [DecidableEq K] in
theorem Waiting.debugAssert (cond : Bool) (msg : String) : Waiting (s.debugAssert cond msg) :=
  hw.frame rfl rfl rfl rfl rfl rfl

omit [DecidableEq K] in
theorem Waiting.clock (now : Nat) : Waiting { s with clock := now } :=
  hw.frame rfl rfl rfl rfl rfl rfl

omit [DecidableEq K] in
theorem Waiting.addPooled (p : Pooled T K) : Waiting (s.addPooled p) :=
  hw.frame rfl rfl rfl rfl rfl rfl

omit [DecidableEq K] in
theorem Waiting.dropToken (j : Nat) : Waiting { s with tokens := update s.tokens j none } :=
  hw.frame rfl rfl rfl rfl rfl rfl

theorem Waiting.probe {inner : PoolInner T K} (hpool : s.pool = some inner) (isOpen : T → Bool) (now : Nat)
    (key : K) : Waiting { s with pool := some (inner.takeIdle P isOpen now key).1 } := by
  obtain ⟨l, hl⟩ := takeIdle_frame (P := P) isOpen now inner key
  exact hw.frame rfl rfl rfl rfl rfl (by rw [hpool, hl]; rfl)

omit [DecidableEq K] hw in
theorem Waiting.settle_ready {s : State T K} {i : Nat} (hw : Waiting { s with checkouts := update s.checkouts i none })
    (x : Except Error (Pooled T K)) : Waiting (State.settle i (s, .ready x)) := by
  cases x
  · exact hw
  · exact hw.addPooled _

omit [DecidableEq K] in
theorem Waiting.release {i : Nat}
    (hfree : ∀ inner, s.pool = some inner → ∀ k c, c ∈ (inner.waiters k).getD [] → (s.chans c).owner ≠ i) :
    Waiting { s with checkouts := update s.checkouts i none } := by
  refine ⟨hw.owner_lt, hw.one_chan, fun i' hi => ?_, hw.dropping_lt, fun i' co rx h => ?_,
    fun i' co h => ?_, fun i' k h => ?_, fun inner hp k c hc => ?_, hw.nodup⟩
  · simp only [update_apply]; split; rfl; exact hw.checkout_lt i' hi
  · exact hw.waiter_some i' co rx (of_update_none h).2
  · exact hw.waiter_none i' co (of_update_none h).2
  · simp only [update_apply]; split; rfl; exact hw.dropping_out i' k h
  · exact (hw.queued inner hp k c hc).congr rfl (Nat.le_refl _) (update_noteq (hfree inner hp k c hc) _ _) rfl

omit [DecidableEq K] in
theorem Waiting.forget {i : Nat}
    (hfree : ∀ inner, s.pool = some inner → ∀ k c, c ∈ (inner.waiters k).getD [] → (s.chans c).owner ≠ i) :
    Waiting { s with dropping := update s.dropping i none } := by
  refine ⟨hw.owner_lt, hw.one_chan, hw.checkout_lt, fun i' hi => ?_, hw.waiter_some, hw.waiter_none,
    fun i' k h => ?_, fun inner hp k c hc => ?_, hw.nodup⟩
  · simp only [update_apply]; split; rfl; exact hw.dropping_lt i' hi
  · exact hw.dropping_out i' k (of_update_none h).2
  · exact (hw.queued inner hp k c hc).congr rfl (Nat.le_refl _) rfl (update_noteq (hfree inner hp k c hc) _ _)

omit [DecidableEq K] in
theorem Waiting.dropRx {rx : Nat} (hnq : ∀ inner, s.pool = some inner → ∀ k, rx ∉ (inner.waiters k).getD []) :
    Waiting { s with chans := update s.chans rx (s.chans rx).dropReceiver } :=
  hw.mono rfl rfl rfl rfl (dropReceiver_owner s.chans rx) (fun inner hp => ⟨inner, hp, fun _ => .refl _⟩)
    fun inner hp k c hc => update_noteq (by rintro rfl; exact hnq inner hp k hc) _ _

omit [DecidableEq K] in
theorem Waiting.resolve {i rx : Nat} {co : Checkout K} (hco : s.checkouts i = some co)
    (hrx : co.waiter = some rx) (hdone : (s.chans rx).poll ≠ .pending) :
    Waiting { s with chans := update s.chans rx (s.chans rx).dropReceiver,
                     checkouts := update s.checkouts i none } := by
  have hnq : ∀ inner, s.pool = some inner → ∀ k, rx ∉ (inner.waiters k).getD [] :=
    fun inner hp k hq => hdone (hw.queued inner hp k rx hq).poll_pending
  refine (hw.dropRx hnq).release fun inner hp k c hc hown => hnq inner hp k ?_
  have := hw.owner_queued hp hco hc (by simpa using hown)
  rw [this] at hrx
  obtain rfl : c = rx := Option.some.inj hrx
  exact hc

omit [DecidableEq K] in
theorem Waiting.dropWaiter {i rx : Nat} {co : Checkout K} (hco : s.checkouts i = some co)
    (hrx : co.waiter = some rx) :
    Waiting { s with chans := update s.chans rx (s.chans rx).dropReceiver,
                     checkouts := update s.checkouts i none, dropping := update s.dropping i (some co.key) } := by
  have hi : i < s.nextCheckout := Nat.lt_of_not_le fun h => by simp [hw.checkout_lt i h] at hco
  obtain ⟨hrxlt, hown⟩ := hw.waiter_some i co rx hco hrx
  refine ⟨fun c hc => by simpa using hw.owner_lt c hc, fun c c' hc hc' h => hw.one_chan c c' hc hc' (by simpa using h),
    fun i' hi' => ?_, fun i' hi' => ?_, fun i' co' rx' h => ?_, fun i' co' h => ?_, fun i' k h => ?_,
    fun inner hp k c hc => ?_, hw.nodup⟩
  · simp only [update_apply]; split; rfl; exact hw.checkout_lt i' hi'
  · have : s.nextCheckout ≤ i' := hi'
    exact (update_noteq (by omega) _ _).trans (hw.dropping_lt i' hi')
  · simpa using hw.waiter_some i' co' rx' (of_update_none h).2
  · simpa using hw.waiter_none i' co' (of_update_none h).2
  · simp only [update_apply] at h ⊢; split; rfl; rename_i hne; exact hw.dropping_out i' k (by simpa [hne] using h)
  · have hq := hw.queued inner hp k c hc
    by_cases hcr : c = rx
    · subst hcr
      have := hw.owner_queued hp hco hc hown
      subst this
      obtain ⟨hlt, hd, ht, -⟩ := hq
      exact ⟨hlt, by simp [Chan.dropReceiver], by simpa [Chan.dropReceiver] using ht,
        .inr ⟨by rw [dropReceiver_owner, hown]; exact update_same _ _ _, by simp [Chan.dropReceiver]⟩⟩
    · have hne : (s.chans c).owner ≠ i := fun h => hcr (hw.one_chan c rx hq.1 hrxlt (h.trans hown.symm))
      exact hq.congr (update_noteq hcr _ _) (Nat.le_refl _) (update_noteq hne _ _) (update_noteq hne _ _)

theorem Waiting.register {inner : PoolInner T K} (hpool : s.pool = some inner) {i : Nat} {co : Checkout K}
    (hco : s.checkouts i = some co) (hnone : co.waiter = none) :
    Waiting { s with pool := some (inner.pushWaiter co.key s.nextChan),
                     chans := update s.chans s.nextChan (Chan.fresh i), nextChan := s.nextChan + 1,
                     checkouts := update s.checkouts i (some { co with waiter := some s.nextChan }) } := by
  have hi : i < s.nextCheckout := Nat.lt_of_not_le fun h => by simp [hw.checkout_lt i h] at hco
  have hfree := hw.waiter_none i co hco hnone
  have hown : ∀ c, (update s.chans s.nextChan (Chan.fresh i) c).owner =
      if c = s.nextChan then i else (s.chans c).owner := fun c => by rw [update_apply]; split <;> rfl
  have hold : ∀ k c, c ∈ (inner.waiters k).getD [] →
      Queued { s with chans := update s.chans s.nextChan (Chan.fresh i), nextChan := s.nextChan + 1,
                      checkouts := update s.checkouts i (some { co with waiter := some s.nextChan }) } k c :=
    fun k c hc => by
      have hq := hw.queued inner hpool k c hc
      exact hq.congr (update_noteq (Nat.ne_of_lt hq.1) _ _) (Nat.le_succ _)
        (update_noteq (hfree c hq.1) _ _) rfl
  refine ⟨fun c hc => ?_, fun c c' hc hc' h => ?_, fun i' hi' => ?_, hw.dropping_lt,
    fun i' co' rx h hrx => ?_, fun i' co' h hn c hc => ?_, fun i' k h => ?_, fun inner' hp k c hc => ?_,
    fun inner' hp k => ?_⟩
  · dsimp only at hc; simp only [hown]; split
    · exact hi
    · exact hw.owner_lt c (by omega)
  · dsimp only at hc hc'; simp only [hown] at h
    split at h <;> split at h
    · omega
    · exact absurd h.symm (hfree c' (by omega))
    · exact absurd h (hfree c (by omega))
    · exact hw.one_chan c c' (by omega) (by omega) h
  · exact (update_noteq (by change s.nextCheckout ≤ i' at hi'; omega) _ _).trans (hw.checkout_lt i' hi')
  · by_cases hii : i' = i
    · subst hii
      simp only [update_same, Option.some.injEq] at h
      subst h; cases hrx
      exact ⟨Nat.lt_succ_self _, by simp [Chan.fresh]⟩
    · obtain ⟨hlt, ho⟩ := hw.waiter_some i' co' rx ((update_noteq hii _ _).symm.trans h) hrx
      exact ⟨Nat.lt_succ_of_lt hlt, by simp [hown, Nat.ne_of_lt hlt, ho]⟩
  · by_cases hii : i' = i
    · subst hii; simp only [update_same, Option.some.injEq] at h; subst h; cases hn
    · dsimp only at hc; simp only [hown]; split
      · exact Ne.symm hii
      · exact hw.waiter_none i' co' ((update_noteq hii _ _).symm.trans h) hn c (by omega)
  · have hc := hw.dropping_out i' k h
    exact (update_noteq (by rintro rfl; simp [hco] at hc) _ _).trans hc
  · cases hp
    by_cases hk : k = co.key
    · subst hk
      simp only [PoolInner.pushWaiter, update_same, Option.getD_some, List.mem_append,
        List.mem_singleton] at hc
      rcases hc with hc | rfl
      · exact hold _ c hc
      · obtain ⟨key, w⟩ := co
        cases hnone
        exact ⟨Nat.lt_succ_self _, by simp [Chan.fresh], by simp [Chan.fresh], .inl ⟨by dsimp only; rw [update_same]; exact update_same _ _ _, by simp [Chan.fresh]⟩⟩
    · simp only [PoolInner.pushWaiter, update_noteq hk] at hc
      exact hold k c hc
  · cases hp
    by_cases hk : k = co.key
    · subst hk
      simp only [PoolInner.pushWaiter, update_same, Option.getD_some]
      exact List.pairwise_append.2 ⟨hw.nodup inner hpool _, List.pairwise_singleton _ _,
        fun c hc _ hn => by rw [List.mem_singleton.1 hn]; exact Nat.ne_of_lt (hw.queued inner hpool _ c hc).1⟩
    · simp only [PoolInner.pushWaiter, update_noteq hk]
      exact hw.nodup inner hpool k

omit [DecidableEq K] in
theorem Waiting.newCheckout (key : K) : Waiting (s.checkout key) := by
  have hfresh : ∀ i, i < s.nextCheckout → i ≠ s.nextCheckout := fun i h => Nat.ne_of_lt h
  refine ⟨fun c hc => Nat.lt_succ_of_lt (hw.owner_lt c hc), hw.one_chan, fun i hi => ?_, fun i hi => ?_,
    fun i co rx h hrx => ?_, fun i co h hn c hc => ?_, fun i k h => ?_, fun inner hp k c hc => ?_, hw.nodup⟩
  · change s.nextCheckout + 1 ≤ i at hi
    exact (update_noteq (by omega) _ _).trans (hw.checkout_lt i (by omega))
  · exact hw.dropping_lt i (by change s.nextCheckout + 1 ≤ i at hi; omega)
  · by_cases hi : i = s.nextCheckout
    · subst hi; simp only [State.checkout, update_same, Option.some.injEq] at h; subst h; cases hrx
    · exact hw.waiter_some i co rx ((update_noteq hi _ _).symm.trans h) hrx
  · by_cases hi : i = s.nextCheckout
    · subst hi; exact hfresh _ (hw.owner_lt c hc)
    · exact hw.waiter_none i co ((update_noteq hi _ _).symm.trans h) hn c hc
  · have hne : i ≠ s.nextCheckout := by rintro rfl; simp [State.checkout, hw.dropping_lt _ (Nat.le_refl _)] at h
    exact (update_noteq hne _ _).trans (hw.dropping_out i k h)
  · have hq := hw.queued inner hp k c hc
    exact hq.congr rfl (Nat.le_refl _) (update_noteq (hfresh _ (hw.owner_lt c hq.1)) _ _) rfl

theorem Waiting.cleanCheckout (i : Nat) : Waiting (s.cleanCheckout i) := by
  unfold State.cleanCheckout
  split
  · exact hw
  · rename_i key hdr
    have hw1 : Waiting { s with pool := s.pool.map (·.cleanWaiters s.chans key) } :=
      hw.mono rfl rfl rfl rfl (fun _ => rfl) (fun inner' hp => by
        obtain ⟨inner, hs, rfl⟩ := Option.map_eq_some'.1 hp
        refine ⟨inner, hs, fun k => ?_⟩
        rw [cleanWaiters_getD]; split
        · exact List.filter_sublist _
        · exact .refl _) fun _ _ _ _ _ => rfl
    refine hw1.forget fun inner' hp k c hc hown => ?_
    obtain ⟨inner, hs, rfl⟩ := Option.map_eq_some'.1 hp
    rw [cleanWaiters_getD] at hc
    have hmem : c ∈ (inner.waiters k).getD [] := by
      split at hc
      · exact (List.mem_filter.1 hc).1
      · exact hc
    obtain ⟨-, -, -, hq⟩ := hw.queued inner hs k c hmem
    rw [show (s.chans c).owner = i from hown] at hq
    rcases hq with ⟨h, -⟩ | ⟨h, hl⟩
    · simp [hw.dropping_out i key hdr] at h
    · rw [hdr] at h; cases h; simp [hl] at hc

omit [DecidableEq K] in
theorem Waiting.syncDrops : Waiting s.syncDrops := by
  refine ⟨hw.owner_lt, hw.one_chan, fun i hi => ?_, fun i hi => ?_, fun i co rx h => ?_, fun i co h => ?_,
    fun i k h => ?_, fun inner hp k c hc => ?_, hw.nodup⟩
  · simp [State.syncDrops, hw.checkout_lt i hi]
  · simp [State.syncDrops, hw.checkout_lt i hi, hw.dropping_lt i hi]
  · exact hw.waiter_some i co rx (Option.filter_eq_some.1 h).1
  · exact hw.waiter_none i co (Option.filter_eq_some.1 h).1
  · simp only [State.syncDrops] at h ⊢
    cases hc : s.checkouts i with
    | none => rfl
    | some co =>
      obtain ⟨key, _ | rx⟩ := co
      · rw [hc] at h; simp [hw.dropping_out i k h] at hc
      · rw [hc] at h
        by_cases hl : (s.chans rx).rxLive = true
        · simp only [hl, if_true] at h; simp [hw.dropping_out i k h] at hc
        · simp [hl]
  · obtain ⟨hlt, hd, ht, hq⟩ := hw.queued inner hp k c hc
    refine ⟨hlt, hd, ht, ?_⟩
    rcases hq with ⟨h1, hl⟩ | ⟨h2, hl⟩
    · exact .inl ⟨by simp [State.syncDrops, h1, hl], hl⟩
    · exact .inr ⟨by simp [State.syncDrops, hw.dropping_out _ _ h2, h2], hl⟩

theorem Waiting.drop (tok : Connecting K) : Waiting (tok.drop s) := by
  unfold Connecting.drop
  split
  · exact (hw.connected ‹_› tok.key).debugAssert _ _
  · exact hw

theorem Waiting.pollWaiter {i rx : Nat} {co : Checkout K} (hco : s.checkouts i = some co)
    (hrx : co.waiter = some rx) {env : Env T} {r : State T K × Poll (Except Error (Pooled T K))}
    (h : Checkout.poll P env s i co = .ok r) : Waiting (State.settle i r) := by
  have hres := hw.resolve hco hrx
  simp only [Checkout.poll, Checkout.pollWaiter, hrx] at h
  cases hp : (s.chans rx).poll with
  | pending => simp only [hp] at h; cases h; exact hw
  | ready v =>
    cases ho : env.isOpen v <;> simp only [hp, ho] at h <;> cases h <;>
      exact Waiting.settle_ready (by simpa only [update_idem] using hres (by simp [hp])) _
  | canceled =>
    simp only [hp] at h; cases h
    exact Waiting.settle_ready (by simpa only [update_idem] using hres (by simp [hp])) _

theorem Waiting.pollIdle {i : Nat} {co : Checkout K} (hco : s.checkouts i = some co)
    (hnone : co.waiter = none) {env : Env T} {r : State T K × Poll (Except Error (Pooled T K))}
    (h : Checkout.poll P env s i co = .ok r) : Waiting (State.settle i r) := by
  simp only [Checkout.poll, Checkout.pollWaiter, hnone] at h
  obtain ⟨r', hr', rfl⟩ := except_map_eq_ok.1 h
  unfold Checkout.checkout at hr'
  split at hr'
  · rename_i hpool
    cases hr'
    simp only [hpool, Option.isNone_none, if_true]
    exact Waiting.settle_ready (hw.release fun inner hp => by simp [hpool] at hp) _
  · rename_i inner hpool
    have hw1 := hw.probe (P := P) hpool env.isOpen env.now co.key
    split at hr'
    · simp only [Chan.poll, Chan.fresh, ite_true] at hr'
      cases hr'
      simp only [Option.isNone_some, if_false]
      exact (hw1.register rfl hco hnone).debugAssert _ _
    · cases hr'
      cases (inner.takeIdle P env.isOpen env.now co.key).2
      · simp only [Option.map_none', Option.isNone_some, if_false]
        exact hw1.debugAssert _ _
      · exact Waiting.settle_ready (hw1.release fun inner' hp k c hc => by
          cases hp; exact hw1.not_queued rfl hco hnone hc) _

theorem Waiting.connecting (key : K) (ver : Ver) :
    Waiting { s with pool := (Pool.connecting s.pool key ver).1 } := by
  refine hw.frame rfl rfl rfl rfl rfl ?_
  unfold Pool.connecting
  split
  · split <;> simp_all
  · rfl

omit [DecidableEq K] in
theorem Waiting.addToken (t : Option (Connecting K)) : Waiting (s.addToken t) := by
  cases t
  · exact hw
  · exact hw.frame rfl rfl rfl rfl rfl rfl

theorem Waiting.pooled {env : Env T} {tok : Connecting K} {value : T} {r : State T K × Pooled T K}
    (h : Pool.pooled P env s tok value = .ok r) : Waiting r.1 := by
  unfold Pool.pooled at h
  split at h
  · rename_i inner hpool
    split at h
    · obtain ⟨r1, hput, rfl⟩ := except_map_eq_ok.1 h
      exact ((hw.put hpool hput).connected rfl tok.key).debugAssert _ _
    · cases h; exact hw.drop tok
  · cases h; exact hw.debugAssert _ _

theorem Waiting.stepOp {env : Env T} {op : Op T K} {s' : State T K} (h : stepOp P env op s = .ok s') :
    Waiting s' := by
  cases op with
  | checkout key => cases h; exact hw.newCheckout key
  | poll i =>
    rcases stepOp_poll h with ⟨-, rfl⟩ | ⟨co, r, hco, hr, rfl⟩
    · exact hw
    · cases hwt : co.waiter
      · exact hw.pollIdle hco hwt hr
      · exact hw.pollWaiter hco hwt hr
  | dropCheckout i =>
    cases h; unfold State.dropCheckout
    split
    · exact hw
    · rename_i co hco
      split
      · rename_i hwt
        exact hw.release fun inner hp k c hc => hw.not_queued hp hco hwt hc
      · exact hw.dropWaiter hco ‹_›
  | cleanCheckout i => cases h; exact hw.cleanCheckout i
  | connecting key ver => cases h; exact (hw.connecting key ver).addToken _
  | alpnH2 j =>
    cases h; unfold State.alpnH2
    split
    · exact hw
    · rename_i tok _
      exact ((((hw.dropToken j).debugAssert _ _).connecting tok.key .http2).drop tok).addToken _
  | dropConnecting j =>
    cases h; unfold State.dropConnecting
    split
    · exact hw
    · exact (hw.dropToken j).drop _
  | pooled j value =>
    obtain ⟨s1, rfl, ⟨-, rfl⟩ | ⟨tok, r, -, hr, rfl⟩⟩ := stepOp_pooled h
    · exact hw.syncDrops
    · exact (((hw.dropToken j).pooled hr).addPooled _).syncDrops
  | dropPooled p =>
    have hw1 : Waiting { s with pooleds := update s.pooleds p none } := hw.frame rfl rfl rfl rfl rfl rfl
    obtain ⟨s1, rfl, ⟨-, rfl⟩ | rfl | ⟨_, _, _, r, -, -, hpool, -, -, hr, rfl⟩⟩ := stepOp_dropPooled h
    · exact hw.syncDrops
    · exact hw1.syncDrops
    · exact (hw1.put hpool hr).syncDrops
  | idleTick =>
    rcases stepOp_idleTick h with rfl | ⟨inner, _, hpool, -, he, rfl⟩
    · exact hw
    · obtain ⟨dur, -, rfl⟩ := clearExpired_spec he
      exact hw.frame rfl rfl rfl rfl rfl (by rw [hpool]; rfl)
  | idleSleep => obtain rfl := stepOp_idleSleep h; exact hw

end

omit [DecidableEq K] in
theorem waiting_init (config : Config) (timer : Bool) : Waiting (State.init config timer : State T K) := by
  refine ⟨fun c hc => absurd hc (Nat.not_lt_zero c), fun c _ hc => absurd hc (Nat.not_lt_zero c),
    fun _ _ => rfl, fun _ _ => rfl, fun _ _ _ h => (by cases h), fun _ _ h => (by cases h),
    fun _ _ h => (by cases h), fun inner hp k c hc => ?_, fun inner hp k => ?_⟩ <;>
  · simp only [State.init, Pool.new] at hp
    split at hp <;> cases hp
    simp_all

theorem reachable_waiting {allowed : State T K → Env T → Op T K → Prop} {s : State T K}
    (h : Reachable P allowed s) : Waiting s := by
  induction h with
  | init config timer => exact waiting_init config timer
  | step _ _ hs ih => exact (ih.clock _).stepOp hs

/-- Each queued sender belongs to its own `Checkout` for its key, which still holds the
receiver or is inside its `Drop` with the receiver gone; no queue holds a sender twice; a
`Checkout` owns at most one channel over its life; and a `Checkout` that resolved or
finished its drop owns no queued sender. -/
theorem waiter_bookkeeping {s : State T K} (h : Reachable P anyStep s) {inner : PoolInner T K}
    (hpool : s.pool = some inner) :
    (∀ k c, c ∈ (inner.waiters k).getD [] →
      (s.chans c).txLive = true ∧ (s.chans c).data = none ∧
      ((s.checkouts (s.chans c).owner = some ⟨k, some c⟩ ∧ (s.chans c).rxLive = true) ∨
       (s.dropping (s.chans c).owner = some k ∧ (s.chans c).rxLive = false))) ∧
    (∀ k k' c c', c ∈ (inner.waiters k).getD [] → c' ∈ (inner.waiters k').getD [] →
      (s.chans c).owner = (s.chans c').owner → c = c') ∧
    (∀ k, ((inner.waiters k).getD []).Nodup) ∧
    (∀ c c', c < s.nextChan → c' < s.nextChan → (s.chans c).owner = (s.chans c').owner → c = c') ∧
    (∀ i, s.checkouts i = none → s.dropping i = none →
      ∀ k c, c ∈ (inner.waiters k).getD [] → (s.chans c).owner ≠ i) := by
  have hw := reachable_waiting h
  refine ⟨fun k c hc => ?_, fun k k' c c' hc hc' ho => ?_, hw.nodup inner hpool, hw.one_chan,
    fun i hco hdr k c hc hown => ?_⟩
  · obtain ⟨-, hd, ht, hq⟩ := hw.queued inner hpool k c hc
    exact ⟨ht, hd, hq⟩
  · exact hw.one_chan c c' (hw.queued inner hpool k c hc).1 (hw.queued inner hpool k' c' hc').1 ho
  · obtain ⟨-, -, -, hq⟩ := hw.queued inner hpool k c hc
    rw [hown] at hq
    rcases hq with ⟨h, -⟩ | ⟨h, -⟩ <;> simp_all

theorem waiter_bookkeeping_mid_drop : ∃ s inner, run uniq dropTrace (State.noTimer 2) = .ok s ∧
    s.pool = some inner ∧ (inner.waiters 7).getD [] = [0] ∧ s.dropping 0 = some 7 ∧
    ((∀ k c, c ∈ (inner.waiters k).getD [] →
      (s.chans c).txLive = true ∧ (s.chans c).data = none ∧
      ((s.checkouts (s.chans c).owner = some ⟨k, some c⟩ ∧ (s.chans c).rxLive = true) ∨
       (s.dropping (s.chans c).owner = some k ∧ (s.chans c).rxLive = false))) ∧
    (∀ k k' c c', c ∈ (inner.waiters k).getD [] → c' ∈ (inner.waiters k').getD [] →
      (s.chans c).owner = (s.chans c').owner → c = c') ∧
    (∀ k, ((inner.waiters k).getD []).Nodup) ∧
    (∀ c c', c < s.nextChan → c' < s.nextChan → (s.chans c).owner = (s.chans c').owner → c = c') ∧
    (∀ i, s.checkouts i = none → s.dropping i = none →
      ∀ k c, c ∈ (inner.waiters k).getD [] → (s.chans c).owner ≠ i)) :=
  have hr : run uniq dropTrace (State.noTimer 2) = .ok _ := rfl
  ⟨_, _, hr, rfl, rfl, rfl, waiter_bookkeeping (Reachable.run (.init _ _) hr) rfl⟩

/-- Between the two halves of `Drop for Checkout` the queue for 7 holds a sender whose
receiver is gone and whose `Checkout` no longer exists. -/
theorem queued_sender_outlives_receiver : ∃ s inner, run uniq dropTrace (State.noTimer 2) = .ok s ∧
    Reachable uniq anyStep s ∧ s.pool = some inner ∧
    ¬ ∀ k c, c ∈ (inner.waiters k).getD [] →
      ∃ i co, s.checkouts i = some co ∧ co.key = k ∧ co.waiter = some c ∧ (s.chans c).rxLive = true :=
  have hr : run uniq dropTrace (State.noTimer 2) = .ok _ := rfl
  ⟨_, _, hr, Reachable.run (.init _ _) hr, rfl, fun hall => by
    obtain ⟨-, -, -, -, -, hlive⟩ := hall 7 0 (by decide)
    exact absurd hlive (by decide)⟩

end LegacyPool
