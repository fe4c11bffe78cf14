import LegacyPool.Proofs.Put

/-! Parked `Checkout`s are served in the order they parked. A `Checkout` parks on a fresh
channel, and channel ids are handed out in increasing order, so a channel's id is the time
its `Checkout` parked. `Checkout::checkout` pushes at the back of the queue for its key;
`put` pops from its front, `connected` removes a queue and `clean_waiters` filters one. So
each queue stays in parking order, and `put` of a connection that cannot be shared goes to
the earliest-parked `Checkout` for its key that can take it. -/

namespace LegacyPool

open Function

variable {T K : Type} [DecidableEq K] {P : Poolable T}

/-- Each queue lists channel ids already handed out, in increasing order. -/
def InOrder (s : State T K) : Prop :=
  ∀ inner, s.pool = some inner → ∀ k,
    ((inner.waiters k).getD []).Pairwise (· < ·) ∧ ∀ c ∈ (inner.waiters k).getD [], c < s.nextChan

theorem put_waiters_sublist {env : Env T} {inner : PoolInner T K} {chans : Nat → Chan T} {key : K}
    {value : T} {r : PoolInner T K × (Nat → Chan T)} (h : inner.put P env chans key value = .ok r) (k : K) :
    ((r.1.waiters k).getD []).Sublist ((inner.waiters k).getD []) := by
  rcases put_cases h with ⟨-, -, rfl⟩ | ⟨-, o, ho, rfl⟩
  · exact .refl _
  rcases offer_cases ho with ⟨-, rfl⟩ | ⟨q, r', hq, hr', rfl⟩
  · simp
  simp only [insert_waiters]
  by_cases hk : k = key
  · subst hk
    rw [update_same, hq, Option.getD_some]
    split
    · exact List.nil_sublist _
    · exact (handoff_rest hr').1.sublist
  · simp only [update_noteq hk, List.Sublist.refl]

omit [DecidableEq K] in
theorem InOrder.shrink {s s' : State T K} (ho : InOrder s) (hnc : s'.nextChan = s.nextChan)
    (hq : ∀ inner', s'.pool = some inner' → ∃ inner, s.pool = some inner ∧
      ∀ k, ((inner'.waiters k).getD []).Sublist ((inner.waiters k).getD [])) : InOrder s' := by
  intro inner' hp' k
  obtain ⟨inner, hp, hsub⟩ := hq inner' hp'
  obtain ⟨hsorted, hlt⟩ := ho inner hp k
  exact ⟨hsorted.sublist (hsub k), fun c hc => by rw [hnc]; exact hlt c ((hsub k).subset hc)⟩

theorem InOrder.move {s s' : State T K} (hm : Move P s s') (ho : InOrder s) : InOrder s' := by
  cases hm with
  | @put inner env key value r hpool _ hput =>
    exact ho.shrink rfl fun _ h => ⟨inner, hpool, by cases h; exact put_waiters_sublist hput⟩
  | @connected inner key hpool =>
    refine ho.shrink rfl fun _ h => ⟨inner, hpool, fun k => ?_⟩
    cases h
    by_cases hk : k = key
    · subst hk; simp [connected_fst]
    · simp [connected_fst, hk]
  | @mark inner key hpool => exact ho.shrink rfl fun _ h => ⟨inner, hpool, by cases h; exact fun _ => .refl _⟩
  | @probe inner isOpen key hpool =>
    obtain ⟨l, hl⟩ := takeIdle_frame (P := P) isOpen s.clock inner key
    exact ho.shrink rfl fun _ h => ⟨inner, hpool, by cases h; rw [hl]; exact fun _ => .refl _⟩
  | @register inner key i hpool _ =>
    -- the new channel id is larger than every id handed out before
    intro _ h k
    cases h
    obtain ⟨hsorted, hlt⟩ := ho inner hpool k
    by_cases hk : k = key
    · subst hk
      simp only [PoolInner.pushWaiter, update_same, Option.getD_some]
      refine ⟨List.pairwise_append.2 ⟨hsorted, List.pairwise_singleton _ _, fun a ha b hb => ?_⟩,
        fun c hc => ?_⟩
      · rw [List.mem_singleton.1 hb]; exact hlt a ha
      · rcases List.mem_append.1 hc with hc | hc
        · exact Nat.lt_succ_of_lt (hlt c hc)
        · rw [List.mem_singleton.1 hc]; exact Nat.lt_succ_self _
    · simp only [PoolInner.pushWaiter, update_noteq hk]
      exact ⟨hsorted, fun c hc => Nat.lt_succ_of_lt (hlt c hc)⟩
  | @clean inner key hpool =>
    refine ho.shrink rfl fun _ h => ⟨inner, hpool, fun k => ?_⟩
    cases h
    rw [cleanWaiters_getD]
    split
    · exact List.filter_sublist _
    · exact .refl _
  | @expire inner inner' isOpen hpool hexp =>
    obtain ⟨dur, -, rfl⟩ := clearExpired_spec hexp
    exact ho.shrink rfl fun _ h => ⟨inner, hpool, by cases h; exact fun _ => .refl _⟩
  | dropRx rx => exact ho.shrink rfl fun inner h => ⟨inner, h, fun _ => .refl _⟩
  | client h1 _ h3 _ => exact ho.shrink h3 fun inner h => ⟨inner, h1 ▸ h, fun _ => .refl _⟩

omit [DecidableEq K] in
theorem inOrder_init (config : Config) (timer : Bool) : InOrder (State.init config timer : State T K) := by
  intro inner h k
  simp only [State.init, Pool.new] at h
  split at h <;> cases h
  simp

theorem reachable_inOrder {s : State T K} (h : Reachable P anyStep s) : InOrder s :=
  Reachable.of_moves (I := InOrder) inOrder_init (fun _ _ _ _ h => h) (fun _ _ hm h => InOrder.move hm h) h

/-- Parked `Checkout`s are served in the order they parked. In every reachable state each
queue lists its senders by channel id, the order their `Checkout`s parked in; and `put` of a
connection that cannot be shared (whose reservation is the connection itself) sends it to
the earliest-parked `Checkout` for its key that can take it: every queued sender whose
receiver is live and not taken by a racing drop parked no earlier. -/
theorem served_in_parking_order (hunique : ∀ v, P.canShare v = false → P.reserve v = .unique v)
    {s : State T K} (h : Reachable P anyStep s) {inner : PoolInner T K} (hpool : s.pool = some inner)
    (env : Env T) (k : K) :
    ((inner.waiters k).getD []).Pairwise (· < ·) ∧
    ∀ v r, P.canShare v = false → inner.put P env s.chans k v = .ok r →
      ∀ tx, (s.chans tx).data = none → (r.2 tx).data = some v →
        ∀ c ∈ (inner.waiters k).getD [], live env.racing s.chans c = true → tx ≤ c := by
  have hsorted := (reachable_inOrder h inner hpool k).1
  refine ⟨hsorted, fun v r hv hr tx hnone hsent c hc hlive => ?_⟩
  have hq : ∀ c ∈ (inner.waiters k).getD [], (s.chans c).data = none :=
    fun c hc => ((reachable_waiting h).queued inner hpool k c hc).2.1
  rcases put_cases hr with ⟨hshare, -, -⟩ | ⟨-, o, ho, rfl⟩
  · rw [hv] at hshare; cases hshare
  rcases offer_cases ho with ⟨-, rfl⟩ | ⟨q, r', hwq, hr', rfl⟩
  · rw [show (s.chans tx).data = some v from hsent] at hnone; cases hnone
  rw [hwq, Option.getD_some] at hq hsorted hc
  rcases handoff_unique env.racing (hunique v hv) s.chans q hq with
    ⟨pre, tx', post, rfl, hpre, -, chans', hh, hd, hother⟩ | ⟨-, chans', hh, hd⟩ <;>
    rw [hh] at hr' <;> cases hr'
  · -- the value went to `tx'`, the first sender of the queue that takes it
    have hsent' : (chans' tx).data = some v := hsent
    have htx : tx = tx' := by
      by_contra hne
      rw [hother tx hne, hnone] at hsent'
      cases hsent'
    subst htx
    rcases List.mem_append.1 hc with hc | hc
    · rw [hpre c hc] at hlive; cases hlive
    · rcases List.mem_cons.1 hc with rfl | hc
      · exact le_rfl
      · exact Nat.le_of_lt (List.rel_of_pairwise_cons (List.pairwise_append.1 hsorted).2.1 hc)
  · -- no sender takes it, and no buffer changes
    have hsent' : (chans' tx).data = some v := hsent
    rw [hd tx, hnone] at hsent'
    cases hsent'

/-- Two `Checkout`s for key 7 park one after the other: the queue for 7 holds their channels
in that order. -/
theorem served_in_parking_order_two : ∃ s inner,
    run uniq [(Env.quiet 0, .checkout 7), (Env.quiet 1, .poll 0), (Env.quiet 2, .checkout 7),
      (Env.quiet 3, .poll 1)] (State.noTimer 2) = .ok s ∧ s.pool = some inner ∧
    (inner.waiters 7).getD [] = [0, 1] ∧
    (((inner.waiters 7).getD []).Pairwise (· < ·) ∧
      ∀ v r, uniq.canShare v = false → inner.put uniq (Env.quiet 4) s.chans 7 v = .ok r →
        ∀ tx, (s.chans tx).data = none → (r.2 tx).data = some v →
          ∀ c ∈ (inner.waiters 7).getD [], live (Env.quiet 4).racing s.chans c = true → tx ≤ c) := by
  have hr : run uniq [(Env.quiet 0, .checkout 7), (Env.quiet 1, .poll 0), (Env.quiet 2, .checkout 7),
      (Env.quiet 3, .poll 1)] (State.noTimer 2) = .ok _ := rfl
  exact ⟨_, _, hr, rfl, rfl, served_in_parking_order (fun _ _ => rfl) (Reachable.run (.init _ _) hr) rfl
    (Env.quiet 4) 7⟩

end LegacyPool
