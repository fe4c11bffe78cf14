import LegacyPool.Sanity.Pop

/-! Eviction is invisible to checkouts. `clear_expired` keeps an entry exactly when it is open
and not idle for longer than the timeout, the two checks `IdlePopper::pop` makes before it
hands an entry out. Run at a time no later than a probe, and with connections that stay
closed once closed, it drops only entries the probe would skip, so the probe hands out the
same entry with or without the interval task. -/

namespace LegacyPool

open Function

variable {T K : Type} [DecidableEq K] {P : Poolable T}

section Pop

variable {isOpen : T → Bool} {exp : Expiration} {now : Nat}

theorem popRev_of_unusable {x : Idle T} (rest : List (Idle T)) (hx : usable isOpen exp now x = false) :
    IdlePopper.popRev P isOpen exp now (x :: rest) = IdlePopper.popRev P isOpen exp now rest := by
  simp only [usable, Bool.and_eq_false_iff, Bool.not_eq_false'] at hx
  rcases hx with hx | hx <;> simp [IdlePopper.popRev, hx]

theorem popRev_of_usable {x : Idle T} (rest : List (Idle T)) (hx : usable isOpen exp now x = true) :
    (IdlePopper.popRev P isOpen exp now (x :: rest)).1 = some ⟨x.idleAt, (P.reserve x.value).split.2⟩ := by
  simp only [usable, Bool.and_eq_true, Bool.not_eq_true'] at hx
  simp only [IdlePopper.popRev, hx.1, hx.2]
  cases P.reserve x.value <;> rfl

theorem popRev_filter (q : Idle T → Bool) (hq : ∀ e, usable isOpen exp now e = true → q e = true)
    (rev : List (Idle T)) :
    (IdlePopper.popRev P isOpen exp now (rev.filter q)).1 = (IdlePopper.popRev P isOpen exp now rev).1 := by
  induction rev with
  | nil => rfl
  | cons x rest ih =>
    cases hx : usable isOpen exp now x with
    | false =>
      rw [popRev_of_unusable rest hx]
      by_cases hqx : q x = true
      · rw [List.filter_cons_of_pos hqx, popRev_of_unusable _ hx, ih]
      · rw [List.filter_cons_of_neg hqx, ih]
    | true => rw [List.filter_cons_of_pos (hq x hx), popRev_of_usable _ hx, popRev_of_usable _ hx]

theorem pop_filter (q : Idle T → Bool) (hq : ∀ e, usable isOpen exp now e = true → q e = true)
    (list : List (Idle T)) :
    (IdlePopper.pop P isOpen exp now (list.filter q)).1 = (IdlePopper.pop P isOpen exp now list).1 := by
  simp only [IdlePopper.pop, ← List.filter_reverse, popRev_filter q hq]

end Pop

theorem takeIdle_snd (isOpen : T → Bool) (now : Nat) (inner : PoolInner T K) (key : K) :
    (inner.takeIdle P isOpen now key).2 =
      (inner.idle key).bind fun l => (IdlePopper.pop P isOpen ⟨inner.timeout⟩ now l).1 := by
  unfold PoolInner.takeIdle
  split
  · rename_i e l hm
    obtain ⟨l', hl, hp⟩ := Option.map_eq_some'.1 hm
    simp [hl, hp]
  · rename_i hne
    cases hl : inner.idle key with
    | none => rfl
    | some l =>
      cases hp : IdlePopper.pop P isOpen ⟨inner.timeout⟩ now l with
      | mk o rest =>
        cases o with
        | none => simp [hp]
        | some e => exact absurd (by simp [hl, hp]) (hne e rest)

/-- Eviction is invisible to checkouts: a probe of `Checkout::checkout` at time `now` hands out
the same entry whether or not `clear_expired` ran before it, at any time `t ≤ now`, provided
a connection closed at the sweep is still closed at the probe. -/
theorem clear_expired_invisible {isOpen isOpen' : T → Bool} {t now : Nat} (hle : t ≤ now)
    (hclosed : ∀ v, isOpen' v = true → isOpen v = true) {inner inner' : PoolInner T K}
    (h : inner.clearExpired isOpen t = .ok inner') (key : K) :
    (inner'.takeIdle P isOpen' now key).2 = (inner.takeIdle P isOpen' now key).2 := by
  obtain ⟨dur, hdur, rfl⟩ := clearExpired_spec h
  have hkeep : ∀ e, usable isOpen' ⟨some dur⟩ now e = true → keepFresh isOpen t dur e = true := by
    intro e he
    obtain ⟨hopen, hfresh⟩ := (usable_iff isOpen' (some dur) now e).1 he
    have := hfresh dur rfl
    simp only [keepFresh, hclosed _ hopen, Bool.true_and, Bool.not_eq_true', decide_eq_false_iff_not]
    omega
  simp only [takeIdle_snd, hdur]
  cases inner.idle key with
  | none => rfl
  | some l =>
    simp only [Option.some_bind, ← pop_filter (keepFresh isOpen t dur) hkeep l, retainFresh]
    split
    · rename_i hemp
      rw [List.isEmpty_iff.1 hemp]
      rfl
    · rfl

/-- `test_pool_timer_removes_expired` in small: with a 5 ns timeout, the connection idle since
time 2 is evicted at time 10, and a probe at time 10 finds nothing either way. -/
theorem clear_expired_invisible_smoke : ∃ s inner inner',
    run uniq smokeTrace (State.init ⟨some 5, 2⟩ false : State Nat Nat) = .ok s ∧ s.pool = some inner ∧
    inner.clearExpired (fun _ => true) 10 = .ok inner' ∧ inner.idle 7 ≠ none ∧ inner'.idle 7 = none ∧
    (inner'.takeIdle uniq (fun _ => true) 10 7).2 = (inner.takeIdle uniq (fun _ => true) 10 7).2 := by
  have hr : run uniq smokeTrace (State.init ⟨some 5, 2⟩ false : State Nat Nat) = .ok _ := rfl
  refine ⟨_, _, _, hr, rfl, rfl, by decide, rfl, clear_expired_invisible (t := 10) ?_ (fun _ h => h) ?_ 7⟩
  · decide
  · rfl

end LegacyPool
