import LegacyPool.Sanity.Pop

/-! Idle lists are ordered by age. An entry enters an idle list only at its end and only
stamped with the time of the step (`put`'s push, and the re-push of the kept half after a
shared checkout); the other operations remove entries. So while the clock never runs
backwards every list is sorted by `idle_at`, with no stamp in the future. An entry found
expired then has only expired entries before it, now and later, and the early exit that
the TODO in `IdlePopper::pop` proposes returns what the loop returns. -/

namespace LegacyPool

open Function Relation

variable {T K : Type} [DecidableEq K] {P : Poolable T}

/-- The client discipline of this module: the clock never runs backwards. -/
def clockMonotone (s : State T K) (env : Env T) (_ : Op T K) : Prop := s.clock ≤ env.now

/-- Sorted by age, and no entry stamped after `now`. -/
def AgedList (now : Nat) (l : List (Idle T)) : Prop :=
  l.Pairwise (fun a b => a.idleAt ≤ b.idleAt) ∧ ∀ e ∈ l, e.idleAt ≤ now

theorem AgedList.mono {now now' : Nat} {l : List (Idle T)} (h : AgedList now l)
    (hle : now ≤ now') : AgedList now' l :=
  ⟨h.1, fun e he => Nat.le_trans (h.2 e he) hle⟩

theorem AgedList.sublist {now : Nat} {l l' : List (Idle T)} (h : AgedList now l) (hs : List.Sublist l' l) :
    AgedList now l' :=
  ⟨h.1.sublist hs, fun e he => h.2 e (hs.subset he)⟩

theorem AgedList.push {now : Nat} {l : List (Idle T)} (h : AgedList now l) (o : Option (Idle T))
    (ho : ∀ e ∈ o, e.idleAt = now) : AgedList now (l ++ o.toList) := by
  cases o with
  | none => simpa using h
  | some e =>
    have he : e.idleAt = now := ho e rfl
    refine ⟨List.pairwise_append.2 ⟨h.1, List.pairwise_singleton _ _, fun a ha b hb => ?_⟩, fun x hx => ?_⟩
    · simp only [Option.toList_some, List.mem_singleton] at hb
      exact hb ▸ he ▸ h.2 a ha
    · rcases List.mem_append.1 hx with hx | hx
      · exact h.2 x hx
      · simp only [Option.toList_some, List.mem_singleton] at hx; exact Nat.le_of_eq (hx ▸ he)

/-- Every idle list of a pool is aged at `now`. -/
def Aged (now : Nat) (inner : PoolInner T K) : Prop :=
  ∀ k l, inner.idle k = some l → AgedList now l

omit [DecidableEq K] in
theorem Aged.getD {now : Nat} {inner : PoolInner T K} (ha : Aged now inner) (k : K) :
    AgedList now ((inner.idle k).getD []) := by
  cases h : inner.idle k with
  | none => exact ⟨.nil, by simp⟩
  | some l => exact ha k l h

theorem Aged.of_idle {now : Nat} {inner : PoolInner T K} (ha : Aged now inner) (key : K)
    (l : Option (List (Idle T))) (hl : ∀ x, l = some x → AgedList now x) :
    Aged now { inner with idle := update inner.idle key l } := fun k x hx => by
  by_cases hk : k = key
  · subst hk; exact hl x (by simpa using hx)
  · exact ha k x (by simpa [hk] using hx)

theorem Aged.put {now : Nat} {inner : PoolInner T K} {env : Env T} {chans : Nat → Chan T}
    {key : K} {value : T} {r : PoolInner T K × (Nat → Chan T)} (hclock : env.now = now)
    (ha : Aged now inner) (h : inner.put P env chans key value = .ok r) : Aged now r.1 := by
  rcases put_cases h with ⟨-, -, rfl⟩ | ⟨-, o, ho, rfl⟩
  · exact ha
  obtain ⟨w, hw⟩ := offer_frame ho
  have ha' : Aged now o.1 := fun k l hl => ha k l (by rw [hw] at hl; exact hl)
  intro k l hl
  rcases insert_idle env.now o.1 key o.2.2 k with h | ⟨-, -, h⟩ | ⟨-, v, -, -, h⟩ <;> rw [h] at hl
  · exact ha' k l hl
  · cases hl; exact ha'.getD k
  · cases hl; exact (ha'.getD k).push (some ⟨env.now, v⟩) fun e he => by cases he; exact hclock

theorem Aged.takeIdle {now : Nat} {inner : PoolInner T K} (ha : Aged now inner) (isOpen : T → Bool)
    (key : K) : Aged now (inner.takeIdle P isOpen now key).1 := by
  obtain ⟨l, hl⟩ := takeIdle_frame (P := P) isOpen now inner key
  rw [hl]
  refine ha.of_idle key l fun x hx => ?_
  have hx' : (inner.takeIdle P isOpen now key).1.idle key = some x := by simp [hl, hx]
  rcases takeIdle_idle (P := P) isOpen now inner key with h | ⟨list, hlist, -, -, h⟩
  · simp [h] at hx'
  · rw [h] at hx'; cases hx'
    rcases pop_spec (P := P) isOpen ⟨inner.timeout⟩ now list with
      ⟨-, hp⟩ | ⟨pre, e, post, rfl, -, -, hp⟩ <;> rw [hp]
    · exact ⟨.nil, by simp⟩
    · -- the kept half of a shared reservation goes back stamped `now`
      refine (( ha key _ hlist).sublist (List.sublist_append_left _ _)).push _ fun x hx => ?_
      obtain ⟨y, -, rfl⟩ := Option.map_eq_some'.1 hx
      rfl

omit [DecidableEq K] in
theorem Aged.clearExpired {now : Nat} {inner inner' : PoolInner T K} {isOpen : T → Bool}
    (ha : Aged now inner) (h : inner.clearExpired isOpen now = .ok inner') : Aged now inner' := by
  obtain ⟨dur, -, rfl⟩ := clearExpired_spec h
  intro k l hl
  obtain ⟨values, hv, hr⟩ := Option.bind_eq_some.1 hl
  obtain ⟨rfl, -⟩ := retainFresh_spec isOpen now dur values l hr
  exact (ha k values hv).sublist (List.filter_sublist _)

theorem Aged.move {s s' : State T K} (hm : Move P s s')
    (ha : ∀ inner, s.pool = some inner → Aged s.clock inner) :
    ∀ inner, s'.pool = some inner → Aged s'.clock inner := by
  obtain ⟨hclock, hcases⟩ := hm.idle_cases
  intro inner' hpool'
  obtain ⟨inner, hpool, hidle | ⟨env, key, value, r, henv, hput, rfl⟩ | ⟨isOpen, key, rfl⟩ |
    ⟨isOpen, hexp⟩⟩ := hcases inner' hpool'
  all_goals rw [hclock]
  · exact fun k l hl => ha inner hpool k l (hidle ▸ hl)
  · exact (ha inner hpool).put henv hput
  · exact (ha inner hpool).takeIdle isOpen key
  · exact (ha inner hpool).clearExpired hexp

omit [DecidableEq K] in
theorem aged_init (config : Config) (timer : Bool) :
    ∀ inner, (State.init config timer : State T K).pool = some inner →
      Aged (State.init config timer : State T K).clock inner := by
  intro inner h
  simp only [State.init, Pool.new] at h
  split at h
  · cases h; intro k l hl; simp at hl
  · cases h

theorem reachable_aged {s : State T K} (h : Reachable P clockMonotone s) :
    ∀ inner, s.pool = some inner → Aged s.clock inner :=
  Reachable.of_moves (I := fun s => ∀ inner, s.pool = some inner → Aged s.clock inner)
    aged_init (fun _ _ _ hle ha inner hpool k l hl => (ha inner hpool k l hl).mono hle)
    (fun _ _ hm h => Aged.move hm h) h

theorem step_clock {env : Env T} {op : Op T K} {s s' : State T K} (h : step P env op s = .ok s') :
    s'.clock = env.now := by
  have hmoves := stepOp_moves (s := { s with clock := env.now }) rfl h
  clear h
  induction hmoves with
  | refl => rfl
  | tail _ hm ih => exact hm.idle_cases.1.trans ih

theorem Reachable.run_clockMonotone {trace : List (Env T × Op T K)} {s s' : State T K}
    (h : Reachable P clockMonotone s) (hr : LegacyPool.run P trace s = .ok s')
    (hmono : (s.clock :: trace.map (·.1.now)).Pairwise (· ≤ ·)) : Reachable P clockMonotone s' := by
  induction trace generalizing s with
  | nil => cases hr; exact h
  | cons e trace ih =>
    obtain ⟨env, op⟩ := e
    simp only [LegacyPool.run] at hr
    split at hr
    · rename_i s1 hstep
      simp only [List.map_cons, List.pairwise_cons, List.mem_cons, forall_eq_or_imp] at hmono
      exact ih (h.step hmono.1.1 hstep) hr (by
        rw [step_clock hstep]; exact List.pairwise_cons.2 ⟨hmono.2.1, hmono.2.2⟩)
    · cases hr

/-! The early exit of the TODO in `IdlePopper::pop`. -/

/-- `IdlePopper::pop` with the early exit its TODO proposes, on the list read from its
end: an open entry found expired drops the whole list. -/
def IdlePopper.popRevShortCircuit (P : Poolable T) (isOpen : T → Bool) (exp : Expiration)
    (now : Nat) : List (Idle T) → Option (Idle T) × List (Idle T)
  | [] => (none, [])
  | entry :: rev =>
    if !isOpen entry.value then popRevShortCircuit P isOpen exp now rev
    else if exp.expires now entry.idleAt then (none, [])
    else match P.reserve entry.value with
      | .shared toReinsert toCheckout => (some ⟨entry.idleAt, toCheckout⟩, ⟨now, toReinsert⟩ :: rev)
      | .unique unique => (some ⟨entry.idleAt, unique⟩, rev)

def IdlePopper.popShortCircuit (P : Poolable T) (isOpen : T → Bool) (exp : Expiration) (now : Nat)
    (list : List (Idle T)) : Option (Idle T) × List (Idle T) :=
  ((popRevShortCircuit P isOpen exp now list.reverse).1,
   (popRevShortCircuit P isOpen exp now list.reverse).2.reverse)

theorem Expiration.expires_of_le {exp : Expiration} {now now' a b : Nat} (hab : a ≤ b)
    (hnow : now ≤ now') (h : exp.expires now b) : exp.expires now' a := by
  unfold Expiration.expires at *
  split at h
  · simp only [decide_eq_true_eq] at h ⊢; omega
  · cases h

theorem popRev_of_expired {isOpen : T → Bool} {exp : Expiration} {now : Nat} {rev : List (Idle T)}
    (h : ∀ e ∈ rev, exp.expires now e.idleAt) : IdlePopper.popRev P isOpen exp now rev = (none, []) := by
  induction rev with
  | nil => rfl
  | cons x rest ih =>
    simp only [List.mem_cons, forall_eq_or_imp] at h
    simp only [IdlePopper.popRev, h.1, ih h.2, ite_true, ite_self]

theorem popRev_eq_shortCircuit {isOpen : T → Bool} {exp : Expiration} {now : Nat}
    {rev : List (Idle T)} (h : rev.Pairwise (fun a b => b.idleAt ≤ a.idleAt)) :
    IdlePopper.popRev P isOpen exp now rev = IdlePopper.popRevShortCircuit P isOpen exp now rev := by
  induction rev with
  | nil => rfl
  | cons x rest ih =>
    obtain ⟨hx, hrest⟩ := List.pairwise_cons.1 h
    by_cases hexp : exp.expires now x.idleAt
    · -- everything after `x` is older, so expired too: both drop what is left
      have hall : ∀ e ∈ rest, exp.expires now e.idleAt :=
        fun e he => Expiration.expires_of_le (hx e he) (Nat.le_refl _) hexp
      have hsc : IdlePopper.popRevShortCircuit P isOpen exp now rest = (none, []) := by
        rw [← ih hrest, popRev_of_expired hall]
      simp only [IdlePopper.popRev, IdlePopper.popRevShortCircuit, hexp, popRev_of_expired hall, hsc,
        ite_true, ite_self]
    · cases hres : P.reserve x.value <;>
        simp [IdlePopper.popRev, IdlePopper.popRevShortCircuit, hexp, ih hrest, hres]

theorem pop_eq_shortCircuit {isOpen : T → Bool} {exp : Expiration} {now : Nat} {l : List (Idle T)}
    (h : l.Pairwise (fun a b => a.idleAt ≤ b.idleAt)) :
    IdlePopper.pop P isOpen exp now l = IdlePopper.popShortCircuit P isOpen exp now l := by
  unfold IdlePopper.pop IdlePopper.popShortCircuit
  rw [popRev_eq_shortCircuit (List.pairwise_reverse.2 h)]

/-- Idle lists are ordered by age: in every state reached with a clock that never runs
backwards, each idle list is sorted by `idle_at` and stamped no later than the clock; an
entry expired at some time has every entry before it expired then and later; and the early
exit of `IdlePopper::pop` returns the same entry and leaves the same list. -/
theorem idle_ordered_by_age {s : State T K} (h : Reachable P clockMonotone s)
    {inner : PoolInner T K} (hpool : s.pool = some inner) (k : K) (l : List (Idle T))
    (hl : inner.idle k = some l) :
    l.Pairwise (fun a b => a.idleAt ≤ b.idleAt) ∧ (∀ e ∈ l, e.idleAt ≤ s.clock) ∧
    (∀ pre e post, l = pre ++ e :: post → ∀ (exp : Expiration) now, exp.expires now e.idleAt →
      ∀ x ∈ pre, ∀ now', now ≤ now' → exp.expires now' x.idleAt) ∧
    (∀ isOpen exp now, IdlePopper.pop P isOpen exp now l = IdlePopper.popShortCircuit P isOpen exp now l) := by
  obtain ⟨hsorted, hstamp⟩ := reachable_aged h inner hpool k l hl
  refine ⟨hsorted, hstamp, ?_, fun _ _ _ => pop_eq_shortCircuit hsorted⟩
  rintro pre e post rfl exp now hexp x hx now' hle
  have hxe : x.idleAt ≤ e.idleAt :=
    (List.pairwise_append.1 hsorted).2.2 x hx e (List.mem_cons_self _ _)
  exact Expiration.expires_of_le hxe hle hexp

/-- `test_pool_checkout_removes_expired` with two connections for key 7 returned 150 ms
apart: the list is sorted, its first entry has expired by the time the second comes back and
the second has not, and the early exit changes nothing. -/
theorem idle_ordered_by_age_smoke : ∃ s inner l,
    run uniq [(Env.quiet 0, .connecting 7 .auto), (Env.quiet 0, .pooled 0 41), (Env.quiet 0, .dropPooled 0),
      (Env.quiet 150000000, .connecting 7 .auto), (Env.quiet 150000000, .pooled 1 5),
      (Env.quiet 150000000, .dropPooled 1)] (State.noTimer 2) = .ok s ∧
    s.pool = some inner ∧ inner.idle 7 = some l ∧ l = [⟨0, 41⟩, ⟨150000000, 5⟩] ∧
    (⟨inner.timeout⟩ : Expiration).expires s.clock 0 = true ∧
    (⟨inner.timeout⟩ : Expiration).expires s.clock 150000000 = false ∧
    (l.Pairwise (fun a b => a.idleAt ≤ b.idleAt) ∧ (∀ e ∈ l, e.idleAt ≤ s.clock) ∧
      (∀ pre e post, l = pre ++ e :: post → ∀ (exp : Expiration) now, exp.expires now e.idleAt →
        ∀ x ∈ pre, ∀ now', now ≤ now' → exp.expires now' x.idleAt) ∧
      ∀ isOpen exp now, IdlePopper.pop uniq isOpen exp now l = IdlePopper.popShortCircuit uniq isOpen exp now l) := by
  obtain ⟨s, inner, hr, hpool, hl, hold, hyoung⟩ : ∃ s inner,
      run uniq [(Env.quiet 0, .connecting 7 .auto), (Env.quiet 0, .pooled 0 41), (Env.quiet 0, .dropPooled 0),
        (Env.quiet 150000000, .connecting 7 .auto), (Env.quiet 150000000, .pooled 1 5),
        (Env.quiet 150000000, .dropPooled 1)] (State.noTimer 2) = .ok s ∧
      s.pool = some inner ∧ inner.idle 7 = some [⟨0, 41⟩, ⟨150000000, 5⟩] ∧
      (⟨inner.timeout⟩ : Expiration).expires s.clock 0 = true ∧
      (⟨inner.timeout⟩ : Expiration).expires s.clock 150000000 = false :=
    ⟨_, _, rfl, rfl, rfl, rfl, rfl⟩
  exact ⟨s, inner, _, hr, hpool, hl, rfl, hold, hyoung,
    idle_ordered_by_age (Reachable.run_clockMonotone (.init _ _) hr (by decide)) hpool 7 _ hl⟩

end LegacyPool
