import LegacyPool.Sanity.Moves

/-! What `put` can do. `handoff_cons` says once what one turn of the waiter loop does; the
loop's facts follow by induction over the queue, and `put_cases` splits `put` into its
gate, its handoff (`offer`) and its insertion. -/

namespace LegacyPool

open Function

variable {T K : Type} [DecidableEq K] {P : Poolable T} {racing : Nat → Bool}

theorem handoff_cons {chans : Nat → Chan T} {value : Option T} {tx : Nat} {rest : List Nat}
    {r : (Nat → Chan T) × Option T × List Nat}
    (h : handoff P racing chans value (tx :: rest) = .ok r) :
    ((chans tx).isCanceled ∧ handoff P racing chans value rest = .ok r) ∨
    (¬(chans tx).isCanceled ∧ ∃ v, value = some v ∧
      (((sendAt racing chans tx (P.reserve v).split.2).2 = .ok () ∧ (P.reserve v).split.1 = none ∧
          r = (update chans tx (sendAt racing chans tx (P.reserve v).split.2).1, none, rest)) ∨
        ∃ w, handoff P racing (update chans tx (sendAt racing chans tx (P.reserve v).split.2).1)
            (some w) rest = .ok r ∧
          (((sendAt racing chans tx (P.reserve v).split.2).2 = .ok () ∧ (P.reserve v).split.1 = some w) ∨
            (sendAt racing chans tx (P.reserve v).split.2).2 = .error w))) := by
  unfold handoff at h
  split at h
  · exact .inl ⟨‹_›, h⟩
  · refine .inr ⟨‹_›, ?_⟩
    split at h
    · cases h
    · rename_i v
      refine ⟨v, rfl, ?_⟩
      split at h
      · rename_i hok
        split at h
        · exact .inl ⟨hok, ‹_›, (Except.ok.inj h).symm⟩
        · exact .inr ⟨_, h, .inl ⟨hok, ‹_›⟩⟩
      · exact .inr ⟨_, h, .inr ‹_›⟩

theorem sendAt_rxLive {chans : Nat → Chan T} {tx : Nat} {w : T}
    (h : (sendAt racing chans tx w).1.rxLive) : (chans tx).rxLive := by
  unfold sendAt Chan.send at h
  split at h <;> split at * <;> simp_all [Chan.dropReceiver]

theorem handoff_rest {chans : Nat → Chan T} {value : Option T} {q : List Nat}
    {r : (Nat → Chan T) × Option T × List Nat} (h : handoff P racing chans value q = .ok r) :
    r.2.2 <:+ q ∧ (r.2.1.isSome → r.2.2 = []) := by
  induction q generalizing chans value with
  | nil => cases h; exact ⟨List.suffix_refl _, fun _ => rfl⟩
  | cons tx rest ih =>
    rcases handoff_cons h with ⟨-, h⟩ | ⟨-, v, -, ⟨-, -, rfl⟩ | ⟨w, h, -⟩⟩
    · exact (ih h).imp (fun hs => hs.trans (List.suffix_cons _ _)) id
    · exact ⟨List.suffix_cons _ _, by simp⟩
    · exact (ih h).imp (fun hs => hs.trans (List.suffix_cons _ _)) id

theorem handoff_rxLive {chans : Nat → Chan T} {value : Option T} {q : List Nat}
    {r : (Nat → Chan T) × Option T × List Nat} (h : handoff P racing chans value q = .ok r)
    (c : Nat) (hc : (r.1 c).rxLive) : (chans c).rxLive := by
  induction q generalizing chans value with
  | nil => cases h; exact hc
  | cons tx rest ih =>
    have hupd : ∀ w, (update chans tx (sendAt racing chans tx w).1 c).rxLive → (chans c).rxLive := by
      intro w hw
      by_cases hct : c = tx
      · subst hct; simp only [update_same] at hw; exact sendAt_rxLive hw
      · simpa [hct] using hw
    rcases handoff_cons h with ⟨-, h⟩ | ⟨-, v, -, ⟨-, -, rfl⟩ | ⟨w, h, -⟩⟩
    · exact ih h
    · exact hupd _ hc
    · exact hupd _ (ih h)

theorem handoff_split {chans : Nat → Chan T} {value : Option T} {q : List Nat}
    {r : (Nat → Chan T) × Option T × List Nat} (h : handoff P racing chans value q = .ok r) :
    ∃ popped, q = popped ++ r.2.2 ∧ ∀ c, c ∉ popped → r.1 c = chans c := by
  induction q generalizing chans value with
  | nil => cases h; exact ⟨[], rfl, fun _ _ => rfl⟩
  | cons tx rest ih =>
    have hcons : ∀ {chans' : Nat → Chan T} popped, rest = popped ++ r.2.2 →
        (∀ c, c ∉ popped → r.1 c = chans' c) → (∀ c, c ≠ tx → chans' c = chans c) →
        ∃ popped, tx :: rest = popped ++ r.2.2 ∧ ∀ c, c ∉ popped → r.1 c = chans c :=
      fun popped hq hr hc => ⟨tx :: popped, by rw [hq]; rfl, fun c hcp => by
        simp only [List.mem_cons, not_or] at hcp
        rw [hr c hcp.2, hc c hcp.1]⟩
    rcases handoff_cons h with ⟨-, h⟩ | ⟨-, v, -, ⟨-, -, rfl⟩ | ⟨w, h, -⟩⟩
    · obtain ⟨popped, hq, hr⟩ := ih h
      exact hcons popped hq hr fun _ _ => rfl
    · exact ⟨[tx], rfl, fun c hc => update_noteq (by simpa using hc) _ _⟩
    · obtain ⟨popped, hq, hr⟩ := ih h
      exact hcons popped hq hr fun c hc => update_noteq hc _ _

theorem handoff_owner {chans : Nat → Chan T} {value : Option T} {q : List Nat}
    {r : (Nat → Chan T) × Option T × List Nat} (h : handoff P racing chans value q = .ok r) (c : Nat) :
    (r.1 c).owner = (chans c).owner := by
  induction q generalizing chans value with
  | nil => cases h; rfl
  | cons tx rest ih =>
    have hupd : ∀ w, (update chans tx (sendAt racing chans tx w).1 c).owner = (chans c).owner := by
      intro w
      by_cases hct : c = tx
      · subst hct
        simp only [update_same, sendAt, Chan.send, Chan.dropReceiver]
        split <;> split <;> rfl
      · rw [update_noteq hct]
    rcases handoff_cons h with ⟨-, h⟩ | ⟨-, v, -, ⟨-, -, rfl⟩ | ⟨w, h, -⟩⟩
    · exact ih h
    · exact hupd _
    · rw [ih h, hupd]

theorem handoff_ok (racing : Nat → Bool) (chans : Nat → Chan T) (v : T) (q : List Nat) :
    ∃ r, handoff P racing chans (some v) q = .ok r := by
  induction q generalizing chans v with
  | nil => exact ⟨_, rfl⟩
  | cons tx rest ih =>
    simp only [handoff]
    split
    · exact ih chans v
    · split
      · split
        · exact ⟨_, rfl⟩
        · exact ih _ _
      · exact ih _ _

theorem handoff_of_canceled {chans : Nat → Chan T} {value : Option T} {q : List Nat}
    (h : ∀ c ∈ q, (chans c).isCanceled) : handoff P racing chans value q = .ok (chans, value, []) := by
  induction q with
  | nil => rfl
  | cons tx rest ih =>
    simp only [List.mem_cons, forall_eq_or_imp] at h
    simp [handoff, h.1, ih h.2]

theorem offer_cases {inner : PoolInner T K} {chans : Nat → Chan T} {key : K} {value : T}
    {o : PoolInner T K × (Nat → Chan T) × Option T}
    (h : inner.offer P racing chans key value = .ok o) :
    (inner.waiters key = none ∧ o = (inner, chans, some value)) ∨
    ∃ q r, inner.waiters key = some q ∧ handoff P racing chans (some value) q = .ok r ∧
      o = ({ inner with waiters := update inner.waiters key (if r.2.2.isEmpty then none else some r.2.2) },
        r.1, r.2.1) := by
  unfold PoolInner.offer at h
  split at h
  · exact .inl ⟨‹_›, (Except.ok.inj h).symm⟩
  · obtain ⟨r, hr, rfl⟩ := except_map_eq_ok.1 h
    exact .inr ⟨_, r, ‹_›, hr, rfl⟩

theorem offer_frame {inner : PoolInner T K} {chans : Nat → Chan T} {key : K} {value : T}
    {o : PoolInner T K × (Nat → Chan T) × Option T}
    (h : inner.offer P racing chans key value = .ok o) :
    ∃ w, o.1 = { inner with waiters := update inner.waiters key w } := by
  rcases offer_cases h with ⟨hw, rfl⟩ | ⟨q, r, -, -, rfl⟩
  · exact ⟨none, by rw [← hw, update_eq_self]⟩
  · exact ⟨_, rfl⟩

theorem offer_waiters {inner : PoolInner T K} {chans : Nat → Chan T} {key : K} {value : T}
    {o : PoolInner T K × (Nat → Chan T) × Option T}
    (h : inner.offer P racing chans key value = .ok o) :
    o.1.waiters key = none ∨ (o.2.2 = none ∧ ∃ q, o.1.waiters key = some q ∧ q ≠ []) := by
  rcases offer_cases h with ⟨hw, rfl⟩ | ⟨q, r, -, hr, rfl⟩
  · exact .inl hw
  · have hrest := (handoff_rest hr).2
    cases hq : r.2.2 with
    | nil => simp [hq]
    | cons c cs =>
      refine .inr ⟨?_, c :: cs, by simp [hq], by simp⟩
      cases hv : r.2.1 with
      | none => rfl
      | some v => simp [hv] at hrest; simp [hrest] at hq

theorem put_cases {env : Env T} {inner : PoolInner T K} {chans : Nat → Chan T} {key : K} {value : T}
    {r : PoolInner T K × (Nat → Chan T)} (h : inner.put P env chans key value = .ok r) :
    (P.canShare value = true ∧ (inner.idle key).isSome ∧ r = (inner, chans)) ∨
    ((P.canShare value = true → (inner.idle key).isSome = false) ∧ ∃ o,
      inner.offer P env.racing chans key value = .ok o ∧ r = (o.1.insert env.now key o.2.2, o.2.1)) := by
  unfold PoolInner.put at h
  split at h
  · rename_i hg
    simp only [Bool.and_eq_true] at hg
    exact .inl ⟨hg.1, hg.2, (Except.ok.inj h).symm⟩
  · rename_i hg
    obtain ⟨o, ho, rfl⟩ := except_map_eq_ok.1 h
    exact .inr ⟨fun hs => by simpa [hs] using hg, o, ho, rfl⟩

theorem put_ok (env : Env T) (inner : PoolInner T K) (chans : Nat → Chan T) (key : K) (value : T) :
    ∃ r, inner.put P env chans key value = .ok r := by
  unfold PoolInner.put PoolInner.offer
  split
  · exact ⟨_, rfl⟩
  · split
    · exact ⟨_, rfl⟩
    · obtain ⟨r, hr⟩ := handoff_ok (P := P) env.racing chans value ‹_›
      exact ⟨_, by rw [hr]; rfl⟩

theorem insert_idle (now : Nat) (inner : PoolInner T K) (key : K) (v : Option T) (k : K) :
    (inner.insert now key v).idle k = inner.idle k ∨
      (k = key ∧ inner.maxIdlePerHost ≤ ((inner.idle k).getD []).length ∧
        (inner.insert now key v).idle k = some ((inner.idle k).getD [])) ∨
      (k = key ∧ ∃ w, v = some w ∧ ((inner.idle k).getD []).length < inner.maxIdlePerHost ∧
        (inner.insert now key v).idle k = some ((inner.idle k).getD [] ++ [⟨now, w⟩])) := by
  unfold PoolInner.insert
  split
  · exact .inl rfl
  · rename_i w
    by_cases hk : k = key
    · subst hk
      split
      · exact .inr (.inl ⟨rfl, ‹_›, by simp⟩)
      · exact .inr (.inr ⟨rfl, w, rfl, by omega, by simp⟩)
    · left; split <;> simp [hk]

theorem insert_idle_of_ne (now : Nat) (inner : PoolInner T K) {key k : K} (v : Option T)
    (hk : k ≠ key) : (inner.insert now key v).idle k = inner.idle k := by
  rcases insert_idle now inner key v k with h | ⟨h2, -⟩ | ⟨h2, -⟩
  · exact h
  · exact absurd h2 hk
  · exact absurd h2 hk

@[simp] theorem insert_waiters (now : Nat) (inner : PoolInner T K) (key : K) (v : Option T) :
    (inner.insert now key v).waiters = inner.waiters := by
  unfold PoolInner.insert; split <;> (try split) <;> simp

@[simp] theorem insert_maxIdlePerHost (now : Nat) (inner : PoolInner T K) (key : K) (v : Option T) :
    (inner.insert now key v).maxIdlePerHost = inner.maxIdlePerHost := by
  unfold PoolInner.insert; split <;> (try split) <;> simp

@[simp] theorem insert_connecting (now : Nat) (inner : PoolInner T K) (key : K) (v : Option T) :
    (inner.insert now key v).connecting = inner.connecting := by
  unfold PoolInner.insert; split <;> (try split) <;> simp

@[simp] theorem insert_timeout (now : Nat) (inner : PoolInner T K) (key : K) (v : Option T) :
    (inner.insert now key v).timeout = inner.timeout := by
  unfold PoolInner.insert; split <;> (try split) <;> simp

end LegacyPool
