import LegacyPool.Proofs.Wakeup

/-! Multiplexed connections. Under the `Poolable` contract, that a value can be shared when
its reservation is `Shared` and that the halves of a `Shared` reservation can be shared
again, an idle list holds at most one shareable entry: `put` inserts a shareable value only
when the key has no idle list (its gate, or the waiters it found, which keep `idle` away
from the key), and the re-push of `IdlePopper::pop` replaces the shareable entry it took. -/

namespace LegacyPool

open Function

variable {T K : Type} [DecidableEq K] {P : Poolable T}

/-- The number of shareable entries of an idle list. -/
def shareable (P : Poolable T) (l : List (Idle T)) : Nat := l.countP fun e => P.canShare e.value

/-- At most one shareable entry per idle list. -/
def OneShared (P : Poolable T) (inner : PoolInner T K) : Prop :=
  ∀ k l, inner.idle k = some l → shareable P l ≤ 1

section Contract

variable (hshared : ∀ v a b, P.reserve v = .shared a b → P.canShare v = true)
include hshared

theorem shareable_pop (isOpen : T → Bool) (exp : Expiration) (now : Nat) (list : List (Idle T))
    (h : shareable P list ≤ 1) : shareable P (IdlePopper.pop P isOpen exp now list).2 ≤ 1 := by
  rcases pop_spec (P := P) isOpen exp now list with ⟨-, hp⟩ | ⟨pre, e, post, rfl, -, -, hp⟩ <;> rw [hp]
  · simp [shareable]
  · have hk : (kept P now e.value).countP (fun e => P.canShare e.value) ≤ 1 :=
      Nat.le_trans (List.countP_le_length _) (kept_length_le now e.value)
    simp only [shareable, List.countP_append] at h ⊢
    cases hres : P.reserve e.value with
    | shared a b =>
      -- the entry taken was shareable, so `pre` holds none
      rw [List.countP_cons_of_pos (fun e : Idle T => P.canShare e.value) post (hshared _ _ _ hres)] at h
      omega
    | unique w =>
      have : kept P now e.value = [] := by simp [kept, hres, Reservation.split]
      rw [this, List.countP_nil]
      omega

theorem OneShared.takeIdle {inner : PoolInner T K} (ho : OneShared P inner) (isOpen : T → Bool)
    (now : Nat) (key : K) : OneShared P (inner.takeIdle P isOpen now key).1 := by
  obtain ⟨l, hl⟩ := takeIdle_frame (P := P) isOpen now inner key
  intro k x hx
  by_cases hk : k = key
  · subst hk
    rcases takeIdle_idle (P := P) isOpen now inner k with h | ⟨list, hlist, -, -, h⟩ <;> rw [h] at hx
    · cases hx
    · cases hx; exact shareable_pop hshared isOpen _ now list (ho k list hlist)
  · rw [hl] at hx; exact ho k x (by simpa [hk] using hx)

end Contract

omit [DecidableEq K] in
theorem OneShared.getD {inner : PoolInner T K} (ho : OneShared P inner) (k : K) :
    shareable P ((inner.idle k).getD []) ≤ 1 := by
  cases h : inner.idle k with
  | none => simp [shareable]
  | some l => exact ho k l h

theorem OneShared.put {inner : PoolInner T K} {env : Env T} {chans : Nat → Chan T} {key : K}
    {value : T} {r : PoolInner T K × (Nat → Chan T)} (ha : KeysApart inner) (ho : OneShared P inner)
    (h : inner.put P env chans key value = .ok r) : OneShared P r.1 := by
  rcases put_cases h with ⟨-, -, rfl⟩ | ⟨hgate, o, hoffer, rfl⟩
  · exact ho
  obtain ⟨w, hw⟩ := offer_frame hoffer
  have ho' : OneShared P o.1 := fun k l hl => ho k l (by rw [hw] at hl; exact hl)
  -- what `insert` appends: the value itself when no key is shared, into an empty list otherwise
  have hnew : ∀ v, o.2.2 = some v →
      (inner.idle key).getD [] = [] ∨ P.canShare v = false := by
    intro v hv
    have hnone : ∀ q, inner.waiters key = some q → inner.idle key = none := by
      intro q hq
      cases hi : inner.idle key with
      | none => rfl
      | some l => simp [ha key (by simp [hi])] at hq
    rcases offer_cases hoffer with ⟨-, rfl⟩ | ⟨q, -, hq, -, -⟩
    · simp only [Option.some.injEq] at hv
      subst hv
      cases hs : P.canShare value
      · exact .inr rfl
      · have hi := hgate hs
        cases hi' : inner.idle key with
        | none => exact .inl rfl
        | some l => simp [hi'] at hi
    · exact .inl (by simp [hnone q hq])
  intro k l hl
  rcases insert_idle env.now o.1 key o.2.2 k with h | ⟨-, -, h⟩ | ⟨rfl, v, hv, -, h⟩ <;> rw [h] at hl
  · exact ho' k l hl
  · cases hl; exact ho'.getD k
  · cases hl
    have hprev := ho'.getD k
    have hold : (o.1.idle k).getD [] = (inner.idle k).getD [] := by rw [hw]
    rw [hold] at hprev ⊢
    unfold shareable at hprev ⊢
    rw [List.countP_append]
    rcases hnew v hv with h0 | h0
    · rw [h0, List.countP_nil, Nat.zero_add]; exact List.countP_le_length _
    · simpa [h0] using hprev

omit [DecidableEq K] in
theorem OneShared.clearExpired {inner inner' : PoolInner T K} {isOpen : T → Bool} {now : Nat}
    (ho : OneShared P inner) (h : inner.clearExpired isOpen now = .ok inner') : OneShared P inner' := by
  obtain ⟨dur, -, rfl⟩ := clearExpired_spec h
  intro k l hl
  obtain ⟨values, hv, hr⟩ := Option.bind_eq_some.1 hl
  obtain ⟨rfl, -⟩ := retainFresh_spec isOpen now dur values l hr
  exact Nat.le_trans ((List.filter_sublist _).countP_le _) (ho k values hv)

theorem OneShared.move (hshared : ∀ v a b, P.reserve v = .shared a b → P.canShare v = true)
    {s s' : State T K} (hm : Move P s s')
    (hi : ∀ inner, s.pool = some inner → KeysApart inner ∧ OneShared P inner) :
    ∀ inner, s'.pool = some inner → OneShared P inner := by
  intro inner' hpool'
  obtain ⟨inner, hpool, hidle | ⟨env, key, value, r, -, hput, rfl⟩ | ⟨isOpen, key, rfl⟩ |
    ⟨isOpen, hexp⟩⟩ := hm.idle_cases.2 inner' hpool'
  · exact fun k l hl => (hi inner hpool).2 k l (hidle ▸ hl)
  · exact OneShared.put (hi inner hpool).1 (hi inner hpool).2 hput
  · exact (hi inner hpool).2.takeIdle hshared isOpen _ key
  · exact (hi inner hpool).2.clearExpired hexp

theorem reachable_oneShared (hshared : ∀ v a b, P.reserve v = .shared a b → P.canShare v = true)
    {s : State T K} (h : Reachable P anyStep s) :
    ∀ inner, s.pool = some inner → KeysApart inner ∧ OneShared P inner :=
  Reachable.of_moves (I := fun s => ∀ inner, s.pool = some inner → KeysApart inner ∧ OneShared P inner)
    (fun c t inner hpool => ⟨keysApart_init c t inner hpool, by
      simp only [State.init, Pool.new] at hpool
      split at hpool
      · cases hpool; intro k l hl; simp at hl
      · cases hpool⟩)
    (fun _ _ _ _ h => h)
    (fun _ _ hm hi inner hpool => ⟨KeysApart.move hm (fun i hp => (hi i hp).1) inner hpool,
      OneShared.move hshared hm hi inner hpool⟩) h

/-- At most one multiplexed connection is pooled per key: given that a value with a
`Shared` reservation can be shared, every idle list of a reachable state holds at most one
shareable entry, so a list of shareable entries only is at most one long. -/
theorem one_shareable_idle_per_key (hshared : ∀ v a b, P.reserve v = .shared a b → P.canShare v = true)
    {s : State T K} (h : Reachable P anyStep s) {inner : PoolInner T K} (hpool : s.pool = some inner)
    (k : K) (l : List (Idle T)) (hl : inner.idle k = some l) :
    shareable P l ≤ 1 ∧ ((∀ e ∈ l, P.canShare e.value = true) → l.length ≤ 1) := by
  have hone := (reachable_oneShared hshared h inner hpool).2 k l hl
  exact ⟨hone, fun hall => List.countP_eq_length.2 hall ▸ hone⟩

/-- An HTTP/2 connection for key 7 pooled, an HTTP/1 one for 7 returned beside it, then a
second HTTP/2 connection pooled for 7: the gate drops it, and the list keeps one shareable
entry of two. -/
theorem one_shareable_idle_per_key_h2 : ∃ s inner l,
    run mixed [(Env.quiet 0, .connecting 7 .http2), (Env.quiet 1, .pooled 0 42), (Env.quiet 2, .connecting 7 .auto),
      (Env.quiet 3, .pooled 1 41), (Env.quiet 4, .dropPooled 1), (Env.quiet 5, .connecting 7 .http2),
      (Env.quiet 6, .pooled 2 44)] (State.noTimer 2) = .ok s ∧
    s.pool = some inner ∧ inner.idle 7 = some l ∧ l = [⟨1, 42⟩, ⟨4, 41⟩] ∧
    shareable mixed l ≤ 1 ∧ ((∀ e ∈ l, mixed.canShare e.value = true) → l.length ≤ 1) := by
  obtain ⟨s, inner, hr, hpool, hl⟩ : ∃ s inner,
      run mixed [(Env.quiet 0, .connecting 7 .http2), (Env.quiet 1, .pooled 0 42),
        (Env.quiet 2, .connecting 7 .auto), (Env.quiet 3, .pooled 1 41), (Env.quiet 4, .dropPooled 1),
        (Env.quiet 5, .connecting 7 .http2), (Env.quiet 6, .pooled 2 44)] (State.noTimer 2) = .ok s ∧
      s.pool = some inner ∧ inner.idle 7 = some [⟨1, 42⟩, ⟨4, 41⟩] :=
    ⟨_, _, rfl, rfl, rfl⟩
  have hshared : ∀ v a b, mixed.reserve v = .shared a b → mixed.canShare v = true := fun v a b h => by
    simp only [mixed] at h ⊢
    split at h <;> simp_all
  exact ⟨s, inner, _, hr, hpool, hl, rfl,
    one_shareable_idle_per_key hshared (Reachable.run (.init _ _) hr) hpool 7 _ hl⟩

theorem handoff_frame {racing : Nat → Bool} {chans : Nat → Chan T} {value : Option T}
    {q : List Nat} {r : (Nat → Chan T) × Option T × List Nat}
    (h : handoff P racing chans value q = .ok r) (c : Nat) (hc : c ∉ q) : r.1 c = chans c := by
  induction q generalizing chans value with
  | nil => cases h; rfl
  | cons tx rest ih =>
    simp only [List.mem_cons, not_or] at hc
    rcases handoff_cons h with ⟨-, h⟩ | ⟨-, v, -, ⟨-, -, rfl⟩ | ⟨w, h, -⟩⟩
    · exact ih h hc.2
    · exact update_noteq hc.1 _ _
    · rw [ih h hc.2]; exact update_noteq hc.1 _ _

end LegacyPool
