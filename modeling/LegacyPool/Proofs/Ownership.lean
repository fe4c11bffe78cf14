import LegacyPool.Proofs.Put
import Mathlib.Data.List.Nodup

/-! Unique connections are never shared. When every reservation is unique, as for HTTP/1,
a connection is at any time in at most one place: in one idle list, once; in the buffer of
one channel on its way to a `Checkout`; or in one `Pooled` handle a client holds. A step
first drops connections (a closed or expired entry, a receiver gone with its buffer, a
handle dropped) and then puts at most one connection, free by then, in one new place: `put`
into an idle list or one waiter's channel, the idle probe and `poll_waiter` into a new
handle, `pooled` a new connection into a new handle. The client must hand `pooled` only
connections it has just made. -/

namespace LegacyPool

open Function

variable {T K : Type} [DecidableEq K] {P : Poolable T}

/-- Where a connection can be between critical sections. -/
inductive Holder (K : Type) where
  | idle (k : K)
  | chan (c : Nat)
  | held (p : Nat)

/-- The connections of the idle list for `k`. -/
def idleValues (inner : PoolInner T K) (k : K) : List T :=
  ((inner.idle k).getD []).map Idle.value

/-- `v` is in the idle list for `k`, in the buffer of channel `c`, or in handle `p`. -/
def Holds (s : State T K) : Holder K → T → Prop
  | .idle k, v => ∃ inner, s.pool = some inner ∧ v ∈ idleValues inner k
  | .chan c, v => (s.chans c).data = some v
  | .held p, v => (s.pooleds p).bind Pooled.value = some v

/-- Each connection is in one place, and at most once in an idle list. -/
structure Exclusive (s : State T K) : Prop where
  nodup : ∀ inner, s.pool = some inner → ∀ k, (idleValues inner k).Nodup
  apart : ∀ a b v, Holds s a v → Holds s b v → a = b

/-- The client discipline: `pooled` gets a connection just made, which the pool, the
channels and the handles do not hold. -/
def freshConn (s : State T K) (_ : Env T) : Op T K → Prop
  | .pooled _ v => ∀ a, ¬ Holds s a v
  | _ => True

/-- A change that only drops connections: what is held after was held at the same place
before, and the idle lists only lost entries. -/
structure Shrinks (s s' : State T K) : Prop where
  idle : ∀ inner', s'.pool = some inner' → ∃ inner, s.pool = some inner ∧
    ∀ k, (idleValues inner' k).Sublist (idleValues inner k)
  chan : ∀ c v, (s'.chans c).data = some v → (s.chans c).data = some v
  held : ∀ p v, (s'.pooleds p).bind Pooled.value = some v → (s.pooleds p).bind Pooled.value = some v

namespace Shrinks

variable {s s' s'' : State T K}

omit [DecidableEq K] in
theorem refl (s : State T K) : Shrinks s s :=
  ⟨fun inner h => ⟨inner, h, fun _ => .refl _⟩, fun _ _ h => h, fun _ _ h => h⟩

omit [DecidableEq K] in
theorem trans (h1 : Shrinks s s') (h2 : Shrinks s' s'') : Shrinks s s'' := by
  refine ⟨fun inner'' h => ?_, fun c v h => h1.chan c v (h2.chan c v h),
    fun p v h => h1.held p v (h2.held p v h)⟩
  obtain ⟨inner', h', hsub'⟩ := h2.idle inner'' h
  obtain ⟨inner, h, hsub⟩ := h1.idle inner' h'
  exact ⟨inner, h, fun k => (hsub' k).trans (hsub k)⟩

omit [DecidableEq K] in
theorem holds (h : Shrinks s s') : ∀ {a : Holder K} {v : T}, Holds s' a v → Holds s a v
  | .idle k, _, ⟨inner', hp', hv⟩ =>
    let ⟨inner, hp, hsub⟩ := h.idle inner' hp'
    ⟨inner, hp, (hsub k).subset hv⟩
  | .chan c, v, hv => h.chan c v hv
  | .held p, v, hv => h.held p v hv

omit [DecidableEq K] in
theorem free (h : Shrinks s s') {v : T} (hv : ∀ a, ¬ Holds s a v) : ∀ a, ¬ Holds s' a v :=
  fun a ha => hv a (h.holds ha)

omit [DecidableEq K] in
theorem frame (h1 : ∀ inner', s'.pool = some inner' → ∃ inner, s.pool = some inner ∧ inner'.idle = inner.idle)
    (h2 : ∀ c, (s'.chans c).data = (s.chans c).data) (h3 : s'.pooleds = s.pooleds) : Shrinks s s' :=
  ⟨fun inner' h => let ⟨inner, hp, he⟩ := h1 inner' h
    ⟨inner, hp, fun k => by simp only [idleValues, he]; exact .refl _⟩,
   fun c v h => by rwa [h2] at h, fun p v h => by rwa [h3] at h⟩

omit [DecidableEq K] in
theorem of_eq (h1 : s'.pool = s.pool) (h2 : s'.chans = s.chans) (h3 : s'.pooleds = s.pooleds) :
    Shrinks s s' :=
  frame (fun inner' h => ⟨inner', h1 ▸ h, rfl⟩) (fun c => by rw [h2]) h3

omit [DecidableEq K] in
theorem dropReceiver (s : State T K) (rx : Nat) :
    Shrinks s { s with chans := update s.chans rx (s.chans rx).dropReceiver } := by
  refine ⟨fun inner h => ⟨inner, h, fun _ => .refl _⟩, fun c v h => ?_, fun _ _ h => h⟩
  by_cases hc : c = rx
  · subst hc; simp [Chan.dropReceiver] at h
  · simpa [hc] using h

omit [DecidableEq K] in
theorem debugAssert (s : State T K) (cond : Bool) (msg : String) : Shrinks s (s.debugAssert cond msg) :=
  of_eq rfl rfl rfl

omit [DecidableEq K] in
theorem addToken (s : State T K) (t : Option (Connecting K)) : Shrinks s (s.addToken t) := by
  cases t <;> exact of_eq rfl rfl rfl

omit [DecidableEq K] in
theorem dropToken (s : State T K) (j : Nat) : Shrinks s { s with tokens := update s.tokens j none } :=
  of_eq rfl rfl rfl

omit [DecidableEq K] in
theorem clearPooled (s : State T K) (p : Nat) : Shrinks s { s with pooleds := update s.pooleds p none } := by
  refine ⟨fun inner h => ⟨inner, h, fun _ => .refl _⟩, fun _ _ h => h, fun q v h => ?_⟩
  by_cases hq : q = p
  · subst hq; simp at h
  · simpa [hq] using h

theorem connected {s : State T K} {inner : PoolInner T K} (hpool : s.pool = some inner) (key : K) :
    Shrinks s { s with pool := some (inner.connected s.chans key).1,
                       chans := (inner.connected s.chans key).2.1 } :=
  frame (fun _ h => ⟨inner, hpool, by cases h; rfl⟩)
    (fun c => by simp only [PoolInner.connected, dropSenders]; split <;> rfl) rfl

theorem drop (tok : Connecting K) (s : State T K) : Shrinks s (tok.drop s) := by
  unfold Connecting.drop
  split
  · rename_i inner hpool
    exact (connected hpool tok.key).trans (debugAssert _ _ _)
  · exact refl s

theorem connecting (s : State T K) (key : K) (ver : Ver) :
    Shrinks s { s with pool := (Pool.connecting s.pool key ver).1 } := by
  unfold Pool.connecting
  split
  · rename_i inner hpool
    split
    · exact of_eq (by simp [hpool]) rfl rfl
    · exact frame (fun _ h => ⟨inner, hpool, by cases h; rfl⟩) (fun _ => rfl) rfl
  · exact of_eq rfl rfl rfl

theorem cleanCheckout (s : State T K) (i : Nat) : Shrinks s (s.cleanCheckout i) := by
  unfold State.cleanCheckout
  split
  · exact refl s
  · rename_i key _
    refine frame (fun inner' h => ?_) (fun _ => rfl) rfl
    obtain ⟨inner, hpool, rfl⟩ := Option.map_eq_some'.1 h
    obtain ⟨w, hw, -⟩ := cleanWaiters_frame inner s.chans key
    exact ⟨inner, hpool, by rw [hw]⟩

omit [DecidableEq K] in
theorem idleTick {env : Env T} {s s' : State T K} (h : s.idleTick env = .ok s') : Shrinks s s' := by
  unfold State.idleTick at h
  split at h
  · rename_i inner hpool
    split at h
    · cases h; exact refl s
    · obtain ⟨inner', hexp, rfl⟩ := except_map_eq_ok.1 h
      obtain ⟨dur, -, rfl⟩ := clearExpired_spec hexp
      refine ⟨fun _ h => ⟨inner, hpool, fun k => ?_⟩, fun _ _ h => h, fun _ _ h => h⟩
      cases h
      simp only [idleValues]
      cases hk : inner.idle k with
      | none => exact .refl _
      | some l =>
        cases hr : retainFresh env.isOpen env.now dur l with
        | none => simp only [Option.some_bind, hr, Option.getD_none, List.map_nil, List.nil_sublist]
        | some l' =>
          simp only [Option.some_bind, hr, Option.getD_some, (retainFresh_spec _ _ _ _ _ hr).1]
          exact (List.filter_sublist l).map _
  · cases h; exact refl s

end Shrinks

namespace Exclusive

variable {s s' : State T K}

omit [DecidableEq K] in
theorem shrink (hx : Exclusive s) (h : Shrinks s s') : Exclusive s' :=
  ⟨fun inner' hp' k => let ⟨inner, hp, hsub⟩ := h.idle inner' hp'; (hx.nodup inner hp k).sublist (hsub k),
   fun a b v ha hb => hx.apart a b v (h.holds ha) (h.holds hb)⟩

omit [DecidableEq K] in
theorem add (hx : Exclusive s) (b : Holder K)
    (hnodup : ∀ inner', s'.pool = some inner' → ∀ k, (idleValues inner' k).Nodup)
    (hrest : ∀ a w, Holds s' a w → Holds s a w ∨ (a = b ∧ ∀ c, ¬ Holds s c w)) : Exclusive s' := by
  refine ⟨hnodup, fun a a' w ha ha' => ?_⟩
  rcases hrest a w ha with h | ⟨rfl, hfree⟩ <;> rcases hrest a' w ha' with h' | ⟨rfl, hfree'⟩
  · exact hx.apart a a' w h h'
  · exact absurd h (hfree' a)
  · exact absurd h' (hfree a')
  · rfl

omit [DecidableEq K] in
theorem free_of_taken (hx : Exclusive s) (h : Shrinks s s') {a : Holder K} {v : T}
    (ha : Holds s a v) (hgone : ¬ Holds s' a v) : ∀ b, ¬ Holds s' b v :=
  fun b hb => hgone (hx.apart b a v (h.holds hb) ha ▸ hb)

omit [DecidableEq K] in
theorem addPooled (hx : Exclusive s) {pd : Pooled T K}
    (hv : ∀ v, pd.value = some v → ∀ a, ¬ Holds s a v) : Exclusive (s.addPooled pd) := by
  refine hx.add (.held s.nextPooled) hx.nodup fun a w ha => ?_
  cases a with
  | idle k => exact .inl ha
  | chan c => exact .inl ha
  | held p =>
    by_cases hp : p = s.nextPooled
    · subst hp
      have hw : pd.value = some w := by simpa [Holds, State.addPooled] using ha
      exact .inr ⟨rfl, hv w hw⟩
    · exact .inl (by simpa [Holds, State.addPooled, hp] using ha)

end Exclusive

/-! What each critical section does to the connections. -/

theorem insert_values (now : Nat) (inner : PoolInner T K) (key : K) (v : T) :
    (∀ k, k ≠ key → idleValues (inner.insert now key (some v)) k = idleValues inner k) ∧
    (idleValues (inner.insert now key (some v)) key = idleValues inner key ∨
     idleValues (inner.insert now key (some v)) key = idleValues inner key ++ [v]) := by
  refine ⟨fun k hk => by simp only [idleValues, insert_idle_of_ne now inner (some v) hk], ?_⟩
  simp only [idleValues, insert_some_idle]
  split <;> simp

theorem put_unique_places {env : Env T} {inner : PoolInner T K} {chans : Nat → Chan T} {key : K}
    {v : T} {r : PoolInner T K × (Nat → Chan T)} (hres : P.reserve v = .unique v)
    (hq : ∀ c ∈ (inner.waiters key).getD [], (chans c).data = none)
    (h : inner.put P env chans key v = .ok r) :
    ((∀ c, (r.2 c).data = (chans c).data) ∧ (∀ k, k ≠ key → idleValues r.1 k = idleValues inner k) ∧
      (idleValues r.1 key = idleValues inner key ∨ idleValues r.1 key = idleValues inner key ++ [v])) ∨
    ((∀ k, idleValues r.1 k = idleValues inner k) ∧
      ∃ tx, (r.2 tx).data = some v ∧ ∀ c, c ≠ tx → (r.2 c).data = (chans c).data) := by
  rcases put_cases h with ⟨-, -, rfl⟩ | ⟨-, o, ho, rfl⟩
  · exact .inl ⟨fun _ => rfl, fun _ _ => rfl, .inl rfl⟩
  rcases offer_cases ho with ⟨-, rfl⟩ | ⟨q, r', hw, hr', rfl⟩
  · exact .inl ⟨fun _ => rfl, insert_values env.now inner key v⟩
  rw [hw, Option.getD_some] at hq
  rcases handoff_unique env.racing hres chans q hq with
    ⟨pre, tx, post, rfl, -, -, chans', hh, hd, hother⟩ | ⟨-, chans', hh, hd⟩ <;>
    rw [hh] at hr' <;> cases hr'
  · exact .inr ⟨fun _ => rfl, tx, hd, hother⟩
  · exact .inl ⟨hd, insert_values env.now _ key v⟩

omit [DecidableEq K] in
theorem Exclusive.push {s : State T K} (hx : Exclusive s) {inner inner' : PoolInner T K}
    (hpool : s.pool = some inner) {chans : Nat → Chan T} {key : K} {v : T} (hfree : ∀ a, ¬ Holds s a v)
    (hd : ∀ c, (chans c).data = (s.chans c).data)
    (hne : ∀ k, k ≠ key → idleValues inner' k = idleValues inner k)
    (hkey : idleValues inner' key = idleValues inner key ∨ idleValues inner' key = idleValues inner key ++ [v]) :
    Exclusive { s with pool := some inner', chans := chans } := by
  have hnot : v ∉ idleValues inner key := fun hv => hfree (.idle key) ⟨inner, hpool, hv⟩
  have hmem : ∀ k w, w ∈ idleValues inner' k → w ∈ idleValues inner k ∨ (k = key ∧ w = v) := by
    intro k w hw
    by_cases hk : k = key
    · subst hk
      rcases hkey with he | he <;> rw [he] at hw
      · exact .inl hw
      · simpa using hw
    · rw [hne k hk] at hw; exact .inl hw
  refine hx.add (.idle key) (fun _ hp k => ?_) (fun a w ha => ?_)
  · cases hp
    by_cases hk : k = key
    · subst hk
      rcases hkey with he | he <;> rw [he]
      · exact hx.nodup inner hpool k
      · exact (hx.nodup inner hpool k).append (List.nodup_singleton v)
          fun w hw hw' => hnot (List.mem_singleton.1 hw' ▸ hw)
    · rw [hne k hk]; exact hx.nodup inner hpool k
  · cases a with
    | idle k =>
      obtain ⟨_, hp, hw⟩ := ha
      cases hp
      rcases hmem k w hw with hw | ⟨rfl, rfl⟩
      · exact .inl ⟨inner, hpool, hw⟩
      · exact .inr ⟨rfl, hfree⟩
    | chan c => exact .inl (by simp only [Holds] at ha ⊢; rwa [hd c] at ha)
    | held p => exact .inl ha

omit [DecidableEq K] in
theorem Exclusive.send {s : State T K} (hx : Exclusive s) {inner inner' : PoolInner T K}
    (hpool : s.pool = some inner) {chans : Nat → Chan T} {tx : Nat} {v : T} (hfree : ∀ a, ¬ Holds s a v)
    (hsame : ∀ k, idleValues inner' k = idleValues inner k) (htx : (chans tx).data = some v)
    (hother : ∀ c, c ≠ tx → (chans c).data = (s.chans c).data) :
    Exclusive { s with pool := some inner', chans := chans } := by
  refine hx.add (.chan tx) (fun _ hp k => ?_) (fun a w ha => ?_)
  · cases hp; rw [hsame k]; exact hx.nodup inner hpool k
  · cases a with
    | idle k =>
      obtain ⟨_, hp, hw⟩ := ha
      cases hp; rw [hsame k] at hw; exact .inl ⟨inner, hpool, hw⟩
    | chan c =>
      simp only [Holds] at ha
      by_cases hc : c = tx
      · subst hc; rw [htx] at ha; cases ha; exact .inr ⟨rfl, hfree⟩
      · exact .inl (by simp only [Holds]; rwa [hother c hc] at ha)
    | held p => exact .inl ha

theorem Exclusive.put {s : State T K} (hx : Exclusive s) {inner : PoolInner T K}
    (hpool : s.pool = some inner) {env : Env T} {key : K} {v : T} {r : PoolInner T K × (Nat → Chan T)}
    (hres : P.reserve v = .unique v) (hfree : ∀ a, ¬ Holds s a v)
    (hq : ∀ c ∈ (inner.waiters key).getD [], (s.chans c).data = none)
    (h : inner.put P env s.chans key v = .ok r) :
    Exclusive { s with pool := some r.1, chans := r.2 } := by
  rcases put_unique_places hres hq h with ⟨hd, hne, hkey⟩ | ⟨hsame, tx, htx, hother⟩
  · exact hx.push hpool hfree hd hne hkey
  · exact hx.send hpool hfree hsame htx hother

theorem takeIdle_unique (hunique : ∀ v, P.reserve v = .unique v) (isOpen : T → Bool) (now : Nat)
    (inner : PoolInner T K) (key : K) :
    ((inner.takeIdle P isOpen now key).2 = none ∧
      (inner.takeIdle P isOpen now key).1 = { inner with idle := update inner.idle key none }) ∨
    ∃ pre x post, inner.idle key = some (pre ++ x :: post) ∧
      (inner.takeIdle P isOpen now key).2 = some ⟨x.idleAt, x.value⟩ ∧
      (inner.takeIdle P isOpen now key).1 =
        { inner with idle := update inner.idle key (if pre.isEmpty then none else some pre) } := by
  unfold PoolInner.takeIdle
  cases hl : inner.idle key with
  | none => exact .inl ⟨rfl, rfl⟩
  | some list =>
    rcases pop_spec (P := P) isOpen ⟨inner.timeout⟩ now list with
      ⟨-, hpop⟩ | ⟨pre, x, post, rfl, -, -, hpop⟩
    · exact .inl (by simp [hpop])
    · exact .inr ⟨pre, x, post, rfl, by simp [hpop, hunique, Reservation.split],
        by simp [hpop, hunique, kept, Reservation.split]⟩

theorem takeIdle_takes (hunique : ∀ v, P.reserve v = .unique v) (isOpen : T → Bool) (now : Nat)
    (inner : PoolInner T K) (key : K) :
    (∀ k, (idleValues (inner.takeIdle P isOpen now key).1 k).Sublist (idleValues inner k)) ∧
    ∀ e, (inner.takeIdle P isOpen now key).2 = some e → (idleValues inner key).Nodup →
      e.value ∈ idleValues inner key ∧ e.value ∉ idleValues (inner.takeIdle P isOpen now key).1 key := by
  rcases takeIdle_unique hunique isOpen now inner key with ⟨hnone, h1⟩ | ⟨pre, x, post, hl, he, h1⟩
  · refine ⟨fun k => ?_, fun e he => by rw [hnone] at he; cases he⟩
    rw [h1]
    by_cases hk : k = key
    · subst hk; simp [idleValues]
    · simp only [idleValues, update_noteq hk]; exact .refl _
  · have hpre : ∀ k, idleValues (inner.takeIdle P isOpen now key).1 k =
        if k = key then pre.map Idle.value else idleValues inner k := by
      intro k
      rw [h1]
      by_cases hk : k = key
      · subst hk; cases pre <;> simp [idleValues]
      · simp [idleValues, hk]
    refine ⟨fun k => ?_, fun e he' hnd => ?_⟩
    · rw [hpre k]
      split
      · subst k; simp only [idleValues, hl, Option.getD_some, List.map_append]
        exact List.sublist_append_left _ _
      · exact .refl _
    · rw [he] at he'; cases he'
      rw [hpre key, if_pos rfl]
      simp only [idleValues, hl, Option.getD_some, List.map_append, List.map_cons] at hnd ⊢
      exact ⟨by simp, fun hx => List.disjoint_of_nodup_append hnd hx (List.mem_cons_self _ _)⟩

theorem checkout_takes (hunique : ∀ v, P.reserve v = .unique v) {env : Env T} {s : State T K}
    {i : Nat} {co : Checkout K} {r : State T K × Option (Pooled T K)} (hx : Exclusive s)
    (h : Checkout.checkout P env s i co = .ok r) :
    Shrinks s r.1 ∧ ∀ pd, r.2 = some pd → ∀ v, pd.value = some v → ∃ a, Holds s a v ∧ ¬ Holds r.1 a v := by
  unfold Checkout.checkout at h
  split at h
  · cases h; exact ⟨.refl _, nofun⟩
  · rename_i inner hpool
    obtain ⟨hsub, htake⟩ := takeIdle_takes hunique env.isOpen env.now inner co.key
    have hprobe : Shrinks s { s with pool := some (inner.takeIdle P env.isOpen env.now co.key).1 } :=
      ⟨fun inner' h => by cases h; exact ⟨inner, hpool, hsub⟩, fun _ _ h => h, fun _ _ h => h⟩
    split at h
    · split at h
      · cases h
        refine ⟨⟨fun inner' h => ?_, fun c v h => ?_, fun _ _ h => h⟩, nofun⟩
        · cases h; exact ⟨inner, hpool, hsub⟩
        · by_cases hc : c = s.nextChan
          · subst hc; simp [Chan.fresh] at h
          · simpa [hc] using h
      · cases h
    · rename_i entry _ _
      cases h
      refine ⟨hprobe, fun pd hpd v hv => ?_⟩
      obtain ⟨e, he, rfl⟩ := Option.map_eq_some'.1 hpd
      obtain ⟨hin, hout⟩ := htake e he (hx.nodup inner hpool co.key)
      simp only [Pool.reuse, Option.some.injEq] at hv
      subst hv
      exact ⟨.idle co.key, ⟨inner, hpool, hin⟩, fun ⟨inner', h, hmem⟩ => by cases h; exact hout hmem⟩

omit [DecidableEq K] in
theorem pollWaiter_takes (env : Env T) (s : State T K) (i : Nat) (co : Checkout K) :
    Shrinks s (Checkout.pollWaiter P env s i co).1 ∧
    ∀ pd, (Checkout.pollWaiter P env s i co).2 = .ready (some (.ok pd)) → ∀ v, pd.value = some v →
      ∃ a, Holds s a v ∧ ¬ Holds (Checkout.pollWaiter P env s i co).1 a v := by
  unfold Checkout.pollWaiter
  split
  · exact ⟨.refl s, nofun⟩
  · rename_i rx _
    split
    · rename_i value hpoll
      have hdata : (s.chans rx).data = some value := by
        unfold Chan.poll at hpoll
        split at hpoll
        · cases hpoll; assumption
        · split at hpoll <;> cases hpoll
      refine ⟨(Shrinks.dropReceiver s rx).trans (.of_eq rfl rfl rfl), fun pd hpd v hv => ?_⟩
      split at hpd
      · cases hpd
        simp only [Pool.reuse, Option.some.injEq] at hv
        subst hv
        exact ⟨.chan rx, hdata, by simp [Holds, Chan.dropReceiver]⟩
      · cases hpd
    · exact ⟨.refl s, nofun⟩
    · exact ⟨(Shrinks.dropReceiver s rx).trans (.of_eq rfl rfl rfl), nofun⟩

theorem poll_takes (hunique : ∀ v, P.reserve v = .unique v) {env : Env T} {s : State T K} {i : Nat}
    {co : Checkout K} {r : State T K × Poll (Except Error (Pooled T K))} (hx : Exclusive s)
    (h : Checkout.poll P env s i co = .ok r) :
    Shrinks s r.1 ∧ ∀ pd, r.2 = .ready (.ok pd) → ∀ v, pd.value = some v →
      ∃ a, Holds s a v ∧ ¬ Holds r.1 a v := by
  obtain ⟨hs, ht⟩ := pollWaiter_takes (P := P) env s i co
  unfold Checkout.poll at h
  split at h
  · rename_i s1 hsplit
    cases h
    rw [hsplit] at hs
    exact ⟨hs, nofun⟩
  · rename_i s1 out hsplit
    cases h
    rw [hsplit] at hs ht
    exact ⟨hs, fun pd hpd => ht pd (by cases hpd; rfl)⟩
  · rename_i s1 hsplit
    obtain ⟨r1, hr1, rfl⟩ := except_map_eq_ok.1 h
    have h0 : (Checkout.pollWaiter P env s i co).2 = .ready none := by rw [hsplit]
    obtain ⟨-, rfl⟩ : co.waiter = none ∧ s1 = s := by simpa [hsplit] using pollWaiter_of_ready_none h0
    obtain ⟨hs1, ht1⟩ := checkout_takes hunique hx hr1
    split
    · rename_i pd hpd
      exact ⟨hs1, fun pd' hpd' => by cases hpd'; exact ht1 pd hpd⟩
    · split
      · exact ⟨hs1, nofun⟩
      · exact ⟨hs1.trans (.debugAssert _ _ _), nofun⟩

omit [DecidableEq K] in
theorem Exclusive.settle {r : State T K × Poll (Except Error (Pooled T K))} (i : Nat)
    (hx : Exclusive r.1) (hfree : ∀ pd, r.2 = .ready (.ok pd) → ∀ v, pd.value = some v → ∀ a, ¬ Holds r.1 a v) :
    Exclusive (State.settle i r) := by
  obtain ⟨s, out⟩ := r
  rcases out with (_ | pd) | _
  · exact hx.shrink (.of_eq rfl rfl rfl)
  · refine Exclusive.addPooled ?_ (hfree pd rfl)
    exact hx.shrink (.of_eq rfl rfl rfl)
  · exact hx

theorem pooled_shrinks (hunique : ∀ v, P.reserve v = .unique v) {env : Env T} {s : State T K}
    {tok : Connecting K} {value : T} {r : State T K × Pooled T K}
    (h : Pool.pooled P env s tok value = .ok r) : Shrinks s r.1 ∧ r.2.value = some value := by
  unfold Pool.pooled at h
  split at h
  · split at h
    · rename_i hres; rw [hunique] at hres; cases hres
    · rename_i v hres
      rw [hunique] at hres
      cases hres; cases h
      exact ⟨.drop tok s, rfl⟩
  · cases h
    exact ⟨.debugAssert _ _ _, rfl⟩

theorem Exclusive.stepOp (hunique : ∀ v, P.reserve v = .unique v) {env : Env T} {op : Op T K}
    {s s' : State T K} (hx : Exclusive s) (hw : Waiting s) (hfresh : freshConn s env op)
    (h : stepOp P env op s = .ok s') : Exclusive s' := by
  cases op with
  | checkout key => cases h; exact hx.shrink (.of_eq rfl rfl rfl)
  | poll i =>
    rcases stepOp_poll h with ⟨-, rfl⟩ | ⟨co, r, -, hr, rfl⟩
    · exact hx
    · obtain ⟨hs, ht⟩ := poll_takes hunique hx hr
      exact Exclusive.settle i (hx.shrink hs) fun pd hpd v hv =>
        let ⟨_, ha, hgone⟩ := ht pd hpd v hv
        hx.free_of_taken hs ha hgone
  | dropCheckout i =>
    cases h
    unfold State.dropCheckout
    split
    · exact hx
    · split
      · exact hx.shrink (.of_eq rfl rfl rfl)
      · exact hx.shrink ((Shrinks.dropReceiver s _).trans (.of_eq rfl rfl rfl))
  | cleanCheckout i => cases h; exact hx.shrink (.cleanCheckout s i)
  | connecting key ver => cases h; exact hx.shrink ((Shrinks.connecting s key ver).trans (.addToken _ _))
  | alpnH2 j =>
    cases h
    unfold State.alpnH2
    split
    · exact hx
    · rename_i tok _
      exact hx.shrink (((((Shrinks.dropToken s j).trans (.debugAssert _ _ _)).trans
        (.connecting _ tok.key .http2)).trans (.drop tok _)).trans (.addToken _ _))
  | dropConnecting j =>
    cases h
    unfold State.dropConnecting
    split
    · exact hx
    · rename_i tok _
      exact hx.shrink ((Shrinks.dropToken s j).trans (.drop tok _))
  | pooled j value =>
    obtain ⟨s1, rfl, ⟨-, rfl⟩ | ⟨tok, r, -, hr, rfl⟩⟩ := stepOp_pooled h
    · exact hx.shrink (.of_eq rfl rfl rfl)
    · obtain ⟨hs, hv⟩ := pooled_shrinks hunique hr
      have hs' := (Shrinks.dropToken s j).trans hs
      refine ((hx.shrink hs').addPooled fun v hv' => ?_).shrink (.of_eq rfl rfl rfl)
      rw [hv] at hv'
      cases hv'
      exact hs'.free hfresh
  | dropPooled p =>
    have hclear := Shrinks.clearPooled s p
    obtain ⟨s1, rfl, ⟨-, rfl⟩ | rfl | ⟨pd, v, inner, r, hpd, hv, hpool, -, -, hr, rfl⟩⟩ := stepOp_dropPooled h
    · exact hx.shrink (.of_eq rfl rfl rfl)
    · exact hx.shrink (hclear.trans (.of_eq rfl rfl rfl))
    · have hfree := hx.free_of_taken hclear (a := .held p) (v := v) (by simp [Holds, hpd, hv]) (by simp [Holds])
      exact ((hx.shrink hclear).put hpool (hunique v) hfree
        (fun c hc => (hw.queued inner hpool pd.key c hc).2.1) hr).shrink (.of_eq rfl rfl rfl)
  | idleTick => exact hx.shrink (.idleTick h)
  | idleSleep => obtain rfl := stepOp_idleSleep h; exact hx

omit [DecidableEq K] in
theorem holds_init (config : Config) (timer : Bool) : ∀ a v, ¬ Holds (State.init config timer : State T K) a v
  | .idle k, v, ⟨inner, h, hv⟩ => by
    simp only [State.init, Pool.new] at h
    split at h <;> cases h
    simp [idleValues] at hv
  | .chan _, _, h => by simp [Holds, State.init, Chan.unused] at h
  | .held _, _, h => by simp [Holds, State.init] at h

omit [DecidableEq K] in
theorem exclusive_init (config : Config) (timer : Bool) : Exclusive (State.init config timer : State T K) := by
  refine ⟨fun inner h k => ?_, fun a _ v ha => absurd ha (holds_init config timer a v)⟩
  simp only [State.init, Pool.new] at h
  split at h <;> cases h
  simp [idleValues]

/-- One connection, one place. With unique reservations (HTTP/1) and a client that hands
`pooled` only a connection it has just made, in every reachable state a connection is in
at most one idle list, at most once there, and never at once in an idle list, in a channel
on its way to a `Checkout`, or in a handle: no two clients get the same connection. -/
theorem unique_connection_in_one_place (hunique : ∀ v, P.reserve v = .unique v) {s : State T K}
    (h : Reachable P freshConn s) :
    (∀ inner, s.pool = some inner → ∀ k, (idleValues inner k).Nodup) ∧
    ∀ a b v, Holds s a v → Holds s b v → a = b := by
  suffices hx : Exclusive s from ⟨hx.nodup, hx.apart⟩
  induction h with
  | init config timer => exact exclusive_init config timer
  | @step s s' env op hr hallowed hs ih =>
    have hx : Exclusive { s with clock := env.now } := ih.shrink (.of_eq rfl rfl rfl)
    exact hx.stepOp hunique ((reachable_waiting hr).clock _) hallowed hs

/-- `test_pool_checkout_smoke`: `Uniq(41)`, made for the token of key 7, pooled and its
handle dropped, is in the idle list of key 7 and nowhere else. -/
theorem unique_connection_smoke : ∃ s inner,
    run uniq smokeTrace (State.noTimer 2) = .ok s ∧ s.pool = some inner ∧ idleValues inner 7 = [41] ∧
    (∀ inner, s.pool = some inner → ∀ k, (idleValues inner k).Nodup) ∧
    ∀ a b v, Holds s a v → Holds s b v → a = b := by
  have r1 := @Reachable.step Nat Nat _ uniq freshConn _ _ (Env.quiet 0) (.connecting 7 .auto)
    (.init ⟨some 100000000, 2⟩ false) trivial rfl
  have r2 := @Reachable.step Nat Nat _ uniq freshConn _ _ (Env.quiet 1) (.pooled 0 41) r1 ?fresh rfl
  · have r3 := @Reachable.step Nat Nat _ uniq freshConn _ _ (Env.quiet 2) (.dropPooled 0) r2 trivial rfl
    exact ⟨_, _, rfl, rfl, rfl, unique_connection_in_one_place (fun _ => rfl) r3⟩
  · rintro (k | c | p) h <;>
      simp [Holds, idleValues, State.connecting, Pool.connecting, State.addToken, State.init, Pool.new,
        Config.isEnabled, Chan.unused] at h

end LegacyPool
