import LegacyPool.Sanity.Handoff

/-! What the other critical sections can do. `pop_spec` says what `IdlePopper::pop` does to
any list: it hands out the last usable entry and keeps what stands before it, with the
retained half of a shared reservation pushed back. The rest are frame lemmas: which maps
each operation touches, and for which key. -/

namespace LegacyPool

open Function

variable {T K : Type} [DecidableEq K] {P : Poolable T}

/-- An entry `IdlePopper::pop` may hand out: open and not expired. -/
def usable (isOpen : T → Bool) (exp : Expiration) (now : Nat) (e : Idle T) : Bool :=
  isOpen e.value && !exp.expires now e.idleAt

theorem usable_iff (isOpen : T → Bool) (timeout : Option Nat) (now : Nat) (e : Idle T) :
    usable isOpen ⟨timeout⟩ now e = true ↔
      isOpen e.value = true ∧ ∀ t, timeout = some t → now - e.idleAt ≤ t := by
  cases timeout <;> simp [usable, Expiration.expires]

/-- The entries a reservation puts back: the retained half of `Shared`, stamped `now`. -/
def kept (P : Poolable T) (now : Nat) (v : T) : List (Idle T) :=
  ((P.reserve v).split.1.map (⟨now, ·⟩)).toList

theorem kept_length_le (now : Nat) (v : T) : (kept P now v).length ≤ 1 := by
  unfold kept; cases (P.reserve v).split.1 <;> simp

theorem popRev_spec (isOpen : T → Bool) (exp : Expiration) (now : Nat) (rev : List (Idle T)) :
    ((∀ e ∈ rev, usable isOpen exp now e = false) ∧ IdlePopper.popRev P isOpen exp now rev = (none, [])) ∨
    ∃ skipped e rest, rev = skipped ++ e :: rest ∧ (∀ x ∈ skipped, usable isOpen exp now x = false) ∧
      usable isOpen exp now e ∧
      IdlePopper.popRev P isOpen exp now rev =
        (some ⟨e.idleAt, (P.reserve e.value).split.2⟩, kept P now e.value ++ rest) := by
  induction rev with
  | nil => exact .inl ⟨by simp, rfl⟩
  | cons x rest ih =>
    have hskip : usable isOpen exp now x = false →
        IdlePopper.popRev P isOpen exp now (x :: rest) = IdlePopper.popRev P isOpen exp now rest := by
      intro hx
      simp only [usable, Bool.and_eq_false_iff, Bool.not_eq_false'] at hx
      rcases hx with hx | hx <;> simp [IdlePopper.popRev, hx]
    by_cases hx : usable isOpen exp now x = false
    · rw [hskip hx]
      rcases ih with ⟨hall, hpop⟩ | ⟨sk, e, r, rfl, hsk, he, hpop⟩
      · exact .inl ⟨by simp only [List.mem_cons, forall_eq_or_imp]; exact ⟨hx, hall⟩, hpop⟩
      · exact .inr ⟨x :: sk, e, r, rfl, by simp only [List.mem_cons, forall_eq_or_imp]; exact ⟨hx, hsk⟩,
          he, hpop⟩
    · have hx' : usable isOpen exp now x = true := by simpa using hx
      refine .inr ⟨[], x, rest, rfl, by simp, hx', ?_⟩
      simp only [usable, Bool.and_eq_true, Bool.not_eq_true'] at hx'
      simp only [IdlePopper.popRev, hx'.1, hx'.2, kept]
      cases P.reserve x.value <;> rfl

theorem pop_spec (isOpen : T → Bool) (exp : Expiration) (now : Nat) (list : List (Idle T)) :
    ((∀ e ∈ list, usable isOpen exp now e = false) ∧ IdlePopper.pop P isOpen exp now list = (none, [])) ∨
    ∃ pre e post, list = pre ++ e :: post ∧ (∀ x ∈ post, usable isOpen exp now x = false) ∧
      usable isOpen exp now e ∧
      IdlePopper.pop P isOpen exp now list =
        (some ⟨e.idleAt, (P.reserve e.value).split.2⟩, pre ++ kept P now e.value) := by
  unfold IdlePopper.pop
  rcases popRev_spec (P := P) isOpen exp now list.reverse with ⟨hall, hpop⟩ | ⟨sk, e, r, hrev, hsk, he, hpop⟩
  · exact .inl ⟨fun e he => hall e (List.mem_reverse.2 he), by rw [hpop]; rfl⟩
  · refine .inr ⟨r.reverse, e, sk.reverse, ?_, fun x hx => hsk x (List.mem_reverse.1 hx), he, ?_⟩
    · rw [← List.reverse_reverse list, hrev]; simp
    · rw [hpop]
      have : (kept P now e.value).reverse = kept P now e.value := by
        unfold kept; cases (P.reserve e.value).split.1 <;> rfl
      simp [this]

theorem pop_found_iff (isOpen : T → Bool) (exp : Expiration) (now : Nat) (L : List (Idle T)) :
    ((IdlePopper.pop P isOpen exp now L).1.isSome ↔
      ∃ j, ∃ hj : j < L.length, usable isOpen exp now L[j] = true) ∧
    ((IdlePopper.pop P isOpen exp now L).1 = none → (IdlePopper.pop P isOpen exp now L).2 = []) := by
  rcases pop_spec (P := P) isOpen exp now L with ⟨hall, hpop⟩ | ⟨pre, e, post, rfl, -, he, hpop⟩ <;>
    rw [hpop]
  · refine ⟨iff_of_false (by simp) fun ⟨j, hj, hu⟩ => ?_, fun _ => rfl⟩
    simp [hall _ (List.getElem_mem hj)] at hu
  · exact ⟨iff_of_true rfl ⟨pre.length, by simp, by simpa [List.getElem_append_right] using he⟩, nofun⟩

theorem pop_of_last_usable (isOpen : T → Bool) (exp : Expiration) (now : Nat) (L : List (Idle T))
    (j : Nat) (hj : j < L.length) (hu : usable isOpen exp now L[j] = true)
    (hmax : ∀ i (hi : i < L.length), j < i → usable isOpen exp now L[i] = false) :
    IdlePopper.pop P isOpen exp now L =
      (some ⟨L[j].idleAt, (P.reserve L[j].value).split.2⟩, L.take j ++ kept P now L[j].value) := by
  rcases pop_spec (P := P) isOpen exp now L with ⟨hall, -⟩ | ⟨pre, e, post, rfl, hpost, he, hpop⟩
  · exact absurd (hall _ (List.getElem_mem hj)) (by simp [hu])
  · have hj' : j = pre.length := by
      rcases Nat.lt_trichotomy j pre.length with hlt | heq | hgt
      · have := hmax pre.length (by simp) hlt
        simp [List.getElem_append_right, he] at this
      · exact heq
      · obtain ⟨m, rfl⟩ : ∃ m, j = pre.length + (m + 1) := ⟨j - pre.length - 1, by omega⟩
        simp [List.getElem_append_right, Nat.add_sub_cancel_left, hpost _ (List.getElem_mem _)] at hu
    subst hj'
    simpa [List.getElem_append_right] using hpop

theorem takeIdle_frame (isOpen : T → Bool) (now : Nat) (inner : PoolInner T K) (key : K) :
    ∃ l, (inner.takeIdle P isOpen now key).1 = { inner with idle := update inner.idle key l } := by
  unfold PoolInner.takeIdle; split <;> exact ⟨_, rfl⟩

theorem takeIdle_idle (isOpen : T → Bool) (now : Nat) (inner : PoolInner T K) (key : K) :
    (inner.takeIdle P isOpen now key).1.idle key = none ∨
    ∃ list, inner.idle key = some list ∧
      (IdlePopper.pop P isOpen ⟨inner.timeout⟩ now list).1.isSome ∧
      (IdlePopper.pop P isOpen ⟨inner.timeout⟩ now list).2 ≠ [] ∧
      (inner.takeIdle P isOpen now key).1.idle key =
        some (IdlePopper.pop P isOpen ⟨inner.timeout⟩ now list).2 := by
  unfold PoolInner.takeIdle
  split
  · rename_i e list hm
    simp only [update_same]
    split
    · exact .inl rfl
    · rename_i hne
      obtain ⟨l, hl, hp⟩ := Option.map_eq_some'.1 hm
      refine .inr ⟨l, hl, by simp [hp], by simpa [hp] using hne, by simp [hp]⟩
  · exact .inl (by simp)

theorem connected_fst (inner : PoolInner T K) (chans : Nat → Chan T) (key : K) :
    (inner.connected chans key).1 =
      { inner with connecting := update inner.connecting key false,
                   waiters := update inner.waiters key none } := rfl

theorem connected_chans (inner : PoolInner T K) (chans : Nat → Chan T) (key : K) (c : Nat) :
    ((inner.connected chans key).2.1 c).rxLive = (chans c).rxLive := by
  simp only [PoolInner.connected, dropSenders]; split <;> rfl

theorem cleanWaiters_frame (inner : PoolInner T K) (chans : Nat → Chan T) (key : K) :
    ∃ w, inner.cleanWaiters chans key = { inner with waiters := update inner.waiters key w } ∧
      (w = none ∨ ∃ q, w = some q ∧ q ≠ [] ∧
        q = ((inner.waiters key).getD []).filter fun tx => !(chans tx).isCanceled) := by
  unfold PoolInner.cleanWaiters
  split
  · rename_i hw; exact ⟨none, by rw [← hw, update_eq_self], .inl rfl⟩
  · rename_i q hw
    refine ⟨_, rfl, ?_⟩
    split
    · exact .inl rfl
    · rename_i hne; exact .inr ⟨_, rfl, by simpa using hne, by simp [hw]⟩

omit [DecidableEq K] in
theorem clearExpired_spec {isOpen : T → Bool} {now : Nat} {inner inner' : PoolInner T K}
    (h : inner.clearExpired isOpen now = .ok inner') :
    ∃ dur, inner.timeout = some dur ∧
      inner' = { inner with idle := fun key => (inner.idle key).bind (retainFresh isOpen now dur) } := by
  unfold PoolInner.clearExpired at h
  split at h
  · cases h
  · exact ⟨_, ‹_›, (Except.ok.inj h).symm⟩

theorem retainFresh_spec (isOpen : T → Bool) (now dur : Nat) (values l : List (Idle T))
    (h : retainFresh isOpen now dur values = some l) :
    l = values.filter (keepFresh isOpen now dur) ∧ l ≠ [] := by
  unfold retainFresh at h
  split at h
  · cases h
  · rename_i hne; cases h; exact ⟨rfl, by simpa using hne⟩

theorem Move.idle_cases {s s' : State T K} (hm : Move P s s') :
    s'.clock = s.clock ∧ ∀ inner', s'.pool = some inner' → ∃ inner, s.pool = some inner ∧
      (inner'.idle = inner.idle ∨
       (∃ env key value r, env.now = s.clock ∧ inner.put P env s.chans key value = .ok r ∧ inner' = r.1) ∨
       (∃ isOpen key, inner' = (inner.takeIdle P isOpen s.clock key).1) ∨
       (∃ isOpen, inner.clearExpired isOpen s.clock = .ok inner')) := by
  refine ⟨by cases hm <;> first | rfl | assumption, fun inner' hpool' => ?_⟩
  cases hm with
  | put hpool hclock hput => cases hpool'; exact ⟨_, hpool, .inr (.inl ⟨_, _, _, _, hclock, hput, rfl⟩)⟩
  | connected key hpool => cases hpool'; exact ⟨_, hpool, .inl rfl⟩
  | mark key hpool => cases hpool'; exact ⟨_, hpool, .inl rfl⟩
  | probe isOpen key hpool => cases hpool'; exact ⟨_, hpool, .inr (.inr (.inl ⟨isOpen, key, rfl⟩))⟩
  | register key i hpool => cases hpool'; exact ⟨_, hpool, .inl rfl⟩
  | @clean inner key hpool =>
    cases hpool'
    obtain ⟨w, hw, -⟩ := cleanWaiters_frame inner s.chans key
    exact ⟨_, hpool, .inl (by rw [hw])⟩
  | expire isOpen hpool hexp => cases hpool'; exact ⟨_, hpool, .inr (.inr (.inr ⟨isOpen, hexp⟩))⟩
  | dropRx rx => exact ⟨_, hpool', .inl rfl⟩
  | client h1 _ _ _ => exact ⟨_, h1 ▸ hpool', .inl rfl⟩

end LegacyPool
