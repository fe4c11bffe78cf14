import LegacyPool.Proofs.Waiters
import LegacyPool.Proofs.Wakeup

/-! What `put` does with a value. Its waiter loop never panics: it holds a value at the head
of every turn, and ends empty-handed only right after a successful unique send. Under the
`Poolable` contract it hands a unique value to the first sender that takes it, in queue
order, or keeps it for the idle list under the cap; a shareable value it hands to every
sender that takes one, each getting the handed-out half of the value in hand at its turn,
and the value left in hand becomes the idle list. So a single-flight HTTP/2 connect serves
every parked waiter. Its gate drops a shareable value whenever `idle` holds the key,
whatever the entries there. -/

namespace LegacyPool

open Function

variable {T K : Type} [DecidableEq K] {P : Poolable T} {racing : Nat → Bool}

/-- A sender that takes what it is sent: its receiver is live, and no concurrent drop takes
it between the cancel check and the send. -/
def live (racing : Nat → Bool) (chans : Nat → Chan T) (tx : Nat) : Bool :=
  (chans tx).rxLive && !racing tx

/-- The value `put`'s waiter loop holds once it has gone past the senders of `q`, read off
the channels as they were when it started: a canceled sender is passed over; the others are
sent the handed-out half of the value in hand, which leaves in hand the retained half when
the sender takes it (nothing, for a unique reservation), and the handle itself when it
comes back. -/
def heldAfter (P : Poolable T) (racing : Nat → Bool) (chans : Nat → Chan T) :
    Option T → List Nat → Option T
  | none, _ => none
  | some v, [] => some v
  | some v, tx :: rest =>
    if (chans tx).isCanceled then heldAfter P racing chans (some v) rest
    else if live racing chans tx then heldAfter P racing chans (P.reserve v).split.1 rest
    else heldAfter P racing chans (some (P.reserve v).split.2) rest

theorem heldAfter_congr {chans₁ chans : Nat → Chan T} {q : List Nat} (h : ∀ c ∈ q, chans₁ c = chans c)
    (o : Option T) : heldAfter P racing chans₁ o q = heldAfter P racing chans o q := by
  induction q generalizing o with
  | nil => cases o <;> rfl
  | cons tx rest ih =>
    simp only [List.mem_cons, forall_eq_or_imp] at h
    cases o with
    | none => rfl
    | some v => simp only [heldAfter, live, h.1, ih h.2]

@[simp] theorem heldAfter_nil (chans : Nat → Chan T) (o : Option T) : heldAfter P racing chans o [] = o := by
  cases o <;> rfl

theorem heldAfter_canceled {chans : Nat → Chan T} {tx : Nat} (h : (chans tx).isCanceled = true) (v : T)
    (l : List Nat) : heldAfter P racing chans (some v) (tx :: l) = heldAfter P racing chans (some v) l := by
  simp [heldAfter, h]

theorem heldAfter_live {chans : Nat → Chan T} {tx : Nat} (h : live racing chans tx = true) (v : T)
    (l : List Nat) :
    heldAfter P racing chans (some v) (tx :: l) = heldAfter P racing chans (P.reserve v).split.1 l := by
  simp only [live, Bool.and_eq_true] at h
  simp [heldAfter, Chan.isCanceled, live, h.1, h.2]

theorem sendAt_live {chans : Nat → Chan T} {tx : Nat} (h : live racing chans tx = true) (w : T) :
    sendAt racing chans tx w = ({ chans tx with txLive := false, data := some w }, .ok ()) := by
  simp only [live, Bool.and_eq_true, Bool.not_eq_true'] at h
  simp [sendAt, Chan.send, h.1, h.2]

theorem sendAt_racing {chans : Nat → Chan T} {tx : Nat} (hc : (chans tx).isCanceled = false)
    (h : live racing chans tx = false) (w : T) :
    (sendAt racing chans tx w).2 = .error w ∧ (sendAt racing chans tx w).1.rxLive = false ∧
      (sendAt racing chans tx w).1.data = none := by
  simp only [Chan.isCanceled, Bool.not_eq_false'] at hc
  simp only [live, hc, Bool.true_and, Bool.not_eq_false'] at h
  simp [sendAt, Chan.send, Chan.dropReceiver, h]

theorem sendAt_ok_data {chans : Nat → Chan T} {tx : Nat} {w : T}
    (h : (sendAt racing chans tx w).2 = .ok ()) : (sendAt racing chans tx w).1.data = some w := by
  unfold sendAt at h ⊢
  generalize (if racing tx then (chans tx).dropReceiver else chans tx) = c at h ⊢
  unfold Chan.send at h ⊢
  split at h <;> simp_all

theorem handoff_none {chans : Nat → Chan T} {v : T} {q : List Nat}
    {r : (Nat → Chan T) × Option T × List Nat} (h : handoff P racing chans (some v) q = .ok r)
    (hnone : r.2.1 = none) :
    ∃ pre tx x u, q = pre ++ tx :: r.2.2 ∧ P.reserve x = .unique u ∧ (r.1 tx).data = some u := by
  induction q generalizing chans v with
  | nil => cases h; cases hnone
  | cons tx rest ih =>
    rcases handoff_cons h with ⟨-, h⟩ | ⟨-, v, hv, ⟨hok, hkeep, rfl⟩ | ⟨w, h, -⟩⟩
    · obtain ⟨pre, tx', x, u, hq, hres, hd⟩ := ih h
      exact ⟨tx :: pre, tx', x, u, by rw [hq]; rfl, hres, hd⟩
    · refine ⟨[], tx, v, (P.reserve v).split.2, rfl, ?_, by simpa using sendAt_ok_data hok⟩
      cases hres : P.reserve v with
      | shared a b => rw [hres] at hkeep; cases hkeep
      | unique u => rfl
    · obtain ⟨pre, tx', x, u, hq, hres, hd⟩ := ih h
      exact ⟨tx :: pre, tx', x, u, by rw [hq]; rfl, hres, hd⟩

theorem live_update {chans : Nat → Chan T} {tx : Nat} {ch : Chan T} (hl : live racing chans tx = false)
    (hch : ch.rxLive = false) : live racing (update chans tx ch) = live racing chans := by
  funext c
  by_cases hc : c = tx
  · subst hc; rw [hl]; simp [live, hch]
  · simp [live, hc]

theorem handoff_skip {chans : Nat → Chan T} {v : T} {tx : Nat} (rest : List Nat)
    (hl : live racing chans tx = false) (hq : (chans tx).data = none) :
    ∃ chans₁ w, (w = v ∨ w = (P.reserve v).split.2) ∧ live racing chans₁ = live racing chans ∧
      (∀ c, (chans₁ c).data = (chans c).data) ∧
      handoff P racing chans (some v) (tx :: rest) = handoff P racing chans₁ (some w) rest := by
  by_cases hcan : (chans tx).isCanceled = true
  · exact ⟨chans, v, .inl rfl, rfl, fun _ => rfl, by simp [handoff, hcan]⟩
  · simp only [Bool.not_eq_true] at hcan
    obtain ⟨herr, hrx, hd⟩ := sendAt_racing hcan hl (P.reserve v).split.2
    refine ⟨update chans tx (sendAt racing chans tx (P.reserve v).split.2).1, _, .inr rfl,
      live_update hl hrx, fun c => ?_, by simp [handoff, hcan, herr]⟩
    by_cases hc : c = tx
    · subst hc; simp [hd, hq]
    · simp [hc]

theorem handoff_live {chans : Nat → Chan T} {v : T} {tx : Nat} {rest : List Nat}
    (hl : live racing chans tx = true) :
    handoff P racing chans (some v) (tx :: rest) =
      match (P.reserve v).split.1 with
      | none => .ok (update chans tx { chans tx with txLive := false, data := some (P.reserve v).split.2 },
          none, rest)
      | some keep => handoff P racing
          (update chans tx { chans tx with txLive := false, data := some (P.reserve v).split.2 }) (some keep) rest := by
  have hcan : (chans tx).isCanceled = false := by
    simp only [live, Bool.and_eq_true] at hl; simp [Chan.isCanceled, hl.1]
  simp only [handoff, hcan, sendAt_live hl]
  rfl

theorem handoff_unique {v : T} (racing : Nat → Bool) (hres : P.reserve v = .unique v)
    (chans : Nat → Chan T) (q : List Nat)
    (hq : ∀ c ∈ q, (chans c).data = none) :
    (∃ pre tx post, q = pre ++ tx :: post ∧ (∀ c ∈ pre, live racing chans c = false) ∧
      live racing chans tx = true ∧ ∃ chans', handoff P racing chans (some v) q = .ok (chans', none, post) ∧
        (chans' tx).data = some v ∧ ∀ c, c ≠ tx → (chans' c).data = (chans c).data) ∨
    ((∀ c ∈ q, live racing chans c = false) ∧
      ∃ chans', handoff P racing chans (some v) q = .ok (chans', some v, []) ∧
      ∀ c, (chans' c).data = (chans c).data) := by
  induction q generalizing chans with
  | nil => exact .inr ⟨by simp, chans, rfl, fun _ => rfl⟩
  | cons tx rest ih =>
    simp only [List.mem_cons, forall_eq_or_imp] at hq ⊢
    cases hl : live racing chans tx
    · obtain ⟨chans₁, w, hw, hlive, hdata, hstep⟩ := handoff_skip (P := P) (v := v) rest hl hq.1
      obtain rfl : w = v := by rcases hw with rfl | rfl <;> simp [hres, Reservation.split]
      rw [hstep]
      rcases ih chans₁ (fun c hc => (hdata c).trans (hq.2 c hc)) with
        ⟨pre, t, post, rfl, hpre, ht, chans', h, hd, ho⟩ | ⟨hall, chans', h, hd⟩
      · rw [hlive] at hpre ht
        exact .inl ⟨tx :: pre, t, post, rfl, by simpa [hl] using hpre, ht, chans', h, hd,
          fun c hc => (ho c hc).trans (hdata c)⟩
      · rw [hlive] at hall
        exact .inr ⟨⟨rfl, hall⟩, chans', h, fun c => (hd c).trans (hdata c)⟩
    · refine .inl ⟨[], tx, rest, rfl, by simp, hl, update chans tx { chans tx with txLive := false, data := some v },
        ?_, by simp, fun c hc => by simp [hc]⟩
      rw [handoff_live hl]
      simp [hres, Reservation.split]

theorem live_update_ne {chans : Nat → Chan T} {tx c : Nat} (ch : Chan T) (hc : c ≠ tx) :
    live racing (update chans tx ch) c = live racing chans c := by
  simp [live, hc]

theorem put_of_no_waiters {env : Env T} {inner : PoolInner T K} {chans : Nat → Chan T} {key : K} {value : T}
    (hgate : (P.canShare value && (inner.idle key).isSome) = false) (hw : inner.waiters key = none) :
    inner.put P env chans key value = .ok (inner.insert env.now key (some value), chans) := by
  simp [PoolInner.put, hgate, PoolInner.offer, hw, Except.map]

theorem put_of_handoff {env : Env T} {inner : PoolInner T K} {chans chans' : Nat → Chan T} {key : K}
    {value : T} {q rest : List Nat} {held : Option T}
    (hgate : (P.canShare value && (inner.idle key).isSome) = false) (hw : inner.waiters key = some q)
    (h : handoff P env.racing chans (some value) q = .ok (chans', held, rest)) :
    inner.put P env chans key value =
      .ok ({ inner with waiters := update inner.waiters key (if rest = [] then none else some rest) }.insert
        env.now key held, chans') := by
  simp [PoolInner.put, hgate, PoolInner.offer, hw, h, Except.map, List.isEmpty_iff]

theorem insert_some_idle (now : Nat) (inner : PoolInner T K) (key : K) (v : T) :
    (inner.insert now key (some v)).idle key =
      some (if inner.maxIdlePerHost ≤ ((inner.idle key).getD []).length then (inner.idle key).getD []
        else (inner.idle key).getD [] ++ [⟨now, v⟩]) := by
  simp only [PoolInner.insert]
  split <;> simp

theorem insert_some_idle_of_lt {now : Nat} {inner : PoolInner T K} {key : K} {v : T}
    (h : ((inner.idle key).getD []).length < inner.maxIdlePerHost) :
    (inner.insert now key (some v)).idle key = some ((inner.idle key).getD [] ++ [⟨now, v⟩]) := by
  rw [insert_some_idle, if_neg (Nat.not_le.2 h)]

theorem insert_idle_waiters (now : Nat) (inner : PoolInner T K) (key : K) (w : K → Option (List Nat))
    (held : Option T) : ({ inner with waiters := w }.insert now key held).idle = (inner.insert now key held).idle := by
  unfold PoolInner.insert
  split <;> (try split) <;> simp

theorem insert_some_idle_of_le {now : Nat} {inner : PoolInner T K} {key : K} {v : T}
    (hmax : 0 < inner.maxIdlePerHost) (h : inner.maxIdlePerHost ≤ ((inner.idle key).getD []).length) :
    (inner.insert now key (some v)).idle key = inner.idle key := by
  rw [insert_some_idle, if_pos h]
  cases hk : inner.idle key with
  | none => rw [hk] at h; simp at h; omega
  | some l => rfl

theorem handoff_turn {chans : Nat → Chan T} {v a b : T} {tx : Nat} (racing : Nat → Bool) (rest : List Nat)
    (hres : P.reserve v = .shared a b) (hq : (chans tx).data = none) :
    ∃ chans₁ w, (w = v ∨ w = a ∨ w = b) ∧
      handoff P racing chans (some v) (tx :: rest) = handoff P racing chans₁ (some w) rest ∧
      (∀ l, heldAfter P racing chans (some v) (tx :: l) = heldAfter P racing chans (some w) l) ∧
      (∀ c, c ≠ tx → chans₁ c = chans c) ∧
      (chans₁ tx).data = if live racing chans tx then some b else none := by
  by_cases hcan : (chans tx).isCanceled = true
  · have hl : live racing chans tx = false := by
      simp only [Chan.isCanceled, Bool.not_eq_true'] at hcan; simp [live, hcan]
    exact ⟨chans, v, .inl rfl, by simp [handoff, hcan], fun l => by simp [heldAfter, hcan],
      fun _ _ => rfl, by simp [hl, hq]⟩
  · simp only [Bool.not_eq_true] at hcan
    cases hl : live racing chans tx
    · obtain ⟨herr, -, hd⟩ := sendAt_racing hcan hl b
      exact ⟨update chans tx (sendAt racing chans tx b).1, b, .inr (.inr rfl),
        by simp [handoff, hcan, hres, Reservation.split, herr],
        fun l => by simp [heldAfter, hcan, hl, hres, Reservation.split], fun c hc => update_noteq hc _ _,
        by simpa using hd⟩
    · refine ⟨update chans tx { chans tx with txLive := false, data := some b }, a, .inr (.inl rfl), ?_,
        fun l => by simp [heldAfter, hcan, hl, hres, Reservation.split], fun c hc => update_noteq hc _ _,
        by simp⟩
      rw [handoff_live hl]
      simp [hres, Reservation.split]

theorem dropSenders_data (chans : Nat → Chan T) (q : List Nat) (c : Nat) :
    (dropSenders chans q c).data = (chans c).data := by
  unfold dropSenders; split <;> rfl

section Contract

variable (hhalves : ∀ v a b, P.reserve v = .shared a b → P.canShare a = true ∧ P.canShare b = true)
  (hshare : ∀ v, P.canShare v = true → ∃ a b, P.reserve v = .shared a b)
include hhalves hshare

theorem handoff_shared {v : T} (racing : Nat → Bool) (hv : P.canShare v = true) (chans : Nat → Chan T)
    (q : List Nat) (hnd : q.Nodup) (hq : ∀ c ∈ q, (chans c).data = none) :
    ∃ chans' v', handoff P racing chans (some v) q = .ok (chans', some v', []) ∧
      heldAfter P racing chans (some v) q = some v' ∧ P.canShare v' = true ∧
      (∀ pre c post, q = pre ++ c :: post → live racing chans c = true →
        ∃ h, heldAfter P racing chans (some v) pre = some h ∧ P.canShare h = true ∧
          (chans' c).data = some (P.reserve h).split.2) ∧
      ∀ c, (c ∉ q ∨ live racing chans c = false) → (chans' c).data = (chans c).data := by
  induction q generalizing chans v with
  | nil => exact ⟨chans, v, rfl, rfl, hv, fun pre c post h => by simp at h, fun _ _ => rfl⟩
  | cons tx rest ih =>
    rw [List.nodup_cons] at hnd
    simp only [List.mem_cons, forall_eq_or_imp] at hq
    obtain ⟨a, b, hres⟩ := hshare v hv
    have hrest : ∀ c ∈ rest, c ≠ tx := fun c hc h => hnd.1 (h ▸ hc)
    obtain ⟨chans₁, w, hw, hstep, hheld, hother, htx⟩ := handoff_turn racing rest hres hq.1
    have hw' : P.canShare w = true := by
      rcases hw with rfl | rfl | rfl
      · exact hv
      · exact (hhalves _ _ _ hres).1
      · exact (hhalves _ _ _ hres).2
    -- past `tx` the channels are those the loop started with
    have hsame : ∀ l, l ⊆ rest → ∀ o, heldAfter P racing chans₁ o l = heldAfter P racing chans o l :=
      fun l hl => heldAfter_congr fun c hc => hother c (hrest c (hl hc))
    have hlive : ∀ c, c ≠ tx → live racing chans₁ c = live racing chans c := fun c hc => by
      simp only [live, hother c hc]
    obtain ⟨chans', v', h, hheld', hv', hserved, hframe⟩ := ih hw' chans₁ hnd.2 fun c hc => by
      rw [hother c (hrest c hc)]; exact hq.2 c hc
    refine ⟨chans', v', by rw [hstep]; exact h, by rw [hheld, ← hsame rest (fun _ h => h)]; exact hheld',
      hv', fun pre c post hpre hl => ?_, fun c hc => ?_⟩
    · rcases pre with _ | ⟨x, pre⟩
      · -- the sender at the head gets the handed-out half of `v`
        simp only [List.nil_append, List.cons.injEq] at hpre
        obtain ⟨rfl, rfl⟩ := hpre
        refine ⟨v, rfl, hv, ?_⟩
        rw [hframe tx (.inl hnd.1), htx, if_pos hl]
        simp [hres, Reservation.split]
      · simp only [List.cons_append, List.cons.injEq] at hpre
        obtain ⟨rfl, hpre⟩ := hpre
        have hsub : pre ⊆ rest := by rw [hpre]; exact List.subset_append_left _ _
        have hct : c ≠ tx := hrest c (by rw [hpre]; simp)
        obtain ⟨h, hh, hsh, hd⟩ := hserved pre c post hpre (by rw [hlive c hct]; exact hl)
        exact ⟨h, by rw [hheld, ← hsame pre hsub]; exact hh, hsh, hd⟩
    · by_cases hct : c = tx
      · rw [hct] at hc ⊢
        have hl : live racing chans tx = false := hc.resolve_left fun h => h (List.mem_cons_self _ _)
        simp [hframe tx (.inl hnd.1), htx, hl, hq.1]
      · rw [hframe c ?_, hother c hct]
        rcases hc with hc | hc
        · exact .inl fun h => hc (List.mem_cons_of_mem _ h)
        · exact .inr (by rw [hlive c hct]; exact hc)

theorem put_shareable {inner : PoolInner T K} {chans : Nat → Chan T} {k : K} {v : T} (env : Env T)
    (hv : P.canShare v = true) (hidle : inner.idle k = none) (hmax : 0 < inner.maxIdlePerHost)
    (hnd : ((inner.waiters k).getD []).Nodup) (hq : ∀ c ∈ (inner.waiters k).getD [], (chans c).data = none) :
    ∃ r, inner.put P env chans k v = .ok r ∧
      (∀ pre c post, (inner.waiters k).getD [] = pre ++ c :: post → live env.racing chans c = true →
        ∃ h, heldAfter P env.racing chans (some v) pre = some h ∧ P.canShare h = true ∧
          (r.2 c).data = some (P.reserve h).split.2) ∧
      (∀ c, (c ∉ (inner.waiters k).getD [] ∨ live env.racing chans c = false) → (r.2 c).data = (chans c).data) ∧
      r.1.waiters k = none ∧
      ∃ v', heldAfter P env.racing chans (some v) ((inner.waiters k).getD []) = some v' ∧
        P.canShare v' = true ∧ r.1.idle k = some [⟨env.now, v'⟩] := by
  have hgate : (P.canShare v && (inner.idle k).isSome) = false := by simp [hidle]
  have hlt : ((inner.idle k).getD []).length < inner.maxIdlePerHost := by simp [hidle, hmax]
  cases hwk : inner.waiters k with
  | none =>
    refine ⟨_, put_of_no_waiters hgate hwk, fun pre c post h => by simp at h, fun _ _ => rfl,
      by simpa using hwk, v, rfl, hv, ?_⟩
    rw [insert_some_idle_of_lt hlt, hidle]; rfl
  | some q =>
    simp only [hwk, Option.getD_some] at hnd hq ⊢
    obtain ⟨chans', v', hh, hheld, hv', hserved, hframe⟩ := handoff_shared hhalves hshare env.racing hv chans q hnd hq
    refine ⟨_, put_of_handoff hgate hwk hh, hserved, hframe, by simp, v', hheld, hv', ?_⟩
    simp only [insert_idle_waiters]
    rw [insert_some_idle_of_lt hlt]; simp [hidle]

/-- `put` in a state of the pool, under the `Poolable` contract (a value that cannot be
shared reserves as itself, `Unique(v)`; a shareable one reserves as `Shared` with shareable
halves). A unique value goes to the first sender of the queue that takes it and to no
other, the senders before it are gone and those after it stay in order, and `idle` is
untouched; if no sender takes it, the queue is gone and the value is pushed under the cap.
A shareable value with no idle list for its key is handed out along the queue: every sender
that takes one gets the handed-out half of the value in hand at its turn, starting from the
value put (`heldAfter` of the senders before it), no other channel gets anything, the queue
is gone, and the value left in hand is the new idle list; with an idle list for its key,
nothing changes. -/
theorem put_fifo_handoff (hunique : ∀ v, P.canShare v = false → P.reserve v = .unique v)
    {s : State T K} (h : Reachable P anyStep s) {inner : PoolInner T K} (hpool : s.pool = some inner)
    (env : Env T) (k : K) (v : T) :
    ∃ r, inner.put P env s.chans k v = .ok r ∧
      (P.canShare v = false → (∃ c ∈ (inner.waiters k).getD [], live env.racing s.chans c = true) →
        ∃ pre tx post, (inner.waiters k).getD [] = pre ++ tx :: post ∧
          (∀ c ∈ pre, live env.racing s.chans c = false) ∧ live env.racing s.chans tx = true ∧
          (r.2 tx).data = some v ∧ (∀ c, c ≠ tx → (r.2 c).data = (s.chans c).data) ∧
          r.1.waiters k = (if post = [] then none else some post) ∧ r.1.idle = inner.idle) ∧
      (P.canShare v = false → (∀ c ∈ (inner.waiters k).getD [], live env.racing s.chans c = false) →
        (∀ c, (r.2 c).data = (s.chans c).data) ∧ r.1.waiters k = none ∧
        (((inner.idle k).getD []).length < inner.maxIdlePerHost →
          r.1.idle k = some ((inner.idle k).getD [] ++ [⟨env.now, v⟩])) ∧
        (inner.maxIdlePerHost ≤ ((inner.idle k).getD []).length → r.1.idle k = inner.idle k)) ∧
      (P.canShare v = true → inner.idle k = none →
        (∀ pre c post, (inner.waiters k).getD [] = pre ++ c :: post → live env.racing s.chans c = true →
          ∃ h, heldAfter P env.racing s.chans (some v) pre = some h ∧ P.canShare h = true ∧
            (r.2 c).data = some (P.reserve h).split.2) ∧
        (∀ c, (c ∉ (inner.waiters k).getD [] ∨ live env.racing s.chans c = false) →
          (r.2 c).data = (s.chans c).data) ∧
        r.1.waiters k = none ∧
        ∃ v', heldAfter P env.racing s.chans (some v) ((inner.waiters k).getD []) = some v' ∧
          P.canShare v' = true ∧ r.1.idle k = some [⟨env.now, v'⟩]) ∧
      (P.canShare v = true → (inner.idle k).isSome → r = (inner, s.chans)) := by
  have hw := reachable_waiting h
  have hmax := (reachable_buckets h inner hpool).max_pos
  have hq : ∀ c ∈ (inner.waiters k).getD [], (s.chans c).data = none :=
    fun c hc => (hw.queued inner hpool k c hc).2.1
  have hgate : P.canShare v = false → (P.canShare v && (inner.idle k).isSome) = false := fun hv => by simp [hv]
  obtain ⟨r, hr⟩ := put_ok env inner s.chans k v
  refine ⟨r, hr, fun hv hex => ?_, fun hv hall => ?_, fun hv hidle => ?_, fun hv hidle => ?_⟩
  · -- a unique value and a sender that takes it
    cases hwk : inner.waiters k with
    | none => simp [hwk] at hex
    | some q =>
      simp only [hwk, Option.getD_some] at hq hex ⊢
      rcases handoff_unique env.racing (hunique v hv) s.chans q hq with
        ⟨pre, tx, post, rfl, hpre, htx, chans', hh, hd, ho⟩ | ⟨hall, -⟩
      · rw [put_of_handoff (hgate hv) hwk hh] at hr
        cases hr
        exact ⟨pre, tx, post, rfl, hpre, htx, hd, ho, by simp, rfl⟩
      · obtain ⟨c, hc, hl⟩ := hex
        rw [hall c hc] at hl; cases hl
  · -- a unique value and no sender that takes it
    cases hwk : inner.waiters k with
    | none =>
      rw [put_of_no_waiters (hgate hv) hwk] at hr
      cases hr
      exact ⟨fun _ => rfl, by simpa using hwk, insert_some_idle_of_lt, insert_some_idle_of_le hmax⟩
    | some q =>
      simp only [hwk, Option.getD_some] at hq hall
      rcases handoff_unique env.racing (hunique v hv) s.chans q hq with
        ⟨pre, tx, post, rfl, -, htx, -⟩ | ⟨-, chans', hh, hd⟩
      · rw [hall tx (by simp)] at htx; cases htx
      · rw [put_of_handoff (hgate hv) hwk hh] at hr
        cases hr
        simp only [insert_idle_waiters]
        exact ⟨hd, by simp, insert_some_idle_of_lt, insert_some_idle_of_le hmax⟩
  · -- a shareable value and no idle list for its key
    obtain ⟨r', hr', hshared⟩ := put_shareable hhalves hshare env hv hidle hmax (hw.nodup inner hpool k) hq
    rw [hr'] at hr
    cases hr
    exact hshared
  · -- the gate
    simp only [PoolInner.put, hv, hidle, Bool.and_self, if_true] at hr
    exact (Except.ok.inj hr).symm

/-- A single-flight HTTP/2 connect serves every parked waiter: in a reachable state, under
the `Poolable` contract, `pooled` with a value whose reservation is `Shared(to_insert, _)`
succeeds; every sender queued for the key whose receiver is live and not dropped
concurrently holds, for its receiver to read, the handed-out half of the value `put` had in
hand at its turn, starting from `to_insert`; and the key is left with no queue and no
connecting mark. -/
theorem pooled_serves_waiters {s : State T K} (h : Reachable P anyStep s) {inner : PoolInner T K}
    (hpool : s.pool = some inner) (j : Nat) {tok : Connecting K} (htok : s.tokens j = some tok)
    {value toInsert toReturn : T} (hres : P.reserve value = .shared toInsert toReturn) (env : Env T) :
    ∃ s', step P env (.pooled j value) s = .ok s' ∧
      (∀ pre c post, (inner.waiters tok.key).getD [] = pre ++ c :: post → live env.racing s.chans c = true →
        ∃ h, heldAfter P env.racing s.chans (some toInsert) pre = some h ∧
          (s'.chans c).poll = .ready (P.reserve h).split.2) ∧
      ∃ inner', s'.pool = some inner' ∧ inner'.waiters tok.key = none ∧ inner'.connecting tok.key = false := by
  have hw := reachable_waiting h
  have hins : P.canShare toInsert = true := (hhalves _ _ _ hres).1
  obtain ⟨r, hput, hserved⟩ : ∃ r, inner.put P env s.chans tok.key toInsert = .ok r ∧
      ∀ pre c post, (inner.waiters tok.key).getD [] = pre ++ c :: post → live env.racing s.chans c = true →
        ∃ h, heldAfter P env.racing s.chans (some toInsert) pre = some h ∧
          (r.2 c).data = some (P.reserve h).split.2 := by
    cases hidle : inner.idle tok.key with
    | none =>
      obtain ⟨r, hr, hs, -⟩ := put_shareable hhalves hshare env hins hidle (reachable_buckets h inner hpool).max_pos
        (hw.nodup inner hpool _) fun c hc => (hw.queued inner hpool _ c hc).2.1
      exact ⟨r, hr, fun pre c post hq hl => (hs pre c post hq hl).imp fun _ h => ⟨h.1, h.2.2⟩⟩
    | some l =>
      -- an idle list for the key means no queue for it, and the gate drops the value
      refine ⟨(inner, s.chans), by simp [PoolInner.put, hins, hidle], fun pre c post hq => ?_⟩
      simp [reachable_keysApart h inner hpool tok.key (by simp [hidle])] at hq
  refine ⟨_, by simp [step, stepOp, State.pooled, Pool.pooled, htok, hpool, hres, hput, Except.map]; rfl,
    fun pre c post hq hl => ?_, _, rfl, by simp [connected_fst], by simp [connected_fst]⟩
  obtain ⟨h, hh, hd⟩ := hserved pre c post hq hl
  exact ⟨h, hh, by simp [State.syncDrops, State.addPooled, State.debugAssert, PoolInner.connected,
    Chan.poll, dropSenders_data, hd]⟩

end Contract

theorem mixed_unique (v : Nat) (h : mixed.canShare v = false) : mixed.reserve v = .unique v := by
  simp only [mixed, decide_eq_false_iff_not] at h ⊢; simp [h]

theorem mixed_halves (v a b : Nat) (h : mixed.reserve v = .shared a b) :
    mixed.canShare a = true ∧ mixed.canShare b = true := by
  simp only [mixed] at h ⊢
  split at h <;> cases h
  simp_all

theorem mixed_shared (v : Nat) (h : mixed.canShare v = true) : ∃ a b, mixed.reserve v = .shared a b :=
  ⟨v, v, by simp only [mixed, decide_eq_true_eq] at h ⊢; simp [h]⟩

/-- Two `Checkout`s for key 7 parked in turn, and the HTTP/1 connection 43 idle for key 8 at
the cap of one. A unique value for 7 goes to the first of them only; one for 8 is dropped at
the cap; a shareable value for 7 is handed to both and its kept half becomes the idle list;
and a shareable value for 8, which has an idle list, changes nothing. -/
theorem put_fifo_handoff_mixed : ∃ s inner,
    run mixed [(Env.quiet 0, .checkout 7), (Env.quiet 1, .poll 0), (Env.quiet 2, .checkout 7),
      (Env.quiet 3, .poll 1), (Env.quiet 4, .connecting 8 .auto), (Env.quiet 5, .pooled 0 43),
      (Env.quiet 6, .dropPooled 0)] (State.noTimer 1) = .ok s ∧
    s.pool = some inner ∧ inner.waiters 7 = some [0, 1] ∧ inner.idle 8 = some [⟨6, 43⟩] ∧
    (∃ r, inner.put mixed (Env.quiet 7) s.chans 7 41 = .ok r ∧ (r.2 0).data = some 41 ∧
      (r.2 1).data = none ∧ r.1.waiters 7 = some [1] ∧ r.1.idle = inner.idle) ∧
    (∃ r, inner.put mixed (Env.quiet 7) s.chans 8 45 = .ok r ∧ r.1.idle 8 = inner.idle 8) ∧
    (∃ r, inner.put mixed (Env.quiet 7) s.chans 7 42 = .ok r ∧ (r.2 0).data = some 42 ∧
      (r.2 1).data = some 42 ∧ r.1.waiters 7 = none ∧ r.1.idle 7 = some [⟨7, 42⟩]) ∧
    inner.put mixed (Env.quiet 7) s.chans 8 44 = .ok (inner, s.chans) := by
  obtain ⟨s, inner, hr, hpool, hw7, hidle8, hi7, hw8, hmax, hl0, hl1, hd1⟩ : ∃ s inner,
      run mixed [(Env.quiet 0, .checkout 7), (Env.quiet 1, .poll 0), (Env.quiet 2, .checkout 7),
        (Env.quiet 3, .poll 1), (Env.quiet 4, .connecting 8 .auto), (Env.quiet 5, .pooled 0 43),
        (Env.quiet 6, .dropPooled 0)] (State.noTimer 1) = .ok s ∧
      s.pool = some inner ∧ inner.waiters 7 = some [0, 1] ∧ inner.idle 8 = some [⟨6, 43⟩] ∧
      inner.idle 7 = none ∧ inner.waiters 8 = none ∧ inner.maxIdlePerHost = 1 ∧ live (Env.quiet 7).racing s.chans 0 = true ∧
      live (Env.quiet 7).racing s.chans 1 = true ∧ (s.chans 1).data = none :=
    ⟨_, _, rfl, rfl, rfl, rfl, rfl, rfl, rfl, rfl, rfl, rfl⟩
  have hfifo := put_fifo_handoff mixed_halves mixed_shared mixed_unique (Reachable.run (.init _ _) hr) hpool
    (Env.quiet 7)
  have hW7 : (inner.waiters 7).getD [] = [0, 1] := by rw [hw7]; rfl
  refine ⟨s, inner, hr, hpool, hw7, hidle8, ?_, ?_, ?_, ?_⟩
  · -- the unique 41 goes to the first parked `Checkout`
    obtain ⟨r, hput, ha, -⟩ := hfifo 7 41
    obtain ⟨pre, tx, post, hW, hpre, -, hd, hother, hwait, hidle⟩ := ha rfl ⟨0, by simp [hW7], hl0⟩
    rw [hW7] at hW
    rcases pre with _ | ⟨x, pre⟩
    · simp only [List.nil_append, List.cons.injEq] at hW
      obtain ⟨rfl, rfl⟩ := hW
      exact ⟨r, hput, hd, (hother 1 (by decide)).trans hd1, by rw [hwait]; rfl, hidle⟩
    · simp only [List.cons_append, List.cons.injEq] at hW
      obtain ⟨rfl, -⟩ := hW
      rw [hpre 0 (List.mem_cons_self _ _)] at hl0
      cases hl0
  · -- the unique 45 finds no sender and the list for 8 at the cap
    obtain ⟨r, hput, -, hb, -⟩ := hfifo 8 45
    exact ⟨r, hput, (hb rfl fun _ h => by simp [hw8] at h).2.2.2 (by rw [hmax, hidle8]; decide)⟩
  · -- the shareable 42 serves both and leaves its kept half idle
    obtain ⟨r, hput, -, -, hc, -⟩ := hfifo 7 42
    obtain ⟨hserved, -, hwait, v', hv', -, hidle⟩ := hc rfl hi7
    obtain ⟨h0, hh0, -, hd0⟩ := hserved [] 0 [1] hW7 hl0
    obtain ⟨h1, hh1, -, hd1'⟩ := hserved [0] 1 [] hW7 hl1
    have hkeep : (mixed.reserve 42).split.1 = some 42 := rfl
    rw [heldAfter_nil] at hh0
    rw [heldAfter_live hl0, hkeep, heldAfter_nil] at hh1
    rw [hW7, heldAfter_live hl0, hkeep, heldAfter_live hl1, hkeep, heldAfter_nil] at hv'
    cases hh0; cases hh1; cases hv'
    exact ⟨r, hput, hd0, hd1', hwait, hidle⟩
  · -- the shareable 44 meets the gate
    obtain ⟨r, hput, -, -, -, hd⟩ := hfifo 8 44
    rw [← hd rfl (by rw [hidle8]; rfl)]; exact hput

/-- Two `Checkout`s for 7 parked while an HTTP/2 connect for 7 is under way, the first then
dropped: `pooled` of the multiplexed 41 hands the second a clone and clears the key. -/
theorem pooled_serves_waiters_h2 : ∃ s inner,
    run multiplexed [(Env.quiet 0, .connecting 7 .http2), (Env.quiet 1, .checkout 7), (Env.quiet 2, .poll 0),
      (Env.quiet 3, .checkout 7), (Env.quiet 4, .poll 1), (Env.quiet 5, .dropCheckout 0)]
      (State.noTimer 2) = .ok s ∧
    s.pool = some inner ∧ s.tokens 0 = some ⟨7, true⟩ ∧ inner.waiters 7 = some [0, 1] ∧
    (s.chans 0).isCanceled = true ∧ live (Env.quiet 6).racing s.chans 1 = true ∧
    ∃ s', step multiplexed (Env.quiet 6) (.pooled 0 41) s = .ok s' ∧ (s'.chans 1).poll = .ready 41 ∧
      ∃ inner', s'.pool = some inner' ∧ inner'.waiters 7 = none ∧ inner'.connecting 7 = false := by
  obtain ⟨s, inner, hr, hpool, htok, hw7, hc0, hl1⟩ : ∃ s inner,
      run multiplexed [(Env.quiet 0, .connecting 7 .http2), (Env.quiet 1, .checkout 7), (Env.quiet 2, .poll 0),
        (Env.quiet 3, .checkout 7), (Env.quiet 4, .poll 1), (Env.quiet 5, .dropCheckout 0)]
        (State.noTimer 2) = .ok s ∧
      s.pool = some inner ∧ s.tokens 0 = some ⟨7, true⟩ ∧ inner.waiters 7 = some [0, 1] ∧
      (s.chans 0).isCanceled = true ∧ live (Env.quiet 6).racing s.chans 1 = true :=
    ⟨_, _, rfl, rfl, rfl, rfl, rfl, rfl⟩
  obtain ⟨s', hs', hserved, hrest⟩ := pooled_serves_waiters (fun _ _ _ _ => ⟨rfl, rfl⟩) (fun v _ => ⟨v, v, rfl⟩)
    (Reachable.run (.init _ _) hr) hpool 0 htok (rfl : multiplexed.reserve 41 = .shared 41 41) (Env.quiet 6)
  obtain ⟨h, hh, hpoll⟩ := hserved [0] 1 [] (by rw [hw7]; rfl) hl1
  rw [heldAfter_canceled hc0, heldAfter_nil] at hh
  cases hh
  exact ⟨s, inner, hr, hpool, htok, hw7, hc0, hl1, s', hs', hpoll, hrest⟩

/-- `put`'s waiter loop never reaches its panic, for every queue and every reservation
shape: it always returns, and it returns with no value only right after a successful send
of a unique reservation. So `put` itself always returns. -/
theorem handoff_never_panics (P : Poolable T) (racing : Nat → Bool) (chans : Nat → Chan T) (v : T)
    (q : List Nat) :
    (∃ r, handoff P racing chans (some v) q = .ok r ∧
      (r.2.1 = none → ∃ pre tx x u, q = pre ++ tx :: r.2.2 ∧ P.reserve x = .unique u ∧
        (r.1 tx).data = some u)) ∧
    ∀ (env : Env T) (inner : PoolInner T K) (key : K), ∃ r, inner.put P env chans key v = .ok r := by
  obtain ⟨r, hr⟩ := handoff_ok (P := P) racing chans v q
  exact ⟨⟨r, hr, handoff_none hr⟩, fun env inner key => put_ok env inner chans key v⟩

end LegacyPool
