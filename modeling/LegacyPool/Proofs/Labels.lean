import LegacyPool.Proofs.Waiters

/-! No connection crosses keys. Label every connection with the key it was made for: `pooled`
gets a connection made for its token's key, and both halves of a reservation keep the label.
Then an idle list holds only connections of its key, a connection waiting in a channel has the
key of the `Checkout` that owns the channel, and a handle's connection has the handle's key.
`put` for `key` sends only along the queue of `key`, whose channels belong to `Checkout`s for
`key`; the probe for `key` reads the list of `key`; so a `Checkout` for `k` only ever resolves
to a connection made for `k`. -/

namespace LegacyPool

open Function

variable {T K : Type} [DecidableEq K] {P : Poolable T}

/-- The `Poolable` contract for labels: both halves of a reservation are connections to the
same host as the connection reserved. -/
def Labels (P : Poolable T) (keyOf : T → K) : Prop :=
  ∀ v, keyOf (P.reserve v).split.2 = keyOf v ∧ ∀ a, (P.reserve v).split.1 = some a → keyOf a = keyOf v

/-- The client discipline: `pooled` gets a connection made for its token's key. -/
def labelled (keyOf : T → K) (s : State T K) (_ : Env T) : Op T K → Prop
  | .pooled j v => ∀ tok, s.tokens j = some tok → keyOf v = tok.key
  | _ => True

/-- Every connection is where its label says: in the idle list of its key, in a channel owned
by a `Checkout` for its key (whose receiver is still there), or in a handle for its key. -/
structure Labelled (keyOf : T → K) (s : State T K) : Prop where
  idle : ∀ inner, s.pool = some inner → ∀ k, ∀ e ∈ (inner.idle k).getD [], keyOf e.value = k
  chans : ∀ c w, (s.chans c).data = some w →
    ∃ co, s.checkouts (s.chans c).owner = some co ∧ co.waiter = some c ∧ keyOf w = co.key
  live : ∀ c w, (s.chans c).data = some w → (s.chans c).rxLive = true
  held : ∀ p pd w, s.pooleds p = some pd → pd.value = some w → keyOf w = pd.key

variable {keyOf : T → K}

/-! One turn of the waiter loop at a time: what `put` for `key` sends carries the label `key`. -/

omit [DecidableEq K] in
theorem sendAt_data {racing : Nat → Bool} {chans : Nat → Chan T} {tx : Nat} {w' w : T}
    (h : (sendAt racing chans tx w').1.data = some w) :
    ((chans tx).data = some w ∧ (sendAt racing chans tx w').1.rxLive = (chans tx).rxLive) ∨
    (w = w' ∧ (sendAt racing chans tx w').1.rxLive = true) := by
  unfold sendAt Chan.send at *
  split at * <;> split at * <;> simp_all [Chan.dropReceiver]

omit [DecidableEq K] in
theorem sendAt_error {racing : Nat → Bool} {chans : Nat → Chan T} {tx : Nat} {w' w : T}
    (h : (sendAt racing chans tx w').2 = .error w) : w = w' := by
  unfold sendAt Chan.send at h
  split at h <;> split at h <;> simp_all

section Handoff

variable (hlab : Labels P keyOf)
include hlab

omit [DecidableEq K] in
theorem handoff_labels {k : K} {racing : Nat → Bool} {chans : Nat → Chan T} {value : Option T}
    {q : List Nat} {r : (Nat → Chan T) × Option T × List Nat} (h : handoff P racing chans value q = .ok r)
    (hv : ∀ v, value = some v → keyOf v = k) :
    (∀ v, r.2.1 = some v → keyOf v = k) ∧
    ∀ c w, (r.1 c).data = some w → ((chans c).data = some w ∧ (r.1 c).rxLive = (chans c).rxLive) ∨
      (c ∈ q ∧ keyOf w = k ∧ (r.1 c).rxLive = true) := by
  induction q generalizing chans value with
  | nil => cases h; exact ⟨hv, fun _ _ hc => .inl ⟨hc, by trivial⟩⟩
  | cons tx rest ih =>
    -- one send to `tx`, seen from the channels after it
    have hstep : ∀ v w' c w, keyOf v = k → w' = (P.reserve v).split.2 →
        ((update chans tx (sendAt racing chans tx w').1) c).data = some w →
        ((chans c).data = some w ∧
          ((update chans tx (sendAt racing chans tx w').1) c).rxLive = (chans c).rxLive) ∨
        (c = tx ∧ keyOf w = k ∧ ((update chans tx (sendAt racing chans tx w').1) c).rxLive = true) := by
      intro v w' c w hvk hw' hc
      by_cases hct : c = tx
      · subst hct
        rw [update_same] at hc ⊢
        rcases sendAt_data hc with h1 | ⟨rfl, h2⟩
        · exact .inl h1
        · exact .inr ⟨rfl, by rw [hw', (hlab v).1, hvk], h2⟩
      · rw [update_noteq hct] at hc ⊢
        exact .inl ⟨hc, rfl⟩
    rcases handoff_cons h with ⟨-, h⟩ | ⟨-, v, rfl, ⟨-, -, rfl⟩ | ⟨w, h, hw⟩⟩
    · obtain ⟨h1, h2⟩ := ih h hv
      exact ⟨h1, fun c w hc => (h2 c w hc).imp_right fun ⟨hm, hk, hr⟩ => ⟨List.mem_cons_of_mem _ hm, hk, hr⟩⟩
    · refine ⟨nofun, fun c w hc => ?_⟩
      rcases hstep v _ c w (hv v rfl) rfl hc with h1 | ⟨rfl, hk, hr⟩
      · exact .inl h1
      · exact .inr ⟨List.mem_cons_self _ _, hk, hr⟩
    · have hwk : keyOf w = k := by
        rcases hw with ⟨-, hkeep⟩ | hsend
        · rw [(hlab v).2 w hkeep, hv v rfl]
        · rw [sendAt_error hsend, (hlab v).1, hv v rfl]
      obtain ⟨h1, h2⟩ := ih h fun w' hw' => by cases hw'; exact hwk
      refine ⟨h1, fun c w'' hc => ?_⟩
      rcases h2 c w'' hc with ⟨hc', hr'⟩ | ⟨hm, hk, hr⟩
      · rcases hstep v _ c w'' (hv v rfl) rfl hc' with ⟨h3, hr3⟩ | ⟨rfl, hk, hr3⟩
        · exact .inl ⟨h3, hr'.trans hr3⟩
        · exact .inr ⟨List.mem_cons_self _ _, hk, hr'.trans hr3⟩
      · exact .inr ⟨List.mem_cons_of_mem _ hm, hk, hr⟩

end Handoff

theorem mem_insert_idle {now : Nat} {inner : PoolInner T K} {key k : K} {o : Option T} {e : Idle T}
    (he : e ∈ ((inner.insert now key o).idle k).getD []) :
    e ∈ (inner.idle k).getD [] ∨ (k = key ∧ ∃ w, o = some w ∧ e = ⟨now, w⟩) := by
  rcases insert_idle now inner key o k with h | ⟨-, -, h⟩ | ⟨rfl, w, rfl, -, h⟩ <;> rw [h] at he
  · exact .inl he
  · exact .inl he
  · rcases List.mem_append.1 he with he | he
    · exact .inl he
    · exact .inr ⟨rfl, w, rfl, List.mem_singleton.1 he⟩

omit [DecidableEq K] in
theorem mem_of_retainFresh {isOpen : T → Bool} {now dur : Nat} {o : Option (List (Idle T))} {e : Idle T}
    (he : e ∈ (o.bind (retainFresh isOpen now dur)).getD []) : e ∈ o.getD [] := by
  cases o with
  | none => simp at he
  | some l =>
    cases hr : retainFresh isOpen now dur l with
    | none => simp [hr] at he
    | some l' =>
      simp only [Option.some_bind, hr, Option.getD_some, (retainFresh_spec _ _ _ _ _ hr).1] at he
      exact (List.mem_filter.1 he).1

namespace Labelled

variable {s : State T K}

omit [DecidableEq K] in
theorem frame (hl : Labelled keyOf s) {s' : State T K}
    (hidle : ∀ inner', s'.pool = some inner' → ∀ k, ∀ e ∈ (inner'.idle k).getD [], keyOf e.value = k)
    (hchans : ∀ c w, (s'.chans c).data = some w → (s.chans c).data = some w ∧
      (s'.chans c).owner = (s.chans c).owner ∧ (s'.chans c).rxLive = (s.chans c).rxLive ∧
      s'.checkouts (s.chans c).owner = s.checkouts (s.chans c).owner)
    (hheld : ∀ p pd w, s'.pooleds p = some pd → pd.value = some w → keyOf w = pd.key) : Labelled keyOf s' := by
  refine ⟨hidle, fun c w h => ?_, fun c w h => ?_, hheld⟩
  · obtain ⟨hd, ho, -, hco⟩ := hchans c w h
    rw [ho, hco]; exact hl.chans c w hd
  · obtain ⟨hd, -, hr, -⟩ := hchans c w h
    rw [hr]; exact hl.live c w hd

omit [DecidableEq K] in
theorem idle_of_eq (hl : Labelled keyOf s) {s' : State T K}
    (h : ∀ inner', s'.pool = some inner' → ∃ inner, s.pool = some inner ∧ inner'.idle = inner.idle) :
    ∀ inner', s'.pool = some inner' → ∀ k, ∀ e ∈ (inner'.idle k).getD [], keyOf e.value = k :=
  fun inner' h' k e he => let ⟨inner, hp, heq⟩ := h inner' h'; hl.idle inner hp k e (heq ▸ he)

omit [DecidableEq K] in
theorem of_eq (hl : Labelled keyOf s) {s' : State T K} (h1 : s'.pool = s.pool) (h2 : s'.chans = s.chans)
    (h3 : s'.checkouts = s.checkouts) (h4 : s'.pooleds = s.pooleds) : Labelled keyOf s' :=
  hl.frame (hl.idle_of_eq fun inner' h => ⟨inner', h1 ▸ h, rfl⟩)
    (fun c w h => by rw [h2] at h ⊢; exact ⟨h, rfl, rfl, by rw [h3]⟩) (by rw [h4]; exact hl.held)

omit [DecidableEq K] in
theorem addPooled (hl : Labelled keyOf s) {pd : Pooled T K} (hpd : ∀ w, pd.value = some w → keyOf w = pd.key) :
    Labelled keyOf (s.addPooled pd) := by
  refine hl.frame hl.idle (fun c w h => ⟨h, rfl, rfl, rfl⟩) fun p pd' w h hw => ?_
  by_cases hp : p = s.nextPooled
  · subst hp; simp only [State.addPooled, update_same, Option.some.injEq] at h; subst h; exact hpd w hw
  · simp only [State.addPooled, update_noteq hp] at h; exact hl.held p pd' w h hw

omit [DecidableEq K] in
theorem syncDrops (hl : Labelled keyOf s) : Labelled keyOf s.syncDrops := by
  refine hl.frame hl.idle (fun c w h => ⟨h, rfl, rfl, ?_⟩) hl.held
  obtain ⟨co, hco, hw, -⟩ := hl.chans c w h
  simp [State.syncDrops, hco, hw, hl.live c w h]

theorem connected (hl : Labelled keyOf s) {inner : PoolInner T K} (hpool : s.pool = some inner) (key : K) :
    Labelled keyOf { s with pool := some (inner.connected s.chans key).1,
                            chans := (inner.connected s.chans key).2.1 } := by
  have hch : ∀ c, ((inner.connected s.chans key).2.1 c) = if c ∈ (inner.waiters key).getD []
      then (s.chans c).dropSender else s.chans c := fun _ => rfl
  refine hl.frame (hl.idle_of_eq fun _ h => ⟨inner, hpool, by cases h; rfl⟩) (fun c w h => ?_) hl.held
  simp only [hch] at h ⊢
  split at h <;> simp_all [Chan.dropSender]

theorem drop (hl : Labelled keyOf s) (tok : Connecting K) : Labelled keyOf (tok.drop s) := by
  unfold Connecting.drop
  split
  · exact (hl.connected ‹_› tok.key).of_eq rfl rfl rfl rfl
  · exact hl

end Labelled

theorem takeIdle_labels (hlab : Labels P keyOf) {inner : PoolInner T K}
    (hidle : ∀ k, ∀ e ∈ (inner.idle k).getD [], keyOf e.value = k) (isOpen : T → Bool) (now : Nat) (key : K) :
    (∀ k, ∀ e ∈ ((inner.takeIdle P isOpen now key).1.idle k).getD [], keyOf e.value = k) ∧
    ∀ e, (inner.takeIdle P isOpen now key).2 = some e → keyOf e.value = key := by
  have hother : ∀ l k, k ≠ key → ∀ e ∈ ((update inner.idle key l) k).getD [], keyOf e.value = k :=
    fun l k hk e he => hidle k e (by rwa [update_noteq hk] at he)
  unfold PoolInner.takeIdle
  split
  · rename_i out list hm
    obtain ⟨l, hl, hp⟩ := Option.map_eq_some'.1 hm
    have hxl : ∀ x ∈ l, keyOf x.value = key := fun x hx => hidle key x (by simp [hl, hx])
    rcases pop_spec (P := P) isOpen ⟨inner.timeout⟩ now l with ⟨-, hpop⟩ | ⟨pre, x, post, rfl, -, -, hpop⟩
    · rw [hpop] at hp; cases hp
    rw [hpop, Prod.mk.injEq, Option.some.injEq] at hp
    obtain ⟨rfl, rfl⟩ := hp
    have hx : keyOf x.value = key := hxl x (by simp)
    refine ⟨fun k e he => ?_, fun e he => ?_⟩
    · by_cases hk : k = key
      · subst hk
        simp only [update_same] at he
        split at he
        · simp at he
        · simp only [Option.getD_some, List.mem_append] at he
          rcases he with he | he
          · exact hxl e (by simp [he])
          · simp only [kept, Option.mem_toList, Option.mem_def, Option.map_eq_some'] at he
            obtain ⟨a, ha, rfl⟩ := he
            rw [(hlab x.value).2 a ha, hx]
      · exact hother _ k hk e he
    · cases he
      rw [(hlab x.value).1, hx]
  · refine ⟨fun k e he => ?_, nofun⟩
    by_cases hk : k = key
    · subst hk; simp at he
    · exact hother _ k hk e he

namespace Labelled

variable {s : State T K}

omit [DecidableEq K] in
theorem resolve (hl : Labelled keyOf s) {i rx : Nat} {co : Checkout K}
    (hco : s.checkouts i = some co) (hrx : co.waiter = some rx) (x : Option (Checkout K)) :
    Labelled keyOf { s with chans := update s.chans rx (s.chans rx).dropReceiver,
                            checkouts := update s.checkouts i x } := by
  refine hl.frame hl.idle (fun c w h => ?_) hl.held
  have hc : c ≠ rx := fun hc => by subst hc; simp [Chan.dropReceiver] at h
  simp only [update_noteq hc] at h ⊢
  obtain ⟨co', hco', hwc, -⟩ := hl.chans c w h
  have hi : (s.chans c).owner ≠ i := fun hi => by
    rw [hi, hco] at hco'; cases hco'; rw [hrx] at hwc; cases hwc; exact hc rfl
  exact ⟨h, trivial, trivial, update_noteq hi _ _⟩

omit [DecidableEq K] in
theorem forget (hl : Labelled keyOf s) {i : Nat} {co : Checkout K} (hco : s.checkouts i = some co)
    (hnone : co.waiter = none) (x : Option (Checkout K)) :
    Labelled keyOf { s with checkouts := update s.checkouts i x } := by
  refine hl.frame hl.idle (fun c w h => ⟨h, rfl, rfl, ?_⟩) hl.held
  obtain ⟨co', hco', hwc, -⟩ := hl.chans c w h
  have hi : (s.chans c).owner ≠ i := fun hi => by
    rw [hi, hco] at hco'; cases hco'; rw [hnone] at hwc; cases hwc
  exact update_noteq hi _ _

omit [DecidableEq K] in
theorem pollWaiter (hl : Labelled keyOf s) (hw : Waiting s) (env : Env T) {i : Nat} {co : Checkout K}
    (hco : s.checkouts i = some co) :
    Labelled keyOf (Checkout.pollWaiter P env s i co).1 ∧
    (∀ x, (Checkout.pollWaiter P env s i co).2 = .ready (some x) →
      (Checkout.pollWaiter P env s i co).1.checkouts i = some { co with waiter := none }) ∧
    ∀ pd, (Checkout.pollWaiter P env s i co).2 = .ready (some (.ok pd)) →
      pd.key = co.key ∧ ∀ w, pd.value = some w → keyOf w = co.key := by
  unfold Checkout.pollWaiter
  split
  · exact ⟨hl, nofun, nofun⟩
  · rename_i rx hrx
    have hres := hl.resolve hco hrx (some { co with waiter := none })
    split
    · rename_i value hpoll
      have hdata : (s.chans rx).data = some value := by
        unfold Chan.poll at hpoll
        split at hpoll
        · cases hpoll; assumption
        · split at hpoll <;> cases hpoll
      obtain ⟨co', hco', hwc, hk⟩ := hl.chans rx value hdata
      rw [(hw.waiter_some i co rx hco hrx).2, hco] at hco'
      cases hco'
      refine ⟨hres, fun _ _ => by simp, fun pd hpd => ?_⟩
      split at hpd
      · cases hpd; exact ⟨rfl, fun w hw => by cases hw; exact hk⟩
      · cases hpd
    · exact ⟨hl, nofun, nofun⟩
    · exact ⟨hres, fun _ _ => by simp, nofun⟩

theorem checkout (hlab : Labels P keyOf) (hl : Labelled keyOf s) {env : Env T} {i : Nat}
    {co : Checkout K} (hco : s.checkouts i = some co) (hnone : co.waiter = none)
    {r : State T K × Option (Pooled T K)} (h : Checkout.checkout P env s i co = .ok r) :
    Labelled keyOf r.1 ∧ (r.1.checkouts i = some co ∨ (r.2 = none ∧ r.1.pool.isSome)) ∧
    ∀ pd, r.2 = some pd → pd.key = co.key ∧ ∀ w, pd.value = some w → keyOf w = co.key := by
  unfold Checkout.checkout at h
  split at h
  · cases h; exact ⟨hl, .inl hco, nofun⟩
  · rename_i inner hpool
    obtain ⟨hidle, hout⟩ := takeIdle_labels hlab (hl.idle inner hpool) env.isOpen env.now co.key
    split at h
    · split at h
      · cases h
        refine ⟨hl.frame (fun _ h => by cases h; exact hidle) (fun c w h => ?_) hl.held, .inr ⟨rfl, rfl⟩, nofun⟩
        have hc : c ≠ s.nextChan := fun hc => by subst hc; simp [Chan.fresh] at h
        simp only [update_noteq hc] at h ⊢
        obtain ⟨co', hco', hwc, -⟩ := hl.chans c w h
        have hi : (s.chans c).owner ≠ i := fun hi => by
          rw [hi, hco] at hco'; cases hco'; rw [hnone] at hwc; cases hwc
        exact ⟨h, trivial, trivial, update_noteq hi _ _⟩
      · cases h
    · rename_i entry _ _
      cases h
      refine ⟨hl.frame (fun _ h => by cases h; exact hidle) (fun c w h => ⟨h, rfl, rfl, rfl⟩) hl.held,
        .inl hco, fun pd hpd => ?_⟩
      obtain ⟨e, he, rfl⟩ := Option.map_eq_some'.1 hpd
      exact ⟨rfl, fun w hw => by cases hw; exact hout e he⟩

theorem poll (hlab : Labels P keyOf) (hl : Labelled keyOf s) (hw : Waiting s) {env : Env T} {i : Nat}
    {co : Checkout K} (hco : s.checkouts i = some co) {r : State T K × Poll (Except Error (Pooled T K))}
    (h : Checkout.poll P env s i co = .ok r) :
    Labelled keyOf r.1 ∧ (∀ x, r.2 = .ready x → ∃ co', r.1.checkouts i = some co' ∧ co'.waiter = none) ∧
    ∀ pd, r.2 = .ready (.ok pd) → pd.key = co.key ∧ ∀ w, pd.value = some w → keyOf w = co.key := by
  obtain ⟨hl1, hready1, hpd1⟩ := hl.pollWaiter hw env hco
  unfold Checkout.poll at h
  split at h
  · rename_i s1 hsplit
    cases h; rw [hsplit] at hl1
    exact ⟨hl1, nofun, nofun⟩
  · rename_i s1 out hsplit
    cases h
    rw [hsplit] at hl1 hready1 hpd1
    exact ⟨hl1, fun _ _ => ⟨_, hready1 out rfl, rfl⟩, fun pd hpd => hpd1 pd (by cases hpd; rfl)⟩
  · rename_i s1 hsplit
    obtain ⟨r1, hr1, rfl⟩ := except_map_eq_ok.1 h
    have h0 : (Checkout.pollWaiter P env s i co).2 = .ready none := by rw [hsplit]
    obtain ⟨hnone, rfl⟩ : co.waiter = none ∧ s1 = s := by simpa [hsplit] using pollWaiter_of_ready_none h0
    obtain ⟨hl2, hco2, hpd2⟩ := hl.checkout hlab hco hnone hr1
    split
    · rename_i pd hpd
      rcases hco2 with hco2 | ⟨hnone2, -⟩
      · exact ⟨hl2, fun _ _ => ⟨co, hco2, hnone⟩, fun pd' hpd' => by cases hpd'; exact hpd2 pd hpd⟩
      · rw [hnone2] at hpd; cases hpd
    · rename_i hr2
      split
      · rename_i hdis
        rcases hco2 with hco2 | ⟨-, hsome⟩
        · exact ⟨hl2, fun _ _ => ⟨co, hco2, hnone⟩, nofun⟩
        · simp [Option.isNone_iff_eq_none.1 hdis] at hsome
      · exact ⟨hl2.of_eq rfl rfl rfl rfl, nofun, nofun⟩

omit [DecidableEq K] in
theorem settle {r : State T K × Poll (Except Error (Pooled T K))} (i : Nat) (hl : Labelled keyOf r.1)
    (hready : ∀ x, r.2 = .ready x → ∃ co, r.1.checkouts i = some co ∧ co.waiter = none)
    (hpd : ∀ pd, r.2 = .ready (.ok pd) → ∀ w, pd.value = some w → keyOf w = pd.key) :
    Labelled keyOf (State.settle i r) := by
  obtain ⟨s, out⟩ := r
  rcases out with (e | pd) | _
  · obtain ⟨co, hco, hnone⟩ := hready _ rfl
    exact hl.forget hco hnone none
  · obtain ⟨co, hco, hnone⟩ := hready _ rfl
    exact (hl.forget hco hnone none).addPooled (hpd pd rfl)
  · exact hl

omit [DecidableEq K] in
theorem clock (hl : Labelled keyOf s) (now : Nat) : Labelled keyOf { s with clock := now } :=
  hl.of_eq rfl rfl rfl rfl

omit [DecidableEq K] in
theorem dropToken (hl : Labelled keyOf s) (j : Nat) : Labelled keyOf { s with tokens := update s.tokens j none } :=
  hl.of_eq rfl rfl rfl rfl

omit [DecidableEq K] in
theorem addToken (hl : Labelled keyOf s) (t : Option (Connecting K)) : Labelled keyOf (s.addToken t) := by
  cases t <;> exact hl.of_eq rfl rfl rfl rfl

omit [DecidableEq K] in
theorem clearPooled (hl : Labelled keyOf s) (p : Nat) :
    Labelled keyOf { s with pooleds := update s.pooleds p none } := by
  refine hl.frame hl.idle (fun c w h => ⟨h, rfl, rfl, rfl⟩) fun p' pd w h hw => ?_
  by_cases hp : p' = p
  · subst hp; simp at h
  · simp only [update_noteq hp] at h; exact hl.held p' pd w h hw

theorem connecting (hl : Labelled keyOf s) (key : K) (ver : Ver) :
    Labelled keyOf { s with pool := (Pool.connecting s.pool key ver).1 } := by
  refine hl.frame (hl.idle_of_eq fun _ h => ?_) (fun c w h => ⟨h, rfl, rfl, rfl⟩) hl.held
  unfold Pool.connecting at h
  split at h
  · rename_i inner hpool
    split at h
    · exact ⟨_, h, rfl⟩
    · cases h; exact ⟨inner, hpool, rfl⟩
  · exact ⟨_, h, rfl⟩

theorem put (hlab : Labels P keyOf) (hl : Labelled keyOf s) (hw : Waiting s) {inner : PoolInner T K}
    (hpool : s.pool = some inner) {env : Env T} {key : K} {v : T} (hv : keyOf v = key)
    {r : PoolInner T K × (Nat → Chan T)} (h : inner.put P env s.chans key v = .ok r) :
    Labelled keyOf { s with pool := some r.1, chans := r.2 } := by
  rcases put_cases h with ⟨-, -, rfl⟩ | ⟨-, o, ho, rfl⟩
  · exact hl.of_eq hpool.symm rfl rfl rfl
  -- what `offer` keeps in hand, and each buffer it fills, carry the label `key`
  have hoffer : (∀ w, o.2.2 = some w → keyOf w = key) ∧ ∀ c w, (o.2.1 c).data = some w →
      ((s.chans c).data = some w ∧ (o.2.1 c).owner = (s.chans c).owner ∧
        (o.2.1 c).rxLive = (s.chans c).rxLive) ∨
      (s.checkouts (o.2.1 c).owner = some ⟨key, some c⟩ ∧ keyOf w = key ∧ (o.2.1 c).rxLive = true) := by
    rcases offer_cases ho with ⟨-, rfl⟩ | ⟨q, r, hq, hr, rfl⟩
    · exact ⟨fun w hw => by cases hw; exact hv, fun c w hc => .inl ⟨hc, rfl, rfl⟩⟩
    obtain ⟨h1, h2⟩ := handoff_labels hlab hr fun w hw => by cases hw; exact hv
    refine ⟨h1, fun c w hc => ?_⟩
    rcases h2 c w hc with ⟨hd, hrx⟩ | ⟨hm, hk, hrx⟩
    · exact .inl ⟨hd, handoff_owner hr c, hrx⟩
    obtain ⟨-, -, -, hq'⟩ := hw.queued inner hpool key c (by rw [hq]; exact hm)
    rcases hq' with ⟨hco, -⟩ | ⟨-, hdead⟩
    · exact .inr ⟨by rw [handoff_owner hr c]; exact hco, hk, hrx⟩
    · have hlive := handoff_rxLive hr c hrx
      rw [hdead] at hlive; cases hlive
  obtain ⟨hval, hchans⟩ := hoffer
  obtain ⟨wq, hwq⟩ := offer_frame ho
  refine ⟨fun _ h k e he => ?_, fun c w hc => ?_, fun c w hc => ?_, hl.held⟩
  · cases h
    rcases mem_insert_idle he with he | ⟨rfl, w, hw, rfl⟩
    · rw [hwq] at he; exact hl.idle inner hpool k e he
    · exact hval w hw
  · rcases hchans c w hc with ⟨hd, ho, -⟩ | ⟨hco, hk, -⟩
    · rw [ho]; exact hl.chans c w hd
    · exact ⟨_, hco, rfl, hk⟩
  · rcases hchans c w hc with ⟨hd, -, hrx⟩ | ⟨-, -, hrx⟩
    · rw [hrx]; exact hl.live c w hd
    · exact hrx

theorem pooled (hlab : Labels P keyOf) (hl : Labelled keyOf s) (hw : Waiting s) {env : Env T}
    {tok : Connecting K} {value : T} (hv : keyOf value = tok.key) {r : State T K × Pooled T K}
    (h : Pool.pooled P env s tok value = .ok r) :
    Labelled keyOf r.1 ∧ ∀ w, r.2.value = some w → keyOf w = r.2.key := by
  unfold Pool.pooled at h
  split at h
  · rename_i inner hpool
    have hsplit := hlab value
    split at h
    · rename_i keep give hres
      obtain ⟨r', hr', rfl⟩ := except_map_eq_ok.1 h
      rw [hres] at hsplit
      refine ⟨((hl.put hlab hw hpool ((hsplit.2 keep rfl).trans hv) hr').connected rfl tok.key).of_eq
        rfl rfl rfl rfl, fun w hw' => ?_⟩
      cases hw'; exact hsplit.1.trans hv
    · rename_i v hres
      cases h
      rw [hres] at hsplit
      exact ⟨hl.drop tok, fun w hw' => by cases hw'; exact hsplit.1.trans hv⟩
  · cases h
    exact ⟨hl.of_eq rfl rfl rfl rfl, fun w hw' => by cases hw'; exact hv⟩

theorem stepOp (hlab : Labels P keyOf) {env : Env T} {op : Op T K} {s' : State T K}
    (hl : Labelled keyOf s) (hw : Waiting s) (hdis : labelled keyOf s env op)
    (h : LegacyPool.stepOp P env op s = .ok s') : Labelled keyOf s' := by
  cases op with
  | checkout key =>
    cases h
    refine hl.frame hl.idle (fun c w h => ⟨h, rfl, rfl, update_noteq ?_ _ _⟩) hl.held
    obtain ⟨co, hco, -⟩ := hl.chans c w h
    exact fun he => by rw [he, hw.checkout_lt _ le_rfl] at hco; cases hco
  | poll i =>
    rcases stepOp_poll h with ⟨-, rfl⟩ | ⟨co, r, hco, hr, rfl⟩
    · exact hl
    · obtain ⟨hl1, hready, hpd⟩ := hl.poll hlab hw hco hr
      exact settle i hl1 hready fun pd h w hw' => ((hpd pd h).2 w hw').trans (hpd pd h).1.symm
  | dropCheckout i =>
    cases h; unfold State.dropCheckout
    split
    · exact hl
    · rename_i co hco
      split
      · exact hl.forget hco ‹_› none
      · exact (hl.resolve hco ‹_› none).of_eq rfl rfl rfl rfl
  | cleanCheckout i =>
    cases h; unfold State.cleanCheckout
    split
    · exact hl
    · rename_i key _
      refine hl.frame (hl.idle_of_eq fun _ h => ?_) (fun c w h => ⟨h, rfl, rfl, rfl⟩) hl.held
      obtain ⟨inner, hpool, rfl⟩ := Option.map_eq_some'.1 h
      obtain ⟨w, hwq, -⟩ := cleanWaiters_frame inner s.chans key
      exact ⟨inner, hpool, by rw [hwq]⟩
  | connecting key ver => cases h; exact (hl.connecting key ver).addToken _
  | alpnH2 j =>
    cases h; unfold State.alpnH2
    split
    · exact hl
    · rename_i tok _
      have h1 : Labelled keyOf ({ s with tokens := update s.tokens j none }.debugAssert (!tok.pool)
          "Connecting::alpn_h2 but already Http2") := hl.of_eq rfl rfl rfl rfl
      exact ((h1.connecting tok.key .http2).drop tok).addToken _
  | dropConnecting j =>
    cases h; unfold State.dropConnecting
    split
    · exact hl
    · exact (hl.dropToken j).drop _
  | pooled j value =>
    obtain ⟨s1, rfl, ⟨-, rfl⟩ | ⟨tok, r, htok, hr, rfl⟩⟩ := stepOp_pooled h
    · exact hl.syncDrops
    · obtain ⟨hl1, hpd⟩ := (hl.dropToken j).pooled hlab (hw.dropToken j) (hdis tok htok) hr
      exact (hl1.addPooled hpd).syncDrops
  | dropPooled p =>
    obtain ⟨s1, rfl, ⟨-, rfl⟩ | rfl | ⟨pd, v, _, r, hpd, hv, hpool, -, -, hr, rfl⟩⟩ := stepOp_dropPooled h
    · exact hl.syncDrops
    · exact (hl.clearPooled p).syncDrops
    · exact ((hl.clearPooled p).put hlab (hw.frame rfl rfl rfl rfl rfl rfl) hpool (hl.held p pd v hpd hv) hr).syncDrops
  | idleTick =>
    rcases stepOp_idleTick h with rfl | ⟨inner, _, hpool, -, he, rfl⟩
    · exact hl
    · obtain ⟨dur, -, rfl⟩ := clearExpired_spec he
      refine hl.frame (fun _ h k e he => ?_) (fun c w h => ⟨h, rfl, rfl, rfl⟩) hl.held
      cases h
      exact hl.idle inner hpool k e (mem_of_retainFresh he)
  | idleSleep => obtain rfl := stepOp_idleSleep h; exact hl

end Labelled

omit [DecidableEq K] in
theorem labelled_init (config : Config) (timer : Bool) :
    Labelled keyOf (State.init config timer : State T K) := by
  refine ⟨fun inner h k e he => ?_, fun c w h => ?_, fun c w h => ?_, fun p pd w h => ?_⟩
  · simp only [State.init, Pool.new] at h
    split at h <;> cases h
    simp at he
  all_goals simp [State.init, Chan.unused] at h

theorem reachable_labelled (hlab : Labels P keyOf) {s : State T K} (h : Reachable P (labelled keyOf) s) :
    Labelled keyOf s := by
  induction h with
  | init config timer => exact labelled_init config timer
  | @step _ _ env _ hr hdis hs ih =>
    exact (ih.clock env.now).stepOp hlab ((reachable_waiting hr).clock env.now) hdis hs

/-- No connection crosses keys. When every connection a client pools was made for its token's
key, and a reservation's halves are connections to the same host, then in every reachable
state each idle list holds only connections of its key, each handle holds a connection of its
key, and a `Checkout` for `k` resolves only to a handle for `k` holding a connection made
for `k`. -/
theorem no_connection_crosses_keys (hlab : Labels P keyOf) {s : State T K}
    (h : Reachable P (labelled keyOf) s) :
    (∀ inner, s.pool = some inner → ∀ k, ∀ e ∈ (inner.idle k).getD [], keyOf e.value = k) ∧
    (∀ p pd w, s.pooleds p = some pd → pd.value = some w → keyOf w = pd.key) ∧
    ∀ env i co r, s.checkouts i = some co → Checkout.poll P env s i co = .ok r →
      ∀ pd, r.2 = .ready (.ok pd) → pd.key = co.key ∧ ∀ w, pd.value = some w → keyOf w = co.key := by
  have hl := reachable_labelled hlab h
  exact ⟨hl.idle, hl.held, fun env i co r hco hr => (hl.poll hlab (reachable_waiting h) hco hr).2.2⟩

/-- Connection 41 is to host 4: made for a token for 4, pooled and returned to the pool. -/
theorem no_connection_crosses_keys_host : ∃ s : State Nat Nat,
    run uniq [(Env.quiet 0, .connecting 4 .auto), (Env.quiet 1, .pooled 0 41), (Env.quiet 2, .dropPooled 0)]
      (State.noTimer 2) = .ok s ∧
    (∀ inner, s.pool = some inner → ∀ k, ∀ e ∈ (inner.idle k).getD [], e.value / 10 = k) ∧
    (∀ p pd w, s.pooleds p = some pd → pd.value = some w → w / 10 = pd.key) ∧
    ∀ env i co r, s.checkouts i = some co → Checkout.poll uniq env s i co = .ok r →
      ∀ pd, r.2 = .ready (.ok pd) → pd.key = co.key ∧ ∀ w, pd.value = some w → w / 10 = co.key := by
  have hlab : Labels uniq fun v : Nat => v / 10 := fun _ => ⟨rfl, fun _ h => by cases h⟩
  have hr : run uniq [(Env.quiet 0, .connecting 4 .auto), (Env.quiet 1, .pooled 0 41), (Env.quiet 2, .dropPooled 0)]
      (State.noTimer 2) = .ok _ := rfl
  have hreach : Reachable uniq (labelled fun v : Nat => v / 10) _ :=
    @Reachable.step _ _ _ _ _ _ _ (Env.quiet 2) (.dropPooled 0)
      (@Reachable.step _ _ _ _ _ _ _ (Env.quiet 1) (.pooled 0 41)
        (@Reachable.step _ _ _ _ _ _ _ (Env.quiet 0) (.connecting 4 .auto) (.init ⟨some 100000000, 2⟩ false)
          trivial rfl)
        (fun tok h => by cases h; rfl) rfl)
      trivial rfl
  exact ⟨_, hr, no_connection_crosses_keys hlab hreach⟩

end LegacyPool
