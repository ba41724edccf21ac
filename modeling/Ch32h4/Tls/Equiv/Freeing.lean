import Ch32h4.Tls.Equiv.Verifying
import Ch32h4.Tls.Lifecycle
import Mathlib.Data.List.Nodup
import Mathlib.Tactic.SplitIfs

/-!
# The contexts of a session are used while they are up, and freed once

`freed_of_reachable`: in every run whose calls of `available` and `read` are `careful`, mbedTLS is
only called with contexts that were initialised and not freed, with `_up` set, and what was
initialised was freed once unless an object still has the session.  A call that is not careful
breaks it (`not_freed_of_not_careful`).

Two invariants carry this.  `Kept` is about the ledger, which tells that a session is up just when
its contexts are held; `Counted` is about the references, and what a call does to a session leaves
it (`Quiet`).  `negotiate_value` connects what is entered here with `handshake`.
-/

namespace Ch32h4.Tls.Lifecycle

open Traced Ledger

/-! ### `handshake` -/

section Handshake

variable {m : Mbedtls} {o : Options} {rounds : ℕ}

theorem run_pure {α : Type} (a : α) : (pure a : Part α).run.value = pure a := rfl

theorem run_throw {α : Type} (e : Failure) : (throw e : Part α).run.value = .error e := rfl

theorem run_bind {α β : Type} (p : Part α) (f : α → Part β) :
    (p >>= f).run.value = p.run.value >>= fun a => (f a).run.value := by
  rw [ExceptT.run_bind, value_bind]
  cases p.run.value with
  | error e => rfl
  | ok a => rfl

theorem run_ite {α : Type} (c : Prop) [Decidable c] (p q : Part α) :
    (if c then p else q).run.value = if c then p.run.value else q.run.value :=
  apply_ite (fun p : Part α => p.run.value) c p q

theorem run_call (given : List Context) : (call given).run.value = pure () := rfl

theorem run_tried (given : List Context) (ret : ℤ) : (tried given ret).run.value = check ret := by
  rw [tried, run_bind, run_call, pure_bind]
  rfl

theorem run_requireNone (conf : Conf) :
    (requireNone conf).run.value = .ok { conf with authmode := .none } := rfl

theorem run_requireChain (conf : Conf) (pem : String) :
    (requireChain m conf pem).run.value = Tls.requireChain m conf pem := by
  unfold requireChain Tls.requireChain
  simp only [run_bind, run_tried, run_call, run_pure, pure_bind]

theorem run_authenticate (conf : Conf) :
    (authenticate m o conf).run.value = Tls.authenticate m o conf := by
  unfold authenticate Tls.authenticate
  rw [run_ite, run_ite]
  cases o.ca_pem with
  | none => rw [run_requireNone, run_ite, run_throw]; rfl
  | some pem => simp only [run_ite, run_requireChain, run_requireNone]

theorem run_ownCertificate (conf : Conf) :
    (ownCertificate m o conf).run.value = Tls.ownCertificate m o conf := by
  unfold ownCertificate Tls.ownCertificate
  cases o.cert_pem with
  | none => exact run_ite _ _ _
  | some cert =>
    cases o.key_pem with
    | none => exact run_ite _ _ _
    | some key => simp only [run_bind, run_tried, run_pure]

theorem run_setHostname : (setHostname m o).run.value = Tls.setHostname m o := by
  unfold setHostname Tls.setHostname
  cases o.hostname with
  | none => rfl
  | some name =>
    rw [run_ite, run_pure, run_bind, run_tried]
    rfl

theorem run_bringUp (hsrv : ¬ (o.server ∧ ¬ m.srv)) : (bringUp m o).run.value = Tls.bringUp m o := by
  unfold bringUp Tls.bringUp
  rw [if_neg hsrv]
  simp only [run_bind, run_tried, run_call, run_pure, pure_bind, run_authenticate,
    run_ownCertificate, run_setHostname]

theorem value_handshakeLoop {s : Session} {timeout_ms : ℕ} : ∀ rounds k : ℕ,
    (handshakeLoop m s timeout_ms rounds k).value = Tls.handshakeLoop m s timeout_ms rounds k
  | 0, _ => rfl
  | rounds + 1, k => by
    unfold handshakeLoop Tls.handshakeLoop
    simp only [value_bind, value_ite, value_pure, value_handshakeLoop rounds (k + 1)]

/-- **What is entered here is what `handshake` does**, but for a server in a build without one. -/
theorem negotiate_value (hsrv : ¬ (o.server ∧ ¬ m.srv)) :
    (negotiate m o rounds).value = handshake m o rounds := by
  unfold negotiate handshake
  rw [value_bind, run_bringUp hsrv]
  cases Tls.bringUp m o with
  | error e => rfl
  | ok s =>
    dsimp only
    rw [value_bind, value_handshakeLoop]
    cases Tls.handshakeLoop m s o.timeout_ms rounds 0 with
    | none => rfl
    | some r =>
      cases r with
      | error e => rfl
      | ok u => rfl

end Handshake

/-! ### The ledger -/

namespace State

variable {st : State} {k j : ℕ}

/-- What was done, to which contexts. -/
def entries (st : State) : List (Entry (ℕ × Context)) := st.ledger.map Note.entry

@[simp] theorem entries_setSession (s : TlsSession) : (st.setSession k s).entries = st.entries := rfl

@[simp] theorem entries_setClient (i : ℕ) (s : Option ℕ) :
    (st.setClient i s).entries = st.entries := rfl

theorem entries_touch (d : Deed) (given : List Context) :
    (st.touch k d given).entries = st.entries ++ Ledger.all d (given.map (Prod.mk k)) := by
  rw [entries, touch, List.map_append, List.map_map, Ledger.all, List.map_map]
  rfl

theorem mem_touch {d : Deed} {given : List Context} {n : Note}
    (h : n ∈ (st.touch k d given).ledger) :
    n ∈ st.ledger ∨ n.entry.deed = d ∧ n.up = (st.sessions k).up := by
  rcases List.mem_append.mp h with h | h
  · exact .inl h
  · obtain ⟨c, -, rfl⟩ := List.mem_map.mp h
    exact .inr ⟨rfl, rfl⟩

/-- Whether a context was initialised, or freed. -/
theorem mem_entries_touch {d d' : Deed} {given : List Context} {c : Context} :
    ⟨d', (j, c)⟩ ∈ (st.touch k d given).entries ↔
      ⟨d', (j, c)⟩ ∈ st.entries ∨ d' = d ∧ j = k ∧ c ∈ given := by
  rw [entries_touch, List.mem_append, mem_all, List.mem_map]
  refine or_congr_right (and_congr_right fun _ => ?_)
  constructor
  · rintro ⟨c', hc, hpair⟩
    obtain ⟨rfl, rfl⟩ := Prod.mk.inj hpair
    exact ⟨rfl, hc⟩
  · rintro ⟨rfl, hc⟩
    exact ⟨c, hc, rfl⟩

theorem sessions_setSession (s : TlsSession) :
    (st.setSession k s).sessions k = s := if_pos rfl

theorem sessions_setSession_of_ne (s : TlsSession) (h : j ≠ k) :
    (st.setSession k s).sessions j = st.sessions j := if_neg h

@[simp] theorem sessions_touches (calls : List (List Context)) :
    (st.touches k calls).sessions = st.sessions := by
  unfold touches
  induction calls generalizing st with
  | nil => rfl
  | cons given calls ih => exact ih

end State

open State

/-- The ledger is right, and tells which sessions have their contexts. -/
structure Kept (st : State) : Prop where
  lawful : Lawful st.entries
  noted : ∀ n ∈ st.ledger, n.entry.deed ≠ .acquire → n.up = true
  held : ∀ k c, Held st.entries (k, c) ↔ (st.sessions k).up = true
  up : ∀ k, (st.sessions k).connected = true → (st.sessions k).up = true
  unused : ∀ k c, st.next ≤ k → ⟨.acquire, (k, c)⟩ ∉ st.entries

section Kept

variable {st : State} {k : ℕ} {s : TlsSession}

theorem mem_contexts (c : Context) : c ∈ contexts := by
  cases c <;> decide

theorem nodup_contexts (k : ℕ) : (contexts.map (Prod.mk k)).Nodup :=
  List.Nodup.map (fun _ _ h => (Prod.mk.inj h).2) (by decide)

/-- A session keeps its contexts, whatever else is written to it. -/
theorem Kept.setSession (h : Kept st) (hup : s.up = (st.sessions k).up)
    (hconnected : s.connected = true → s.up = true) : Kept (st.setSession k s) := by
  refine ⟨h.lawful, h.noted, fun j c => ?_, fun j => ?_, h.unused⟩
  · by_cases hj : j = k
    · rw [hj, sessions_setSession, hup]
      exact h.held k c
    · rw [sessions_setSession_of_ne s hj]
      exact h.held j c
  · by_cases hj : j = k
    · rw [hj, sessions_setSession]
      exact hconnected
    · rw [sessions_setSession_of_ne s hj]
      exact h.up j

theorem Kept.noted_touch (h : Kept st) {d : Deed} (given : List Context)
    (hd : d = .acquire ∨ (st.sessions k).up = true) :
    ∀ n ∈ (st.touch k d given).ledger, n.entry.deed ≠ .acquire → n.up = true := by
  intro n hn hdeed
  rcases mem_touch hn with hn | ⟨hnd, hnup⟩
  · exact h.noted n hn hdeed
  · rcases hd with hd | hd
    · exact absurd (hnd.trans hd) hdeed
    · exact hnup.trans hd

/-- A session with its contexts may be used. -/
theorem Kept.use (h : Kept st) (hup : (st.sessions k).up = true) (given : List Context) :
    Kept (st.touch k .use given) := by
  refine ⟨?_, h.noted_touch given (.inr hup), fun j c => ?_, h.up, fun j c hj hin => ?_⟩
  · rw [entries_touch]
    refine h.lawful.append_uses fun r hr => ?_
    obtain ⟨c, -, rfl⟩ := List.mem_map.mp hr
    exact (h.held k c).mpr hup
  · rw [Held, mem_entries_touch, mem_entries_touch, or_iff_left (fun hd => Deed.noConfusion hd.1),
      or_iff_left (fun hd => Deed.noConfusion hd.1)]
    exact h.held j c
  · rcases mem_entries_touch.mp hin with hin | ⟨hd, -⟩
    · exact h.unused j c hj hin
    · exact Deed.noConfusion hd

/-- The contexts of a session that never had any are initialised. -/
theorem Kept.initContexts (h : Kept st) (hnew : ∀ c, ⟨.acquire, (k, c)⟩ ∉ st.entries)
    (hk : k < st.next) : Kept (st.initContexts k) := by
  -- what was never initialised was never freed
  have hnever : ∀ c, ⟨.release, (k, c)⟩ ∉ st.entries := fun c => h.lawful.not_mem_release (hnew c)
  refine ⟨?_, h.noted_touch contexts (.inl rfl), fun j c => ?_, fun j => ?_, fun j c hj hin => ?_⟩
  · show Lawful (st.touch k .acquire contexts).entries
    rw [entries_touch]
    refine h.lawful.append_acquires (nodup_contexts k) fun r hr => ?_
    obtain ⟨c, -, rfl⟩ := List.mem_map.mp hr
    exact hnew c
  · show Held (st.touch k .acquire contexts).entries (j, c) ↔ _
    have hnot : ¬ (Deed.release = .acquire ∧ j = k ∧ c ∈ contexts) := fun hd =>
      Deed.noConfusion hd.1
    rw [Held, mem_entries_touch, mem_entries_touch, or_iff_left hnot]
    by_cases hj : j = k
    · subst hj
      rw [State.initContexts, sessions_setSession]
      exact iff_of_true ⟨.inr ⟨rfl, rfl, mem_contexts c⟩, hnever c⟩ rfl
    · rw [State.initContexts, sessions_setSession_of_ne _ hj, or_iff_left (fun hd => hj hd.2.1)]
      exact h.held j c
  · by_cases hj : j = k
    · rw [hj, State.initContexts, sessions_setSession]
      exact fun _ => rfl
    · rw [State.initContexts, sessions_setSession_of_ne _ hj]
      exact h.up j
  · rcases mem_entries_touch.mp hin with hin | ⟨-, rfl, -⟩
    · exact h.unused j c hj hin
    · exact absurd hk (Nat.not_lt.mpr hj)

/-- The contexts of a session that is not connected are freed, if it has them. -/
theorem Kept.freeContexts (h : Kept st) (hconnected : (st.sessions k).connected = false) :
    Kept (st.freeContexts k) := by
  unfold State.freeContexts
  by_cases hup : (st.sessions k).up = true
  swap
  · rw [if_pos hup]
    exact h
  rw [if_neg (not_not.mpr hup)]
  refine ⟨?_, h.noted_touch contexts (.inr hup), fun j c => ?_, fun j => ?_, fun j c hj hin => ?_⟩
  · show Lawful (st.touch k .release contexts).entries
    rw [entries_touch]
    refine h.lawful.append_releases (nodup_contexts k) fun r hr => ?_
    obtain ⟨c, -, rfl⟩ := List.mem_map.mp hr
    exact (h.held k c).mpr hup
  · show Held (st.touch k .release contexts).entries (j, c) ↔ _
    rw [Held, mem_entries_touch, mem_entries_touch, or_iff_left (fun hd => Deed.noConfusion hd.1)]
    by_cases hj : j = k
    · subst hj
      rw [sessions_setSession]
      exact iff_of_false (fun hheld => hheld.2 (.inr ⟨rfl, rfl, mem_contexts c⟩)) Bool.false_ne_true
    · rw [sessions_setSession_of_ne _ hj, or_iff_left (fun hd => hj hd.2.1)]
      exact h.held j c
  · by_cases hj : j = k
    · rw [hj, sessions_setSession, hconnected]
      exact fun hc => hc
    · rw [sessions_setSession_of_ne _ hj]
      exact h.up j
  · rcases mem_entries_touch.mp hin with hin | ⟨hd, -⟩
    · exact h.unused j c hj hin
    · exact Deed.noConfusion hd

theorem Kept.close (h : Kept st) : Kept (st.close k) := by
  unfold State.close
  by_cases hc : (st.sessions k).connected = true
  · rw [if_pos hc]
    refine Kept.freeContexts ?_ ?_
    · exact (h.use (h.up k hc) [.ssl]).setSession rfl fun hf => Bool.noConfusion hf
    · rw [sessions_setSession]
  · rw [if_neg hc]
    exact h.freeContexts (Bool.eq_false_of_not_eq_true hc)

theorem Kept.touches (h : Kept st) (hup : (st.sessions k).up = true) (calls : List (List Context)) :
    Kept (st.touches k calls) := by
  unfold State.touches
  induction calls generalizing st with
  | nil => exact h
  | cons given calls ih => exact ih (h.use hup given) hup

theorem Kept.lose (h : Kept st) : Kept (st.lose k) :=
  h.setSession rfl fun hf => Bool.noConfusion hf

theorem Kept.secure (h : Kept st) (hnew : ∀ c, ⟨.acquire, (k, c)⟩ ∉ st.entries) (hk : k < st.next)
    {m : Mbedtls} {o : Options} {rounds : ℕ} {st' : State}
    (hst : st.secure k m o rounds = some st') : Kept st' := by
  unfold State.secure at hst
  have hinit : ((st.initContexts k).sessions k).up = true := by
    rw [State.initContexts, sessions_setSession]
  have hkept := (h.initContexts hnew hk).touches hinit (negotiate m o rounds).events
  dsimp only at hst
  cases hr : (negotiate m o rounds).value with
  | none => rw [hr] at hst; cases hst
  | some r =>
    cases r with
    | error e =>
      rw [hr] at hst
      obtain rfl := Option.some.inj hst
      exact hkept.close
    | ok s =>
      rw [hr] at hst
      obtain rfl := Option.some.inj hst
      refine hkept.setSession rfl fun _ => ?_
      rw [sessions_touches]
      exact hinit

end Kept

/-! ### The references -/

/-- A call that is made through an object with session `k` leaves the references as they are. -/
structure Quiet (k : ℕ) (st st' : State) : Prop where
  clients : st'.clients = st.clients
  next : st'.next = st.next
  refs : ∀ j, (st'.sessions j).refs = (st.sessions j).refs
  up : ∀ j, (st'.sessions j).up = true → (st.sessions j).up = true ∨ j = k

section Quiet

variable {st st' st'' : State} {k : ℕ}

theorem Quiet.refl (k : ℕ) (st : State) : Quiet k st st := ⟨rfl, rfl, fun _ => rfl, fun _ => .inl⟩

theorem Quiet.trans (h : Quiet k st st') (h' : Quiet k st' st'') : Quiet k st st'' :=
  ⟨h'.clients.trans h.clients, h'.next.trans h.next, fun j => (h'.refs j).trans (h.refs j),
    fun j hj => (h'.up j hj).elim (h.up j) .inr⟩

theorem quiet_touch (d : Deed) (given : List Context) : Quiet k st (st.touch k d given) :=
  ⟨rfl, rfl, fun _ => rfl, fun _ => .inl⟩

theorem quiet_setSession {s : TlsSession} (hrefs : s.refs = (st.sessions k).refs) :
    Quiet k st (st.setSession k s) := by
  refine ⟨rfl, rfl, fun j => ?_, fun j hj => ?_⟩
  · by_cases hjk : j = k
    · rw [hjk, sessions_setSession, hrefs]
    · rw [sessions_setSession_of_ne s hjk]
  · by_cases hjk : j = k
    · exact .inr hjk
    · rw [sessions_setSession_of_ne s hjk] at hj
      exact .inl hj

theorem quiet_freeContexts : Quiet k st (st.freeContexts k) := by
  unfold State.freeContexts
  by_cases hup : (st.sessions k).up = true
  · rw [if_neg (not_not.mpr hup)]
    refine (quiet_touch .release contexts).trans ?_
    exact quiet_setSession rfl
  · rw [if_pos hup]
    exact .refl k st

theorem quiet_close : Quiet k st (st.close k) := by
  unfold State.close
  refine Quiet.trans ?_ quiet_freeContexts
  split_ifs
  · refine (quiet_touch .use [.ssl]).trans ?_
    exact quiet_setSession rfl
  · exact .refl k st

theorem freeContexts_up : ((st.freeContexts k).sessions k).up = false := by
  unfold State.freeContexts
  by_cases hup : (st.sessions k).up = true
  · rw [if_neg (not_not.mpr hup), sessions_setSession]
  · rw [if_pos hup]
    exact Bool.eq_false_of_not_eq_true hup

theorem close_up : ((st.close k).sessions k).up = false := freeContexts_up

theorem quiet_touches (calls : List (List Context)) : Quiet k st (st.touches k calls) := by
  unfold State.touches
  induction calls generalizing st with
  | nil => exact .refl k st
  | cons given calls ih => exact (quiet_touch _ _).trans ih

theorem quiet_secure {m : Mbedtls} {o : Options} {rounds : ℕ}
    (hst : st.secure k m o rounds = some st') : Quiet k st st' := by
  unfold State.secure at hst
  have hinit : Quiet k st (st.initContexts k) := by
    refine (quiet_touch .acquire contexts).trans ?_
    exact quiet_setSession rfl
  have hquiet := hinit.trans (quiet_touches (negotiate m o rounds).events)
  dsimp only at hst
  cases hr : (negotiate m o rounds).value with
  | none => rw [hr] at hst; cases hst
  | some r =>
    cases r with
    | error e =>
      rw [hr] at hst
      obtain rfl := Option.some.inj hst
      exact hquiet.trans quiet_close
    | ok s =>
      rw [hr] at hst
      obtain rfl := Option.some.inj hst
      refine hquiet.trans ?_
      exact quiet_setSession rfl

end Quiet

/-- The references are counted, and who has its contexts is referred to. -/
structure Counted (st : State) : Prop where
  refs : ∀ k, (st.sessions k).refs = st.clients.count (some k)
  owned : ∀ k, (st.sessions k).up = true → some k ∈ st.clients
  known : ∀ k, some k ∈ st.clients → k < st.next

section Counted

variable {st st' : State} {i j k : ℕ}

theorem client_eq (hi : i < st.clients.length) : st.client i = st.clients[i] := by
  rw [State.client, List.getElem?_eq_getElem hi]
  rfl

theorem lt_of_client (h : st.client i = some k) : i < st.clients.length := by
  by_contra hi
  rw [State.client, List.getElem?_eq_none (Nat.not_lt.mp hi)] at h
  cases h

theorem mem_of_client (h : st.client i = some k) : some k ∈ st.clients := by
  have hi := lt_of_client h
  rw [client_eq hi] at h
  exact h ▸ List.getElem_mem hi

/-- One object gives up its session, and has another. -/
theorem count_setClient (hi : i < st.clients.length) (s : Option ℕ) :
    ((st.setClient i s).clients.count (some k) : ℤ) = st.clients.count (some k) -
      (if st.client i = some k then 1 else 0) + if s = some k then 1 else 0 := by
  show ((st.clients.set i s).count (some k) : ℤ) = _
  rw [List.count_set hi, client_eq hi]
  simp only [beq_iff_eq]
  by_cases hk : st.clients[i] = some k
  · have hpos : 0 < st.clients.count (some k) := List.count_pos_iff.mpr (hk ▸ List.getElem_mem hi)
    rw [if_pos hk, if_pos hk]
    split_ifs <;> omega
  · rw [if_neg hk, if_neg hk]
    split_ifs <;> omega

theorem Counted.quiet (h : Counted st) (hq : Quiet k st st') (hk : some k ∈ st.clients) :
    Counted st' := by
  refine ⟨fun j => ?_, fun j hj => ?_, fun j hj => ?_⟩
  · rw [hq.refs, hq.clients]
    exact h.refs j
  · rw [hq.clients]
    rcases hq.up j hj with hj | rfl
    · exact h.owned j hj
    · exact hk
  · rw [hq.clients] at hj
    rw [hq.next]
    exact h.known j hj

theorem quiet_unref :
    Quiet k (st.setSession k { st.sessions k with refs := (st.sessions k).refs - 1 })
      (st.unref k) := by
  unfold State.unref
  dsimp only
  split_ifs
  · exact quiet_close
  · exact .refl k _

/-- The last reference takes the contexts along. -/
theorem unref_up (h : ((st.unref k).sessions k).up = true) : 1 < (st.sessions k).refs := by
  unfold State.unref at h
  dsimp only at h
  rw [sessions_setSession] at h
  dsimp only at h
  by_cases hlast : (st.sessions k).refs - 1 ≤ 0
  · rw [if_pos hlast, close_up] at h
    cases h
  · omega

theorem Counted.release (h : Counted st) (i : ℕ) : Counted (st.release i) := by
  unfold State.release
  cases hclient : st.client i with
  | none => exact h
  | some k =>
    dsimp only
    have hi := lt_of_client hclient
    have hq : Quiet k _ (st.unref k) := quiet_unref
    have hclients : (st.unref k).clients = st.clients := hq.clients
    have hcount : ∀ j, (((st.unref k).setClient i none).clients.count (some j) : ℤ) =
        st.clients.count (some j) - if j = k then 1 else 0 := by
      intro j
      have hset : (((st.setClient i none).clients.count (some j) : ℕ) : ℤ) = _ :=
        count_setClient hi none
      rw [hclient, if_neg (Option.some_ne_none j).symm, add_zero] at hset
      rw [State.setClient, hclients]
      refine hset.trans ?_
      simp only [Option.some.injEq, eq_comm]
    refine ⟨fun j => ?_, fun j hj => ?_, fun j hj => ?_⟩
    · rw [hcount, ← h.refs]
      refine (hq.refs j).trans ?_
      by_cases hjk : j = k
      · rw [hjk, sessions_setSession, if_pos rfl]
      · rw [sessions_setSession_of_ne _ hjk, if_neg hjk, sub_zero]
    · have hpos : (0 : ℤ) < ((st.unref k).setClient i none).clients.count (some j) := by
        rw [hcount]
        by_cases hjk : j = k
        · subst hjk
          have hrefs := unref_up hj
          rw [h.refs] at hrefs
          rw [if_pos rfl]
          omega
        · have hup : (st.sessions j).up = true := by
            rcases hq.up j hj with hup | hup
            · rwa [sessions_setSession_of_ne _ hjk] at hup
            · exact absurd hup hjk
          have hmem := List.count_pos_iff.mpr (h.owned j hup)
          rw [if_neg hjk]
          omega
      exact List.count_pos_iff.mp (by exact_mod_cast hpos)
    · rcases List.mem_or_eq_of_mem_set hj with hmem | hnone
      · rw [hclients] at hmem
        exact (h.known j hmem).trans_eq hq.next.symm
      · cases hnone

theorem client_setClient (hi : i < st.clients.length) (s : Option ℕ) :
    (st.setClient i s).client i = s := by
  rw [client_eq (by rw [State.setClient, List.length_set]; exact hi)]
  exact List.getElem_set_self _

/-- It refers to no session any more. -/
theorem client_release (hi : i < st.clients.length) : (st.release i).client i = none := by
  unfold State.release
  cases hclient : st.client i with
  | none => exact hclient
  | some k =>
    have hclients : (st.unref k).clients = st.clients := quiet_unref.clients
    exact client_setClient (by rw [hclients]; exact hi) none

theorem length_release : (st.release i).clients.length = st.clients.length := by
  unfold State.release
  cases st.client i with
  | none => rfl
  | some k =>
    have hclients : (st.unref k).clients = st.clients := quiet_unref.clients
    exact List.length_set.trans (congrArg List.length hclients)

/-- An object without a session is given one: a reference more. -/
theorem Counted.take (h : Counted st) (hi : i < st.clients.length) (hnull : st.client i = none)
    (hrefs : ∀ j, (st'.sessions j).refs = (st.sessions j).refs + if k = j then 1 else 0)
    (hup : ∀ j, (st'.sessions j).up = true → (st.sessions j).up = true)
    (hclients : st'.clients = st.clients.set i (some k)) (hnext : st.next ≤ st'.next)
    (hk : k < st'.next) : Counted st' := by
  have hcount : ∀ j, (st'.clients.count (some j) : ℤ) =
      st.clients.count (some j) + if k = j then 1 else 0 := by
    intro j
    have hset : (((st.setClient i (some k)).clients.count (some j) : ℕ) : ℤ) = _ :=
      count_setClient hi (some k)
    rw [hnull, if_neg (Option.some_ne_none j).symm, sub_zero] at hset
    rw [hclients]
    refine hset.trans ?_
    simp only [Option.some.injEq]
  refine ⟨fun j => ?_, fun j hj => ?_, fun j hj => ?_⟩
  · rw [hcount, hrefs, h.refs]
  · have hmem := List.count_pos_iff.mpr (h.owned j (hup j hj))
    have hpos : (0 : ℤ) < st'.clients.count (some j) := by
      rw [hcount]
      split_ifs <;> omega
    exact List.count_pos_iff.mp (by exact_mod_cast hpos)
  · rw [hclients] at hj
    rcases List.mem_or_eq_of_mem_set hj with hmem | heq
    · exact (h.known j hmem).trans_le hnext
    · exact Option.some.inj heq ▸ hk

theorem Counted.copyFrom (h : Counted st) (hi : i < st.clients.length) (hnull : st.client i = none)
    (j : ℕ) : Counted (st.copyFrom i j) := by
  unfold State.copyFrom
  cases hclient : st.client j with
  | none =>
    have hset : st.clients.set i none = st.clients := by
      rw [client_eq hi] at hnull
      rw [← hnull, List.set_getElem_self]
    dsimp only [State.setClient]
    rw [hset]
    exact h
  | some k =>
    show Counted ((st.setClient i (some k)).ref k)
    refine h.take hi hnull (fun l => ?_) (fun l hl => ?_) rfl le_rfl
      (h.known k (mem_of_client hclient))
    · by_cases hl : l = k
      · rw [hl, State.ref, sessions_setSession, if_pos rfl]
        rfl
      · rw [State.ref, sessions_setSession_of_ne _ hl, if_neg (Ne.symm hl), add_zero]
        rfl
    · by_cases hlk : l = k
      · rw [hlk, State.ref, sessions_setSession] at hl
        exact hlk ▸ hl
      · rw [State.ref, sessions_setSession_of_ne _ hlk] at hl
        exact hl

/-- No object has a session that was not allocated. -/
theorem Counted.refs_next (h : Counted st) : (st.sessions st.next).refs = 0 := by
  rw [h.refs, List.count_eq_zero_of_not_mem fun hin => (h.known _ hin).false]
  rfl

theorem Counted.newSession (h : Counted st) (hi : i < st.clients.length) (alloc : Bool) :
    Counted (st.newSession i alloc) := by
  have hrel := h.release i
  have hlen : (st.release i).clients.length = st.clients.length := length_release
  have hnull := client_release hi
  unfold State.newSession
  dsimp only
  generalize st.release i = t at hrel hlen hnull
  have hit : i < t.clients.length := hlen ▸ hi
  cases alloc with
  | false =>
    have hset : t.clients.set i none = t.clients := by
      rw [client_eq hit] at hnull
      rw [← hnull, List.set_getElem_self]
    rw [if_neg Bool.false_ne_true, State.setClient, hset]
    exact hrel
  | true =>
    rw [if_pos rfl]
    refine hrel.take hit hnull (fun l => ?_) (fun l hl => ?_) rfl (Nat.le_succ _)
      (Nat.lt_succ_self _)
    · by_cases hl : l = t.next
      · show (((t.setSession t.next .new).sessions l).refs : ℤ) = _
        rw [hl, sessions_setSession, hrel.refs_next, if_pos rfl]
        rfl
      · show (((t.setSession t.next .new).sessions l).refs : ℤ) = _
        rw [sessions_setSession_of_ne _ hl, if_neg (Ne.symm hl), add_zero]
    · have hl : ((t.setSession t.next .new).sessions l).up = true := hl
      by_cases hlk : l = t.next
      · rw [hlk, sessions_setSession] at hl
        cases hl
      · rwa [sessions_setSession_of_ne _ hlk] at hl

theorem Counted.add (h : Counted st) : Counted st.add := by
  have hmem : ∀ j, some j ∈ st.clients ++ [none] ↔ some j ∈ st.clients := fun j => by
    rw [List.mem_append, List.mem_singleton, or_iff_left (Option.some_ne_none j)]
  refine ⟨fun j => ?_, fun j hj => (hmem j).mpr (h.owned j hj),
    fun j hj => h.known j ((hmem j).mp hj)⟩
  show ((st.sessions j).refs : ℤ) = (st.clients ++ [none]).count (some j)
  rw [List.count_append, h.refs]
  rfl

end Counted

/-! ### One call -/

/-- What carries the result. -/
structure Sound (st : State) : Prop where
  kept : Kept st
  counted : Counted st

section Call

variable {st st' : State} {i k : ℕ}

theorem Kept.setClient (h : Kept st) (s : Option ℕ) : Kept (st.setClient i s) :=
  ⟨h.lawful, h.noted, h.held, h.up, h.unused⟩

theorem Kept.unref (h : Kept st) : Kept (st.unref k) := by
  unfold State.unref
  have hset := h.setSession (k := k) (s := { st.sessions k with refs := (st.sessions k).refs - 1 })
    rfl (h.up k)
  dsimp only
  split_ifs
  · exact hset.close
  · exact hset

theorem Kept.release (h : Kept st) (i : ℕ) : Kept (st.release i) := by
  unfold State.release
  cases st.client i with
  | none => exact h
  | some k => exact h.unref.setClient none

theorem Kept.copyFrom (h : Kept st) (i j : ℕ) : Kept (st.copyFrom i j) := by
  unfold State.copyFrom
  have hset : Kept (st.setClient i (st.client j)) := h.setClient (st.client j)
  cases hclient : st.client j with
  | none =>
    rw [hclient] at hset
    exact hset
  | some k =>
    rw [hclient] at hset
    exact hset.setSession rfl (hset.up k)

/-- A session that was not allocated has no contexts. -/
theorem Kept.down (h : Kept st) (hk : st.next ≤ k) : (st.sessions k).up = false := by
  refine Bool.eq_false_of_not_eq_true fun hup => ?_
  exact h.unused k .ssl hk ((h.held k .ssl).mpr hup).1

theorem Kept.newSession (h : Kept st) (i : ℕ) (alloc : Bool) : Kept (st.newSession i alloc) := by
  have hrel := h.release i
  unfold State.newSession
  dsimp only
  split_ifs
  · have hset := hrel.setSession (k := (st.release i).next) (s := .new) (hrel.down le_rfl).symm
      fun hf => Bool.noConfusion hf
    exact ⟨hset.lawful, hset.noted, hset.held, hset.up,
      fun k c hk => hset.unused k c (Nat.le_of_succ_le hk)⟩
  · exact hrel.setClient none

theorem Kept.stop (h : Kept st) (i : ℕ) : Kept (st.stop i) := by
  unfold State.stop
  cases st.client i with
  | none => exact h
  | some k => exact h.close

/-- A call through an object with session `k`. -/
structure Served (k : ℕ) (st st' : State) : Prop where
  kept : Kept st'
  quiet : Quiet k st st'

theorem Served.refl (h : Kept st) : Served k st st := ⟨h, .refl k st⟩

theorem Served.trans {st'' : State} (h : Served k st st') (h' : Served k st' st'') :
    Served k st st'' := ⟨h'.kept, h.quiet.trans h'.quiet⟩

theorem Sound.served (h : Sound st) (hclient : st.client i = some k) (hs : Served k st st') :
    Sound st' := ⟨hs.kept, h.counted.quiet hs.quiet (mem_of_client hclient)⟩

theorem Kept.served_use (h : Kept st) (hup : (st.sessions k).up = true) (given : List Context) :
    Served k st (st.touch k .use given) := ⟨h.use hup given, quiet_touch _ _⟩

theorem Kept.served_lose (h : Kept st) : Served k st (st.lose k) := ⟨h.lose, quiet_setSession rfl⟩

theorem Kept.served_writeLoop {m : Mbedtls} {size : ℕ} (rets : List (ℤ × Bool)) (sent : ℕ)
    (h : Kept st) (hup : (st.sessions k).up = true) :
    Served k st (writeLoop m k size rets sent st) := by
  induction rets generalizing sent st with
  | nil => exact .refl h
  | cons r rets ih =>
    obtain ⟨ret, late⟩ := r
    unfold writeLoop
    have huse := h.served_use hup [.ssl]
    split_ifs with hmore hsent hwanted hlate
    · exact huse.trans (ih _ huse.kept hup)
    · exact huse
    · exact huse.trans (ih _ huse.kept hup)
    · exact huse.trans huse.kept.served_lose
    · exact .refl h

theorem Sound.write (h : Sound st) (i : ℕ) (m : Mbedtls) (size : ℕ) (rets : List (ℤ × Bool)) :
    Sound (st.write i m size rets) := by
  unfold State.write
  cases hclient : st.client i with
  | none => exact h
  | some k =>
    dsimp only
    split_ifs with hstop
    · exact h
    · have hc := not_not.mp (not_or.mp hstop).1
      exact h.served hclient (h.kept.served_writeLoop rets 0 (h.kept.up k hc))

theorem Sound.available (h : Sound st) (hcareful : st.Usable i) (m : Mbedtls) (n : ℕ) (ret : ℤ) :
    Sound (st.available i m n ret) := by
  unfold State.available
  cases hclient : st.client i with
  | none => exact h
  | some k =>
    have hup := hcareful k hclient
    have huse := h.kept.served_use hup [.ssl]
    have huse' := huse.trans (huse.kept.served_use hup [.ssl])
    refine h.served hclient ?_
    dsimp only
    split_ifs with hn hc hlost
    · exact huse
    · exact huse'.trans huse'.kept.served_lose
    · exact huse'.trans (huse'.kept.served_use hup [.ssl])
    · exact huse

theorem Sound.read (h : Sound st) {size : ℕ} (hcareful : size ≠ 0 → st.Usable i) (m : Mbedtls)
    (n : ℕ) (ret : ℤ) : Sound (st.read i m size n ret) := by
  unfold State.read
  cases hclient : st.client i with
  | none => exact h
  | some k =>
    dsimp only
    by_cases hsize : size = 0
    · rw [if_pos hsize]
      exact h
    rw [if_neg hsize]
    refine h.served hclient ?_
    have hup := hcareful hsize k hclient
    have hpeek : Served k st (if ¬ (st.sessions k).connected = true then st.touch k .use [.ssl]
        else st) := by
      split_ifs
      · exact .refl h.kept
      · exact h.kept.served_use hup [.ssl]
    have hup' : ((if ¬ (st.sessions k).connected = true then st.touch k .use [.ssl]
        else st).sessions k).up = true := by
      split_ifs
      · exact hup
      · exact hup
    generalize (if ¬ (st.sessions k).connected = true then st.touch k .use [.ssl] else st) = t
      at hpeek hup' ⊢
    have huse := hpeek.trans (hpeek.kept.served_use hup' [.ssl])
    split_ifs with hover hgood
    · exact hpeek
    · exact huse
    · exact huse.trans huse.kept.served_lose

theorem Sound.connected (h : Sound st) (i : ℕ) : Sound (st.connected i) := by
  unfold State.connected
  cases hclient : st.client i with
  | none => exact h
  | some k =>
    dsimp only
    by_cases hc : (st.sessions k).connected = true
    · rw [if_neg (not_not.mpr hc)]
      exact h.served hclient (h.kept.served_use (h.kept.up k hc) [.ssl])
    · rw [if_pos hc]
      exact h

theorem Sound.stop (h : Sound st) (i : ℕ) : Sound (st.stop i) := by
  unfold State.stop
  cases hclient : st.client i with
  | none => exact h
  | some k => exact h.served hclient ⟨h.kept.close, quiet_close⟩

theorem length_stop : (st.stop i).clients.length = st.clients.length := by
  unfold State.stop
  cases st.client i with
  | none => rfl
  | some k => exact congrArg List.length quiet_close.clients

/-- The session that `newSession` has allocated never had any contexts. -/
theorem Kept.unused_newSession (h : Kept st) (hi : i < st.clients.length) {alloc : Bool}
    (hclient : (st.newSession i alloc).client i = some k) :
    ∀ c, ⟨.acquire, (k, c)⟩ ∉ (st.newSession i alloc).entries := by
  have hrel := h.release i
  have hit : i < (st.release i).clients.length := length_release.symm ▸ hi
  unfold State.newSession at hclient ⊢
  dsimp only at hclient ⊢
  cases alloc with
  | false =>
    rw [if_neg Bool.false_ne_true, client_setClient hit] at hclient
    cases hclient
  | true =>
    rw [if_pos rfl] at hclient ⊢
    have hk : some (st.release i).next = some k := (client_setClient hit _).symm.trans hclient
    obtain rfl := Option.some.inj hk
    exact fun c => hrel.unused _ c le_rfl

theorem Sound.connect (h : Sound st) (hi : i < st.clients.length) {alloc tcp : Bool} {m : Mbedtls}
    {c : EthernetClientSecure} {host : Option String} {rounds : ℕ}
    (hst : st.connect i alloc tcp m c host rounds = some st') : Sound st' := by
  have hstop := h.stop i
  have hi' : i < (st.stop i).clients.length := length_stop.symm ▸ hi
  have hnew : Sound ((st.stop i).newSession i alloc) :=
    ⟨hstop.kept.newSession i alloc, hstop.counted.newSession hi' alloc⟩
  unfold State.connect at hst
  dsimp only at hst
  cases hclient : ((st.stop i).newSession i alloc).client i with
  | none =>
    rw [hclient] at hst
    exact Option.some.inj hst ▸ hnew
  | some k =>
    rw [hclient] at hst
    dsimp only at hst
    split_ifs at hst with htcp
    · have hunused := hstop.kept.unused_newSession hi' hclient
      have hk := hnew.counted.known k (mem_of_client hclient)
      exact hnew.served hclient ⟨hnew.kept.secure hunused hk hst, quiet_secure hst⟩
    · exact Option.some.inj hst ▸ hnew

theorem Sound.assign (h : Sound st) (hi : i < st.clients.length) (j : ℕ) :
    Sound (st.assign i j) := by
  unfold State.assign
  split_ifs with hij
  · exact h
  · have hit : i < (st.release i).clients.length := length_release.symm ▸ hi
    exact ⟨(h.kept.release i).copyFrom i j,
      (h.counted.release i).copyFrom hit (client_release hi) j⟩

theorem Sound.copy (h : Sound st) (j : ℕ) : Sound (st.add.copyFrom st.clients.length j) := by
  have hkept : Kept st.add := ⟨h.kept.lawful, h.kept.noted, h.kept.held, h.kept.up, h.kept.unused⟩
  have hlen : st.clients.length < st.add.clients.length := by
    rw [State.add, List.length_append]
    exact Nat.lt_succ_self _
  have hnull : st.add.client st.clients.length = none := by
    rw [client_eq hlen]
    exact List.getElem_concat_length rfl _
  exact ⟨hkept.copyFrom _ j, h.counted.add.copyFrom hlen hnull j⟩

end Call

/-! ### Runs -/

open Machine

variable {st st' : State} {a : Action}

theorem sound_empty : Sound .empty := by
  refine ⟨⟨lawful_nil, ?_, fun k c => ?_, fun k => ?_, ?_⟩, fun k => rfl, fun k hup => ?_, ?_⟩
  · exact fun n hn => absurd hn List.not_mem_nil
  · exact iff_of_false (fun hheld => absurd hheld.1 List.not_mem_nil) Bool.false_ne_true
  · exact fun hc => Bool.noConfusion hc
  · exact fun k c _ hin => absurd hin List.not_mem_nil
  · exact Bool.noConfusion hup
  · exact fun k hk => absurd hk List.not_mem_nil

/-- **Step lemma**. -/
theorem Sound.step (h : Sound st) (hcareful : careful st a) (hst : machine.step st a = some st') :
    Sound st' := by
  simp only [machine] at hst
  split_ifs at hst with hobjects
  cases a with
  | new =>
    obtain rfl := Option.some.inj hst
    exact ⟨⟨h.kept.lawful, h.kept.noted, h.kept.held, h.kept.up, h.kept.unused⟩, h.counted.add⟩
  | copy j =>
    obtain rfl := Option.some.inj hst
    exact h.copy j
  | assign i j =>
    obtain rfl := Option.some.inj hst
    exact h.assign (hobjects i List.mem_cons_self) j
  | destroy i =>
    obtain rfl := Option.some.inj hst
    exact ⟨h.kept.release i, h.counted.release i⟩
  | connect i alloc tcp m c host rounds => exact h.connect (hobjects i List.mem_cons_self) hst
  | write i m size rets =>
    obtain rfl := Option.some.inj hst
    exact h.write i m size rets
  | available i m n ret =>
    obtain rfl := Option.some.inj hst
    exact h.available hcareful m n ret
  | read i m size n ret =>
    obtain rfl := Option.some.inj hst
    exact h.read hcareful m n ret
  | connected i =>
    obtain rfl := Option.some.inj hst
    exact h.connected i
  | stop i =>
    obtain rfl := Option.some.inj hst
    exact h.stop i

/-- **Run lemma**. -/
theorem sound_of_run (h : machine.Reachable careful st) : Sound st := by
  refine invariant (fun s hs => ?_) (fun _ _ _ hs hG hst => hs.step hG hst) h
  obtain rfl : s = .empty := hs
  exact sound_empty

/-- What is promised of a run. -/
structure Freed (st : State) : Prop where
  /-- Only contexts that were initialised, and were not freed, are used or freed. -/
  lawful : Lawful st.entries
  /-- With `_up`. -/
  noted : ∀ n ∈ st.ledger, n.entry.deed ≠ .acquire → n.up = true
  /-- What was initialised is freed once, -/
  once : ∀ k c, ⟨.acquire, (k, c)⟩ ∈ st.entries →
    st.entries.count ⟨.release, (k, c)⟩ = if (st.sessions k).up then 0 else 1
  /-- or an object has it. -/
  owned : ∀ k, (st.sessions k).up = true → some k ∈ st.clients

/-- **The contexts of a session are used while they are up, and freed once**: in every run of
`connect`, `write`, `available`, `read`, `connected` and `stop` on any objects and their copies,
whatever mbedTLS and the transport answer, whose calls of `available` and `read` are `careful`. -/
theorem freed_of_reachable (h : machine.Reachable careful st) : Freed st := by
  obtain ⟨hkept, hcounted⟩ := sound_of_run h
  refine ⟨hkept.lawful, hkept.noted, fun k c hacq => ?_, hcounted.owned⟩
  rcases hkept.lawful.count_release hacq with ⟨hcount, hheld⟩ | ⟨hcount, hheld⟩
  · rw [if_pos ((hkept.held k c).mp hheld), hcount]
  · rw [if_neg fun hup => hheld ((hkept.held k c).mpr hup), hcount]

/-! ### Calls that are not careful -/

theorem mem_touch_self {k : ℕ} {d : Deed} {given : List Context} {c : Context} (hc : c ∈ given) :
    ⟨⟨d, (k, c)⟩, (st.sessions k).up⟩ ∈ (st.touch k d given).ledger :=
  List.mem_append_right _ (List.mem_map_of_mem hc)

theorem mem_ledger_touch {k : ℕ} {d : Deed} {given : List Context} {n : Note} (hn : n ∈ st.ledger) :
    n ∈ (st.touch k d given).ledger := List.mem_append_left _ hn

/-- The first thing that `available` does is a call of mbedTLS. -/
theorem mem_available {i k n : ℕ} {m : Mbedtls} {ret : ℤ} (hclient : st.client i = some k) :
    ⟨⟨.use, (k, .ssl)⟩, (st.sessions k).up⟩ ∈ (st.available i m n ret).ledger := by
  unfold State.available
  rw [hclient]
  dsimp only
  have hfirst : ⟨⟨.use, (k, .ssl)⟩, (st.sessions k).up⟩ ∈ (st.touch k .use [.ssl]).ledger :=
    mem_touch_self List.mem_cons_self
  split_ifs
  · exact hfirst
  · exact mem_ledger_touch hfirst
  · exact mem_ledger_touch (mem_ledger_touch hfirst)
  · exact hfirst

/-- So it is with `read` when the connection is over. -/
theorem mem_read {i k size n : ℕ} {m : Mbedtls} {ret : ℤ} (hclient : st.client i = some k)
    (hsize : size ≠ 0) (hc : (st.sessions k).connected = false) :
    ⟨⟨.use, (k, .ssl)⟩, (st.sessions k).up⟩ ∈ (st.read i m size n ret).ledger := by
  unfold State.read
  rw [hclient]
  dsimp only
  have hfirst : ⟨⟨.use, (k, .ssl)⟩, (st.sessions k).up⟩ ∈ (st.touch k .use [.ssl]).ledger :=
    mem_touch_self List.mem_cons_self
  have hclosed : ¬ (st.sessions k).connected = true := fun h => Bool.noConfusion (hc.symm.trans h)
  rw [if_neg hsize, if_pos hclosed]
  by_cases hn : n = 0
  · rw [if_pos ⟨hclosed, hn⟩]
    exact hfirst
  rw [if_neg fun h => hn h.2]
  split_ifs
  · exact mem_ledger_touch hfirst
  · exact mem_ledger_touch hfirst

/-- **No other call is missing from `careful`**: one that is not careful breaks the promise. -/
theorem not_freed_of_not_careful (h : machine.Reachable careful st) (ha : ¬ careful st a)
    (hst : machine.step st a = some st') : ¬ Freed st' := by
  intro hfreed
  have hdown : ∀ i, ¬ st.Usable i → ∃ k, st.client i = some k ∧ (st.sessions k).up = false := by
    intro i hi
    unfold State.Usable at hi
    push Not at hi
    obtain ⟨k, hclient, hup⟩ := hi
    exact ⟨k, hclient, Bool.eq_false_of_not_eq_true hup⟩
  simp only [machine] at hst
  split_ifs at hst
  cases a with
  | available i m n ret =>
    obtain rfl := Option.some.inj hst
    obtain ⟨k, hclient, hup⟩ := hdown i ha
    have hnoted := hfreed.noted _ (mem_available hclient) Deed.noConfusion
    exact Bool.noConfusion (hup.symm.trans hnoted)
  | read i m size n ret =>
    obtain rfl := Option.some.inj hst
    obtain ⟨hsize, hi⟩ := Classical.not_imp.mp ha
    obtain ⟨k, hclient, hup⟩ := hdown i hi
    have hc : (st.sessions k).connected = false := by
      refine Bool.eq_false_of_not_eq_true fun hc => ?_
      exact Bool.noConfusion (hup.symm.trans ((sound_of_run h).kept.up k hc))
    have hnoted := hfreed.noted _ (mem_read hclient hsize hc) Deed.noConfusion
    exact Bool.noConfusion (hup.symm.trans hnoted)
  | _ => exact ha trivial

/-! A client that trusts everyone, and connects by address. -/

def visitor : EthernetClientSecure := EthernetClientSecure.new.setInsecure

/-- It connects, is copied, reads, and the copy is stopped. -/
def visit : List Action :=
  [.new, .connect 0 true true (agreeable false) visitor none 1, .copy 0,
    .write 0 (agreeable false) 3 [(3, false)], .available 1 (agreeable false) 5 0,
    .read 0 (agreeable false) 5 5 5, .stop 1, .connected 0, .destroy 0, .destroy 1]

instance (st : State) (i : ℕ) : Decidable (st.Usable i) :=
  decidable_of_iff ((st.client i).all (fun k => (st.sessions k).up) = true) (by
    cases hclient : st.client i with
    | none => simp [State.Usable, hclient]
    | some k => simp [State.Usable, hclient])

instance (st : State) : (a : Action) → Decidable (careful st a)
  | .new | .copy _ | .assign _ _ | .destroy _ | .connect .. | .write .. | .connected _ | .stop _ =>
    inferInstanceAs (Decidable True)
  | .available i _ _ _ => inferInstanceAs (Decidable (st.Usable i))
  | .read i _ size _ _ => inferInstanceAs (Decidable (size ≠ 0 → st.Usable i))

theorem freed_of_reachable_visit : ∃ st, machine.run careful .empty visit = some st ∧
    ⟨.acquire, (0, .key)⟩ ∈ st.entries ∧ Freed st := by
  have hrun : ((machine.run careful .empty visit).map fun st =>
      decide (⟨.acquire, (0, .key)⟩ ∈ st.entries)) = some true := by decide +kernel
  obtain ⟨st, hst, hentries⟩ := Option.map_eq_some_iff.mp hrun
  exact ⟨st, hst, of_decide_eq_true hentries, freed_of_reachable (reachable_of_run (.init rfl) hst)⟩

/-- **A connection that the transport refuses**: `available` asks mbedTLS about a context that was
never initialised. -/
theorem not_freed_of_reachable : ¬ ∀ st, machine.Reachable anyStep st → Freed st := by
  intro hall
  have hrun : ((machine.run anyStep .empty [.new, .connect 0 true false (agreeable false) visitor
      none 1, .available 0 (agreeable false) 0 0]).map fun st =>
        st.ledger.any fun n => decide (n.entry.deed = .use ∧ n.up = false)) = some true := by
    decide +kernel
  obtain ⟨st, hst, hany⟩ := Option.map_eq_some_iff.mp hrun
  obtain ⟨n, hn, hbad⟩ := List.any_eq_true.mp hany
  obtain ⟨huse, hup⟩ := of_decide_eq_true hbad
  have hnoted := (hall st (reachable_of_run (.init rfl) hst)).noted n hn
    (by rw [huse]; exact Deed.noConfusion)
  exact Bool.noConfusion (hup.symm.trans hnoted)

end Ch32h4.Tls.Lifecycle
