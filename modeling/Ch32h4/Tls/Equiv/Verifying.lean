import Ch32h4.Tls.Session

/-!
# What a successful handshake has verified

`verified_iff`: whatever mbedTLS answers, a handshake that succeeds has verified the peer as its
options ask for, exactly when they are no pair of a server that is to require a certificate but has
no CA to check it with, and, in a build that lets a client do without one, when a client that
verifies has a name to look for.

The options are decided upon in `bringUp`, so the proof reads back from a session what each of its
parts has done; for the converse, `agreeable` is an mbedTLS that refuses nothing it may accept.
-/

namespace Ch32h4.Tls

variable {m : Mbedtls} {o : Options} {s : Session} {rounds : ℕ}

/-! ### Reading a handshake backwards -/

theorem of_bind {α β : Type} {x : Except Failure α} {f : α → Except Failure β} {b : β}
    (h : x >>= f = .ok b) : ∃ a, x = .ok a ∧ f a = .ok b := by
  cases x with
  | error e => cases h
  | ok a => exact ⟨a, rfl, h⟩

theorem of_check {α : Type} {ret : ℤ} {f : Unit → Except Failure α} {a : α}
    (h : check ret >>= f = .ok a) : ret = 0 ∧ f () = .ok a := by
  obtain ⟨u, hcheck, hf⟩ := of_bind h
  unfold check at hcheck
  split_ifs at hcheck with hret
  exact ⟨Decidable.not_not.mp hret, hf⟩

theorem of_requireChain {conf conf' : Conf} {pem : String}
    (h : requireChain m conf pem = .ok conf') :
    conf' = { conf with ca := some (.chain pem), authmode := .required } := by
  obtain ⟨-, hreturn⟩ := of_check h
  exact (Except.ok.inj hreturn).symm

/-- A client that is not insecure requires a certificate. -/
theorem of_authenticate_client {conf conf' : Conf} (hserver : o.server = false)
    (hinsecure : o.insecure = false) (h : authenticate m o conf = .ok conf') :
    conf' = { conf with ca := some (o.ca_pem.elim .store .chain), authmode := .required } := by
  unfold authenticate at h
  rw [hserver, hinsecure, if_neg nofun, if_neg nofun] at h
  cases hpem : o.ca_pem with
  | some pem =>
    rw [hpem] at h
    exact of_requireChain h
  | none =>
    rw [hpem] at h
    dsimp only at h
    split_ifs at h
    exact (Except.ok.inj h).symm

/-- A server requires one, if it has a CA. -/
theorem of_authenticate_server {conf conf' : Conf} (hserver : o.server = true)
    (hrequire : o.require_client_cert = true) {pem : String} (hpem : o.ca_pem = some pem)
    (h : authenticate m o conf = .ok conf') :
    conf' = { conf with ca := some (.chain pem), authmode := .required } := by
  unfold authenticate at h
  rw [hserver, hrequire, hpem, if_pos rfl] at h
  exact of_requireChain h

/-- The own certificate has nothing to do with the verification of the peer; a server needs one. -/
theorem of_ownCertificate {conf conf' : Conf} (h : ownCertificate m o conf = .ok conf') :
    (conf'.server, conf'.authmode, conf'.ca) = (conf.server, conf.authmode, conf.ca) ∧
      (o.server = true → o.cert_pem ≠ none ∧ o.key_pem ≠ none) := by
  unfold ownCertificate at h
  cases hcert : o.cert_pem with
  | none =>
    rw [hcert] at h
    dsimp only at h
    split_ifs at h with hserver
    rw [← Except.ok.inj h]
    exact ⟨rfl, fun htrue => absurd htrue hserver⟩
  | some cert =>
    cases hkey : o.key_pem with
    | none =>
      rw [hcert, hkey] at h
      dsimp only at h
      split_ifs at h with hserver
      rw [← Except.ok.inj h]
      exact ⟨rfl, fun htrue => absurd htrue hserver⟩
    | some key =>
      rw [hcert, hkey] at h
      obtain ⟨-, h⟩ := of_check h
      obtain ⟨-, h⟩ := of_check h
      obtain ⟨-, h⟩ := of_check h
      rw [← Except.ok.inj h]
      exact ⟨rfl, fun _ => ⟨nofun, nofun⟩⟩

/-- A name is armed only on a client, and only if there is one. -/
theorem of_setHostname {hostname : Option String} (h : setHostname m o = .ok hostname) :
    (∃ name, name ≠ "" ∧ o.server = false ∧ o.hostname = some name ∧ hostname = some name) ∨
      (hostname = none ∧ (o.server = false → o.hostname = none ∨ o.hostname = some "")) := by
  unfold setHostname at h
  cases hname : o.hostname with
  | none =>
    rw [hname] at h
    exact .inr ⟨(Except.ok.inj h).symm, fun _ => .inl rfl⟩
  | some name =>
    rw [hname] at h
    dsimp only at h
    split_ifs at h with hclient
    · obtain ⟨-, h⟩ := of_check h
      exact .inl ⟨name, hclient.2, Bool.eq_false_iff.mpr hclient.1, rfl, (Except.ok.inj h).symm⟩
    · refine .inr ⟨(Except.ok.inj h).symm, fun hserver => .inr ?_⟩
      by_contra hne
      exact hclient ⟨Bool.eq_false_iff.mp hserver, fun heq => hne (heq ▸ rfl)⟩

/-- What `bringUp` has gone through. -/
theorem of_bringUp (h : bringUp m o = .ok s) :
    ∃ conf, authenticate m o (Conf.defaults o.server) = .ok conf ∧
      ownCertificate m o conf = .ok s.conf ∧ setHostname m o = .ok s.hostname ∧
      s.verify_flags = 0 := by
  unfold bringUp at h
  split_ifs at h with hsrv
  obtain ⟨-, h⟩ := of_check h
  obtain ⟨-, h⟩ := of_check h
  obtain ⟨conf, hauthenticate, h⟩ := of_bind h
  obtain ⟨conf', hown, h⟩ := of_bind h
  obtain ⟨-, h⟩ := of_check h
  obtain ⟨hostname, hset, h⟩ := of_bind h
  rw [← Except.ok.inj h]
  exact ⟨conf, hauthenticate, hown, hset, rfl⟩

/-- A loop that ends well has seen mbedTLS succeed. -/
theorem of_handshakeLoop {timeout_ms : ℕ} {k : ℕ}
    (h : handshakeLoop m s timeout_ms rounds k = some (.ok ())) : ∃ k, m.handshake s k = 0 := by
  induction rounds generalizing k with
  | zero => cases h
  | succ rounds ih =>
    rw [handshakeLoop] at h
    split_ifs at h with hret hfatal hlate
    · exact ⟨k, hret⟩
    · cases Option.some.inj h
    · cases Option.some.inj h
    · exact ih h

theorem of_handshake (h : handshake m o rounds = some (.ok s)) :
    ∃ s₀ k, bringUp m o = .ok s₀ ∧ m.handshake s₀ k = 0 ∧ verify m o s₀ = .ok s := by
  unfold handshake at h
  cases hup : bringUp m o with
  | error e =>
    rw [hup] at h
    cases h
  | ok s₀ =>
    rw [hup] at h
    dsimp only at h
    cases hloop : handshakeLoop m s₀ o.timeout_ms rounds 0 with
    | none =>
      rw [hloop] at h
      cases h
    | some r =>
      rw [hloop] at h
      cases r with
      | error e => cases h
      | ok u =>
        obtain ⟨k, hk⟩ := of_handshakeLoop hloop
        exact ⟨s₀, k, rfl, hk, Option.some.inj h⟩

theorem of_verify {s₀ : Session} (h : verify m o s₀ = .ok s) :
    s = { s₀ with verify_flags := m.get_verify_result s₀ } ∧
      (o.server = false → o.insecure = false → m.get_verify_result s₀ = 0) := by
  unfold verify at h
  dsimp only at h
  split_ifs at h with hflags
  refine ⟨(Except.ok.inj h).symm, fun hserver hinsecure => ?_⟩
  by_contra hne
  exact hflags ⟨Bool.eq_false_iff.mp hserver, Bool.eq_false_iff.mp hinsecure, hne⟩

/-- **The loop ends**, once the time is up. -/
theorem handshake_returns (hlate : m.elapsed rounds > o.timeout_ms) :
    ∃ r, handshake m o (rounds + 1) = some r := by
  have hloop (s : Session) (n k : ℕ) (hlate : m.elapsed (n + k) > o.timeout_ms) :
      ∃ r, handshakeLoop m s o.timeout_ms (n + 1) k = some r := by
    induction n generalizing k with
    | zero =>
      rw [handshakeLoop]
      rw [Nat.zero_add] at hlate
      split_ifs
      · exact ⟨_, rfl⟩
      · exact ⟨_, rfl⟩
      · exact ⟨_, rfl⟩
    | succ n ih =>
      rw [handshakeLoop]
      split_ifs
      · exact ⟨_, rfl⟩
      · exact ⟨_, rfl⟩
      · exact ⟨_, rfl⟩
      · exact ih (k + 1) (by rwa [show n + (k + 1) = n + 1 + k by omega])
  unfold handshake
  cases bringUp m o with
  | error e => exact ⟨_, rfl⟩
  | ok s =>
    obtain ⟨r, hr⟩ := hloop s rounds 0 hlate
    dsimp only
    rw [hr]
    cases r with
    | error e => exact ⟨_, rfl⟩
    | ok u => exact ⟨_, rfl⟩

/-! ### What was verified -/

/-- The peer was verified as the options ask for. -/
structure Verified (m : Mbedtls) (o : Options) (s : Session) : Prop where
  /-- mbedTLS has completed the handshake of this session. -/
  completed : ∃ k, m.handshake { s with verify_flags := 0 } k = 0
  /-- A client has required a certificate for a name, from the CA or the compiled-in store. -/
  client : o.server = false → o.insecure = false →
    s.conf.authmode = .required ∧ s.conf.ca = some (o.ca_pem.elim .store .chain) ∧
      s.verify_flags = 0 ∧ ∃ name, name ≠ "" ∧ o.hostname = some name ∧ s.hostname = some name
  /-- A server has required one from its CA. -/
  server : o.server = true → o.require_client_cert = true →
    s.conf.authmode = .required ∧ ∃ pem, o.ca_pem = some pem ∧ s.conf.ca = some (.chain pem)

/-- A server that has its own certificate is to require one, and has nothing to check it with. -/
def Unchecked (o : Options) : Prop :=
  o.server = true ∧ o.require_client_cert = true ∧ o.ca_pem = none ∧ o.cert_pem ≠ none ∧
    o.key_pem ≠ none

/-- A client is to verify the server, and has no name to look for. -/
def Nameless (o : Options) : Prop :=
  o.server = false ∧ o.insecure = false ∧ (o.hostname = none ∨ o.hostname = some "")

/-- A handshake that succeeds has verified the peer, but for those options. -/
theorem verified_of_handshake (hm : m.Documented) (hchecked : ¬ Unchecked o)
    (hnamed : m.weak = true → ¬ Nameless o) (h : handshake m o rounds = some (.ok s)) :
    Verified m o s := by
  obtain ⟨s₀, k, hup, hk, hverify⟩ := of_handshake h
  obtain ⟨conf, hauthenticate, hown, hset, hzero⟩ := of_bringUp hup
  obtain ⟨hconf, hcert⟩ := of_ownCertificate hown
  obtain ⟨rfl, hflags⟩ := of_verify hverify
  simp only [Prod.mk.injEq] at hconf
  obtain ⟨hside, hauth, hca⟩ := hconf
  refine ⟨⟨k, ?_⟩, fun hserver hinsecure => ?_, fun hserver hrequire => ?_⟩
  · rw [← hzero]
    exact hk
  · have hconf := of_authenticate_client hserver hinsecure hauthenticate
    rw [hconf] at hside hauth hca
    refine ⟨hauth, hca, hflags hserver hinsecure, ?_⟩
    obtain ⟨name, hne, -, hname, harmed⟩ | ⟨hnone, hempty⟩ := of_setHostname hset
    · exact ⟨name, hne, hname, harmed⟩
    · exfalso
      have hnameless : Nameless o := ⟨hserver, hinsecure, hempty hserver⟩
      cases hweak : m.weak with
      | true => exact hnamed hweak hnameless
      | false => exact hm hweak s₀ k (hside.trans hserver) hauth hnone hk
  · cases hpem : o.ca_pem with
    | none =>
      obtain ⟨hcert, hkey⟩ := hcert hserver
      exact absurd ⟨hserver, hrequire, hpem, hcert, hkey⟩ hchecked
    | some pem =>
      have hconf := of_authenticate_server hserver hrequire hpem hauthenticate
      rw [hconf] at hauth hca
      exact ⟨hauth, pem, rfl, hca⟩

/-! ### An mbedTLS that accepts what it may -/

/-- It refuses only a client that is to verify a server without a name, unless it is built so. -/
def agreeable (weak : Bool) : Mbedtls where
  srv := true
  weak := weak
  want_read := -0x6900
  want_write := -0x6880
  ca_root_count := 1
  ctr_drbg_seed := 0
  config_defaults := 0
  crt_parse _ := 0
  pk_parse_key _ := 0
  conf_own_cert _ _ := 0
  setup := 0
  set_hostname _ := 0
  handshake s _ :=
    if weak = false ∧ s.conf.server = false ∧ s.conf.authmode = .required ∧ s.hostname = none
      then -0x5D80 else 0
  get_verify_result _ := 0
  elapsed := id

theorem documented_agreeable (weak : Bool) : (agreeable weak).Documented := by
  intro hweak s k hserver hauth hname hzero
  have hrefused : (agreeable weak).handshake s k = -0x5D80 := if_pos ⟨hweak, hserver, hauth, hname⟩
  rw [hrefused] at hzero
  cases hzero

/-- A server without a CA that goes through with it. -/
theorem handshake_unchecked (weak : Bool) (h : Unchecked o) :
    ∃ s, handshake (agreeable weak) o 1 = some (.ok s) ∧ s.conf.authmode = .none := by
  obtain ⟨server, hostname, ca_pem, cert_pem, key_pem, insecure, require, timeout_ms⟩ := o
  obtain ⟨rfl, rfl, rfl, hcert, hkey⟩ := h
  obtain ⟨cert, rfl⟩ := Option.ne_none_iff_exists'.mp hcert
  obtain ⟨key, rfl⟩ := Option.ne_none_iff_exists'.mp hkey
  cases weak <;> cases hostname <;> exact ⟨_, rfl, rfl⟩

/-- A client without a name that goes through with it. -/
theorem handshake_nameless (h : Nameless o) :
    ∃ s, handshake (agreeable true) o 1 = some (.ok s) ∧ s.hostname = none := by
  obtain ⟨server, hostname, ca_pem, cert_pem, key_pem, insecure, require, timeout_ms⟩ := o
  obtain ⟨rfl, rfl, hname⟩ := h
  cases ca_pem <;> cases cert_pem <;> cases key_pem <;> obtain rfl | rfl := hname <;>
    exact ⟨_, rfl, rfl⟩

/-- **Verification cannot be skipped**, whatever mbedTLS answers, exactly when a server that is to
require a certificate has a CA, and a client that is to verify one has a name or an mbedTLS that
insists on it. -/
theorem verified_iff (weak : Bool) (o : Options) :
    (∀ (m : Mbedtls) (rounds : ℕ) (s : Session), m.Documented → m.weak = weak →
      handshake m o rounds = some (.ok s) → Verified m o s) ↔
    ¬ Unchecked o ∧ (weak = true → ¬ Nameless o) := by
  constructor
  · intro hall
    refine ⟨fun hunchecked => ?_, fun hweak hnameless => ?_⟩
    · obtain ⟨s, hs, hauth⟩ := handshake_unchecked weak hunchecked
      have hverified := hall (agreeable weak) 1 s (documented_agreeable weak) rfl hs
      have hrequired := (hverified.server hunchecked.1 hunchecked.2.1).1
      rw [hauth] at hrequired
      cases hrequired
    · subst hweak
      obtain ⟨s, hs, hname⟩ := handshake_nameless hnameless
      have hverified := hall (agreeable true) 1 s (documented_agreeable true) rfl hs
      obtain ⟨-, -, -, name, -, -, harmed⟩ := hverified.client hnameless.1 hnameless.2.1
      rw [hname] at harmed
      cases harmed
  · rintro ⟨hchecked, hnamed⟩ m rounds s hm rfl h
    exact verified_of_handshake hm hchecked hnamed h

/-- A server that is to require a certificate accepts a peer that has shown none. -/
theorem not_verified_of_handshake :
    ¬ ∀ (m : Mbedtls) (o : Options) (rounds : ℕ) (s : Session), m.Documented → m.weak = false →
      handshake m o rounds = some (.ok s) → Verified m o s := by
  intro hall
  have hunchecked : Unchecked ⟨true, none, none, some "cert", some "key", false, true, 10000⟩ :=
    ⟨rfl, rfl, rfl, nofun, nofun⟩
  obtain ⟨s, hs, hauth⟩ := handshake_unchecked false hunchecked
  have hverified := hall _ _ 1 s (documented_agreeable false) rfl hs
  have hrequired := (hverified.server rfl rfl).1
  rw [hauth] at hrequired
  cases hrequired

/-! ### Clients and servers -/

/-- **`connect(host, port)`** verifies the server, in any build. -/
theorem verified_of_connect (c : EthernetClientSecure) {host : String} (hm : m.Documented)
    (hhost : host ≠ "") (hname : c.hostname ≠ some "")
    (h : handshake m (c.options (some host)) rounds = some (.ok s)) :
    Verified m (c.options (some host)) s := by
  refine verified_of_handshake hm (fun hunchecked => ?_) (fun _ hnameless => ?_) h
  · cases hunchecked.1
  · obtain ⟨-, -, hnone | hempty⟩ := hnameless
    · replace hnone : c.hostname.or (some host) = none := hnone
      cases hhostname : c.hostname with
      | none =>
        rw [hhostname] at hnone
        cases hnone
      | some name =>
        rw [hhostname] at hnone
        cases hnone
    · replace hempty : c.hostname.or (some host) = some "" := hempty
      cases hhostname : c.hostname with
      | none =>
        rw [hhostname] at hempty
        exact hhost (Option.some.inj hempty)
      | some name =>
        rw [hhostname] at hempty
        exact hname (hhostname.trans hempty)

/-- **`accept`** verifies the client, if there is a CA for it. -/
theorem verified_of_accept (server : EthernetServerSecure) (hm : m.Documented)
    (hca : server.require_client_cert = true → server.client_ca_pem ≠ none)
    (h : server.accept m rounds = some (.ok s)) : Verified m server.options s := by
  unfold EthernetServerSecure.accept at h
  split_ifs at h
  · cases Option.some.inj h
  · refine verified_of_handshake hm (fun hunchecked => ?_) (fun _ hnameless => ?_) h
    · exact hca hunchecked.2.1 hunchecked.2.2.1
    · cases hnameless.1

end Ch32h4.Tls
