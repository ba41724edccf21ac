import Ch32h4.Http.Client

/-!
# The client of an `HTTPClientSecure` is configured as asked for

`configured_of_reachable`: the client that the object has made is a TLS client just if the last
`begin` asked for HTTPS, with the insecure flag and the CA of the last of `setInsecure` and
`setCACert`, as long as `begin(host, port, uri, https)` finds no client of the other kind, and
neither `setCACert(nullptr)` nor `setInsecure` has anything to take from a TLS client.  A step that
is not of this kind does break it.

`configured_of_reachable_switch` and `not_configured_of_reachable` are runs on either side.
-/

namespace Ch32h4.Http

open Machine Tls

/-- The client is what the sketch has asked for. -/
structure Configured (s : System) : Prop where
  kind : ∀ m ∈ s.http.clientMade, s.https = some m.isTls
  insecure : ∀ client, s.http.clientMade = some (.tls client) → client.insecure = s.insecure
  ca : ∀ client, s.http.clientMade = some (.tls client) → client.ca_pem = s.ca

/-- A TLS client that was made, and what holds of it. -/
def System.tls (s : System) (p : EthernetClientSecure → Prop) : Prop :=
  match s.http.clientMade with
  | some (.tls client) => p client
  | _ => True

/-- Nothing is kept that the call would have to take away. -/
def Orderly (s : System) : Action → Prop
  | .setInsecure => s.tls fun client => client.ca_pem = none
  | .setCACert none => s.tls fun client => client.insecure = false ∧ client.ca_pem = none
  | .beginHost https => ∀ m ∈ s.http.clientMade, m.isTls = https
  | _ => True

instance (s : System) (p : EthernetClientSecure → Prop) [DecidablePred p] :
    Decidable (s.tls p) := by
  unfold System.tls
  split <;> infer_instance

instance (s : System) : (a : Action) → Decidable (Orderly s a)
  | .setInsecure =>
    inferInstanceAs (Decidable (s.tls fun client => client.ca_pem = none))
  | .setCACert none =>
    inferInstanceAs (Decidable (s.tls fun client => client.insecure = false ∧ client.ca_pem = none))
  | .beginHost https => inferInstanceAs (Decidable (∀ m ∈ s.http.clientMade, m.isTls = https))
  | .setCACert (some _) | .setCertificate _ | .setPrivateKey _ | .beginUrl _ =>
    inferInstanceAs (Decidable True)

/-- The settings are those of the last call, and `_clientTLS` tells the kind of the client. -/
structure Kept (s : System) : Prop where
  insecure : s.http.insecure = s.insecure
  ca : s.http.ca = s.ca
  exclusive : s.insecure = true → s.ca = none
  clientTLS : s.http.clientTLS = (s.http.clientMade.map Made.isTls).getD false

section

variable {s s' : System} {http : HTTPClientSecure} {client : EthernetClientSecure}

/-! ### Settings -/

/-- What the settings make of the insecure flag and the CA of a client. -/
theorem apply_trust (http : HTTPClientSecure) (client : EthernetClientSecure) :
    ((http.apply client).insecure, (http.apply client).ca_pem) =
      if http.insecure = true then (true, client.ca_pem)
      else if http.ca.isSome then (false, http.ca)
      else (client.insecure, client.ca_pem) := by
  unfold HTTPClientSecure.apply
  dsimp only
  split_ifs <;> rfl

/-- A client that fits the settings already stays as it is, and a new one comes to fit them. -/
theorem apply_eq (http : HTTPClientSecure) (client : EthernetClientSecure)
    (hexclusive : http.insecure = true → http.ca = none)
    (h : (client.insecure, client.ca_pem) = (http.insecure, http.ca) ∨
      (client.insecure, client.ca_pem) = (false, none)) :
    ((http.apply client).insecure, (http.apply client).ca_pem) = (http.insecure, http.ca) := by
  rw [apply_trust]
  cases hinsecure : http.insecure with
  | true =>
    rw [if_pos rfl, hexclusive hinsecure]
    rw [hinsecure, hexclusive hinsecure] at h
    obtain h | h := h
    · rw [(Prod.mk.inj h).2]
    · rw [(Prod.mk.inj h).2]
  | false =>
    rw [if_neg nofun]
    split_ifs with hca
    · rfl
    · rw [Option.not_isSome_iff_eq_none] at hca
      rw [hinsecure, hca] at h
      rw [hca]
      exact h.elim id id

theorem configure_of_none (hmade : http.clientMade = none) : http.configure = http := by
  unfold HTTPClientSecure.configure
  rw [hmade]

theorem configure_of_plain (hmade : http.clientMade = some .plain) : http.configure = http := by
  unfold HTTPClientSecure.configure
  rw [hmade]

theorem configure_of_tls (hmade : http.clientMade = some (.tls client))
    (htls : http.clientTLS = true) :
    http.configure = { http with clientMade := some (.tls (http.apply client)) } := by
  unfold HTTPClientSecure.configure
  rw [hmade]
  exact if_pos htls

theorem configured_of_none (hmade : s.http.clientMade = none) : Configured s := by
  refine ⟨fun m hm => ?_, fun client hclient => ?_, fun client hclient => ?_⟩
  · rw [hmade] at hm
    cases hm
  · rw [hmade] at hclient
    cases hclient
  · rw [hmade] at hclient
    cases hclient

theorem configured_plain_iff (hmade : s.http.clientMade = some .plain) :
    Configured s ↔ s.https = some false := by
  refine ⟨fun h => h.kind .plain hmade, fun hkind => ⟨fun m hm => ?_, fun client hclient => ?_,
    fun client hclient => ?_⟩⟩
  · obtain rfl : Made.plain = m := Option.some.inj (hmade.symm.trans hm)
    exact hkind
  · rw [hmade] at hclient
    cases hclient
  · rw [hmade] at hclient
    cases hclient

theorem configured_tls_iff (hmade : s.http.clientMade = some (.tls client)) :
    Configured s ↔ s.https = some true ∧
      (client.insecure, client.ca_pem) = (s.insecure, s.ca) := by
  refine ⟨fun h => ⟨h.kind _ hmade, ?_⟩, fun ⟨hkind, htrust⟩ => ⟨fun m hm => ?_,
    fun client' hclient => ?_, fun client' hclient => ?_⟩⟩
  · rw [h.insecure client hmade, h.ca client hmade]
  · obtain rfl : Made.tls client = m := Option.some.inj (hmade.symm.trans hm)
    exact hkind
  · obtain rfl : client = client' := Made.tls.inj (Option.some.inj (hmade.symm.trans hclient))
    exact (Prod.mk.inj htrust).1
  · obtain rfl : client = client' := Made.tls.inj (Option.some.inj (hmade.symm.trans hclient))
    exact (Prod.mk.inj htrust).2

/-! ### Setters -/

theorem tls_mono {p q : EthernetClientSecure → Prop} (hpq : ∀ client, p client → q client)
    (h : s.tls p) : s.tls q := by
  unfold System.tls at h ⊢
  cases hmade : s.http.clientMade with
  | none => trivial
  | some m =>
    rw [hmade] at h
    cases m with
    | plain => trivial
    | tls client => exact hpq client h

theorem tls_congr {p q : EthernetClientSecure → Prop} (hpq : ∀ client, p client ↔ q client) :
    s.tls p ↔ s.tls q :=
  ⟨tls_mono fun client => (hpq client).mp, tls_mono fun client => (hpq client).mpr⟩

theorem Configured.tls (h : Configured s) :
    s.tls fun client => (client.insecure, client.ca_pem) = (s.insecure, s.ca) := by
  unfold System.tls
  cases hmade : s.http.clientMade with
  | none => trivial
  | some m =>
    cases m with
    | plain => trivial
    | tls client => exact ((configured_tls_iff hmade).mp h).2

/-- **A setter** stores its value, and puts the settings on the client if it is a TLS client. -/
theorem configure_iff (http : HTTPClientSecure) (h : Configured s) (hkept : Kept s)
    (hmade : http.clientMade = s.http.clientMade) (htls : http.clientTLS = s.http.clientTLS)
    {insecure : Bool} {ca : Option String} :
    Configured ⟨http.configure, s.https, insecure, ca⟩ ↔ s.tls fun client =>
      ((http.apply client).insecure, (http.apply client).ca_pem) = (insecure, ca) := by
  unfold System.tls
  have hkind := hkept.clientTLS
  cases hclient : s.http.clientMade with
  | none =>
    rw [hclient] at hmade
    rw [configure_of_none hmade]
    exact iff_of_true (configured_of_none hmade) trivial
  | some m =>
    rw [hclient] at hmade hkind
    cases m with
    | plain =>
      rw [configure_of_plain hmade]
      exact iff_of_true ((configured_plain_iff hmade).mpr ((configured_plain_iff hclient).mp h))
        trivial
    | tls client =>
      rw [configure_of_tls hmade (htls.trans hkind)]
      have hhttps := ((configured_tls_iff hclient).mp h).1
      exact (configured_tls_iff rfl).trans (and_iff_right hhttps)

/-- The settings of a setter are kept. -/
theorem kept_configure (http : HTTPClientSecure) (hkept : Kept s)
    (hmade : http.clientMade = s.http.clientMade) (htls : http.clientTLS = s.http.clientTLS)
    (hexclusive : http.insecure = true → http.ca = none) :
    Kept ⟨http.configure, s.https, http.insecure, http.ca⟩ := by
  have hkind := hkept.clientTLS
  rw [← hmade, ← htls] at hkind
  cases hclient : http.clientMade with
  | none =>
    rw [configure_of_none hclient]
    exact ⟨rfl, rfl, hexclusive, hkind⟩
  | some m =>
    cases m with
    | plain =>
      rw [configure_of_plain hclient]
      exact ⟨rfl, rfl, hexclusive, hkind⟩
    | tls client =>
      rw [hclient] at hkind
      rw [configure_of_tls hclient hkind]
      exact ⟨rfl, rfl, hexclusive, hkind⟩

/-! ### The beginnings -/

/-- **A client is made** of the kind asked for, with the settings. -/
theorem make_none (hkept : Kept s) (hmade : s.http.clientMade = none) (https : Bool) :
    Configured { s with http := s.http.make https, https := some https } ∧
      Kept { s with http := s.http.make https, https := some https } := by
  unfold HTTPClientSecure.make
  rw [if_pos hmade]
  have hkind := hkept.clientTLS
  rw [hmade] at hkind
  cases https with
  | false =>
    rw [if_neg nofun]
    exact ⟨(configured_plain_iff rfl).mpr rfl, ⟨hkept.insecure, hkept.ca, hkept.exclusive, hkind⟩⟩
  | true =>
    rw [if_pos rfl]
    unfold HTTPClientSecure.tls
    rw [if_pos (.inl hmade), configure_of_tls rfl rfl]
    have htrust := apply_eq { s.http with
      clientMade := some (.tls .new), clientTLS := true } .new (fun hinsecure =>
        hkept.ca.trans (hkept.exclusive (hkept.insecure.symm.trans hinsecure))) (.inr rfl)
    refine ⟨(configured_tls_iff rfl).mpr ⟨rfl, htrust.trans ?_⟩, ⟨hkept.insecure, hkept.ca,
      hkept.exclusive, rfl⟩⟩
    rw [← hkept.insecure, ← hkept.ca]

/-- A client that is there is taken, of whatever kind it is. -/
theorem make_some {m : Made} (hmade : s.http.clientMade = some m) (https : Bool) :
    s.http.make https = s.http := by
  unfold HTTPClientSecure.make
  rw [if_neg]
  rw [hmade]
  exact nofun

/-- With a client that is taken, it is the kind that matters. -/
theorem taken_iff {m : Made} (h : Configured s) (hmade : s.http.clientMade = some m)
    (https : Bool) : Configured { s with https := some https } ↔ m.isTls = https := by
  cases m with
  | plain =>
    refine (configured_plain_iff (s := { s with https := some https }) hmade).trans
      ⟨fun heq => ?_, fun heq => ?_⟩
    · exact (Option.some.inj heq).symm
    · exact congrArg some heq.symm
  | tls client =>
    have htrust := ((configured_tls_iff hmade).mp h).2
    refine (configured_tls_iff (s := { s with https := some https }) hmade).trans
      ⟨fun ⟨heq, _⟩ => ?_, fun heq => ⟨?_, htrust⟩⟩
    · exact (Option.some.inj heq).symm
    · exact congrArg some heq.symm

/-- **`begin(url)`** always comes to a client of the right kind. -/
theorem beginUrl_configured (h : Configured s) (hkept : Kept s) (wants_tls : Bool) :
    Configured { s with http := s.http.beginUrl wants_tls, https := some wants_tls } ∧
      Kept { s with http := s.http.beginUrl wants_tls, https := some wants_tls } := by
  unfold HTTPClientSecure.beginUrl
  dsimp only
  have hkind := hkept.clientTLS
  cases hmade : s.http.clientMade with
  | none =>
    rw [if_neg fun hne => hne.1 rfl]
    exact make_none hkept hmade wants_tls
  | some m =>
    rw [hmade] at hkind
    by_cases hfits : m.isTls = wants_tls
    · rw [if_neg fun hne => hne.2 (hkind.trans hfits), make_some hmade]
      exact ⟨(taken_iff h hmade wants_tls).mpr hfits,
        ⟨hkept.insecure, hkept.ca, hkept.exclusive, hkept.clientTLS⟩⟩
    · rw [if_pos ⟨nofun, fun heq => hfits (hkind.symm.trans heq)⟩]
      have hgone : Kept { s with http := { s.http with clientMade := none, clientTLS := false } } :=
        ⟨hkept.insecure, hkept.ca, hkept.exclusive, rfl⟩
      exact make_none hgone rfl wants_tls

/-! ### Runs -/

/-- Every step keeps the settings. -/
theorem Kept.act (h : Configured s) (hkept : Kept s) (a : Action) : Kept (s.act a) := by
  have hexclusive (hinsecure : s.http.insecure = true) : s.http.ca = none :=
    hkept.ca.trans (hkept.exclusive (hkept.insecure.symm.trans hinsecure))
  cases a with
  | setInsecure =>
    exact kept_configure { s.http with insecure := true, ca := none } hkept rfl rfl fun _ => rfl
  | setCACert rootCA =>
    exact kept_configure { s.http with ca := rootCA, insecure := false } hkept rfl rfl nofun
  | setCertificate client_ca =>
    have hset := kept_configure { s.http with cert := client_ca } hkept rfl rfl hexclusive
    exact ⟨hset.insecure.trans hkept.insecure, hset.ca.trans hkept.ca, hkept.exclusive,
      hset.clientTLS⟩
  | setPrivateKey private_key =>
    have hset := kept_configure { s.http with key := private_key } hkept rfl rfl hexclusive
    exact ⟨hset.insecure.trans hkept.insecure, hset.ca.trans hkept.ca, hkept.exclusive,
      hset.clientTLS⟩
  | beginUrl url =>
    unfold System.act
    dsimp only
    cases wantsTls url with
    | none => exact hkept
    | some wants_tls => exact (beginUrl_configured h hkept wants_tls).2
  | beginHost https =>
    cases hmade : s.http.clientMade with
    | none => exact (make_none hkept hmade https).2
    | some m =>
      show Kept { s with http := s.http.make https, https := some https }
      rw [make_some hmade]
      exact ⟨hkept.insecure, hkept.ca, hkept.exclusive, hkept.clientTLS⟩

/-- **A step** leaves the client configured just if it is orderly. -/
theorem configured_act_iff (h : Configured s) (hkept : Kept s) (a : Action) :
    Configured (s.act a) ↔ Orderly s a := by
  have hexclusive (hinsecure : s.http.insecure = true) : s.http.ca = none :=
    hkept.ca.trans (hkept.exclusive (hkept.insecure.symm.trans hinsecure))
  -- What was set before is set again, and fits.
  have hagain (http : HTTPClientSecure) (hsame : (http.insecure, http.ca) = (s.insecure, s.ca)) :
      s.tls fun client =>
        ((http.apply client).insecure, (http.apply client).ca_pem) = (s.insecure, s.ca) := by
    obtain ⟨hinsecure, hca⟩ := Prod.mk.inj hsame
    refine tls_mono (fun client hfits => ?_) h.tls
    rw [apply_eq http client ?_ (.inl (hfits.trans hsame.symm))]
    · exact hsame
    · intro htrue
      exact hca.trans (hkept.exclusive (hinsecure.symm.trans htrue))
  have hsettings : (s.http.insecure, s.http.ca) = (s.insecure, s.ca) :=
    Prod.ext hkept.insecure hkept.ca
  cases a with
  | setInsecure =>
    refine (configure_iff { s.http with insecure := true, ca := none } h hkept rfl rfl).trans
      (tls_congr fun client => ?_)
    rw [apply_trust, if_pos rfl, Prod.mk.injEq]
    exact and_iff_right rfl
  | setCACert rootCA =>
    refine (configure_iff { s.http with ca := rootCA, insecure := false } h hkept rfl rfl).trans ?_
    cases rootCA with
    | none =>
      refine tls_congr fun client => ?_
      rw [apply_trust, if_neg nofun, if_neg nofun, Prod.mk.injEq]
    | some pem =>
      refine iff_of_true (tls_mono (fun client _ => ?_) h.tls) trivial
      rw [apply_trust, if_neg nofun]
      exact if_pos rfl
  | setCertificate client_ca =>
    refine (configure_iff { s.http with cert := client_ca } h hkept rfl rfl).trans ?_
    exact iff_of_true (hagain _ hsettings) trivial
  | setPrivateKey private_key =>
    refine (configure_iff { s.http with key := private_key } h hkept rfl rfl).trans ?_
    exact iff_of_true (hagain _ hsettings) trivial
  | beginUrl url =>
    refine iff_of_true ?_ trivial
    unfold System.act
    dsimp only
    cases wantsTls url with
    | none => exact h
    | some wants_tls => exact (beginUrl_configured h hkept wants_tls).1
  | beginHost https =>
    cases hmade : s.http.clientMade with
    | none =>
      refine iff_of_true (make_none hkept hmade https).1 fun m hm => ?_
      rw [hmade] at hm
      cases hm
    | some m =>
      show Configured { s with http := s.http.make https, https := some https } ↔ _
      rw [make_some hmade]
      refine (taken_iff h hmade https).trans ⟨fun heq m' hm' => ?_, fun hall => hall m hmade⟩
      rw [← Option.some.inj (hmade.symm.trans hm')]
      exact heq

/-- **The client is configured as asked for** after every run of orderly steps, and the next step
leaves it so just if it is orderly, too. -/
theorem configured_of_reachable (h : machine.Reachable Orderly s) :
    Configured s ∧ ∀ a, Configured (s.act a) ↔ Orderly s a := by
  have hsound : Configured s ∧ Kept s := by
    refine invariant (I := fun s => Configured s ∧ Kept s) ?_ ?_ h
    · rintro s rfl
      exact ⟨configured_of_none rfl, ⟨rfl, rfl, nofun, rfl⟩⟩
    · rintro s a s' ⟨hs, hkept⟩ horderly hstep
      rw [← Option.some.inj hstep]
      exact ⟨(configured_act_iff hs hkept a).mpr horderly, hkept.act hs a⟩
  exact ⟨hsound.1, configured_act_iff hsound.1 hsound.2⟩

end

/-- A CA is set, an HTTPS URL is fetched, then one of HTTP, then one of HTTPS again. -/
theorem configured_of_reachable_switch : ∃ s, machine.run Orderly start
      [.setCACert (some "CA"), .beginUrl ['h', 't', 't', 'p', 's', ':'],
        .beginUrl ['H', 'T', 'T', 'P', ':'], .beginUrl ['h', 't', 't', 'p', 's', ':']] = some s ∧
    s.http.clientMade = some (.tls (EthernetClientSecure.new.setCACert (some "CA"))) ∧
    Configured s ∧ ∀ a, Configured (s.act a) ↔ Orderly s a := by
  have hrun : (machine.run Orderly start
      [.setCACert (some "CA"), .beginUrl ['h', 't', 't', 'p', 's', ':'],
        .beginUrl ['H', 'T', 'T', 'P', ':'], .beginUrl ['h', 't', 't', 'p', 's', ':']]).map
        (·.http.clientMade) =
          some (some (.tls (EthernetClientSecure.new.setCACert (some "CA")))) := by decide +kernel
  obtain ⟨s, hs, hmade⟩ := Option.map_eq_some_iff.mp hrun
  exact ⟨s, hs, hmade, configured_of_reachable (reachable_of_run (.init rfl) hs)⟩

/-- An HTTP URL leaves a plain client behind, and HTTPS to a host goes on with it. -/
theorem not_configured_of_reachable :
    ¬ ∀ s, machine.Reachable anyStep s → Configured s := by
  intro hall
  have hrun : (machine.run anyStep start
      [.beginUrl ['h', 't', 't', 'p', ':'], .beginHost true]).map
        (fun s => (s.http.clientMade, s.https)) = some (some .plain, some true) := by decide +kernel
  obtain ⟨s, hs, hstate⟩ := Option.map_eq_some_iff.mp hrun
  obtain ⟨hmade, hhttps⟩ := Prod.mk.inj hstate
  have hkind := (hall s (reachable_of_run (.init rfl) hs)).kind .plain hmade
  rw [hhttps] at hkind
  cases hkind

end Ch32h4.Http
