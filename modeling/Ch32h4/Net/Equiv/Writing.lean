import Ch32h4.Net.Equiv.Steps

/-!
# Writing while the connection is torn down

* `safe_of_reachable`: as long as no error comes in while `write` backs off for want of memory, no
  function of lwIP is called on a pcb that is null or freed, and `write` returns how many bytes of
  the buffer, from its beginning on, lwIP has queued.
* `not_safe_of_reachable`: the way back from that yield does not look whether the pcb is still
  there.  `call_null_of_err` says that the next call of lwIP is then made with a null pointer.

The invariant says for each place in `write` what is known there: in the loop that the pcb is
there, and everywhere that what is queued is the first `written` bytes.
-/

namespace Ch32h4.Net

open Machine

/-- A call of `write` has told the truth. -/
def Written.Honest (w : Written) : Prop :=
  w.returned ≤ w.src.length ∧ w.queued = w.src.take w.returned

/-- What `write` promises. -/
structure Safe (s : System) : Prop where
  /-- lwIP was never given a pcb that was not there. -/
  calls : ∀ c ∈ s.calls, c = true
  /-- The bytes returned are the bytes queued, each once and in order. -/
  writes : ∀ w ∈ s.writes, w.Honest

/-- `write` is in the yield that follows `ERR_MEM`. -/
def Phase.backsOff : Phase → Bool
  | backingOff .. => true
  | idle | asking .. | waiting .. | sending .. | leaving .. | gone => false

/-- No error comes in while `write` backs off, and the room is a number of 16 bits. -/
def Calm (s : System) : Action → Prop
  | .err => s.phase.backsOff = false
  | .sndbuf room _ => room < 2 ^ 16
  | .recv .. | .fin | .read .. | .close _ | .abort | .destroy _ | .write _ | .tcpWrite _ | .resume
  | .leave => True

instance (s : System) : ∀ a, Decidable (Calm s a)
  | .err => inferInstanceAs (Decidable (s.phase.backsOff = false))
  | .sndbuf room _ => inferInstanceAs (Decidable (room < 2 ^ 16))
  | .recv .. | .fin | .read .. | .close _ | .abort | .destroy _ | .write _ | .tcpWrite _ | .resume
  | .leave => inferInstanceAs (Decidable True)

/-- The first `written` bytes are queued. -/
def Upto (s : System) (src : List UInt8) (written : ℕ) : Prop :=
  written ≤ src.length ∧ s.queued = src.take written

/-- What is known in each place of `write`. -/
def Phase.Knows (s : System) : Phase → Prop
  | .idle | .gone => True
  | .asking src written | .backingOff src written => s.ctx.pcb = true ∧ Upto s src written
  | .sending src written chunk => s.ctx.pcb = true ∧ Upto s src written ∧
      written + chunk ≤ src.length ∧ chunk < 2 ^ 16
  | .waiting src written | .leaving src written => Upto s src written

/-- The promise is kept, and the next step will keep it. -/
structure Guarded (s : System) : Prop where
  safe : Safe s
  live : s.live = s.ctx.pcb
  knows : s.phase.Knows s

section

variable {api : PbufApi} {wnd : ℕ} {s s' : System}

/-- A call on a pcb that is there. -/
theorem Safe.call (h : Safe s) (hlive : s.live = s.ctx.pcb) (hpcb : s.ctx.pcb = true) :
    Safe s.call := by
  refine ⟨fun c hc => ?_, h.writes⟩
  rcases List.mem_append.mp hc with hc | hc
  · exact h.calls c hc
  · rw [List.mem_singleton.mp hc, hlive, hpcb]
    rfl

/-- A call of `write` that has told the truth is added. -/
theorem Safe.wrote (h : Safe s) {w : Written} (hw : w.Honest) :
    ∀ w' ∈ s.writes ++ [w], w'.Honest := by
  intro w' hw'
  rcases List.mem_append.mp hw' with hw' | hw'
  · exact h.writes w' hw'
  · rw [List.mem_singleton.mp hw']
    exact hw

/-- **`write` begins** with a pcb, or returns at once. -/
theorem Guarded.write (h : Guarded s) (hphase : s.phase = .idle) (src : List UInt8) :
    Guarded (s.write src) := by
  unfold System.write
  split_ifs with hcannot
  · refine ⟨⟨h.safe.calls, h.safe.wrote ⟨Nat.zero_le _, rfl⟩⟩, h.live, ?_⟩
    show s.phase.Knows _
    rw [hphase]
    trivial
  · rw [not_or, not_not] at hcannot
    exact ⟨⟨h.safe.calls, h.safe.writes⟩, h.live, hcannot.1, Nat.zero_le _, rfl⟩

/-- **The head of the loop** asks for room, with a pcb. -/
theorem Guarded.sndbuf (h : Guarded s) {src : List UInt8} {written room : ℕ} {late : Bool}
    (hphase : s.phase = .asking src written) (hroom : room < 2 ^ 16) :
    Guarded (s.sndbuf src written room late) := by
  obtain ⟨hpcb, hupto⟩ : s.ctx.pcb = true ∧ Upto s src written := by
    have := h.knows
    rwa [hphase] at this
  have hcall := h.safe.call h.live hpcb
  unfold System.sndbuf
  split_ifs with hmore hfull hlate
  · exact ⟨⟨hcall.calls, hcall.writes⟩, h.live, hupto⟩
  · exact ⟨⟨hcall.calls, hcall.writes⟩, h.live, hupto⟩
  · refine ⟨⟨hcall.calls, hcall.writes⟩, h.live, hpcb, hupto, ?_, ?_⟩
    · split_ifs <;> omega
    · split_ifs <;> omega
  · exact ⟨⟨h.safe.calls, h.safe.writes⟩, h.live, hupto⟩

/-- **`tcp_write`** queues the next bytes, or none. -/
theorem Guarded.tcpWrite (h : Guarded s) {src : List UInt8} {written chunk : ℕ}
    (hphase : s.phase = .sending src written chunk) (result : WriteResult) :
    Guarded (s.tcpWrite src written chunk result) := by
  obtain ⟨hpcb, hupto, hchunk, hsmall⟩ : s.ctx.pcb = true ∧ Upto s src written ∧
      written + chunk ≤ src.length ∧ chunk < 2 ^ 16 := by
    have := h.knows
    rwa [hphase] at this
  have hcall := h.safe.call h.live hpcb
  unfold System.tcpWrite
  cases result with
  | ok =>
    refine ⟨⟨hcall.calls, hcall.writes⟩, h.live, hpcb, hchunk, ?_⟩
    show s.queued ++ (src.drop written).take (chunk % 2 ^ 16) = src.take (written + chunk)
    rw [Nat.mod_eq_of_lt hsmall, hupto.2, List.take_add]
  | mem => exact ⟨⟨hcall.calls, hcall.writes⟩, h.live, hpcb, hupto⟩
  | other => exact ⟨⟨hcall.calls, hcall.writes⟩, h.live, hupto⟩

/-- **`write` returns** what is queued. -/
theorem Guarded.leave (h : Guarded s) {src : List UInt8} {written : ℕ}
    (hphase : s.phase = .leaving src written) : Guarded (s.leave src written) := by
  have hupto : Upto s src written := by
    have := h.knows
    rwa [hphase] at this
  unfold System.leave
  split_ifs with hpush
  · have hcall := h.safe.call h.live hpush.2
    exact ⟨⟨hcall.calls, h.safe.wrote hupto⟩, h.live, trivial⟩
  · exact ⟨⟨h.safe.calls, h.safe.wrote hupto⟩, h.live, trivial⟩

/-- `yield` returns. -/
theorem Guarded.resume (h : Guarded s) (hstep : step api wnd s .resume = some s') :
    Guarded s' := by
  have hknows := h.knows
  obtain ⟨src, written, ⟨hphase, ⟨rfl, -⟩ | ⟨rfl, hpcb, -⟩⟩ | ⟨hphase, rfl⟩⟩ := of_resume hstep
  · rw [hphase] at hknows
    exact ⟨⟨h.safe.calls, h.safe.writes⟩, h.live, hknows⟩
  · rw [hphase] at hknows
    exact ⟨⟨h.safe.calls, h.safe.writes⟩, h.live, hpcb, hknows⟩
  · rw [hphase] at hknows
    exact ⟨⟨h.safe.calls, h.safe.writes⟩, h.live, hknows⟩

/-- `tcp_close`, and `tcp_abort` behind it, find the pcb there. -/
theorem Safe.close (h : Safe s) (hlive : s.live = s.ctx.pcb) (closes : Bool) :
    Safe (s.close closes) := by
  unfold System.close
  split_ifs with hpcb hcloses
  · have hcall := h.call hlive hpcb
    exact ⟨hcall.calls, hcall.writes⟩
  · have hcall := (h.call hlive hpcb).call hlive hpcb
    exact ⟨hcall.calls, hcall.writes⟩
  · exact ⟨h.calls, h.writes⟩

theorem close_live (hlive : s.live = s.ctx.pcb) (closes : Bool) :
    (s.close closes).live = (s.close closes).ctx.pcb := by
  show (if s.ctx.pcb then false else s.live) = false
  cases hpcb : s.ctx.pcb with
  | false => rw [if_neg nofun, hlive, hpcb]
  | true => rfl

theorem Guarded.close (h : Guarded s) (hphase : s.phase = .idle) (closes : Bool) :
    Guarded (s.close closes) := by
  refine ⟨h.safe.close h.live closes, close_live h.live closes, ?_⟩
  rw [close_phase, hphase]
  trivial

theorem Guarded.destroy (h : Guarded s) (closes : Bool) : Guarded (s.destroy api closes) := by
  have hclose := h.safe.close h.live closes
  have hlive := close_live h.live closes
  refine ⟨⟨hclose.calls, hclose.writes⟩, ?_, trivial⟩
  show (s.close closes).live = ((s.close closes).ctx.discardRx api (s.close closes).pool).2.pcb
  unfold Context.discardRx
  cases (s.close closes).ctx.rx <;> exact hlive

/-- `tcp_recved` is called only with a pcb. -/
theorem Guarded.doRead (h : Guarded s) (hphase : s.phase = .idle) (size : ℕ) (dst : Bool) :
    Guarded (s.doRead api size dst) := by
  have hknows : (s.doRead api size dst).phase.Knows (s.doRead api size dst) := by
    rw [(doRead_frame s api size dst).2.2, hphase]
    trivial
  refine ⟨?_, ?_, hknows⟩
  · obtain ⟨hwrites, hcalls | ⟨hpcb, hcalls⟩⟩ := doRead_calls s api size dst
    · exact ⟨hcalls ▸ h.safe.calls, hwrites ▸ h.safe.writes⟩
    · exact ⟨hcalls ▸ (h.safe.call h.live hpcb).calls, hwrites ▸ h.safe.writes⟩
  · rw [(doRead_frame s api size dst).2.1]
    exact h.live

/-- What is known does not depend on the receive queue or on a FIN. -/
theorem Guarded.receive (h : Guarded s) {σ : Pool} {c : Context} {parts : List (List UInt8)}
    (hpcb : c.pcb = s.ctx.pcb) : Guarded { s with pool := σ, ctx := c, parts } := by
  refine ⟨⟨h.safe.calls, h.safe.writes⟩, h.live.trans hpcb.symm, ?_⟩
  have hknows := h.knows
  show s.phase.Knows _
  cases hphase : s.phase with
  | idle | gone => trivial
  | asking | backingOff | sending =>
    rw [hphase] at hknows
    exact ⟨hpcb.trans hknows.1, hknows.2⟩
  | waiting | leaving =>
    rw [hphase] at hknows
    exact hknows

/-- An error takes the pcb away, and `write` notices unless it backs off. -/
theorem Guarded.err (h : Guarded s) (hyields : s.phase.yields = true) (hcalm : Calm s .err) :
    Guarded { s with ctx := s.ctx.onErr, live := false } := by
  refine ⟨⟨h.safe.calls, h.safe.writes⟩, rfl, ?_⟩
  have hknows := h.knows
  unfold Calm at hcalm
  show s.phase.Knows _
  cases hphase : s.phase with
  | idle | gone => trivial
  | asking | sending | leaving =>
    rw [hphase] at hyields
    cases hyields
  | backingOff =>
    rw [hphase] at hcalm
    cases hcalm
  | waiting =>
    rw [hphase] at hknows
    exact hknows

theorem onRecv_pcb (api : PbufApi) (σ : Pool) (c : Context) (p : Option ℕ) (ok : Bool) :
    (c.onRecv api σ p ok).2.pcb = c.pcb := by
  unfold Context.onRecv
  cases p with
  | none => rfl
  | some p =>
    dsimp only
    split_ifs
    · cases c.rx <;> rfl
    · rfl

/-- **Every step** that meets the condition keeps the promise. -/
theorem Guarded.step (h : Guarded s) {a : Action} (hcalm : Calm s a)
    (hstep : step api wnd s a = some s') : Guarded s' := by
  cases a with
  | recv parts ok =>
    obtain ⟨-, -, hrecv⟩ := of_callback hstep
    rw [(recv_eq hrecv).2.2]
    exact h.receive (onRecv_pcb api _ _ _ _)
  | fin =>
    obtain ⟨-, -, hfin⟩ := of_callback hstep
    rw [← Option.some.inj hfin]
    exact h.receive rfl
  | err =>
    obtain ⟨hyields, -, herr⟩ := of_callback hstep
    rw [← Option.some.inj herr]
    exact h.err hyields hcalm
  | read size dst =>
    obtain ⟨hphase, rfl⟩ := of_outside hstep
    exact h.doRead hphase size dst
  | close closes =>
    obtain ⟨hphase, rfl⟩ := of_outside hstep
    exact h.close hphase closes
  | abort =>
    obtain ⟨hphase, rfl⟩ := of_outside hstep
    exact h.close hphase true
  | destroy closes =>
    obtain ⟨hphase, rfl⟩ := of_outside hstep
    exact h.destroy closes
  | write src =>
    obtain ⟨hphase, rfl⟩ := of_outside hstep
    exact h.write hphase src
  | sndbuf room late =>
    obtain ⟨src, written, hphase, rfl⟩ := of_sndbuf hstep
    exact h.sndbuf hphase hcalm
  | tcpWrite result =>
    obtain ⟨src, written, chunk, hphase, rfl⟩ := of_tcpWrite hstep
    exact h.tcpWrite hphase result
  | resume => exact h.resume hstep
  | leave =>
    obtain ⟨src, written, hphase, rfl⟩ := of_leave hstep
    exact h.leave hphase

/-- **An error in that yield** is followed by a call of lwIP with a null pointer: `write` has not
done with its buffer, since it backs off only before a chunk. -/
theorem call_null_of_err {src : List UInt8} {written : ℕ}
    (hphase : s.phase = .backingOff src written) (hlive : s.live = true)
    (hmore : written < src.length) (room : ℕ) (late : Bool) :
    ∃ s₁ s₂ s₃, step api wnd s .err = some s₁ ∧ step api wnd s₁ .resume = some s₂ ∧
      step api wnd s₂ (.sndbuf room late) = some s₃ ∧ false ∈ s₃.calls := by
  have herr : step api wnd s .err = some { s with ctx := s.ctx.onErr, live := false } :=
    if_pos ⟨by rw [hphase]; rfl, hlive⟩
  have hresume : step api wnd { s with ctx := s.ctx.onErr, live := false } .resume =
      some { s with ctx := s.ctx.onErr, live := false, phase := .asking src written } := by
    unfold step
    dsimp only
    rw [hphase]
  refine ⟨_, _, _, herr, hresume, rfl, ?_⟩
  unfold System.sndbuf
  rw [if_pos hmore]
  split_ifs <;> exact List.mem_append_right _ (List.mem_singleton_self _)

theorem guarded_start : Guarded start := ⟨⟨nofun, nofun⟩, rfl, trivial⟩

/-- **`write` is safe against teardown**, except for an error that comes in while it backs off. -/
theorem safe_of_reachable (h : (machine api wnd).Reachable Calm s) : Safe s := by
  refine (invariant (I := Guarded) ?_ ?_ h).safe
  · rintro s rfl
    exact guarded_start
  · intro s a s' hs hcalm hstep
    exact hs.step hcalm hstep

end

/-- Two bytes are written; there is no memory at first, and a FIN comes in. -/
theorem safe_of_reachable_twoBytes : ∃ s, (machine lwip 65535).run Calm start
      [.write [1, 2], .sndbuf 1 false, .tcpWrite .ok, .sndbuf 9 false, .tcpWrite .mem, .fin,
        .resume, .sndbuf 9 false, .tcpWrite .ok, .sndbuf 9 false, .leave] = some s ∧
    s.writes.map (·.returned) = [2] ∧ Safe s := by
  have hrun : ((machine lwip 65535).run Calm start
      [.write [1, 2], .sndbuf 1 false, .tcpWrite .ok, .sndbuf 9 false, .tcpWrite .mem, .fin,
        .resume, .sndbuf 9 false, .tcpWrite .ok, .sndbuf 9 false, .leave]).map
        (fun s => s.writes.map (·.returned)) = some [2] := by decide +kernel
  obtain ⟨s, hs, hreturned⟩ := Option.map_eq_some_iff.mp hrun
  exact ⟨s, hs, hreturned, safe_of_reachable (reachable_of_run (.init rfl) hs)⟩

/-- A call of lwIP with a null pointer. -/
theorem not_safe_of_reachable : ¬ ∀ s, (machine lwip 65535).Reachable anyStep s → Safe s := by
  intro hall
  have hrun : ((machine lwip 65535).run anyStep start
      [.write [1], .sndbuf 1 false, .tcpWrite .mem, .err, .resume, .sndbuf 1 false]).map
        (·.calls) = some [true, true, false] := by decide +kernel
  obtain ⟨s, hs, hcalls⟩ := Option.map_eq_some_iff.mp hrun
  have hsafe := hall s (reachable_of_run (.init rfl) hs)
  exact absurd (hsafe.calls false (by rw [hcalls]; decide)) (by decide)

end Ch32h4.Net
