import Ch32h4.Net.Context

/-!
# The steps of a connection

What each step can have been: where the sketch stood, and what became of the state.  The proofs
about connections take their steps apart with these lemmas and do not unfold `step`.
-/

namespace Ch32h4.Net

variable {api : PbufApi} {wnd : ℕ} {s s' : System}

/-! ### Callbacks -/

/-- A step of lwIP is taken where the sketch yields. -/
theorem yields_ne_gone {p : Phase} (h : p.yields = true) : p ≠ .gone := by
  rintro rfl
  cases h

theorem of_callback {t : Option System} (h : s.callback t = some s') :
    s.phase.yields = true ∧ s.live = true ∧ t = some s' := by
  unfold System.callback at h
  split_ifs at h with hcan
  exact ⟨hcan.1, hcan.2, h⟩

/-- What comes in is a chain, and within the window unless it comes with an error. -/
theorem recv_eq {parts : List (List UInt8)} {ok : Bool}
    (hstep : s.recv api wnd parts ok = some s') : parts ≠ [] ∧
      (ok = true → s.received.length + parts.flatten.length ≤ s.recved.sum + wnd) ∧
      s' = { s with
        pool := (s.ctx.onRecv api (s.pool ++ link s.pool.length parts) (some s.pool.length) ok).1,
        ctx := (s.ctx.onRecv api (s.pool ++ link s.pool.length parts) (some s.pool.length) ok).2,
        parts := if ok then s.parts ++ parts else s.parts } := by
  unfold System.recv at hstep
  by_cases hrefused : parts = [] ∨
      (ok ∧ s.recved.sum + wnd < s.received.length + parts.flatten.length)
  · rw [if_pos hrefused] at hstep
    cases hstep
  · rw [if_neg hrefused] at hstep
    rw [not_or, not_and, Nat.not_lt] at hrefused
    exact ⟨hrefused.1, hrefused.2, (Option.some.inj hstep).symm⟩

/-! ### Outside of `write` -/

theorem of_outside {t : System} (h : s.outside t = some s') : s.phase = .idle ∧ s' = t := by
  unfold System.outside at h
  cases hphase : s.phase with
  | idle =>
    rw [hphase] at h
    exact ⟨rfl, (Option.some.inj h).symm⟩
  | _ =>
    rw [hphase] at h
    cases h

/-- What a read gives back to lwIP. -/
theorem doRead_recved (s : System) (api : PbufApi) (size : ℕ) (dst : Bool) :
    (s.doRead api size dst).recved =
      if (s.ctx.read api s.pool size dst).left.freed ≠ 0 ∧ s.ctx.pcb then
        s.recved ++ [(s.ctx.read api s.pool size dst).left.freed % 2 ^ 16]
      else s.recved := by
  unfold System.doRead
  dsimp only
  split_ifs <;> rfl

/-- `tcp_recved` is called only where there is something to give back, and a pcb. -/
theorem doRead_calls (s : System) (api : PbufApi) (size : ℕ) (dst : Bool) :
    (s.doRead api size dst).writes = s.writes ∧ ((s.doRead api size dst).calls = s.calls ∨
      s.ctx.pcb = true ∧ (s.doRead api size dst).calls = s.call.calls) := by
  by_cases hgiven : (s.ctx.read api s.pool size dst).left.freed ≠ 0 ∧ s.ctx.pcb
  · unfold System.doRead
    dsimp only
    rw [if_pos hgiven]
    exact ⟨rfl, .inr ⟨hgiven.2, rfl⟩⟩
  · unfold System.doRead
    dsimp only
    rw [if_neg hgiven]
    exact ⟨rfl, .inl rfl⟩

/-- What a read leaves alone. -/
theorem doRead_frame (s : System) (api : PbufApi) (size : ℕ) (dst : Bool) :
    (s.doRead api size dst).parts = s.parts ∧ (s.doRead api size dst).live = s.live ∧
      (s.doRead api size dst).phase = s.phase := by
  unfold System.doRead
  dsimp only
  split_ifs <;> exact ⟨rfl, rfl, rfl⟩

theorem close_phase (s : System) (closes : Bool) : (s.close closes).phase = s.phase := by
  unfold System.close
  split_ifs <;> rfl

/-! ### Inside of `write` -/

/-- `write` leaves the connection in one of its own places. -/
theorem write_phase (s : System) (src : List UInt8) (hphase : s.phase = .idle) :
    (s.write src).phase ≠ .gone := by
  unfold System.write
  split_ifs
  · rw [show _ = Phase.idle from hphase]
    nofun
  · nofun

theorem sndbuf_phase (s : System) (src : List UInt8) (written room : ℕ) (late : Bool) :
    (s.sndbuf src written room late).phase ≠ .gone := by
  unfold System.sndbuf
  split_ifs <;> nofun

theorem tcpWrite_phase (s : System) (src : List UInt8) (written chunk : ℕ)
    (result : WriteResult) : (s.tcpWrite src written chunk result).phase ≠ .gone := by
  unfold System.tcpWrite
  cases result <;> nofun

theorem of_sndbuf {room : ℕ} {late : Bool}
    (h : step api wnd s (.sndbuf room late) = some s') :
    ∃ src written, s.phase = .asking src written ∧ s' = s.sndbuf src written room late := by
  unfold step at h
  cases hphase : s.phase with
  | asking src written =>
    rw [hphase] at h
    exact ⟨src, written, rfl, (Option.some.inj h).symm⟩
  | _ =>
    rw [hphase] at h
    cases h

theorem of_tcpWrite {result : WriteResult} (h : step api wnd s (.tcpWrite result) = some s') :
    ∃ src written chunk, s.phase = .sending src written chunk ∧
      s' = s.tcpWrite src written chunk result := by
  unfold step at h
  cases hphase : s.phase with
  | sending src written chunk =>
    rw [hphase] at h
    exact ⟨src, written, chunk, rfl, (Option.some.inj h).symm⟩
  | _ =>
    rw [hphase] at h
    cases h

theorem of_leave (h : step api wnd s .leave = some s') :
    ∃ src written, s.phase = .leaving src written ∧ s' = s.leave src written := by
  unfold step at h
  cases hphase : s.phase with
  | leaving src written =>
    rw [hphase] at h
    exact ⟨src, written, rfl, (Option.some.inj h).symm⟩
  | _ =>
    rw [hphase] at h
    cases h

/-- `yield` returns to the loop, or out of it if it was for room and the connection has gone. -/
theorem of_resume (h : step api wnd s .resume = some s') : ∃ src written,
    (s.phase = .waiting src written ∧
      ((s' = { s with phase := .leaving src written } ∧
          ¬ (s.ctx.pcb = true ∧ s.ctx.state = .connected)) ∨
        (s' = { s with phase := .asking src written } ∧
          s.ctx.pcb = true ∧ s.ctx.state = .connected))) ∨
    (s.phase = .backingOff src written ∧ s' = { s with phase := .asking src written }) := by
  unfold step at h
  cases hphase : s.phase with
  | waiting src written =>
    rw [hphase] at h
    dsimp only at h
    split_ifs at h with hgone
    · refine ⟨src, written, .inl ⟨rfl, .inl ⟨(Option.some.inj h).symm, fun hok => ?_⟩⟩⟩
      exact hgone.elim (· hok.1) (· hok.2)
    · rw [not_or, not_not, not_not] at hgone
      exact ⟨src, written, .inl ⟨rfl, .inr ⟨(Option.some.inj h).symm, hgone⟩⟩⟩
  | backingOff src written =>
    rw [hphase] at h
    exact ⟨src, written, .inr ⟨rfl, (Option.some.inj h).symm⟩⟩
  | _ =>
    rw [hphase] at h
    cases h

end Ch32h4.Net
