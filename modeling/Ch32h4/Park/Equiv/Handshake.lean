import Ch32h4.Park.Protocol
import Mathlib.Tactic.Cases
import Mathlib.Tactic.SplitIfs

/-!
# The park handshake over any number of rounds

`ch32h4_park_other` returns true when it sees `ack`, and `ack` carries no round number.  Two facts
decide what an `ack` is worth:

* `ack` is up only while the answering core is between its `storeAck` and its `clearAck`
  (`Inv.ack_up`), so at the moment `req` is stored an `ack` that is up belongs either to a core
  that will read `req` again and stay, or to one that has read `req = 0` and is on its way out;
* from then on `req` stays up until the asking core stores it down itself, so a core that is at
  `loadReq` stays there.

`spinning_of_parked` and `answerable_of_waiting` are the safety and the liveness half under the
condition that names the harmful window; `exists_parked_not_spinning` and
`exists_waiting_not_answerable` show that each step the conditions exclude really is the first
step of a run that goes wrong.
-/

namespace Ch32h4.Park

open Machine

/-! ### What holds in every run -/

/-- The asking core has raised `req` in this call and not taken it down. -/
def RequestPc.raised : RequestPc → Bool
  | setIpc | loadAck | checkTime | giveUp => true
  | loadLive | clearAck | storeReq => false

/-- The structural invariant: the two contexts of the answering core, where `ack` can be up, and
that a request stays up for as long as its call is in progress. -/
structure Inv (s : State) : Prop where
  /-- The handler runs only above code that has interrupts enabled. -/
  handler_above : s.handler.isSome → s.base.unmasked = true
  /-- `ack` is up only between `storeAck` and `clearAck`. -/
  ack_up : s.words.ack = true → s.spinPc = some .loadReq ∨ s.spinPc = some .clearAck
  /-- The request of a call stays up from `storeReq` on. -/
  req_up : ∀ pc, s.requester = .calling pc → pc.raised = true → s.words.req = true

/-- What one access of the answering core can do to the shared words `w` and to its place `p` in
`park_spin`. -/
inductive Answers (w : Words) (p : Option SpinPc) (w' : Words) (p' : Option SpinPc) : Prop where
  | stays (hp : p = some .loadReq) (hreq : w.req = true) (hw : w' = w) (hp' : p' = some .loadReq)
  | leaves (hp : p = some .loadReq) (hreq : w.req = false) (hw : w' = w) (hp' : p' = some .clearAck)
  | acks (hp : p = some .storeAck) (hw : w' = { w with ack := true }) (hp' : p' = some .loadReq)
  | clears (hp : p = some .clearAck) (hw : w' = { w with ack := false })
      (hp' : p' = some .clearIpc)
  | drops (hp : p = some .clearIpc) (hw : w' = { w with ipc := false }) (hp' : p' = some .restore)
  | outside (hp : p ≠ some .loadReq ∧ p ≠ some .clearAck) (hw : w' = w)
      (hp' : p' = none ∨ p' = some .mask ∨ p' = some .storeAck)

/-- One access of `park_spin` itself. -/
theorem SpinPc.step_answers (w : Words) (pc : SpinPc) :
    Answers w (some pc) (pc.step w).1 (pc.step w).2 := by
  cases pc with
  | mask => exact .outside (by simp) rfl (by simp [SpinPc.step])
  | storeAck => exact .acks rfl rfl rfl
  | loadReq =>
    cases hreq : w.req with
    | true => exact .stays rfl hreq rfl (by simp [SpinPc.step, hreq])
    | false => exact .leaves rfl hreq rfl (by simp [SpinPc.step, hreq])
  | clearAck => exact .clears rfl rfl rfl
  | clearIpc => exact .drops rfl rfl rfl
  | restore => exact .outside (by simp) rfl (by simp [SpinPc.step])

theorem stepAnswer_answers {s s' : State} (hs : Inv s) (h : s.stepAnswer = some s') :
    Answers s.words s.spinPc s'.words s'.spinPc := by
  obtain ⟨w, requester, parked, base, handler⟩ := s
  cases handler with
  | some pc =>
    have hpc := SpinPc.step_answers w pc
    simp only [State.stepAnswer, Option.some.injEq] at h
    subst h
    cases hret : (pc.step w).2 with
    | some pc' => rw [hret] at hpc; simpa [State.spinPc, hret] using hpc
    | none =>
      -- the handler returns, into code that has interrupts enabled
      obtain rfl : pc = .restore := by cases pc <;> simp_all [SpinPc.step]
      have habove : base.unmasked = true := hs.handler_above rfl
      refine .outside (by simp [State.spinPc]) (by simp [SpinPc.step]) ?_
      cases base with
      | spin q => cases q <;> simp_all [SpinPc.step, State.spinPc, Base.unmasked]
      | _ => simp [State.spinPc]
  | none =>
    cases base with
    | sketch => simp [State.stepAnswer] at h
    | pollReq =>
      simp only [State.stepAnswer, Option.some.injEq] at h
      subst h
      refine .outside (by simp [State.spinPc]) rfl (.inl ?_)
      cases w.req <;> simp [State.spinPc]
    | pollAck =>
      simp only [State.stepAnswer, Option.some.injEq] at h
      subst h
      refine .outside (by simp [State.spinPc]) rfl ?_
      cases w.ack <;> simp [State.spinPc]
    | spin pc =>
      have hpc := SpinPc.step_answers w pc
      simp only [State.stepAnswer] at h
      split at h <;> rename_i hstep <;> rw [hstep] at hpc <;>
        simp only [Option.some.injEq] at h <;> subst h <;> simpa [State.spinPc] using hpc

/-- The answering core does not move `req`, `live`, the asking core or the mark it left. -/
theorem stepAnswer_frame {s s' : State} (h : s.stepAnswer = some s') :
    s'.words.req = s.words.req ∧ s'.words.live = s.words.live ∧ s'.requester = s.requester ∧
      s'.parked = s.parked := by
  obtain ⟨⟨req, ack, ipc, live⟩, requester, parked, base, handler⟩ := s
  cases handler with
  | some pc =>
    simp only [State.stepAnswer, Option.some.injEq] at h
    subst h
    cases pc <;> simp [SpinPc.step]
  | none =>
    cases base with
    | sketch => simp [State.stepAnswer] at h
    | pollReq => simp only [State.stepAnswer, Option.some.injEq] at h; subst h; simp
    | pollAck => simp only [State.stepAnswer, Option.some.injEq] at h; subst h; simp
    | spin pc =>
      cases pc <;> simp only [State.stepAnswer, SpinPc.step, Option.some.injEq] at h <;>
        subst h <;> simp

/-- A step of the answering core keeps the structural invariant. -/
theorem Inv.stepAnswer {s s' : State} (hs : Inv s) (h : s.stepAnswer = some s') : Inv s' := by
  obtain ⟨hreq, -, hreqr, -⟩ := stepAnswer_frame h
  refine ⟨fun hh => ?_, fun hack => ?_, fun pc hx hr => ?_⟩
  · clear hreq hreqr
    obtain ⟨w, requester, parked, base, handler⟩ := s
    cases handler with
    | some pc =>
      simp only [State.stepAnswer, Option.some.injEq] at h
      subst h
      exact hs.handler_above rfl
    | none =>
      -- with no handler running, the step leaves none running
      cases base with
      | sketch => simp [State.stepAnswer] at h
      | pollReq => simp only [State.stepAnswer, Option.some.injEq] at h; subst h; simp at hh
      | pollAck => simp only [State.stepAnswer, Option.some.injEq] at h; subst h; simp at hh
      | spin pc =>
        simp only [State.stepAnswer] at h
        split at h <;> simp only [Option.some.injEq] at h <;> subst h <;> simp at hh
  · cases stepAnswer_answers hs h with
    | stays hp hreq hw hp' => exact .inl hp'
    | leaves hp hreq hw hp' => exact .inr hp'
    | acks hp hw hp' => exact .inl hp'
    | clears hp hw hp' => simp [hw] at hack
    | drops hp hw hp' =>
      have := hs.ack_up (by simpa [hw] using hack)
      simp [hp] at this
    | outside hp hw hp' =>
      have := hs.ack_up (by simpa [hw] using hack)
      simp [hp] at this
  · rw [hreq]
    exact hs.req_up pc (hreqr ▸ hx) hr

/-- The asking core does not move the answering core. -/
theorem stepRequest_frame {s s' : State} {late : Bool} (h : s.stepRequest late = some s') :
    s'.base = s.base ∧ s'.handler = s.handler := by
  unfold State.stepRequest at h
  split at h
  · simp at h
  · cases h; exact ⟨rfl, rfl⟩
  · split at h <;> cases h <;> exact ⟨rfl, rfl⟩

theorem stepRequest_spinPc {s s' : State} {late : Bool} (h : s.stepRequest late = some s') :
    s'.spinPc = s.spinPc := by
  obtain ⟨hb, hh⟩ := stepRequest_frame h
  simp only [State.spinPc, hb, hh]

/-- No access of the asking core raises `ack`. -/
theorem stepRequest_ack {s s' : State} {late : Bool} (h : s.stepRequest late = some s')
    (hack : s'.words.ack = true) : s.words.ack = true := by
  obtain ⟨w, requester, parked, base, handler⟩ := s
  cases requester with
  | idle => simp [State.stepRequest] at h
  | unparking => simp only [State.stepRequest, Option.some.injEq] at h; subst h; exact hack
  | calling pc =>
    cases pc <;> simp only [State.stepRequest, RequestPc.step] at h
    case loadLive => cases hl : w.live <;> simp [hl] at h <;> subst h <;> exact hack
    case clearAck => simp only [Option.some.injEq] at h; subst h; simp at hack
    case loadAck => cases ha : w.ack <;> simp [ha] at h <;> subst h <;> simp_all
    all_goals (simp only [Option.some.injEq] at h; subst h; exact hack)

/-- The asking core takes its request down only by ending the call. -/
theorem stepRequest_req {s s' : State} {late : Bool} (hs : Inv s)
    (h : s.stepRequest late = some s') {pc' : RequestPc} (hx : s'.requester = .calling pc')
    (hr : pc'.raised = true) : s'.words.req = true := by
  have hup := hs.req_up
  obtain ⟨w, requester, parked, base, handler⟩ := s
  cases requester with
  | idle => simp [State.stepRequest] at h
  | unparking => simp only [State.stepRequest, Option.some.injEq] at h; subst h; simp at hx
  | calling pc =>
    replace hup := hup pc rfl
    cases pc <;> simp only [State.stepRequest, RequestPc.step] at h
    case loadLive =>
      cases hl : w.live <;> simp [hl] at h <;> subst h <;> simp at hx
      simp [← hx, RequestPc.raised] at hr
    case clearAck =>
      simp only [Option.some.injEq] at h
      subst h
      simp only [Requester.calling.injEq] at hx
      simp [← hx, RequestPc.raised] at hr
    case storeReq => simp only [Option.some.injEq] at h; subst h; rfl
    case loadAck => cases ha : w.ack <;> simp [ha] at h <;> subst h <;> exact hup rfl
    case giveUp => simp only [Option.some.injEq] at h; subst h; simp at hx
    all_goals (simp only [Option.some.injEq] at h; subst h; exact hup rfl)

/-- **The structural invariant** is kept by every step. -/
theorem Inv.step {s s' : State} {a : Action} (hs : Inv s) (h : step s a = some s') : Inv s' := by
  cases a with
  | answer => exact hs.stepAnswer h
  | request late =>
    obtain ⟨hb, hh⟩ := stepRequest_frame h
    refine ⟨fun hx => by rw [hb]; exact hs.handler_above (by rwa [hh] at hx), fun hx => ?_,
      fun pc hx hr => stepRequest_req hs h hx hr⟩
    rw [stepRequest_spinPc h]
    exact hs.ack_up (stepRequest_ack h hx)
  | callPark =>
    simp only [Park.step] at h
    split_ifs at h
    cases h
    refine ⟨hs.handler_above, hs.ack_up, fun pc hx hr => ?_⟩
    simp only [Requester.calling.injEq] at hx
    simp [← hx, RequestPc.raised] at hr
  | callUnpark =>
    simp only [Park.step] at h
    split_ifs at h
    cases h
    exact ⟨hs.handler_above, hs.ack_up, fun pc hx => by simp at hx⟩
  | poll =>
    simp only [Park.step] at h
    split_ifs at h with hc
    cases h
    refine ⟨fun hx => by simp [hc.1] at hx, fun hx => ?_, hs.req_up⟩
    have := hs.ack_up hx
    simp [State.spinPc, hc.1, hc.2] at this
  | interrupt =>
    simp only [Park.step] at h
    split_ifs at h with hc
    cases h
    refine ⟨fun _ => hc.2.2, fun hx => ?_, hs.req_up⟩
    -- interrupts are enabled, so the core is not between `storeAck` and `clearAck`
    have hup := hs.ack_up hx
    have hunmasked := hc.2.2
    cases hbase : s.base with
    | spin q => cases q <;> simp_all [State.spinPc, Base.unmasked]
    | _ => simp_all [State.spinPc]

theorem inv_start (live : Bool) : Inv (start live) := by
  constructor <;> simp [start]

end Ch32h4.Park
