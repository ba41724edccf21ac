import Ch32h4.Park.Equiv.Handshake

/-!
# Safety and answerability of a park round

`ch32h4_park_other` returning true promises that the other core is in the spin and stays there
until `ch32h4_unpark_other`.  Over a single round this is so; over several it is so exactly as
long as the request is never raised while the other core is on its way out of an earlier spin:

* `spinning_of_parked`: if no `storeReq` falls between the other core's last `loadReq` and its
  `clearAck` with an `ack` up, and calls are not nested, a true answer means a parked core;
* `answerable_of_waiting`: if no `storeReq` finds the other core still spinning with its `ack`
  wiped, and no `setIpc` finds it about to clear the channel, then a core that is waited for has
  the request pending.

Neither condition can be dropped: `exists_not_spinning_of_stale` and
`exists_not_answerable_of_late` start from any step that fails it.
-/

namespace Ch32h4.Park

open Machine

/-- The answering core is inside the spin of `park_spin`, held there by a request that is up. -/
def State.spinning (s : State) : Prop := s.spinPc = some .loadReq ∧ s.words.req = true

instance (s : State) : Decidable s.spinning := inferInstanceAs (Decidable (_ ∧ _))

/-! ### A true answer -/

/-- The condition for safety: the request is not raised while the other core, having seen
`req = 0`, is about to clear an `ack` that it stored after this call cleared it; and
`ch32h4_park_other` is not called again before `ch32h4_unpark_other`. -/
def freshAck (s : State) : Action → Prop
  | .callPark => s.parked = false
  | .request _ => s.requester = .calling .storeReq →
      ¬ (s.spinPc = some .clearAck ∧ s.words.ack = true)
  | _ => True

instance : ∀ s a, Decidable (freshAck s a)
  | _, .callPark => inferInstanceAs (Decidable (_ = _))
  | _, .request _ => inferInstanceAs (Decidable (_ → _))
  | _, .callUnpark => isTrue trivial
  | _, .poll => isTrue trivial
  | _, .interrupt => isTrue trivial
  | _, .answer => isTrue trivial

/-- The invariant of the runs that meet `freshAck`. -/
structure Held (s : State) : Prop extends Inv s where
  /-- Once the request is up, an `ack` that is up comes from a core that will see it. -/
  acked : ∀ pc, s.requester = .calling pc → pc.raised = true →
    s.words.ack = true → s.spinPc = some .loadReq
  parked_spinning : s.parked = true → s.words.live = true → s.requester = .idle ∧ s.spinning

theorem held_start (live : Bool) : Held (start live) where
  toInv := inv_start live
  acked pc h := by simp [start] at h
  parked_spinning h := by simp [start] at h

/-- With the request up, an access of the answering core keeps an acknowledging core in the
spin. -/
theorem spinPc_of_ack_stepAnswer {s s' : State} (hs : Inv s) (h : s.stepAnswer = some s')
    (hreq : s.words.req = true) (hacked : s.words.ack = true → s.spinPc = some .loadReq)
    (hack : s'.words.ack = true) : s'.spinPc = some .loadReq := by
  cases stepAnswer_answers hs h with
  | stays hp hr hw hp' => exact hp'
  | leaves hp hr hw hp' => simp [hr] at hreq
  | acks hp hw hp' => exact hp'
  | clears hp hw hp' => simp [hw] at hack
  | drops hp hw hp' => simp [hw, hp] at hack hacked; simp [hacked] at hack
  | outside hp hw hp' => exact absurd (hacked (by simpa [hw] using hack)) hp.1

/-- A core held in the spin stays in it. -/
theorem State.spinning.stepAnswer {s s' : State} (hs : Inv s) (hsp : s.spinning)
    (h : s.stepAnswer = some s') : s'.spinning := by
  obtain ⟨hpc, hreq⟩ := hsp
  refine ⟨?_, by rw [(stepAnswer_frame h).1]; exact hreq⟩
  cases stepAnswer_answers hs h with
  | stays hp hr hw hp' => exact hp'
  | leaves hp hr hw hp' => simp [hr] at hreq
  | acks hp hw hp' => exact hp'
  | clears hp hw hp' => simp [hpc] at hp
  | drops hp hw hp' => simp [hpc] at hp
  | outside hp hw hp' => exact absurd hpc hp.1

/-- A core held in the spin neither polls nor takes the interrupt. -/
theorem State.spinning.not_interrupted {s : State} (hsp : s.spinning) :
    step s .poll = none ∧ step s .interrupt = none := by
  obtain ⟨hpc, -⟩ := hsp
  cases hh : s.handler with
  | some pc => simp [step, hh]
  | none =>
    cases hb : s.base with
    | spin q => simp_all [State.spinPc, step, Base.unmasked]
    | _ => simp_all [State.spinPc]

/-- What an access of the asking core leads to while `freshAck` holds. -/
theorem Held.stepRequest {s s' : State} {late : Bool} (hs : Held s)
    (hg : freshAck s (.request late)) (h : s.stepRequest late = some s') : Held s' := by
  have hinv : Inv s' := hs.toInv.step (a := .request late) h
  have hpc := stepRequest_spinPc h
  obtain ⟨w, requester, parked, base, handler⟩ := s
  cases requester with
  | idle => simp [State.stepRequest] at h
  | unparking =>
    simp only [State.stepRequest, Option.some.injEq] at h
    subst h
    exact ⟨hinv, fun pc hx => by simp at hx,
      fun hp hl => absurd (hs.parked_spinning hp hl).1 (by simp)⟩
  | calling pc =>
    have hnot : ∀ hp : parked = true, ∀ hl : w.live = true, False := fun hp hl =>
      absurd (hs.parked_spinning hp hl).1 (by simp)
    have hacked := hs.acked pc rfl
    cases pc with
    | loadLive =>
      cases hl : w.live <;> simp [State.stepRequest, RequestPc.step, hl] at h <;> subst h
      · exact ⟨hinv, fun pc hx => by simp at hx, fun _ hx => by simp [hl] at hx⟩
      · refine ⟨hinv, fun pc hx hr => ?_, fun hp hl => (hnot hp hl).elim⟩
        simp only [Requester.calling.injEq] at hx
        simp [← hx, RequestPc.raised] at hr
    | clearAck =>
      simp only [State.stepRequest, RequestPc.step, Option.some.injEq] at h
      subst h
      refine ⟨hinv, fun pc hx hr => ?_, fun hp hl => (hnot hp hl).elim⟩
      simp only [Requester.calling.injEq] at hx
      simp [← hx, RequestPc.raised] at hr
    | storeReq =>
      -- the one access at which an `ack` left over from an earlier spin could be adopted
      have hstale := hg rfl
      simp only [State.stepRequest, RequestPc.step, Option.some.injEq] at h
      subst h
      refine ⟨hinv, fun pc _ _ hack => ?_, fun hp hl => (hnot hp hl).elim⟩
      rw [hpc]
      exact (hs.ack_up hack).resolve_right fun hc => hstale ⟨hc, hack⟩
    | setIpc =>
      simp only [State.stepRequest, RequestPc.step, Option.some.injEq] at h
      subst h
      exact ⟨hinv, fun pc _ _ => by rw [hpc]; exact hacked rfl, fun hp hl => (hnot hp hl).elim⟩
    | loadAck =>
      cases ha : w.ack <;> simp [State.stepRequest, RequestPc.step, ha] at h <;> subst h
      · exact ⟨hinv, fun pc _ _ => by rw [hpc]; exact hacked rfl, fun hp hl => (hnot hp hl).elim⟩
      · refine ⟨hinv, fun pc hx => by simp at hx, fun _ _ => ⟨rfl, ?_, hs.req_up _ rfl rfl⟩⟩
        rw [hpc]
        exact hacked rfl ha
    | checkTime =>
      simp only [State.stepRequest, RequestPc.step, Option.some.injEq] at h
      subst h
      exact ⟨hinv, fun pc _ _ => by rw [hpc]; exact hacked rfl, fun hp hl => (hnot hp hl).elim⟩
    | giveUp =>
      simp only [State.stepRequest, RequestPc.step, Option.some.injEq] at h
      subst h
      exact ⟨hinv, fun pc hx => by simp at hx, fun hp hl => (hnot hp hl).elim⟩

/-- **Step lemma** for safety. -/
theorem Held.step {s s' : State} {a : Action} (hs : Held s) (hg : freshAck s a)
    (h : step s a = some s') : Held s' := by
  have hinv : Inv s' := hs.toInv.step h
  cases a with
  | request late => exact hs.stepRequest hg h
  | answer =>
    obtain ⟨-, hlive, hreqr, hpark⟩ := stepAnswer_frame h
    refine ⟨hinv, fun pc hx hr => ?_, fun hp hl => ?_⟩
    · rw [hreqr] at hx
      exact spinPc_of_ack_stepAnswer hs.toInv h (hs.req_up pc hx hr) (hs.acked pc hx hr)
    · rw [hpark] at hp
      rw [hlive] at hl
      obtain ⟨hidle, hsp⟩ := hs.parked_spinning hp hl
      exact ⟨by rw [hreqr]; exact hidle, hsp.stepAnswer hs.toInv h⟩
  | callPark =>
    have hnp : s.parked = false := hg
    simp only [Park.step] at h
    split_ifs at h
    cases h
    refine ⟨hinv, fun pc hx hr => ?_, fun hp => by simp [hnp] at hp⟩
    simp only [Requester.calling.injEq] at hx
    simp [← hx, RequestPc.raised] at hr
  | callUnpark =>
    simp only [Park.step] at h
    split_ifs at h
    cases h
    exact ⟨hinv, fun pc hx => by simp at hx, fun hp => by simp at hp⟩
  | poll =>
    have hnot : ¬ s.spinning := fun hsp => by
      simp [hsp.not_interrupted.1] at h
    simp only [Park.step] at h
    split_ifs at h with hc
    cases h
    refine ⟨hinv, fun pc hx hr hack => ?_,
      fun hp hl => absurd (hs.parked_spinning hp hl).2 hnot⟩
    exact absurd ⟨hs.acked pc hx hr hack, hs.req_up pc hx hr⟩ hnot
  | interrupt =>
    have hnot : ¬ s.spinning := fun hsp => by
      simp [hsp.not_interrupted.2] at h
    simp only [Park.step] at h
    split_ifs at h with hc
    cases h
    refine ⟨hinv, fun pc hx hr hack => ?_,
      fun hp hl => absurd (hs.parked_spinning hp hl).2 hnot⟩
    exact absurd ⟨hs.acked pc hx hr hack, hs.req_up pc hx hr⟩ hnot

/-- **Run lemma** for safety. -/
theorem held_of_reachable {s : State} (h : machine.Reachable freshAck s) : Held s :=
  invariant (fun _ ⟨live, hs⟩ => hs ▸ held_start live) (fun _ _ _ hs hg hst => hs.step hg hst) h

/-- While the other core is parked, nothing but `ch32h4_unpark_other` ends it. -/
theorem parked_step {s s' : State} {a : Action} (hs : Held s) (hp : s.parked = true)
    (hl : s.words.live = true) (hg : freshAck s a) (ha : a ≠ .callUnpark)
    (h : step s a = some s') : s'.parked = true ∧ s'.words.live = true := by
  obtain ⟨hidle, hsp⟩ := hs.parked_spinning hp hl
  cases a with
  | callUnpark => exact absurd rfl ha
  | callPark => exact absurd hp (by simpa [freshAck] using hg)
  | request late => simp [Park.step, State.stepRequest, hidle] at h
  | poll => simp [hsp.not_interrupted.1] at h
  | interrupt => simp [hsp.not_interrupted.2] at h
  | answer =>
    obtain ⟨-, hlive, -, hpark⟩ := stepAnswer_frame h
    exact ⟨by rw [hpark, hp], by rw [hlive, hl]⟩

/-- **Parking is safe** when every step meets `freshAck`: when `ch32h4_park_other` has returned
true for a live core, that core is in the spin, and it is in the spin after any further steps in
which `ch32h4_unpark_other` is not called. -/
theorem spinning_of_parked {s : State} (h : machine.Reachable freshAck s) (hp : s.parked = true)
    (hl : s.words.live = true) :
    s.spinning ∧ ∀ as s', .callUnpark ∉ as → machine.run freshAck s as = some s' → s'.spinning := by
  refine ⟨((held_of_reachable h).parked_spinning hp hl).2, fun as => ?_⟩
  induction as generalizing s with
  | nil =>
    intro s' _ hrun
    rw [run, Option.some.injEq] at hrun
    exact hrun ▸ ((held_of_reachable h).parked_spinning hp hl).2
  | cons a as ih =>
    intro s' has hrun
    rw [run] at hrun
    split_ifs at hrun with hg
    obtain ⟨t, ht, hrest⟩ := Option.bind_eq_some_iff.mp hrun
    obtain ⟨hp', hl'⟩ := parked_step (held_of_reachable h) hp hl hg
      (fun ha => has (ha ▸ List.mem_cons_self ..)) ht
    exact ih (.step h hg ht) hp' hl' s' (fun hm => has (List.mem_cons_of_mem _ hm)) hrest

/-- One undisturbed round: the call, the interrupt, the acknowledgement. -/
def round : List Action :=
  [.callPark, .request false, .request false, .request false, .request false,
    .interrupt, .answer, .answer, .request false]

theorem spinning_of_parked_round :
    ∃ s, machine.run freshAck (start true) round = some s ∧ s.parked = true ∧ s.spinning := by
  have hrun : (machine.run freshAck (start true) round).isSome := by decide
  obtain ⟨s, hs⟩ := Option.isSome_iff_exists.mp hrun
  have hmarks : (machine.run freshAck (start true) round).map
      (fun s => (s.parked, s.words.live)) = some (true, true) := by decide
  rw [hs, Option.map_some, Option.some.injEq, Prod.mk.injEq] at hmarks
  exact ⟨s, hs, hmarks.1,
    (spinning_of_parked (reachable_of_run (.init ⟨true, rfl⟩) hs) hmarks.1 hmarks.2).1⟩

/-- A request that times out with the interrupt still pending, and a second one whose window
between `clearAck` and `storeReq` the late handler falls into. -/
def lateHandler : List Action :=
  [.callPark, .request false, .request false, .request false, .request false, .request false,
    .request true, .request false,
    .callPark, .request false, .request false, .interrupt, .answer, .answer, .answer,
    .request false, .request false, .request false]

/-- A true answer alone promises nothing: after `lateHandler` the other core is on its way back to
flash. -/
theorem not_spinning_of_parked :
    ¬ ∀ s, machine.Reachable anyStep s → s.parked = true → s.words.live = true → s.spinning := by
  intro hall
  have hrun : ((machine.run anyStep (start true) lateHandler).map fun s =>
      (s.parked, s.words.live, decide s.spinning)) = some (true, true, false) := by decide
  obtain ⟨s, hs, hmarks⟩ := Option.map_eq_some_iff.mp hrun
  simp only [Prod.mk.injEq, decide_eq_false_iff_not] at hmarks
  exact hmarks.2.2 (hall s (reachable_of_run (.init ⟨true, rfl⟩) hs) hmarks.1 hmarks.2.1)

/-- Every request excluded by `freshAck` can go wrong: the `ack` it adopts is taken down after
`ch32h4_park_other` has returned true on it. -/
theorem exists_not_spinning_of_stale {s : State} {late : Bool} (hg : ¬ freshAck s (.request late)) :
    ∃ s', machine.run anyStep s [.request false, .request false, .request false] = some s' ∧
      s'.parked = true ∧ ¬ s'.spinning := by
  obtain ⟨w, requester, parked, base, handler⟩ := s
  simp only [freshAck, Classical.not_imp, not_not] at hg
  obtain ⟨rfl, hpc, hack⟩ := hg
  obtain ⟨req, ack, ipc, live⟩ := w
  obtain rfl : ack = true := hack
  refine ⟨_, rfl, rfl, fun hsp => ?_⟩
  have : some SpinPc.clearAck = some SpinPc.loadReq := hpc ▸ hsp.1
  simp at this

/-! ### A request that is answered -/

/-- `ch32h4_park_other` is in its wait loop, with its request up and no answer yet. -/
def State.waiting (s : State) : Prop :=
  (s.requester = .calling .loadAck ∨ s.requester = .calling .checkTime) ∧ s.words.req = true ∧
    s.words.ack = false

/-- An answer is still to come: the interrupt is pending or the `storeAck` of the current
`park_spin` lies ahead, and the other core is not spinning past it.  In particular a core that has
returned to flash has the interrupt pending. -/
def State.answerable (s : State) : Prop :=
  (s.words.ipc = true ∨ s.spinPc = some .mask ∨ s.spinPc = some .storeAck) ∧
    s.spinPc ≠ some .loadReq

instance (s : State) : Decidable s.waiting := inferInstanceAs (Decidable (_ ∧ _))

instance (s : State) : Decidable s.answerable := inferInstanceAs (Decidable (_ ∧ _))

/-- The condition for liveness: the request is not raised while the other core still spins on an
earlier one whose `ack` this call has wiped, and the channel is not set while the other core is
between its last `loadReq` and its `clearIpc`. -/
def freshRequest (s : State) : Action → Prop
  | .request _ =>
    (s.requester = .calling .storeReq → ¬ (s.spinPc = some .loadReq ∧ s.words.ack = false)) ∧
    (s.requester = .calling .setIpc →
      ¬ (s.spinPc = some .clearAck ∨ s.spinPc = some .clearIpc))
  | _ => True

instance : ∀ s a, Decidable (freshRequest s a)
  | _, .request _ => inferInstanceAs (Decidable (_ ∧ _))
  | _, .callPark => isTrue trivial
  | _, .callUnpark => isTrue trivial
  | _, .poll => isTrue trivial
  | _, .interrupt => isTrue trivial
  | _, .answer => isTrue trivial

/-- The channel has been set in this call. -/
def RequestPc.rung : RequestPc → Bool
  | loadAck | checkTime | giveUp => true
  | loadLive | clearAck | storeReq | setIpc => false

/-- The invariant of the runs that meet `freshRequest`. -/
structure Rung (s : State) : Prop extends Inv s where
  /-- Once the request is up, a core that spins on it has its `ack` up. -/
  acked : ∀ pc, s.requester = .calling pc → pc.raised = true →
    s.spinPc = some .loadReq → s.words.ack = true
  /-- Once the channel is set it stays set, because nobody is on the way to clearing it. -/
  pending : ∀ pc, s.requester = .calling pc → pc.rung = true →
    s.words.ipc = true ∧ s.spinPc ≠ some .clearAck ∧ s.spinPc ≠ some .clearIpc

theorem RequestPc.raised_of_rung {pc : RequestPc} (h : pc.rung = true) : pc.raised = true := by
  cases pc <;> simp_all [rung, raised]

theorem rung_start (live : Bool) : Rung (start live) where
  toInv := inv_start live
  acked pc h := by simp [start] at h
  pending pc h := by simp [start] at h

/-- What an access of the asking core leads to while `freshRequest` holds. -/
theorem Rung.stepRequest {s s' : State} {late : Bool} (hs : Rung s)
    (hg : freshRequest s (.request late)) (h : s.stepRequest late = some s') : Rung s' := by
  have hinv : Inv s' := hs.toInv.step (a := .request late) h
  have hpc := stepRequest_spinPc h
  obtain ⟨hstore, hset⟩ := hg
  obtain ⟨w, requester, parked, base, handler⟩ := s
  cases requester with
  | idle => simp [State.stepRequest] at h
  | unparking =>
    simp only [State.stepRequest, Option.some.injEq] at h
    subst h
    exact ⟨hinv, fun pc hx => by simp at hx, fun pc hx => by simp at hx⟩
  | calling pc =>
    have hacked := hs.acked pc rfl
    have hpending := hs.pending pc rfl
    cases pc with
    | loadLive =>
      cases hl : w.live <;> simp [State.stepRequest, RequestPc.step, hl] at h <;> subst h
      · exact ⟨hinv, fun pc hx => by simp at hx, fun pc hx => by simp at hx⟩
      · refine ⟨hinv, fun pc hx hr => ?_, fun pc hx hr => ?_⟩ <;>
          simp only [Requester.calling.injEq] at hx <;>
          simp [← hx, RequestPc.raised, RequestPc.rung] at hr
    | clearAck =>
      simp only [State.stepRequest, RequestPc.step, Option.some.injEq] at h
      subst h
      refine ⟨hinv, fun pc hx hr => ?_, fun pc hx hr => ?_⟩ <;>
        simp only [Requester.calling.injEq] at hx <;>
        simp [← hx, RequestPc.raised, RequestPc.rung] at hr
    | storeReq =>
      -- a core that still spins on the earlier request would adopt this one unanswered
      have hspin := hstore rfl
      simp only [State.stepRequest, RequestPc.step, Option.some.injEq] at h
      subst h
      refine ⟨hinv, fun pc _ _ hp => ?_, fun pc hx hr => ?_⟩
      · rw [hpc] at hp
        simpa using fun hack => hspin ⟨hp, hack⟩
      · simp only [Requester.calling.injEq] at hx
        simp [← hx, RequestPc.rung] at hr
    | setIpc =>
      -- a core that is about to clear the channel would wipe this request
      have hleave := hset rfl
      simp only [State.stepRequest, RequestPc.step, Option.some.injEq] at h
      subst h
      refine ⟨hinv, fun pc _ _ => by rw [hpc]; exact hacked rfl, fun pc _ _ => ⟨rfl, ?_, ?_⟩⟩ <;>
        rw [hpc] <;> intro hp
      · exact hleave (.inl hp)
      · exact hleave (.inr hp)
    | loadAck =>
      cases ha : w.ack <;> simp [State.stepRequest, RequestPc.step, ha] at h <;> subst h
      · exact ⟨hinv, fun pc _ _ => by rw [hpc]; exact hacked rfl,
          fun pc _ _ => by rw [hpc]; exact hpending rfl⟩
      · exact ⟨hinv, fun pc hx => by simp at hx, fun pc hx => by simp at hx⟩
    | checkTime =>
      simp only [State.stepRequest, RequestPc.step, Option.some.injEq] at h
      subst h
      exact ⟨hinv, fun pc _ _ => by rw [hpc]; exact hacked rfl,
        fun pc _ _ => by rw [hpc]; exact hpending rfl⟩
    | giveUp =>
      simp only [State.stepRequest, RequestPc.step, Option.some.injEq] at h
      subst h
      exact ⟨hinv, fun pc hx => by simp at hx, fun pc hx => by simp at hx⟩

/-- What an access of the answering core leads to while `freshRequest` holds. -/
theorem Rung.stepAnswer {s s' : State} (hs : Rung s) (h : s.stepAnswer = some s') : Rung s' := by
  have hinv : Inv s' := hs.toInv.stepAnswer h
  obtain ⟨-, -, hreqr, -⟩ := stepAnswer_frame h
  have hans := stepAnswer_answers hs.toInv h
  refine ⟨hinv, fun pc hx hr hp => ?_, fun pc hx hr => ?_⟩
  · have hup := hs.req_up pc (hreqr ▸ hx) hr
    have hacked := hs.acked pc (hreqr ▸ hx) hr
    cases hans with
    | stays hp₀ _ hw _ => rw [hw]; exact hacked hp₀
    | leaves _ hdown _ _ => simp [hdown] at hup
    | acks _ hw _ => simp [hw]
    | clears _ _ hp' => simp [hp'] at hp
    | drops _ _ hp' => simp [hp'] at hp
    | outside _ _ hp' => rcases hp' with hp' | hp' | hp' <;> simp [hp'] at hp
  · have hup := hs.req_up pc (hreqr ▸ hx) (RequestPc.raised_of_rung hr)
    obtain ⟨hipc, hnc, hni⟩ := hs.pending pc (hreqr ▸ hx) hr
    cases hans with
    | stays _ _ hw hp' => exact ⟨by rw [hw]; exact hipc, by simp [hp'], by simp [hp']⟩
    | leaves _ hdown _ _ => simp [hdown] at hup
    | acks _ hw hp' => exact ⟨by rw [hw]; exact hipc, by simp [hp'], by simp [hp']⟩
    | clears hp₀ _ _ => exact absurd hp₀ hnc
    | drops hp₀ _ _ => exact absurd hp₀ hni
    | outside _ hw hp' =>
      refine ⟨by rw [hw]; exact hipc, ?_, ?_⟩ <;> rcases hp' with hp' | hp' | hp' <;> simp [hp']

/-- **Step lemma** for liveness. -/
theorem Rung.step {s s' : State} {a : Action} (hs : Rung s) (hg : freshRequest s a)
    (h : step s a = some s') : Rung s' := by
  have hinv : Inv s' := hs.toInv.step h
  cases a with
  | request late => exact hs.stepRequest hg h
  | answer => exact hs.stepAnswer h
  | callPark =>
    simp only [Park.step] at h
    split_ifs at h
    cases h
    refine ⟨hinv, fun pc hx hr => ?_, fun pc hx hr => ?_⟩ <;>
      simp only [Requester.calling.injEq] at hx <;>
      simp [← hx, RequestPc.raised, RequestPc.rung] at hr
  | callUnpark =>
    simp only [Park.step] at h
    split_ifs at h
    cases h
    exact ⟨hinv, fun pc hx => by simp at hx, fun pc hx => by simp at hx⟩
  | poll =>
    simp only [Park.step] at h
    split_ifs at h with hc
    cases h
    refine ⟨hinv, fun pc hx hr hp => ?_,
      fun pc hx hr => ⟨(hs.pending pc hx hr).1, ?_, ?_⟩⟩
    · simp [State.spinPc, hc.1] at hp
    · simp [State.spinPc, hc.1]
    · simp [State.spinPc, hc.1]
  | interrupt =>
    simp only [Park.step] at h
    split_ifs at h
    cases h
    refine ⟨hinv, fun pc hx hr hp => ?_,
      fun pc hx hr => ⟨(hs.pending pc hx hr).1, ?_, ?_⟩⟩
    · simp [State.spinPc] at hp
    · simp [State.spinPc]
    · simp [State.spinPc]

/-- **Run lemma** for liveness. -/
theorem rung_of_reachable {s : State} (h : machine.Reachable freshRequest s) : Rung s :=
  invariant (fun _ ⟨live, hs⟩ => hs ▸ rung_start live) (fun _ _ _ hs hg hst => hs.step hg hst) h

/-- **No request is lost** when every step meets `freshRequest`: while `ch32h4_park_other` waits,
an answer is still to come. -/
theorem answerable_of_waiting {s : State} (h : machine.Reachable freshRequest s)
    (hw : s.waiting) : s.answerable := by
  obtain ⟨hpc, hreq, hack⟩ := hw
  have hs := rung_of_reachable h
  have key : ∀ pc : RequestPc, s.requester = .calling pc → pc.rung = true → s.answerable :=
    fun pc hx hr => ⟨.inl (hs.pending pc hx hr).1, fun hp => by
      simp [hs.acked pc hx (RequestPc.raised_of_rung hr) hp] at hack⟩
  rcases hpc with hpc | hpc
  · exact key _ hpc rfl
  · exact key _ hpc rfl

/-- A first request, waited for. -/
def firstWait : List Action :=
  [.callPark, .request false, .request false, .request false, .request false]

theorem answerable_of_waiting_firstWait :
    ∃ s, machine.run freshRequest (start true) firstWait = some s ∧ s.waiting ∧ s.answerable := by
  have hrun : ((machine.run freshRequest (start true) firstWait).map fun s =>
      decide s.waiting) = some true := by decide
  obtain ⟨s, hs, hw⟩ := Option.map_eq_some_iff.mp hrun
  exact ⟨s, hs, of_decide_eq_true hw,
    answerable_of_waiting (reachable_of_run (.init ⟨true, rfl⟩) hs) (of_decide_eq_true hw)⟩

/-- Two rounds back to back: the second request is raised while the other core is leaving the
first, which then clears the channel the second one has set. -/
def backToBack : List Action :=
  round ++ [.callUnpark, .request false, .answer,
    .callPark, .request false, .request false, .request false, .request false,
    .answer, .answer, .answer]

/-- A request can be lost: after `backToBack` the other core is back in flash with the channel
clear, and the call still waits. -/
theorem not_answerable_of_waiting :
    ¬ ∀ s, machine.Reachable anyStep s → s.waiting → s.answerable := by
  intro hall
  have hrun : ((machine.run anyStep (start true) backToBack).map fun s =>
      (decide s.waiting, decide s.answerable)) = some (true, false) := by decide
  obtain ⟨s, hs, hmarks⟩ := Option.map_eq_some_iff.mp hrun
  simp only [Prod.mk.injEq, decide_eq_true_eq, decide_eq_false_iff_not] at hmarks
  exact hmarks.2 (hall s (reachable_of_run (.init ⟨true, rfl⟩) hs) hmarks.1)

/-- A core that is leaving the spin clears the channel in at most two further accesses. -/
theorem exists_clearIpc {s : State}
    (hpc : s.spinPc = some .clearAck ∨ (s.spinPc = some .clearIpc ∧ s.words.ack = false)) :
    ∃ as s', machine.run anyStep s as = some s' ∧ s'.requester = s.requester ∧
      s'.words.req = s.words.req ∧ s'.words.ack = false ∧ s'.words.ipc = false ∧
      s'.spinPc = some .restore := by
  obtain ⟨w, requester, parked, base, handler⟩ := s
  cases handler with
  | some pc =>
    rcases hpc with hpc | ⟨hpc, hack⟩ <;> obtain rfl : pc = _ := Option.some.inj hpc
    · exact ⟨[.answer, .answer], _, rfl, rfl, rfl, rfl, rfl, rfl⟩
    · exact ⟨[.answer], _, rfl, rfl, rfl, hack, rfl, rfl⟩
  | none =>
    cases base with
    | spin pc =>
      rcases hpc with hpc | ⟨hpc, hack⟩ <;> obtain rfl : pc = _ := Option.some.inj hpc
      · exact ⟨[.answer, .answer], _, rfl, rfl, rfl, rfl, rfl, rfl⟩
      · exact ⟨[.answer], _, rfl, rfl, rfl, hack, rfl, rfl⟩
    | _ => simp [State.spinPc] at hpc

/-- Every request excluded by `freshRequest` can be lost: a few further steps leave the call
waiting for an answer that will not come. -/
theorem exists_not_answerable_of_late {s : State} {late : Bool} (hs : Inv s)
    (hg : ¬ freshRequest s (.request late)) :
    ∃ as s', machine.run anyStep s as = some s' ∧ s'.waiting ∧ ¬ s'.answerable := by
  have hwhich : (s.requester = .calling .storeReq ∧
        s.spinPc = some .loadReq ∧ s.words.ack = false) ∨
      (s.requester = .calling .setIpc ∧
        (s.spinPc = some .clearAck ∨ s.spinPc = some .clearIpc)) := by
    by_contra hno
    exact hg ⟨fun hr hp => hno (.inl ⟨hr, hp⟩), fun hr hp => hno (.inr ⟨hr, hp⟩)⟩
  rcases hwhich with ⟨hreqr, hpc, hack⟩ | ⟨hreqr, hpc⟩
  · -- still spinning, with the `ack` wiped
    obtain ⟨w, requester, parked, base, handler⟩ := s
    obtain rfl : requester = _ := hreqr
    exact ⟨[.request false, .request false], _, rfl, ⟨.inl rfl, rfl, hack⟩, fun hans => hans.2 hpc⟩
  · -- leaving, and about to clear the channel
    have hreq := hs.req_up _ hreqr rfl
    have hdown : s.spinPc = some .clearIpc → s.words.ack = false := fun hpc => by
      by_contra hack
      have := hs.ack_up (by simpa using hack)
      simp [hpc] at this
    obtain ⟨w, requester, parked, base, handler⟩ := s
    obtain rfl : requester = _ := hreqr
    obtain ⟨as, s', hrun, hr, hq, hack, hipc, hp⟩ := exists_clearIpc
      (s := ⟨{ w with ipc := true }, .calling .loadAck, parked, base, handler⟩)
      (hpc.imp_right fun hpc => ⟨hpc, hdown hpc⟩)
    refine ⟨.request false :: as, s', hrun, ⟨.inl hr, hq.trans hreq, hack⟩, fun hans => ?_⟩
    simp [State.answerable, hipc, hp] at hans

end Ch32h4.Park
