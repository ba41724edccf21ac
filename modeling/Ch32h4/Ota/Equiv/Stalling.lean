import Ch32h4.Ota.Transfer
import Ch32h4.Update.Equiv.Handover
import Ch32h4.Update.Equiv.InPlace

/-!
# What the receive loop keeps to

`Sound` holds in every run: while the update runs, what `write` counted and what the client still
has are together what came in (`Sound.turn` keeps it, with `fromTurn_spec` of the updater), and
behind the loop no update runs.

What becomes of the waits is another matter.  The counter is taken down behind every look without
data, so it is `-1` when a wait expires, and `0` when its last look finds data; the test behind the
inner loop takes the second for the first (`step_waits`).  A wait that has data at an earlier look
is told right, and notes are never taken back, so a run keeps its promises if and only if no wait
of it comes down to its last look (`kept_iff_timely`).
-/

namespace Ch32h4.Ota

open Machine Update Update.Updater

/-! ### The updater -/

section

variable (b : Board) (drv : Driver) (u : Updater) (src : List UInt8) (available : ℕ)

/-- A page that cannot be written ends the update. -/
theorem size_writeBuffer_of_false {b : Board} {drv : Driver} {u : Updater}
    (h : (u.writeBuffer b drv).2 = false) : (u.writeBuffer b drv).1.size = 0 := by
  unfold Updater.writeBuffer at h ⊢
  split_ifs at h ⊢ <;> rfl

/-- A turn of the template counts what it reads, unless the update ends there. -/
theorem fromTurn_count :
    (u.fromTurn b drv src available).2.1 = toRead u available ∨
      (u.fromTurn b drv src available).1.size = 0 := by
  unfold fromTurn toRead
  dsimp only
  by_cases hover : u.buffer.length + available > bufferSize
  · rw [if_pos hover, if_pos hover]
    split_ifs with hok
    · exact .inl rfl
    · exact .inr (size_writeBuffer_of_false (Bool.eq_false_iff.mpr hok))
  · rw [if_neg hover, if_neg hover]
    split_ifs <;> exact .inl rfl

theorem fromTurn_le : (u.fromTurn b drv src available).2.1 ≤ available := by
  unfold fromTurn
  dsimp only
  by_cases hover : u.buffer.length + available > bufferSize
  · rw [if_pos hover]
    split_ifs
    · show bufferSize - u.buffer.length ≤ available
      omega
    · exact Nat.zero_le available
  · rw [if_neg hover]
    split_ifs <;> exact Nat.le_refl available

/-- Behind `end`, no update runs. -/
theorem size_end (even alloc : Bool) (null : Mem) : (u.end b drv even alloc null).1.size = 0 := by
  unfold Updater.end
  dsimp only
  by_cases hzero : u.size = 0
  · rw [if_pos hzero]
    rfl
  · rw [if_neg hzero]
    generalize (if u.progress = 0 then u.setError .noData else u) = u'
    split_ifs
    · rfl
    · exact InPlace.size_conclude ..
    · exact InPlace.size_conclude ..

end

namespace Transfer

variable {b : Board} {t t' : Transfer} {e : Event}

/-! ### What every run keeps -/

/-- The update runs, and what was counted and what is left in the client are what came in. -/
def Runs (b : Board) (t : Transfer) : Prop :=
  ∃ declared ever, Receiving b declared t.accepted ever t.u ∧ Prompt t.u ∧
    t.accepted ++ t.client.rx = t.arrived

structure Sound (b : Board) (t : Transfer) : Prop where
  state : t.Runs b ∨ t.u.size = 0 ∧ t.accepted <+: t.arrived ∧ ∀ w, t.place ≠ .writing w
  small : t.accepted.length < 2 ^ 32
  counted : t.total + t.place.written = t.accepted.length
  ended : t.place = .left → t.u.size = 0

theorem Runs.isPrefix (h : t.Runs b) : t.accepted <+: t.arrived := by
  obtain ⟨_, _, -, -, hall⟩ := h
  exact ⟨t.client.rx, hall⟩

theorem Runs.size_ne (h : t.Runs b) : t.u.size ≠ 0 := by
  obtain ⟨_, _, hrec, -, -⟩ := h
  exact hrec.size_pos

theorem Sound.isPrefix (h : t.Sound b) : t.accepted <+: t.arrived := by
  obtain hruns | ⟨-, hprefix, -⟩ := h.state
  · exact hruns.isPrefix
  · exact hprefix

theorem Sound.receive (h : t.Sound b) : (t.receive e).Sound b := by
  unfold Transfer.receive
  split_ifs with hup
  · refine ⟨?_, h.small, h.counted, h.ended⟩
    obtain ⟨declared, ever, hrec, hprompt, hall⟩ | ⟨hsize, hprefix, hplace⟩ := h.state
    · refine .inl ⟨declared, ever, hrec, hprompt, ?_⟩
      rw [← hall, List.append_assoc]
    · exact .inr ⟨hsize, hprefix.trans (List.prefix_append _ _), hplace⟩
  · exact h

theorem place_receive : (t.receive e).place = t.place := by
  unfold Transfer.receive
  split_ifs <;> rfl

/-- Out of the loop, whatever becomes of the client. -/
theorem Sound.leave (h : t.Sound b) (hplace : t.place.written = 0) (even : Bool) :
    (t.leave b e even).Sound b := by
  refine ⟨.inr ⟨size_end _ _ _ _ _ _, h.isPrefix, ?_⟩, h.small, ?_, fun _ => size_end ..⟩
  · intro w hw
    cases hw
  · have hcounted := h.counted
    rw [hplace] at hcounted
    exact hcounted

/-- On to another place of the loop, at which nothing is counted yet. -/
theorem Sound.goTo (h : t.Sound b) (hplace : t.place.written = 0) {place : Place}
    (hwritten : place.written = 0) (hleft : place ≠ .left)
    (hruns : place = .writing 0 → t.u.size ≠ 0) : ({ t with place } : Transfer).Sound b := by
  refine ⟨?_, h.small, ?_, fun hp => absurd hp hleft⟩
  · obtain hr | ⟨hsize, hprefix, -⟩ := h.state
    · exact .inl hr
    · refine .inr ⟨hsize, hprefix, ?_⟩
      rintro w rfl
      obtain rfl : w = 0 := hwritten
      exact hruns rfl hsize
  · have hcounted := h.counted
    rw [hplace] at hcounted
    show t.total + place.written = t.accepted.length
    rw [hwritten]
    exact hcounted

theorem Sound.head (h : t.Sound b) (hplace : t.place = .top) : (t.head b e).Sound b := by
  have hwritten : t.place.written = 0 := by rw [hplace]; rfl
  unfold Transfer.head
  split_ifs
  · exact h.goTo hwritten rfl nofun nofun
  · exact h.leave hwritten false

theorem Sound.waitOver (h : t.Sound b) (hplace : t.place.written = 0) (waited : ℤ) :
    (t.waitOver b e waited).Sound b := by
  have hnote (failed : Bool) : (t.note failed).Sound b := ⟨h.state, h.small, h.counted, h.ended⟩
  unfold Transfer.waitOver
  split_ifs with hwaited hno
  · -- the client is dropped with what it has, and the update ends
    refine ⟨.inr ⟨size_end _ _ _ _ _ _, h.isPrefix, ?_⟩, h.small, ?_, fun _ => size_end ..⟩
    · intro w hw
      cases hw
    · have hcounted := h.counted
      rw [hplace] at hcounted
      exact hcounted
  · exact (hnote false).goTo hplace rfl nofun nofun
  · refine (hnote false).goTo hplace rfl nofun fun _ => ?_
    rw [not_or, not_not, not_not] at hno
    exact Nat.pos_iff_ne_zero.mp hno.2

theorem Sound.look (h : t.Sound b) {waited : ℕ} (hplace : t.place = .waiting waited) :
    (t.look b e waited).Sound b := by
  have hwritten : t.place.written = 0 := by rw [hplace]; rfl
  unfold Transfer.look
  split_ifs
  · exact h.waitOver hwritten _
  · exact h.waitOver hwritten _
  · exact h.goTo hwritten rfl nofun nofun

/-- Back at the top, with what `write` returns. -/
theorem Sound.wrote {written : ℕ}
    (hstate : t.Runs b ∨ t.u.size = 0 ∧ t.accepted <+: t.arrived)
    (hsmall : t.accepted.length < 2 ^ 32) (hcounted : t.total + written = t.accepted.length) :
    (t.wrote written).Sound b := by
  refine ⟨?_, hsmall, ?_, nofun⟩
  · obtain hruns | ⟨hsize, hprefix⟩ := hstate
    · exact .inl hruns
    · exact .inr ⟨hsize, hprefix, nofun⟩
  · show (if written > 0 then (t.total + written) % 2 ^ 32 else t.total) + 0 = t.accepted.length
    split_ifs with hpos
    · rw [hcounted, Nat.add_zero, Nat.mod_eq_of_lt hsmall]
    · omega

/-- On to the next look of the template. -/
theorem Sound.goOn {written : ℕ} (hruns : t.Runs b) (hsmall : t.accepted.length < 2 ^ 32)
    (hcounted : t.total + written = t.accepted.length) :
    ({ t with place := .writing written } : Transfer).Sound b :=
  ⟨.inl hruns, hsmall, hcounted, nofun⟩

/-- What a read leaves: the update runs on, or it ends with no more counted than came in. -/
theorem Runs.take (h : t.Runs b) {available : ℕ} (ha : t.u.clamp t.client.available = available)
    {r : Updater × ℕ × Bool} (hr : t.u.fromTurn b e.drv t.client.rx available = r) :
    ((t.take available r).Runs b ∨ r.1.size = 0 ∧ r.2.2 = false) ∧
      t.accepted ++ t.client.rx.take r.2.1 <+: t.arrived ∧
      (t.accepted ++ t.client.rx.take r.2.1).length = t.accepted.length + r.2.1 ∧
      t.accepted.length + r.2.1 < 2 ^ 32 := by
  obtain ⟨declared, ever, hrec, hprompt, hall⟩ := h
  obtain ⟨hfits, hle⟩ := hrec.clamp_le t.client.available
  rw [ha] at hfits hle
  obtain ⟨hgoes, hgo⟩ := fromTurn_spec e.drv hrec t.client.rx hfits hle
  have hcount := fromTurn_count b e.drv t.u t.client.rx available
  have hturn := fromTurn_le b e.drv t.u t.client.rx available
  rw [hr] at hgoes hgo hcount hturn
  have hsmall := hrec.small
  refine ⟨?_, ?_, ?_, by omega⟩
  · obtain ⟨hrec', hprompt'⟩ | hdown := hgoes
    · refine .inl ⟨declared, ever, hrec', hprompt', ?_⟩
      have hread := hcount.resolve_right hrec'.size_pos
      show t.accepted ++ t.client.rx.take r.2.1 ++ t.client.rx.drop (toRead t.u _) = t.arrived
      rw [← hread, List.append_assoc, List.take_append_drop, hall]
    · refine .inr ⟨hdown.size, Bool.eq_false_iff.mpr fun hgoOn => ?_⟩
      exact (hgo hgoOn).size_pos hdown.size
  · rw [← hall]
    exact (List.prefix_append_right_inj _).mpr (List.take_prefix _ _)
  · rw [List.length_append, List.length_take_of_le (Nat.le_trans hturn hle)]

/-- A turn that finds data, with the result of the updater at hand. -/
theorem turn_of_available (hsome : t.client.available ≠ 0) {available : ℕ}
    (ha : t.u.clamp t.client.available = available) {r : Updater × ℕ × Bool}
    (hr : t.u.fromTurn b e.drv t.client.rx available = r) (written : ℕ) :
    t.turn b e written =
      if r.2.2 then { t.take available r with place := .writing (written + r.2.1) }
      else (t.take available r).wrote (written + r.2.1) := by
  subst ha hr
  rw [Transfer.turn]
  exact if_neg hsome

theorem Sound.counted_of_writing (h : t.Sound b) {written : ℕ}
    (hplace : t.place = .writing written) : t.total + written = t.accepted.length := by
  have := h.counted
  rwa [hplace] at this

/-- A turn that finds data.  What the updater makes of it stays a variable, for the kernel to leave
its arithmetic alone. -/
theorem Sound.turn_of_available (h : t.Sound b) {written : ℕ} (hplace : t.place = .writing written)
    (hsome : t.client.available ≠ 0) {available : ℕ}
    (ha : t.u.clamp t.client.available = available) {r : Updater × ℕ × Bool}
    (hr : t.u.fromTurn b e.drv t.client.rx available = r) : (t.turn b e written).Sound b := by
  have hcounted := h.counted_of_writing hplace
  obtain hruns | ⟨-, -, hnot⟩ := h.state
  swap
  · exact absurd hplace (hnot written)
  obtain ⟨hnext, hprefix, hlength, hsmall⟩ := hruns.take ha hr
  have hcounted' : t.total + (written + r.2.1) = t.accepted.length + r.2.1 := by omega
  rw [Transfer.turn_of_available hsome ha hr]
  split_ifs with hgoOn
  · have hruns' := hnext.resolve_right fun hend => by
      rw [hend.2] at hgoOn
      cases hgoOn
    exact Sound.goOn hruns' (lt_of_eq_of_lt hlength hsmall) (hcounted'.trans hlength.symm)
  · refine Sound.wrote ?_ (lt_of_eq_of_lt hlength hsmall) (hcounted'.trans hlength.symm)
    obtain hruns' | hend := hnext
    · exact .inl hruns'
    · exact .inr ⟨hend.1, hprefix⟩

/-- **A turn of the template** takes from the client what it counts, or ends the update. -/
theorem Sound.turn (h : t.Sound b) {written : ℕ} (hplace : t.place = .writing written) :
    (t.turn b e written).Sound b := by
  by_cases hnone : t.client.available = 0
  · rw [Transfer.turn, if_pos hnone]
    obtain hruns | ⟨-, -, hnot⟩ := h.state
    · exact Sound.wrote (.inl hruns) h.small (h.counted_of_writing hplace)
    · exact absurd hplace (hnot written)
  · exact h.turn_of_available hplace hnone rfl rfl

theorem Sound.step (h : t.Sound b) (hstep : t.step b e = some t') : t'.Sound b := by
  have hreceive : (t.receive e).Sound b := h.receive
  unfold Transfer.step at hstep
  split at hstep
  · next htop =>
    obtain rfl := Option.some.inj hstep
    exact hreceive.head (place_receive.trans htop)
  · next waited hwaiting =>
    obtain rfl := Option.some.inj hstep
    exact hreceive.look (place_receive.trans hwaiting)
  · next written hwriting =>
    obtain rfl := Option.some.inj hstep
    exact hreceive.turn (place_receive.trans hwriting)
  · cases hstep

/-- The loop is entered with nothing received. -/
theorem sound_entered {u : Updater} {size : ℕ} {command : Command} {alloc : Option Mem}
    {md5 : List Char} (hpast : u.past = false) (hbegin : (u.begin b size command alloc).2 = true) :
    (entered ((u.begin b size command alloc).1.setMD5 md5).1).Sound b := by
  have hidle : u.size = 0 ∧ size ≠ 0 := by
    unfold Updater.begin at hbegin
    by_cases hrun : u.size > 0
    · rw [if_pos hrun] at hbegin
      cases hbegin
    · by_cases hsize : size = 0
      · rw [if_neg hrun, if_pos hsize] at hbegin
        cases hbegin
      · exact ⟨Nat.eq_zero_of_not_pos hrun, hsize⟩
  have hbegun := begin_spec (b := b) hidle.1 hpast hidle.2 command alloc
  dsimp only at hbegun
  generalize (u.begin b size command alloc).1 = u' at hbegun ⊢
  have hset : (Receiving b size [] u'.signer.isSome (u'.setMD5 md5).1 ∧ (u'.setMD5 md5).1.Prompt) ∨
      (u'.setMD5 md5).1.size = 0 := by
    unfold Updater.setMD5
    obtain ⟨hrec, hprompt⟩ | hdown := hbegun
    · left
      split_ifs
      · exact ⟨hrec, hprompt⟩
      · exact ⟨hrec.setMD5 md5, hprompt⟩
    · right
      split_ifs
      · exact hdown.size
      · exact hdown.size
  refine ⟨?_, Nat.two_pow_pos 32, rfl, nofun⟩
  obtain ⟨hrec, hprompt⟩ | hsize := hset
  · exact .inl ⟨size, u'.signer.isSome, hrec, hprompt, rfl⟩
  · exact .inr ⟨hsize, List.prefix_rfl, nofun⟩

theorem sound_of_reachable {G : Transfer → Event → Prop} (h : (transfer b).Reachable G t) :
    t.Sound b := by
  refine invariant (M := transfer b) (I := Sound b) ?_ ?_ h
  · rintro _ ⟨u, size, command, alloc, md5, hpast, hbegin, rfl⟩
    exact sound_entered hpast hbegin
  · intro t e t' ht _ hstep
    exact ht.step hstep

/-! ### What becomes of a wait -/

theorem waits_receive : (t.receive e).waits = t.waits := by
  unfold Transfer.receive
  split_ifs <;> rfl

theorem waits_head : (t.head b e).waits = t.waits := by
  unfold Transfer.head
  split_ifs <;> rfl

theorem waits_turn_of_available (hsome : t.client.available ≠ 0) {available : ℕ}
    (ha : t.u.clamp t.client.available = available) {r : Updater × ℕ × Bool}
    (hr : t.u.fromTurn b e.drv t.client.rx available = r) (written : ℕ) :
    (t.turn b e written).waits = t.waits := by
  rw [turn_of_available hsome ha hr]
  split_ifs <;> rfl

theorem waits_turn (written : ℕ) : (t.turn b e written).waits = t.waits := by
  by_cases hnone : t.client.available = 0
  · rw [Transfer.turn, if_pos hnone]
    rfl
  · exact waits_turn_of_available hnone rfl rfl written

/-- The test behind the inner loop goes by the counter alone. -/
theorem waits_waitOver (waited : ℤ) :
    (t.waitOver b e waited).waits = ⟨t.client.available = 0, waited = 0⟩ :: t.waits := by
  unfold Transfer.waitOver
  split_ifs with hwaited
  · simp [leave, note, hwaited]
  · simp [note, hwaited]
  · simp [note, hwaited]

/-- Before its last look, a wait goes on, or it is told right. -/
theorem waits_look {waited : ℕ} (hwaited : waited ≠ 0) :
    (t.look b e waited).waits = t.waits ∨
      (t.look b e waited).waits = ⟨false, false⟩ :: t.waits := by
  unfold Transfer.look
  by_cases hsome : t.client.available ≠ 0
  · right
    rw [if_pos hsome, waits_waitOver]
    simp [hsome, hwaited]
  · left
    rw [if_neg hsome, if_neg hwaited]

/-- **The last look** is told wrong, whatever it finds. -/
theorem waits_look_zero : ∃ w : Wait, (t.look b e 0).waits = w :: t.waits ∧
    ¬ (w.failed = true ↔ w.expired = true) := by
  unfold Transfer.look
  by_cases hsome : t.client.available ≠ 0
  · rw [if_pos hsome, waits_waitOver]
    exact ⟨_, rfl, by simp [hsome]⟩
  · rw [if_neg hsome, if_pos rfl, waits_waitOver]
    exact ⟨_, rfl, by simpa using hsome⟩

theorem waits_step (hG : Timely t e) (hstep : t.step b e = some t') :
    t'.waits = t.waits ∨ t'.waits = ⟨false, false⟩ :: t.waits := by
  unfold Transfer.step at hstep
  split at hstep
  · obtain rfl := Option.some.inj hstep
    exact .inl (waits_head.trans waits_receive)
  · next waited hwaiting =>
    obtain rfl := Option.some.inj hstep
    have hwaited : waited ≠ 0 := by
      rintro rfl
      exact hG hwaiting
    rw [← waits_receive (t := t) (e := e)]
    exact waits_look hwaited
  · obtain rfl := Option.some.inj hstep
    exact .inl ((waits_turn _).trans waits_receive)
  · cases hstep

theorem waits_step_last (hlast : t.place = .waiting 0) (hstep : t.step b e = some t') :
    ∃ w : Wait, t'.waits = w :: t.waits ∧ ¬ (w.failed = true ↔ w.expired = true) := by
  unfold Transfer.step at hstep
  rw [hlast] at hstep
  obtain rfl := Option.some.inj hstep
  rw [← waits_receive (t := t) (e := e)]
  exact waits_look_zero

/-! ### When the loop keeps its promises -/

/-- The receive-failed branch is for the waits that expire. -/
def ToldRight (t : Transfer) : Prop := ∀ w ∈ t.waits, w.failed = true ↔ w.expired = true

/-- What the loop promises; `bound` is how many waits in a row may end without data. -/
structure Kept (bound : ℕ) (t : Transfer) : Prop where
  toldRight : t.ToldRight
  /-- What `write` counts is what came in, from its beginning. -/
  received : t.accepted <+: t.arrived ∧ t.total ≤ t.arrived.length
  /-- The updater has no more than came in. -/
  held : t.u.isRunning → t.u.progress + t.u.buffer.length ≤ t.arrived.length
  leaves : bound ≤ t.emptyWaits → t.place = .left
  ended : t.place = .left → ¬ t.u.isRunning

/-- What does not hang on the waits. -/
theorem Sound.held (h : t.Sound b) (hrun : t.u.isRunning) :
    t.u.progress + t.u.buffer.length ≤ t.arrived.length := by
  have hle := h.isPrefix.length_le
  obtain ⟨declared, ever, hrec, -, -⟩ | ⟨hsize, -, -⟩ := h.state
  · have := hrec.length
    omega
  · exact absurd hsize (Nat.pos_iff_ne_zero.mp hrun)

/-- In a run without a last look, no wait expires. -/
theorem waits_of_reachable (h : (transfer b).Reachable Timely t) :
    ∀ w ∈ t.waits, w = ⟨false, false⟩ := by
  refine invariant (M := transfer b) (I := fun t => ∀ w ∈ t.waits, w = ⟨false, false⟩) ?_ ?_ h
  · rintro _ ⟨u, size, command, alloc, md5, -, -, rfl⟩ w hw
    cases hw
  · intro t e t' ih hG hstep w hw
    obtain heq | heq := waits_step hG hstep
    · exact ih w (heq ▸ hw)
    · rw [heq] at hw
      obtain rfl | hw := List.mem_cons.mp hw
      · rfl
      · exact ih w hw

/-- A run whose waits are told right has no last look. -/
theorem timely_of_toldRight (h : (transfer b).Reachable anyStep t) (hright : t.ToldRight) :
    (transfer b).Reachable Timely t := by
  induction h with
  | init hinit => exact .init hinit
  | @step t t' e _ _ hstep ih =>
    by_cases hlast : t.place = .waiting 0
    · obtain ⟨w, heq, hwrong⟩ := waits_step_last hlast hstep
      exact absurd (hright w (heq ▸ List.mem_cons_self)) hwrong
    · refine .step (ih fun w hw => hright w ?_) hlast hstep
      obtain heq | heq := waits_step hlast hstep
      · exact heq ▸ hw
      · exact heq ▸ List.mem_cons_of_mem _ hw

theorem emptyWaits_eq_zero (h : ∀ w ∈ t.waits, w = ⟨false, false⟩) : t.emptyWaits = 0 := by
  unfold emptyWaits
  cases hwaits : t.waits with
  | nil => rfl
  | cons w ws =>
    obtain rfl := h w (hwaits ▸ List.mem_cons_self)
    rfl

/-- **The receive loop keeps its promises exactly as long as no wait comes down to its last look**:
then the receive-failed branch is taken for the waits that expire, nothing is written that has not
come in, at most `bound` waits in a row are empty, and the update has ended behind the loop. -/
theorem kept_iff_timely {bound : ℕ} (hbound : 0 < bound) (h : (transfer b).Reachable anyStep t) :
    t.Kept bound ↔ (transfer b).Reachable Timely t := by
  have hsound := sound_of_reachable h
  constructor
  · intro hkept
    exact timely_of_toldRight h hkept.toldRight
  · intro htimely
    have hwaits := waits_of_reachable htimely
    have hle := hsound.isPrefix.length_le
    have hcounted := hsound.counted
    refine ⟨?_, ⟨hsound.isPrefix, by omega⟩, hsound.held, ?_, ?_⟩
    · intro w hw
      rw [hwaits w hw]
    · rw [emptyWaits_eq_zero hwaits]
      omega
    · intro hleft hrun
      exact absurd (hsound.ended hleft) (Nat.pos_iff_ne_zero.mp hrun)

/-! ### Two runs -/

/-- A sketch of sixteen bytes is expected. -/
def start : Transfer :=
  entered (((Updater.new none).begin board 16 .flash (some fun _ => 0)).1.setMD5
    (List.replicate 32 '0')).1

theorem reachable_start {G : Transfer → Event → Prop} : (transfer board).Reachable G start :=
  .init ⟨.new none, 16, .flash, some fun _ => 0, List.replicate 32 '0', rfl, rfl, rfl⟩

/-- Nothing comes in, and the peer stays. -/
def quiet : Event := ⟨[], false, willing, true, fun _ => 0⟩

theorem receive_quiet (hclient : t.client = .connect) : t.receive quiet = t := by
  obtain ⟨u, client, place, total, arrived, accepted, waits⟩ := t
  obtain rfl : client = .connect := hclient
  simp [Transfer.receive, quiet, Client.connect]

theorem available_connect (hclient : t.client = .connect) : t.client.available = 0 := by
  rw [hclient]
  rfl

theorem step_quiet_waiting (hclient : t.client = .connect) {n : ℕ}
    (hplace : t.place = .waiting (n + 1)) :
    t.step b quiet = some { t with place := .waiting n } := by
  unfold Transfer.step
  rw [hplace]
  show some ((t.receive quiet).look b quiet (n + 1)) = _
  rw [receive_quiet hclient, look, if_neg (not_not.mpr (available_connect hclient)),
    if_neg n.succ_ne_zero]
  rfl

/-- A wait comes down to its last look. -/
theorem reachable_last {n : ℕ} (hclient : t.client = .connect) (hplace : t.place = .waiting n)
    (h : (transfer b).Reachable anyStep t) :
    (transfer b).Reachable anyStep { t with place := .waiting 0 } := by
  induction n generalizing t with
  | zero =>
    rw [← hplace]
    exact h
  | succ n ih =>
    have hnext : (transfer b).Reachable anyStep { t with place := .waiting n } :=
      .step h trivial (step_quiet_waiting hclient hplace)
    exact ih (t := { t with place := .waiting n }) hclient rfl hnext

/-- The wait is entered, if the update is not complete. -/
theorem reachable_waiting (hclient : t.client = .connect) (hplace : t.place = .top)
    (hfinished : ¬ t.u.isFinished) (h : (transfer b).Reachable anyStep t) :
    (transfer b).Reachable anyStep { t with place := .waiting 0 } := by
  have hconnected : t.client.connected := by
    rw [hclient]
    exact .inl rfl
  have hstep : t.step b quiet = some { t with place := .waiting patience } := by
    unfold Transfer.step
    rw [hplace]
    show some ((t.receive quiet).head b quiet) = _
    rw [receive_quiet hclient, head, if_pos ⟨hfinished, .inl hconnected⟩]
  exact reachable_last (t := { t with place := .waiting patience }) hclient rfl
    (.step h trivial hstep)

/-- A wait without data leads back to the top of the loop. -/
theorem reachable_empty (hclient : t.client = .connect) (hplace : t.place = .top)
    (hfinished : ¬ t.u.isFinished) (herror : t.u.error = .ok) (hrunning : t.u.isRunning)
    (h : (transfer b).Reachable anyStep t) :
    (transfer b).Reachable anyStep { t with waits := ⟨true, false⟩ :: t.waits } := by
  have hnone := available_connect hclient
  have hrun : ¬ (t.u.error ≠ .ok ∨ ¬ t.u.isRunning) := by simp [herror, hrunning]
  set t₁ : Transfer := { t with place := .waiting 0 } with ht₁
  set t₂ : Transfer := { t with place := .writing 0, waits := ⟨true, false⟩ :: t.waits } with ht₂
  have hlast : (transfer b).Reachable anyStep t₁ := reachable_waiting hclient hplace hfinished h
  have hexpired : t₁.step b quiet = some t₂ := by
    show some ((t₁.receive quiet).look b quiet 0) = some t₂
    rw [receive_quiet (t := t₁) hclient, look, if_neg (not_not.mpr hnone), if_pos rfl, waitOver,
      if_neg (by decide), if_neg hrun]
    simp [note, ht₁, ht₂, hnone]
  have hreturned : t₂.step b quiet = some { t with waits := ⟨true, false⟩ :: t.waits } := by
    show some ((t₂.receive quiet).turn b quiet 0) = _
    rw [receive_quiet (t := t₂) hclient, turn, if_pos hnone, hplace]
    rfl
  exact .step (.step hlast trivial hexpired) trivial hreturned

/-- A stalled peer keeps the loop going. -/
theorem reachable_stalled (n : ℕ) : (transfer board).Reachable anyStep
    { start with waits := List.replicate n ⟨true, false⟩ } := by
  induction n with
  | zero => exact reachable_start
  | succ n ih =>
    have hfinished : ¬ start.u.isFinished := by decide
    have hrunning : start.u.isRunning := by decide
    exact reachable_empty (t := { start with waits := List.replicate n ⟨true, false⟩ }) rfl rfl
      hfinished rfl hrunning ih

/-- A sketch that comes in as soon as it is waited for. -/
theorem kept_iff_timely_start : ∃ t, (transfer board).Reachable Timely t ∧ t.place = .left ∧
    t.total = 16 ∧ t.Kept 1 := by
  have hrun : ((transfer board).run Timely start
      [quiet, { quiet with bytes := [0, 0, 0, 0, 0, 0, 0, 0, 1, 2, 3, 4, 0, 0, 0, 0] }, quiet,
        quiet]).map (fun t => (t.place, t.total)) = some (.left, 16) := by
    decide +kernel
  obtain ⟨t, ht, heq⟩ := Option.map_eq_some_iff.mp hrun
  obtain ⟨hplace, htotal⟩ := Prod.mk.inj heq
  have hreachable := reachable_of_run reachable_start ht
  exact ⟨t, hreachable, hplace, htotal,
    (kept_iff_timely (by decide) (hreachable.mono fun _ _ _ => trivial)).mpr hreachable⟩

/-- However many waits of a stalled peer are empty, the loop goes on, and a byte that comes in at
the last look of a wait is taken for a failure. -/
theorem not_kept_of_stalled :
    (∀ bound, ∃ t, (transfer board).Reachable anyStep t ∧ t.emptyWaits = bound ∧ t.place = .top ∧
      ¬ t.Kept bound) ∧
    ∃ t, (transfer board).Reachable anyStep t ∧ t.waits = [⟨false, true⟩] ∧ t.place = .left ∧
      ¬ t.ToldRight := by
  constructor
  · intro bound
    have hempty : ({ start with waits := List.replicate bound ⟨true, false⟩ } :
        Transfer).emptyWaits = bound := by
      simp [emptyWaits]
    refine ⟨_, reachable_stalled bound, hempty, rfl, fun hkept => ?_⟩
    cases hkept.leaves (Nat.le_of_eq hempty.symm)
  · have hlast := reachable_waiting (t := start) rfl rfl (by decide) reachable_start
    refine ⟨_, .step hlast trivial (a := { quiet with bytes := [0] }) rfl, rfl, rfl, ?_⟩
    intro hright
    exact absurd (hright ⟨false, true⟩ List.mem_cons_self) (by decide)

end Transfer

end Ch32h4.Ota
