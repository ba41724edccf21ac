import Ch32h4.I2s.Equiv.Ring
import Ch32h4.I2s.Link
import Mathlib.Data.List.Flatten

/-!
# What survives the link

`survives_iff`: in each run, what was read from the receiving port is what was written to the
sending one, frame by frame, just if each sample read so far has the same two halves.

`write` puts the low half of a sample first, the wire keeps the order, and `read` takes the first
half-word for the high half: so `read` returns the samples rotated by 16 bits
(`combine_bytesOf`, `read_eq`), in order and with left and right in place.

`survives_iff_twins` and `not_survives` are runs on either side.
-/

namespace Ch32h4.I2s.Link

open Machine I2S

variable {s s' : System}

/-! ### Samples -/

/-- The two halves of a sample are the same. -/
def Twin (w : Sample) : Prop :=
  w.extractLsb' 16 16 = w.extractLsb' 0 16

/-- A sample with its halves exchanged. -/
def swap (w : Sample) : Sample :=
  w.rotateLeft 16

/-- **`read` exchanges the halves** that `write` has stored. -/
theorem combine_bytesOf (w : Sample) :
    combine (halfWordOf ⟨w.extractLsb' 0 8⟩ ⟨w.extractLsb' 8 8⟩)
      (halfWordOf ⟨w.extractLsb' 16 8⟩ ⟨w.extractLsb' 24 8⟩) = swap w := by
  unfold combine halfWordOf swap
  ext i hi
  simp [BitVec.getElem_rotateLeft]
  grind

theorem swap_eq_append (w : Sample) : swap w = w.extractLsb' 0 16 ++ w.extractLsb' 16 16 := by
  unfold swap
  ext i hi
  simp [BitVec.getElem_rotateLeft]
  grind

theorem extractLsb'_swap (w : Sample) : (swap w).extractLsb' 16 16 = w.extractLsb' 0 16 := by
  unfold swap
  ext i hi
  simp
  grind

theorem swap_eq_iff (w : Sample) : swap w = w ↔ Twin w := by
  constructor
  · intro h
    unfold Twin
    rw [← extractLsb'_swap, h]
  · intro h
    rw [swap_eq_append]
    calc w.extractLsb' 0 16 ++ w.extractLsb' 16 16
        = w.extractLsb' 16 16 ++ w.extractLsb' 0 16 := by rw [h]
      _ = w := BitVec.extractLsb'_append_extractLsb'

/-- A frame with its samples' halves exchanged. -/
def swapFrame (f : Sample × Sample) : Sample × Sample :=
  (swap f.1, swap f.2)

theorem swapFrame_eq_iff (f : Sample × Sample) : swapFrame f = f ↔ Twin f.1 ∧ Twin f.2 := by
  rw [← swap_eq_iff, ← swap_eq_iff]
  exact Prod.ext_iff

/-- The bytes of a frame. -/
def bytesOfFrame (f : Sample × Sample) : List UInt8 :=
  bytesOf f.1 ++ bytesOf f.2

theorem bytesOfFrame_length (f : Sample × Sample) : (bytesOfFrame f).length = 8 :=
  rfl

theorem decode_bytesOfFrame (f : Sample × Sample) : decode (bytesOfFrame f) = swapFrame f :=
  Prod.ext (combine_bytesOf f.1) (combine_bytesOf f.2)

/-! ### The wire -/

/-- What crosses the wire is the same at both ends, and what is behind it stays. -/
theorem load_sendHalfWords (mem : Memory) (n : ℕ) : ∀ (off : ℕ) (mem' : Memory),
    load (sendHalfWords mem off n mem') off (2 * n) = load mem off (2 * n) ∧
      ∀ i, i < off → sendHalfWords mem off n mem' i = mem' i := by
  induction n with
  | zero =>
    intro off mem'
    exact ⟨rfl, fun i _ => rfl⟩
  | succ n ih =>
    intro off mem'
    rw [sendHalfWords, show 2 * (n + 1) = 2 + 2 * n by omega]
    obtain ⟨hrest, hbehind⟩ := ih (off + 2) (store mem' off (load mem off 2))
    constructor
    · have hfirst : load (sendHalfWords mem (off + 2) n (store mem' off (load mem off 2))) off 2 =
          load (store mem' off (load mem off 2)) off (load mem off 2).length :=
        load_congr fun i _ hi => hbehind i hi
      rw [load_add, load_add, hrest, hfirst, load_store]
    · intro i hi
      rw [hbehind i (by omega), store, if_neg (by omega)]

/-! ### Runs -/

/-- What was written and not read yet is in the two rings, in order; what was read has its halves
exchanged. -/
structure Linked (s : System) : Prop where
  sender : s.sender.rx = false ∧ s.sender.running = true ∧ s.sender.bits = 32 ∧
    s.sender.stereo = true
  receiver : s.receiver.rx = true ∧ s.receiver.running = true
  read : s.read = (s.written.take s.read.length).map swapFrame
  le : s.read.length ≤ s.written.length
  rings : ∃ xs ys, Ring s.sender xs ∧ Ring s.receiver ys ∧
    ys ++ xs = (s.written.drop s.read.length).flatMap bytesOfFrame

theorem Linked.fresh (h : s.Fresh) : Linked s := by
  obtain ⟨⟨ring, bytes, hsender⟩, ⟨stereo, ring', bytes', hreceiver⟩, hwritten, hread⟩ := h
  refine ⟨?_, ?_, ?_, ?_, [], [], hsender ▸ ring_start, hreceiver ▸ ring_start, ?_⟩
  · rw [hsender]
    exact ⟨rfl, rfl, rfl, rfl⟩
  · rw [hreceiver]
    exact ⟨rfl, rfl⟩
  · rw [hread]
    rfl
  · rw [hread]
    exact Nat.zero_le _
  · rw [hwritten, hread]
    rfl

theorem Linked.write (h : Linked s) {left right : Sample}
    (hroom : s.sender.availableForWrite ≥ s.sender.frameBytes) :
    Linked { s with
      sender := (s.sender.write32 left right).2, written := s.written ++ [(left, right)] } := by
  obtain ⟨hrx, hrunning, hbits, hstereo⟩ := h.sender
  obtain ⟨xs, ys, hsender, hreceiver, hbytes⟩ := h.rings
  have hfree : s.sender.ringFree ≥ 8 := by
    unfold availableForWrite frameBytes at hroom
    rw [hrx, hrunning, hbits] at hroom
    exact hroom
  have hpass : (s.sender.write32 left right).2 =
      s.sender.ringPush (bytesOfFrame (left, right)) := by
    unfold write32 writePass
    rw [hrx, hrunning, hstereo]
    show s.sender.ringPush ((bytesOfFrame (left, right)).take _) = _
    rw [List.take_of_length_le]
    exact (Nat.min_eq_left hfree).ge
  have hring : Ring (s.sender.ringPush (bytesOfFrame (left, right)))
      (xs ++ bytesOfFrame (left, right)) := by
    refine hsender.ringPush ?_
    rw [hsender.ringFree] at hfree
    rw [bytesOfFrame_length]
    omega
  rw [hpass]
  refine ⟨⟨hrx, hrunning, hbits, hstereo⟩, h.receiver, ?_, ?_, _, ys, hring, hreceiver, ?_⟩
  · show s.read = ((s.written ++ [(left, right)]).take s.read.length).map swapFrame
    rw [List.take_append_of_le_length h.le]
    exact h.read
  · show s.read.length ≤ (s.written ++ [(left, right)]).length
    rw [List.length_append]
    exact h.le.trans (Nat.le_add_right ..)
  · show ys ++ (xs ++ bytesOfFrame (left, right)) =
      ((s.written ++ [(left, right)]).drop s.read.length).flatMap bytesOfFrame
    rw [List.drop_append_of_le_length h.le, List.flatMap_append, ← hbytes, List.append_assoc,
      List.flatMap_singleton]

theorem Linked.cross (h : Linked s) {second : Bool} (hused : s.sender.ringUsed ≥ dmaHalfBytes)
    (hroom : s.receiver.ringFree ≥ dmaHalfBytes) : Linked (s.cross second) := by
  obtain ⟨hrx, hrunning, hbits, hstereo⟩ := h.sender
  obtain ⟨hrx', hrunning'⟩ := h.receiver
  obtain ⟨xs, ys, hsender, hreceiver, hbytes⟩ := h.rings
  rw [hsender.ringUsed] at hused
  rw [hreceiver.ringFree] at hroom
  obtain ⟨hpop, hrest⟩ := hsender.ringPop hused
  generalize hbs : xs.take dmaHalfBytes = bs at hpop
  have hlength : bs.length = dmaHalfBytes := by
    rw [← hbs, List.length_take, Nat.min_eq_left hused]
  have hfilled : s.sender.dmaHalfComplete s.senderMem second =
      ((s.sender.ringPop dmaHalfBytes).2, store s.senderMem (halfOffset second) bs) := by
    unfold dmaHalfComplete
    rw [if_neg (by rw [hrx]; nofun), if_pos (hsender.ringUsed.symm ▸ hused), ← hpop]
  have hdelivered (mem : Memory) : s.receiver.dmaHalfComplete mem second =
      (s.receiver.ringPush (load mem (halfOffset second) dmaHalfBytes), mem) := by
    unfold dmaHalfComplete
    rw [if_pos hrx', if_pos (hreceiver.ringFree.symm ▸ hroom)]
  -- The half that was filled is the half that is delivered.
  have hwire : load (sendHalfWords (store s.senderMem (halfOffset second) bs) (halfOffset second)
      (dmaHalfBytes / 2) s.receiverMem) (halfOffset second) dmaHalfBytes = bs := by
    have hsent := (load_sendHalfWords (store s.senderMem (halfOffset second) bs)
      (dmaHalfBytes / 2) (halfOffset second) s.receiverMem).1
    refine hsent.trans ?_
    have hstored : load (store s.senderMem (halfOffset second) bs) (halfOffset second) bs.length =
        bs := load_store
    rw [hlength] at hstored
    exact hstored
  have hpushed : Ring (s.receiver.ringPush bs) (ys ++ bs) := by
    refine hreceiver.ringPush ?_
    have := hreceiver.length_lt
    rw [hlength]
    unfold dmaHalfBytes at *
    omega
  unfold System.cross
  dsimp only
  rw [hfilled, hdelivered, hwire]
  obtain ⟨hport, hport', -⟩ := ringPop_port (p := s.sender) dmaHalfBytes
  obtain ⟨hconfig, hconfig'⟩ := ringPop_config (p := s.sender) dmaHalfBytes
  generalize (s.sender.ringPop dmaHalfBytes).2 = popped at *
  refine ⟨⟨hport.trans hrx, hport'.trans hrunning, hconfig.trans hbits, hconfig'.trans hstereo⟩,
    ⟨hrx', hrunning'⟩, h.read, h.le, _, _, hrest, hpushed, ?_⟩
  rw [← hbs, List.append_assoc, List.take_append_drop]
  exact hbytes

theorem Linked.readFrame (h : Linked s) :
    Linked { s with
      receiver := s.receiver.read32.2, read := s.read ++ s.receiver.read32.1.toList } := by
  obtain ⟨hrx, hrunning⟩ := h.receiver
  obtain ⟨xs, ys, hsender, hreceiver, hbytes⟩ := h.rings
  unfold read32 I2S.take
  rw [hrx, hrunning]
  by_cases hused : s.receiver.ringUsed < 8
  · rw [if_pos (by simpa using hused)]
    refine ⟨h.sender, ⟨hrx, hrunning⟩, ?_, ?_, xs, ys, hsender, hreceiver, ?_⟩ <;>
      simp only [Option.map_none, Option.toList_none, List.append_nil]
    · exact h.read
    · exact h.le
    · exact hbytes
  · rw [if_neg (by simpa using hused)]
    rw [hreceiver.ringUsed] at hused
    obtain ⟨hpop, hrest⟩ := hreceiver.ringPop (not_lt.mp hused)
    -- The first eight bytes are the next frame's.
    obtain ⟨f, fs, hnext⟩ : ∃ f fs, s.written.drop s.read.length = f :: fs := by
      cases hdrop : s.written.drop s.read.length with
      | nil =>
        rw [hdrop] at hbytes
        have hnil := (List.append_eq_nil_iff.mp hbytes).1
        rw [hnil] at hused
        exact absurd (Nat.zero_lt_succ 7) hused
      | cons f fs => exact ⟨f, fs, rfl⟩
    rw [hnext, List.flatMap_cons] at hbytes
    have htake : ys.take 8 = bytesOfFrame f := by
      have hboth := congrArg (List.take 8) hbytes
      rw [List.take_append_of_le_length (not_lt.mp hused),
        List.take_append_of_le_length (bytesOfFrame_length f).ge,
        List.take_of_length_le (bytesOfFrame_length f).le] at hboth
      exact hboth
    have hdrop : ys.drop 8 ++ xs = fs.flatMap bytesOfFrame := by
      have hboth := congrArg (List.drop 8) hbytes
      rw [List.drop_append_of_le_length (not_lt.mp hused),
        List.drop_append_of_le_length (bytesOfFrame_length f).ge,
        List.drop_of_length_le (bytesOfFrame_length f).le] at hboth
      exact hboth
    have hlt : s.read.length < s.written.length := by
      have hpos := congrArg List.length hnext
      rw [List.length_drop, List.length_cons] at hpos
      omega
    have hget : s.written[s.read.length]? = some f := by
      rw [← Nat.add_zero s.read.length, ← List.getElem?_drop, hnext]
      rfl
    have hcount : (s.read ++ [swapFrame f]).length = s.read.length + 1 := List.length_append
    have hread : s.read ++ ((some (s.receiver.ringPop 8).1).map decode).toList =
        s.read ++ [swapFrame f] := by
      rw [hpop, htake, Option.map_some, decode_bytesOfFrame]
      rfl
    dsimp only
    rw [hread]
    refine ⟨h.sender, ⟨hrx, hrunning⟩, ?_, ?_, xs, _, hsender, hrest, ?_⟩
    · show s.read ++ [swapFrame f] =
        (s.written.take (s.read ++ [swapFrame f]).length).map swapFrame
      rw [hcount, List.take_add_one, List.map_append, ← h.read, hget]
      rfl
    · exact hcount.trans_le hlt
    · show ys.drop 8 ++ xs = (s.written.drop (s.read ++ [swapFrame f]).length).flatMap bytesOfFrame
      rw [hcount, ← List.drop_drop, hnext, hdrop]
      rfl

theorem Linked.step (h : Linked s) {a : Action} (hstep : s.step a = some s') : Linked s' := by
  unfold System.step at hstep
  cases a with
  | write left right =>
    dsimp only at hstep
    split_ifs at hstep with hroom
    rw [← Option.some.inj hstep]
    exact h.write hroom
  | cross second =>
    dsimp only at hstep
    split_ifs at hstep with hready
    rw [← Option.some.inj hstep]
    exact h.cross hready.1 hready.2
  | read =>
    rw [← Option.some.inj hstep]
    exact h.readFrame

/-- **Frames survive the link** just if each sample read so far has the same two halves. -/
theorem survives_iff (h : machine.Reachable anyStep s) :
    s.read <+: s.written ↔ ∀ f ∈ s.written.take s.read.length, Twin f.1 ∧ Twin f.2 := by
  have hlinked : Linked s := by
    refine invariant (fun _ => Linked.fresh) ?_ h
    intro s a s' hs _ hstep
    exact hs.step hstep
  rw [List.prefix_iff_eq_take]
  generalize hsame : s.written.take s.read.length = frames
  have hread := hlinked.read
  rw [hsame] at hread
  rw [hread]
  refine Iff.trans ?_ (forall₂_congr fun f _ => swapFrame_eq_iff f)
  have hmap := List.map_inj_left (f := swapFrame) (g := id) (l := frames)
  rw [List.map_id] at hmap
  exact hmap

/-! ### Runs on either side -/

/-- Two ports with rings of 512 bytes. -/
def started : System where
  sender := start false 32 true (fun _ => 0) 512
  senderMem := fun _ => 0
  receiver := start true 32 true (fun _ => 0) 512
  receiverMem := fun _ => 0
  written := []
  read := []

theorem started_fresh : started.Fresh :=
  ⟨⟨_, 512, rfl⟩, ⟨true, _, 512, rfl⟩, rfl, rfl⟩

/-- A frame of twins comes through. -/
theorem survives_iff_twins : ∃ s, machine.run anyStep started
      (List.replicate 32 (.write 0x00010001 0xABCDABCD) ++ [.cross false, .read]) = some s ∧
    s.read = [(0x00010001, 0xABCDABCD)] ∧
    (s.read <+: s.written ↔ ∀ f ∈ s.written.take s.read.length, Twin f.1 ∧ Twin f.2) := by
  have hrun : (machine.run anyStep started
      (List.replicate 32 (.write 0x00010001 0xABCDABCD) ++ [.cross false, .read])).map (·.read) =
        some [(0x00010001, 0xABCDABCD)] := by decide +kernel
  obtain ⟨s, hs, hread⟩ := Option.map_eq_some_iff.mp hrun
  exact ⟨s, hs, hread, survives_iff (reachable_of_run (.init started_fresh) hs)⟩

/-- 65536 on the left is read as 1. -/
theorem not_survives : ¬ ∀ s, machine.Reachable anyStep s → s.read <+: s.written := by
  intro hall
  have hrun : (machine.run anyStep started
      (List.replicate 32 (.write 0x00010000 0) ++ [.cross false, .read])).map
        (fun s => (s.read, s.written.take 1)) =
          some ([(0x00000001, 0)], [(0x00010000, 0)]) := by decide +kernel
  obtain ⟨s, hs, hstate⟩ := Option.map_eq_some_iff.mp hrun
  obtain ⟨hread, hwritten⟩ := Prod.mk.inj hstate
  have hprefix := hall s (reachable_of_run (.init started_fresh) hs)
  rw [List.prefix_iff_eq_take, hread] at hprefix
  cases hprefix.trans hwritten

end Ch32h4.I2s.Link