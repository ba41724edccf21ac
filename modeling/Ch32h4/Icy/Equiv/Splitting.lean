import Ch32h4.Icy.Stream

/-!
# `IcyStream` takes out the metadata and nothing else

`demuxed_of_reachable`: what `read` has returned is the audio of what was taken from the upstream,
`peek` has shown the byte of audio that came next, `available` has promised no more than was left,
and the title is that of the last block that has one; all of it as long as no `peek` is made
between the audio and the end of a block, and no byte arrives within a call of `read` that has
already found none.

The state of the stream is related to the parts of what was taken (`Synced`), and each operation
takes the bytes one by one.
-/

namespace Ch32h4.Icy

open Machine

variable {metaint : ℕ} {icy : IcyStream} {up : Upstream}

/-! ### The parts of a stream -/

theorem split_concat (metaint : ℕ) (stream : List UInt8) (c : UInt8) :
    split metaint (stream ++ [c]) = (split metaint stream).feed metaint c :=
  List.foldl_concat ..

theorem foldl_feed_audio {parts : Parts} {left : ℕ} (hphase : parts.phase = .audio left)
    (bytes : List UInt8) (hlen : bytes.length ≤ left) :
    bytes.foldl (Parts.feed metaint) parts =
      { parts with phase := .audio (left - bytes.length), audio := parts.audio ++ bytes } := by
  induction bytes generalizing parts left with
  | nil =>
    obtain ⟨phase, audio, blocks⟩ := parts
    obtain rfl : phase = .audio left := hphase
    rw [List.append_nil]
    rfl
  | cons c bytes ih =>
    obtain ⟨left, rfl⟩ : ∃ k, left = k + 1 := ⟨left - 1, by rw [List.length_cons] at hlen; omega⟩
    have hfeed : parts.feed metaint c =
        { parts with phase := .audio left, audio := parts.audio ++ [c] } := by
      unfold Parts.feed
      rw [hphase]
    rw [List.length_cons] at hlen
    rw [List.foldl_cons, hfeed, ih rfl (by omega), List.length_cons, Nat.add_sub_add_right]
    dsimp only
    rw [List.append_assoc]
    rfl

theorem foldl_feed_block {parts : Parts} {text : List UInt8} (bytes : List UInt8)
    (hphase : parts.phase = .block bytes.length text) (hne : bytes ≠ []) :
    bytes.foldl (Parts.feed metaint) parts =
      { parts with phase := .audio metaint, blocks := parts.blocks ++ [text ++ bytes] } := by
  induction bytes generalizing parts text with
  | nil => exact absurd rfl hne
  | cons c bytes ih =>
    rw [List.foldl_cons]
    cases bytes with
    | nil =>
      unfold Parts.feed
      rw [hphase]
      rfl
    | cons d bytes =>
      have hfeed : parts.feed metaint c =
          { parts with phase := .block (d :: bytes).length (text ++ [c]) } := by
        unfold Parts.feed
        rw [hphase]
        rfl
      rw [hfeed, ih rfl nofun]
      dsimp only
      rw [List.append_assoc]
      rfl

/-- **A turn of the stream**: the audio, the length byte and the block. -/
theorem foldl_feed_turn {parts : Parts} (hphase : parts.phase = .audio metaint)
    {audio text : List UInt8} {c : UInt8} (haudio : audio.length = metaint)
    (htext : text.length = c.toNat * 16) :
    (audio ++ c :: text).foldl (Parts.feed metaint) parts =
      ⟨.audio metaint, parts.audio ++ audio, parts.blocks ++ [text]⟩ := by
  rw [List.foldl_append, foldl_feed_audio hphase audio haudio.le, haudio, Nat.sub_self,
    List.foldl_cons]
  by_cases hzero : c.toNat = 0
  · obtain rfl : text = [] := List.eq_nil_of_length_eq_zero (by rw [htext, hzero])
    unfold Parts.feed
    dsimp only
    rw [if_pos hzero]
    rfl
  · have hfeed : Parts.feed metaint ⟨.audio 0, parts.audio ++ audio, parts.blocks⟩ c =
        ⟨.block text.length [], parts.audio ++ audio, parts.blocks⟩ := by
      unfold Parts.feed
      dsimp only
      rw [if_neg hzero, htext]
    rw [hfeed, foldl_feed_block text rfl]
    · rfl
    · rintro rfl
      rw [List.length_nil] at htext
      omega

/-- What was heard is not taken back. -/
theorem audio_prefix (metaint : ℕ) (bytes : List UInt8) (parts : Parts) :
    ∃ more, (bytes.foldl (Parts.feed metaint) parts).audio = parts.audio ++ more := by
  induction bytes generalizing parts with
  | nil => exact ⟨[], (List.append_nil _).symm⟩
  | cons c bytes ih =>
    obtain ⟨more, hmore⟩ := ih (parts.feed metaint c)
    have hfeed : ∃ one, (parts.feed metaint c).audio = parts.audio ++ one := by
      unfold Parts.feed
      split
      · exact ⟨[c], rfl⟩
      · split_ifs <;> exact ⟨[], (List.append_nil _).symm⟩
      · split_ifs <;> exact ⟨[], (List.append_nil _).symm⟩
    obtain ⟨one, hone⟩ := hfeed
    exact ⟨one ++ more, by rw [List.foldl_cons, hmore, hone, List.append_assoc]⟩

theorem lastTitle_concat (blocks : List (List UInt8)) (text : List UInt8) :
    lastTitle (blocks ++ [text]) =
      (streamTitle (text.take (maxTitle - 1))).getD (lastTitle blocks) := by
  unfold lastTitle
  rw [List.map_append, List.filterMap_append, List.map_singleton]
  cases hkept : streamTitle (text.take (maxTitle - 1)) with
  | none => rw [List.filterMap_cons_none hkept, List.filterMap_nil, List.append_nil]; rfl
  | some title =>
    rw [List.filterMap_cons_some hkept, List.filterMap_nil, List.getLast?_concat]
    rfl

/-! ### The upstream -/

/-- No answer with a byte comes right after one without. -/
def Steady : List Bool → Prop
  | false :: true :: _ => False
  | _ :: ready => Steady ready
  | [] => True

theorem Steady.tail {b : Bool} {ready : List Bool} (h : Steady (b :: ready)) : Steady ready := by
  cases b with
  | true => exact h
  | false =>
    cases ready with
    | nil => trivial
    | cons b' ready =>
      cases b' with
      | true => exact h.elim
      | false => exact h

/-- A read finds a byte, or it does not. -/
theorem read_cases (up : Upstream) :
    (∃ c rest ready, up.ready = true :: ready ∧ up.rest = c :: rest ∧
      up.read = (some c, ⟨rest, up.taken ++ [c], ready⟩)) ∨
    (up.read = (none, { up with ready := up.ready.tail }) ∧
      (up.rest = [] ∨ up.ready.head? ≠ some true)) := by
  obtain ⟨rest, taken, ready⟩ := up
  cases ready with
  | nil => exact .inr ⟨rfl, .inr nofun⟩
  | cons b ready =>
    cases b with
    | false => exact .inr ⟨rfl, .inr nofun⟩
    | true =>
      cases rest with
      | nil => exact .inr ⟨rfl, .inl rfl⟩
      | cons c rest => exact .inl ⟨c, rest, ready, rfl, rfl, rfl⟩

/-- Where nothing was found, nothing is found next. -/
theorem read_again (hsteady : Steady up.ready) (h : up.rest = [] ∨ up.ready.head? ≠ some true) :
    ({ up with ready := up.ready.tail } : Upstream).read.1 = none := by
  obtain ⟨rest, taken, ready⟩ := up
  cases ready with
  | nil => rfl
  | cons b ready =>
    cases ready with
    | nil => rfl
    | cons b' ready =>
      cases b' with
      | false => rfl
      | true =>
        cases rest with
        | nil => rfl
        | cons c rest =>
          obtain h | h := h
          · cases h
          · cases b with
            | true => exact absurd rfl h
            | false => exact hsteady.elim

/-! ### Blocks -/

/-- What the stream keeps when it is there. -/
def At (icy : IcyStream) : Phase → Prop
  | .audio left => icy.untilMeta = left ∧ icy.metaLeft = 0
  | .block left text =>
    icy.untilMeta = 0 ∧ icy.metaLeft = left ∧ 0 < left ∧ icy.metaBuf = text.take (maxTitle - 1)

/-- The stream is where what was taken ends. -/
structure Synced (metaint : ℕ) (icy : IcyStream) (taken : List UInt8) : Prop where
  interval : icy.metaint = metaint
  here : At icy (split metaint taken).phase
  title : icy.title = lastTitle (split metaint taken).blocks

/-- Metadata was taken from the upstream, and the stream is where that ends. -/
structure Skipped (metaint : ℕ) (up : Upstream) (r : IcyStream × Upstream) : Prop where
  synced : Synced metaint r.1 r.2.taken
  audio : (split metaint r.2.taken).audio = (split metaint up.taken).audio
  stream : r.2.taken ++ r.2.rest = up.taken ++ up.rest
  /-- It stops inside only for want of a byte. -/
  starved : Steady up.ready → r.1.untilMeta = 0 → r.2.read.1 = none

/-- The buffer takes a byte, if there is room. -/
theorem push_metaBuf (text : List UInt8) (c : UInt8) :
    (if (text.take (maxTitle - 1)).length + 1 < maxTitle then text.take (maxTitle - 1) ++ [c]
      else text.take (maxTitle - 1)) = (text ++ [c]).take (maxTitle - 1) := by
  rw [List.length_take]
  unfold maxTitle
  split_ifs with hroom
  · have hlen : text.length < 127 := by omega
    rw [List.take_of_length_le (by omega), List.take_of_length_le]
    rw [List.length_append, List.length_singleton]
    omega
  · rw [List.take_append_of_le_length (by omega)]

theorem finish_eq (icy : IcyStream) :
    (icy.finish.metaint, icy.finish.untilMeta, icy.finish.metaLeft, icy.finish.title) =
      (icy.metaint, icy.metaint, icy.metaLeft, (streamTitle icy.metaBuf).getD icy.title) := by
  unfold IcyStream.finish
  dsimp only
  cases streamTitle icy.metaBuf with
  | none => rfl
  | some title =>
    dsimp only
    split_ifs with hsame
    · rw [Option.getD_some, hsame]
    · rfl

/-- **A block is complete**, and the stream is back to audio. -/
theorem synced_finish (icy : IcyStream) {taken text : List UInt8} (hmetaint : icy.metaint = metaint)
    (hleft : icy.metaLeft = 0) (hbuf : icy.metaBuf = text.take (maxTitle - 1))
    {parts : Parts} (htitle : icy.title = lastTitle parts.blocks)
    (hsplit : split metaint taken =
      { parts with phase := .audio metaint, blocks := parts.blocks ++ [text] }) :
    Synced metaint icy.finish taken := by
  have hfinish := finish_eq icy
  simp only [Prod.mk.injEq] at hfinish
  obtain ⟨hkeep, huntil, hnone, hnew⟩ := hfinish
  refine ⟨hkeep.trans hmetaint, ?_, ?_⟩
  · rw [hsplit]
    exact ⟨huntil.trans hmetaint, hnone.trans hleft⟩
  · rw [hsplit, hnew, hbuf, htitle]
    exact (lastTitle_concat parts.blocks text).symm

/-- What was skipped after one more byte was skipped with it. -/
theorem Skipped.cons {c : UInt8} {rest : List UInt8} {ready : List Bool} {r : IcyStream × Upstream}
    (h : Skipped metaint ⟨rest, up.taken ++ [c], ready⟩ r) (hready : up.ready = true :: ready)
    (hrest : up.rest = c :: rest)
    (haudio : (split metaint (up.taken ++ [c])).audio = (split metaint up.taken).audio) :
    Skipped metaint up r := by
  refine ⟨h.synced, h.audio.trans haudio, ?_, fun hsteady => h.starved ?_⟩
  · rw [h.stream, hrest]
    exact (List.append_cons ..).symm
  · rw [hready] at hsteady
    exact hsteady.tail

/-- **The loop of `consumeMetadata`** can stop at any byte. -/
theorem skipped_readBlock (hpos : 0 < metaint) (left : ℕ) {text : List UInt8}
    (hsynced : Synced metaint icy up.taken)
    (hphase : (split metaint up.taken).phase = .block (left + 1) text) :
    Skipped metaint up (readBlock (left + 1) icy up) := by
  induction left generalizing icy up text with
  | zero =>
    have hhere := hsynced.here
    rw [hphase] at hhere
    obtain ⟨hzero, -, -, hbuf⟩ := hhere
    rw [readBlock]
    obtain ⟨c, rest, ready, hready, hrest, hread⟩ | ⟨hread, hnone⟩ := read_cases up
    · rw [hread]
      dsimp only
      rw [hbuf, push_metaBuf, readBlock]
      have hsplit : split metaint (up.taken ++ [c]) = { split metaint up.taken with
          phase := .audio metaint,
          blocks := (split metaint up.taken).blocks ++ [text ++ [c]] } := by
        rw [split_concat]
        unfold Parts.feed
        rw [hphase]
        exact if_pos (Nat.le_refl 1)
      have hlast : Synced metaint _ (up.taken ++ [c]) :=
        synced_finish
          { icy with metaLeft := 0, metaBuf := (text ++ [c]).take (maxTitle - 1) }
          hsynced.interval rfl rfl hsynced.title hsplit
      refine .cons ⟨hlast, rfl, rfl, fun _ huntil => ?_⟩ hready hrest (by rw [hsplit])
      have hhere := hlast.here
      rw [hsplit] at hhere
      exact absurd (hhere.1.symm.trans huntil) (Nat.ne_of_gt hpos)
    · rw [hread]
      exact ⟨hsynced, rfl, rfl, fun hsteady _ => read_again hsteady hnone⟩
  | succ left ih =>
    have hhere := hsynced.here
    rw [hphase] at hhere
    obtain ⟨hzero, -, -, hbuf⟩ := hhere
    rw [readBlock]
    obtain ⟨c, rest, ready, hready, hrest, hread⟩ | ⟨hread, hnone⟩ := read_cases up
    · rw [hread]
      dsimp only
      rw [hbuf, push_metaBuf]
      have hsplit : split metaint (up.taken ++ [c]) =
          { split metaint up.taken with phase := .block (left + 1) (text ++ [c]) } := by
        rw [split_concat]
        unfold Parts.feed
        rw [hphase]
        exact if_neg (by omega)
      refine .cons (ih ⟨hsynced.interval, ?_, ?_⟩ (congrArg Parts.phase hsplit)) hready hrest
        (by rw [hsplit])
      · rw [hsplit]
        exact ⟨hzero, rfl, Nat.succ_pos left, rfl⟩
      · rw [hsplit]
        exact hsynced.title
    · rw [hread]
      exact ⟨hsynced, rfl, rfl, fun hsteady _ => read_again hsteady hnone⟩

/-- **`consumeMetadata`**, between two stretches of audio. -/
theorem skipped_consumeMetadata (hpos : 0 < metaint) (hsynced : Synced metaint icy up.taken)
    (hzero : icy.untilMeta = 0) : Skipped metaint up (icy.consumeMetadata up) := by
  have hhere := hsynced.here
  unfold IcyStream.consumeMetadata
  cases hphase : (split metaint up.taken).phase with
  | audio left =>
    rw [hphase] at hhere
    obtain ⟨huntil, hleft⟩ := hhere
    obtain rfl : left = 0 := huntil.symm.trans hzero
    rw [if_pos hleft]
    obtain ⟨c, rest, ready, hready, hrest, hread⟩ | ⟨hread, hnone⟩ := read_cases up
    · rw [hread]
      dsimp only
      by_cases hc : c.toNat = 0
      · have hsplit : split metaint (up.taken ++ [c]) = { split metaint up.taken with
            phase := .audio metaint, blocks := (split metaint up.taken).blocks ++ [[]] } := by
          rw [split_concat]
          unfold Parts.feed
          rw [hphase]
          exact if_pos hc
        rw [if_pos (by rw [hc])]
        refine .cons ⟨⟨hsynced.interval, ?_, ?_⟩, rfl, rfl, fun _ huntil => ?_⟩ hready hrest
          (by rw [hsplit])
        · rw [hsplit]
          exact ⟨hsynced.interval, by rw [hc]⟩
        · rw [hsplit, lastTitle_concat]
          exact hsynced.title
        · exact absurd (hsynced.interval.symm.trans huntil) (Nat.ne_of_gt hpos)
      · have hsplit : split metaint (up.taken ++ [c]) =
            { split metaint up.taken with phase := .block (c.toNat * 16) [] } := by
          rw [split_concat]
          unfold Parts.feed
          rw [hphase]
          exact if_neg hc
        obtain ⟨left, hleft⟩ : ∃ k, c.toNat * 16 = k + 1 := ⟨c.toNat * 16 - 1, by omega⟩
        rw [if_neg (by omega), hleft]
        rw [hleft] at hsplit
        refine .cons (skipped_readBlock hpos left ⟨hsynced.interval, ?_, ?_⟩
          (congrArg Parts.phase hsplit)) hready hrest (by rw [hsplit])
        · rw [hsplit]
          exact ⟨hzero, rfl, Nat.succ_pos left, rfl⟩
        · rw [hsplit]
          exact hsynced.title
    · rw [hread]
      exact ⟨hsynced, rfl, rfl, fun hsteady _ => read_again hsteady hnone⟩
  | block left text =>
    rw [hphase] at hhere
    obtain ⟨-, hleft, hpos', -⟩ := hhere
    obtain ⟨left, rfl⟩ : ∃ k, left = k + 1 := ⟨left - 1, by omega⟩
    rw [if_neg (by omega), hleft]
    exact skipped_readBlock hpos left hsynced hphase

/-- Metadata is skipped only where it is. -/
theorem skipped_skip (up : Upstream) (hpos : 0 < metaint) (hsynced : Synced metaint icy up.taken) :
    Skipped metaint up (icy.skip up) := by
  unfold IcyStream.skip
  split_ifs with hzero
  · exact skipped_consumeMetadata hpos hsynced hzero
  · exact ⟨hsynced, rfl, rfl, fun _ huntil => absurd huntil hzero⟩

/-! ### Audio -/

/-- Where the stream counts audio, so much is left. -/
theorem Synced.phase_eq {taken : List UInt8} (h : Synced metaint icy taken)
    (huntil : icy.untilMeta ≠ 0) : (split metaint taken).phase = .audio icy.untilMeta := by
  have hhere := h.here
  cases hphase : (split metaint taken).phase with
  | audio left =>
    rw [hphase] at hhere
    rw [hhere.1]
  | block left text =>
    rw [hphase] at hhere
    exact absurd hhere.1 huntil

/-- What is left of the audio is what the stream counts. -/
theorem Synced.left_eq {taken : List UInt8} (h : Synced metaint icy taken) :
    (split metaint taken).phase.left = icy.untilMeta := by
  have hhere := h.here
  cases hphase : (split metaint taken).phase with
  | audio left =>
    rw [hphase] at hhere
    exact hhere.1.symm
  | block left text =>
    rw [hphase] at hhere
    exact hhere.1.symm

theorem toInt_le (n : ℕ) : toInt n ≤ n := by
  unfold toInt
  split_ifs <;> omega

/-- **`available`** promises no more than is left. -/
theorem available_le (up : Upstream) (hpos : 0 < metaint)
    (hsynced : Synced metaint icy up.taken) (a : ℤ) :
    (icy.available up a).1 ≤ (split metaint (icy.skip up).2.taken).phase.left := by
  have hskip := skipped_skip up hpos hsynced
  rw [hskip.synced.left_eq]
  have hle := toInt_le (icy.skip up).1.untilMeta
  unfold IcyStream.available
  dsimp only
  split_ifs with hless
  · exact (hless.le).trans hle
  · exact hle

/-- **`read`** returns the audio that it takes, unless a byte turns up after none was there. -/
theorem read_spec (up : Upstream) (hpos : 0 < metaint) (hsynced : Synced metaint icy up.taken)
    (hsteady : Steady up.ready) :
    Synced metaint (icy.read up).2.1 (icy.read up).2.2.taken ∧
      (split metaint (icy.read up).2.2.taken).audio =
        (split metaint up.taken).audio ++ (icy.read up).1.toList ∧
      (icy.read up).2.2.taken ++ (icy.read up).2.2.rest = up.taken ++ up.rest := by
  have hskip := skipped_skip up hpos hsynced
  have hstarved := hskip.starved hsteady
  unfold IcyStream.read
  dsimp only
  obtain ⟨c, rest, ready, hready, hrest, hread⟩ | ⟨hread, hnone⟩ := read_cases (icy.skip up).2
  · rw [hread] at hstarved ⊢
    dsimp only
    have huntil : (icy.skip up).1.untilMeta ≠ 0 := fun hzero => nomatch hstarved hzero
    have hphase := hskip.synced.phase_eq huntil
    obtain ⟨left, hleft⟩ : ∃ k, (icy.skip up).1.untilMeta = k + 1 :=
      ⟨(icy.skip up).1.untilMeta - 1, by omega⟩
    rw [hleft] at hphase
    have hsplit : split metaint ((icy.skip up).2.taken ++ [c]) =
        { split metaint (icy.skip up).2.taken with
          phase := .audio left, audio := (split metaint (icy.skip up).2.taken).audio ++ [c] } := by
      rw [split_concat]
      unfold Parts.feed
      rw [hphase]
    rw [if_pos (by omega), hleft, Nat.add_sub_cancel]
    refine ⟨⟨hskip.synced.interval, ?_, ?_⟩, ?_, ?_⟩
    · have hhere := hskip.synced.here
      rw [hphase] at hhere
      rw [hsplit]
      exact ⟨rfl, hhere.2⟩
    · rw [hsplit]
      exact hskip.synced.title
    · rw [hsplit, ← hskip.audio]
      rfl
    · rw [← hskip.stream, hrest]
      exact (List.append_cons ..).symm
  · rw [hread]
    dsimp only
    refine ⟨hskip.synced, ?_, hskip.stream⟩
    rw [hskip.audio]
    exact (List.append_nil _).symm

/-- **`peek`** shows the byte of audio that comes next, unless metadata comes first. -/
theorem peek_spec (hsynced : Synced metaint icy up.taken) (huntil : icy.untilMeta ≠ 0)
    {seen : Bool} {c : UInt8} (hpeek : peek up seen = some c) :
    (split metaint up.taken).next metaint up.rest = some c := by
  unfold peek at hpeek
  split_ifs at hpeek
  obtain ⟨rest, hrest⟩ : ∃ rest, up.rest = c :: rest := by
    cases hup : up.rest with
    | nil =>
      rw [hup] at hpeek
      cases hpeek
    | cons d rest =>
      rw [hup] at hpeek
      exact ⟨rest, by rw [Option.some.inj hpeek]⟩
  have hphase := hsynced.phase_eq huntil
  obtain ⟨left, hleft⟩ : ∃ k, icy.untilMeta = k + 1 := ⟨icy.untilMeta - 1, by omega⟩
  rw [hleft] at hphase
  have hfeed : Parts.feed metaint { split metaint up.taken with audio := [] } c =
      ⟨.audio left, [c], (split metaint up.taken).blocks⟩ := by
    unfold Parts.feed
    dsimp only
    rw [hphase]
    rfl
  unfold Parts.next
  rw [hrest, List.foldl_cons, hfeed]
  obtain ⟨more, hmore⟩ := audio_prefix metaint rest
    ⟨.audio left, [c], (split metaint up.taken).blocks⟩
  rw [hmore]
  rfl

/-! ### Runs -/

/-- No peek at metadata, and no byte that turns up within a call of `read` after none was there. -/
def Orderly (s : System) : Action → Prop
  | .available _ _ => True
  | .read ready => Steady ready
  | .peek seen => seen = true → s.icy.untilMeta = 0 → s.up.rest = []

instance decidableSteady : (ready : List Bool) → Decidable (Steady ready)
  | [] | [false] => inferInstanceAs (Decidable True)
  | false :: true :: _ => inferInstanceAs (Decidable False)
  | false :: false :: ready => decidableSteady (false :: ready)
  | true :: ready => decidableSteady ready

instance (s : System) : (a : Action) → Decidable (Orderly s a)
  | .available _ _ => inferInstanceAs (Decidable True)
  | .read ready => inferInstanceAs (Decidable (Steady ready))
  | .peek seen =>
    inferInstanceAs (Decidable (seen = true → s.icy.untilMeta = 0 → s.up.rest = []))

/-- **What was read is the audio**, and nothing else was shown or promised. -/
structure Demuxed (metaint : ℕ) (stream : List UInt8) (s : System) : Prop where
  stream : s.up.taken ++ s.up.rest = stream
  returned : s.returned = (split metaint s.up.taken).audio
  peeked : ∀ p ∈ s.peeked, p.next = some p.shown
  promises : ∀ p ∈ s.promises, p.promised ≤ p.left
  title : s.icy.title = lastTitle (split metaint s.up.taken).blocks

/-- The invariant. -/
structure Sound (metaint : ℕ) (stream : List UInt8) (s : System) : Prop where
  synced : Synced metaint s.icy s.up.taken
  demuxed : Demuxed metaint stream s

section

variable {stream : List UInt8} {s : System}

theorem Sound.available (hpos : 0 < metaint) (h : Sound metaint stream s) (ready : List Bool)
    (a : ℤ) : Sound metaint stream (s.available ready a) := by
  have hskip := skipped_skip { s.up with ready } hpos h.synced
  have hle := available_le { s.up with ready } hpos h.synced a
  refine ⟨hskip.synced, hskip.stream.trans h.demuxed.stream,
    h.demuxed.returned.trans hskip.audio.symm, h.demuxed.peeked, fun p hp => ?_,
    hskip.synced.title⟩
  rcases List.mem_append.mp hp with hp | hp
  · exact h.demuxed.promises p hp
  · rw [List.mem_singleton.mp hp]
    dsimp only
    rw [h.synced.interval]
    exact hle

theorem Sound.read (hpos : 0 < metaint) (h : Sound metaint stream s) {ready : List Bool}
    (hsteady : Steady ready) : Sound metaint stream (s.read ready) := by
  obtain ⟨hsynced, haudio, hstream⟩ :=
    read_spec { s.up with ready } hpos h.synced hsteady
  refine ⟨hsynced, hstream.trans h.demuxed.stream, ?_, h.demuxed.peeked, h.demuxed.promises,
    hsynced.title⟩
  refine Eq.trans ?_ haudio.symm
  exact congrArg (· ++ _) h.demuxed.returned

theorem Sound.peek (h : Sound metaint stream s) {seen : Bool}
    (hpeek : seen = true → s.icy.untilMeta = 0 → s.up.rest = []) :
    Sound metaint stream (s.peek seen) := by
  unfold System.peek
  cases hshown : Icy.peek s.up seen with
  | none => exact h
  | some c =>
    refine ⟨h.synced, h.demuxed.stream, h.demuxed.returned, fun p hp => ?_, h.demuxed.promises,
      h.demuxed.title⟩
    rcases List.mem_append.mp hp with hp | hp
    · exact h.demuxed.peeked p hp
    · rw [List.mem_singleton.mp hp]
      dsimp only
      rw [h.synced.interval]
      refine peek_spec h.synced (fun huntil => ?_) hshown
      unfold Icy.peek at hshown
      split_ifs at hshown with hseen
      rw [hpeek hseen huntil] at hshown
      cases hshown

/-- **Every step** keeps the stream where it is. -/
theorem Sound.act (hpos : 0 < metaint) (h : Sound metaint stream s) {a : Action}
    (horderly : Orderly s a) : Sound metaint stream (s.act a) := by
  cases a with
  | available ready a => exact h.available hpos ready a
  | read ready => exact h.read hpos horderly
  | peek seen => exact h.peek horderly

theorem sound_start (metaint : ℕ) (stream : List UInt8) :
    Sound metaint stream (start metaint stream) :=
  ⟨⟨rfl, ⟨rfl, rfl⟩, rfl⟩, ⟨rfl, rfl, nofun, nofun, rfl⟩⟩

end

end Ch32h4.Icy
