import Ch32h4.TransitionSystem
import Mathlib.Algebra.Order.Ring.Int

/-!
# Decoding MP3 frames

Translation of `MP3Decoder::decodeFrame`, and of what it calls of the decoder under it:
`MP3FindSyncWord` and `MP3Decode`, up to the point where the main data of a frame is in the bit
reservoir.  What reads the header and the side information, and what makes samples of the main data,
are parameters (`Helix`), and the state that only they look at is one of any type.

Memory is a function of the place, as the header is read where a sync word was found, however many
bytes are left behind it.
-/

namespace Ch32h4.Mp3

/-- What can go wrong with the main data of a frame. -/
inductive Stage where
  | scalefact
  | huffcodes
  | dequantize
  | imdct
  | subband
  deriving DecidableEq

/-- The results of `MP3Decode`. -/
inductive Err where
  | none
  | indataUnderflow
  | maindataUnderflow
  | freeBitrateSync
  | invalidFrameheader
  | invalidSideinfo
  | invalid (stage : Stage)
  deriving DecidableEq

/-- `MP3DecInfo`, with the rest of it in `other`. -/
structure DecInfo (ρ : Type*) where
  bitrate : ℕ
  freeBitrateFlag : Bool
  freeBitrateSlots : ℤ
  nSlots : ℤ
  mainDataBegin : ℕ
  /-- The first `mainDataBytes` bytes of `mainBuf`: the bit reservoir. -/
  mainBuf : List UInt8
  other : ρ

/-- `MP3FrameInfo`, as far as it is read. -/
structure FrameInfo where
  bitrate : ℕ
  nChans : ℕ
  samprate : ℕ
  outputSamps : ℕ

/-- A buffer of samples. -/
abbrev Samples := ℕ → Int16

/-- The parts of the decoder that are parameters. -/
structure Helix (ρ : Type*) where
  /-- `UnpackFrameHeader`, with the bytes of the header if it is one. -/
  unpackFrameHeader : DecInfo ρ → (ℕ → UInt8) → DecInfo ρ × Option ℕ
  /-- `UnpackSideInfo`, with its bytes. -/
  unpackSideInfo : DecInfo ρ → (ℕ → UInt8) → DecInfo ρ × Option ℕ
  /-- `MP3FindFreeSync` in some bytes, for the header at a place. -/
  findFreeSync : (ℕ → UInt8) → (ℕ → UInt8) → ℤ → ℤ
  /-- The bitrate that a frame of so many bytes has. -/
  freeBitrate : DecInfo ρ → ℤ → ℕ
  checkPadBit : DecInfo ρ → ℕ
  /-- `MP3ClearBadFrame`. -/
  clearBadFrame : DecInfo ρ → Samples → Samples
  /-- The granules of a frame are decoded, with what went wrong if something did. -/
  granules : DecInfo ρ → Samples → DecInfo ρ × Samples × Option Stage
  /-- `MP3GetLastFrameInfo`. -/
  lastFrameInfo : DecInfo ρ → FrameInfo

/-- `MP3FindSyncWord`. -/
def findSyncWord (buf : ℕ → UInt8) (nBytes : ℕ) : Option ℕ :=
  (List.range (nBytes - 1)).find? fun i =>
    (buf i &&& 0xFF) = 0xFF && (buf (i + 1) &&& 0xE0) = 0xE0

/-- What `MP3Decode` comes to. -/
structure Decoded (ρ : Type*) where
  info : DecInfo ρ
  err : Err
  bytesLeft : ℤ
  outbuf : Samples
  /-- How many bytes are in the decoder for good: header, side information and main data. -/
  taken : ℕ

namespace Helix

variable {ρ : Type*} (helix : Helix ρ)

/-- A frame in free mode, whose size is that to the next sync word; `false` if there is none. -/
def freeMode (info : DecInfo ρ) (buf : ℕ → UInt8) (bytes : ℕ) (bytesLeft : ℤ) : DecInfo ρ × Bool :=
  if info.bitrate = 0 ∨ info.freeBitrateFlag = true then
    if info.freeBitrateFlag = true then
      ({ info with nSlots := info.freeBitrateSlots + helix.checkPadBit info }, true)
    else
      let slots := helix.findFreeSync (fun i => buf (bytes + i)) buf bytesLeft
      let info := { info with freeBitrateFlag := true, freeBitrateSlots := slots }
      if slots < 0 then (info, false)
      else
        let info := { info with bitrate := helix.freeBitrate info (slots + bytes) }
        ({ info with nSlots := slots + helix.checkPadBit info }, true)
  else (info, true)

/-- The bytes at a place, as far as they are copied. -/
def bytesAt (buf : ℕ → UInt8) (off len : ℕ) : List UInt8 :=
  (List.range len).map fun i => buf (off + i)

/-- The end of `MP3Decode`, from the main data on. -/
def mainData (info : DecInfo ρ) (buf : ℕ → UInt8) (bytes : ℕ) (bytesLeft : ℤ) (outbuf : Samples) :
    Decoded ρ :=
  let new := bytesAt buf bytes info.nSlots.toNat
  let taken := bytes + info.nSlots.toNat
  let bytesLeft := bytesLeft - info.nSlots
  if info.mainDataBegin ≤ info.mainBuf.length then
    let old := info.mainBuf.drop (info.mainBuf.length - info.mainDataBegin)
    let r := helix.granules { info with mainBuf := old ++ new } outbuf
    match r.2.2 with
    | none => ⟨r.1, .none, bytesLeft, r.2.1, taken⟩
    | some stage => ⟨r.1, .invalid stage, bytesLeft, helix.clearBadFrame r.1 r.2.1, taken⟩
  else
    let info := { info with mainBuf := info.mainBuf ++ new }
    ⟨info, .maindataUnderflow, bytesLeft, helix.clearBadFrame info outbuf, taken⟩

/-- `MP3Decode`, without `useSize`. -/
def decode (info : DecInfo ρ) (buf : ℕ → UInt8) (bytesLeft : ℤ) (outbuf : Samples) : Decoded ρ :=
  match helix.unpackFrameHeader info buf with
  | (info, none) => ⟨info, .invalidFrameheader, bytesLeft, outbuf, 0⟩
  | (info, some fhBytes) =>
    match helix.unpackSideInfo info fun i => buf (fhBytes + i) with
    | (info, none) =>
      ⟨info, .invalidSideinfo, bytesLeft, helix.clearBadFrame info outbuf, 0⟩
    | (info, some siBytes) =>
      let bytesLeft := bytesLeft - (fhBytes + siBytes : ℕ)
      let r := helix.freeMode info buf (fhBytes + siBytes) bytesLeft
      if r.2 then
        if r.1.nSlots > bytesLeft then
          ⟨r.1, .indataUnderflow, bytesLeft, helix.clearBadFrame r.1 outbuf, 0⟩
        else helix.mainData r.1 buf (fhBytes + siBytes) bytesLeft outbuf
      else ⟨r.1, .freeBitrateSync, bytesLeft, helix.clearBadFrame r.1 outbuf, 0⟩

end Helix

/-! ### `MP3Decoder` -/

/-- `MAX_SAMPLES`. -/
abbrev maxSamples : ℕ := 2304

structure Decoder (ρ : Type*) where
  /-- The decoder under it, if there is one. -/
  dec : Option (DecInfo ρ)
  rate : ℕ
  bitrate : ℕ
  frames : ℕ
  errors : ℕ
  channels : ℕ

/-- What a call of `decodeFrame` comes to. -/
structure Call (ρ : Type*) where
  decoder : Decoder ρ
  answer : ℤ
  consumed : ℕ
  pcm : Samples
  /-- Where the decoder under it began to take bytes in, and how many. -/
  start : ℕ
  taken : ℕ

/-- `decodeFrame`; `input` is false for a null pointer.  The decoder under it never leaves more
bytes than there were, as `MP3FindFreeSync` finds a frame of some size or answers with -1. -/
def Decoder.decodeFrame {ρ : Type*} (helix : Helix ρ) (d : Decoder ρ) (input : Bool)
    (mem : ℕ → UInt8) (inLen : ℕ) (pcm : Samples) (pcmCap : ℕ) : Call ρ :=
  match d.dec with
  | none => ⟨d, 0, 0, pcm, 0, 0⟩
  | some info =>
    if input = false ∨ inLen = 0 ∨ pcmCap < maxSamples then ⟨d, 0, 0, pcm, 0, 0⟩
    else
      match findSyncWord mem inLen with
      | none => ⟨d, 0, if inLen > 2 then inLen - 2 else 0, pcm, 0, 0⟩
      | some off =>
        let before : ℤ := (inLen - off : ℕ)
        let r := helix.decode info (fun i => mem (off + i)) before pcm
        let d := { d with dec := some r.info }
        if r.err = .indataUnderflow ∨ r.err = .maindataUnderflow then
          ⟨d, 0, off, r.outbuf, off, r.taken⟩
        else if r.err ≠ .none then
          ⟨{ d with errors := d.errors + 1 }, -1, off + 1, r.outbuf, off, r.taken⟩
        else
          let fi := helix.lastFrameInfo r.info
          ⟨{ d with
              rate := fi.samprate
              channels := fi.nChans
              bitrate := fi.bitrate
              frames := d.frames + 1 }, fi.outputSamps, off + (before - r.bytesLeft).toNat,
            r.outbuf, off, r.taken⟩

end Ch32h4.Mp3
