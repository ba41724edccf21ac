import Ch32h4.Spiftl.Loader

/-!
# The image of a metadata block

`blockImage` is what a metadata block holds once it is complete: signature, epoch and index, a
part of the stream, and the CRC of all that.  A block that reads as such an image is found by the
scan (`isCopy_of_image`), under its epoch (`epochOf_of_image`), and yields its part of the stream
(`payload_of_image`).
-/

namespace Ch32h4.Spiftl

open Flash

/-- The bytes of a metadata block before its CRC. -/
def blockBody (epoch index : ℕ) (data : List UInt8) : List UInt8 :=
  metadataSig ++ bytesLE (Ftl.epochWord epoch index) ++ data

/-- The bytes of a metadata block. -/
def blockImage (epoch index : ℕ) (data : List UInt8) : List UInt8 :=
  blockBody epoch index data ++ crcGet (crcAdd crcReset (blockBody epoch index data))

theorem blockBody_length (epoch index : ℕ) (data : List UInt8) :
    (blockBody epoch index data).length = 12 + data.length := by
  rw [blockBody, List.length_append, List.length_append, bytesLE_length]
  rfl

theorem blockImage_length (epoch index : ℕ) (data : List UInt8) :
    (blockImage epoch index data).length = 16 + data.length := by
  rw [blockImage, List.length_append, blockBody_length, crcGet, bytesLE_length]
  omega

theorem epochWord_eq {epoch index : ℕ} (hindex : index < 2 ^ 8) :
    Ftl.epochWord epoch index = (epoch % 2 ^ 24) * 2 ^ 8 + index := by
  have hsplit : epoch * 2 ^ 8 % 2 ^ 32 = epoch % 2 ^ 24 * 2 ^ 8 := by omega
  rw [Ftl.epochWord, hsplit, ← Nat.shiftLeft_eq, ← Nat.shiftLeft_add_eq_or_of_lt hindex]

namespace Loader

section

variable {g : Dims} {f : Cells} {eb : ℕ}
variable {epoch index : ℕ} {data : List UInt8}

/-- The block reads as the image of a metadata block of the geometry. -/
structure HasImage (g : Dims) (f : Cells) (eb epoch index : ℕ) (data : List UInt8) : Prop where
  length : 16 + data.length = g.ebBytes
  read : readBytes f eb 0 g.ebBytes = blockImage epoch index data

theorem HasImage.parts (h : HasImage g f eb epoch index data) :
    readBytes f eb 0 8 = metadataSig ∧
      readBytes f eb 8 4 = bytesLE (Ftl.epochWord epoch index) ∧
      readBytes f eb 12 data.length = data ∧
      readBytes f eb 0 (g.ebBytes - 4) = blockBody epoch index data ∧
      readBytes f eb (g.ebBytes - 4) 4 = crcGet (crcAdd crcReset (blockBody epoch index data)) := by
  have hlen := h.length
  have hread := h.read
  have hbody : (blockBody epoch index data).length = g.ebBytes - 4 := by
    rw [blockBody_length]
    omega
  have hcut : g.ebBytes = (blockBody epoch index data).length +
      (crcGet (crcAdd crcReset (blockBody epoch index data))).length := by
    rw [hbody, crcGet, bytesLE_length]
    omega
  rw [hcut, blockImage, readBytes_eq_append, hbody, crcGet, bytesLE_length, Nat.zero_add] at hread
  obtain ⟨hb, hcrc⟩ := hread
  have hb' := hb
  have hcut' : g.ebBytes - 4 = (metadataSig ++ bytesLE (Ftl.epochWord epoch index)).length +
      data.length := by
    rw [List.length_append, bytesLE_length, metadataSig]
    simp only [List.length_cons, List.length_nil]
    omega
  rw [hcut', blockBody, readBytes_eq_append] at hb
  obtain ⟨hhead, hdata⟩ := hb
  rw [List.length_append, readBytes_eq_append] at hhead
  exact ⟨hhead.1, hhead.2, hdata, hb', hcrc⟩

/-- A block that reads as an image is found by the scan. -/
theorem HasImage.isCopy (h : HasImage g f eb epoch index data) : isCopy g f eb = true := by
  obtain ⟨hsig, -, -, hbody, hcrc⟩ := h.parts
  rw [Loader.isCopy, hasSig, crcMatches, hsig, hbody, hcrc, decide_eq_true rfl, decide_eq_true rfl,
    Bool.and_self]

theorem HasImage.readWord (h : HasImage g f eb epoch index data) (hindex : index < 2 ^ 8) :
    readWord f eb 8 = (epoch % 2 ^ 24) * 2 ^ 8 + index := by
  obtain ⟨-, hword, -⟩ := h.parts
  rw [readWord_of_bytes hword, epochWord_eq hindex]
  omega

theorem HasImage.epochOf (h : HasImage g f eb epoch index data) (hindex : index < 2 ^ 8) :
    epochOf f eb = epoch % 2 ^ 24 := by
  rw [Loader.epochOf, h.readWord hindex]
  omega

theorem HasImage.congr (h : HasImage g f eb epoch index data) {f' : Cells}
    (hf : ∀ o < g.ebBytes, f' eb o = f eb o) : HasImage g f' eb epoch index data :=
  ⟨h.length, by rw [readBytes_congr fun o _ ho => hf o (by omega), h.read]⟩

end

end Loader

end Ch32h4.Spiftl
