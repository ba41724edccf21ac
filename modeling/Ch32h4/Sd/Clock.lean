import Mathlib.Algebra.Order.Ring.Nat
import Mathlib.Data.Rat.Defs

/-!
# The clock of the card

`sd_set_clock` of `ch32h4_sdmmc.c`, and the frequencies `ch32h4_sd_begin` passes to it.  The bus
runs at `SystemClock / div` in the fast mode and at `SystemClock / div / 64` in the slow one, with
`div` in `2..31`.

The card has to be one of which `sd_card_identify` makes something: what it answers is not here, but
for whether it can be switched to high speed.
-/

namespace Ch32h4.Sd

/-- `CLK_DIV`, field by field. -/
structure ClkDiv where
  clkMode : Bool
  div : ℕ
  clkoe : Bool
  deriving DecidableEq, Repr

/-- The clock the controller makes of `src`. -/
def ClkDiv.sdck (r : ClkDiv) (src : ℕ) : ℚ :=
  if r.clkMode then src / r.div else src / r.div / 64

/-- `CLK_DIV` and `sd_clk_hz`. -/
structure Clock where
  clkDiv : ClkDiv
  sdClkHz : ℕ
  deriving DecidableEq, Repr

/-- `(num + hz - 1) / hz` brought into the range of the field. -/
def divider (num hz : ℕ) : ℕ :=
  let div := (num + hz + (2 ^ 32 - 1)) % 2 ^ 32 / hz
  let div := if div < 2 then 2 else div
  if div > 31 then 31 else div

/-- `sd_set_clock`; it returns the new `sd_clk_hz`. -/
def setClock (src hz : ℕ) : Clock :=
  if hz ≥ src / 31 then
    let div := divider src hz
    { clkDiv := ⟨true, div, true⟩, sdClkHz := src / div }
  else
    let low := src / 64
    let div := divider low hz
    { clkDiv := ⟨false, div, true⟩, sdClkHz := low / div }

/-- `ch32h4_sd_begin` takes no other frequency. -/
def Admitted (freq : ℕ) : Prop := ¬ freq < 100000 ∧ ¬ freq > 50000000

instance (freq : ℕ) : Decidable (Admitted freq) := inferInstanceAs (Decidable (_ ∧ _))

/-- The frequencies `sd_card_identify` asks for, first the one of the identification.  `switched` is
the answer of `sd_try_high_speed`. -/
def requests (freq : ℕ) (switched : Bool) : List ℕ :=
  [400000, if freq > 25000000 then if switched then freq else 25000000 else freq]

end Ch32h4.Sd
