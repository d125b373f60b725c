import RiscvEmulator.Memory.Word

/-! # The serial port

`UART` of `UART.cpp`, with what it has printed. -/
namespace RiscvEmulator.Device
open Memory

structure UART where
  dr : Word := 0
  fr : Word := 0x90
  lcr : Word := 0
  lsr : Word := 0x60
  output : List Byte := []
deriving DecidableEq, Repr

namespace UART

/-- Offset 0 is the transmit register unless the divisor latch is selected. -/
def write (u : UART) (offset value : Word) : UART :=
  let u := if offset = 3 then { u with lcr := value &&& 0xFF } else u
  if offset = 0 ∧ u.lcr &&& 0x80 = 0 then
    let dr := value &&& 0xFF
    { u with
      dr := dr
      output := u.output ++ [dr.setWidth 8]
      lsr := u.lsr ||| 0x60 }
  else u

def read (u : UART) (offset : Word) : Word :=
  if offset = 0 ∨ offset = 1 then u.dr
  else if offset = 5 then u.lsr
  else if offset = 4 then u.fr
  else 0

/-- Only the low byte is written. -/
theorem write_low {v w : Word} (h : v &&& 0xFF = w &&& 0xFF) (u : UART) (offset : Word) :
    u.write offset v = u.write offset w := by
  unfold write
  rw [h]

/-- No register from offset 6 on. -/
theorem write_other {offset : Word} (h : 6 ≤ offset.toNat) (u : UART) (v : Word) :
    u.write offset v = u := by
  have h0 : offset ≠ 0 := by
    rintro rfl
    exact absurd h (by decide)
  have h3 : offset ≠ 3 := by
    rintro rfl
    exact absurd h (by decide)
  unfold write
  rw [if_neg h3]
  exact if_neg fun h => h0 h.1

theorem read_other {offset : Word} (h : 6 ≤ offset.toNat) (u : UART) : u.read offset = 0 := by
  unfold read
  rw [if_neg, if_neg, if_neg]
  · rintro rfl
    exact absurd h (by decide)
  · rintro rfl
    exact absurd h (by decide)
  · rintro (rfl | rfl)
    · exact absurd h (by decide)
    · exact absurd h (by decide)

end UART
end RiscvEmulator.Device
