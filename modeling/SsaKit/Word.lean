/-!
Two's complement integers of a given width, held in the low bits of a 64-bit word. From width 64
on the word is the whole integer.
-/

-- Powers of numbers are those of the core library, also where algebra is imported.
attribute [instance (20000), default_instance 20000] instPowNat

namespace SsaKit.Word

/-- Keep the low `bits` bits. -/
def mask (bits : Nat) (value : UInt64) : UInt64 :=
  if 64 ≤ bits then value else value % (1 <<< UInt64.ofNat bits)

/-- The low `bits` bits read as a signed number. Width 0 reads the whole word. -/
def signed (bits : Nat) (value : UInt64) : Int :=
  if bits = 0 ∨ 64 ≤ bits then value.toInt64.toInt
  else Int.bmod value.toNat (2 ^ bits)

/-- The word that holds an integer modulo `2 ^ 64`. -/
def ofInt (value : Int) : UInt64 :=
  (Int64.ofInt value).toUInt64

end SsaKit.Word
