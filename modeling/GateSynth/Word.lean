/-!
# Words and widths

A signal carries between 1 and 64 bits, and its value is a 64-bit word whose bits above the
width are zero. `Width` holds the range in its type, so a mask exists for every width; a bare
number becomes a width through `Width.ofNat?`. The statements say what masking does to the
numeric value: `toNat_mask` and `toNat_truncate`.
-/

namespace GateSynth

/-- The value of a signal: 64 bits, of which a signal of width `w` uses the low `w`. -/
abbrev Word := UInt64

/-- The number of bits of a signal, between 1 and 64. -/
structure Width where
  /-- The number of bits. -/
  bits : Nat
  /-- A signal has at least one bit. -/
  pos : 1 ≤ bits
  /-- A signal fits a word. -/
  le : bits ≤ 64
deriving DecidableEq

/-- A number of bits that no signal has. -/
structure NoWidth where
  /-- The number. -/
  bits : Nat
deriving DecidableEq

namespace Width

/-- The largest number of bits a signal can have. -/
def limit : Nat := 64

/-- The width of a signal whose width is not declared. -/
def one : Width := ⟨1, by decide, by decide⟩

instance : Inhabited Width := ⟨one⟩

/-- The width with this number of bits, if the number is in range. -/
def ofNat? (bits : Nat) : Option Width :=
  if h : 1 ≤ bits ∧ bits ≤ 64 then some ⟨bits, h.1, h.2⟩ else none

/-- The width with this number of bits, or the number itself if it is none. -/
def ofNat (bits : Nat) : Except NoWidth Width :=
  match ofNat? bits with
  | some w => .ok w
  | none => .error ⟨bits⟩

/-- The wider of two widths. -/
def max (v w : Width) : Width := if v.bits ≤ w.bits then w else v

/-- The least width that holds a value; zero takes one bit. -/
def ofValue (value : Word) : Width :=
  if h : value.toNat = 0 then one
  else
    ⟨value.toNat.log2 + 1, by omega, by
      have := (Nat.log2_lt h).2 value.toNat_lt
      omega⟩

/-- The number of values of a width: two to the number of bits. -/
def values (w : Width) : Nat := Nat.pow 2 w.bits

/-- The word whose low bits, as many as the width says, are ones: all ones, less those above the
width. -/
def mask (w : Width) : Word := (~~~0 : Word) >>> UInt64.ofNat (64 - w.bits)

/-- The low bits of a word, as many as the width says. -/
def truncate (w : Width) (value : Word) : Word := value &&& w.mask

/-- The bitwise complement of a value at its own width. -/
def complement (w : Width) (value : Word) : Word := ~~~value &&& w.mask

@[ext] theorem ext {v w : Width} (h : v.bits = w.bits) : v = w := by
  cases v; cases w; cases h; rfl

@[simp] theorem ofNat?_bits (w : Width) : ofNat? w.bits = some w := by
  simp [ofNat?, w.pos, w.le]

/-- A number is a width exactly when it is between 1 and 64. -/
theorem ofNat?_isSome_iff {bits : Nat} : (ofNat? bits).isSome ↔ 1 ≤ bits ∧ bits ≤ 64 := by
  simp only [ofNat?]
  split <;> simp_all

theorem values_pos (w : Width) : 0 < w.values := Nat.two_pow_pos w.bits

theorem values_le (w : Width) : w.values ≤ UInt64.size :=
  Nat.pow_le_pow_right (by decide) w.le

/-- The mask of a width is its largest value. -/
@[simp] theorem toNat_mask (w : Width) : w.mask.toNat = w.values - 1 := by
  have hpos := w.pos
  have hle := w.le
  have hshift : (UInt64.ofNat (64 - w.bits)).toNat % 64 = 64 - w.bits := by
    rw [UInt64.toNat_ofNat_of_lt' (by simp only [UInt64.size]; omega)]
    omega
  have hsplit : UInt64.size = w.values * Nat.pow 2 (64 - w.bits) := by
    refine Eq.trans ?_ (Nat.pow_add 2 w.bits (64 - w.bits))
    rw [show w.bits + (64 - w.bits) = 64 by omega]
  have hones : (~~~0 : Word).toNat = UInt64.size - 1 := by decide
  have hp : 0 < Nat.pow 2 (64 - w.bits) := Nat.two_pow_pos _
  rw [mask, UInt64.toNat_shiftRight, hshift, hones]
  refine (Nat.shiftRight_eq_div_pow _ _).trans ?_
  refine (Nat.div_eq_iff hp).2 ?_
  rw [Nat.sub_mul, ← hsplit]
  omega

/-- Masking a value is taking its remainder modulo the number of values of the width. -/
@[simp] theorem toNat_truncate (w : Width) (value : Word) :
    (w.truncate value).toNat = value.toNat % w.values := by
  rw [truncate, UInt64.toNat_and, toNat_mask]
  exact Nat.and_two_pow_sub_one_eq_mod _ _

theorem truncate_lt (w : Width) (value : Word) : (w.truncate value).toNat < w.values := by
  rw [toNat_truncate]
  exact Nat.mod_lt _ w.values_pos

/-- Masking twice is masking once. -/
@[simp] theorem truncate_truncate (w : Width) (value : Word) :
    w.truncate (w.truncate value) = w.truncate value := by
  apply UInt64.toNat_inj.mp
  simp

end Width

end GateSynth
