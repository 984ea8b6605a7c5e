import Mathlib.Data.List.Basic
import Mathlib.Tactic

/-! @esp schemes | name:Bytes | scheme:round-trip

    Little-endian fields of fixed width. `le n v` is the `n` bytes of `v`, least significant first,
    and `ofLe` reads them back. A layout is a concatenation of fields of known length, and its parts
    are found again by `take` and `drop`. -/

namespace Esp.Bytes

/-- The `n` low bytes of `v`, least significant first. -/
def le : ℕ → ℕ → List UInt8
  | 0, _ => []
  | n + 1, v => UInt8.ofNat v :: le n (v / 256)

/-- The number whose bytes these are. -/
def ofLe : List UInt8 → ℕ
  | [] => 0
  | b :: bs => b.toNat + 256 * ofLe bs

@[simp] theorem length_le (n v : ℕ) : (le n v).length = n := by
  induction n generalizing v with
  | zero => rfl
  | succ n ih => rw [le, List.length_cons, ih]

/-- A field reads back as the value modulo its width. -/
theorem ofLe_le (n v : ℕ) : ofLe (le n v) = v % 256 ^ n := by
  induction n generalizing v with
  | zero => rw [le, ofLe, pow_zero, Nat.mod_one]
  | succ n ih =>
    rw [le, ofLe, ih, UInt8.toNat_ofNat', pow_succ' 256, Nat.mod_mul]

/-- A field put back from the number it reads as is the same bytes. -/
theorem le_ofLe (bs : List UInt8) : le bs.length (ofLe bs) = bs := by
  induction bs with
  | nil => rfl
  | cons b bs ih =>
    have hlow : UInt8.ofNat (b.toNat + 256 * ofLe bs) = b := by
      rw [← UInt8.toNat_inj, UInt8.toNat_ofNat', Nat.add_mul_mod_self_left,
        Nat.mod_eq_of_lt b.toNat_lt]
    have hhigh : (b.toNat + 256 * ofLe bs) / 256 = ofLe bs := by
      have hb : b.toNat < 256 := b.toNat_lt
      omega
    rw [List.length_cons, ofLe, le, hlow, hhigh, ih]

theorem ofLe_lt (bs : List UInt8) : ofLe bs < 256 ^ bs.length := by
  induction bs with
  | nil => exact Nat.one_pos
  | cons b bs ih =>
    have hb : b.toNat < 256 := b.toNat_lt
    rw [ofLe, List.length_cons, pow_succ]
    omega

/-! ### Fields of the machine types -/

def putU32 (v : UInt32) : List UInt8 := le 4 v.toNat

def getU32 (bs : List UInt8) : UInt32 := UInt32.ofNat (ofLe bs)

def putI64 (v : Int64) : List UInt8 := le 8 v.toUInt64.toNat

def getI64 (bs : List UInt8) : Int64 := (UInt64.ofNat (ofLe bs)).toInt64

@[simp] theorem length_putU32 (v : UInt32) : (putU32 v).length = 4 := length_le ..

@[simp] theorem length_putI64 (v : Int64) : (putI64 v).length = 8 := length_le ..

@[simp] theorem getU32_putU32 (v : UInt32) : getU32 (putU32 v) = v := by
  have hlt : v.toNat < 256 ^ 4 := v.toNat_lt
  rw [getU32, putU32, ofLe_le, Nat.mod_eq_of_lt hlt, UInt32.ofNat_toNat]

@[simp] theorem getI64_putI64 (v : Int64) : getI64 (putI64 v) = v := by
  have hlt : v.toUInt64.toNat < 256 ^ 8 := v.toUInt64.toNat_lt
  rw [getI64, putI64, ofLe_le, Nat.mod_eq_of_lt hlt, UInt64.ofNat_toNat]
  rfl

theorem putU32_getU32 {bs : List UInt8} (h : bs.length = 4) : putU32 (getU32 bs) = bs := by
  have hlt : ofLe bs < 2 ^ 32 := (ofLe_lt bs).trans_eq (by rw [h]; rfl)
  rw [putU32, getU32, UInt32.toNat_ofNat_of_lt' hlt, ← h, le_ofLe]

theorem putI64_getI64 {bs : List UInt8} (h : bs.length = 8) : putI64 (getI64 bs) = bs := by
  have hlt : ofLe bs < 2 ^ 64 := (ofLe_lt bs).trans_eq (by rw [h]; rfl)
  have hback : (getI64 bs).toUInt64.toNat = ofLe bs := UInt64.toNat_ofNat_of_lt' hlt
  rw [putI64, hback, ← h, le_ofLe]

/-! ### Fields in a layout -/

/-- The field at the front of a layout. -/
theorem take_field {f rest : List UInt8} {n : ℕ} (h : f.length = n) : (f ++ rest).take n = f := by
  rw [← h, List.take_left]

/-- What follows the field at the front. -/
theorem drop_field {f rest : List UInt8} {n : ℕ} (h : f.length = n) :
    (f ++ rest).drop n = rest := by
  rw [← h, List.drop_left]

/-- Four bytes read at the front of a layout are put back in front of what follows them. -/
theorem putU32_front {bs : List UInt8} (h : 4 ≤ bs.length) :
    putU32 (getU32 (bs.take 4)) ++ bs.drop 4 = bs := by
  rw [putU32_getU32 (List.length_take_of_le h), List.take_append_drop]

theorem putI64_front {bs : List UInt8} (h : 8 ≤ bs.length) :
    putI64 (getI64 (bs.take 8)) ++ bs.drop 8 = bs := by
  rw [putI64_getI64 (List.length_take_of_le h), List.take_append_drop]

/-- The same further on. -/
theorem putU32_at {bs : List UInt8} {n m : ℕ} (hm : n + 4 = m) (h : m ≤ bs.length) :
    putU32 (getU32 ((bs.drop n).take 4)) ++ bs.drop m = bs.drop n := by
  rw [← hm, ← List.drop_drop]
  exact putU32_front (by rw [List.length_drop]; omega)

theorem putI64_at {bs : List UInt8} {n m : ℕ} (hm : n + 8 = m) (h : m ≤ bs.length) :
    putI64 (getI64 ((bs.drop n).take 8)) ++ bs.drop m = bs.drop n := by
  rw [← hm, ← List.drop_drop]
  exact putI64_front (by rw [List.length_drop]; omega)

end Esp.Bytes
