import Mathlib.Data.Nat.Basic
import Mathlib.Tactic.Ring

/-!
Numbers in a fixed number of bytes, the least significant byte first,
and integers in two's complement on top of them.
-/

namespace RaftShardedKv.LittleEndian

/-- The lowest `w` bytes of a number. -/
def toBytes : ℕ → ℕ → List UInt8
  | 0, _ => []
  | w + 1, v => UInt8.ofNat v :: toBytes w (v / 256)

def ofBytes : List UInt8 → ℕ
  | [] => 0
  | b :: bs => b.toNat + 256 * ofBytes bs

@[simp] theorem length_toBytes (w v : ℕ) : (toBytes w v).length = w := by
  induction w generalizing v with
  | zero => rfl
  | succ w ih => simp [toBytes, ih]

theorem ofBytes_toBytes {w v : ℕ} (h : v < 256 ^ w) : ofBytes (toBytes w v) = v := by
  induction w generalizing v with
  | zero =>
      have hv : v = 0 := by simpa using h
      rw [hv]
      rfl
  | succ w ih =>
      have hdiv : v / 256 < 256 ^ w := Nat.div_lt_of_lt_mul (by rw [pow_succ] at h; omega)
      rw [toBytes, ofBytes, ih hdiv, UInt8.toNat_ofNat']
      exact Nat.mod_add_div v 256

theorem ofBytes_lt (bs : List UInt8) : ofBytes bs < 256 ^ bs.length := by
  induction bs with
  | nil => simp [ofBytes]
  | cons b bs ih =>
      have hb := b.toNat_lt
      rw [ofBytes, List.length_cons, pow_succ]
      omega

theorem toBytes_ofBytes (bs : List UInt8) : toBytes bs.length (ofBytes bs) = bs := by
  induction bs with
  | nil => rfl
  | cons b bs ih =>
      have hb := b.toNat_lt
      have hhead : UInt8.ofNat (b.toNat + 256 * ofBytes bs) = b := by
        apply UInt8.toNat_inj.mp
        rw [UInt8.toNat_ofNat']
        omega
      have htail : (b.toNat + 256 * ofBytes bs) / 256 = ofBytes bs := by omega
      rw [List.length_cons, ofBytes, toBytes, hhead, htail, ih]

/-- The unsigned number of 64 bits that has the bits of an integer. -/
def unsigned (v : ℤ) : ℕ := (v % 2 ^ 64).toNat

/-- The integer of 64 bits that has the bits of an unsigned number. -/
def signed (u : ℕ) : ℤ := if u < 2 ^ 63 then u else u - 2 ^ 64

theorem unsigned_lt (v : ℤ) : unsigned v < 256 ^ 8 := by
  unfold unsigned
  omega

theorem signed_unsigned {v : ℤ} (hlo : -2 ^ 63 ≤ v) (hhi : v < 2 ^ 63) :
    signed (unsigned v) = v := by
  unfold signed unsigned
  split <;> omega

theorem unsigned_signed {u : ℕ} (h : u < 2 ^ 64) : unsigned (signed u) = u := by
  unfold signed unsigned
  split <;> omega

end RaftShardedKv.LittleEndian
