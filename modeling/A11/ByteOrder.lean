import Mathlib.Tactic

/-! Fixed-width numbers as bytes, in either byte order. -/
namespace A11

/-- The `w` low bytes of `n`; higher bits are dropped. -/
def littleEndian : ℕ → ℕ → List UInt8
  | 0, _ => []
  | w+1, n => UInt8.ofNat n::littleEndian w (n/256)

def ofLittleEndian : List UInt8 → ℕ
  | [] => 0
  | b::bs => b.toNat+256*ofLittleEndian bs

variable (w n : ℕ)

@[simp] theorem littleEndian_length : (littleEndian w n).length = w := by
  induction w generalizing n with
  | zero => rfl
  | succ w ih => simp [littleEndian,ih]

theorem ofLittleEndian_littleEndian : ofLittleEndian (littleEndian w n) = n%256^w := by
  induction w generalizing n with
  | zero => simp [littleEndian,ofLittleEndian,Nat.mod_one]
  | succ w ih =>
    have hbyte : (UInt8.ofNat n).toNat = n%256 := UInt8.toNat_ofNat'
    rw [littleEndian,ofLittleEndian,ih,hbyte,pow_succ',Nat.mod_mul]

theorem ofLittleEndian_of_lt {w n : ℕ} (h : n < 256^w) : ofLittleEndian (littleEndian w n) = n := by
  rw [ofLittleEndian_littleEndian,Nat.mod_eq_of_lt h]

/-- The `w` low bytes of `n`, most significant byte first. -/
def bigEndian : ℕ → ℕ → List UInt8
  | 0, _ => []
  | w+1, n => UInt8.ofNat (n/256^w)::bigEndian w n

def ofBigEndian (bs : List UInt8) : ℕ := bs.foldl (fun n b => n*256+b.toNat) 0

@[simp] theorem bigEndian_length : (bigEndian w n).length = w := by
  induction w with
  | zero => rfl
  | succ w ih => simp [bigEndian,ih]

theorem foldl_bigEndian (w n m : ℕ) :
    (bigEndian w n).foldl (fun n b => n*256+b.toNat) m = m*256^w+n%256^w := by
  induction w generalizing m with
  | zero => simp [bigEndian,Nat.mod_one]
  | succ w ih =>
    have hbyte : (UInt8.ofNat (n/256^w)).toNat = n/256^w%256 := UInt8.toNat_ofNat'
    rw [bigEndian,List.foldl_cons,ih,hbyte,Nat.mod_pow_succ]
    ring

theorem ofBigEndian_of_lt {w n : ℕ} (h : n < 256^w) : ofBigEndian (bigEndian w n) = n := by
  rw [ofBigEndian,foldl_bigEndian,Nat.zero_mul,Nat.zero_add,Nat.mod_eq_of_lt h]

end A11
