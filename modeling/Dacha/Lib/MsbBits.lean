import Mathlib

/-!
# Big-endian byte strings and most-significant-first bit strings

A byte string read big-endian is a number (`fromBe`), and the same string read bit by bit, each
byte from its most significant bit, is the bit string `bytesBits`. The two views agree:
`bytesBits bs` is `msbBits (8 * bs.length) (fromBe bs)`, the number's low bits written most
significant first. A coder that packs variable-length codes into bytes is then arithmetic on
`fromBe` (shift the value so far, add the code), and a decoder that reads the bytes back bit by
bit sees the concatenation of the codes' `msbBits`; `msbBits_mul_add` is the step between them.
-/

namespace Dacha.MsbBits

/-- The `k` low bits of `v`, most significant first. -/
def msbBits : Nat → Nat → List Bool
  | 0, _ => []
  | k + 1, v => v.testBit k :: msbBits k v

/-- The bits of a byte string, each byte from its most significant bit. -/
def bytesBits (bs : List UInt8) : List Bool :=
  bs.flatMap fun b => msbBits 8 b.toNat

/-- The number a big-endian byte string encodes. -/
def fromBe : List UInt8 → Nat
  | [] => 0
  | b :: bs => b.toNat * 256 ^ bs.length + fromBe bs

/-- The `k` low bytes of `n`, most significant first. -/
def toBe (n : Nat) : Nat → List UInt8
  | 0 => []
  | k + 1 => UInt8.ofNat (n / 256 ^ k % 256) :: toBe n k

-- The equations of the three recursions, stated once so that proofs rewrite with these
-- rather than asking for the definitions' generated equation lemmas.
theorem msbBits_zero_left (v : Nat) : msbBits 0 v = [] := rfl

theorem msbBits_succ (k v : Nat) : msbBits (k + 1) v = v.testBit k :: msbBits k v := rfl

theorem fromBe_nil : fromBe [] = 0 := rfl

theorem fromBe_cons (b : UInt8) (bs : List UInt8) :
    fromBe (b :: bs) = b.toNat * 256 ^ bs.length + fromBe bs := rfl

theorem toBe_zero_right (n : Nat) : toBe n 0 = [] := rfl

theorem toBe_succ (n k : Nat) : toBe n (k + 1) = UInt8.ofNat (n / 256 ^ k % 256) :: toBe n k := rfl

@[simp] theorem length_msbBits (k v : Nat) : (msbBits k v).length = k := by
  induction k with
  | zero => rfl
  | succ k ih => rw [msbBits_succ, List.length_cons, ih]

@[simp] theorem length_toBe (n k : Nat) : (toBe n k).length = k := by
  induction k with
  | zero => rfl
  | succ k ih => rw [toBe_succ, List.length_cons, ih]

@[simp] theorem length_bytesBits (bs : List UInt8) : (bytesBits bs).length = 8 * bs.length := by
  induction bs with
  | nil => rfl
  | cons b bs ih => simp [bytesBits] at ih ⊢; rw [ih]; ring

theorem two_pow_eight_mul (n : Nat) : 2 ^ (8 * n) = 256 ^ n := by
  rw [pow_mul]; norm_num

/-! ## Bit strings of numbers -/

/-- Splitting the `a + b` low bits of `v` after the first `a`. -/
theorem msbBits_add (a b v : Nat) : msbBits (a + b) v = msbBits a (v / 2 ^ b) ++ msbBits b v := by
  induction a with
  | zero => rw [Nat.zero_add, msbBits_zero_left, List.nil_append]
  | succ a ih =>
    rw [Nat.succ_add, msbBits_succ, msbBits_succ, ih, Nat.testBit_div_two_pow]
    rfl

/-- Only the low `k` bits matter. -/
theorem msbBits_mod_two_pow {k m : Nat} (h : k ≤ m) (v : Nat) :
    msbBits k (v % 2 ^ m) = msbBits k v := by
  induction k with
  | zero => rfl
  | succ k ih =>
    have hk : k < m := by omega
    simp [msbBits_succ, Nat.testBit_mod_two_pow, hk, ih (by omega)]

/-- A code `y` of `b` bits appended to the value `x` so far. -/
theorem msbBits_mul_add (a b x y : Nat) (hy : y < 2 ^ b) :
    msbBits (a + b) (x * 2 ^ b + y) = msbBits a x ++ msbBits b y := by
  have hdiv : (x * 2 ^ b + y) / 2 ^ b = x := by
    rw [Nat.add_comm, Nat.add_mul_div_right _ _ (Nat.two_pow_pos b), Nat.div_eq_of_lt hy,
      Nat.zero_add]
  have hmod : (x * 2 ^ b + y) % 2 ^ b = y := by
    rw [Nat.add_comm, Nat.add_mul_mod_self_right, Nat.mod_eq_of_lt hy]
  rw [msbBits_add, hdiv, ← msbBits_mod_two_pow (le_refl b) (x * 2 ^ b + y), hmod]

theorem msbBits_eq_replicate_true {k v : Nat} (h : ∀ i < k, v.testBit i = true) :
    msbBits k v = List.replicate k true := by
  induction k with
  | zero => rfl
  | succ k ih =>
    rw [msbBits_succ, List.replicate_succ, h k (Nat.lt_succ_self k), ih fun i hi => h i (by omega)]

/-- All ones: the padding a coder fills the last byte with. -/
theorem msbBits_two_pow_sub_one (k : Nat) : msbBits k (2 ^ k - 1) = List.replicate k true :=
  msbBits_eq_replicate_true fun i hi => by simp [Nat.testBit_two_pow_sub_one, hi]

/-! ## Big-endian byte strings -/

theorem fromBe_lt (bs : List UInt8) : fromBe bs < 256 ^ bs.length := by
  induction bs with
  | nil => simp [fromBe_nil]
  | cons b bs ih =>
    have hb : b.toNat < 256 := b.toNat_lt
    calc b.toNat * 256 ^ bs.length + fromBe bs
        < b.toNat * 256 ^ bs.length + 256 ^ bs.length := by omega
      _ = (b.toNat + 1) * 256 ^ bs.length := by ring
      _ ≤ 256 * 256 ^ bs.length := Nat.mul_le_mul_right _ hb
      _ = 256 ^ (b :: bs).length := by rw [List.length_cons, pow_succ, Nat.mul_comm]

theorem fromBe_append (xs ys : List UInt8) :
    fromBe (xs ++ ys) = fromBe xs * 256 ^ ys.length + fromBe ys := by
  induction xs with
  | nil => simp [fromBe_nil]
  | cons x xs ih =>
    simp only [List.cons_append, fromBe_cons, ih, List.length_append, pow_add]
    ring

@[simp] theorem fromBe_replicate_zero (k : Nat) : fromBe (List.replicate k 0) = 0 := by
  induction k with
  | zero => rfl
  | succ k ih => simp [List.replicate_succ, fromBe_cons, ih]

/-- Writing the `k` low bytes and reading them back gives the value modulo `256 ^ k`. -/
theorem fromBe_toBe (n k : Nat) : fromBe (toBe n k) = n % 256 ^ k := by
  induction k with
  | zero => simp [toBe_zero_right, fromBe_nil, Nat.mod_one]
  | succ k ih =>
    have hbyte : (UInt8.ofNat (n / 256 ^ k % 256)).toNat = n / 256 ^ k % 256 := by simp
    simp only [toBe_succ, fromBe_cons, hbyte, ih, length_toBe]
    rw [pow_succ, Nat.mod_mul, Nat.mul_comm (n / 256 ^ k % 256), Nat.add_comm]

theorem fromBe_toBe_of_lt {n k : Nat} (h : n < 256 ^ k) : fromBe (toBe n k) = n := by
  rw [fromBe_toBe, Nat.mod_eq_of_lt h]

/-- Writing `a + b` bytes is writing the high `a`, then the low `b`. -/
theorem toBe_add (n a b : Nat) : toBe n (a + b) = toBe (n / 256 ^ b) a ++ toBe n b := by
  induction a with
  | zero => rw [Nat.zero_add, toBe_zero_right, List.nil_append]
  | succ a ih =>
    rw [Nat.succ_add, toBe_succ, toBe_succ, ih, Nat.div_div_eq_div_mul, ← pow_add,
      Nat.add_comm b a]
    rfl

theorem toBe_zero (k : Nat) : toBe 0 k = List.replicate k 0 := by
  induction k with
  | zero => rfl
  | succ k ih => simp [toBe_succ, ih, List.replicate_succ]

/-- A value below `256 ^ b` written in `a + b` bytes starts with `a` zero bytes. -/
theorem toBe_of_lt {n : Nat} (a : Nat) {b : Nat} (h : n < 256 ^ b) :
    toBe n (a + b) = List.replicate a 0 ++ toBe n b := by
  rw [toBe_add, Nat.div_eq_of_lt h, toBe_zero]

/-- The bit view of a byte string is the bit view of its big-endian value. -/
theorem bytesBits_eq_msbBits (bs : List UInt8) :
    bytesBits bs = msbBits (8 * bs.length) (fromBe bs) := by
  induction bs with
  | nil => rfl
  | cons b bs ih =>
    have hrest : fromBe bs < 2 ^ (8 * bs.length) := by
      rw [two_pow_eight_mul]; exact fromBe_lt bs
    have hsplit : 8 * (b :: bs).length = 8 + 8 * bs.length := by simp; ring
    rw [hsplit, fromBe_cons, ← two_pow_eight_mul, msbBits_mul_add _ _ _ _ hrest, ← ih]
    rfl

/-- Dropping the `k` last bytes divides the value by `256 ^ k`. -/
theorem fromBe_take (bs : List UInt8) (n : Nat) :
    fromBe (bs.take n) = fromBe bs / 256 ^ (bs.length - n) := by
  have hsplit : fromBe bs = fromBe (bs.drop n) + fromBe (bs.take n) * 256 ^ (bs.length - n) := by
    conv_lhs => rw [← List.take_append_drop n bs]
    rw [fromBe_append, List.length_drop, Nat.add_comm]
  have hrest : fromBe (bs.drop n) < 256 ^ (bs.length - n) := by
    simpa using fromBe_lt (bs.drop n)
  rw [hsplit, Nat.add_mul_div_right _ _ (by positivity), Nat.div_eq_of_lt hrest, Nat.zero_add]

/-- A byte string around a window of `k` bytes at `off`. -/
theorem fromBe_window (bs : List UInt8) {off k : Nat} (h : off + k ≤ bs.length) :
    fromBe bs = (fromBe (bs.take off) * 256 ^ k + fromBe ((bs.drop off).take k)) *
      256 ^ (bs.length - off - k) + fromBe (bs.drop (off + k)) := by
  have hwin : ((bs.drop off).take k).length = k := by simp; omega
  conv_lhs => rw [← List.take_append_drop (off + k) bs, List.take_add]
  rw [fromBe_append, fromBe_append, hwin, List.length_drop, Nat.sub_sub]

/-! ## A 64-bit window

A coder that packs codes into bytes keeps the codes so far in the first `bo` bits of its buffer
and zeros after them. It reads the eight bytes from the one holding bit `bo` as a big-endian
`u64`, ORs the next code in and writes the word back. -/

section Window

variable {out : List UInt8} {A bo : Nat}

/-- What the window and the bytes around it hold when the buffer holds `A` in its first `bo`
bits: the high bytes hold `A` without the bits of its last partial byte, the window starts with
those bits, and the low bytes are zero. -/
theorem fromBe_window_parts (hval : fromBe out = A * 2 ^ (8 * out.length - bo))
    (hroom : bo / 8 + 8 ≤ out.length) :
    fromBe (out.take (bo / 8)) = A / 2 ^ (bo % 8) ∧
    fromBe ((out.drop (bo / 8)).take 8) = A % 2 ^ (bo % 8) * 2 ^ (64 - bo % 8) ∧
    fromBe (out.drop (bo / 8 + 8)) = 0 := by
  obtain ⟨r, hr⟩ : ∃ r, out.length - bo / 8 - 8 = r := ⟨_, rfl⟩
  have hrel : bo % 8 < 8 := Nat.mod_lt _ (by norm_num)
  have hbo : bo = 8 * (bo / 8) + bo % 8 := (Nat.div_add_mod bo 8).symm
  have h64 : (2 : Nat) ^ 64 = 2 ^ (bo % 8) * 2 ^ (64 - bo % 8) := by
    rw [← pow_add]; congr 1; omega
  have h256 : (256 : Nat) ^ 8 = 2 ^ 64 := by norm_num
  have hdec := fromBe_window out hroom
  rw [hr, h256, ← two_pow_eight_mul] at hdec
  have hWlt : fromBe ((out.drop (bo / 8)).take 8) < 2 ^ 64 := by
    have := fromBe_lt ((out.drop (bo / 8)).take 8)
    have hlen : ((out.drop (bo / 8)).take 8).length = 8 := by simp; omega
    rwa [hlen, h256] at this
  have hRlt : fromBe (out.drop (bo / 8 + 8)) < 2 ^ (8 * r) := by
    have := fromBe_lt (out.drop (bo / 8 + 8))
    rwa [List.length_drop, ← two_pow_eight_mul, show out.length - (bo / 8 + 8) = r by omega]
      at this
  generalize fromBe (out.take (bo / 8)) = P at hdec ⊢
  generalize fromBe ((out.drop (bo / 8)).take 8) = W at hdec hWlt ⊢
  generalize fromBe (out.drop (bo / 8 + 8)) = R at hdec hRlt ⊢
  have heq : (P * 2 ^ 64 + W) * 2 ^ (8 * r) + R = A * 2 ^ (64 - bo % 8) * 2 ^ (8 * r) := by
    rw [← hdec, hval, mul_assoc, ← pow_add]; congr 2; omega
  have hR0 : R = 0 := by
    have h : ((P * 2 ^ 64 + W) * 2 ^ (8 * r) + R) % 2 ^ (8 * r) =
        A * 2 ^ (64 - bo % 8) * 2 ^ (8 * r) % 2 ^ (8 * r) := by rw [heq]
    rwa [Nat.add_comm, Nat.add_mul_mod_self_right, Nat.mod_eq_of_lt hRlt, Nat.mul_mod_left] at h
  have hhigh : P * 2 ^ 64 + W = A * 2 ^ (64 - bo % 8) := by
    rw [hR0, Nat.add_zero] at heq
    exact Nat.eq_of_mul_eq_mul_right (by positivity) heq
  refine ⟨?_, ?_, hR0⟩
  · have h : (P * 2 ^ 64 + W) / 2 ^ 64 = A * 2 ^ (64 - bo % 8) / 2 ^ 64 := by rw [hhigh]
    rwa [Nat.add_comm, Nat.add_mul_div_right _ _ (Nat.two_pow_pos 64), Nat.div_eq_of_lt hWlt,
      Nat.zero_add, h64, Nat.mul_div_mul_right _ _ (Nat.two_pow_pos _)] at h
  · have h : (P * 2 ^ 64 + W) % 2 ^ 64 = A * 2 ^ (64 - bo % 8) % 2 ^ 64 := by rw [hhigh]
    rwa [Nat.add_comm, Nat.add_mul_mod_self_right, Nat.mod_eq_of_lt hWlt, h64,
      Nat.mul_mod_mul_right] at h

/-- ORing a code `c` of `L` bits into the window, just after `A`'s bits: the buffer then holds
`A` followed by the code. -/
theorem fromBe_orWindow (hval : fromBe out = A * 2 ^ (8 * out.length - bo))
    (hroom : bo / 8 + 8 ≤ out.length) {c L : Nat} (hc : c < 2 ^ L) (hL : bo % 8 + L ≤ 64) :
    fromBe (out.take (bo / 8) ++
        toBe (fromBe ((out.drop (bo / 8)).take 8) ||| (c <<< (64 - bo % 8 - L)) % 2 ^ 64) 8 ++
        out.drop (bo / 8 + 8)) =
      (A * 2 ^ L + c) * 2 ^ (8 * out.length - (bo + L)) := by
  obtain ⟨hP, hW, hR⟩ := fromBe_window_parts hval hroom
  obtain ⟨s, hs⟩ : ∃ s, 64 - bo % 8 - L = s := ⟨_, rfl⟩
  have hsL : 64 - bo % 8 = s + L := by omega
  have h64 : (2 : Nat) ^ 64 = 2 ^ (bo % 8) * 2 ^ (s + L) := by rw [← pow_add]; congr 1; omega
  rw [hsL] at hW
  have hcode : c <<< s < 2 ^ (s + L) := by
    rw [Nat.shiftLeft_eq, pow_add, Nat.mul_comm]
    exact Nat.mul_lt_mul_of_pos_left hc (Nat.two_pow_pos s)
  have hx : fromBe ((out.drop (bo / 8)).take 8) ||| (c <<< s) % 2 ^ 64 =
      A % 2 ^ (bo % 8) * 2 ^ (s + L) + c * 2 ^ s := by
    have hmod : (c <<< s) % 2 ^ 64 = c <<< s :=
      Nat.mod_eq_of_lt (lt_of_lt_of_le hcode (Nat.pow_le_pow_right (by norm_num) (by omega)))
    rw [hmod, hW, ← Nat.shiftLeft_eq (A % _), ← Nat.shiftLeft_add_eq_or_of_lt hcode,
      Nat.shiftLeft_eq, Nat.shiftLeft_eq]
  have hxlt : A % 2 ^ (bo % 8) * 2 ^ (s + L) + c * 2 ^ s < 256 ^ 8 := by
    have hA : A % 2 ^ (bo % 8) + 1 ≤ 2 ^ (bo % 8) := Nat.mod_lt _ (Nat.two_pow_pos _)
    have hcs : c * 2 ^ s < 2 ^ (s + L) := by rw [← Nat.shiftLeft_eq]; exact hcode
    calc A % 2 ^ (bo % 8) * 2 ^ (s + L) + c * 2 ^ s
        < (A % 2 ^ (bo % 8) + 1) * 2 ^ (s + L) := by rw [Nat.add_mul, Nat.one_mul]; omega
      _ ≤ 2 ^ (bo % 8) * 2 ^ (s + L) := Nat.mul_le_mul_right _ hA
      _ = 256 ^ 8 := by rw [← h64]; norm_num
  have hlow : 256 ^ (out.length - (bo / 8 + 8)) = 2 ^ (8 * (out.length - bo / 8 - 8)) := by
    rw [two_pow_eight_mul, Nat.sub_sub]
  rw [hs, hx, fromBe_append, fromBe_append, fromBe_toBe_of_lt hxlt, hR, hP, length_toBe,
    List.length_drop, hlow, show (256 : Nat) ^ 8 = 2 ^ 64 by norm_num, h64,
    show 8 * out.length - (bo + L) = s + 8 * (out.length - bo / 8 - 8) by omega]
  conv_rhs => rw [← Nat.div_add_mod A (2 ^ (bo % 8))]
  ring

/-- When the codes end on a byte boundary, the buffer cut there holds exactly `A`. -/
theorem fromBe_take_of_aligned (hval : fromBe out = A * 2 ^ (8 * out.length - bo))
    (hroom : bo / 8 ≤ out.length) (hrel : bo % 8 = 0) : fromBe (out.take (bo / 8)) = A := by
  have hexp : 8 * out.length - bo = 8 * (out.length - bo / 8) := by omega
  rw [fromBe_take, hval, hexp, two_pow_eight_mul, Nat.mul_div_cancel _ (by positivity)]

/-- Cutting the buffer after the byte that holds the last code bit and setting that byte's unused
bits to one: the buffer holds `A` followed by ones up to the byte boundary. -/
theorem fromBe_padOnes (hval : fromBe out = A * 2 ^ (8 * out.length - bo))
    (hroom : bo / 8 + 1 ≤ out.length) :
    fromBe ((out.take (bo / 8 + 1)).modify (bo / 8)
        (· ||| UInt8.ofNat ((1 <<< (8 - bo % 8)) - 1))) =
      A * 2 ^ (8 - bo % 8) + (2 ^ (8 - bo % 8) - 1) := by
  have hrel : bo % 8 < 8 := Nat.mod_lt _ (by norm_num)
  have h256 : (256 : Nat) = 2 ^ (bo % 8) * 2 ^ (8 - bo % 8) := by
    rw [← pow_add, Nat.add_sub_cancel' hrel.le]; norm_num
  have hcut : fromBe (out.take (bo / 8 + 1)) = A * 2 ^ (8 - bo % 8) := by
    have hexp : 8 * out.length - bo = (8 - bo % 8) + 8 * (out.length - (bo / 8 + 1)) := by omega
    rw [fromBe_take, hval, hexp, pow_add, ← mul_assoc, two_pow_eight_mul,
      Nat.mul_div_cancel _ (by positivity)]
  obtain ⟨last, hlast⟩ : ∃ last, out[bo / 8]? = some last :=
    ⟨_, List.getElem?_eq_getElem (by omega)⟩
  have hsplit : out.take (bo / 8 + 1) = out.take (bo / 8) ++ [last] := by
    rw [List.take_add_one, hlast]; rfl
  have hlen : (out.take (bo / 8)).length = bo / 8 := by simp; omega
  have hmod : (out.take (bo / 8) ++ [last]).modify (bo / 8)
      (· ||| UInt8.ofNat ((1 <<< (8 - bo % 8)) - 1)) =
      out.take (bo / 8) ++ [last ||| UInt8.ofNat ((1 <<< (8 - bo % 8)) - 1)] := by
    rw [List.modify_eq_set, List.set_append_right _ _ hlen.le]; simp [hlen]
  rw [hsplit] at hcut ⊢
  rw [hmod, fromBe_append]
  rw [fromBe_append] at hcut
  simp only [fromBe_cons, fromBe_nil, List.length_cons, List.length_nil, pow_zero, Nat.zero_add,
    pow_one, Nat.mul_one, Nat.add_zero] at hcut ⊢
  have hlastv : last.toNat = A % 2 ^ (bo % 8) * 2 ^ (8 - bo % 8) := by
    have h : (fromBe (out.take (bo / 8)) * 256 + last.toNat) % 256 =
        A * 2 ^ (8 - bo % 8) % 256 := by rw [hcut]
    rwa [Nat.mul_add_mod', Nat.mod_eq_of_lt last.toNat_lt, h256, Nat.mul_mod_mul_right] at h
  have hmask : 2 ^ (8 - bo % 8) - 1 < 2 ^ (8 - bo % 8) := Nat.sub_lt (Nat.two_pow_pos _) one_pos
  have hor : (last ||| UInt8.ofNat ((1 <<< (8 - bo % 8)) - 1)).toNat =
      last.toNat + (2 ^ (8 - bo % 8) - 1) := by
    have hsmall : 2 ^ (8 - bo % 8) - 1 < 256 := by
      have : 2 ^ (8 - bo % 8) ≤ 2 ^ 8 := Nat.pow_le_pow_right (by norm_num) (by omega)
      omega
    rw [UInt8.toNat_or, Nat.shiftLeft_eq, Nat.one_mul, UInt8.toNat_ofNat',
      show (2 : Nat) ^ 8 = 256 by norm_num, Nat.mod_eq_of_lt hsmall,
      hlastv, ← Nat.shiftLeft_eq, ← Nat.shiftLeft_add_eq_or_of_lt hmask, Nat.shiftLeft_eq]
  omega

end Window

end Dacha.MsbBits
