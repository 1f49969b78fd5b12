import Mathlib.Data.BitVec
import SceLibcPosix.Net.Aton

namespace SceLibcPosix.Net

open Numerals

/-- `s_addr`: the bytes of the address as a word of the target, which is little-endian. -/
def InAddr.sAddr (a : InAddr) : BitVec 32 :=
  BitVec.ofNat 32 (a.d0.toNat + a.d1.toNat * 2 ^ 8 + a.d2.toNat * 2 ^ 16 + a.d3.toNat * 2 ^ 24)

/-- `(struct in_addr){ h }`. -/
def InAddr.ofWord (h : BitVec 32) : InAddr :=
  ⟨UInt8.ofNat h.toNat, UInt8.ofNat (h.toNat / 2 ^ 8), UInt8.ofNat (h.toNat / 2 ^ 16),
    UInt8.ofNat (h.toNat / 2 ^ 24)⟩

/-- `ntohl`, on a little-endian target. -/
def ntohl (x : BitVec 32) : BitVec 32 :=
  let a := InAddr.ofWord x
  InAddr.sAddr ⟨a.d3, a.d2, a.d1, a.d0⟩

/-- `inet_addr`; `a` is what the variable on its stack holds. -/
def inetAddr (p : List Char) (a : InAddr) : BitVec 32 :=
  let (r, a) := inetAton p a
  if r = 0 then -1 else a.sAddr

def inetNetwork (p : List Char) (a : InAddr) : BitVec 32 := ntohl (inetAddr p a)

def inetMakeaddr (n h : BitVec 32) : InAddr :=
  if n < 256 then .ofWord (h ||| n <<< 24)
  else if n < 65536 then .ofWord (h ||| n <<< 16)
  else .ofWord (h ||| n <<< 8)

def inetLnaof (a : InAddr) : BitVec 32 :=
  let h := a.sAddr
  if h >>> 24 < 128 then h &&& 0xffffff
  else if h >>> 24 < 192 then h &&& 0xffff
  else h &&& 0xff

def inetNetof (a : InAddr) : BitVec 32 :=
  let h := a.sAddr
  if h >>> 24 < 128 then h >>> 24
  else if h >>> 24 < 192 then h >>> 16
  else h >>> 8

def InAddr.dotted (a : InAddr) : List Char :=
  ['.'].intercalate (a.bytes.map fun b ↦ numeral 10 b.toNat)

/-- The bytes that are the network's: one, two or three, as the first byte decides. -/
def InAddr.networkBytes (a : InAddr) : ℕ :=
  if a.d0 < 128 then 1 else if a.d0 < 192 then 2 else 3

/-- The number of the class A, B or C network, in host order. -/
def InAddr.network (a : InAddr) : ℕ := a.number / 256 ^ (4 - a.networkBytes)

def InAddr.localPart (a : InAddr) : ℕ := a.number % 256 ^ (4 - a.networkBytes)

/-- The helpers agree with the text of the dotted quad `a`. -/
structure Classful (a : InAddr) : Prop where
  netof : ∀ dest, (inetNetof (inetAton a.dotted dest).2).toNat = a.network
  lnaof : ∀ dest, (inetLnaof (inetAton a.dotted dest).2).toNat = a.localPart
  makeaddr : ∀ dest, inetMakeaddr (inetNetof (inetAton a.dotted dest).2)
    (inetLnaof (inetAton a.dotted dest).2) = (inetAton a.dotted dest).2
  printed : ∀ dest, inetNtoa (inetMakeaddr (inetNetof (inetAton a.dotted dest).2)
    (inetLnaof (inetAton a.dotted dest).2)) = a.dotted

variable {a : InAddr} {h : BitVec 32}

theorem toNat_sAddr (a : InAddr) : a.sAddr.toNat =
    a.d0.toNat + a.d1.toNat * 2 ^ 8 + a.d2.toNat * 2 ^ 16 + a.d3.toNat * 2 ^ 24 := by
  have h0 := a.d0.toNat_lt
  have h1 := a.d1.toNat_lt
  have h2 := a.d2.toNat_lt
  have h3 := a.d3.toNat_lt
  rw [InAddr.sAddr, BitVec.toNat_ofNat, Nat.mod_eq_of_lt (by omega)]

theorem ofWord_sAddr (a : InAddr) : InAddr.ofWord a.sAddr = a := by
  have h0 := a.d0.toNat_lt
  have h1 := a.d1.toNat_lt
  have h2 := a.d2.toNat_lt
  have h3 := a.d3.toNat_lt
  rw [InAddr.ofWord, toNat_sAddr]
  cases a
  simp only [InAddr.mk.injEq] at *
  exact ⟨ofNat_eq (by omega), ofNat_eq (by omega), ofNat_eq (by omega), ofNat_eq (by omega)⟩

theorem join (h : BitVec 32) {k : ℕ} {m : BitVec 32} (hm : m.toNat = 2 ^ k - 1) :
    h &&& m ||| h >>> k <<< k = h := by
  apply BitVec.eq_of_toNat_eq
  have hlt := h.isLt
  have hle : h.toNat / 2 ^ k * 2 ^ k ≤ h.toNat := Nat.div_mul_le_self _ _
  rw [BitVec.toNat_or, BitVec.toNat_and, BitVec.toNat_shiftLeft, BitVec.toNat_ushiftRight, hm,
    Nat.and_two_pow_sub_one_eq_mod, Nat.shiftRight_eq_div_pow, Nat.shiftLeft_eq,
    Nat.mod_eq_of_lt (Nat.lt_of_le_of_lt hle hlt), Nat.or_comm, Nat.mul_comm,
    ← Nat.two_pow_add_eq_or_of_lt (Nat.mod_lt _ (by positivity))]
  exact Nat.div_add_mod _ _

/-- The bits of the local part in `s_addr`: the first bytes of the word decide, not of the text. -/
def InAddr.localBits (a : InAddr) : ℕ :=
  if a.d3.toNat < 128 then 24 else if a.d3.toNat < 192 then 16 else 8

theorem high_lt (a : InAddr) {n : BitVec 32} : a.sAddr >>> 24 < n ↔ a.d3.toNat < n.toNat := by
  have h0 := a.d0.toNat_lt
  have h1 := a.d1.toNat_lt
  have h2 := a.d2.toNat_lt
  rw [BitVec.lt_def, BitVec.toNat_ushiftRight, Nat.shiftRight_eq_div_pow, toNat_sAddr]
  omega

theorem branch_cases (a : InAddr) :
    a.sAddr >>> 24 < 128 ∧ a.localBits = 24 ∧ a.d3.toNat < 128 ∨
    ¬ a.sAddr >>> 24 < 128 ∧ a.sAddr >>> 24 < 192 ∧ a.localBits = 16 ∧
      128 ≤ a.d3.toNat ∧ a.d3.toNat < 192 ∨
    ¬ a.sAddr >>> 24 < 128 ∧ ¬ a.sAddr >>> 24 < 192 ∧ a.localBits = 8 ∧ 192 ≤ a.d3.toNat := by
  have h128 : a.sAddr >>> 24 < 128 ↔ a.d3.toNat < 128 := high_lt a
  have h192 : a.sAddr >>> 24 < 192 ↔ a.d3.toNat < 192 := high_lt a
  rw [h128, h192, InAddr.localBits]
  split
  · next h => exact .inl ⟨h, rfl, h⟩
  · next h =>
    split
    · next h' => exact .inr (.inl ⟨h, h', rfl, Nat.le_of_not_lt h, h'⟩)
    · next h' => exact .inr (.inr ⟨h, h', rfl, Nat.le_of_not_lt h'⟩)

theorem inetNetof_eq (a : InAddr) : inetNetof a = a.sAddr >>> a.localBits := by
  unfold inetNetof
  obtain ⟨hA, hbits, -⟩ | ⟨hA, hB, hbits, -⟩ | ⟨hA, hB, hbits, -⟩ := branch_cases a
  · simp only [if_pos hA, hbits]
  · simp only [if_neg hA, if_pos hB, hbits]
  · simp only [if_neg hA, if_neg hB, hbits]

theorem inetLnaof_eq (a : InAddr) :
    inetLnaof a = a.sAddr &&& BitVec.ofNat 32 (2 ^ a.localBits - 1) := by
  unfold inetLnaof
  obtain ⟨hA, hbits, -⟩ | ⟨hA, hB, hbits, -⟩ | ⟨hA, hB, hbits, -⟩ := branch_cases a
  · simp only [if_pos hA, hbits]
    rfl
  · simp only [if_neg hA, if_pos hB, hbits]
    rfl
  · simp only [if_neg hA, if_neg hB, hbits]
    rfl

theorem toNat_inetNetof (a : InAddr) :
    (inetNetof a).toNat = a.sAddr.toNat / 2 ^ a.localBits := by
  rw [inetNetof_eq, BitVec.toNat_ushiftRight, Nat.shiftRight_eq_div_pow]

theorem toNat_mask (a : InAddr) :
    (BitVec.ofNat 32 (2 ^ a.localBits - 1)).toNat = 2 ^ a.localBits - 1 := by
  obtain ⟨-, hbits, -⟩ | ⟨-, -, hbits, -⟩ | ⟨-, -, hbits, -⟩ := branch_cases a
  all_goals
    rw [hbits]
    rfl

theorem toNat_inetLnaof (a : InAddr) :
    (inetLnaof a).toNat = a.sAddr.toNat % 2 ^ a.localBits := by
  rw [inetLnaof_eq, BitVec.toNat_and, toNat_mask, Nat.and_two_pow_sub_one_eq_mod]

theorem inetMakeaddr_inetNetof (a : InAddr) (h : BitVec 32) :
    inetMakeaddr (inetNetof a) h = .ofWord (h ||| inetNetof a <<< a.localBits) := by
  have hnet := toNat_inetNetof a
  have hword := toNat_sAddr a
  have h0 := a.d0.toNat_lt
  have h1 := a.d1.toNat_lt
  have h2 := a.d2.toNat_lt
  have h3 := a.d3.toNat_lt
  have hA : inetNetof a < 256 ↔ (inetNetof a).toNat < 256 := BitVec.lt_def
  have hB : inetNetof a < 65536 ↔ (inetNetof a).toNat < 65536 := BitVec.lt_def
  unfold inetMakeaddr
  obtain ⟨-, hbits, hd⟩ | ⟨-, -, hbits, hd⟩ | ⟨-, -, hbits, hd⟩ := branch_cases a
  · rw [hbits] at hnet ⊢
    rw [if_pos (hA.mpr (by omega))]
  · rw [hbits] at hnet ⊢
    rw [if_neg (mt hA.mp (by omega)), if_pos (hB.mpr (by omega))]
  · rw [hbits] at hnet ⊢
    rw [if_neg (mt hA.mp (by omega)), if_neg (mt hB.mp (by omega))]

theorem inetMakeaddr_of (a : InAddr) : inetMakeaddr (inetNetof a) (inetLnaof a) = a := by
  rw [inetMakeaddr_inetNetof, inetNetof_eq, inetLnaof_eq, join _ (toNat_mask a), ofWord_sAddr]

theorem inetAton_dotted (a dest : InAddr) : inetAton a.dotted dest = (1, a) := by
  rw [InAddr.dotted, ← inetNtoa_eq, inetAton_accepts (numbersAndDots_inetNtoa a),
    networkOrder_number]

/-- The parser converts where the helpers do not: `inet_network` has the host order. -/
theorem inetNetwork_dotted (a dest : InAddr) :
    (inetNetwork a.dotted dest).toNat = a.number := by
  rw [inetNetwork, inetAddr, inetAton_dotted]
  simp only [one_ne_zero, if_false, ntohl, ofWord_sAddr, toNat_sAddr, InAddr.number]
  omega

theorem netof_cases (a : InAddr) :
    a.d3.toNat < 128 ∧ (inetNetof a).toNat = a.d3.toNat ∧
      (inetLnaof a).toNat = a.d0.toNat + a.d1.toNat * 2 ^ 8 + a.d2.toNat * 2 ^ 16 ∨
    128 ≤ a.d3.toNat ∧ a.d3.toNat < 192 ∧
      (inetNetof a).toNat = a.d2.toNat + a.d3.toNat * 2 ^ 8 ∧
      (inetLnaof a).toNat = a.d0.toNat + a.d1.toNat * 2 ^ 8 ∨
    192 ≤ a.d3.toNat ∧
      (inetNetof a).toNat = a.d1.toNat + a.d2.toNat * 2 ^ 8 + a.d3.toNat * 2 ^ 16 ∧
      (inetLnaof a).toNat = a.d0.toNat := by
  have h0 := a.d0.toNat_lt
  have h1 := a.d1.toNat_lt
  have h2 := a.d2.toNat_lt
  rw [toNat_inetNetof, toNat_inetLnaof, toNat_sAddr]
  obtain ⟨-, hbits, hd⟩ | ⟨-, -, hbits, hd, hd'⟩ | ⟨-, -, hbits, hd⟩ := branch_cases a
  · rw [hbits]
    exact .inl ⟨hd, by omega, by omega⟩
  · rw [hbits]
    exact .inr (.inl ⟨hd, hd', by omega, by omega⟩)
  · rw [hbits]
    exact .inr (.inr ⟨hd, by omega, by omega⟩)

theorem network_cases (a : InAddr) :
    a.d0.toNat < 128 ∧ a.network = a.d0.toNat ∧
      a.localPart = a.d1.toNat * 2 ^ 16 + a.d2.toNat * 2 ^ 8 + a.d3.toNat ∨
    128 ≤ a.d0.toNat ∧ a.d0.toNat < 192 ∧ a.network = a.d0.toNat * 2 ^ 8 + a.d1.toNat ∧
      a.localPart = a.d2.toNat * 2 ^ 8 + a.d3.toNat ∨
    192 ≤ a.d0.toNat ∧
      a.network = a.d0.toNat * 2 ^ 16 + a.d1.toNat * 2 ^ 8 + a.d2.toNat ∧
      a.localPart = a.d3.toNat := by
  have h1 := a.d1.toNat_lt
  have h2 := a.d2.toNat_lt
  have h3 := a.d3.toNat_lt
  have h128 : a.d0 < 128 ↔ a.d0.toNat < 128 := UInt8.lt_iff_toNat_lt
  have h192 : a.d0 < 192 ↔ a.d0.toNat < 192 := UInt8.lt_iff_toNat_lt
  unfold InAddr.network InAddr.localPart InAddr.networkBytes InAddr.number
  split
  · next h =>
    rw [show 256 ^ (4 - 1) = 16777216 by norm_num]
    exact .inl ⟨h128.mp h, by omega, by omega⟩
  · next h =>
    have hle := Nat.le_of_not_lt (mt h128.mpr h)
    split
    · next h =>
      rw [show 256 ^ (4 - 2) = 65536 by norm_num]
      exact .inr (.inl ⟨hle, h192.mp h, by omega, by omega⟩)
    · next h =>
      rw [show 256 ^ (4 - 3) = 256 by norm_num]
      exact .inr (.inr ⟨Nat.le_of_not_lt (mt h192.mpr h), by omega, by omega⟩)

theorem ends_of_netof (h : (inetNetof a).toNat = a.network) : a.d0.toNat = a.d3.toNat := by
  have h1 := a.d1.toNat_lt
  have h2 := a.d2.toNat_lt
  have h3 := a.d3.toNat_lt
  obtain ⟨hd, hnet, -⟩ | ⟨hd, hd', hnet, -⟩ | ⟨hd, hnet, -⟩ := netof_cases a
  all_goals
    obtain ⟨hn, hnet', -⟩ | ⟨hn, hn', hnet', -⟩ | ⟨hn, hnet', -⟩ := network_cases a
    all_goals
      rw [hnet, hnet'] at h
      omega

theorem netof_lnaof_iff (a : InAddr) :
    (inetNetof a).toNat = a.network ∧ (inetLnaof a).toNat = a.localPart ↔
      a.d0 = a.d3 ∧ a.d1 = a.d2 := by
  have h1 := a.d1.toNat_lt
  have h2 := a.d2.toNat_lt
  rw [← UInt8.toNat_inj, ← UInt8.toNat_inj]
  constructor
  · intro ⟨hnet, hlocal⟩
    have hends := ends_of_netof hnet
    refine ⟨hends, ?_⟩
    obtain ⟨hd, hn, hl⟩ | ⟨hd, hd', hn, hl⟩ | ⟨hd, hn, hl⟩ := netof_cases a
    all_goals
      obtain ⟨he, hn', hl'⟩ | ⟨he, he', hn', hl'⟩ | ⟨he, hn', hl'⟩ := network_cases a
      all_goals omega
  · intro ⟨hends, hmid⟩
    obtain ⟨hd, hn, hl⟩ | ⟨hd, hd', hn, hl⟩ | ⟨hd, hn, hl⟩ := netof_cases a
    all_goals
      obtain ⟨he, hn', hl'⟩ | ⟨he, he', hn', hl'⟩ | ⟨he, hn', hl'⟩ := network_cases a
      all_goals omega

/-- The helpers see the classes in the bytes from the other end: they agree with the text where
the quad reads the same from both ends. -/
theorem classful_iff (a : InAddr) : Classful a ↔ a.d0 = a.d3 ∧ a.d1 = a.d2 := by
  rw [← netof_lnaof_iff]
  constructor
  · intro h
    have hnet := h.netof a
    have hlocal := h.lnaof a
    rw [inetAton_dotted] at hnet hlocal
    exact ⟨hnet, hlocal⟩
  · intro ⟨hnet, hlocal⟩
    refine
      { netof := fun dest ↦ by rw [inetAton_dotted, hnet]
        lnaof := fun dest ↦ by rw [inetAton_dotted, hlocal]
        makeaddr := fun dest ↦ by rw [inetAton_dotted, inetMakeaddr_of]
        printed := fun dest ↦ by
          rw [inetAton_dotted, inetMakeaddr_of, inetNtoa_eq]
          rfl }

/-- 10.0.0.1 is taken for host 10 of network 1. -/
theorem classful_swapped : ¬ ∀ a, Classful a := by
  intro h
  have hnet := (h ⟨10, 0, 0, 1⟩).netof ⟨0, 0, 0, 0⟩
  rw [inetAton_dotted] at hnet
  exact absurd hnet (by decide)

end SceLibcPosix.Net
