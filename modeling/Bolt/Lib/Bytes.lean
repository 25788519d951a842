import Bolt.Lib.OrderCode
import Mathlib.Data.Nat.Digits.Defs

/-!
# Bytes of naturals

Fixed-width big-endian and little-endian byte strings of naturals, their values,
and the fact that big-endian bytes are an order code for the naturals they hold.
-/

namespace Bolt.Lib.Bytes

open Std OrderCode List UInt8

variable (l : List UInt8)

/-- The `n` low base-256 digits of `v`, most significant first. -/
def beBytes : ℕ → ℕ → List UInt8
  | 0, _ => []
  | n + 1, v => ofNat (v / 256 ^ n) :: beBytes n v

/-- The `n` low base-256 digits of `v`, least significant first. -/
def leBytes : ℕ → ℕ → List UInt8
  | 0, _ => []
  | n + 1, v => ofNat v :: leBytes n (v / 256)

/-- The natural whose big-endian digits are the given bytes. -/
def beValue (l : List UInt8) : ℕ :=
  l.foldl (fun acc b => acc * 256 + b.toNat) 0

/-- The natural whose little-endian digits are the given bytes. -/
def leValue : List UInt8 → ℕ
  | [] => 0
  | b :: l => b.toNat + 256 * leValue l

@[simp] theorem length_beBytes (n v : ℕ) : (beBytes n v).length = n := by
  induction n with
  | zero => rfl
  | succ n ih => simp [beBytes, ih]

@[simp] theorem length_leBytes (n v : ℕ) : (leBytes n v).length = n := by
  induction n generalizing v with
  | zero => rfl
  | succ n ih => simp [leBytes, ih]

private theorem foldl_beValue (acc : ℕ) :
    l.foldl (fun acc b => acc * 256 + b.toNat) acc = acc * 256 ^ l.length + beValue l := by
  induction l generalizing acc with
  | nil => simp [beValue]
  | cons b l ih =>
    simp only [beValue, foldl_cons, length_cons]
    rw [ih (acc * 256 + b.toNat), ih (0 * 256 + b.toNat)]
    ring

@[simp] theorem beValue_nil : beValue [] = 0 := rfl

theorem beValue_cons (b : UInt8) (l : List UInt8) : beValue (b :: l) = b.toNat * 256 ^ l.length + beValue l := by
  simp only [beValue, foldl_cons]
  rw [foldl_beValue]
  simp [beValue]

theorem beValue_append (l m : List UInt8) : beValue (l ++ m) = beValue l * 256 ^ m.length + beValue m := by
  induction l with
  | nil => simp
  | cons b l ih =>
    rw [cons_append, beValue_cons, beValue_cons, ih, length_append]
    ring

theorem beValue_lt : beValue l < 256 ^ l.length := by
  induction l with
  | nil => simp
  | cons b l ih =>
    have hb : b.toNat + 1 ≤ 256 := b.toNat_lt
    rw [beValue_cons, length_cons, pow_succ]
    have hm : (b.toNat + 1) * 256 ^ l.length ≤ 256 * 256 ^ l.length := Nat.mul_le_mul_right _ hb
    rw [Nat.add_mul] at hm
    omega

private theorem mod_pow_succ (v n : ℕ) : v / 256 ^ n % 256 * 256 ^ n + v % 256 ^ n = v % 256 ^ (n + 1) := by
  rw [pow_succ, Nat.mod_mul]
  ring

theorem beValue_beBytes (n v : ℕ) : beValue (beBytes n v) = v % 256 ^ n := by
  induction n with
  | zero => simp [beBytes, Nat.mod_one]
  | succ n ih =>
    rw [beBytes, beValue_cons, ih, length_beBytes, toNat_ofNat']
    exact mod_pow_succ v n

theorem beValue_inj {l m : List UInt8} (hlen : l.length = m.length) (h : beValue l = beValue m) : l = m := by
  induction l generalizing m with
  | nil => exact (eq_nil_of_length_eq_zero hlen.symm).symm
  | cons b l ih =>
    cases m with
    | nil => cases hlen
    | cons c m =>
      have hlen' : l.length = m.length := Nat.succ.inj hlen
      rw [beValue_cons, beValue_cons, hlen'] at h
      have hl : beValue l < 256 ^ m.length := hlen' ▸ beValue_lt l
      have hm := beValue_lt m
      have hp : 0 < 256 ^ m.length := by positivity
      have hb : b.toNat = c.toNat := by
        have hd := congrArg (· / 256 ^ m.length) h
        simpa [Nat.mul_add_div hp, Nat.mul_comm _ (256 ^ m.length), Nat.div_eq_of_lt hl, Nat.div_eq_of_lt hm] using hd
      have hr : beValue l = beValue m := by
        rw [hb] at h
        exact Nat.add_left_cancel h
      rw [UInt8.toNat_inj.mp hb, ih hlen' hr]

theorem beBytes_beValue : beBytes l.length (beValue l) = l := by
  apply beValue_inj (by simp)
  rw [beValue_beBytes, Nat.mod_eq_of_lt (beValue_lt l)]

theorem beBytes_add (m n v : ℕ) : beBytes (m + n) v = beBytes m (v / 256 ^ n) ++ beBytes n v := by
  induction m with
  | zero => simp [beBytes]
  | succ m ih =>
    rw [Nat.succ_add, beBytes, ih, beBytes, cons_append, Nat.div_div_eq_div_mul, ← pow_add, Nat.add_comm n m]

theorem beBytes_mod (n v : ℕ) : beBytes n (v % 256 ^ n) = beBytes n v := by
  apply beValue_inj (by simp)
  rw [beValue_beBytes, beValue_beBytes, Nat.mod_mod]

theorem beValue_take_drop {l : List UInt8} {first count : ℕ} (h : first + count ≤ l.length) :
    beValue ((l.drop first).take count) = beValue l / 256 ^ (l.length - first - count) % 256 ^ count := by
  have hc : ((l.drop first).take count).length = count := by
    rw [length_take, length_drop]
    omega
  have hr : ((l.drop first).drop count).length = l.length - first - count := by
    rw [length_drop, length_drop]
  have hlt := beValue_lt ((l.drop first).take count)
  have hl := beValue_lt ((l.drop first).drop count)
  have hs : beValue l = (beValue (l.take first) * 256 ^ count + beValue ((l.drop first).take count)) *
      256 ^ (l.length - first - count) + beValue ((l.drop first).drop count) := by
    conv_lhs => rw [← take_append_drop first l, ← take_append_drop count (l.drop first)]
    rw [← append_assoc, beValue_append, beValue_append, hc, hr]
  rw [hr] at hl
  rw [hc] at hlt
  rw [hs, Nat.add_comm, Nat.add_mul_div_right _ _ (Nat.pow_pos (by decide)), Nat.div_eq_of_lt hl,
    Nat.zero_add, Nat.mul_comm, Nat.mul_add_mod, Nat.mod_eq_of_lt hlt]

theorem leBytes_eq_reverse (n v : ℕ) : leBytes n v = (beBytes n v).reverse := by
  induction n generalizing v with
  | zero => rfl
  | succ n ih =>
    rw [leBytes, ih, beBytes_add n 1]
    simp [beBytes]

theorem leValue_eq_beValue : leValue l = beValue l.reverse := by
  induction l with
  | nil => rfl
  | cons b l ih =>
    rw [leValue, reverse_cons, beValue_append, ih, beValue_cons]
    simp
    ring

theorem leValue_leBytes (n v : ℕ) : leValue (leBytes n v) = v % 256 ^ n := by
  rw [leValue_eq_beValue, leBytes_eq_reverse, reverse_reverse, beValue_beBytes]

theorem leBytes_leValue : leBytes l.length (leValue l) = l := by
  rw [leBytes_eq_reverse, leValue_eq_beValue, ← length_reverse, beBytes_beValue, reverse_reverse]

theorem leValue_lt : leValue l < 256 ^ l.length := by
  rw [leValue_eq_beValue, ← length_reverse]
  exact beValue_lt l.reverse

theorem leValue_map_complement : leValue (l.map fun b => ~~~b) = 256 ^ l.length - 1 - leValue l := by
  induction l with
  | nil => rfl
  | cons b l ih =>
    have hl := leValue_lt l
    have hb := b.toNat_lt
    rw [map_cons, leValue, leValue, ih, toNat_not, length_cons, pow_succ]
    simp only [size]
    omega

theorem beBytes_complement {n v : ℕ} (h : v < 256 ^ n) :
    beBytes n (256 ^ n - 1 - v) = (beBytes n v).map fun b => ~~~b := by
  apply beValue_inj (by simp)
  have hv := leValue_map_complement (beBytes n v).reverse
  rw [leValue_eq_beValue, leValue_eq_beValue, map_reverse, reverse_reverse,
    reverse_reverse, length_reverse, length_beBytes, beValue_beBytes, Nat.mod_eq_of_lt h] at hv
  rw [hv, beValue_beBytes, Nat.mod_eq_of_lt (by omega)]

theorem beBytes_eq_map_shiftRight (n v : ℕ) : beBytes n v = (range n).map fun i => ofNat (v >>> ((n - i - 1) * 8)) := by
  induction n with
  | zero => rfl
  | succ n ih =>
    rw [beBytes, ih, range_succ_eq_map, map_cons, map_map, Nat.shiftRight_eq_div_pow]
    congr 1
    · rw [Nat.sub_zero, Nat.add_sub_cancel, Nat.mul_comm, Nat.pow_mul]
    · apply map_congr_left
      intro i _
      rw [Function.comp_apply, Nat.succ_eq_add_one, Nat.add_sub_add_right]

theorem compare_uint8 (x y : UInt8) : compare x y = compare x.toNat y.toNat := by
  simp only [compare, compareOfLessAndEq, UInt8.lt_iff_toNat_lt, ← UInt8.toNat_inj]

/-- Byte strings of one length compare as the naturals they hold. -/
theorem compare_eq_beValue {l m : List UInt8} (hlen : l.length = m.length) :
    compare l m = compare (beValue l) (beValue m) := by
  induction l generalizing m with
  | nil => simp [eq_nil_of_length_eq_zero hlen.symm]
  | cons b l ih =>
    cases m with
    | nil => cases hlen
    | cons c m =>
      have hlen' : l.length = m.length := Nat.succ.inj hlen
      rw [List.compare_cons_cons, ih hlen', compare_uint8, beValue_cons, beValue_cons, hlen']
      have hl : beValue l < 256 ^ m.length := hlen' ▸ beValue_lt l
      have hm := beValue_lt m
      rcases Nat.lt_trichotomy b.toNat c.toNat with hb | hb | hb
      · have hmu : (b.toNat + 1) * 256 ^ m.length ≤ c.toNat * 256 ^ m.length := Nat.mul_le_mul_right _ hb
        rw [Nat.add_mul] at hmu
        have hlt : b.toNat * 256 ^ m.length + beValue l < c.toNat * 256 ^ m.length + beValue m := by omega
        rw [Nat.compare_eq_lt.mpr hb, Nat.compare_eq_lt.mpr hlt, Ordering.lt_then]
      · rw [hb, Nat.compare_eq_eq.mpr rfl, Ordering.eq_then]
        simp only [Nat.compare_eq_ite_lt]
        simp
      · have hmu : (c.toNat + 1) * 256 ^ m.length ≤ b.toNat * 256 ^ m.length := Nat.mul_le_mul_right _ hb
        rw [Nat.add_mul] at hmu
        have hgt : c.toNat * 256 ^ m.length + beValue m < b.toNat * 256 ^ m.length + beValue l := by omega
        rw [Nat.compare_eq_gt.mpr hb, Nat.compare_eq_gt.mpr hgt, Ordering.gt_then]

theorem orderCodeOn_beBytes (n : ℕ) : OrderCodeOn (· < 256 ^ n) (compare : ℕ → ℕ → Ordering) (beBytes n) := by
  intro a b ha hb r s
  have hc : compare (beBytes n a) (beBytes n b) = compare a b := by
    rw [compare_eq_beValue (by simp), beValue_beBytes, beValue_beBytes, Nat.mod_eq_of_lt ha, Nat.mod_eq_of_lt hb]
  rw [← hc]
  exact compare_append (by simp) r s

theorem reversesOrder_complement : ReversesOrder (fun b : UInt8 => ~~~b) := by
  intro x y
  have hx := x.toNat_lt
  have hy := y.toNat_lt
  rw [compare_uint8, compare_uint8, toNat_not, toNat_not]
  simp only [Nat.compare_eq_ite_lt]
  grind

end Bolt.Lib.Bytes
