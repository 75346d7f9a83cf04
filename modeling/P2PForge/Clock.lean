import Mathlib

/-! Go durations and clock readings.
A duration is a 64-bit count of nanoseconds and its arithmetic wraps. A reading of
`time.Now` is ordered by its monotonic part, the nanoseconds since the process
started; readings are never negative, so their difference always fits a duration. -/
namespace P2PForge

theorem toNatClampNeg_of_nonpos {n : Int64} (h : n ≤ 0) : n.toNatClampNeg = 0 := by
  have hle : n.toInt ≤ 0 := by simpa [Int64.le_iff_toInt_le] using h
  exact Int.toNat_of_nonpos hle

theorem toInt_pos {n : Int64} (h : ¬ n ≤ 0) : 0 < n.toInt := by
  simpa using Int64.lt_iff_toInt_lt.mp (Int64.not_le.mp h)

theorem cast_toNatClampNeg {n : Int64} (h : ¬ n ≤ 0) : (n.toNatClampNeg : ℤ) = n.toInt :=
  Int.toNat_of_nonneg (toInt_pos h).le

theorem toInt_add_of_lt {a b : Int64} (hlow : -2^63 ≤ a.toInt + b.toInt)
    (hhigh : a.toInt + b.toInt < 2^63) : (a + b).toInt = a.toInt + b.toInt := by
  rw [Int64.toInt_add]
  apply Int.bmod_eq_of_le <;> norm_num <;> omega

theorem toInt_sub_of_lt {a b : Int64} (hlow : -2^63 ≤ a.toInt - b.toInt)
    (hhigh : a.toInt - b.toInt < 2^63) : (a - b).toInt = a.toInt - b.toInt := by
  rw [Int64.toInt_sub]
  apply Int.bmod_eq_of_le <;> norm_num <;> omega

theorem toInt_mul_of_lt {a b : Int64} (hlow : -2^63 ≤ a.toInt*b.toInt)
    (hhigh : a.toInt*b.toInt < 2^63) : (a*b).toInt = a.toInt*b.toInt := by
  rw [Int64.toInt_mul]
  apply Int.bmod_eq_of_le <;> norm_num <;> omega

/-- A value that is too large by less than the whole range loses that range once. -/
theorem bmod_wrapped {x : ℤ} (hlow : 2^63 ≤ x) (hhigh : x < 2^64 + 2^63) :
    x.bmod (2^64) = x - 2^64 := by
  rw [← Int.sub_bmod_right,Int.bmod_eq_of_le] <;> norm_num <;> omega

theorem toInt_div_of_nonneg {a b : Int64} (ha : 0 ≤ a.toInt) (hb : 0 < b.toInt) :
    (a / b).toInt = a.toInt / b.toInt := by
  have hne : b ≠ -1 := by
    rintro rfl
    exact absurd hb (by decide)
  rw [Int64.toInt_div_of_ne_right a b hne,Int.tdiv_eq_ediv_of_nonneg ha]

abbrev Duration := Int64

namespace Duration

def millisecond : Duration := 1000000
def second : Duration := 1000000000
def minute : Duration := 60000000000
def maxDuration : Duration := 9223372036854775807
def minDuration : Duration := -9223372036854775808

/-- `Duration.Seconds`, read over exact rationals. -/
def seconds (d : Duration) : ℚ := d.toInt / 1000000000

/-- `x+x < y` on the unsigned readings of two nonnegative durations. -/
def lessThanHalf (x y : Duration) : Bool := x.toInt + x.toInt < y.toInt

/-- `Duration.Round`: to the nearest multiple of `m`, halves away from zero. -/
def round (d m : Duration) : Duration :=
  if m ≤ 0 then d
  else
    let r := d % m
    if d < 0 then
      let r := -r
      if lessThanHalf r m then d + r
      else
        let d₁ := d - m + r
        if d₁ < d then d₁ else minDuration
    else if lessThanHalf r m then d - r
    else
      let d₁ := d + m - r
      if d₁ > d then d₁ else maxDuration

theorem toInt_round_millisecond {d : Duration} (hd : 0 ≤ d.toInt)
    (hlt : d.toInt + 1000000 < 2^63) :
    (d.round millisecond).toInt = (d.toInt + 500000) / 1000000*1000000 := by
  have hm : millisecond.toInt = 1000000 := by decide
  have hneg : ¬ d < 0 := by
    rw [Int64.not_lt,Int64.le_iff_toInt_le]
    exact hd
  have hr : (d % millisecond).toInt = d.toInt % 1000000 := by
    rw [Int64.toInt_mod,hm,Int.tmod_eq_emod_of_nonneg hd]
  have hsum : (d + millisecond).toInt = d.toInt + 1000000 := by
    rw [toInt_add_of_lt] <;> omega
  simp only [round,show ¬ millisecond ≤ 0 by decide,if_false,hneg,lessThanHalf,hr,hm,
    decide_eq_true_eq]
  split_ifs with hhalf hgt
  · rw [toInt_sub_of_lt] <;> omega
  · rw [toInt_sub_of_lt] <;> omega
  · -- the rounded duration is greater, so the last branch is not taken
    refine absurd ?_ hgt
    rw [gt_iff_lt,Int64.lt_iff_toInt_lt,toInt_sub_of_lt] <;> omega

end Duration

structure Time where
  ns : ℤ
  nonneg : 0 ≤ ns
  lt : ns < 2^63

namespace Time

theorem ns_injective : Function.Injective Time.ns := by
  rintro ⟨a,_,_⟩ ⟨b,_,_⟩ h
  simpa using h

instance : LinearOrder Time := LinearOrder.lift' Time.ns ns_injective

theorem le_def (t u : Time) : t ≤ u ↔ t.ns ≤ u.ns := Iff.rfl

def start : Time := ⟨0,by norm_num,by norm_num⟩

theorem start_le (t : Time) : start ≤ t := t.nonneg

def sub (t u : Time) : Duration := Int64.ofInt (t.ns - u.ns)

@[simp] theorem toInt_sub (t u : Time) : (t.sub u).toInt = t.ns - u.ns := by
  have ht := t.lt
  have ht₀ := t.nonneg
  have hu := u.lt
  have hu₀ := u.nonneg
  exact Int64.toInt_ofInt_of_le (by omega) (by omega)

/-- `t.Add(d)`: an instant on the monotonic axis, possibly before the process started. -/
def add (t : Time) (d : Duration) : ℤ := t.ns + d.toInt

theorem add_mono {t u : Time} (h : t ≤ u) (d : Duration) : t.add d ≤ u.add d :=
  Int.add_le_add_right h _

def after (t : Time) (u : ℤ) : Bool := u < t.ns

end Time

/-- What the limiters take from outside the repository: the text of a peer identifier, which
is an encoding of it, and the conversion of a float to an integer, which truncates whenever
the truncated value is an `int64` and is left to the platform otherwise. -/
structure Env (PeerID : Type) where
  peerString : PeerID ↪ String
  int64OfFloat : ℚ → Duration
  int64OfFloat_nonneg : ∀ q : ℚ, 0 ≤ q → ⌊q⌋ < 2^63 → (int64OfFloat q).toInt = ⌊q⌋
  int64OfFloat_neg : ∀ q : ℚ, q < 0 → -2^63 ≤ ⌈q⌉ → (int64OfFloat q).toInt = ⌈q⌉

def textEnv : Env String where
  peerString := Function.Embedding.refl String
  int64OfFloat q := Int64.ofInt (if 0 ≤ q then ⌊q⌋ else ⌈q⌉)
  int64OfFloat_nonneg q hq hlt := by
    have hfloor : 0 ≤ ⌊q⌋ := Int.floor_nonneg.mpr hq
    rw [if_pos hq]
    exact Int64.toInt_ofInt_of_le (by omega) hlt
  int64OfFloat_neg q hq hle := by
    have hceil : ⌈q⌉ ≤ 0 := Int.ceil_nonpos.mpr hq.le
    rw [if_neg (not_le.mpr hq)]
    exact Int64.toInt_ofInt_of_le hle (by omega)

end P2PForge
