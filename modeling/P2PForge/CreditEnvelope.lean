import Mathlib

/-! Credit under a capped linear refill, as a function of past spending.
A history lists spendings `(time,amount)` with the newest first. The credit at a time is
the cap before any spending, and otherwise what the newest spending left, refilled since
and cut at the cap. `le_envelope_iff` unfolds that recursion into one linear bound for
every past spending; the remaining results read the bound over intervals. -/
set_option linter.unusedSectionVars false
namespace P2PForge.CreditEnvelope

variable {K : Type} [Field K] [LinearOrder K] [IsStrictOrderedRing K]

def refill (cap rate x d : K) : K := min cap (x + d*rate)

/-- A refill may be split at any intermediate time: cutting early loses nothing. -/
theorem refill_refill {cap rate : K} (x d e : K) (hr : 0 ≤ rate) (he : 0 ≤ e) :
    refill cap rate (refill cap rate x d) e = refill cap rate x (d+e) := by
  have hpos : 0 ≤ e*rate := mul_nonneg he hr
  simp only [refill,min_add]
  rw [← min_assoc,min_eq_left (by linarith : cap ≤ cap + e*rate)]
  congr 1
  ring

theorem refill_full {cap rate x d : K} (h : cap ≤ x + d*rate) : refill cap rate x d = cap :=
  min_eq_left h

theorem refill_full_later {cap rate x d e : K} (hr : 0 ≤ rate) (h : cap ≤ x + d*rate)
    (hde : d ≤ e) : refill cap rate x e = cap := by
  have hmul : d*rate ≤ e*rate := mul_le_mul_of_nonneg_right hde hr
  exact refill_full (by linarith)

def envelope (cap rate : K) : List (K × K) → K → K
  | [], _ => cap
  | (s,c)::h, t => refill cap rate (envelope cap rate h s - c) (t-s)

variable {cap rate : K}

def total (h : List (K × K)) : K := (h.map Prod.snd).sum

@[simp] theorem total_nil : total ([] : List (K × K)) = 0 := rfl
@[simp] theorem total_cons (x : K × K) (h : List (K × K)) : total (x::h) = x.2 + total h := by
  simp [total]
@[simp] theorem total_append (h g : List (K × K)) : total (h++g) = total h + total g := by
  simp [total]
@[simp] theorem total_reverse (h : List (K × K)) : total h.reverse = total h := by
  simp [total,List.sum_reverse]

/-- The credit covers `x` exactly when `x` fits the cap and, for every past spending, `x` and
all that was spent since fit the cap plus the refill since. -/
theorem le_envelope_iff (x : K) (h : List (K × K)) (t : K) :
    x ≤ envelope cap rate h t ↔
      x ≤ cap ∧ ∀ g s c, g ++ [(s,c)] <+: h → x + total g + c ≤ cap + (t-s)*rate := by
  induction h generalizing x t with
  | nil => simp [envelope]
  | cons y h ih =>
    obtain ⟨s₀,c₀⟩ := y
    have hstep : x ≤ envelope cap rate h s₀ - c₀ + (t-s₀)*rate ↔
        x + c₀ - (t-s₀)*rate ≤ envelope cap rate h s₀ := by
      constructor <;> intro hx <;> linarith
    simp only [envelope,refill,le_min_iff,hstep,ih]
    refine and_congr_right fun _ => ⟨?_,?_⟩
    · rintro ⟨hhead,htail⟩ g s c hg
      cases g with
      | nil =>
        simp only [List.nil_append,List.cons_prefix_cons,List.nil_prefix,and_true,
          Prod.mk.injEq] at hg
        obtain ⟨rfl,rfl⟩ := hg
        simp only [total_nil]
        linarith
      | cons z g =>
        simp only [List.cons_append,List.cons_prefix_cons] at hg
        obtain ⟨rfl,hg⟩ := hg
        have hh := htail g s c hg
        simp only [total_cons]
        linarith
    · intro hall
      refine ⟨?_,fun g s c hg => ?_⟩
      · have hh := hall [] s₀ c₀ (by simp)
        simp only [total_nil] at hh
        linarith
      · have hh := hall ((s₀,c₀)::g) s c (by simpa using hg)
        simp only [total_cons] at hh
        linarith

theorem le_envelope_reverse_iff {ι : Type} (f : ι → K × K) (x t : K) (xs : List ι) :
    x ≤ envelope cap rate (xs.map f).reverse t ↔
      x ≤ cap ∧ ∀ y later, y::later <:+ xs →
        x + (f y).2 + total (later.map f) ≤ cap + (t-(f y).1)*rate := by
  rw [le_envelope_iff]
  refine and_congr_right fun _ => ⟨fun h y later hs => ?_,fun h g s c hg => ?_⟩
  · have hpre : (later.map f).reverse ++ [((f y).1,(f y).2)] <+: (xs.map f).reverse := by
      simpa using List.reverse_prefix.mpr (hs.map f)
    have hh := h _ _ _ hpre
    rw [total_reverse] at hh
    linarith
  · have hs : (s,c)::g.reverse <:+ xs.map f := by
      simpa using List.reverse_prefix.mp (by simpa using hg :
        ((s,c)::g.reverse).reverse <+: (xs.map f).reverse)
    obtain ⟨before,hbefore⟩ := hs
    obtain ⟨ys,zs,rfl,-,hzs⟩ := List.append_eq_map_iff.mp hbefore
    obtain ⟨y,later,rfl,hy,hlater⟩ := List.map_eq_cons_iff.mp hzs
    have hh := h y later (List.suffix_append ys _)
    rw [hy,hlater,total_reverse] at hh
    simp only at hh
    linarith

/-- Every spending of the history was covered when it was made. -/
def Covered (cap rate : K) : List (K × K) → Prop
  | [] => True
  | (s,c)::h => c ≤ envelope cap rate h s ∧ Covered cap rate h

def Descending (h : List (K × K)) : Prop := h.Pairwise fun x y => y.1 ≤ x.1

theorem envelope_nonneg (hcap : 0 ≤ cap) (hr : 0 ≤ rate) {h : List (K × K)} {t : K}
    (hc : Covered cap rate h) (hd : Descending h) (ht : ∀ y ∈ h, y.1 ≤ t) :
    0 ≤ envelope cap rate h t := by
  cases h with
  | nil => exact hcap
  | cons y h =>
    have hcov : y.2 ≤ envelope cap rate h y.1 := hc.1
    have hpos : 0 ≤ (t-y.1)*rate := mul_nonneg (by linarith [ht y (by simp)]) hr
    exact le_min hcap (by linarith)

theorem filter_prefix_of_descending (a : K) {h : List (K × K)} (hd : Descending h) :
    h.filter (fun y => a ≤ y.1) <+: h := by
  induction h with
  | nil => simp
  | cons y h ih =>
    obtain ⟨hy,hh⟩ := List.pairwise_cons.mp hd
    by_cases ha : a ≤ y.1
    · rw [List.filter_cons_of_pos (by simpa using ha)]
      exact (List.prefix_cons_inj y).mpr (ih hh)
    · have hnil : h.filter (fun y => a ≤ y.1) = [] := by
        rw [List.filter_eq_nil_iff]
        intro z hz hza
        exact ha ((of_decide_eq_true hza).trans (hy z hz))
      rw [List.filter_cons_of_neg (by simpa using ha),hnil]
      exact List.nil_prefix

/-- What was spent in a closed interval never exceeds the cap plus the refill of the interval. -/
theorem total_interval_le (hcap : 0 ≤ cap) (hr : 0 ≤ rate) {a b : K} (hab : a ≤ b)
    {h : List (K × K)} (hd : Descending h) (hc : Covered cap rate h) :
    total (h.filter fun y => a ≤ y.1 ∧ y.1 ≤ b) ≤ cap + (b-a)*rate := by
  have hpos : 0 ≤ (b-a)*rate := mul_nonneg (by linarith) hr
  induction h with
  | nil => simpa using (by linarith : (0:K) ≤ cap + (b-a)*rate)
  | cons y h ih =>
    obtain ⟨s,c⟩ := y
    obtain ⟨hle,htail⟩ := List.pairwise_cons.mp hd
    by_cases hin : a ≤ s ∧ s ≤ b
    · -- the newest spending of the interval was covered, which bounds all of the interval
      have hold : h.filter (fun y => a ≤ y.1 ∧ y.1 ≤ b) = h.filter fun y => a ≤ y.1 := by
        apply List.filter_congr
        intro z hz
        have hzb : z.1 ≤ b := (hle z hz).trans hin.2
        simp [hzb]
      rw [List.filter_cons_of_pos (by simpa using hin),hold,total_cons]
      obtain ⟨hcap',hpast⟩ := (le_envelope_iff c h s).mp hc.1
      rcases List.eq_nil_or_concat (h.filter fun y => a ≤ y.1) with hnil | ⟨g,⟨u,d⟩,hg⟩
      · rw [hnil,total_nil]
        linarith
      · rw [List.concat_eq_append] at hg
        have hu : a ≤ u := by
          have hmem : (u,d) ∈ h.filter fun y => a ≤ y.1 := by simp [hg]
          simpa using (List.mem_filter.mp hmem).2
        have hh := hpast g u d (hg ▸ filter_prefix_of_descending a htail)
        have hmul : (s-u)*rate ≤ (b-a)*rate :=
          mul_le_mul_of_nonneg_right (by linarith [hin.2]) hr
        rw [hg]
        simp only [total_append,total_cons,total_nil]
        linarith
    · rw [List.filter_cons_of_neg (by simpa using hin)]
      exact ih htail hc.2

/-- Demand that fits the cap, and fits the cap plus the refill over every stretch of time. -/
def Within (cap rate : K) (xs : List (K × K)) : Prop :=
  (∀ x ∈ xs, x.2 ≤ cap) ∧
  ∀ s c g t d, (s,c) :: (g ++ [(t,d)]) <:+: xs → c + total g + d ≤ cap + (t-s)*rate

theorem Within.of_map {ι : Type} {f : ι → K × K} {xs : List ι} (hcap : ∀ x ∈ xs, (f x).2 ≤ cap)
    (hspan : ∀ x g y, x :: (g ++ [y]) <:+: xs →
      (f x).2 + total (g.map f) + (f y).2 ≤ cap + ((f y).1-(f x).1)*rate) :
    Within cap rate (xs.map f) := by
  refine ⟨by simpa using hcap,fun s c g t d ⟨before,after,hsplit⟩ => ?_⟩
  obtain ⟨ys,zs,rfl,hys,-⟩ := List.append_eq_map_iff.mp hsplit
  obtain ⟨us,vs,rfl,-,hvs⟩ := List.append_eq_map_iff.mp hys.symm
  obtain ⟨x,ws,rfl,hx,hws⟩ := List.map_eq_cons_iff.mp hvs
  obtain ⟨g',ts,rfl,hg,hts⟩ := List.append_eq_map_iff.mp hws.symm
  obtain ⟨y,rfl,hy⟩ := List.map_eq_singleton_iff.mp hts
  have hh := hspan x g' y ⟨us,zs,rfl⟩
  rw [hx,hg,hy] at hh
  exact hh

theorem Within.le_envelope {xs : List (K × K)} {t d : K} (h : Within cap rate (xs ++ [(t,d)])) :
    d ≤ envelope cap rate xs.reverse t := by
  rw [le_envelope_iff]
  refine ⟨h.1 (t,d) (by simp),fun g s c hg => ?_⟩
  have hsuff : (s,c) :: g.reverse <:+ xs := by
    simpa using List.reverse_prefix.mp (by simpa using hg :
      ((s,c) :: g.reverse).reverse <+: xs.reverse)
  obtain ⟨ys,rfl⟩ := hsuff
  have hh := h.2 s c g.reverse t d ⟨ys,[],by simp⟩
  rw [total_reverse] at hh
  linarith

theorem Within.of_append {xs ys : List (K × K)} (h : Within cap rate (xs++ys)) :
    Within cap rate xs :=
  ⟨fun x hx => h.1 x (by simp [hx]),
    fun s c g t d hi => h.2 s c g t d (hi.trans (List.prefix_append xs ys).isInfix)⟩

end P2PForge.CreditEnvelope
