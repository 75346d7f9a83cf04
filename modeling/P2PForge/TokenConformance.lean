import P2PForge.TokenReference

/-! Conformance of the token bucket to its envelope, in both directions.
The tokens a peer has left are a function of its admitted calls alone: the credit envelope
of the history of spendings. A call is therefore admitted exactly when it fits the capacity
and, counted from every earlier admitted call, the capacity plus the refill since. -/
namespace P2PForge

open KeyedSweep CreditEnvelope

namespace TokenBucket

variable {PeerID : Type} (env : Env PeerID)

def secondsAt (t : Time) : ℚ := t.ns / 1000000000

theorem seconds_sub_eq (t u : Time) : (t.sub u).seconds = secondsAt t - secondsAt u := by
  rw [seconds_sub]
  simp only [secondsAt]
  ring

theorem secondsAt_mono {t u : Time} (h : t ≤ u) : secondsAt t ≤ secondsAt u := by
  have hle : (t.ns : ℚ) ≤ u.ns := by exact_mod_cast h
  exact div_le_div_of_nonneg_right hle (by norm_num)

theorem cast_cost {n : Int64} (hn : ¬ n ≤ 0) : ((n.toNatClampNeg : ℕ) : ℚ) = n.toInt := by
  exact_mod_cast congrArg (Int.cast : ℤ → ℚ) (cast_toNatClampNeg hn)

def spending (n : Int64) (now : Time) : ℚ × ℚ := (secondsAt now,(n.toNatClampNeg : ℚ))

def spender (b : TokenBucket) : Single (List (ℚ × ℚ)) Int64 (Bool × Duration) Time where
  call h n now :=
    let r := (b.charge env (envelope b.burst b.refillPerSec h (secondsAt now)) n now).2
    (if r.1 then spending n now :: h else h,r)

/-- From clock reading `c` on, an entry holds the credit of a history. -/
def HoldsCredit (b : TokenBucket) (c : Time) (e : Option TokenState) (h : List (ℚ × ℚ)) : Prop :=
  ∀ t, c ≤ t → b.level e t = envelope b.burst b.refillPerSec h (secondsAt t)

section Spender

variable {b : TokenBucket}

theorem charge_cases (hlim : b.unlimited = false) (x : ℚ) (n : Int64) (now : Time) :
    (n ≤ 0 ∧ b.charge env x n now = (none,true,0)) ∨
    (¬ n ≤ 0 ∧ b.burst < n.toInt ∧ b.charge env x n now = (none,false,0)) ∨
    (¬ n ≤ 0 ∧ n.toInt ≤ b.burst ∧ x < n.toInt ∧ b.charge env x n now =
      (some ⟨x,now⟩,false,refillWait env (n.toInt - x) b.refillPerSec)) ∨
    (¬ n ≤ 0 ∧ n.toInt ≤ b.burst ∧ n.toInt ≤ x ∧ b.charge env x n now =
      (some ⟨x - n.toInt,now⟩,true,0)) := by
  simp only [charge,hlim,Bool.false_or,decide_eq_true_eq]
  by_cases hn : n ≤ 0
  · simp [hn]
  · by_cases hb : (n.toInt : ℚ) > b.burst
    · simp [hn,hb]
    · by_cases hx : x < n.toInt
      · simp [hn,hb,hx,not_lt.mp hb]
      · simp [hn,hb,hx,not_lt.mp hb,not_lt.mp hx]

theorem entry_simulates_spender (hlim : b.unlimited = false) (hr : 0 ≤ b.refillPerSec) :
    Simulates (b.entry env) (b.spender env) (fun _ _ _ => True) b.HoldsCredit where
  later _ _ _ _ h hcd t ht := h t (hcd.trans ht)
  call_result c e h n now hrel hc _ := by simp only [entry,spender,hrel now hc]
  call_rel c e h n now hrel hc _ t ht := by
    have hnow := hrel now hc
    have hlater := refill_level hr e ht
    simp only [entry,spender,← hnow]
    rcases charge_cases env hlim (b.level e now) n now with
      ⟨hn,hch⟩ | ⟨hn,_,hch⟩ | ⟨hn,_,_,hch⟩ | ⟨hn,_,_,hch⟩
    · -- a call for nothing leaves the entry alone and adds a spending of nothing
      simp only [hch,if_true,Option.none_or,spending,envelope,← hnow,
        toNatClampNeg_of_nonpos hn,Nat.cast_zero,sub_zero,← seconds_sub_eq]
      exact hlater.symm
    · simpa only [hch,Option.none_or,if_false,Bool.false_eq_true] using hrel t (hc.trans ht)
    · -- a rejected call refills the entry early, which changes no later level
      simp only [hch,Option.some_or,if_false,Bool.false_eq_true]
      rw [level_touched hr e ht]
      exact hrel t (hc.trans ht)
    · simp only [hch,Option.some_or,if_true,spending,envelope,← hnow,cast_cost hn,← seconds_sub_eq]
      rfl
  sweep_rel c st h t hrel htc u hu := by
    have hstay := hrel u hu
    rcases b.evictEntry_eq t st with hev | hev
    · rw [← hstay,level_evicted hr hev (htc.trans hu)]
      simp only [entry,hev,level]
    · simp only [entry,hev]
      exact hstay

theorem charge_admits_iff (hlim : b.unlimited = false) (x : ℚ) {n : Int64} (hn : 0 < n)
    (now : Time) : (b.charge env x n now).2.1 = true ↔ n.toInt ≤ b.burst ∧ n.toInt ≤ x := by
  rcases charge_cases env hlim x n now with ⟨h,_⟩ | ⟨_,hb,hch⟩ | ⟨_,_,hx,hch⟩ | ⟨_,hb,hx,hch⟩
  · exact absurd h (Int64.not_le.mpr hn)
  · simp [hch,hb]
  · simp [hch,hx]
  · simp [hch,hb,hx]

theorem spender_admitted {h : List (ℚ × ℚ)} {n : Int64} {now : Time}
    (hres : (b.charge env (envelope b.burst b.refillPerSec h (secondsAt now)) n now).2.1 = true) :
    ((b.spender env).call h n now).1 = spending n now :: h := by
  simp only [spender,if_pos hres]

theorem spender_final (xs : List (Int64 × Time)) (h : List (ℚ × ℚ)) :
    (b.spender env).final h xs =
      (((xs.zip ((b.spender env).results h xs)).filter (·.2.1)).map
        fun x => spending x.1.1 x.1.2).reverse ++ h := by
  induction xs generalizing h with
  | nil => simp [Single.final,Single.results]
  | cons x xs ih =>
    obtain ⟨n,now⟩ := x
    simp only [Single.final,Single.results,List.zip_cons_cons,ih]
    simp only [spender]
    split_ifs with hr <;> simp [hr]

/-- Every history the spender reaches is in order of time and was covered when it was spent. -/
structure Sound (b : TokenBucket) (c : Time) (h : List (ℚ × ℚ)) : Prop where
  past : ∀ y ∈ h, y.1 ≤ secondsAt c
  descending : Descending h
  covered : Covered b.burst b.refillPerSec h

theorem Sound.call (hlim : b.unlimited = false) (hb : 0 ≤ b.burst) (hr : 0 ≤ b.refillPerSec)
    {c : Time} {h : List (ℚ × ℚ)} (hs : b.Sound c h) {now : Time} (hc : c ≤ now) (n : Int64) :
    b.Sound now ((b.spender env).call h n now).1 := by
  have hpast : ∀ y ∈ h, y.1 ≤ secondsAt now := fun y hy => (hs.past y hy).trans (secondsAt_mono hc)
  simp only [spender]
  split_ifs with hres
  · have hcov : ((n.toNatClampNeg : ℕ) : ℚ) ≤
        envelope b.burst b.refillPerSec h (secondsAt now) := by
      by_cases hn : n ≤ 0
      · rw [toNatClampNeg_of_nonpos hn,Nat.cast_zero]
        exact envelope_nonneg hb hr hs.covered hs.descending hpast
      · rw [cast_cost hn]
        exact ((charge_admits_iff env hlim _ (Int64.not_le.mp hn) now).mp hres).2
    refine ⟨?_,List.pairwise_cons.mpr ⟨hpast,hs.descending⟩,hcov,hs.covered⟩
    intro y hy
    rcases List.mem_cons.mp hy with rfl | hy
    · exact le_refl _
    · exact hpast y hy
  · exact ⟨hpast,hs.descending,hs.covered⟩

theorem Sound.final (hlim : b.unlimited = false) (hb : 0 ≤ b.burst) (hr : 0 ≤ b.refillPerSec)
    (xs : List (Int64 × Time)) {c : Time} {h : List (ℚ × ℚ)} (hs : b.Sound c h)
    (hc : ∀ x ∈ xs, c ≤ x.2) (hsort : (xs.map Prod.snd).Pairwise (· ≤ ·)) :
    ∃ d, b.Sound d ((b.spender env).final h xs) := by
  induction xs generalizing c h with
  | nil => exact ⟨c,hs⟩
  | cons x xs ih =>
    simp only [List.map_cons,List.pairwise_cons,List.mem_map] at hsort
    exact ih (hs.call env hlim hb hr (hc x (by simp)) x.1)
      (fun y hy => hsort.1 y.2 ⟨y,hy,rfl⟩) hsort.2

theorem spender_within (hlim : b.unlimited = false) (xs : List (Int64 × Time))
    (h : Within b.burst b.refillPerSec (xs.map fun x => spending x.1 x.2)) :
    (b.spender env).final [] xs = (xs.map fun x => spending x.1 x.2).reverse ∧
      ∀ r ∈ (b.spender env).results [] xs, r.1 = true := by
  induction xs using List.reverseRecOn with
  | nil => simp [Single.final,Single.results]
  | append_singleton xs x ih =>
    obtain ⟨n,now⟩ := x
    rw [List.map_append] at h
    obtain ⟨hfinal,hall⟩ := ih h.of_append
    have hres : (b.charge env (envelope b.burst b.refillPerSec
        ((b.spender env).final [] xs) (secondsAt now)) n now).2.1 = true := by
      rw [hfinal]
      by_cases hn : n ≤ 0
      · simp [charge,hn]
      · rw [charge_admits_iff env hlim _ (Int64.not_le.mp hn) now,← cast_cost hn]
        exact ⟨h.1 (spending n now) (by simp),Within.le_envelope h⟩
    refine ⟨?_,fun r hr => ?_⟩
    · rw [Single.final_append]
      simp only [Single.final]
      rw [spender_admitted env hres,hfinal]
      simp
    · rw [Single.results_append,List.mem_append] at hr
      rcases hr with hr | hr
      · exact hall r hr
      · simp only [Single.results,List.mem_singleton] at hr
        exact hr ▸ hres

theorem spender_reduces [DecidableEq PeerID] (hlim : b.unlimited = false)
    (hr : 0 ≤ b.refillPerSec) (hempty : ∀ p, b.state env p = none) (p : PeerID) :
    Reduces (machine env) (start b) p (b.spender env) (fun _ _ _ => True) [] :=
  Tracks.reduces (machine_keyed env b) (entry_simulates_spender env hlim hr) Time.start_le
    ⟨SameConfig.refl b,by simp [start],fun _ _ => by simp only [start,hempty]; rfl⟩

end Spender

section Conformance

variable [DecidableEq PeerID]

def admitted (p : PeerID) (rs : List (Reply PeerID Int64 (Bool × Duration) Time)) :
    List (Time × ℕ) :=
  (rs.filter fun r => r.key = p ∧ r.result.1).map fun r => (r.now,r.arg.toNatClampNeg)

def spent (xs : List (Time × ℕ)) : ℕ := (xs.map Prod.snd).sum

/-- The capacity of a bucket plus its refill over a span of nanoseconds. -/
def allowance (window : Duration) (rate burst : Int64) (span : ℤ) : ℚ :=
  (effectiveBurst rate burst).toInt + span * rate.toInt / (effectiveWindow window).toInt

def asSpending (x : Time × ℕ) : ℚ × ℚ := (secondsAt x.1,(x.2 : ℚ))

theorem total_asSpending (xs : List (Time × ℕ)) : total (xs.map asSpending) = spent xs := by
  induction xs with
  | nil => simp [spent]
  | cons x xs ih =>
    simp only [List.map_cons,total_cons,ih,spent,List.sum_cons,Nat.cast_add]
    rfl

section Limited

variable {window : Duration} {rate burst : Int64} (hrate : 0 < rate)

include hrate

theorem new_unlimited : (newTokenBucket window rate burst).unlimited = false := by
  simp [newTokenBucket,Int64.not_le.mpr hrate]

theorem new_burst :
    (newTokenBucket window rate burst).burst = (effectiveBurst rate burst).toInt := by
  simp [newTokenBucket,Int64.not_le.mpr hrate]

theorem new_burst_nonneg : 0 ≤ (newTokenBucket window rate burst).burst := by
  rw [new_burst hrate]
  have hpos : 0 ≤ (effectiveBurst rate burst).toInt := by
    unfold effectiveBurst
    split_ifs with h
    · exact (toInt_pos (Int64.not_le.mpr hrate)).le
    · exact (toInt_pos h).le
  exact_mod_cast hpos

theorem allowance_eq (x y : ℤ) :
    allowance window rate burst (y - x) = (newTokenBucket window rate burst).burst +
      ((y : ℚ) / 1000000000 - x / 1000000000) *
        (newTokenBucket window rate burst).refillPerSec := by
  have hw : ((effectiveWindow window).toInt : ℚ) ≠ 0 := by
    exact_mod_cast (effectiveWindow_pos window).ne'
  rw [new_burst hrate]
  simp only [allowance,newTokenBucket,if_neg (Int64.not_le.mpr hrate),Duration.seconds]
  push_cast
  field_simp

theorem new_reduces (p : PeerID) :
    Reduces (machine env) (start (newTokenBucket window rate burst)) p
      ((newTokenBucket window rate burst).spender env) (fun _ _ _ => True) [] :=
  spender_reduces env (new_unlimited hrate) (refillPerSec_nonneg window rate burst)
    (state_new env window rate burst) p

/-- The credit of a bucket is that of the calls it admitted. -/
theorem final_eq_admitted {es : List (Event PeerID Int64 Unit Time)} (hclock : Clocked es)
    (p : PeerID) :
    ((newTokenBucket window rate burst).spender env).final [] (callsOf p es) =
      ((admitted p ((machine env).trace (start (newTokenBucket window rate burst)) es)).map
        asSpending).reverse := by
  have hres : resultsOf p
      ((machine env).trace (start (newTokenBucket window rate burst)) es) = _ :=
    new_reduces env hrate p es hclock (Single.along_true _ _ _)
  rw [spender_final,← hres,zip_callsOf_resultsOf,List.append_nil]
  simp only [admitted,List.filter_map,List.map_map,List.filter_filter]
  congr 2
  apply List.filter_congr
  intro r _
  simp [Bool.and_comm]

theorem admitted_iff {es : List (Event PeerID Int64 Unit Time)} {p : PeerID} {n : Int64}
    {now : Time} (hn : 0 < n) (hclock : Clocked (es ++ [Event.call p n now])) :
    (((machine env).run (start (newTokenBucket window rate burst)) es).store.allowN env p n now).2
        = true ↔
      n.toInt ≤ (effectiveBurst rate burst).toInt ∧
      ∀ s c later, (s,c) :: later <:+
          admitted p ((machine env).trace (start (newTokenBucket window rate burst)) es) →
        ((c + spent later : ℕ) : ℚ) + n.toInt ≤ allowance window rate burst (now.ns - s.ns) := by
  have hlim : (newTokenBucket window rate burst).unlimited = false := new_unlimited hrate
  have hcall : (((machine env).run (start (newTokenBucket window rate burst)) es).store
      |>.allowNWithRetry env p n now).2 = _ :=
    (new_reduces env hrate p).call_run es n now hclock (Single.along_true _ _ _)
  rw [final_eq_admitted env hrate (hclock.sublist (List.sublist_append_left _ _)) p] at hcall
  have hfits : (n.toInt : ℚ) ≤ (newTokenBucket window rate burst).burst ↔
      n.toInt ≤ (effectiveBurst rate burst).toInt := by
    rw [new_burst hrate]
    exact Int.cast_le
  simp only [allowN,hcall,spender,charge_admits_iff env hlim _ hn now,le_envelope_reverse_iff,hfits,
    and_self_left,Prod.forall,asSpending,total_asSpending,secondsAt]
  refine and_congr_right fun _ => forall_congr' fun s => forall_congr' fun c =>
    forall_congr' fun later => imp_congr_right fun _ => ?_
  rw [allowance_eq hrate s.ns now.ns]
  push_cast
  constructor <;> intro h <;> linarith

theorem admitted_first {p : PeerID} {n : Int64} (hn : 0 < n)
    (hfits : n.toInt ≤ (effectiveBurst rate burst).toInt) (now : Time) :
    admitted p ((machine env).trace (start (newTokenBucket window rate burst))
      [Event.call p n now]) = [(now,n.toNatClampNeg)] := by
  have hclock : Clocked ([] ++ [.call p n now] : List (Event PeerID Int64 Unit Time)) := by
    simp [Clocked,Event.now?]
  have hgranted : ((newTokenBucket window rate burst).allowNWithRetry env p n now).2.1 = true :=
    (admitted_iff env hrate hn hclock).mpr ⟨hfits,by simp [admitted,Machine.trace]⟩
  simp [admitted,Machine.trace,Machine.reply,start,machine,hgranted]

theorem spent_interval_le {es : List (Event PeerID Int64 Unit Time)} (hclock : Clocked es)
    (p : PeerID) {x y : ℤ} (hxy : x ≤ y) :
    (spent ((admitted p ((machine env).trace (start (newTokenBucket window rate burst)) es)).filter
      fun a => x ≤ a.1.ns ∧ a.1.ns ≤ y) : ℚ) ≤ allowance window rate burst (y - x) := by
  have hb : 0 ≤ (newTokenBucket window rate burst).burst := new_burst_nonneg hrate
  have hr := refillPerSec_nonneg window rate burst
  obtain ⟨d,hs⟩ := Sound.final env (new_unlimited hrate) hb hr (callsOf p es)
    (⟨by simp,List.Pairwise.nil,trivial⟩ : Sound _ Time.start [])
    (fun c _ => Time.start_le c.2) (callsOf_sorted p hclock)
  have hle : (x : ℚ) / 1000000000 ≤ y / 1000000000 :=
    div_le_div_of_nonneg_right (by exact_mod_cast hxy) (by norm_num)
  have htotal := total_interval_le hb hr hle hs.descending hs.covered
  rw [final_eq_admitted env hrate hclock p,List.filter_reverse,total_reverse,List.filter_map,
    total_asSpending] at htotal
  have hsec (u v : ℤ) : (u : ℚ) / 1000000000 ≤ v / 1000000000 ↔ u ≤ v := by
    rw [div_le_div_iff_of_pos_right (by norm_num)]
    exact Int.cast_le
  rw [allowance_eq hrate x y]
  refine le_of_eq_of_le (congrArg (fun l => (spent l : ℚ)) (List.filter_congr ?_)) htotal
  intro a _
  simp [asSpending,secondsAt,hsec]

theorem admitted_of_within {es : List (Event PeerID Int64 Unit Time)} (hclock : Clocked es)
    (p : PeerID)
    (hcap : ∀ c ∈ callsOf p es, (c.1.toNatClampNeg : ℤ) ≤ (effectiveBurst rate burst).toInt)
    (hspan : ∀ s c g t d,
      (s,c) :: (g ++ [(t,d)]) <:+: (callsOf p es).map (fun c => (c.2,c.1.toNatClampNeg)) →
      ((c + spent g + d : ℕ) : ℚ) ≤ allowance window rate burst (t.ns - s.ns))
    (r : Reply PeerID Int64 (Bool × Duration) Time)
    (hr : r ∈ (machine env).trace (start (newTokenBucket window rate burst)) es) (hp : r.key = p) :
    r.result.1 = true := by
  have hlim : (newTokenBucket window rate burst).unlimited = false := new_unlimited hrate
  have hwithin : Within (newTokenBucket window rate burst).burst
      (newTokenBucket window rate burst).refillPerSec
      (((callsOf p es).map fun c => (c.2,c.1.toNatClampNeg)).map asSpending) := by
    refine Within.of_map ?_ ?_
    · intro c hc
      obtain ⟨c',hc',rfl⟩ := List.mem_map.mp hc
      have hle := hcap c' hc'
      rw [new_burst hrate]
      simp only [asSpending]
      exact_mod_cast hle
    · intro x g y hi
      have hh := hspan x.1 x.2 g y.1 y.2 hi
      rw [allowance_eq hrate] at hh
      simp only [total_asSpending,asSpending,secondsAt]
      push_cast at hh
      linarith
  rw [List.map_map] at hwithin
  have hall := (spender_within env hlim (callsOf p es) hwithin).2
  rw [← new_reduces env hrate p es hclock (Single.along_true _ _ _)] at hall
  exact hall r.result (List.mem_map_of_mem (List.mem_filter.mpr ⟨hr,by simpa using hp⟩))

end Limited

/-- Conformance. On every run of a limited bucket, with calls and background passes interleaved
in any way: a call is admitted exactly when it fits the capacity and, from every earlier
admitted call on, the peer's charges and its own fit the allowance of the time since; so the
charges of an interval fit its allowance, and traffic that fits is never rejected. -/
theorem tokenBucket_conforms (window : Duration) (rate burst : Int64) (hrate : 0 < rate)
    (p : PeerID) (es : List (Event PeerID Int64 Unit Time)) (hclock : Clocked es) :
    let M := machine env
    let b := start (newTokenBucket window rate burst)
    (∀ pre n now post, es = pre ++ .call p n now :: post → 0 < n →
      (((M.run b pre).store.allowN env p n now).2 = true ↔
        n.toInt ≤ (effectiveBurst rate burst).toInt ∧
        ∀ s c later, (s,c) :: later <:+ admitted p (M.trace b pre) →
          ((c + spent later : ℕ) : ℚ) + n.toInt ≤
            allowance window rate burst (now.ns - s.ns))) ∧
    (∀ x y : ℤ, x ≤ y →
      (spent ((admitted p (M.trace b es)).filter fun a => x ≤ a.1.ns ∧ a.1.ns ≤ y) : ℚ) ≤
        allowance window rate burst (y - x)) ∧
    ((∀ c ∈ callsOf p es, (c.1.toNatClampNeg : ℤ) ≤ (effectiveBurst rate burst).toInt) →
      (∀ s c g t d,
        (s,c) :: (g ++ [(t,d)]) <:+: (callsOf p es).map (fun c => (c.2,c.1.toNatClampNeg)) →
        ((c + spent g + d : ℕ) : ℚ) ≤ allowance window rate burst (t.ns - s.ns)) →
      ∀ r ∈ M.trace b es, r.key = p → r.result.1 = true) := by
  refine ⟨fun pre n now post hsplit hn => ?_,fun x y hxy => ?_,fun hcap hspan r hr hp => ?_⟩
  · rw [hsplit] at hclock
    exact admitted_iff env hrate hn hclock.upTo
  · exact spent_interval_le env hrate hclock p hxy
  · exact admitted_of_within env hrate hclock p hcap hspan r hr hp

/-- With 3 of the 5 tokens spent a call for 4 is rejected; a minute later, with a pass under way,
it fits. -/
theorem tokenBucket_conforms_minute :
    let M := machine textEnv
    let b := start (newTokenBucket Duration.minute 10 5)
    let minute : Time := ⟨60000000000,by norm_num,by norm_num⟩
    let first : Event String Int64 Unit Time := .call "p" 3 Time.start
    let es := [first,.sample () Time.start,.visit 0,.call "p" 4 minute]
    0 < (10 : Int64) ∧ Clocked es ∧
    ((M.run b [first]).store.allowN textEnv "p" 4 Time.start).2 = false ∧
    (spent ((admitted "p" (M.trace b es)).filter fun a => 0 ≤ a.1.ns ∧ a.1.ns ≤ minute.ns) : ℚ) ≤
      allowance Duration.minute 10 5 (minute.ns - 0) ∧
    ∀ r ∈ M.trace b es, r.key = "p" → r.result.1 = true := by
  intro M b minute first es
  have hclock : Clocked es := by
    simp [es,first,minute,Clocked,Event.now?,List.filterMap_cons,Time.le_def,Time.start]
  have hagain : Clocked [first,.call "p" 4 Time.start] := by
    simp [first,Clocked,Event.now?]
  have hcalls : callsOf "p" es = [(3,Time.start),(4,minute)] := rfl
  have hburst : (effectiveBurst 10 5).toInt = 5 := by decide
  have hwindow : (effectiveWindow Duration.minute).toInt = 60000000000 := by decide
  have hten : (10 : Int64).toInt = 10 := by decide
  have hthree : (3 : Int64).toNatClampNeg = 3 := by decide
  have hfour : (4 : Int64).toInt = 4 := by decide
  have hfour' : (4 : Int64).toNatClampNeg = 4 := by decide
  obtain ⟨_,hinterval,hall⟩ :=
    tokenBucket_conforms textEnv Duration.minute 10 5 (by decide) "p" es hclock
  refine ⟨by decide,hclock,?_,hinterval 0 minute.ns (by norm_num [minute]),hall ?_ ?_⟩
  · have hiff := (tokenBucket_conforms textEnv Duration.minute 10 5 (by decide) "p" _ hagain).1
      [first] 4 Time.start [] rfl (by decide)
    rw [← Bool.not_eq_true,hiff,admitted_first textEnv (by decide) (by decide) (by decide)]
    rintro ⟨_,hspan⟩
    have hboth := hspan Time.start _ [] List.suffix_rfl
    rw [allowance,hburst] at hboth
    norm_num [spent,hthree,hfour] at hboth
  · intro c hc
    rw [hcalls] at hc
    rcases List.mem_pair.mp hc with rfl | rfl <;> decide
  · -- a run of two calls or more is all there is
    intro s c g t d hinfix
    rw [hcalls] at hinfix
    have hlength : ((s,c) :: (g ++ [(t,d)])).length = 2 :=
      le_antisymm hinfix.length_le (by simp)
    obtain rfl : g = [] := List.length_eq_zero_iff.mp (by simpa using hlength)
    cases hinfix.eq_of_length hlength
    norm_num [allowance,hburst,hwindow,hten,spent,hthree,hfour',minute,Time.start]

/-- Read with the burst argument itself, the law fails for a burst of zero, which the
constructor replaces by the rate: 5 tokens are granted at once. -/
theorem conforms_fails_at_zero_burst :
    ¬ ((((machine textEnv).run (start (newTokenBucket Duration.minute 10 0)) []).store.allowN
        textEnv "p" 5 Time.start).2 = true ↔
      (5 : Int64).toInt ≤ (0 : Int64).toInt ∧
      ∀ s c later, (s,c) :: later <:+ admitted "p"
          ((machine textEnv).trace (start (newTokenBucket Duration.minute 10 0)) []) →
        ((c + spent later : ℕ) : ℚ) + (5 : Int64).toInt ≤ (0 : Int64).toInt +
          (Time.start.ns - s.ns) * (10 : Int64).toInt / Duration.minute.toInt) := by
  have hclock : Clocked ([] ++ [.call "p" 5 Time.start] : List (Event String Int64 Unit Time)) := by
    simp [Clocked,Event.now?]
  have hgranted : (((machine textEnv).run (start (newTokenBucket Duration.minute 10 0))
      []).store.allowN textEnv "p" 5 Time.start).2 = true :=
    (admitted_iff textEnv (by decide) (by decide) hclock).mpr
      ⟨by decide,by simp [admitted,Machine.trace]⟩
  intro h
  exact absurd (h.mp hgranted).1 (by decide)

end Conformance

end TokenBucket

end P2PForge
