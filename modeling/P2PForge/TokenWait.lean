import P2PForge.LimiterErasure
import P2PForge.TokenConformance

/-! The wait that a rejected caller is told.
The time that a bucket needs for the missing tokens is cut to nanoseconds, rounded to the
nearest millisecond, and a millisecond is added. This makes the wait long enough whatever was
cut off, and at most a millisecond and a half too long. What happens meanwhile to the bucket,
the refill by rejected calls and eviction, cannot be told from waiting. -/
namespace P2PForge

open KeyedSweep CreditEnvelope

namespace TokenBucket

variable {PeerID : Type} (env : Env PeerID)

section Wait

variable {shortfall rate : ℚ} (hshort : 0 < shortfall) (hrate : 0 < rate)
  (hfits : shortfall / rate*1000000000 + 2000000 < 2^63)

include hshort hrate hfits

theorem toInt_refillWait :
    (refillWait env shortfall rate).toInt =
      (⌊shortfall / rate*1000000000⌋ + 500000) / 1000000*1000000 + 1000000 := by
  have hnonneg : 0 ≤ shortfall / rate*1000000000 := by positivity
  have hfloor : ⌊shortfall / rate*1000000000⌋ + 2000000 < 2^63 := by
    have hle := Int.floor_le (shortfall / rate*1000000000)
    have hlt : ((⌊shortfall / rate*1000000000⌋ + 2000000 : ℤ) : ℚ) < ((2^63 : ℤ) : ℚ) := by
      push_cast
      linarith
    exact_mod_cast hlt
  have hd := env.int64OfFloat_nonneg _ hnonneg (by omega)
  have hpos := Int.floor_nonneg.mpr hnonneg
  simp only [refillWait,not_le.mpr hshort,not_le.mpr hrate,or_self,if_false]
  split_ifs with hzero
  · have hle : (env.int64OfFloat (shortfall / rate*1000000000)).toInt ≤ 0 := by
      simpa [Int64.le_iff_toInt_le] using hzero
    have hms : Duration.millisecond.toInt = 1000000 := by decide
    rw [hms]
    omega
  · have hms : Duration.millisecond.toInt = 1000000 := by decide
    have hround := Duration.toInt_round_millisecond (hd ▸ hpos) (by rw [hd]; omega)
    rw [toInt_add_of_lt] <;> rw [hround,hms,hd] <;> omega

theorem le_refillWait :
    shortfall / rate*1000000000 ≤ (refillWait env shortfall rate).toInt := by
  have hlt := Int.lt_floor_add_one (shortfall / rate*1000000000)
  have hle : ⌊shortfall / rate*1000000000⌋ + 1 ≤ (refillWait env shortfall rate).toInt := by
    rw [toInt_refillWait env hshort hrate hfits]
    omega
  have hcast : ((⌊shortfall / rate*1000000000⌋ + 1 : ℤ) : ℚ) ≤
      (refillWait env shortfall rate).toInt := by exact_mod_cast hle
  push_cast at hcast
  linarith

theorem refillWait_le :
    ((refillWait env shortfall rate).toInt : ℚ) ≤ shortfall / rate*1000000000 + 1500000 := by
  have hfloor := Int.floor_le (shortfall / rate*1000000000)
  have hle : (refillWait env shortfall rate).toInt ≤
      ⌊shortfall / rate*1000000000⌋ + 1500000 := by
    rw [toInt_refillWait env hshort hrate hfits]
    omega
  have hcast : ((refillWait env shortfall rate).toInt : ℚ) ≤
      ((⌊shortfall / rate*1000000000⌋ + 1500000 : ℤ) : ℚ) := by exact_mod_cast hle
  push_cast at hcast
  linarith

theorem refillWait_ne_zero : refillWait env shortfall rate ≠ 0 := by
  intro hzero
  have hwait := toInt_refillWait env hshort hrate hfits
  have hpos : 0 ≤ ⌊shortfall / rate*1000000000⌋ := Int.floor_nonneg.mpr (by positivity)
  rw [hzero,Int64.toInt_zero] at hwait
  omega

end Wait

theorem refillWait_mono {shortfall shortfall' rate : ℚ} (hshort : 0 < shortfall)
    (hrate : 0 < rate) (hle : shortfall ≤ shortfall')
    (hfits : shortfall' / rate*1000000000 + 2000000 < 2^63) :
    refillWait env shortfall rate ≤ refillWait env shortfall' rate := by
  have hneeds : shortfall / rate*1000000000 ≤ shortfall' / rate*1000000000 := by gcongr
  have hfloor := Int.floor_mono hneeds
  rw [Int64.le_iff_toInt_le,toInt_refillWait env hshort hrate (by linarith),
    toInt_refillWait env (by linarith) hrate hfits]
  omega

theorem covered_of_wait {cost x rate : ℚ} (hrate : 0 < rate) {w : Duration} {now t : Time}
    (hwait : (cost - x) / rate*1000000000 ≤ w.toInt) (ht : now.add w ≤ t.ns) :
    cost ≤ x + (t.sub now).seconds*rate := by
  rw [Time.add] at ht
  have hpassed : (w.toInt : ℚ) ≤ t.ns - now.ns := by
    have hle : w.toInt ≤ t.ns - now.ns := by omega
    exact_mod_cast hle
  have hseconds : (cost - x) / rate ≤ (t.sub now).seconds := by
    rw [seconds_sub,le_div_iff₀ (by norm_num)]
    exact hwait.trans hpassed
  have htokens := (div_le_iff₀ hrate).mp hseconds
  linarith

/-- The nanoseconds in which the tokens that a call is short of come in. -/
def exactWait (b : TokenBucket) (p : PeerID) (n : Int64) (now : Time) : ℚ :=
  (n.toInt - b.level (b.state env p) now) / b.refillPerSec*1000000000

variable {b : TokenBucket} {p : PeerID} {n : Int64} {now : Time} {w : Duration}

theorem allowNWithRetry_result (b : TokenBucket) (p : PeerID) (n : Int64) (now : Time) :
    (b.allowNWithRetry env p n now).2 = (b.charge env (b.level (b.state env p) now) n now).2 := by
  rw [allowNWithRetry_eq]

theorem allowN_iff (hlim : b.unlimited = false) (hn : 0 < n) :
    (b.allowN env p n now).2 = true ↔
      n.toInt ≤ b.burst ∧ n.toInt ≤ b.level (b.state env p) now := by
  rw [allowN,allowNWithRetry_result]
  exact charge_admits_iff env hlim _ hn now

theorem rejected_cases (hlim : b.unlimited = false) (hn : 0 < n)
    (h : (b.allowNWithRetry env p n now).2 = (false,w)) :
    (b.burst < n.toInt ∧ w = 0) ∨
      (n.toInt ≤ b.burst ∧ 0 < n.toInt - b.level (b.state env p) now ∧
        w = refillWait env (n.toInt - b.level (b.state env p) now) b.refillPerSec) := by
  rw [allowNWithRetry_result] at h
  rcases charge_cases env hlim (b.level (b.state env p) now) n now with
    ⟨hle,_⟩ | ⟨_,hbig,hch⟩ | ⟨_,hfit,hshort,hch⟩ | ⟨_,_,_,hch⟩
  · exact absurd hle (Int64.not_le.mpr hn)
  · rw [hch] at h
    exact .inl ⟨hbig,(Prod.mk.inj h).2.symm⟩
  · rw [hch] at h
    exact .inr ⟨hfit,by linarith,(Prod.mk.inj h).2.symm⟩
  · rw [hch] at h
    cases (Prod.mk.inj h).1

theorem reference_final_unseen (hr : 0 ≤ b.refillPerSec) (xs : List (Int64 × Time))
    (s : TokenState)
    (hxs : ∀ y ∈ xs.zip ((b.reference env).results s xs), y.2.1 = false ∨ y.1.1 ≤ 0)
    {t : Time} (ht : ∀ x ∈ xs, x.2 ≤ t) :
    b.level (some ((b.reference env).final s xs)) t = b.level (some s) t := by
  induction xs generalizing s with
  | nil => rfl
  | cons x xs ih =>
    simp only [Single.results,List.zip_cons_cons,List.forall_mem_cons] at hxs ht
    rw [Single.final,ih _ hxs.2 ht.2]
    exact reference_call_unseen env hr s x.1 hxs.1 t ht.1

theorem newTokenBucket_limited (window : Duration) {rate : Int64} (burst : Int64)
    (hrate : 0 < rate) :
    (newTokenBucket window rate burst).unlimited = false ∧
      0 < (newTokenBucket window rate burst).refillPerSec ∧
      (newTokenBucket window rate burst).burst = (effectiveBurst rate burst).toInt := by
  have hpos : ¬ rate ≤ 0 := Int64.not_le.mpr hrate
  have hwindow : (0 : ℚ) < (effectiveWindow window).toInt := by
    exact_mod_cast effectiveWindow_pos window
  have hrate' : (0 : ℚ) < rate.toInt := by exact_mod_cast toInt_pos hpos
  simp only [newTokenBucket,if_neg hpos,Duration.seconds]
  exact ⟨trivial,by positivity,trivial⟩

section Runs

variable [DecidableEq PeerID] {env}

theorem level_run (hr : 0 ≤ b.refillPerSec) (hempty : ∀ p, b.state env p = none)
    {es : List (Event PeerID Int64 Unit Time)} (hclock : Clocked (es ++ [Event.call p n now])) :
    let b' := ((machine env).run (start b) es).store
    SameConfig b b' ∧ b'.level (b'.state env p) now =
      b.level (some ((b.reference env).final b.full (callsOf p es))) now := by
  intro b'
  obtain ⟨hes,hlast⟩ := hclock.concat
  have hend := (tracks_start env hr hempty p).run (machine_keyed env b) (entry_simulates env hr)
    hes (fun t _ => Time.start_le t) (hlast now rfl) (Time.start_le now) (Single.along_true _ _ _)
  refine ⟨hend.good,?_⟩
  rw [hend.good.level_eq]
  exact hend.rel now le_rfl

/-- A rejected call, and any later calls of the peer that are rejected or ask for nothing, leave
the level as it was. -/
theorem level_run_rejected (hr : 0 ≤ b.refillPerSec) (hempty : ∀ p, b.state env p = none)
    {pre mid : List (Event PeerID Int64 Unit Time)} {t : Time}
    (hclock : Clocked (pre ++ Event.call p n now :: mid ++ [Event.call p n t]))
    (hrejected : (((machine env).run (start b) pre).store.allowNWithRetry env p n now).2.1 = false)
    (hmid : ∀ r ∈ (machine env).trace
        ((machine env).run (start b) (pre ++ [Event.call p n now])) mid,
      r.key = p → r.result.1 = false ∨ r.arg ≤ 0) :
    b.level (some ((b.reference env).final b.full
        (callsOf p (pre ++ Event.call p n now :: mid)))) t =
      b.level (some ((b.reference env).final b.full (callsOf p pre))) t := by
  obtain ⟨hes,hlast⟩ := hclock.concat
  have hred := machine_reduces env hr hempty p
  have hfirst := hred.call_run pre n now hes.upTo (Single.along_true _ _ _)
  have hsplit : callsOf p (pre ++ Event.call p n now :: mid) =
      callsOf p (pre ++ [Event.call p n now]) ++ callsOf p mid := by
    rw [← callsOf_append,List.append_assoc,List.singleton_append]
  have hresults := hred.tail (pre ++ [Event.call p n now]) mid
    (by simpa using hes) (Single.along_true _ _ _)
  have hnow : now ≤ t := hlast t rfl now (by simp [Event.now?])
  rw [hsplit,Single.final_append,reference_final_unseen env hr]
  · rw [callsOf_append,Single.final_append]
    simp only [callsOf,if_true,Single.final]
    exact reference_call_unseen env hr _ n (.inl (hfirst ▸ hrejected)) t hnow
  · rw [← hresults,zip_callsOf_resultsOf]
    intro y hy
    obtain ⟨r,hr',rfl⟩ := List.mem_map.mp hy
    obtain ⟨hmem,hkey⟩ := List.mem_filter.mp hr'
    exact hmid r hmem (by simpa using hkey)
  · rintro ⟨m,u⟩ hx
    refine hlast t rfl u (List.mem_filterMap.mpr ⟨.call p m u,?_,rfl⟩)
    exact List.mem_append_right _ (List.mem_cons_of_mem _ (mem_of_mem_callsOf hx))

/-- A peer that waits as long as it was told, and has no other call admitted meanwhile, finds the
tokens it was short of. -/
theorem admitted_after_wait (hlim : b.unlimited = false) (hr : 0 < b.refillPerSec)
    (hempty : ∀ p, b.state env p = none) {pre mid : List (Event PeerID Int64 Unit Time)}
    {t : Time} (hn : 0 < n)
    (hclock : Clocked (pre ++ Event.call p n now :: mid ++ [Event.call p n t]))
    (hfits : (((machine env).run (start b) pre).store).exactWait env p n now + 2000000 < 2^63)
    (hrejected : (((machine env).run (start b) pre).store.allowNWithRetry env p n now).2 =
      (false,w)) (hburst : n.toInt ≤ b.burst)
    (hmid : ∀ r ∈ (machine env).trace
        ((machine env).run (start b) (pre ++ [Event.call p n now])) mid,
      r.key = p → r.result.1 = false ∨ r.arg ≤ 0) (ht : now.add w ≤ t.ns) :
    (((machine env).run (start b) (pre ++ Event.call p n now :: mid)).store.allowN env p n t).2 =
      true := by
  obtain ⟨hes,hlast⟩ := hclock.concat
  obtain ⟨hconfig,hlevel⟩ := level_run hr.le hempty hes.upTo
  obtain ⟨hconfig',hlevel'⟩ := level_run hr.le hempty hclock
  have hnow : now ≤ t := hlast t rfl now (by simp [Event.now?])
  -- at `t` the bucket holds what it held at `now`, refilled
  have hrefilled : b.level (some ((b.reference env).final b.full
      (callsOf p (pre ++ Event.call p n now :: mid)))) t = refill b.burst b.refillPerSec
        (b.level (some ((b.reference env).final b.full (callsOf p pre))) now)
        (t.sub now).seconds := by
    rw [level_run_rejected hr.le hempty hclock (congrArg Prod.fst hrejected) hmid]
    exact (refill_level hr.le _ hnow).symm
  rcases rejected_cases env (hconfig.2.2.1.trans hlim) hn hrejected with
    ⟨hbig,_⟩ | ⟨_,hshort,rfl⟩
  · rw [hconfig.2.1] at hbig
    linarith
  · have hwait := le_refillWait env hshort (hconfig.1 ▸ hr) hfits
    rw [allowN_iff env (hconfig'.2.2.1.trans hlim) hn,hconfig'.2.1,hlevel',hrefilled,← hlevel]
    refine ⟨hburst,le_min hburst ?_⟩
    rw [hconfig.1] at hwait ht
    exact covered_of_wait hr hwait ht

/-- The reported wait is long enough, tight and monotone. -/
theorem allowNWithRetry_wait (window : Duration) {rate : Int64} (burst : Int64)
    (hrate : 0 < rate) {pre : List (Event PeerID Int64 Unit Time)} (hn : 0 < n)
    (hclock : Clocked (pre ++ [Event.call p n now])) :
    let M := machine env
    let s := start (newTokenBucket window rate burst)
    let b := (M.run s pre).store
    (b.allowNWithRetry env p n now).2 = (false,w) →
    (n ≤ effectiveBurst rate burst → b.exactWait env p n now + 2000000 < 2^63) →
    -- no wait is told exactly if there is none that would do
    ((w = 0 ↔ effectiveBurst rate burst < n) ∧
      (effectiveBurst rate burst < n → ∀ es t, Clocked (es ++ [Event.call p n t]) →
        ((M.run s es).store.allowN env p n t).2 = false)) ∧
    (n ≤ effectiveBurst rate burst →
      -- the wait is long enough
      (∀ mid t, Clocked (pre ++ Event.call p n now :: mid ++ [Event.call p n t]) →
        (∀ r ∈ M.trace (M.run s (pre ++ [Event.call p n now])) mid,
          r.key = p → r.result.1 = false ∨ r.arg ≤ 0) →
        now.add w ≤ t.ns → ((M.run s (pre ++ Event.call p n now :: mid)).store.allowN env p n t).2 =
          true) ∧
      -- it is not much too long
      (w.toInt : ℚ) ≤ b.exactWait env p n now + 1500000 ∧
      -- asking for more is not told to wait less
      ∀ n' w', n ≤ n' → n' ≤ effectiveBurst rate burst →
        (b.allowNWithRetry env p n' now).2 = (false,w') →
        b.exactWait env p n' now + 2000000 < 2^63 → w ≤ w') := by
  intro M s b hrejected hfits
  obtain ⟨hlim,hr,hburst⟩ := newTokenBucket_limited window burst hrate
  have hempty := state_new env window rate burst
  obtain ⟨hconfig,_⟩ := level_run hr.le hempty hclock
  have hle_iff (m : Int64) : (m.toInt : ℚ) ≤ b.burst ↔ m ≤ effectiveBurst rate burst := by
    rw [hconfig.2.1,hburst,Int64.le_iff_toInt_le,Int.cast_le]
  have hlim' : b.unlimited = false := hconfig.2.2.1.trans hlim
  have hr' : 0 < b.refillPerSec := hconfig.1 ▸ hr
  have hnever : effectiveBurst rate burst < n → ∀ es t, Clocked (es ++ [Event.call p n t]) →
      ((M.run s es).store.allowN env p n t).2 = false := by
    intro hbig es t hes
    obtain ⟨hconfig',_⟩ := level_run hr.le hempty hes
    rw [← Bool.not_eq_true,allowN_iff env (hconfig'.2.2.1.trans hlim) hn,hconfig'.2.1,
      ← hconfig.2.1,hle_iff]
    exact fun hle => absurd hbig (Int64.not_lt.mpr hle.1)
  rcases rejected_cases env hlim' hn hrejected with ⟨hbig,rfl⟩ | ⟨hfit,hshort,rfl⟩
  · have hbig' : effectiveBurst rate burst < n := by
      rwa [← Int64.not_le,← hle_iff,not_le]
    exact ⟨⟨iff_of_true rfl hbig',hnever⟩,fun hle => absurd hbig' (Int64.not_lt.mpr hle)⟩
  · have hfit' := (hle_iff n).mp hfit
    have hfits' := hfits hfit'
    refine ⟨⟨iff_of_false (refillWait_ne_zero env hshort hr' hfits') (Int64.not_lt.mpr hfit'),
      hnever⟩,fun _ => ⟨?_,refillWait_le env hshort hr' hfits',?_⟩⟩
    · intro mid t hclock' hmid ht
      have hburst' : (n.toInt : ℚ) ≤ (newTokenBucket window rate burst).burst := hconfig.2.1 ▸ hfit
      exact admitted_after_wait hlim hr hempty hn hclock' hfits' hrejected hburst' hmid ht
    · intro n' w' hle hburst' hrejected' hfits''
      have hle' : (n.toInt : ℚ) ≤ n'.toInt := by exact_mod_cast Int64.le_iff_toInt_le.mp hle
      rcases rejected_cases env hlim' (Int64.lt_of_lt_of_le hn hle) hrejected' with
        ⟨hbig,_⟩ | ⟨_,_,rfl⟩
      · exact absurd ((hle_iff n').mpr hburst') (not_le.mpr hbig)
      · exact refillWait_mono env hshort hr' (by linarith) hfits''

def drained : TokenBucket :=
  ((machine textEnv).run (start (newTokenBucket Duration.minute 10 5))
    [Event.call "p" 5 Time.start]).store

theorem clocked_drained : Clocked ([Event.call "p" 5 Time.start] ++ [Event.call "p" 1 Time.start] :
    List (Event String Int64 Unit Time)) := by
  simp [Clocked,Event.now?]

theorem newTokenBucket_minute :
    (newTokenBucket Duration.minute 10 5).refillPerSec = 1 / 6 ∧
      (newTokenBucket Duration.minute 10 5).burst = 5 := by
  have hwindow : (effectiveWindow Duration.minute).toInt = 60000000000 := by decide
  have hrate : (10 : Int64).toInt = 10 := by decide
  have hburst : (effectiveBurst 10 5).toInt = 5 := by decide
  simp only [newTokenBucket,if_neg (show ¬ (10 : Int64) ≤ 0 by decide),Duration.seconds,hwindow,
    hrate,hburst]
  norm_num

theorem drained_level : drained.SameConfig (newTokenBucket Duration.minute 10 5) ∧
    drained.level (drained.state textEnv "p") Time.start = 0 := by
  obtain ⟨hlim,hr,_⟩ := newTokenBucket_limited Duration.minute 5 (show (0 : Int64) < 10 by decide)
  obtain ⟨⟨hrate,hburst,hunlimited,hidle⟩,hlevel⟩ := level_run hr.le
    (state_new textEnv Duration.minute 10 5) clocked_drained
  refine ⟨⟨hrate.symm,hburst.symm,hunlimited.symm,hidle.symm⟩,hlevel.trans ?_⟩
  have hspent : (newTokenBucket Duration.minute 10 5).charge textEnv 5 5 Time.start =
      (some ⟨0,Time.start⟩,true,0) := by
    have hfive : (5 : Int64).toInt = 5 := by decide
    have hpos : ¬ (5 : Int64) ≤ 0 := by decide
    simp [charge,hlim,newTokenBucket_minute.2,hfive,hpos]
  simp only [callsOf,if_true,Single.final,reference,level_full hr.le,newTokenBucket_minute.2,
    hspent]
  simp [level,refill,newTokenBucket_minute.2,Duration.seconds]

theorem drained_rejects : (drained.allowNWithRetry textEnv "p" 1 Time.start).2.1 = false := by
  obtain ⟨⟨_,_,hunlimited,_⟩,hlevel⟩ := drained_level
  have hlim := newTokenBucket_limited Duration.minute 5 (show (0 : Int64) < 10 by decide)
  have hone : (1 : Int64).toInt = 1 := by decide
  change (drained.allowN textEnv "p" 1 Time.start).2 = false
  rw [← Bool.not_eq_true,allowN_iff textEnv (hunlimited.symm.trans hlim.1) (by decide),hlevel,hone]
  norm_num

theorem drained_exactWait : drained.exactWait textEnv "p" 1 Time.start = 6000000000 := by
  obtain ⟨⟨hrate,_⟩,hlevel⟩ := drained_level
  have hone : (1 : Int64).toInt = 1 := by decide
  rw [exactWait,hlevel,← hrate,newTokenBucket_minute.1,hone]
  norm_num

def refilledAt : Time := ⟨6001500000,by norm_num,by norm_num⟩

theorem allowNWithRetry_wait_drained :
    let w := (drained.allowNWithRetry textEnv "p" 1 Time.start).2.2
    w ≠ 0 ∧ (w.toInt : ℚ) ≤ 6001500000 ∧
      ((drained.allowNWithRetry textEnv "p" 1 Time.start).1.allowN textEnv "p" 1 refilledAt).2 =
        true := by
  intro w
  have hburst : (1 : Int64) ≤ effectiveBurst 10 5 := by decide
  have hrejected : (drained.allowNWithRetry textEnv "p" 1 Time.start).2 = (false,w) :=
    Prod.ext drained_rejects rfl
  have hfits : drained.exactWait textEnv "p" 1 Time.start + 2000000 < 2^63 := by
    rw [drained_exactWait]
    norm_num
  obtain ⟨⟨hzero,_⟩,hrest⟩ := allowNWithRetry_wait Duration.minute 5 (by decide) (by decide)
    clocked_drained hrejected fun _ => hfits
  obtain ⟨henough,htight,_⟩ := hrest hburst
  rw [← drained,drained_exactWait] at htight
  have hle : (w.toInt : ℚ) ≤ 6001500000 := by linarith
  refine ⟨fun h => absurd (hzero.mp h) (Int64.not_lt.mpr hburst),hle,?_⟩
  refine henough [] refilledAt ?_ ?_ ?_
  · have hlate : Time.start ≤ refilledAt := Time.start_le _
    simpa [Clocked,Event.now?] using hlate
  · simp [Machine.trace]
  · have hle' : w.toInt ≤ 6001500000 := by exact_mod_cast hle
    simp only [Time.add,Time.start,refilledAt]
    omega

end Runs

end TokenBucket
end P2PForge
