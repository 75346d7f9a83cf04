import P2PForge.SingleBucket

/-! The sliding-window limiter refines a log that is never pruned.
The reference keeps every admitted unit for ever and counts the ones inside the window.
Pruning drops only units at or before a cutoff that no later call looks behind, so the
two agree on every call; the limit then holds for every position of the window, by the
last call admitted inside it. -/
namespace P2PForge

open KeyedSweep

/-- `now - window`, as the limiter computes it, is exact for every window but the least
`int64`, which is its own negation. -/
theorem Time.add_neg_eq (now : Time) {window : Duration} (h : window ≠ Duration.minDuration) :
    now.add (-window) = now.ns - window.toInt := by
  have hlo := Int64.le_toInt window
  have hhi := Int64.toInt_lt window
  have hne : window.toInt ≠ -2^63 := fun he => h (Int64.toInt_inj.mp (by rw [he]; decide))
  rw [Time.add,Int64.toInt_neg,Int.bmod_eq_of_le] <;> norm_num at * <;> omega

namespace PlainLog

section Reference

variable {κ ω : Type} [DecidableEq κ] (window : Duration) (limit : κ → Int64)

def unitsAfter (log : List (κ × Time)) (k : κ) (cutoff : ℤ) : ℕ :=
  (log.filter fun u => u.1 = k ∧ cutoff < u.2.ns).length

/-- The count is compared over unbounded integers. -/
def allowN (log : List (κ × Time)) (k : κ) (n : Int64) (now : Time) : List (κ × Time) × Bool :=
  if n ≤ 0 then (log,true)
  else if unitsAfter log k (now.add (-window)) + n.toInt ≤ (limit k).toInt then
    (log ++ List.replicate n.toNatClampNeg (k,now),true)
  else (log,false)

/-- The reference sees the same events and ignores the background passes. -/
def machine : Machine (List (κ × Time)) κ Int64 Bool ω Time where
  parts := 0
  call log k n now := allowN window limit log k n now
  visit log _ _ _ := log

end Reference

/-- The reference for one key: its log holds the times of the admitted units. -/
def single (window : Duration) (limit : Int64) : Single (List Time) Int64 Bool Time where
  call log n now :=
    if n ≤ 0 then (log,true)
    else if (prune (now.add (-window)) log).length + n.toInt ≤ limit.toInt then
      (log ++ List.replicate n.toNatClampNeg now,true)
    else (log,false)

section Keyed

variable {κ ω : Type} [DecidableEq κ] {window : Duration} {limit : κ → Int64}

def timesOf (k : κ) (log : List (κ × Time)) : List Time :=
  (log.filter (·.1 = k)).map Prod.snd

theorem unitsAfter_eq (log : List (κ × Time)) (k : κ) (cutoff : ℤ) :
    unitsAfter log k cutoff = (prune cutoff (timesOf k log)).length := by
  simp only [unitsAfter,prune,timesOf,List.filter_map,List.length_map,List.filter_filter]
  congr 1
  apply List.filter_congr
  intro u _
  simp [Time.after,Bool.and_comm]

theorem timesOf_replicate_self (k : κ) (m : ℕ) (now : Time) :
    timesOf k (List.replicate m (k,now)) = List.replicate m now := by
  simp [timesOf]

theorem timesOf_replicate_ne {k k' : κ} (h : k ≠ k') (m : ℕ) (now : Time) :
    timesOf k' (List.replicate m (k,now)) = [] := by
  simp [timesOf,h]

theorem timesOf_append (k : κ) (log log' : List (κ × Time)) :
    timesOf k (log++log') = timesOf k log ++ timesOf k log' := by
  simp [timesOf]

theorem allowN_result (log : List (κ × Time)) (k : κ) (n : Int64) (now : Time) :
    (allowN window limit log k n now).2 =
      ((single window (limit k)).call (timesOf k log) n now).2 := by
  simp only [allowN,single,unitsAfter_eq]
  split_ifs <;> rfl

theorem timesOf_allowN_self (log : List (κ × Time)) (k : κ) (n : Int64) (now : Time) :
    timesOf k (allowN window limit log k n now).1 =
      ((single window (limit k)).call (timesOf k log) n now).1 := by
  simp only [allowN,single,unitsAfter_eq]
  split_ifs
  · rfl
  · simp only [timesOf_append,timesOf_replicate_self]
  · rfl

theorem timesOf_allowN_other (log : List (κ × Time)) {k k' : κ} (h : k' ≠ k) (n : Int64)
    (now : Time) : timesOf k' (allowN window limit log k n now).1 = timesOf k' log := by
  simp only [allowN]
  split_ifs
  · rfl
  · simp only [timesOf_append,timesOf_replicate_ne h.symm,List.append_nil]
  · rfl

theorem machine_keyed :
    Keyed (machine (ω:=ω) window limit) (fun k => (single window (limit k)).toEntry [])
      (fun log k => some (timesOf k log)) (fun _ => True) where
  call_good _ _ _ _ _ := trivial
  visit_good _ _ _ _ _ := trivial
  call_result log k n now _ := allowN_result log k n now
  call_view log k n now _ := congrArg some (timesOf_allowN_self log k n now)
  call_frame log _ n now _ _ h := congrArg some (timesOf_allowN_other log h n now)
  visit_view _ _ _ _ _ _ := Or.inl rfl

end Keyed

section Refinement

variable {window : Duration}

theorem prune_prune {c d : ℤ} (h : c ≤ d) (log : List Time) :
    prune d (prune c log) = prune d log := by
  simp only [prune,List.filter_filter]
  apply List.filter_congr
  intro t _
  simp only [Time.after,Bool.and_eq_left_iff_imp,decide_eq_true_eq]
  omega

theorem prune_append (c : ℤ) (log log' : List Time) :
    prune c (log++log') = prune c log ++ prune c log' := List.filter_append ..

theorem length_prune_le {c d : ℤ} (h : c ≤ d) (log : List Time) :
    (prune d log).length ≤ (prune c log).length := by
  rw [← prune_prune h]
  exact List.length_filter_le _ _

theorem getD_cleanupLog (c : ℤ) (times : List Time) :
    (SingleBucket.cleanupLog c times).getD [] = prune c times := by
  simp only [SingleBucket.cleanupLog]
  split
  · rename_i h
    exact (List.length_eq_zero_iff.mp h).symm
  · rfl

def Fits (window : Duration) (log : List Time) (n : Int64) (now : Time) : Prop :=
  0 < n → (prune (now.add (-window)) log).length + n.toInt < 2^63

/-- Where the sum does not wrap, the machine comparison is the one over unbounded integers. -/
theorem exceeds_iff {len : ℕ} {n maxRequests : Int64} (hn : 0 < n) (h : len + n.toInt < 2^63) :
    Int64.ofNat len + n > maxRequests ↔ ¬ len + n.toInt ≤ maxRequests.toInt := by
  have hpos : 0 < n.toInt := by simpa [Int64.lt_iff_toInt_lt] using hn
  have hlen : (Int64.ofNat len).toInt = len := Int64.toInt_ofNat_of_lt (by omega)
  have hsum : (Int64.ofNat len + n).toInt = len + n.toInt := by
    rw [toInt_add_of_lt (by omega) (by omega),hlen]
  rw [gt_iff_lt,Int64.lt_iff_toInt_lt,hsum,not_le]

/-- From clock reading `c` on, a pruned log and a full one hold the same units in the window. -/
def Agree (window : Duration) (c : Time) (e : Option (List Time)) (log : List Time) : Prop :=
  ∀ d, c ≤ d → prune (d.add (-window)) (e.getD []) = prune (d.add (-window)) log

theorem entry_simulates (window : Duration) (limit : Int64) :
    Simulates (SingleBucket.entry window limit) (single window limit) (Fits window)
      (Agree window) where
  later _ _ _ _ h hcd d hd := h d (hcd.trans hd)
  call_result c e log n now h hc hfit := by
    simp only [SingleBucket.entry,single,h now hc]
    split
    · rfl
    · rename_i hn
      have hn' : 0 < n := Int64.not_le.mp hn
      simp only [exceeds_iff hn' (hfit hn')]
      split_ifs <;> rfl
  call_rel c e log n now h hc hfit d hd := by
    have hcut : now.add (-window) ≤ d.add (-window) := Time.add_mono hd _
    simp only [SingleBucket.entry,single,h now hc]
    split
    · exact h d (hc.trans hd)
    · rename_i hn
      have hn' : 0 < n := Int64.not_le.mp hn
      simp only [exceeds_iff hn' (hfit hn')]
      split_ifs
      · simp only [Option.getD_some,prune_append,prune_prune hcut]
      · simp only [Option.getD_some,prune_prune hcut]
  sweep_rel c times log t h htc d hd := by
    have hcut : t.add (-window) ≤ d.add (-window) := Time.add_mono (htc.trans hd) _
    have hsweep : (SingleBucket.entry window limit).sweep t times =
        SingleBucket.cleanupLog (t.add (-window)) times := rfl
    rw [hsweep,getD_cleanupLog,prune_prune hcut]
    exact h d hd

/-- The window never holds more than the limit at the time of the newest call or later. -/
def Bounded (window : Duration) (limit : Int64) (c : Time) (log : List Time) : Prop :=
  ((prune (c.add (-window)) log).length : ℤ) ≤ max 0 limit.toInt

theorem Bounded.later {limit : Int64} {c d : Time} {log : List Time}
    (h : Bounded window limit c log) (hcd : c ≤ d) : Bounded window limit d log := by
  have hlen := length_prune_le (Time.add_mono hcd (-window)) log
  simp only [Bounded] at *
  omega

theorem Bounded.call {limit : Int64} {now : Time} {log : List Time}
    (h : Bounded window limit now log) (n : Int64) :
    Bounded window limit now ((single window limit).call log n now).1 := by
  simp only [single]
  split_ifs with hn hle
  · exact h
  · have hcast := cast_toNatClampNeg hn
    have hrep : (prune (now.add (-window)) (List.replicate n.toNatClampNeg now)).length ≤
        n.toNatClampNeg := (List.length_filter_le _ _).trans (by simp)
    simp only [Bounded,prune_append,List.length_append] at *
    omega
  · exact h

theorem along_fits {limit : Int64} (xs : List (Int64 × Time)) (c : Time) (log : List Time)
    (hb : Bounded window limit c log) (hc : ∀ x ∈ xs, c ≤ x.2)
    (hs : (xs.map Prod.snd).Pairwise (· ≤ ·)) (hn : ∀ x ∈ xs, x.1.toInt ≤ 2^63 - 1 - limit.toInt) :
    (single window limit).Along (Fits window) log xs := by
  induction xs generalizing c log with
  | nil => trivial
  | cons x xs ih =>
    obtain ⟨n,now⟩ := x
    simp only [List.map_cons,List.pairwise_cons,List.mem_map] at hs
    have hnow := hb.later (hc (n,now) (by simp))
    refine ⟨fun _ => ?_,ih now _ (hnow.call n) (fun x hx => hs.1 x.2 ⟨x,hx,rfl⟩) hs.2
      (fun x hx => hn x (by simp [hx]))⟩
    have hle : n.toInt ≤ 2^63 - 1 - limit.toInt := hn (n,now) (by simp)
    have hlt := Int64.toInt_lt n
    simp only [Bounded] at hnow
    omega

theorem along_fits_of_clocked {κ ω : Type} [DecidableEq κ] {limit : Int64} {k : κ}
    {es : List (Event κ Int64 ω Time)} (hclock : Clocked es)
    (hcost : ∀ n now, .call k n now ∈ es → n.toInt ≤ 2^63 - 1 - limit.toInt) :
    (single window limit).Along (Fits window) [] (callsOf k es) :=
  along_fits _ Time.start _ (by simp [Bounded,prune]) (fun x _ => Time.start_le x.2)
    (callsOf_sorted k hclock) (fun x hx => hcost x.1 x.2 (mem_of_mem_callsOf hx))

theorem machine_reduces {κ ω : Type} [DecidableEq κ] (limit : κ → Int64) (k : κ) :
    Reduces (machine window limit) (start [] : KeyedSweep.State _ ω Time) k
      (single window (limit k)) (fun _ _ _ => True) [] :=
  Tracks.reduces machine_keyed (Single.toEntry_simulates _ _) Time.start_le
    ⟨trivial,by simp [start],rfl⟩

end Refinement

section Limiter

variable {PeerID : Type} [DecidableEq PeerID] (env : Env PeerID)

omit [DecidableEq PeerID] in
theorem singleBucket_tracks (window : Duration) (maxRequests : Int64) (p : PeerID) :
    Tracks (SingleBucket.history env) (SingleBucket.Configured window maxRequests) (Agree window)
      p Time.start (start (newSingleBucket window maxRequests) : KeyedSweep.State _ Unit Time) [] :=
  ⟨⟨rfl,rfl⟩,by simp [start],fun _ _ => by simp [start]⟩

theorem singleBucket_reduces (window : Duration) (maxRequests : Int64) (p : PeerID) :
    Reduces (SingleBucket.machine env) (start (newSingleBucket window maxRequests)) p
      (single window maxRequests) (Fits window) [] :=
  (singleBucket_tracks env window maxRequests p).reduces
    (SingleBucket.machine_keyed env window maxRequests) (entry_simulates window maxRequests)
    Time.start_le

end Limiter

section Window

variable {window : Duration} {limit : Int64}

def inWindow (window : Duration) (a : ℤ) (log : List Time) : List Time :=
  log.filter fun t => a < t.ns ∧ t.ns ≤ a + window.toInt

/-- A call admitted inside a window was checked against a window that covers the part of it
that lies before the call. -/
theorem length_inWindow_le_prune {a : ℤ} {now : Time} (h : a < now.ns)
    (h' : now.ns ≤ a + window.toInt) (log : List Time) :
    (inWindow window a log).length ≤ (prune (now.add (-window)) log).length := by
  have hne : window ≠ Duration.minDuration := by
    rintro rfl
    have hmin : Duration.minDuration.toInt = -2^63 := by decide
    omega
  have hcut := Time.add_neg_eq now hne
  apply List.Sublist.length_le
  apply List.monotone_filter_right
  intro t ht
  simp only [Time.after,decide_eq_true_eq] at *
  omega

theorem inWindow_call (log : List Time) (n : Int64) (now : Time)
    (h : ∀ a, ((inWindow window a log).length : ℤ) ≤ max 0 limit.toInt) (a : ℤ) :
    ((inWindow window a ((single window limit).call log n now).1).length : ℤ) ≤
      max 0 limit.toInt := by
  simp only [single]
  split_ifs with hn hle
  · exact h a
  · have hold := h a
    simp only [inWindow,List.filter_append,List.length_append] at *
    by_cases hin : a < now.ns ∧ now.ns ≤ a + window.toInt
    · have hpast := length_inWindow_le_prune hin.1 hin.2 log
      have hcast := cast_toNatClampNeg hn
      have hrep := List.length_filter_le (fun t : Time => a < t.ns ∧ t.ns ≤ a + window.toInt)
        (List.replicate n.toNatClampNeg now)
      simp only [inWindow,List.length_replicate] at *
      omega
    · have hnil : (List.replicate n.toNatClampNeg now).filter
          (fun t : Time => a < t.ns ∧ t.ns ≤ a + window.toInt) = [] := by
        rw [List.filter_eq_nil_iff]
        intro t ht
        simpa [List.eq_of_mem_replicate ht] using hin
      rw [hnil,List.length_nil]
      omega
  · exact h a

theorem inWindow_final (xs : List (Int64 × Time)) (log : List Time)
    (h : ∀ a, ((inWindow window a log).length : ℤ) ≤ max 0 limit.toInt) (a : ℤ) :
    ((inWindow window a ((single window limit).final log xs)).length : ℤ) ≤ max 0 limit.toInt := by
  induction xs generalizing log with
  | nil => exact h a
  | cons x xs ih => exact ih _ (inWindow_call log x.1 x.2 h)

def unitsOf {κ : Type} (r : Reply κ Int64 Bool Time) : List Time :=
  if r.result then List.replicate r.arg.toNatClampNeg r.now else []

theorem final_eq_flatMap (xs : List (Int64 × Time)) (log : List Time) :
    (single window limit).final log xs = log ++
      (xs.zip ((single window limit).results log xs)).flatMap fun x =>
        if x.2 then List.replicate x.1.1.toNatClampNeg x.1.2 else [] := by
  induction xs generalizing log with
  | nil => simp [Single.final,Single.results]
  | cons x xs ih =>
    obtain ⟨n,now⟩ := x
    simp only [Single.final,Single.results,List.zip_cons_cons,List.flatMap_cons,ih]
    rw [← List.append_assoc]
    congr 1
    simp only [single]
    split_ifs with hn hle <;> simp_all [toNatClampNeg_of_nonpos]

theorem length_inWindow_unitsOf {κ : Type} (window : Duration) (a : ℤ)
    (r : Reply κ Int64 Bool Time) :
    (inWindow window a (unitsOf r)).length =
      if r.result ∧ a < r.now.ns ∧ r.now.ns ≤ a + window.toInt then r.arg.toNatClampNeg else 0 := by
  by_cases hr : r.result <;> by_cases hin : a < r.now.ns ∧ r.now.ns ≤ a + window.toInt <;>
    simp [unitsOf,inWindow,hr,hin]

end Window

/-- The total cost of the calls of `p` that were admitted in the window after `a`. -/
def admittedCost {PeerID : Type} [DecidableEq PeerID] (rs : List (Reply PeerID Int64 Bool Time))
    (p : PeerID) (window : Duration) (a : ℤ) : ℕ :=
  ((rs.filter fun r => r.key = p ∧ r.result ∧ a < r.now.ns ∧ r.now.ns ≤ a + window.toInt).map
    fun r => r.arg.toNatClampNeg).sum

theorem admittedCost_eq {PeerID : Type} [DecidableEq PeerID]
    (rs : List (Reply PeerID Int64 Bool Time)) (p : PeerID) (window : Duration) (a : ℤ) :
    admittedCost rs p window a =
      (inWindow window a ((rs.filter (·.key = p)).flatMap unitsOf)).length := by
  induction rs with
  | nil => rfl
  | cons r rs ih =>
    simp only [admittedCost,inWindow] at *
    by_cases hp : r.key = p
    · have hr := length_inWindow_unitsOf window a r
      simp only [inWindow] at hr
      by_cases hin : r.result = true ∧ a < r.now.ns ∧ r.now.ns ≤ a + window.toInt <;>
        simp_all
    · simp_all

/-- The limit holds for every position of the window, over every run. -/
theorem admittedCost_le {PeerID : Type} [DecidableEq PeerID] (env : Env PeerID)
    (window : Duration) (maxRequests : Int64) (es : List (Event PeerID Int64 Unit Time))
    (hclock : Clocked es)
    (hcost : ∀ p n now, .call p n now ∈ es → n.toInt ≤ 2^63 - 1 - maxRequests.toInt)
    (p : PeerID) (a : ℤ) :
    (admittedCost ((SingleBucket.machine env).trace
      (start (newSingleBucket window maxRequests)) es) p window a : ℤ) ≤
      max 0 maxRequests.toInt := by
  have hres := singleBucket_reduces env window maxRequests p es hclock
    (along_fits_of_clocked hclock (hcost p))
  have hfinal : (single window maxRequests).final [] (callsOf p es) =
      (((SingleBucket.machine env).trace (start (newSingleBucket window maxRequests)) es).filter
        (·.key = p)).flatMap unitsOf := by
    rw [final_eq_flatMap,← hres,zip_callsOf_resultsOf,List.nil_append,List.flatMap_map]
    rfl
  rw [admittedCost_eq,← hfinal]
  exact inWindow_final _ _ (fun b => by simp [inWindow]) a

/-- Calls at the two ends of a minute: only one of them lies in the window after its start. -/
theorem admittedCost_le_minute :
    let es : List (Event String Int64 Unit Time) := [.call "p" 5 Time.start,
      .call "p" 5 ⟨60000000000,by norm_num,by norm_num⟩]
    Clocked es ∧ (admittedCost ((SingleBucket.machine textEnv).trace
      (start (newSingleBucket Duration.minute 5)) es) "p" Duration.minute 0 : ℤ) ≤
        max 0 (5 : Int64).toInt := by
  intro es
  have hclock : Clocked es := by simp [es,Clocked,Event.now?,Time.le_def,Time.start]
  refine ⟨hclock,admittedCost_le textEnv Duration.minute 5 es hclock ?_ "p" 0⟩
  intro p n now h
  simp only [es,List.mem_cons,Event.call.injEq,List.not_mem_nil,or_false] at h
  rcases h with ⟨-,rfl,-⟩ | ⟨-,rfl,-⟩ <;> decide

end PlainLog

end P2PForge
