import P2PForge.LimiterErasure

/-! Costs near the end of the integers.
`AllowN` adds the cost of a call to the length of a log in 64-bit arithmetic. The cost is
whatever the caller computed from the request; if the sum wraps it is negative, and a call that
exceeds every limit is admitted. -/
namespace P2PForge.SingleBucket

open KeyedSweep

variable {PeerID : Type} (env : Env PeerID)

def inWindow (b : SingleBucket) (p : PeerID) (now : Time) : List Time :=
  prune (now.add (-b.window)) ((b.history env p).getD [])

def exactSum (b : SingleBucket) (p : PeerID) (n : Int64) (now : Time) : ℤ :=
  (b.inWindow env p now).length + n.toInt

/-- A call for something is admitted only if it fits the limit, and otherwise is rejected and
leaves no unit behind. -/
def NotOverAdmitted (b : SingleBucket) (p : PeerID) (n : Int64) (now : Time) : Prop :=
  0 < n →
    ((b.allowN env p n now).2 = true → b.exactSum env p n now ≤ b.maxRequests.toInt) ∧
    (¬ b.exactSum env p n now ≤ b.maxRequests.toInt → (b.allowN env p n now).2 = false ∧
      (b.allowN env p n now).1.history env p = some (b.inWindow env p now))

/-- The machine sum is the exact one, or still exceeds the limit after it has wrapped. -/
def SumDecides (b : SingleBucket) (p : PeerID) (n : Int64) (now : Time) : Prop :=
  0 < n → b.exactSum env p n now < 2^63 ∨ b.maxRequests.toInt < b.exactSum env p n now - 2^64

def LogsFit (b : SingleBucket) : Prop := ∀ p, ((b.history env p).getD []).length < 2^63

variable {env}

theorem exceeds_wrapped {len : ℕ} {n maxRequests : Int64} (hlen : len < 2^63)
    (h : ¬ len + n.toInt < 2^63) :
    Int64.ofNat len + n > maxRequests ↔ maxRequests.toInt < len + n.toInt - 2^64 := by
  have hn := n.toInt_lt
  have hcast : (Int64.ofNat len).toInt = len := Int64.toInt_ofNat_of_lt hlen
  rw [gt_iff_lt,Int64.lt_iff_toInt_lt,Int64.toInt_add,hcast,
    bmod_wrapped (by omega) (by omega)]

theorem allowN_of_pos (env : Env PeerID) (b : SingleBucket) (p : PeerID) {n : Int64} (now : Time)
    (hn : 0 < n) :
    ((b.allowN env p n now).1.history env p,(b.allowN env p n now).2) =
      if Int64.ofNat (b.inWindow env p now).length + n > b.maxRequests then
        (some (b.inWindow env p now),false)
      else (some (b.inWindow env p now ++ List.replicate n.toNatClampNeg now),true) := by
  rw [allowN_result,history_allowN_self,Prod.mk.eta]
  exact if_neg (Int64.not_le.mpr hn)

theorem allowN_exceeds {b : SingleBucket} {p : PeerID} {n : Int64} {now : Time} (hn : 0 < n)
    (h : Int64.ofNat (b.inWindow env p now).length + n > b.maxRequests) :
    (b.allowN env p n now).2 = false ∧
      (b.allowN env p n now).1.history env p = some (b.inWindow env p now) := by
  have hcall := allowN_of_pos env b p now hn
  rw [if_pos h] at hcall
  exact (Prod.mk.inj hcall).symm

theorem allowN_admits {b : SingleBucket} {p : PeerID} {n : Int64} {now : Time} (hn : 0 < n)
    (h : ¬ Int64.ofNat (b.inWindow env p now).length + n > b.maxRequests) :
    (b.allowN env p n now).2 = true ∧ (b.allowN env p n now).1.history env p =
      some (b.inWindow env p now ++ List.replicate n.toNatClampNeg now) := by
  have hcall := allowN_of_pos env b p now hn
  rw [if_neg h] at hcall
  exact (Prod.mk.inj hcall).symm

theorem LogsFit.inWindow_lt {b : SingleBucket} (h : LogsFit env b) (p : PeerID) (now : Time) :
    (b.inWindow env p now).length < 2^63 :=
  lt_of_le_of_lt (List.length_filter_le _ _) (h p)

/-- Where the machine decides as the exact sum does, the call is right; elsewhere it is admitted
although it exceeds every limit there is. -/
theorem LogsFit.notOverAdmitted_iff {b : SingleBucket} (h : LogsFit env b) (p : PeerID)
    (n : Int64) (now : Time) : NotOverAdmitted env b p n now ↔ SumDecides env b p n now := by
  refine imp_congr_right fun hn => ?_
  have hlen := h.inWindow_lt p now
  by_cases hfits : b.exactSum env p n now < 2^63
  · have hexact : Int64.ofNat (b.inWindow env p now).length + n > b.maxRequests ↔
        ¬ b.exactSum env p n now ≤ b.maxRequests.toInt := PlainLog.exceeds_iff hn hfits
    refine iff_of_true ⟨?_,fun hover => allowN_exceeds hn (hexact.mpr hover)⟩ (Or.inl hfits)
    intro htrue
    by_contra hover
    rw [(allowN_exceeds hn (hexact.mpr hover)).1] at htrue
    cases htrue
  · have hover : ¬ b.exactSum env p n now ≤ b.maxRequests.toInt := by
      have := b.maxRequests.toInt_lt
      omega
    have hwrapped : Int64.ofNat (b.inWindow env p now).length + n > b.maxRequests ↔
        b.maxRequests.toInt < b.exactSum env p n now - 2^64 := exceeds_wrapped hlen hfits
    simp only [hfits,false_or]
    constructor
    · rintro ⟨_,hrejected⟩
      by_contra hnot
      have htrue := (allowN_admits hn fun hexceeds => hnot (hwrapped.mp hexceeds)).1
      rw [(hrejected hover).1] at htrue
      cases htrue
    · intro hlimit
      have hrejected := allowN_exceeds hn (hwrapped.mpr hlimit)
      refine ⟨?_,fun _ => hrejected⟩
      intro htrue
      rw [hrejected.1] at htrue
      cases htrue

theorem LogsFit.allowN {b : SingleBucket} (h : LogsFit env b) {p : PeerID} {n : Int64}
    {now : Time} (hright : NotOverAdmitted env b p n now) :
    LogsFit env (b.allowN env p n now).1 := by
  intro q
  by_cases hq : q = p
  · subst hq
    by_cases hn : 0 < n
    · by_cases hexceeds : Int64.ofNat (b.inWindow env q now).length + n > b.maxRequests
      · rw [(allowN_exceeds hn hexceeds).2]
        exact h.inWindow_lt q now
      · obtain ⟨htrue,hlog⟩ := allowN_admits hn hexceeds
        have hsum := (hright hn).1 htrue
        have hmax := b.maxRequests.toInt_lt
        have hpos : 0 < n.toInt := by simpa [Int64.lt_iff_toInt_lt] using hn
        have hclamp : n.toNatClampNeg = n.toInt.toNat := rfl
        rw [hlog,Option.getD_some,List.length_append,List.length_replicate]
        simp only [exactSum] at hsum
        omega
    · simp only [SingleBucket.allowN,if_pos (Int64.not_lt.mp hn)]
      exact h q
  · rw [history_allowN_other env b hq]
    exact h q

theorem LogsFit.cleanupShard {b : SingleBucket} (h : LogsFit env b) (cutoff : ℤ) (i : ℕ) :
    LogsFit env (b.cleanupShard cutoff i) := by
  intro p
  have hlog := h p
  rcases history_cleanupShard env b cutoff i p with hkept | hswept
  · rwa [hkept]
  · rw [hswept]
    cases hold : b.history env p with
    | none => simp
    | some times =>
      rw [hold] at hlog
      rw [Option.bind_some,PlainLog.getD_cleanupLog]
      exact lt_of_le_of_lt (List.length_filter_le _ _) hlog

/-- Along a run no call is admitted over the limit, and none that does not fit records anything,
exactly if at every call the machine sum decides as the exact one. -/
theorem notOverAdmitted_always_iff (window : Duration) (maxRequests : Int64)
    (es : List (Event PeerID Int64 Unit Time)) :
    (machine env).Always (NotOverAdmitted env) (start (newSingleBucket window maxRequests)) es ↔
      (machine env).Always (SumDecides env) (start (newSingleBucket window maxRequests)) es := by
  have hnew : LogsFit env (newSingleBucket window maxRequests) := by
    intro p
    simp
  exact (machine env).always_iff (fun _ p n now h => h.notOverAdmitted_iff p n now)
    (fun _ _ _ _ h hright => h.allowN hright) (fun _ _ i _ h => h.cleanupShard _ i) es hnew

/-- With a limit of five, one unit on the log and the largest cost there is, the sum wraps to the
least integer and the call is let in. -/
theorem allowN_maxInt_admitted :
    let b := ((newSingleBucket Duration.minute 5).allowN textEnv "p" 1 Time.start).1
    b.exactSum textEnv "p" Int64.maxValue Time.start = 2^63 ∧
      (b.allowN textEnv "p" Int64.maxValue Time.start).2 = true ∧
      ¬ (machine textEnv).Always (NotOverAdmitted textEnv)
        (start (newSingleBucket Duration.minute 5))
        [.call "p" 1 Time.start,.call "p" Int64.maxValue Time.start] := by
  intro b
  have hempty : (newSingleBucket Duration.minute 5).inWindow textEnv "p" Time.start = [] := by
    simp [inWindow,prune]
  have hfirst : b.history textEnv "p" = some [Time.start] := by
    have hcall := allowN_of_pos textEnv (newSingleBucket Duration.minute 5) "p" Time.start
      (show (0 : Int64) < 1 by decide)
    rw [hempty] at hcall
    exact (Prod.mk.inj hcall).1
  have hconfig : Configured Duration.minute 5 b := allowN_configured textEnv ⟨rfl,rfl⟩ "p" 1 _
  have hunit : b.inWindow textEnv "p" Time.start = [Time.start] := by
    rw [inWindow,hfirst,hconfig.1]
    rfl
  have hsum : b.exactSum textEnv "p" Int64.maxValue Time.start = 2^63 := by
    rw [exactSum,hunit]
    rfl
  have hadmitted : (b.allowN textEnv "p" Int64.maxValue Time.start).2 = true := by
    refine (allowN_admits (by decide) ?_).1
    rw [hunit,hconfig.2]
    decide
  refine ⟨hsum,hadmitted,?_⟩
  intro halways
  have hright : NotOverAdmitted textEnv b "p" Int64.maxValue Time.start :=
    halways.2.1 "p" Int64.maxValue Time.start rfl
  have hle := (hright (by decide)).1 hadmitted
  rw [hsum,hconfig.2] at hle
  exact absurd hle (by decide)

end P2PForge.SingleBucket
