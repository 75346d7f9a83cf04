import P2PForge.PlainLog
import P2PForge.TokenConformance

/-! A rejected call leaves no trace.
A rejected call does write: it refills the bucket early, or prunes the log. Neither can be
told from not having made the call, so striking it from a run changes no other answer. -/
namespace P2PForge

open KeyedSweep

namespace TokenBucket

variable {PeerID : Type} (env : Env PeerID) {b : TokenBucket}

theorem reference_call_unseen (hr : 0 ≤ b.refillPerSec) (s : TokenState) (n : Int64) {now : Time}
    (h : ((b.reference env).call s n now).2.1 = false ∨ n ≤ 0) :
    b.SameLevel now (some ((b.reference env).call s n now).1) s := by
  intro t ht
  simp only [reference,charge] at h ⊢
  split_ifs at h ⊢ with hfree hbig hshort
  · rfl
  · rfl
  · exact level_touched hr (some s) ht
  · simp only [Bool.or_eq_true,decide_eq_true_eq,not_or] at hfree
    simp [hfree.2] at h

theorem reference_results_congr (xs : List (Int64 × Time)) {c : Time} {s s' : TokenState}
    (h : b.SameLevel c (some s) s') (hc : ∀ x ∈ xs, c ≤ x.2)
    (hs : (xs.map Prod.snd).Pairwise (· ≤ ·)) :
    (b.reference env).results s xs = (b.reference env).results s' xs := by
  refine (b.reference env).results_congr (fun c s s' => b.SameLevel c (some s) s') ?_ xs h hc hs
  intro c s s' n now hlevel hc
  simp only [reference,hlevel now hc,true_and]
  intro t ht
  cases (b.charge env (b.level (some s') now) n now).1 with
  | none => exact hlevel t (hc.trans ht)
  | some st => rfl

end TokenBucket

namespace SingleBucket

/-- The machine sum of the count and the cost of a call does not wrap. -/
def NoWrap {PeerID : Type} (env : Env PeerID) (b : SingleBucket) (p : PeerID) (n : Int64)
    (now : Time) : Prop :=
  0 < n → (prune (now.add (-b.window)) ((b.history env p).getD [])).length + n.toInt < 2^63

theorem noWrap_of_history {PeerID : Type} {env : Env PeerID} {b : SingleBucket} {p : PeerID}
    {n : Int64} {now : Time} {log : Option (List Time)} (hlog : b.history env p = log)
    (h : (log.getD []).length + n.toInt < 2^63) : NoWrap env b p n now := by
  intro _
  have hprune := List.length_filter_le (·.after (now.add (-b.window))) (log.getD [])
  rw [hlog,prune]
  omega

end SingleBucket

theorem PlainLog.single_call_unseen {window : Duration} {limit : Int64} {log : List Time}
    {n : Int64} {now : Time} (h : ((single window limit).call log n now).2 = false ∨ n ≤ 0) :
    ((single window limit).call log n now).1 = log := by
  simp only [single] at h ⊢
  split_ifs at h ⊢ with hn hle
  · rfl
  · simp [hn] at h
  · rfl

/-- Striking a call that was rejected, or asked for nothing, from a run strikes its own reply
and leaves every other reply as it was. -/
theorem trace_erase_rejected {PeerID : Type} [DecidableEq PeerID] (env : Env PeerID)
    (pre post : List (Event PeerID Int64 Unit Time)) (p : PeerID) (n : Int64) (now : Time)
    (hclock : Clocked (pre ++ .call p n now :: post)) :
    (∀ (window : Duration) (rate burst : Int64),
      let M := TokenBucket.machine env
      let s := start (newTokenBucket window rate burst)
      ((M.run s pre).store.allowNWithRetry env p n now).2.1 = false ∨ n ≤ 0 →
      M.trace s (pre++post) =
        (M.trace s (pre ++ .call p n now :: post)).eraseIdx (M.trace s pre).length) ∧
    (∀ (window : Duration) (maxRequests : Int64),
      let M := SingleBucket.machine env
      let s := start (newSingleBucket window maxRequests)
      M.Always (SingleBucket.NoWrap env) s (pre ++ .call p n now :: post) →
      ((M.run s pre).store.allowN env p n now).2 = false ∨ n ≤ 0 →
      M.trace s (pre++post) =
        (M.trace s (pre ++ .call p n now :: post)).eraseIdx (M.trace s pre).length) := by
  have hcall := hclock.upTo
  have hpost : (∀ x ∈ callsOf p post, now ≤ x.2) ∧
      ((callsOf p post).map Prod.snd).Pairwise (· ≤ ·) := by
    have hs := callsOf_sorted p (hclock.sublist (List.sublist_append_right _ _))
    simp only [callsOf,if_true,List.map_cons,List.pairwise_cons,List.mem_map] at hs
    exact ⟨fun x hx => hs.1 x.2 ⟨x,hx,rfl⟩,hs.2⟩
  constructor
  · intro window rate burst M s hrej
    have hr := TokenBucket.refillPerSec_nonneg window rate burst
    have hred := TokenBucket.machine_reduces env hr (TokenBucket.state_new env window rate burst)
    rw [show ((M.run s pre).store.allowNWithRetry env p n now).2 = _ from
      (hred p).call_run pre n now hcall (Single.along_true _ _ _)] at hrej
    refine trace_erase hred pre post p n now hclock (fun _ => Single.along_true _ _ _)
      (Single.along_true _ _ _) ?_
    exact TokenBucket.reference_results_congr env _
      (TokenBucket.reference_call_unseen env hr _ n hrej) hpost.1 hpost.2
  · intro window maxRequests M s hwrap hrej
    have hred := PlainLog.singleBucket_reduces env window maxRequests
    have hfits (q : PeerID) : (PlainLog.single window maxRequests).Along (PlainLog.Fits window) []
        (callsOf q (pre ++ Event.call p n now :: post)) := by
      refine along_of_always (SingleBucket.machine_keyed env window maxRequests)
        (PlainLog.entry_simulates window maxRequests) ?_ _ Time.start s []
        (PlainLog.singleBucket_tracks env window maxRequests q) hclock
        (fun t _ => Time.start_le t) hwrap
      intro c b log m u hgood hagree hc hno hm
      have hlen := hno hm
      rw [hgood.1,hagree u hc] at hlen
      exact hlen
    have hown := hfits p
    rw [callsOf_append,Single.along_append] at hown
    simp only [callsOf,if_true,Single.Along] at hown
    have hcallfits : (PlainLog.single window maxRequests).Along (PlainLog.Fits window) []
        (callsOf p (pre ++ [Event.call p n now])) := by
      rw [callsOf_append,Single.along_append]
      simp only [callsOf,if_true,Single.Along,and_true]
      exact ⟨hown.1,hown.2.1⟩
    rw [show ((M.run s pre).store.allowN env p n now).2 = _ from
      (hred p).call_run pre n now hcall hcallfits] at hrej
    have hsame := PlainLog.single_call_unseen hrej
    refine trace_erase hred pre post p n now hclock hfits ?_ (by rw [hsame])
    exact hsame ▸ hown.2.2

/-- Once all five units of a minute are used a call for one more is rejected, and may be struck
from between the others. -/
theorem trace_erase_rejected_spent :
    let first : Event String Int64 Unit Time := .call "p" 5 Time.start
    let last : Event String Int64 Unit Time := .call "p" 5 ⟨60000000000,by norm_num,by norm_num⟩
    let run := [first] ++ .call "p" 1 Time.start :: [last]
    let T := TokenBucket.machine textEnv
    let b := start (newTokenBucket Duration.minute 10 5)
    let S := SingleBucket.machine textEnv
    let log := start (newSingleBucket Duration.minute 5)
    Clocked run ∧
    ((T.run b [first]).store.allowNWithRetry textEnv "p" 1 Time.start).2.1 = false ∧
    T.trace b ([first] ++ [last]) = (T.trace b run).eraseIdx (T.trace b [first]).length ∧
    S.Always (SingleBucket.NoWrap textEnv) log run ∧
    ((S.run log [first]).store.allowN textEnv "p" 1 Time.start).2 = false ∧
    S.trace log ([first] ++ [last]) =
      (S.trace log run).eraseIdx (S.trace log [first]).length := by
  intro first last run T b S log
  have hclock : Clocked run := by
    simp [run,first,last,Clocked,Event.now?,Time.le_def,Time.start]
  obtain ⟨htoken,hsingle⟩ :=
    trace_erase_rejected textEnv [first] [last] "p" 1 Time.start hclock
  have hempty : ((T.run b [first]).store.allowN textEnv "p" 1 Time.start).2 = false := by
    rw [← Bool.not_eq_true,TokenBucket.admitted_iff textEnv (by decide) (by decide) hclock.upTo,
      TokenBucket.admitted_first textEnv (by decide) (by decide) (by decide)]
    rintro ⟨_,hspan⟩
    have hboth := hspan Time.start _ [] List.suffix_rfl
    have hburst : (effectiveBurst 10 5).toInt = 5 := by decide
    have hfive : (5 : Int64).toNatClampNeg = 5 := by decide
    have hone : (1 : Int64).toInt = 1 := by decide
    rw [TokenBucket.allowance,hburst] at hboth
    norm_num [TokenBucket.spent,hfive,hone] at hboth
  have hnone : log.store.history textEnv "p" = none := SingleBucket.history_new ..
  have hconfig : SingleBucket.Configured Duration.minute 5 (S.run log [first]).store :=
    SingleBucket.allowN_configured textEnv ⟨rfl,rfl⟩ "p" 5 Time.start
  have hfirst : (S.run log [first]).store.history textEnv "p" =
      some (List.replicate 5 Time.start) := by
    refine (SingleBucket.history_allowN_self textEnv log.store "p" 5 Time.start).trans ?_
    rw [hnone]
    rfl
  have hagain : (SingleBucket.entry Duration.minute 5).call (some (List.replicate 5 Time.start)) 1
      Time.start = (some (List.replicate 5 Time.start),false) := by
    decide
  have hfull : ((S.run log [first]).store.allowN textEnv "p" 1 Time.start).2 = false := by
    rw [SingleBucket.allowN_result,hconfig.1,hconfig.2,hfirst,hagain]
  have hrest : ∀ s : KeyedSweep.State SingleBucket Unit Time,
      SingleBucket.Configured Duration.minute 5 s.store →
      s.store.history textEnv "p" = some (List.replicate 5 Time.start) →
      S.Always (SingleBucket.NoWrap textEnv) s [.call "p" 1 Time.start,last] := by
    intro s hs hlog
    have hsecond : (s.store.allowN textEnv "p" 1 Time.start).1.history textEnv "p" =
        some (List.replicate 5 Time.start) := by
      rw [SingleBucket.history_allowN_self,hs.1,hs.2,hlog,hagain]
    refine ⟨?_,?_,trivial⟩
    · intro p n now hcall
      obtain ⟨rfl,rfl,rfl⟩ := Event.call.inj hcall
      exact SingleBucket.noWrap_of_history hlog (by decide)
    · intro p n now hcall
      obtain ⟨rfl,rfl,rfl⟩ := Event.call.inj hcall
      exact SingleBucket.noWrap_of_history hsecond (by decide)
  have hwrap : S.Always (SingleBucket.NoWrap textEnv) log run := by
    refine ⟨?_,hrest _ hconfig hfirst⟩
    intro p n now hcall
    obtain ⟨rfl,rfl,rfl⟩ := Event.call.inj hcall
    exact SingleBucket.noWrap_of_history hnone (by decide)
  exact ⟨hclock,hempty,htoken Duration.minute 10 5 (.inl hempty),hwrap,hfull,
    hsingle Duration.minute 5 hwrap (.inl hfull)⟩

end P2PForge
