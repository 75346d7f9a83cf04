import P2PForge.TokenBucket

/-! The token bucket against a bucket that is never evicted.
The reference holds one peer's tokens, starts full and sees that peer's calls alone. An
entry and the reference are related by what they will hold from now on, so an evicted
entry is as good as the one it replaces once that one has refilled. -/
namespace P2PForge

open KeyedSweep CreditEnvelope

namespace TokenBucket

variable {PeerID : Type} (env : Env PeerID)

def reference (b : TokenBucket) : Single TokenState Int64 (Bool × Duration) Time where
  call s n now :=
    let r := b.charge env (b.level (some s) now) n now
    (r.1.getD s,r.2)

def full (b : TokenBucket) : TokenState := ⟨b.burst,Time.start⟩

theorem seconds_sub (t u : Time) : (t.sub u).seconds = (t.ns - u.ns) / 1000000000 := by
  simp [Duration.seconds]

theorem seconds_sub_nonneg {t u : Time} (h : u ≤ t) : 0 ≤ (t.sub u).seconds := by
  rw [seconds_sub]
  have hle : (u.ns : ℚ) ≤ t.ns := by exact_mod_cast h
  exact div_nonneg (by linarith) (by norm_num)

theorem seconds_sub_add (t u v : Time) :
    (v.sub u).seconds + (t.sub v).seconds = (t.sub u).seconds := by
  simp only [seconds_sub]
  ring

section Level

variable {b : TokenBucket}

theorem refill_level (hr : 0 ≤ b.refillPerSec) (e : Option TokenState) {now t : Time}
    (h : now ≤ t) :
    refill b.burst b.refillPerSec (b.level e now) (t.sub now).seconds = b.level e t := by
  have hd := seconds_sub_nonneg h
  cases e with
  | none =>
    have hpos := mul_nonneg hd hr
    exact refill_full (by simp only [level]; linarith)
  | some st =>
    simp only [level]
    rw [refill_refill _ _ _ hr hd,seconds_sub_add]

theorem level_touched (hr : 0 ≤ b.refillPerSec) (e : Option TokenState) {now t : Time}
    (h : now ≤ t) : b.level (some ⟨b.level e now,now⟩) t = b.level e t :=
  refill_level hr e h

theorem level_full (hr : 0 ≤ b.refillPerSec) (t : Time) : b.level (some b.full) t = b.burst := by
  have hd := mul_nonneg (seconds_sub_nonneg (Time.start_le t)) hr
  exact refill_full (by simp only [full]; linarith)

/-- An entry that the background pass drops, with whatever sample of the past, is full at
every later time. -/
theorem level_evicted (hr : 0 ≤ b.refillPerSec) {st : TokenState} {now t : Time}
    (hev : b.evictEntry now st = none) (h : now ≤ t) : b.level (some st) t = b.burst := by
  simp only [evictEntry] at hev
  split at hev
  · cases hev
  · split at hev
    · rename_i hfull
      have hle : (now.sub st.last).seconds ≤ (t.sub st.last).seconds := by
        have hd := seconds_sub_nonneg h
        have hs := seconds_sub_add t st.last now
        linarith
      exact refill_full_later hr hfull hle
    · cases hev

theorem evictEntry_eq (b : TokenBucket) (now : Time) (st : TokenState) :
    b.evictEntry now st = none ∨ b.evictEntry now st = some st := by
  simp only [evictEntry]
  split_ifs <;> simp

end Level

/-- From clock reading `c` on, an entry and a single bucket hold the same tokens. -/
def SameLevel (b : TokenBucket) (c : Time) (e : Option TokenState) (s : TokenState) : Prop :=
  ∀ t, c ≤ t → b.level e t = b.level (some s) t

theorem entry_simulates {b : TokenBucket} (hr : 0 ≤ b.refillPerSec) :
    Simulates (b.entry env) (b.reference env) (fun _ _ _ => True) b.SameLevel where
  later _ _ _ _ h hcd t ht := h t (hcd.trans ht)
  call_result c e s n now h hc _ := by simp only [entry,reference,h now hc]
  call_rel c e s n now h hc _ t ht := by
    simp only [entry,reference,h now hc]
    cases b.charge env (b.level (some s) now) n now with
    | mk touched result =>
      cases touched with
      | none => exact h t (hc.trans ht)
      | some st => rfl
  sweep_rel c st s t h htc u hu := by
    have hstay := h u hu
    rcases b.evictEntry_eq t st with hev | hev
    · rw [← hstay,level_evicted hr hev (htc.trans hu)]
      simp only [entry,hev,level]
    · simp only [entry,hev]
      exact hstay

theorem refillPerSec_nonneg (window : Duration) (rate burst : Int64) :
    0 ≤ (newTokenBucket window rate burst).refillPerSec := by
  have hw : 0 ≤ (effectiveWindow window).seconds :=
    div_nonneg (by exact_mod_cast (effectiveWindow_pos window).le) (by norm_num)
  simp only [newTokenBucket]
  split_ifs with h
  · exact le_refl _
  · exact div_nonneg (by exact_mod_cast (toInt_pos h).le) hw

theorem sameLevel_start {b : TokenBucket} (hr : 0 ≤ b.refillPerSec) :
    b.SameLevel Time.start none b.full :=
  fun t _ => (level_full hr t).symm

theorem state_new (window : Duration) (rate burst : Int64) (p : PeerID) :
    (newTokenBucket window rate burst).state env p = none := by
  simp only [newTokenBucket]
  split <;> exact ShardedMap.lookup_empty _ _

theorem SameConfig.refl (b : TokenBucket) : SameConfig b b := ⟨rfl,rfl,rfl,rfl⟩

section Runs

variable [DecidableEq PeerID]

omit [DecidableEq PeerID] in
theorem tracks_start {b : TokenBucket} (hr : 0 ≤ b.refillPerSec)
    (hempty : ∀ p, b.state env p = none) (p : PeerID) :
    Tracks (state env) (SameConfig b) b.SameLevel p Time.start
      (start b : KeyedSweep.State TokenBucket Unit Time) b.full := by
  refine ⟨SameConfig.refl b,by simp [start],?_⟩
  simp only [start,hempty]
  exact sameLevel_start hr

theorem machine_reduces {b : TokenBucket} (hr : 0 ≤ b.refillPerSec)
    (hempty : ∀ p, b.state env p = none) (p : PeerID) :
    Reduces (machine env) (start b) p (b.reference env) (fun _ _ _ => True) b.full :=
  (tracks_start env hr hempty p).reduces (machine_keyed env b) (entry_simulates env hr)
    Time.start_le

theorem dualMachine_reduces {d : DualTokenBucket} (hr : ∀ w, 0 ≤ (d.bucket w).refillPerSec)
    (hempty : ∀ w p, (d.bucket w).state env p = none) (k : PeerID × Bool) :
    Reduces (DualTokenBucket.machine env) (start d) k ((d.bucket k.2).reference env)
      (fun _ _ _ => True) (d.bucket k.2).full := by
  refine Tracks.reduces (DualTokenBucket.machine_keyed env d) (entry_simulates env (hr k.2))
    Time.start_le ⟨fun w => SameConfig.refl _,by simp [start],?_⟩
  simp only [start,hempty]
  exact sameLevel_start (hr k.2)

/-- Sharding, the other peers and eviction are invisible: on every run each peer gets the
answers of a full bucket of its own, and under a dual bucket each peer gets them for reads and
for writes. -/
theorem resultsOf_eq_reference (window : Duration) :
    (∀ (rate burst : Int64) (es : List (Event PeerID Int64 Unit Time)), Clocked es → ∀ p,
      let b := newTokenBucket window rate burst
      resultsOf p ((machine env).trace (start b) es) =
        (b.reference env).results b.full (callsOf p es)) ∧
    (∀ (readRate readBurst writeRate writeBurst : Int64)
      (es : List (Event (PeerID × Bool) Int64 Bool Time)), Clocked es → ∀ p isWrite,
      let d := newDualTokenBucket window readRate readBurst writeRate writeBurst
      let b := d.bucket isWrite
      resultsOf (p,isWrite) ((DualTokenBucket.machine env).trace (start d) es) =
        (b.reference env).results b.full (callsOf (p,isWrite) es)) := by
  refine ⟨fun rate burst es hclock p => ?_,
    fun readRate readBurst writeRate writeBurst es hclock p isWrite => ?_⟩
  · exact machine_reduces env (refillPerSec_nonneg window rate burst)
      (state_new env window rate burst) p es hclock (Single.along_true _ _ _)
  · refine dualMachine_reduces env (fun w => ?_) (fun w => ?_) (p,isWrite) es hclock
      (Single.along_true _ _ _)
    · cases w <;> exact refillPerSec_nonneg _ _ _
    · cases w <;> exact state_new env _ _ _

/-- Two peers with a pass between the calls: each still gets its own full bucket's answers. -/
theorem resultsOf_eq_reference_pass :
    let es : List (Event String Int64 Unit Time) := [.call "p" 3 Time.start,.call "q" 5 Time.start,
      .sample () Time.start,.call "p" 4 Time.start,.visit 0]
    let b := newTokenBucket Duration.minute 10 5
    Clocked es ∧ resultsOf "p" ((machine textEnv).trace (start b) es) =
      (b.reference textEnv).results b.full [(3,Time.start),(4,Time.start)] := by
  intro es b
  have hclock : Clocked es := by simp [es,Clocked,Event.now?,List.filterMap_cons]
  exact ⟨hclock,(resultsOf_eq_reference textEnv Duration.minute).1 10 5 es hclock "p"⟩

end Runs

end TokenBucket

end P2PForge
