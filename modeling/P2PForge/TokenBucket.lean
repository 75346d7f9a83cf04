import P2PForge.SingleBucket
import P2PForge.CreditEnvelope

/-! The token bucket of `middleware/tokenbucket.go`, with token counts read as rationals.
A peer's bucket is refilled when it is touched. A peer without an entry has a full bucket,
which is what the background pass relies on when it forgets an entry. -/
namespace P2PForge

open ShardedMap KeyedSweep CreditEnvelope

structure TokenState where
  tokens : ℚ
  last : Time

structure TokenBucket where
  shards : Shards String TokenState defaultShardCount
  refillPerSec : ℚ
  burst : ℚ
  unlimited : Bool
  idleTTL : Duration

/-- The window a bucket is built with: a window of zero or less is a minute. -/
def effectiveWindow (window : Duration) : Duration :=
  if window ≤ 0 then Duration.minute else window

theorem effectiveWindow_pos (window : Duration) : 0 < (effectiveWindow window).toInt := by
  unfold effectiveWindow
  split_ifs with h
  · decide
  · exact toInt_pos h

/-- The capacity a bucket is built with: a burst of zero or less defaults to the rate. -/
def effectiveBurst (rate burst : Int64) : Int64 := if burst ≤ 0 then rate else burst

def newTokenBucket (window : Duration) (rate burst : Int64) : TokenBucket :=
  let window := effectiveWindow window
  if rate ≤ 0 then
    {shards := ShardedMap.empty,refillPerSec := 0,burst := 0,unlimited := true,idleTTL := 0}
  else
    {shards := ShardedMap.empty
     refillPerSec := rate.toInt / window.seconds
     burst := (effectiveBurst rate burst).toInt
     unlimited := false
     idleTTL := 2 * window}

/-- The time a bucket needs to cover a shortfall, a millisecond more than the nearest one. -/
def refillWait {PeerID : Type} (env : Env PeerID) (shortfall refillPerSec : ℚ) : Duration :=
  if shortfall ≤ 0 ∨ refillPerSec ≤ 0 then 0
  else
    let d := env.int64OfFloat (shortfall / refillPerSec * 1000000000)
    if d ≤ 0 then Duration.millisecond
    else d.round Duration.millisecond + Duration.millisecond

namespace TokenBucket

variable {PeerID : Type} (env : Env PeerID)

def allowNWithRetry (b : TokenBucket) (peerID : PeerID) (n : Int64) (now : Time) :
    TokenBucket × Bool × Duration :=
  if b.unlimited || n ≤ 0 then (b,true,0)
  else
    let cost : ℚ := n.toInt
    if cost > b.burst then (b,false,0)
    else
      let key := env.peerString peerID
      let st : TokenState :=
        match lookup shardOf b.shards key with
        -- a peer not seen, or since evicted, starts full
        | none => ⟨b.burst,now⟩
        | some st =>
          let tokens := st.tokens + (now.sub st.last).seconds * b.refillPerSec
          ⟨if tokens > b.burst then b.burst else tokens,now⟩
      if st.tokens < cost then
        ({b with shards := store shardOf b.shards key st},false,
          refillWait env (cost - st.tokens) b.refillPerSec)
      else
        let charged : TokenState := {st with tokens := st.tokens - cost}
        ({b with shards := store shardOf b.shards key charged},true,0)

def allowN (b : TokenBucket) (peerID : PeerID) (n : Int64) (now : Time) : TokenBucket × Bool :=
  let r := b.allowNWithRetry env peerID n now
  (r.1,r.2.1)

def allow (b : TokenBucket) (peerID : PeerID) (now : Time) : TokenBucket × Bool :=
  b.allowN env peerID 1 now

/-- What the background pass does to one entry; `now` may be older than the entry. -/
def evictEntry (b : TokenBucket) (now : Time) (st : TokenState) : Option TokenState :=
  if now.sub st.last < b.idleTTL then some st
  else if st.tokens + (now.sub st.last).seconds * b.refillPerSec ≥ b.burst then none
  else some st

def evictShard (b : TokenBucket) (now : Time) (i : ℕ) : TokenBucket :=
  {b with shards := sweep b.shards i (b.evictEntry now)}

/-- Calls and background passes, interleaved at the granularity of the shards' locks. -/
def machine : Machine TokenBucket PeerID Int64 (Bool × Duration) Unit Time where
  parts := defaultShardCount
  call b p n now := b.allowNWithRetry env p n now
  visit b _ i now := b.evictShard now i

def state (b : TokenBucket) (p : PeerID) : Option TokenState :=
  lookup shardOf b.shards (env.peerString p)

def level (b : TokenBucket) (e : Option TokenState) (now : Time) : ℚ :=
  match e with
  | none => b.burst
  | some st => refill b.burst b.refillPerSec st.tokens (now.sub st.last).seconds

/-- The answer to a call at a level, with the bucket it leaves behind unless the call does not
look at the bucket at all. -/
def charge (b : TokenBucket) (level : ℚ) (n : Int64) (now : Time) :
    Option TokenState × Bool × Duration :=
  if b.unlimited || n ≤ 0 then (none,true,0)
  else
    let cost : ℚ := n.toInt
    if cost > b.burst then (none,false,0)
    else if level < cost then (some ⟨level,now⟩,false,refillWait env (cost - level) b.refillPerSec)
    else (some ⟨level - cost,now⟩,true,0)

def entry (b : TokenBucket) : Entry TokenState Int64 (Bool × Duration) Time where
  call e n now := ((b.charge env (b.level e now) n now).1.or e,
    (b.charge env (b.level e now) n now).2)
  sweep now st := b.evictEntry now st

theorem touched_eq (b : TokenBucket) (e : Option TokenState) (now : Time) :
    (match e with
      | none => (⟨b.burst,now⟩ : TokenState)
      | some st =>
        let tokens := st.tokens + (now.sub st.last).seconds * b.refillPerSec
        ⟨if tokens > b.burst then b.burst else tokens,now⟩) = ⟨b.level e now,now⟩ := by
  cases e with
  | none => rfl
  | some st =>
    simp only [level,refill,TokenState.mk.injEq,and_true]
    split
    · rename_i h
      rw [min_eq_left h.le]
    · rename_i h
      rw [min_eq_right (not_lt.mp h)]

theorem allowNWithRetry_eq (b : TokenBucket) (p : PeerID) (n : Int64) (now : Time) :
    b.allowNWithRetry env p n now =
      (match (b.charge env (b.level (b.state env p) now) n now).1 with
        | none => b
        | some st => {b with shards := store shardOf b.shards (env.peerString p) st},
      (b.charge env (b.level (b.state env p) now) n now).2) := by
  have hstate : lookup shardOf b.shards (env.peerString p) = b.state env p := rfl
  simp only [allowNWithRetry,charge,hstate,touched_eq]
  split_ifs <;> rfl

def SameConfig (b b' : TokenBucket) : Prop :=
  b'.refillPerSec = b.refillPerSec ∧ b'.burst = b.burst ∧ b'.unlimited = b.unlimited ∧
    b'.idleTTL = b.idleTTL

theorem SameConfig.level_eq {b b' : TokenBucket} (h : SameConfig b b') : b'.level = b.level := by
  funext e now
  cases e <;> simp [level,h.1,h.2.1]

theorem entry_congr {b b' : TokenBucket} (h : SameConfig b b') : b'.entry env = b.entry env := by
  have hlevel := h.level_eq
  obtain ⟨hr,hb,hu,ht⟩ := h
  have hcharge : b'.charge env = b.charge env := by
    funext x n now
    simp [charge,hr,hb,hu]
  have hevict : b'.evictEntry = b.evictEntry := by
    funext now st
    simp [evictEntry,hr,hb,ht]
  simp [entry,hlevel,hcharge,hevict]

theorem allowNWithRetry_sameConfig {b b' : TokenBucket} (h : SameConfig b b') (p : PeerID)
    (n : Int64) (now : Time) : SameConfig b (b'.allowNWithRetry env p n now).1 := by
  rw [allowNWithRetry_eq]
  split <;> exact h

theorem state_allowNWithRetry_self (b : TokenBucket) (p : PeerID) (n : Int64) (now : Time) :
    (b.allowNWithRetry env p n now).1.state env p =
      ((b.entry env).call (b.state env p) n now).1 := by
  simp only [allowNWithRetry_eq,entry]
  split
  · rename_i h
    simp [h]
  · rename_i st h
    rw [h]
    exact lookup_store_self _ _ _ _

/-- Peers have different texts, so a call leaves the buckets of the other peers alone even when
they share its shard. -/
theorem state_allowNWithRetry_other (b : TokenBucket) {p q : PeerID} (hq : q ≠ p) (n : Int64)
    (now : Time) : (b.allowNWithRetry env p n now).1.state env q = b.state env q := by
  have hkey : env.peerString q ≠ env.peerString p := fun h => hq (env.peerString.injective h)
  simp only [allowNWithRetry_eq]
  split
  · rfl
  · exact lookup_store_ne _ _ _ hkey

theorem state_evictShard (b : TokenBucket) (now : Time) (i : ℕ) (p : PeerID) :
    (b.evictShard now i).state env p = b.state env p ∨
      (b.evictShard now i).state env p = (b.state env p).bind (b.evictEntry now) :=
  lookup_sweep _ _ _ _ _

theorem machine_keyed (b : TokenBucket) :
    Keyed (machine env) (fun _ => b.entry env) (state env) (SameConfig b) where
  call_good _ p n now h := allowNWithRetry_sameConfig env h p n now
  visit_good _ _ _ _ h := h
  call_result b' p n now h := by
    rw [← entry_congr env h]
    simp only [machine,allowNWithRetry_eq,entry]
  call_view b' p n now h := by
    rw [← entry_congr env h]
    exact state_allowNWithRetry_self env b' p n now
  call_frame b' p n now q _ hq := state_allowNWithRetry_other env b' hq n now
  visit_view b' _ i now p h := by
    rw [← entry_congr env h]
    exact state_evictShard env b' now i p

end TokenBucket

structure DualTokenBucket where
  read : TokenBucket
  write : TokenBucket

def newDualTokenBucket (window : Duration) (readRate readBurst writeRate writeBurst : Int64) :
    DualTokenBucket :=
  ⟨newTokenBucket window readRate readBurst,newTokenBucket window writeRate writeBurst⟩

namespace DualTokenBucket

variable {PeerID : Type} (env : Env PeerID)

def allowNWithRetry (d : DualTokenBucket) (peerID : PeerID) (n : Int64) (isWrite : Bool)
    (now : Time) : DualTokenBucket × Bool × Duration :=
  if isWrite then
    let r := d.write.allowNWithRetry env peerID n now
    ({d with write := r.1},r.2)
  else
    let r := d.read.allowNWithRetry env peerID n now
    ({d with read := r.1},r.2)

def allowN (d : DualTokenBucket) (peerID : PeerID) (n : Int64) (isWrite : Bool) (now : Time) :
    DualTokenBucket × Bool :=
  let r := d.allowNWithRetry env peerID n isWrite now
  (r.1,r.2.1)

def allow (d : DualTokenBucket) (peerID : PeerID) (isWrite : Bool) (now : Time) :
    DualTokenBucket × Bool :=
  d.allowN env peerID 1 isWrite now

def bucket (d : DualTokenBucket) (isWrite : Bool) : TokenBucket :=
  if isWrite then d.write else d.read

/-- Each of the two buckets has its own background pass. -/
def machine : Machine DualTokenBucket (PeerID × Bool) Int64 (Bool × Duration) Bool Time where
  parts := defaultShardCount
  call d k n now := d.allowNWithRetry env k.1 n k.2 now
  visit d isWrite i now :=
    if isWrite then {d with write := d.write.evictShard now i}
    else {d with read := d.read.evictShard now i}

theorem bucket_allowNWithRetry_self (d : DualTokenBucket) (p : PeerID) (n : Int64) (w : Bool)
    (now : Time) : (d.allowNWithRetry env p n w now).1.bucket w =
      ((d.bucket w).allowNWithRetry env p n now).1 := by
  cases w <;> simp [allowNWithRetry,bucket]

theorem bucket_allowNWithRetry_other (d : DualTokenBucket) (p : PeerID) (n : Int64) {w v : Bool}
    (hv : v ≠ w) (now : Time) : (d.allowNWithRetry env p n w now).1.bucket v = d.bucket v := by
  cases w <;> cases v <;> simp_all [allowNWithRetry,bucket]

theorem allowNWithRetry_result (d : DualTokenBucket) (p : PeerID) (n : Int64) (w : Bool)
    (now : Time) : (d.allowNWithRetry env p n w now).2 =
      ((d.bucket w).allowNWithRetry env p n now).2 := by
  cases w <;> simp [allowNWithRetry,bucket]

theorem bucket_visit (d : DualTokenBucket) (w : Bool) (i : ℕ) (now : Time) (v : Bool) :
    ((machine env).visit d w i now).bucket v = d.bucket v ∨ ∃ u : Unit,
      ((machine env).visit d w i now).bucket v =
        (TokenBucket.machine env).visit (d.bucket v) u i now := by
  cases w <;> cases v <;> simp [machine,TokenBucket.machine,bucket]

theorem machine_keyed (d : DualTokenBucket) :
    Keyed (machine env) (fun k : PeerID × Bool => (d.bucket k.2).entry env)
      (fun d' k => (d'.bucket k.2).state env k.1)
      (fun d' => ∀ w, TokenBucket.SameConfig (d.bucket w) (d'.bucket w)) :=
  Keyed.halves (fun w => TokenBucket.machine_keyed env (d.bucket w))
    (fun d p w n now => bucket_allowNWithRetry_self env d p n w now)
    (fun d p _ n now _ hv => bucket_allowNWithRetry_other env d p n hv now)
    (fun d p w n now => allowNWithRetry_result env d p n w now)
    (fun d w i now v => bucket_visit env d w i now v)

end DualTokenBucket

end P2PForge
