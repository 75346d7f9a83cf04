import P2PForge.Clock
import P2PForge.ShardedMap
import P2PForge.KeyedSweep

/-! The sliding-window limiter of `middleware/ratelimit.go`.
A call under a shard's lock is one step; the background pass samples the clock once and
then takes the shards' locks one after the other. A peer's log lists one clock reading for
each unit that was admitted. -/
namespace P2PForge

open ShardedMap KeyedSweep

def defaultShardCount : ℕ := 64

/-- 64-bit FNV-1a. -/
def fnvHash (s : String) : UInt64 :=
  s.toUTF8.foldl (fun h b => (h ^^^ b.toUInt64) * 1099511628211) 14695981039346656037

def shardOf (key : String) : Fin defaultShardCount :=
  ⟨(fnvHash key).toNat % defaultShardCount,Nat.mod_lt _ (by decide)⟩

instance lawfulHashableString : LawfulHashable String := inferInstance

structure SingleBucket where
  shards : Shards String (List Time) defaultShardCount
  window : Duration
  maxRequests : Int64

def newSingleBucket (window : Duration) (maxRequests : Int64) : SingleBucket :=
  ⟨ShardedMap.empty,window,maxRequests⟩

/-- The in-place filter of `history[:0]`. -/
def prune (cutoff : ℤ) (history : List Time) : List Time :=
  history.filter (·.after cutoff)

namespace SingleBucket

variable {PeerID : Type} (env : Env PeerID)

def allowN (b : SingleBucket) (peerID : PeerID) (n : Int64) (now : Time) : SingleBucket × Bool :=
  if n ≤ 0 then (b,true)
  else
    let key := env.peerString peerID
    let cutoff := now.add (-b.window)
    let filtered := prune cutoff ((lookup shardOf b.shards key).getD [])
    -- `len(filtered)+n` is 64-bit arithmetic and may wrap
    if Int64.ofNat filtered.length + n > b.maxRequests then
      ({b with shards := store shardOf b.shards key filtered},false)
    else
      let recorded := filtered ++ List.replicate n.toNatClampNeg now
      ({b with shards := store shardOf b.shards key recorded},true)

def allow (b : SingleBucket) (peerID : PeerID) (now : Time) : SingleBucket × Bool :=
  b.allowN env peerID 1 now

/-- What the background pass does to one peer's log; an empty log is deleted. -/
def cleanupLog (cutoff : ℤ) (times : List Time) : Option (List Time) :=
  let filtered := prune cutoff times
  if filtered.length = 0 then none else some filtered

def cleanupShard (b : SingleBucket) (cutoff : ℤ) (i : ℕ) : SingleBucket :=
  {b with shards := sweep b.shards i (cleanupLog cutoff)}

/-- Calls and background passes, interleaved at the granularity of the shards' locks. -/
def machine : Machine SingleBucket PeerID Int64 Bool Unit Time where
  parts := defaultShardCount
  call b p n now := b.allowN env p n now
  visit b _ i now := b.cleanupShard (now.add (-b.window)) i

def entry (window : Duration) (maxRequests : Int64) : Entry (List Time) Int64 Bool Time where
  call e n now :=
    if n ≤ 0 then (e,true)
    else
      let cutoff := now.add (-window)
      let filtered := prune cutoff (e.getD [])
      if Int64.ofNat filtered.length + n > maxRequests then (some filtered,false)
      else (some (filtered ++ List.replicate n.toNatClampNeg now),true)
  sweep now times := cleanupLog (now.add (-window)) times

def history (b : SingleBucket) (p : PeerID) : Option (List Time) :=
  lookup shardOf b.shards (env.peerString p)

@[simp] theorem history_new (window : Duration) (maxRequests : Int64) (p : PeerID) :
    (newSingleBucket window maxRequests).history env p = none :=
  lookup_empty _ _

def Configured (window : Duration) (maxRequests : Int64) (b : SingleBucket) : Prop :=
  b.window = window ∧ b.maxRequests = maxRequests

theorem allowN_configured {window : Duration} {maxRequests : Int64} {b : SingleBucket}
    (h : Configured window maxRequests b) (p : PeerID) (n : Int64) (now : Time) :
    Configured window maxRequests (b.allowN env p n now).1 := by
  simp only [allowN]
  split
  · exact h
  · split <;> exact h

theorem allowN_result (b : SingleBucket) (p : PeerID) (n : Int64) (now : Time) :
    (b.allowN env p n now).2 =
      ((entry b.window b.maxRequests).call (b.history env p) n now).2 := by
  simp only [allowN,entry,history]
  split_ifs <;> rfl

theorem history_allowN_self (b : SingleBucket) (p : PeerID) (n : Int64) (now : Time) :
    (b.allowN env p n now).1.history env p =
      ((entry b.window b.maxRequests).call (b.history env p) n now).1 := by
  simp only [allowN,entry,history]
  split_ifs <;> simp

/-- Peers have different texts, so a call leaves the logs of the other peers alone even when
they share its shard. -/
theorem history_allowN_other (b : SingleBucket) {p q : PeerID} (hq : q ≠ p) (n : Int64)
    (now : Time) : (b.allowN env p n now).1.history env q = b.history env q := by
  have hkey : env.peerString q ≠ env.peerString p := fun h => hq (env.peerString.injective h)
  simp only [allowN,history]
  split
  · rfl
  · split <;> exact lookup_store_ne _ _ _ hkey

theorem history_cleanupShard (b : SingleBucket) (cutoff : ℤ) (i : ℕ) (p : PeerID) :
    (b.cleanupShard cutoff i).history env p = b.history env p ∨
      (b.cleanupShard cutoff i).history env p = (b.history env p).bind (cleanupLog cutoff) :=
  lookup_sweep _ _ _ _ _

theorem machine_keyed (window : Duration) (maxRequests : Int64) :
    Keyed (machine env) (fun _ => entry window maxRequests) (history env)
      (Configured window maxRequests) where
  call_good _ p n now h := allowN_configured env h p n now
  visit_good _ _ _ _ h := h
  call_result b p n now h := by
    obtain ⟨rfl,rfl⟩ := h
    exact allowN_result env b p n now
  call_view b p n now h := by
    obtain ⟨rfl,rfl⟩ := h
    exact history_allowN_self env b p n now
  call_frame b p n now q _ hq := history_allowN_other env b hq n now
  visit_view b _ i now p h := by
    obtain ⟨rfl,rfl⟩ := h
    exact history_cleanupShard env b _ i p

end SingleBucket

structure DualBucket where
  read : SingleBucket
  write : SingleBucket

namespace DualBucket

variable {PeerID : Type} (env : Env PeerID)

def allowN (d : DualBucket) (peerID : PeerID) (n : Int64) (isWrite : Bool) (now : Time) :
    DualBucket × Bool :=
  if isWrite then
    let r := d.write.allowN env peerID n now
    ({d with write := r.1},r.2)
  else
    let r := d.read.allowN env peerID n now
    ({d with read := r.1},r.2)

def allow (d : DualBucket) (peerID : PeerID) (isWrite : Bool) (now : Time) : DualBucket × Bool :=
  d.allowN env peerID 1 isWrite now

def bucket (d : DualBucket) (isWrite : Bool) : SingleBucket := if isWrite then d.write else d.read

/-- Each of the two limiters has its own background pass. -/
def machine : Machine DualBucket (PeerID × Bool) Int64 Bool Bool Time where
  parts := defaultShardCount
  call d k n now := d.allowN env k.1 n k.2 now
  visit d isWrite i now :=
    if isWrite then {d with write := d.write.cleanupShard (now.add (-d.write.window)) i}
    else {d with read := d.read.cleanupShard (now.add (-d.read.window)) i}

theorem bucket_allowN_self (d : DualBucket) (p : PeerID) (n : Int64) (w : Bool) (now : Time) :
    (d.allowN env p n w now).1.bucket w = ((d.bucket w).allowN env p n now).1 := by
  cases w <;> simp [allowN,bucket]

theorem bucket_allowN_other (d : DualBucket) (p : PeerID) (n : Int64) {w v : Bool} (hv : v ≠ w)
    (now : Time) : (d.allowN env p n w now).1.bucket v = d.bucket v := by
  cases w <;> cases v <;> simp_all [allowN,bucket]

theorem allowN_result (d : DualBucket) (p : PeerID) (n : Int64) (w : Bool) (now : Time) :
    (d.allowN env p n w now).2 = ((d.bucket w).allowN env p n now).2 := by
  cases w <;> simp [allowN,bucket]

theorem bucket_visit (d : DualBucket) (w : Bool) (i : ℕ) (now : Time) (v : Bool) :
    ((machine env).visit d w i now).bucket v = d.bucket v ∨ ∃ u : Unit,
      ((machine env).visit d w i now).bucket v =
        (SingleBucket.machine env).visit (d.bucket v) u i now := by
  cases w <;> cases v <;> simp [machine,SingleBucket.machine,bucket]

def limit (maxRead maxWrite : Int64) (isWrite : Bool) : Int64 :=
  if isWrite then maxWrite else maxRead

theorem machine_keyed (window : Duration) (maxRead maxWrite : Int64) :
    Keyed (machine env)
      (fun k : PeerID × Bool => SingleBucket.entry window (limit maxRead maxWrite k.2))
      (fun d k => (d.bucket k.2).history env k.1)
      (fun d => ∀ w, SingleBucket.Configured window (limit maxRead maxWrite w) (d.bucket w)) :=
  Keyed.halves (fun w => SingleBucket.machine_keyed env window (limit maxRead maxWrite w))
    (fun d p w n now => bucket_allowN_self env d p n w now)
    (fun d p _ n now _ hv => bucket_allowN_other env d p n hv now)
    (fun d p w n now => allowN_result env d p n w now)
    (fun d w i now v => bucket_visit env d w i now v)

end DualBucket

end P2PForge
