import P2PForge.HandleStream
import P2PForge.FrameEnd

/-! What a rejected request leaves in `sc.Err`.
Callers tell the framework's errors apart with `errors.Is` and `errors.As`, which look for a
sentinel or a type along the errors that an error wraps. The rate limiters set an error of the root
package. `Recovery` sets one of its own package, which has the same text and is another value. -/
namespace P2PForge

open Codec

variable {ρ V W Arg : Type}

def Sentinel.text : Sentinel → String
  | .forgeErrPanic | .errPanic => "handler panicked"
  | .errRateLimited => "rate limit exceeded"
  | .errServerNotStarted => "server not started"
  | .errUnknownOperation => "unknown operation"
  | .errMissingOperation => "missing operation field"

namespace GoErr

def chain : GoErr → List GoErr
  | .wrap text cause => .wrap text cause :: cause.chain
  | .rateLimited retryAfter => [.rateLimited retryAfter,.sentinel .errRateLimited]
  | .frame e => .frame e :: (e.unwrap.map .stream).toList
  | .sentinel s => [.sentinel s]
  | .stream e => [.stream e]
  | .other text => [.other text]

def is (e : GoErr) (target : Sentinel) : Bool := e.chain.contains (.sentinel target)

/-- The `RetryAfter` of what `errors.As` finds for a `*RateLimitedError`. -/
def asRateLimited (e : GoErr) : Option Duration :=
  e.chain.findSome? fun
    | .rateLimited retryAfter => some retryAfter
    | _ => none

end GoErr

def rateLimited (retryAfter : Duration) : GoErr :=
  if retryAfter ≤ 0 then .sentinel .errRateLimited else .rateLimited retryAfter

/-- A limiter that keeps its books in the world. `AllowNWithRetry` is there if it reports waits;
`Arg` is what the methods are called with. -/
structure Charging (Arg W : Type) where
  allowN : Arg → W → W × Bool
  allowNWithRetry : Option (Arg → W → W × Bool × Duration)

/-- A `Limiter`, and a `RetryLimiter` if it reports waits: it is asked for a peer and a cost. -/
abbrev Limiter (W : Type) := Charging (String × Int64) W

abbrev DualLimiter (W : Type) := Charging (String × Int64 × Bool) W

def Charging.charge (limiter : Charging Arg W) (x : Arg) (w : W) : W × Bool × Duration :=
  match limiter.allowNWithRetry with
  | some allowNWithRetry => allowNWithRetry x w
  | none => ((limiter.allowN x w).1,(limiter.allowN x w).2,0)

namespace Limiter

def allowN (limiter : Limiter W) (peerID : String) (n : Int64) : W → W × Bool × Duration :=
  limiter.charge (peerID,n)

def allowNDual (limiter : DualLimiter W) (peerID : String) (n : Int64) (isWrite : Bool) :
    W → W × Bool × Duration :=
  limiter.charge (peerID,n,isWrite)

end Limiter

/-- What the limiter is asked and answers for a request: the world after it, whether the request
may proceed, and the wait. -/
abbrev Charge (V W : Type) := StreamContext V → W → W × Bool × Duration

/-- The body that the rate limit middlewares share. -/
def limiting (charge : Charge V W) : Middleware ρ V W :=
  .act (fun s => { s with world := (charge s.sc s.world).1 }) fun s =>
    if (charge s.sc s.world).2.1 then callNext
    else .act (setErr (rateLimited (charge s.sc s.world).2.2)) fun _ => .ret

def rateLimitMiddleware (limiter : Limiter W) : Middleware ρ V W :=
  limiting fun sc => Limiter.allowN limiter sc.peerID 1

def rateLimitCostMiddleware (limiter : Limiter W) (cost : List UInt8 → Int64) :
    Middleware ρ V W :=
  limiting fun sc => Limiter.allowN limiter sc.peerID (cost sc.rawBytes)

def dualRateLimitMiddleware (limiter : DualLimiter W) (isWrite : List UInt8 → Bool) :
    Middleware ρ V W :=
  limiting fun sc => Limiter.allowNDual limiter sc.peerID 1 (isWrite sc.rawBytes)

def dualRateLimitCostMiddleware (limiter : DualLimiter W)
    (classify : List UInt8 → Int64 × Bool) : Middleware ρ V W :=
  limiting fun sc =>
    Limiter.allowNDual limiter sc.peerID (classify sc.rawBytes).1 (classify sc.rawBytes).2

/-- The four rate limit middlewares, each with what it charges. -/
inductive RateLimits : Middleware ρ V W → Charge V W → Prop
  | single (limiter : Limiter W) :
    RateLimits (rateLimitMiddleware limiter) fun sc => Limiter.allowN limiter sc.peerID 1
  | cost (limiter : Limiter W) (cost : List UInt8 → Int64) :
    RateLimits (rateLimitCostMiddleware limiter cost) fun sc =>
      Limiter.allowN limiter sc.peerID (cost sc.rawBytes)
  | dual (limiter : DualLimiter W) (isWrite : List UInt8 → Bool) :
    RateLimits (dualRateLimitMiddleware limiter isWrite) fun sc =>
      Limiter.allowNDual limiter sc.peerID 1 (isWrite sc.rawBytes)
  | dualCost (limiter : DualLimiter W) (classify : List UInt8 → Int64 × Bool) :
    RateLimits (dualRateLimitCostMiddleware limiter classify) fun sc =>
      Limiter.allowNDual limiter sc.peerID (classify sc.rawBytes).1 (classify sc.rawBytes).2

theorem RateLimits.eq_limiting {mw : Middleware ρ V W} {charge : Charge V W}
    (h : RateLimits mw charge) : mw = limiting charge := by
  cases h <;> rfl

theorem is_rateLimited (retryAfter : Duration) :
    (rateLimited retryAfter).is .errRateLimited = true := by
  unfold rateLimited
  split_ifs <;> simp [GoErr.is,GoErr.chain]

theorem asRateLimited_rateLimited (retryAfter wait : Duration) :
    (rateLimited retryAfter).asRateLimited = some wait ↔ 0 < retryAfter ∧ wait = retryAfter := by
  unfold rateLimited
  split_ifs with hwait
  · have hnone : ¬0 < retryAfter := Int64.not_lt.mpr hwait
    simp [GoErr.asRateLimited,GoErr.chain,hnone]
  · have hsome : 0 < retryAfter := Int64.not_le.mp hwait
    simp [GoErr.asRateLimited,GoErr.chain,hsome,eq_comm]

def nextCalls (mw : Middleware ρ V W) (next : Effect (State ρ V W) (Panic V))
    (s : State ρ V W) : List (State ρ V W) :=
  mw.seen (fun _ => []) (fun _ => next) (fun _ t => [t]) s

/-- A middleware turns a request away with the errors that are documented for a wait. -/
structure TurnsAway (mw : Middleware ρ V W) (retryAfter : Duration)
    (next : Effect (State ρ V W) (Panic V)) (s : State ρ V W) : Prop where
  returns : (mw.run (fun _ => next) s).2 = none
  calls_nothing : nextCalls mw next s = []
  documented : ∃ e, (mw.run (fun _ => next) s).1.sc.err = some e ∧
    e.is .errRateLimited = true ∧
    ∀ wait, e.asRateLimited = some wait ↔ 0 < retryAfter ∧ wait = retryAfter

theorem turnsAway_limiting {charge : Charge V W} (next : Effect (State ρ V W) (Panic V))
    {s : State ρ V W} (hreject : (charge s.sc s.world).2.1 = false) :
    TurnsAway (limiting charge) (charge s.sc s.world).2.2 next s where
  returns := by simp [limiting,hreject]
  calls_nothing := by simp [nextCalls,limiting,Code.seen,hreject]
  documented := by
    refine ⟨rateLimited (charge s.sc s.world).2.2,?_,is_rateLimited _,
      asRateLimited_rateLimited _⟩
    simp [limiting,hreject,setErr]

theorem recovery_run (next : Effect (State ρ V W) (Panic V)) (s : State ρ V W) :
    (recovery.run (fun _ => next) s).2 = none ∧
      ((next s).2 ≠ none →
        (recovery.run (fun _ => next) s).1.sc.err = some (.sentinel .errPanic)) := by
  cases hpanic : (next s).2 <;> simp [recovery,hpanic,setErr]

/-- After a panic downstream of `Recovery`, `sc.Err` is the `ErrPanic` of the root package. -/
def RecoversAsForge (next : Effect (State ρ V W) (Panic V)) (s : State ρ V W) : Prop :=
  (next s).2 ≠ none → (recovery.run (fun _ => next) s).2 = none ∧
    ∃ e, (recovery.run (fun _ => next) s).1.sc.err = some e ∧ e.is .forgeErrPanic = true

/-- Whatever the rest of the chain is and in whatever state it is entered, a rate limiter that
rejects a request carries the documented errors. `Recovery` carries its documented error only if
there is nothing to recover from: what it leaves is never `forge.ErrPanic`. -/
theorem rejections_documented_iff (next : Effect (State ρ V W) (Panic V)) (s : State ρ V W) :
    (∀ mw charge, RateLimits mw charge → (charge s.sc s.world).2.1 = false →
      TurnsAway mw (charge s.sc s.world).2.2 next s) ∧
    (RecoversAsForge next s ↔ (next s).2 = none) := by
  constructor
  · intro mw charge hmw hreject
    rw [hmw.eq_limiting]
    exact turnsAway_limiting next hreject
  · constructor
    · intro hforge
      by_contra hpanic
      obtain ⟨_,e,herr,his⟩ := hforge hpanic
      rw [(recovery_run next s).2 hpanic,Option.some.injEq] at herr
      subst herr
      simp [GoErr.is,GoErr.chain] at his
    · intro hnone hpanic
      exact absurd hnone hpanic

/-- A limiter that asks for two seconds. -/
theorem rejections_documented_twoSeconds :
    TurnsAway (rateLimitMiddleware
        ⟨fun _ w => (w,false),some fun _ w => (w,false,2*Duration.second)⟩)
      (2*Duration.second) (fun s => (s,none)) State.blank :=
  (rejections_documented_iff (fun s => (s,none)) State.blank).1 _ _ (.single _) rfl

/-- A handler that panics: the caller who asks for `forge.ErrPanic` is told no, though the text of
the error is the same. -/
theorem recovery_not_forgeErrPanic :
    ∃ out sentinel, recovery.run (fun _ s => (s,some (.value ()))) State.blank = (out,none) ∧
      out.sc.err = some (.sentinel sentinel) ∧
      (GoErr.sentinel sentinel).is .forgeErrPanic = false ∧
      sentinel.text = Sentinel.text .forgeErrPanic :=
  ⟨setErr (.sentinel .errPanic) State.blank,.errPanic,rfl,rfl,by decide,rfl⟩

end P2PForge
