import P2PForge.CallLog
import P2PForge.Pipeline

/-! Services in order.
`Lifecycle` starts services in the order they were registered in and stops them in the opposite
one. It keeps no record of which of them are running: what it calls depends only on the list
and on how the calls are answered. -/
namespace P2PForge

open Acting

abbrev Service := ℕ

/-- The calls a server makes of what is around it. Hosts are numbered as they are made, and the
DHT, the node context and the rest of a node go by the host they are for. `connectionLimits` is
`connectionLimitOptions`, `cancelSubs` and `closeTopics` are the two loops of `Node.Close`, `wait`
is the wait for active streams. -/
inductive Call
  | loadIdentity (path : String)
  | connectionLimits (h : ℕ)
  | createHost (h : ℕ)
  | newRelay (h : ℕ)
  | notify (h : ℕ)
  | newDHT (h : ℕ)
  | bootstrap (h : ℕ)
  | connect (h : ℕ) (peerAddr : String)
  | newGossipSub (h : ℕ)
  | setStreamHandler (h : ℕ) (id : String)
  | removeStreamHandler (h : ℕ) (id : String)
  | start (svc : Service)
  | stop (svc : Service)
  | wait
  | cancel (h : ℕ)
  | cancelSubs (h : ℕ)
  | closeTopics (h : ℕ)
  | closeDHT (h : ℕ)
  | closeHost (h : ℕ)
  deriving DecidableEq

abbrev Log := List (Entry Call GoErr)

structure Outside where
  name : Service → String
  answer : Answers Call GoErr

namespace Lifecycle

variable (o : Outside)

/-- The loop of `StartAll`, after the services in `started`, the last one first. -/
def startFrom (started : List Service) : List Service → Acting Call GoErr (Option GoErr)
  | [] => pure none
  | svc :: rest =>
    checking (perform o.answer (.start svc))
      (fun e => do
        performAll o.answer (started.map .stop)
        return some (.wrap ("start " ++ o.name svc ++ ": ") e))
      (startFrom (svc :: started) rest)

def startAll (services : List Service) : Acting Call GoErr (Option GoErr) := startFrom o [] services

/-- The loop of `StopAll`, with the first error so far. -/
def stopEach : List Service → Option GoErr → Acting Call GoErr (Option GoErr)
  | [],firstErr => pure firstErr
  | svc :: rest,firstErr => do
    let err ← perform o.answer (.stop svc)
    stopEach rest (firstErr.or err)

def stopAll (services : List Service) : Acting Call GoErr (Option GoErr) :=
  stopEach o services.reverse none

def startedEntry (svc : Service) : Entry Call GoErr := ⟨.start svc,none⟩

def stoppedEntry (svc : Service) : Entry Call GoErr := ⟨.stop svc,none⟩

/-- What starting services adds to the log: all of them are started, or those before one that
fails, and then these and the ones started before are stopped, the last one first. -/
inductive StartsInOrder (started : List Service) : List Service → Option GoErr → Log → Prop
  | all (services) : StartsInOrder started services none (services.map startedEntry)
  | upTo (pre svc post e stops)
      (hstops : stops.map Entry.call = (pre.reverse ++ started).map .stop) :
    StartsInOrder started (pre ++ svc :: post) (some (.wrap ("start " ++ o.name svc ++ ": ") e))
      (pre.map startedEntry ++ ⟨.start svc,some e⟩ :: stops)

variable {o} in
theorem StartsInOrder.failed {started services : List Service} {err : GoErr} {l : Log}
    (h : StartsInOrder o started services (some err) l) :
    ∃ pre svc post e stops, services = pre ++ svc :: post ∧
      l = pre.map startedEntry ++ ⟨.start svc,some e⟩ :: stops ∧
      stops.map Entry.call = (pre.reverse ++ started).map Call.stop := by
  cases h with
  | upTo pre svc post e stops hstops => exact ⟨pre,svc,post,e,stops,rfl,rfl,hstops⟩

theorem adds_startFrom (started services : List Service) :
    Adds (startFrom o started services) (StartsInOrder o started services) := by
  induction services generalizing started with
  | nil => exact adds_pure (.all [])
  | cons svc rest ih =>
    refine (adds_perform _).checking ?_ ?_
    · rintro e l rfl
      refine (adds_performAll _).bind fun _ stops hstops => adds_pure ?_
      rw [List.append_nil]
      exact .upTo [] svc rest e stops hstops
    · rintro l rfl
      refine (ih (svc :: started)).mono ?_
      rintro err l h
      cases h with
      | all => exact .all (svc :: rest)
      | upTo pre svc' post e stops hstops =>
        exact .upTo (svc :: pre) svc' post e stops (by simpa using hstops)

theorem adds_stopEach (services : List Service) (firstErr : Option GoErr) :
    Adds (stopEach o services firstErr) fun err l =>
      l.map Entry.call = services.map Call.stop ∧ err = firstErr.or (l.findSome? Entry.err) := by
  induction services generalizing firstErr with
  | nil => exact adds_pure ⟨rfl,by simp⟩
  | cons svc rest ih =>
    refine (adds_perform _).bind fun err l hl => (ih _).mono ?_
    rintro err' l' ⟨hcalls,rfl⟩
    subst hl
    refine ⟨by simp [hcalls],?_⟩
    cases err <;> simp

theorem adds_stopAll (services : List Service) :
    Adds (stopAll o services) fun err l =>
      l.map Entry.call = services.reverse.map Call.stop ∧ err = l.findSome? Entry.err :=
  (adds_stopEach o services.reverse none).mono fun _ _ h => ⟨h.1,by simpa using h.2⟩

theorem honest_startFrom (started services : List Service) :
    Honest o.answer (startFrom o started services) := by
  induction services generalizing started with
  | nil => exact honest_pure none
  | cons svc rest ih =>
    refine (honest_perform _).checking (fun e => ?_) (ih (svc :: started))
    exact honest_released _ _

theorem honest_stopEach (services : List Service) (firstErr : Option GoErr) :
    Honest o.answer (stopEach o services firstErr) := by
  induction services generalizing firstErr with
  | nil => exact honest_pure firstErr
  | cons svc rest ih => exact (honest_perform _).bind fun err => ih (firstErr.or err)

theorem stopped_until {services : List Service} {l : Log} {e : GoErr}
    (hcalls : l.map Entry.call = services.reverse.map Call.stop)
    (he : l.findSome? Entry.err = some e) :
    ∃ pre svc post rest, services = pre ++ svc :: post ∧
      l = post.reverse.map stoppedEntry ++ ⟨.stop svc,some e⟩ :: rest := by
  obtain ⟨first,x,rest,rfl,hx,hfirst⟩ := List.findSome?_eq_some_iff.mp he
  rw [List.map_append,List.map_cons] at hcalls
  obtain ⟨later,before,hservices,hlater,hbefore⟩ := List.append_eq_map_iff.mp hcalls
  obtain ⟨svc,before,rfl,hsvc,_⟩ := List.map_eq_cons_iff.mp hbefore
  have hfirst : first = later.map stoppedEntry := by
    calc
      first = first.map fun x => ⟨x.call,none⟩ := by
        conv =>
          lhs
          rw [← List.map_id first]
        apply List.map_congr_left
        intro y hy
        rw [← hfirst y hy]
        rfl
      _ = (first.map Entry.call).map fun c => ⟨c,none⟩ := by rw [List.map_map]; rfl
      _ = later.map stoppedEntry := by rw [← hlater,List.map_map]; rfl
  have hx : x = ⟨.stop svc,some e⟩ := by rw [hsvc,← hx]
  refine ⟨before.reverse,svc,later.reverse,rest,?_,?_⟩
  · simpa using congrArg List.reverse hservices
  · rw [hfirst,hx,List.reverse_reverse]

variable {o} in
/-- Starting in order and stopping in the opposite one. `StartAll` starts every service, in
order, or all up to the first that fails, and then stops those before it, the last one first,
whatever these stops return; its error wraps that of the service which failed. `StopAll` stops
every service, the last one first, whatever they return; it returns nil exactly if they all do,
and otherwise the error of the last service in order that failed. -/
theorem startAll_stopAll_order (services : List Service) (log : Log) :
    (∃ l, (startAll o services log).2 = log ++ l ∧ Answered o.answer log l ∧
      ((l = services.map startedEntry ∧ (startAll o services log).1 = none) ∨
        ∃ pre svc post e stops, services = pre ++ svc :: post ∧
          l = pre.map startedEntry ++ ⟨.start svc,some e⟩ :: stops ∧
          stops.map Entry.call = pre.reverse.map Call.stop ∧
          (startAll o services log).1 = some (.wrap ("start " ++ o.name svc ++ ": ") e))) ∧
    ∃ l, (stopAll o services log).2 = log ++ l ∧ Answered o.answer log l ∧
      l.map Entry.call = services.reverse.map Call.stop ∧
      ((stopAll o services log).1 = none ↔ ∀ x ∈ l, x.err = none) ∧
      ∀ e, (stopAll o services log).1 = some e →
        ∃ pre svc post rest, services = pre ++ svc :: post ∧
          l = post.reverse.map stoppedEntry ++ ⟨.stop svc,some e⟩ :: rest := by
  constructor
  · obtain ⟨l,hlog,horder⟩ := adds_startFrom o [] services log
    refine ⟨l,hlog,(honest_startFrom o [] services).answered hlog,?_⟩
    unfold startAll
    revert horder
    generalize (startFrom o [] services log).1 = err
    intro horder
    cases horder with
    | all => exact .inl ⟨rfl,rfl⟩
    | upTo pre svc post e stops hstops =>
      rw [List.append_nil] at hstops
      exact .inr ⟨pre,svc,post,e,stops,rfl,rfl,hstops,rfl⟩
  · obtain ⟨l,hlog,hcalls,herr⟩ := adds_stopAll o services log
    refine ⟨l,hlog,(honest_stopEach o services.reverse none).answered hlog,hcalls,?_,?_⟩
    · rw [herr,List.findSome?_eq_none_iff]
    · intro e he
      exact stopped_until hcalls (herr.symm.trans he)

end Lifecycle
end P2PForge
