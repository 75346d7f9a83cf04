import P2PForge.Interleaving
import P2PForge.HandleStream
import P2PForge.Server

/-! Stopping a server while streams come in.
libp2p looks a handler up and runs it later, in a goroutine of its own. The handler raises the
count of active streams itself, so `Stop`, which first removes the handlers and then waits for
the count to be zero, does not see a handler that was looked up and has not come to its `Add`. -/
namespace P2PForge
namespace Drain

open Interleaving

inductive Wait
  | unstarted
  | waiting
  | returned
  deriving DecidableEq

/-- What the goroutines share: the protocols that the host has handlers for, the count of the
wait group, and how far the wait is. -/
structure Shared where
  handlers : List String
  active : ℤ
  wait : Wait

/-- The goroutines: a stream for a protocol, whose handler is to be looked up, and the handler
of a stream, both with the actions that `HandleStream` has yet to do; `Stop` with the calls it
has yet to make, in the `select` and elsewhere; and the one that waits. -/
inductive Goroutine
  | stream (id : String) (acts : List Action)
  | refused
  | handler (acts : List Action)
  | stop (calls : List Call)
  | select (calls : List Call)
  | waiter

namespace Shared

def act (sh : Shared) : Action → Shared
  | .add => { sh with active := sh.active + 1 }
  | .done => { sh with active := sh.active - 1 }
  | _ => sh

def call (sh : Shared) : Call → Shared
  | .removeStreamHandler _ id => { sh with handlers := sh.handlers.filter (· ≠ id) }
  | _ => sh

end Shared

/-- A step of a goroutine. In the `select` the answer says whether it is left through the
timeout; the other way is open once `Wait` has returned. -/
def advance (sh : Shared) : Goroutine → Bool → Option (Shared × Goroutine)
  | .stream id acts,_ => some (sh,if id ∈ sh.handlers then .handler acts else .refused)
  | .handler (a :: acts),_ => some (sh.act a,.handler acts)
  | .stop (.wait :: calls),_ => some ({ sh with wait := .waiting },.select calls)
  | .stop (c :: calls),_ => some (sh.call c,.stop calls)
  | .select calls,timeout =>
    if timeout = true ∨ sh.wait = .returned then some (sh,.stop calls) else none
  | .waiter,_ =>
    if sh.wait = .waiting ∧ sh.active = 0 then some ({ sh with wait := .returned },.waiter)
    else none
  | .refused,_ | .handler [],_ | .stop [],_ => none

/-- What is seen of a run: `Stop` leaves its wait through the drained branch, a service is
stopped, a middleware takes a step. -/
inductive Sight
  | drained
  | stopped (svc : Service)
  | middleware

def Sight.ofAction : Action → List Sight
  | .work => [.middleware]
  | _ => []

def Sight.ofCall : Call → List Sight
  | .stop svc => [.stopped svc]
  | _ => []

def observe (sh : Shared) : Goroutine → Bool → List Sight
  | .handler (a :: _),_ => Sight.ofAction a
  | .stop (c :: _),_ => Sight.ofCall c
  | .select _,false => if sh.wait = .returned then [.drained] else []
  | _,_ => []

/-- If `Stop` left its wait through the drained branch, no middleware takes a step after a
service has been stopped. -/
def MissesNone (seen : List Sight) : Prop :=
  .drained ∈ seen → seen.Pairwise fun a b => (∃ svc, a = .stopped svc) → b ≠ .middleware

def Handles (acts : List Action) : Prop :=
  ∃ (ρ V W : Type) (p : Pipeline ρ V W) (s : State ρ V W) (active : ℤ) (ahead : List (List Tick)),
    p.tracked = true ∧ acts = Timed.own (Timed.settle (p.handleStream s active ahead).1)

/-- Streams come in, all of them for tracked pipelines, and goroutines take steps. -/
def Arrival : Event Goroutine Bool → Prop
  | .spawn g => ∃ id acts, g = .stream id acts ∧ Handles acts
  | .advance _ _ => True

def begin (cfg : Config) (s : Server) : System Shared Goroutine :=
  ⟨⟨s.host.toList.flatMap fun _ => s.handlers,0,.unstarted⟩,[.stop (s.stopCalls cfg),.waiter]⟩

/-- `Wait` returns while `Stop` is in its `select`, with services to stop, and a handler that
has been looked up and is going to run middlewares has not come to its `Add`. -/
def SlipsBy (sys : System Shared Goroutine) : Event Goroutine Bool → Prop
  | .spawn _ => False
  | .advance i _ => sys.threads[i]? = some .waiter ∧ sys.shared.wait = .waiting ∧
    sys.shared.active = 0 ∧ (∃ calls svc, .select calls ∈ sys.threads ∧ .stop svc ∈ calls) ∧
    ∃ acts, .handler acts ∈ sys.threads ∧ .add ∈ acts ∧ .work ∈ acts

inductive Inside : List Action → Prop
  | last : Inside [.done]
  | cons {a acts} : a ≠ .add → a ≠ .done → Inside acts → Inside (a :: acts)

inductive Remaining : List Action → Prop
  | before {acts} : Inside acts → Remaining (.add :: acts)
  | inside {acts} : Inside acts → Remaining acts
  | returned : Remaining []

theorem Inside.mem {acts : List Action} (h : Inside acts) : .add ∉ acts ∧ .done ∈ acts := by
  induction h with
  | last => simp
  | cons hadd hdone _ ih => simp [ih,Ne.symm hadd]

theorem inside_append {l acts : List Action} (hl : ∀ a ∈ l, a ≠ .add ∧ a ≠ .done)
    (h : Inside acts) : Inside (l ++ acts) := by
  induction l with
  | nil => exact h
  | cons a l ih =>
    obtain ⟨ha,htail⟩ := List.forall_mem_cons.mp hl
    exact .cons ha.1 ha.2 (ih htail)

theorem Handles.entering {acts : List Action} (h : Handles acts) :
    ∃ inside, acts = .add :: inside ∧ Inside inside := by
  obtain ⟨ρ,V,W,p,s,active,ahead,htracked,rfl⟩ := h
  obtain ⟨k,hk⟩ := p.own_handleStream s active ahead
  generalize (p.handleStream s active ahead).1.sc.poolBuf = poolBuf at hk
  simp only [Pipeline.counted,htracked,if_true,List.append_assoc,List.cons_append,
    List.nil_append] at hk
  have hends : Inside [.stop,.close,.cancel,.done] := by
    refine inside_append (l := [.stop,.close,.cancel]) ?_ .last
    simp
  refine ⟨_,hk,.cons (by simp) (by simp) (.cons (by simp) (by simp) ?_)⟩
  refine inside_append ?_ (inside_append ?_ hends)
  · intro a ha
    simp [List.eq_of_mem_replicate ha]
  · intro a ha
    cases poolBuf with
    | none => cases ha
    | some b => simp [List.mem_singleton.mp ha]

def Goroutine.counted : Goroutine → Bool
  | .handler acts => decide (.add ∉ acts ∧ .done ∈ acts)
  | _ => false

theorem Inside.counted {acts : List Action} (h : Inside acts) :
    (Goroutine.handler acts).counted = true := decide_eq_true h.mem

def Goroutine.Other : Goroutine → Prop
  | .stream _ acts => ∃ inside, acts = .add :: inside ∧ Inside inside
  | .handler acts => Remaining acts
  | .refused | .waiter => True
  | .stop _ | .select _ => False

def Goroutine.calls : Goroutine → List Call
  | .stop calls | .select calls => calls
  | _ => []

/-- Where `Stop` is, and what has been seen by then. Before the wait only handlers are removed,
and all that are left are going to be. From the `select` on there are none. -/
inductive Phase (seen : List Sight) (sh : Shared) : Goroutine → Prop
  | removing (pre post) (hpre : ∀ c ∈ pre, ∃ h id, c = .removeStreamHandler h id)
    (hpost : .wait ∉ post) (hall : ∀ id ∈ sh.handlers, ∃ h, .removeStreamHandler h id ∈ pre)
    (hwait : sh.wait = .unstarted) (hstopped : ∀ svc, .stopped svc ∉ seen)
    (hdrained : .drained ∉ seen) : Phase seen sh (.stop (pre ++ .wait :: post))
  | selecting (calls) (hcalls : .wait ∉ calls) (hnone : sh.handlers = [])
    (hwait : sh.wait ≠ .unstarted) (hstopped : ∀ svc, .stopped svc ∉ seen)
    (hdrained : .drained ∉ seen) : Phase seen sh (.select calls)
  | stopping (calls) (hcalls : .wait ∉ calls) (hnone : sh.wait ≠ .unstarted → sh.handlers = [])
    (hdrained : .drained ∈ seen → sh.wait = .returned) : Phase seen sh (.stop calls)

variable {seen : List Sight} {sh sh' : Shared} {g g' : Goroutine} {a : Bool}

theorem Shared.call_keeps (sh : Shared) (c : Call) :
    (sh.call c).active = sh.active ∧ (sh.call c).wait = sh.wait ∧
      (sh.handlers = [] → (sh.call c).handlers = []) := by
  cases c <;> simp +contextual [Shared.call]

theorem advance_stop {c : Call} (hc : c ≠ .wait) (sh : Shared) (calls : List Call) (a : Bool) :
    advance sh (.stop (c :: calls)) a = some (sh.call c,.stop calls) := by
  cases c <;> first | rfl | exact absurd rfl hc

theorem mem_ofCall {c : Call} {x : Sight} (h : x ∈ Sight.ofCall c) :
    ∃ svc, x = .stopped svc ∧ c = .stop svc := by
  cases c <;> simp_all [Sight.ofCall]

theorem Shared.call_removes {pre : List Call} {h : ℕ} {id : String}
    (hall : ∀ id' ∈ sh.handlers, ∃ h', .removeStreamHandler h' id' ∈
      Call.removeStreamHandler h id :: pre) :
    ∀ id' ∈ (sh.call (.removeStreamHandler h id)).handlers,
      ∃ h', .removeStreamHandler h' id' ∈ pre := by
  intro id' hid'
  simp only [Shared.call,List.mem_filter,decide_eq_true_eq] at hid'
  obtain ⟨h',hin⟩ := hall id' hid'.1
  rcases List.mem_cons.mp hin with heq | hin
  · exact absurd (Call.removeStreamHandler.inj heq).2 hid'.2
  · exact ⟨h',hin⟩

theorem stop_cases {calls : List Call} (hstep : advance sh (.stop calls) a = some (sh',g')) :
    (∃ rest, calls = .wait :: rest ∧ g' = .select rest ∧ sh' = { sh with wait := .waiting } ∧
      observe sh (.stop calls) a = []) ∨
    ∃ c rest, calls = c :: rest ∧ g' = .stop rest ∧ sh' = sh.call c ∧
      observe sh (.stop calls) a = Sight.ofCall c := by
  cases calls with
  | nil => cases hstep
  | cons c rest =>
    by_cases hc : c = .wait
    · subst hc
      obtain ⟨rfl,rfl⟩ := Prod.mk.inj (Option.some.inj hstep)
      exact .inl ⟨rest,rfl,rfl,rfl,rfl⟩
    · rw [advance_stop hc] at hstep
      obtain ⟨rfl,rfl⟩ := Prod.mk.inj (Option.some.inj hstep)
      exact .inr ⟨c,rest,rfl,rfl,rfl,rfl⟩

theorem select_cases {calls : List Call} (hstep : advance sh (.select calls) a = some (sh',g')) :
    g' = .stop calls ∧ sh' = sh ∧ (observe sh (.select calls) a = [] ∨
      observe sh (.select calls) a = [.drained] ∧ sh.wait = .returned) := by
  rw [advance] at hstep
  split_ifs at hstep with hopen
  obtain ⟨rfl,rfl⟩ := Prod.mk.inj (Option.some.inj hstep)
  refine ⟨rfl,rfl,?_⟩
  cases a with
  | true => exact .inl rfl
  | false =>
    have hwait : sh.wait = .returned := by simpa using hopen
    exact .inr ⟨if_pos hwait,hwait⟩

theorem Phase.cases (h : Phase seen sh g) :
    (∃ calls, g = .stop calls) ∨ ∃ calls, g = .select calls ∧ ∀ svc, .stopped svc ∉ seen := by
  cases h with
  | removing => exact .inl ⟨_,rfl⟩
  | selecting calls _ _ _ hstopped => exact .inr ⟨calls,rfl,hstopped⟩
  | stopping calls => exact .inl ⟨calls,rfl⟩

theorem Phase.not_counted (h : Phase seen sh g) : g.counted = false := by
  cases h <;> rfl

theorem Phase.step (h : Phase seen sh g) (hstep : advance sh g a = some (sh',g')) :
    Phase (seen ++ observe sh g a) sh' g' ∧ sh'.active = sh.active := by
  cases h with
  | removing pre post hpre hpost hall hwait hstopped hdrained =>
    cases pre with
    | nil =>
      obtain ⟨rfl,rfl⟩ := Prod.mk.inj (Option.some.inj hstep)
      have hnone : sh.handlers = [] := by
        refine List.eq_nil_iff_forall_not_mem.mpr fun id hid => ?_
        obtain ⟨_,hin⟩ := hall id hid
        cases hin
      refine ⟨?_,rfl⟩
      change Phase (seen ++ []) _ _
      rw [List.append_nil]
      exact .selecting post hpost hnone nofun hstopped hdrained
    | cons c pre =>
      obtain ⟨⟨h,id,rfl⟩,htail⟩ := List.forall_mem_cons.mp hpre
      obtain ⟨rfl,rfl⟩ := Prod.mk.inj (Option.some.inj hstep)
      refine ⟨?_,rfl⟩
      change Phase (seen ++ []) _ _
      rw [List.append_nil]
      exact .removing pre post htail hpost (Shared.call_removes hall) hwait hstopped hdrained
  | selecting calls hcalls hnone hwait hstopped hdrained =>
    obtain ⟨rfl,rfl,hseen⟩ := select_cases hstep
    refine ⟨.stopping calls hcalls (fun _ => hnone) ?_,rfl⟩
    intro hin
    rcases List.mem_append.mp hin with hbefore | hnow
    · exact absurd hbefore hdrained
    · rcases hseen with hseen | ⟨_,hreturned⟩
      · rw [hseen] at hnow
        cases hnow
      · exact hreturned
  | stopping calls hcalls hnone hdrained =>
    rcases stop_cases hstep with ⟨rest,rfl,_⟩ | ⟨c,rest,rfl,rfl,rfl,hseen⟩
    · exact absurd List.mem_cons_self hcalls
    · obtain ⟨hactive,hwait,hhandlers⟩ := sh.call_keeps c
      refine ⟨.stopping rest (fun hin => hcalls (List.mem_cons_of_mem c hin)) ?_ ?_,hactive⟩
      · rw [hwait]
        exact fun h => hhandlers (hnone h)
      · rw [hwait,hseen]
        intro hin
        rcases List.mem_append.mp hin with hbefore | hnow
        · exact hdrained hbefore
        · obtain ⟨_,heq,_⟩ := mem_ofCall hnow
          cases heq

/-- All that a step of another goroutine can be: a lookup, an action of a handler, or the return
of `Wait`. -/
theorem other_cases (hg : g.Other) (hstep : advance sh g a = some (sh',g')) :
    (∃ id acts, g = .stream id acts ∧ id ∈ sh.handlers ∧ g' = .handler acts ∧ sh' = sh) ∨
    (∃ id acts, g = .stream id acts ∧ g' = .refused ∧ sh' = sh) ∨
    (∃ act acts, g = .handler (act :: acts) ∧ g' = .handler acts ∧ sh' = sh.act act) ∨
    g = .waiter ∧ g' = .waiter ∧ sh.wait = .waiting ∧ sh.active = 0 ∧
      sh' = { sh with wait := .returned } := by
  cases g with
  | stream id acts =>
    obtain ⟨rfl,rfl⟩ := Prod.mk.inj (Option.some.inj hstep)
    split_ifs with hid
    · exact .inl ⟨id,acts,rfl,hid,rfl,rfl⟩
    · exact .inr (.inl ⟨id,acts,rfl,rfl,rfl⟩)
  | refused => cases hstep
  | handler acts =>
    cases acts with
    | nil => cases hstep
    | cons act acts =>
      obtain ⟨rfl,rfl⟩ := Prod.mk.inj (Option.some.inj hstep)
      exact .inr (.inr (.inl ⟨act,acts,rfl,rfl,rfl⟩))
  | stop calls => exact hg.elim
  | select calls => exact hg.elim
  | waiter =>
    rw [advance] at hstep
    split_ifs at hstep with hzero
    obtain ⟨rfl,rfl⟩ := Prod.mk.inj (Option.some.inj hstep)
    exact .inr (.inr (.inr ⟨rfl,rfl,hzero.1,hzero.2,rfl⟩))

theorem Remaining.step {act : Action} {acts : List Action} (h : Remaining (act :: acts))
    (sh : Shared) :
    Remaining acts ∧ (sh.act act).active + (Goroutine.handler (act :: acts)).counted.toNat =
      sh.active + (Goroutine.handler acts).counted.toNat := by
  cases h with
  | before hinside =>
    refine ⟨.inside hinside,?_⟩
    rw [hinside.counted]
    simp [Goroutine.counted,Shared.act]
  | inside hinside =>
    rw [hinside.counted]
    cases hinside with
    | last => exact ⟨.returned,by simp [Goroutine.counted,Shared.act]⟩
    | cons hadd hdone hrest =>
      refine ⟨.inside hrest,?_⟩
      rw [hrest.counted]
      cases act <;> first | rfl | exact absurd rfl hadd | exact absurd rfl hdone

theorem Shared.act_keeps (sh : Shared) (act : Action) :
    (sh.act act).handlers = sh.handlers ∧ (sh.act act).wait = sh.wait := by
  cases act <;> exact ⟨rfl,rfl⟩

theorem mem_ofAction {act : Action} {x : Sight} (h : x ∈ Sight.ofAction act) :
    x = .middleware ∧ act = .work := by
  cases act <;> simp_all [Sight.ofAction]

structure Apart (sh : Shared) (g : Goroutine) (x : List Sight) (sh' : Shared) (g' : Goroutine) :
    Prop where
  other : g'.Other
  count : sh'.active + g.counted.toNat = sh.active + g'.counted.toNat
  handlers : sh'.handlers = sh.handlers
  wait : sh'.wait = sh.wait ∨ sh.wait = .waiting ∧ sh'.wait = .returned
  seen : ∀ y ∈ x, y = .middleware

theorem apart_of_other (hg : g.Other) (hstep : advance sh g a = some (sh',g')) :
    Apart sh g (observe sh g a) sh' g' := by
  rcases other_cases hg hstep with ⟨id,acts,rfl,_,rfl,rfl⟩ | ⟨id,acts,rfl,rfl,rfl⟩ |
    ⟨act,acts,rfl,rfl,rfl⟩ | ⟨rfl,rfl,hwait,_,rfl⟩
  · obtain ⟨inside,rfl,hinside⟩ := hg
    exact ⟨.before hinside,by simp [Goroutine.counted],rfl,.inl rfl,nofun⟩
  · exact ⟨trivial,rfl,rfl,.inl rfl,nofun⟩
  · obtain ⟨hremaining,hcount⟩ := Remaining.step hg sh
    obtain ⟨hhandlers,hwait⟩ := sh.act_keeps act
    exact ⟨hremaining,hcount,hhandlers,.inl hwait,fun y hy => (mem_ofAction hy).1⟩
  · exact ⟨trivial,rfl,rfl,.inr ⟨hwait,rfl⟩,nofun⟩

theorem Phase.apart {x : List Sight} {m m' : Goroutine} (h : Phase seen sh g)
    (hapart : Apart sh m x sh' m') : Phase (seen ++ x) sh' g := by
  have hold : ∀ y ≠ .middleware, y ∈ seen ++ x → y ∈ seen := by
    intro y hy hmem
    rcases List.mem_append.mp hmem with hin | hin
    · exact hin
    · exact absurd (hapart.seen y hin) hy
  have hstarted : sh'.wait ≠ .unstarted → sh.wait ≠ .unstarted := by
    rcases hapart.wait with heq | ⟨hwaiting,_⟩
    · rw [heq]
      exact id
    · rw [hwaiting]
      exact fun _ => nofun
  cases h with
  | removing pre post hpre hpost hall hwait hstopped hdrained =>
    have hwait' : sh'.wait = .unstarted := by
      by_contra hne
      exact hstarted hne hwait
    refine .removing pre post hpre hpost ?_ hwait' ?_ ?_
    · rw [hapart.handlers]
      exact hall
    · exact fun svc hin => hstopped svc (hold _ nofun hin)
    · exact fun hin => hdrained (hold _ nofun hin)
  | selecting calls hcalls hnone hwait hstopped hdrained =>
    refine .selecting calls hcalls (hapart.handlers.trans hnone) ?_ ?_ ?_
    · rcases hapart.wait with heq | ⟨_,hreturned⟩
      · rwa [heq]
      · rw [hreturned]
        nofun
    · exact fun svc hin => hstopped svc (hold _ nofun hin)
    · exact fun hin => hdrained (hold _ nofun hin)
  | stopping calls hcalls hnone hdrained =>
    refine .stopping calls hcalls ?_ ?_
    · rw [hapart.handlers]
      exact fun h => hnone (hstarted h)
    · intro hin
      have hreturned := hdrained (hold _ nofun hin)
      rcases hapart.wait with heq | ⟨_,hnow⟩
      · rwa [heq]
      · exact hnow

/-- The invariant of a server that is being stopped: the first goroutine is `Stop`, the others
are none, and the count is that of the handlers between `Add` and `Done`. -/
structure Sound (seen : List Sight) (sys : System Shared Goroutine) : Prop where
  stop : ∃ g, sys.threads[0]? = some g ∧ Phase seen sys.shared g
  others : ∀ {i : ℕ} {g}, sys.threads[i]? = some g → i ≠ 0 → g.Other
  count : sys.shared.active = sys.threads.countP Goroutine.counted

theorem sound_begin (cfg : Config) (s : Server) : Sound [] (begin cfg s) := by
  have hrest : Call.wait ∉
      s.services.reverse.map .stop ++ s.node.toList.flatMap Server.closeCalls := by
    simp [Server.closeCalls]
  have hremoved : ∀ c ∈ s.host.toList.flatMap fun h => s.handlers.map (Call.removeStreamHandler h),
      ∃ h id, c = Call.removeStreamHandler h id := by
    intro c hc
    obtain ⟨h,_,hc⟩ := List.mem_flatMap.mp hc
    obtain ⟨id,_,rfl⟩ := List.mem_map.mp hc
    exact ⟨h,id,rfl⟩
  have hnil : Sight.drained ∈ [] → (begin cfg s).shared.wait = .returned :=
    fun h => absurd h List.not_mem_nil
  have hphase : Phase [] (begin cfg s).shared (.stop (s.stopCalls cfg)) := by
    unfold Server.stopCalls
    split
    · exact .stopping [] List.not_mem_nil (fun h => absurd rfl h) hnil
    · split_ifs
      · refine .removing _ _ hremoved hrest ?_ rfl (fun _ => List.not_mem_nil) List.not_mem_nil
        intro id hid
        obtain ⟨h,hh,hid⟩ := List.mem_flatMap.mp hid
        exact ⟨h,List.mem_flatMap.mpr ⟨h,hh,List.mem_map_of_mem hid⟩⟩
      · refine .stopping _ ?_ (fun h => absurd rfl h) hnil
        rw [List.nil_append,List.mem_append,not_or]
        refine ⟨fun hin => ?_,hrest⟩
        obtain ⟨_,_,heq⟩ := hremoved _ hin
        cases heq
  refine ⟨⟨_,rfl,hphase⟩,?_,rfl⟩
  intro i g hi hne
  rcases i with _ | _ | i
  · exact absurd rfl hne
  · obtain rfl := Option.some.inj hi
    trivial
  · cases hi

theorem observe_of_blocked (h : advance sh g a = none) : observe sh g a = [] := by
  cases g with
  | stream id acts => cases h
  | refused => rfl
  | handler acts =>
    cases acts with
    | nil => rfl
    | cons act acts => cases h
  | stop calls =>
    cases calls with
    | nil => rfl
    | cons c calls =>
      by_cases hc : c = .wait
      · subst hc
        cases h
      · rw [advance_stop hc] at h
        cases h
  | select calls =>
    rw [advance] at h
    split_ifs at h with hopen
    obtain ⟨hfalse,hwait⟩ := not_or.mp hopen
    rw [Bool.eq_false_of_not_eq_true hfalse,observe,if_neg hwait]
  | waiter => rfl

theorem Sound.step {sys : System Shared Goroutine} {e : Event Goroutine Bool}
    (h : Sound seen sys) (he : Arrival e) :
    Sound (seen ++ observed observe sys e) (Interleaving.step advance sys e) := by
  obtain ⟨g₀,h₀,hphase⟩ := h.stop
  rcases observed_cases observe_of_blocked sys e with
    ⟨hsame,hseen⟩ | ⟨g,rfl,hspawn,hseen⟩ | ⟨i,a,g,sh',g',rfl,hi,hstep,hadvance,hseen⟩
  · rw [hsame,hseen,List.append_nil]
    exact h
  · obtain ⟨id,acts,rfl,hacts⟩ := he
    have hlt := (List.getElem?_eq_some_iff.mp h₀).1
    rw [hspawn,hseen,List.append_nil]
    refine ⟨⟨g₀,(List.getElem?_append_left hlt).trans h₀,hphase⟩,?_,?_⟩
    · intro i g hi hne
      rcases getElem?_concat hi with hold | ⟨_,rfl⟩
      · exact h.others hold hne
      · exact hacts.entering
    · have hcount := h.count
      simpa [List.countP_append,Goroutine.counted] using hcount
  · have hlt := (List.getElem?_eq_some_iff.mp hi).1
    have hcountP := countP_set Goroutine.counted hi g'
    have hcount := h.count
    rw [hadvance,hseen]
    by_cases hi0 : i = 0
    · subst hi0
      obtain rfl := Option.some.inj (h₀.symm.trans hi)
      obtain ⟨hphase',hactive⟩ := hphase.step hstep
      refine ⟨⟨g',List.getElem?_set_self hlt,hphase'⟩,?_,?_⟩
      · intro j m hj hne
        rcases getElem?_set_of_some hi hj with ⟨rfl,_⟩ | ⟨_,hold⟩
        · exact absurd rfl hne
        · exact h.others hold hne
      · rw [hphase.not_counted,hphase'.not_counted] at hcountP
        dsimp only
        rw [hactive,hcount]
        exact_mod_cast hcountP.symm
    · have hapart := apart_of_other (h.others hi hi0) hstep
      refine ⟨⟨g₀,(List.getElem?_set_ne hi0).trans h₀,hphase.apart hapart⟩,?_,?_⟩
      · intro j m hj hne
        rcases getElem?_set_of_some hi hj with ⟨rfl,rfl⟩ | ⟨_,hold⟩
        · exact hapart.other
        · exact h.others hold hne
      · have hmoved := hapart.count
        dsimp only
        omega

/-- `Stop` has left its wait through the drained branch, or may still do so, and there is a
service that it has stopped or is going to stop. -/
def Draining (seen : List Sight) (g : Goroutine) : Prop :=
  (.drained ∈ seen ∨ ∃ calls, g = .select calls) ∧ ∃ svc, .stopped svc ∈ seen ∨ .stop svc ∈ g.calls

theorem Draining.of_step (h : Phase seen sh g) (hstep : advance sh g a = some (sh',g'))
    (hreturned : sh'.wait = .returned) (hdraining : Draining (seen ++ observe sh g a) g') :
    sh.wait = .returned ∧ Draining seen g := by
  rcases h.cases with ⟨calls,rfl⟩ | ⟨calls,rfl,_⟩
  · rcases stop_cases hstep with ⟨rest,_,_,rfl,_⟩ | ⟨c,rest,rfl,rfl,rfl,hseen⟩
    · cases hreturned
    · rw [hseen] at hdraining
      obtain ⟨hdrained | ⟨_,hselect⟩,svc,hsvc⟩ := hdraining
      · refine ⟨(sh.call_keeps c).2.1 ▸ hreturned,.inl ?_,?_⟩
        · refine (List.mem_append.mp hdrained).resolve_right fun hnow => ?_
          obtain ⟨_,heq,_⟩ := mem_ofCall hnow
          cases heq
        · rcases hsvc with hstopped | hlater
          · rcases List.mem_append.mp hstopped with hbefore | hnow
            · exact ⟨svc,.inl hbefore⟩
            · obtain ⟨svc',_,rfl⟩ := mem_ofCall hnow
              exact ⟨svc',.inr List.mem_cons_self⟩
          · exact ⟨svc,.inr (List.mem_cons_of_mem c hlater)⟩
      · cases hselect
  · obtain ⟨rfl,rfl,hseen⟩ := select_cases hstep
    refine ⟨hreturned,.inr ⟨calls,rfl⟩,?_⟩
    obtain ⟨_,svc,hstopped | hlater⟩ := hdraining
    · refine ⟨svc,.inl ((List.mem_append.mp hstopped).resolve_right fun hnow => ?_)⟩
      rcases hseen with hseen | ⟨hseen,_⟩ <;> simp [hseen] at hnow
    · exact ⟨svc,.inr hlater⟩

theorem MissesNone.append_stop {x : List Sight} (h : MissesNone seen) (hx : .middleware ∉ x)
    (hdrained : .drained ∈ x → ∀ svc, .stopped svc ∉ seen) : MissesNone (seen ++ x) := by
  intro hin
  have hlater : ∀ b ∈ x, b ≠ .middleware := fun b hb heq => hx (heq ▸ hb)
  rw [List.pairwise_append]
  refine ⟨?_,List.pairwise_of_forall_mem_list fun _ _ b hb _ => hlater b hb,
    fun _ _ b hb _ => hlater b hb⟩
  rcases List.mem_append.mp hin with hbefore | hnow
  · exact h hbefore
  · refine List.pairwise_of_forall_mem_list ?_
    rintro a ha b _ ⟨svc,rfl⟩
    exact absurd ha (hdrained hnow svc)

theorem MissesNone.append_other {x : List Sight} (h : MissesNone seen)
    (hx : ∀ b ∈ x, b = .middleware)
    (hquiet : x ≠ [] → .drained ∈ seen → ∀ svc, .stopped svc ∉ seen) : MissesNone (seen ++ x) := by
  intro hin
  have hbefore : .drained ∈ seen := by
    rcases List.mem_append.mp hin with hbefore | hnow
    · exact hbefore
    · cases hx _ hnow
  rw [List.pairwise_append]
  refine ⟨h hbefore,List.pairwise_of_forall_mem_list ?_,?_⟩
  · rintro a ha b _ ⟨svc,rfl⟩
    cases hx _ ha
  · rintro a ha b hb ⟨svc,rfl⟩
    exact absurd ha (hquiet (List.ne_nil_of_mem hb) hbefore svc)

/-- The invariant as long as no stream slips by: no stream has been missed, and once `Wait` has
returned none of the handlers has middlewares left to run, if `Stop` drains. -/
structure Guarded (seen : List Sight) (sys : System Shared Goroutine) : Prop extends
    Sound seen sys where
  order : MissesNone seen
  calm : sys.shared.wait = .returned → ∀ {g}, sys.threads[0]? = some g → Draining seen g →
    ∀ {acts}, .handler acts ∈ sys.threads → .work ∉ acts

theorem guarded_begin (cfg : Config) (s : Server) : Guarded [] (begin cfg s) :=
  ⟨sound_begin cfg s,nofun,nofun⟩

/-- A handler that has middlewares left to run when the count is zero has not come to its
`Add`. -/
theorem Sound.add_mem {sys : System Shared Goroutine} (h : Sound seen sys)
    (hzero : sys.shared.active = 0) {acts : List Action} (hin : .handler acts ∈ sys.threads)
    (hwork : .work ∈ acts) : .add ∈ acts := by
  obtain ⟨i,hi⟩ := List.mem_iff_getElem?.mp hin
  obtain ⟨g₀,h₀,hphase⟩ := h.stop
  have hi0 : i ≠ 0 := by
    rintro rfl
    obtain rfl := Option.some.inj (h₀.symm.trans hi)
    cases hphase
  have hnone : sys.threads.countP Goroutine.counted = 0 := by
    have hcount := h.count
    omega
  have hremaining : Remaining acts := h.others hi hi0
  cases hremaining with
  | before => exact List.mem_cons_self
  | inside hinside => exact absurd hinside.counted (List.countP_eq_zero.mp hnone _ hin)
  | returned => cases hwork

theorem Phase.returned (h : Phase seen sh g) (hdrained : .drained ∈ seen) :
    sh.wait = .returned := by
  cases h with
  | removing _ _ _ _ _ _ _ hnot => exact absurd hdrained hnot
  | selecting _ _ _ _ _ hnot => exact absurd hdrained hnot
  | stopping _ _ _ hreturned => exact hreturned hdrained

theorem Phase.handlers_eq_nil (h : Phase seen sh g) (hwait : sh.wait ≠ .unstarted) :
    sh.handlers = [] := by
  cases h with
  | removing _ _ _ _ _ hunstarted => exact absurd hunstarted hwait
  | selecting _ _ hnone => exact hnone
  | stopping _ _ hnone => exact hnone hwait

theorem Phase.order (h : Phase seen sh g) (hstep : advance sh g a = some (sh',g'))
    (horder : MissesNone seen) : MissesNone (seen ++ observe sh g a) := by
  rcases h.cases with ⟨calls,rfl⟩ | ⟨calls,rfl,hnone⟩
  · rcases stop_cases hstep with ⟨_,_,_,_,hseen⟩ | ⟨c,_,_,_,_,hseen⟩ <;> rw [hseen]
    · rwa [List.append_nil]
    · refine horder.append_stop ?_ ?_ <;> intro hin
      all_goals
        obtain ⟨_,heq,_⟩ := mem_ofCall hin
        cases heq
  · obtain ⟨_,_,hseen | ⟨hseen,_⟩⟩ := select_cases hstep <;> rw [hseen]
    · rwa [List.append_nil]
    · exact horder.append_stop (by simp) fun _ => hnone

section Other

variable {sys : System Shared Goroutine} {i : ℕ} (h : Guarded seen sys)
  (hi : sys.threads[i]? = some g) (hg : g.Other) (hstep : advance sys.shared g a = some (sh',g'))

include h hi hg hstep

theorem Guarded.order_other : MissesNone (seen ++ observe sys.shared g a) := by
  obtain ⟨g₀,h₀,hphase⟩ := h.stop
  refine h.order.append_other (apart_of_other hg hstep).seen ?_
  intro hne hdrained svc hstopped
  rcases other_cases hg hstep with ⟨_,_,rfl,_⟩ | ⟨_,_,rfl,_⟩ | ⟨act,acts,rfl,_⟩ | ⟨rfl,_⟩
  · exact hne rfl
  · exact hne rfl
  · obtain ⟨x,hx⟩ := List.exists_mem_of_ne_nil _ hne
    obtain ⟨_,rfl⟩ := mem_ofAction hx
    exact h.calm (hphase.returned hdrained) h₀ ⟨.inl hdrained,svc,.inl hstopped⟩
      (List.mem_of_getElem? hi) List.mem_cons_self
  · exact hne rfl

theorem Guarded.calm_other (hslip : ¬ SlipsBy sys (.advance i a)) (hreturned : sh'.wait = .returned)
    {g₀ : Goroutine} (h₀ : sys.threads[0]? = some g₀)
    (hdraining : Draining (seen ++ observe sys.shared g a) g₀) {acts : List Action}
    (hin : .handler acts ∈ sys.threads.set i g') : .work ∉ acts := by
  obtain ⟨_,hstop,hphase⟩ := h.stop
  obtain rfl := Option.some.inj (h₀.symm.trans hstop)
  have hseen := (apart_of_other hg hstep).seen
  replace hdraining : Draining seen g₀ := by
    have hold : ∀ y ≠ .middleware, y ∈ seen ++ observe sys.shared g a → y ∈ seen := by
      intro y hy hmem
      exact (List.mem_append.mp hmem).resolve_right fun hnew => hy (hseen y hnew)
    obtain ⟨hdrained,svc,hsvc⟩ := hdraining
    exact ⟨hdrained.imp_left (hold _ nofun),svc,hsvc.imp_left (hold _ nofun)⟩
  rcases other_cases hg hstep with ⟨id,_,_,hid,_,rfl⟩ | ⟨_,_,_,rfl,rfl⟩ | ⟨act,acts',rfl,rfl,rfl⟩ |
    ⟨rfl,rfl,hwaiting,hzero,rfl⟩
  · rw [hphase.handlers_eq_nil (by rw [hreturned]; nofun)] at hid
    cases hid
  · rcases List.mem_or_eq_of_mem_set hin with hold | heq
    · exact h.calm hreturned h₀ hdraining hold
    · cases heq
  · rw [(sys.shared.act_keeps act).2] at hreturned
    rcases List.mem_or_eq_of_mem_set hin with hold | heq
    · exact h.calm hreturned h₀ hdraining hold
    · cases heq
      exact fun hwork => h.calm hreturned h₀ hdraining (List.mem_of_getElem? hi)
        (List.mem_cons_of_mem act hwork)
  · intro hwork
    rcases List.mem_or_eq_of_mem_set hin with hold | heq
    · refine hslip ⟨hi,hwaiting,hzero,?_,acts,hold,h.add_mem hzero hold hwork,hwork⟩
      obtain ⟨hdrained | ⟨calls,rfl⟩,svc,hsvc⟩ := hdraining
      · cases hwaiting.symm.trans (hphase.returned hdrained)
      · cases hphase with
        | selecting _ _ _ _ hstopped =>
          exact ⟨calls,svc,List.mem_of_getElem? h₀,hsvc.resolve_left (hstopped svc)⟩
    · cases heq

end Other

theorem Guarded.step {sys : System Shared Goroutine} {e : Event Goroutine Bool}
    (h : Guarded seen sys) (he : Arrival e) (hslip : ¬ SlipsBy sys e) :
    Guarded (seen ++ observed observe sys e) (Interleaving.step advance sys e) := by
  have hsound := h.toSound.step he
  obtain ⟨g₀,h₀,hphase⟩ := h.stop
  rcases observed_cases observe_of_blocked sys e with
    ⟨hsame,hseen⟩ | ⟨g,rfl,hspawn,hseen⟩ | ⟨i,a,g,sh',g',rfl,hi,hstep,hadvance,hseen⟩
  · rw [hsame,hseen,List.append_nil]
    exact h
  · obtain ⟨id,acts,rfl,_⟩ := he
    have hlt := (List.getElem?_eq_some_iff.mp h₀).1
    rw [hspawn,hseen,List.append_nil] at hsound ⊢
    refine ⟨hsound,h.order,?_⟩
    intro hreturned g hg hdraining acts' hin
    rw [List.getElem?_append_left hlt] at hg
    rcases List.mem_append.mp hin with hold | hnew
    · exact h.calm hreturned hg hdraining hold
    · cases List.mem_singleton.mp hnew
  · have hlt := (List.getElem?_eq_some_iff.mp hi).1
    rw [hadvance,hseen] at hsound ⊢
    by_cases hi0 : i = 0
    · subst hi0
      obtain rfl := Option.some.inj (h₀.symm.trans hi)
      refine ⟨hsound,hphase.order hstep h.order,?_⟩
      intro hreturned g hg hdraining acts hin
      obtain rfl := Option.some.inj ((List.getElem?_set_self hlt).symm.trans hg)
      obtain ⟨hbefore,hdraining⟩ := Draining.of_step hphase hstep hreturned hdraining
      rcases List.mem_or_eq_of_mem_set hin with hold | rfl
      · exact h.calm hbefore h₀ hdraining hold
      · cases (hphase.step hstep).1
    · have hg := h.others hi hi0
      refine ⟨hsound,h.order_other hi hg hstep,?_⟩
      intro hreturned g hg₀ hdraining acts hin
      rw [List.getElem?_set_ne hi0] at hg₀
      exact h.calm_other hi hg hstep hslip hreturned hg₀ hdraining hin

theorem step_advance {sys : System Shared Goroutine} {i : ℕ} (hi : sys.threads[i]? = some g)
    (hstep : advance sys.shared g a = some (sh',g')) :
    Interleaving.step advance sys (.advance i a) = ⟨sh',sys.threads.set i g'⟩ ∧
      observed observe sys (.advance i a) = observe sys.shared g a := by
  simp only [Interleaving.step,observed,hi,hstep,Option.map_some,Option.getD_some,and_self]

theorem handler_reaches {pre post : List Action} {sys : System Shared Goroutine} {i : ℕ}
    (hi : sys.threads[i]? = some (.handler (pre ++ .work :: post))) :
    ∃ es : List (Event Goroutine Bool), (∀ e ∈ es, Arrival e) ∧
      .middleware ∈ trace advance observe sys es := by
  induction pre generalizing sys with
  | nil =>
    obtain ⟨_,hseen⟩ := step_advance (a := false) hi rfl
    refine ⟨[.advance i false],by simp [Arrival],?_⟩
    rw [trace,hseen]
    exact List.mem_cons_self
  | cons act pre ih =>
    obtain ⟨hstep,_⟩ := step_advance (a := false) hi rfl
    have hlt := (List.getElem?_eq_some_iff.mp hi).1
    have hnext : (Interleaving.step advance sys (.advance i false)).threads[i]? =
        some (.handler (pre ++ .work :: post)) := by
      rw [hstep]
      exact List.getElem?_set_self hlt
    obtain ⟨es,hes,hin⟩ := ih hnext
    exact ⟨.advance i false :: es,List.forall_mem_cons.mpr ⟨trivial,hes⟩,
      List.mem_append_right _ hin⟩

theorem stop_reaches {pre post : List Call} {svc : Service} {sys : System Shared Goroutine}
    (hpre : .wait ∉ pre) (h₀ : sys.threads[0]? = some (.stop (pre ++ .stop svc :: post))) :
    ∃ es : List (Event Goroutine Bool), (∀ e ∈ es, Arrival e) ∧
      .stopped svc ∈ trace advance observe sys es ∧
      ∀ i ≠ 0, (run advance sys es).threads[i]? = sys.threads[i]? := by
  induction pre generalizing sys with
  | nil =>
    obtain ⟨hstep,hseen⟩ := step_advance (a := false) h₀ rfl
    refine ⟨[.advance 0 false],by simp [Arrival],?_,?_⟩
    · rw [trace,hseen]
      exact List.mem_cons_self
    · intro i hne
      rw [run,List.foldl_cons,hstep]
      exact List.getElem?_set_ne hne.symm
  | cons c pre ih =>
    obtain ⟨hc,hpre⟩ := not_or.mp (mt List.mem_cons.mpr hpre)
    obtain ⟨hstep,_⟩ := step_advance h₀ (advance_stop (Ne.symm hc) _ _ false)
    have hlt := (List.getElem?_eq_some_iff.mp h₀).1
    have hnext : (Interleaving.step advance sys (.advance 0 false)).threads[0]? =
        some (.stop (pre ++ .stop svc :: post)) := by
      rw [hstep]
      exact List.getElem?_set_self hlt
    obtain ⟨es,hes,hin,hrest⟩ := ih hpre hnext
    refine ⟨.advance 0 false :: es,List.forall_mem_cons.mpr ⟨trivial,hes⟩,
      List.mem_append_right _ hin,?_⟩
    intro i hne
    refine (hrest i hne).trans ?_
    rw [hstep]
    exact List.getElem?_set_ne hne.symm

/-- From a state in which `Wait` has returned and `Stop` is in its `select`, with a service to
stop, a handler with a middleware left to run can be left behind. -/
theorem select_reaches {sys : System Shared Goroutine} {calls : List Call} {svc : Service} {j : ℕ}
    {acts : List Action} (hreturned : sys.shared.wait = .returned)
    (h₀ : sys.threads[0]? = some (.select calls)) (hcalls : .wait ∉ calls)
    (hsvc : .stop svc ∈ calls) (hj0 : j ≠ 0) (hj : sys.threads[j]? = some (.handler acts))
    (hwork : .work ∈ acts) :
    ∃ (es : List (Event Goroutine Bool)) (l l' : List Sight), (∀ e ∈ es, Arrival e) ∧
      trace advance observe sys es = .drained :: (l ++ l') ∧
      .stopped svc ∈ l ∧ .middleware ∈ l' := by
  -- `Stop` leaves its wait through the drained branch
  obtain ⟨hdrain,hseen⟩ := step_advance h₀ (a := false) (if_pos (.inr hreturned))
  rw [observe,if_pos hreturned] at hseen
  have hlt := (List.getElem?_eq_some_iff.mp h₀).1
  -- it stops the service
  obtain ⟨pre,post,rfl⟩ := List.append_of_mem hsvc
  have hpast : (Interleaving.step advance sys (.advance 0 false)).threads[0]? =
      some (.stop (pre ++ .stop svc :: post)) := by
    rw [hdrain]
    exact List.getElem?_set_self hlt
  obtain ⟨es,hes,hstopped,hrest⟩ :=
    stop_reaches (fun hin => hcalls (List.mem_append_left _ hin)) hpast
  -- and then the handler comes to its middlewares
  obtain ⟨before,after,rfl⟩ := List.append_of_mem hwork
  have hlate : (run advance (Interleaving.step advance sys (.advance 0 false)) es).threads[j]? =
      some (.handler (before ++ .work :: after)) := by
    rw [hrest j hj0,hdrain]
    exact (List.getElem?_set_ne (Ne.symm hj0)).trans hj
  obtain ⟨es',hes',hmiddleware⟩ := handler_reaches hlate
  refine ⟨.advance 0 false :: (es ++ es'),_,_,?_,?_,hstopped,hmiddleware⟩
  · rw [List.forall_mem_cons,List.forall_mem_append]
    exact ⟨trivial,hes,hes'⟩
  · rw [trace,hseen,trace_append]
    rfl

/-- A run in which a stream slips by can go on so that it is missed. -/
theorem Sound.missed {sys : System Shared Goroutine} {e : Event Goroutine Bool}
    (h : Sound seen sys) (hslip : SlipsBy sys e) :
    ∃ es : List (Event Goroutine Bool), (∀ e ∈ es, Arrival e) ∧
      ¬ MissesNone (seen ++ trace advance observe sys (e :: es)) := by
  cases e with
  | spawn g => exact hslip.elim
  | advance i a =>
    obtain ⟨hi,hwaiting,hzero,⟨calls,svc,hselect,hsvc⟩,acts,hhandler,_,hwork⟩ := hslip
    obtain ⟨g₀,h₀,hphase⟩ := h.stop
    obtain ⟨j,hj⟩ := List.mem_iff_getElem?.mp hhandler
    obtain ⟨k,hk⟩ := List.mem_iff_getElem?.mp hselect
    obtain rfl : k = 0 := by
      by_contra hne
      exact h.others hk hne
    obtain rfl := Option.some.inj (h₀.symm.trans hk)
    have hne : ∀ {m g}, sys.threads[m]? = some g → g ≠ .select calls → m ≠ 0 := by
      rintro m g hm hg rfl
      exact hg (Option.some.inj (hm.symm.trans h₀))
    have hji : j ≠ i := by
      rintro rfl
      cases hi.symm.trans hj
    have hcalls : .wait ∉ calls := by
      cases hphase with
      | selecting _ hcalls => exact hcalls
    obtain ⟨hwait,hseen⟩ := step_advance hi (a := a) (if_pos ⟨hwaiting,hzero⟩)
    have hnext₀ : (Interleaving.step advance sys (.advance i a)).threads[0]? =
        some (.select calls) := by
      rw [hwait]
      exact (List.getElem?_set_ne (hne hi (by simp))).trans h₀
    have hnextj : (Interleaving.step advance sys (.advance i a)).threads[j]? =
        some (.handler acts) := by
      rw [hwait]
      exact (List.getElem?_set_ne (Ne.symm hji)).trans hj
    obtain ⟨es,l,l',hes,htrace,hstopped,hmiddleware⟩ :=
      select_reaches (by rw [hwait]) hnext₀ hcalls hsvc (hne hj (by simp)) hnextj hwork
    have hquiet : observe sys.shared .waiter a = [] := rfl
    refine ⟨es,hes,fun hmisses => ?_⟩
    rw [trace,hseen,hquiet,htrace,List.nil_append] at hmisses
    have hpairs := hmisses (by simp)
    rw [List.pairwise_append,List.pairwise_cons,List.pairwise_append] at hpairs
    exact hpairs.2.1.2.2.2 _ hstopped _ hmiddleware ⟨svc,rfl⟩ rfl

/-- Draining misses no stream, whatever the interleaving of streams and `Stop`, if `Wait` never
returns while a handler that was looked up has yet to come to its `Add`; and after a `Wait` that
returns then, the run can go on so that the stream is missed. -/
theorem stop_missesNone (cfg : Config) (s : Server) (es : List (Event Goroutine Bool))
    (hes : ∀ e ∈ es, Arrival e) :
    (EachStep advance (fun sys e => ¬ SlipsBy sys e) (begin cfg s) es →
      MissesNone (trace advance observe (begin cfg s) es)) ∧
    ∀ e, SlipsBy (run advance (begin cfg s) es) e → ∃ es', (∀ e' ∈ e :: es', Arrival e') ∧
      ¬ MissesNone (trace advance observe (begin cfg s) (es ++ e :: es')) := by
  constructor
  · intro hslips
    have hguarded := invariant_trace_of_eachStep
      (fun seen sys e (h : Guarded seen sys) hC => h.step hC.1 hC.2) (guarded_begin cfg s)
      ((eachStep_of_forall hes).and hslips)
    exact hguarded.order
  · intro e hslip
    have hsound := invariant_trace (fun seen sys e (h : Sound seen sys) he => h.step he)
      (sound_begin cfg s) hes
    obtain ⟨es',hes',hmissed⟩ := hsound.missed hslip
    refine ⟨es',List.forall_mem_cons.mpr ⟨?_,hes'⟩,?_⟩
    · cases e with
      | spawn g => exact hslip.elim
      | advance i a => trivial
    · rwa [trace_append]

def echoServer : Server := ⟨["/echo/1.0.0"],[0],true,false,some 0,some 0,1⟩

def echoActs : List Action := [.add,.requestContext,.afterFunc,.work,.stop,.close,.cancel,.done]

theorem handles_echoActs : Handles echoActs := by
  refine ⟨Unit,Unit,Unit,(Pipeline.newPipeline [.act id fun _ => .ret]).withActiveStreams,
    State.blank,0,[],rfl,?_⟩
  rw [Pipeline.handleStream,Pipeline.run_eq_onion]
  rfl

/-- A stream is handled, then the server stops. -/
def handledFirst : List (Event Goroutine Bool) :=
  .spawn (.stream "/echo/1.0.0" echoActs) :: (List.replicate 9 (.advance 2 false)).append
    [.advance 0 false,.advance 0 false,.advance 1 false,.advance 0 false,.advance 0 false]

theorem missesNone_handledFirst :
    trace advance observe (begin .defaultConfig echoServer) handledFirst =
        [.middleware,.drained,.stopped 0] ∧
      MissesNone (trace advance observe (begin .defaultConfig echoServer) handledFirst) := by
  refine ⟨rfl,(stop_missesNone .defaultConfig echoServer handledFirst ?_).1 ?_⟩
  · simp [handledFirst,Arrival,handles_echoActs]
  · have htimeout : 0 < Config.defaultConfig.shutdownTimeout := by decide
    simp [handledFirst,EachStep,SlipsBy,Interleaving.step,advance,begin,echoServer,echoActs,
      Shared.act,Shared.call,Server.stopCalls,htimeout]

/-- A stream is looked up before the server stops, and its handler starts late. -/
def lookedUpFirst : List (Event Goroutine Bool) :=
  .spawn (.stream "/echo/1.0.0" echoActs) :: .advance 2 false :: .advance 0 false ::
    .advance 0 false :: .advance 1 false :: .advance 0 false :: .advance 0 false ::
    List.replicate 4 (.advance 2 false)

/-- `Stop` has drained and stopped a service, and then the middleware takes its step. -/
theorem missed_lookedUpFirst :
    (∀ e ∈ lookedUpFirst, Arrival e) ∧
      trace advance observe (begin .defaultConfig echoServer) lookedUpFirst =
        [.drained,.stopped 0,.middleware] ∧
      ¬ MissesNone (trace advance observe (begin .defaultConfig echoServer) lookedUpFirst) := by
  have htrace : trace advance observe (begin .defaultConfig echoServer) lookedUpFirst =
      [.drained,.stopped 0,.middleware] := rfl
  refine ⟨by simp [lookedUpFirst,Arrival,handles_echoActs],htrace,?_⟩
  rw [htrace]
  simp [MissesNone]

end Drain
end P2PForge
