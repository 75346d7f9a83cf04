import P2PForge.Interleaving
import P2PForge.TickLoop
import P2PForge.Pipeline

/-! Periodic services and the readiness that is asked of them.
Every `Start` of a `TickerService` makes a loop with a context of its own, and `Stop` cancels the
context of the latest one. The loops record how their work ended; a request to `/readyz` reads the
records while the loops go on. Starts, stops, loops and requests interleave in any way.
A service's interval is positive, or `time.NewTicker` would panic, and a call of its work may take
any time: a loop leaves its work when there is a report of it. -/
namespace P2PForge.Ticker

open Interleaving TickLoop

inductive Report
  | returned (err : Option GoErr) (now : Time)
  | panicked (text : String)

def Report.err : Report → Option GoErr
  | .returned err _ => err
  | .panicked text => some (.other ("panic: " ++ text))

def Report.now : Report → Option Time
  | .returned _ now => some now
  | .panicked _ => none

/-- A `TickerService`. `contexts` are those that its `Start` made so far, each with the caller's
context it was made from and whether it was cancelled; `cancel` says which of them the stored
cancel function belongs to. `reports` are all the outcomes of its work. -/
structure TickerService where
  name : String
  contexts : List (ℕ × Bool)
  cancel : Option ℕ
  lastRun : Option Time
  lastErr : Option GoErr
  healthy : Bool
  reports : List Report

namespace TickerService

def newTickerService (name : String) : TickerService := ⟨name,[],none,none,none,true,[]⟩

def start (ts : TickerService) (parent : ℕ) : TickerService :=
  { ts with contexts := ts.contexts ++ [(parent,false)],cancel := some ts.contexts.length }

def stop (ts : TickerService) : TickerService :=
  match ts.cancel with
  | none => ts
  | some ctx => { ts with contexts := ts.contexts.modify ctx fun c => (c.1,true) }

/-- What `runOnce` writes under the mutex. -/
def runOnce (ts : TickerService) : Report → TickerService
  | .returned err now => { ts with
    lastRun := some now
    lastErr := err
    healthy := err.isNone
    reports := ts.reports ++ [.returned err now] }
  -- the deferred function leaves `lastRun` alone
  | .panicked text => { ts with
    lastErr := some (.other ("panic: " ++ text))
    healthy := false
    reports := ts.reports ++ [.panicked text] }

end TickerService

open TickerService

structure Shared where
  contexts : ℕ → Bool
  services : ℕ → TickerService

namespace Shared

def update (s : Shared) (svc : ℕ) (f : TickerService → TickerService) : Shared :=
  { s with services := Function.update s.services svc (f (s.services svc)) }

/-- `ctx.Err() != nil` for a context of a service. -/
def done (s : Shared) (svc ctx : ℕ) : Bool :=
  match (s.services svc).contexts[ctx]? with
  | none => false
  | some (parent,cancelled) => cancelled || s.contexts parent

end Shared

/-- A readiness check: the one of the user guide (docs/USER_GUIDE.md, 1305-1310), which reports a
service that is not healthy, or any other function. -/
inductive Check
  | ticker (svc : ℕ)
  | other

/-- Where a goroutine stands. A request holds the services whose checks it has passed. -/
inductive Point
  | start (svc parent : ℕ)
  | first (svc ctx : ℕ)
  | loop (svc ctx : ℕ) (phase : Phase)
  | stop (svc : ℕ)
  | cancel (parent : ℕ)
  | readyz (passed : List ℕ) (checks : List Check)
  | explain (passed : List ℕ) (svc : ℕ)
  | responded (passed : List ℕ) (failed : Option ℕ) (err : Option GoErr)
  | returned

/-- What the environment adds to a step: the ticker fires, the context is found done, the work
ended, another check gave its result. -/
inductive Answer
  | go
  | tick
  | quit
  | report (r : Report)
  | checked (err : Option GoErr)

def unhealthy (text : GoErr → String) (ts : TickerService) : GoErr :=
  .other (ts.name ++ " unhealthy: " ++ ts.lastErr.elim "<nil>" text)

/-- The next step of a goroutine; `text` is the `Error` method. -/
def prog (text : GoErr → String) (s : Shared) : Point → Answer → Option (Shared × Point)
  | .start svc parent,.go =>
    some (s.update svc (·.start parent),.first svc (s.services svc).contexts.length)
  -- the ticker is made after the first call of `work`
  | .first svc ctx,.report r =>
    some (s.update svc (·.runOnce r),.loop svc ctx (.waiting false))
  | .loop svc ctx phase,.tick =>
    (TickLoop.step (s.done svc ctx) phase .tick).map fun phase => (s,.loop svc ctx phase)
  | .loop svc ctx phase,.go =>
    (TickLoop.step (s.done svc ctx) phase .take).map fun phase => (s,.loop svc ctx phase)
  | .loop svc ctx phase,.quit =>
    (TickLoop.step (s.done svc ctx) phase .quit).map fun phase => (s,.loop svc ctx phase)
  | .loop svc ctx phase,.report r =>
    (TickLoop.step (s.done svc ctx) phase .finish).map fun phase =>
      (s.update svc (·.runOnce r),.loop svc ctx phase)
  | .stop svc,.go => some (s.update svc (·.stop),.returned)
  | .cancel parent,.go =>
    some ({ s with contexts := Function.update s.contexts parent true },.returned)
  | .readyz passed [],.go => some (s,.responded passed none none)
  | .readyz passed (.ticker svc :: checks),.go =>
    if (s.services svc).healthy then some (s,.readyz (svc :: passed) checks)
    else some (s,.explain passed svc)
  | .readyz passed (.other :: _),.checked (some e) => some (s,.responded passed none (some e))
  | .readyz passed (.other :: checks),.checked none => some (s,.readyz passed checks)
  | .explain passed svc,.go =>
    some (s,.responded passed (some svc) (some (unhealthy text (s.services svc))))
  | _,_ => none

/-- What a goroutine may start with: a call of `Start`, of `Stop` or of a caller's cancel function,
or a request. -/
def Begins : Event Point Answer → Prop
  | .spawn (.start _ _) | .spawn (.stop _) | .spawn (.cancel _) | .spawn (.readyz [] _) => True
  | .spawn _ => False
  | .advance _ _ => True

def fresh (names : ℕ → String) : System Shared Point :=
  ⟨⟨fun _ => false,fun svc => newTickerService (names svc)⟩,[]⟩

variable {text : GoErr → String} {s s' : Shared} {l l' : Point} {a : Answer}

inductive Deed
  | nothing
  | start (svc parent : ℕ)
  | report (svc : ℕ) (r : Report)
  | stop (svc : ℕ)
  | cancel (parent : ℕ)

def deed : Point → Answer → Deed
  | .start svc parent,.go => .start svc parent
  | .first svc _,.report r | .loop svc _ _,.report r => .report svc r
  | .stop svc,.go => .stop svc
  | .cancel parent,.go => .cancel parent
  | _,_ => .nothing

def Shared.apply (s : Shared) : Deed → Shared
  | .nothing => s
  | .start svc parent => s.update svc (·.start parent)
  | .report svc r => s.update svc (·.runOnce r)
  | .stop svc => s.update svc (·.stop)
  | .cancel parent => { s with contexts := Function.update s.contexts parent true }

theorem shared_of_prog (h : prog text s l a = some (s',l')) : s' = s.apply (deed l a) := by
  revert h
  fun_cases prog text s l a with
  | case3 | case4 | case5 | case6 =>
    intro h
    obtain ⟨_,_,hpair⟩ := Option.map_eq_some_iff.mp h
    cases hpair
    rfl
  | case1 | case2 | case7 | case8 | case9 | case10 | case11 | case12 | case13 | case14 =>
    rintro ⟨⟩
    rfl
  | case15 =>
    intro h
    cases h

/-- The record of a service tells how its latest work ended, and when the latest that did not
panic. -/
structure Tells (ts : TickerService) : Prop where
  healthy : ts.healthy = ts.lastErr.isNone
  lastErr : ts.lastErr = ts.reports.getLast?.bind Report.err
  lastRun : ts.lastRun = (ts.reports.filterMap Report.now).getLast?

theorem Tells.runOnce {ts : TickerService} (h : Tells ts) (r : Report) : Tells (ts.runOnce r) := by
  cases r with
  | returned err now => exact ⟨rfl,by simp [TickerService.runOnce,Report.err],
      by simp [TickerService.runOnce,Report.now]⟩
  | panicked text => exact ⟨rfl,by simp [TickerService.runOnce,Report.err],
      by simpa [TickerService.runOnce,Report.now] using h.lastRun⟩

theorem Tells.stop {ts : TickerService} (h : Tells ts) : Tells ts.stop := by
  unfold TickerService.stop
  cases ts.cancel with
  | none => exact h
  | some ctx => exact ⟨h.healthy,h.lastErr,h.lastRun⟩

@[simp] theorem services_update_self (s : Shared) (svc : ℕ) (f : TickerService → TickerService) :
    (s.update svc f).services svc = f (s.services svc) := Function.update_self ..

theorem services_update_of_ne {svc n : ℕ} (h : n ≠ svc) (f : TickerService → TickerService) :
    (s.update svc f).services n = s.services n := Function.update_of_ne h ..

theorem forall_services_apply {P : TickerService → Prop}
    (hstart : ∀ ts parent, P ts → P (ts.start parent)) (hreport : ∀ ts r, P ts → P (ts.runOnce r))
    (hstop : ∀ ts, P ts → P ts.stop) (h : ∀ n, P (s.services n)) (d : Deed) (n : ℕ) :
    P ((s.apply d).services n) := by
  have hupdate : ∀ svc f, (∀ ts, P ts → P (f ts)) → P ((s.update svc f).services n) := by
    intro svc f hf
    by_cases hn : n = svc
    · subst hn
      rw [services_update_self]
      exact hf _ (h n)
    · rw [services_update_of_ne hn]
      exact h n
  cases d with
  | nothing => exact h n
  | start svc parent => exact hupdate svc _ fun ts => hstart ts parent
  | report svc r => exact hupdate svc _ fun ts => hreport ts r
  | stop svc => exact hupdate svc _ hstop
  | cancel parent => exact h n

theorem tells_apply (hs : ∀ n, Tells (s.services n)) (d : Deed) :
    ∀ n, Tells ((s.apply d).services n) :=
  forall_services_apply (fun _ _ h => ⟨h.healthy,h.lastErr,h.lastRun⟩) (fun _ r h => h.runOnce r)
    (fun _ h => h.stop) hs d

theorem shared_run {P : Shared → Prop} (hP : ∀ s d, P s → P (s.apply d))
    {sys : System Shared Point} (hsys : P sys.shared) (es : List (Event Point Answer)) :
    P (run (prog text) sys es).shared := by
  have hkeep : ∀ (sys : System Shared Point) (e : Event Point Answer), P sys.shared → True →
      P (Interleaving.step (prog text) sys e).shared := by
    intro sys e h _
    rcases step_cases (prog text) sys e with hsame | ⟨l,_,hstep⟩ | ⟨i,a,l,s',l',_,_,hprog,hstep⟩
    · rwa [hsame]
    · rwa [hstep]
    · rw [hstep,shared_of_prog hprog]
      exact hP _ _ h
  exact invariant_run hkeep hsys fun _ _ => trivial

theorem tells_shared_run {sys : System Shared Point} (hsys : ∀ n, Tells (sys.shared.services n))
    (es : List (Event Point Answer)) :
    ∀ n, Tells ((run (prog text) sys es).shared.services n) :=
  shared_run (P := fun s => ∀ n, Tells (s.services n)) (fun _ d h => tells_apply h d) hsys es

theorem tells_fresh (names : ℕ → String) (n : ℕ) : Tells ((fresh names).shared.services n) :=
  ⟨rfl,rfl,rfl⟩

/-- The latest work that has ended, if any, ended without an error. -/
def TickerService.Sound (ts : TickerService) : Prop := ∀ r ∈ ts.reports.getLast?, r.err = none

theorem Tells.healthy_iff {ts : TickerService} (h : Tells ts) : ts.healthy = true ↔ ts.Sound := by
  rw [h.healthy,h.lastErr,Sound]
  cases ts.reports.getLast? <;> simp

section Readiness

variable (text) (sys : System Shared Point)

def During (P : Shared → Prop) (es : List (Event Point Answer)) : Prop :=
  ∃ es₁ es₂, es = es₁ ++ es₂ ∧ P (run (prog text) sys es₁).shared

def tickers (checks : List Check) : List ℕ :=
  checks.filterMap fun
    | .ticker svc => some svc
    | .other => none

/-- The checks of `before` have been passed, on services that were sound when they were asked. -/
structure Passed (before : List Check) (passed : List ℕ) (es : List (Event Point Answer)) :
    Prop where
  tickers : tickers before = passed.reverse
  sound : ∀ svc ∈ passed, During text sys (fun s => (s.services svc).Sound) es

/-- What the points of a request say of the services while it was served. The answer to the
request is that of its first check that fails. A service that fails its check was not sound when
`Healthy` was called, but the text is that of a later moment, when `LastError` was. -/
inductive Answering (checks : List Check) (es : List (Event Point Answer)) : Point → Prop
  | readyz {before rest passed} : checks = before ++ rest → Passed text sys before passed es →
    Answering checks es (.readyz passed rest)
  | explain {before svc rest passed} : checks = before ++ .ticker svc :: rest →
    Passed text sys before passed es → During text sys (fun s => ¬ (s.services svc).Sound) es →
    Answering checks es (.explain passed svc)
  | ready {passed} : Passed text sys checks passed es →
    Answering checks es (.responded passed none none)
  | failed {before rest passed e} : checks = before ++ .other :: rest →
    Passed text sys before passed es → Answering checks es (.responded passed none (some e))
  | unhealthy {before svc rest passed es₁ es₂ es₃} : checks = before ++ .ticker svc :: rest →
    Passed text sys before passed es → es = es₁ ++ es₂ ++ es₃ →
    ¬ ((run (prog text) sys es₁).shared.services svc).Sound →
    Answering checks es (.responded passed (some svc)
      (some (unhealthy text ((run (prog text) sys (es₁ ++ es₂)).shared.services svc))))

variable {text sys} {P : Shared → Prop} {es : List (Event Point Answer)}
  {checks before : List Check} {passed : List ℕ}

theorem During.concat (h : During text sys P es) (e : Event Point Answer) :
    During text sys P (es ++ [e]) := by
  obtain ⟨es₁,es₂,rfl,hP⟩ := h
  exact ⟨es₁,es₂ ++ [e],List.append_assoc ..,hP⟩

theorem during_last (h : P (run (prog text) sys es).shared) (e : Event Point Answer) :
    During text sys P (es ++ [e]) := ⟨es,[e],rfl,h⟩

theorem Passed.concat (h : Passed text sys before passed es) (e : Event Point Answer) :
    Passed text sys before passed (es ++ [e]) :=
  ⟨h.tickers,fun svc hsvc => (h.sound svc hsvc).concat e⟩

theorem Answering.concat {l : Point} (h : Answering text sys checks es l)
    (e : Event Point Answer) : Answering text sys checks (es ++ [e]) l := by
  cases h with
  | readyz hchecks hpassed => exact .readyz hchecks (hpassed.concat e)
  | explain hchecks hpassed hsvc => exact .explain hchecks (hpassed.concat e) (hsvc.concat e)
  | ready hpassed => exact .ready (hpassed.concat e)
  | failed hchecks hpassed => exact .failed hchecks (hpassed.concat e)
  | @unhealthy before svc rest passed es₁ es₂ es₃ hchecks hpassed hes hsvc =>
    have hes' : es ++ [e] = es₁ ++ es₂ ++ (es₃ ++ [e]) := by
      rw [hes,List.append_assoc]
    exact .unhealthy hchecks (hpassed.concat e) hes' hsvc

theorem Answering.step {l l' : Point} {a : Answer} {i : ℕ} {s' : Shared}
    (h : Answering text sys checks es l)
    (htells : ∀ n, Tells ((run (prog text) sys es).shared.services n))
    (hprog : prog text (run (prog text) sys es).shared l a = some (s',l')) :
    Answering text sys checks (es ++ [.advance i a]) l' := by
  cases h with
  | @readyz before rest passed hchecks hpassed =>
    have hpassed' := hpassed.concat (.advance i a)
    cases rest with
    | nil =>
      cases a <;> cases hprog
      rw [List.append_nil] at hchecks
      exact .ready (hchecks ▸ hpassed')
    | cons check rest =>
      have hchecks' : checks = (before ++ [check]) ++ rest := by rw [hchecks]; simp
      cases check with
      | ticker svc =>
        cases a <;> simp only [prog,reduceCtorEq] at hprog
        split_ifs at hprog with hhealthy
        · cases hprog
          refine .readyz hchecks' ⟨?_,?_⟩
          · simp [Ticker.tickers,← hpassed.tickers]
          · rw [List.forall_mem_cons]
            exact ⟨during_last ((htells svc).healthy_iff.mp hhealthy) _,hpassed'.sound⟩
        · cases hprog
          refine .explain hchecks hpassed' (during_last ?_ _)
          exact fun hsound => hhealthy ((htells svc).healthy_iff.mpr hsound)
      | other =>
        cases a <;> try cases hprog
        rename_i err
        cases err <;> cases hprog
        · refine .readyz hchecks' ⟨?_,hpassed'.sound⟩
          simpa [Ticker.tickers] using hpassed.tickers
        · exact .failed hchecks hpassed'
  | @explain before svc rest passed hchecks hpassed hsvc =>
    obtain ⟨es₁,es₂,rfl,hsound⟩ := hsvc
    cases a <;> cases hprog
    exact .unhealthy hchecks (hpassed.concat _) rfl hsound
  | ready => cases a <;> cases hprog
  | failed => cases a <;> cases hprog
  | unhealthy => cases a <;> cases hprog

end Readiness

/-- A request to `/readyz` that comes after `before`, while other goroutines go on as they like. It
answers 200 only if every service it checks was, at some moment of the request, one whose latest
work had ended without an error; and it names a service only if that was not so at some moment,
all those that are checked before having passed. -/
theorem readyz_answers (names : ℕ → String) (before after : List (Event Point Answer))
    (checks : List Check) :
    let sys := run (prog text) (fresh names) before
    let asked := Interleaving.step (prog text) sys (.spawn (.readyz [] checks))
    ∀ l, (run (prog text) asked after).threads[sys.threads.length]? = some l →
      Answering text asked checks after l := by
  intro sys asked
  have htells : ∀ es n, Tells ((run (prog text) asked es).shared.services n) :=
    tells_shared_run (tells_shared_run (tells_fresh names) before)
  apply thread_run
  · simp [asked,Interleaving.step]
  · intro l hl
    obtain rfl : Point.readyz [] checks = l := by simpa [asked,Interleaving.step] using hl
    exact .readyz (List.nil_append checks).symm ⟨rfl,by simp⟩
  · exact fun es e l h => h.concat e
  · exact fun es a l s' l' _ hprog h => h.step (htells es) hprog

def firstPanics : List (Event Point Answer) :=
  [.spawn (.start 0 0),.advance 0 .go,.advance 0 (.report (.panicked "boom"))]

theorem readyz_answers_firstPanics :
    Answering (fun _ => "panic: boom")
      (Interleaving.step (prog fun _ => "panic: boom")
        (run (prog fun _ => "panic: boom") (fresh fun _ => "announcer") firstPanics)
        (.spawn (.readyz [] [.ticker 0]))) [.ticker 0] [.advance 1 .go,.advance 1 .go]
      (.responded [] (some 0) (some (.other "announcer unhealthy: panic: boom"))) :=
  readyz_answers (fun _ => "announcer") firstPanics [.advance 1 .go,.advance 1 .go] [.ticker 0] _
    rfl

/-- A service that recovers between the two calls of its check is reported without an error. -/
example : (run (prog fun _ => "") (fresh fun _ => "announcer")
    [.spawn (.start 0 0),.advance 0 .go,.advance 0 (.report (.panicked "boom")),
      .spawn (.readyz [] [.ticker 0]),.advance 1 .go,.advance 0 .tick,.advance 0 .go,
      .advance 0 (.report (.returned none Time.start)),.advance 1 .go]).threads[1]? =
    some (.responded [] (some 0) (some (.other "announcer unhealthy: <nil>"))) := by
  rfl

section Contexts

def Latest (ts : TickerService) : Prop := ∀ ctx, ts.cancel = some ctx ↔ ctx + 1 = ts.contexts.length

theorem latest_start (ts : TickerService) (parent : ℕ) : Latest (ts.start parent) := by
  intro ctx
  simp [TickerService.start,eq_comm]

theorem contexts_stop (ts : TickerService) (ctx : ℕ) :
    ts.stop.contexts[ctx]? = ts.contexts[ctx]?.map fun c =>
      if ts.cancel = some ctx then (c.1,true) else c := by
  unfold TickerService.stop
  cases ts.cancel with
  | none => simp
  | some cur => simp [List.getElem?_modify]

theorem Latest.stop {ts : TickerService} (h : Latest ts) : Latest ts.stop := by
  unfold TickerService.stop
  cases hcancel : ts.cancel with
  | none => exact h
  | some cur =>
    intro ctx
    rw [List.length_modify,← h ctx,hcancel]

theorem latest_apply (hs : ∀ n, Latest (s.services n)) (d : Deed) :
    ∀ n, Latest ((s.apply d).services n) :=
  forall_services_apply (fun ts parent _ => latest_start ts parent)
    (fun _ r h => by cases r <;> exact h) (fun _ h => h.stop) hs d

/-- What can become of a context of a service: it stays as it is, or it is cancelled while it is
the latest. -/
theorem context_apply {svc ctx : ℕ} {c : ℕ × Bool} (h : (s.services svc).contexts[ctx]? = some c)
    (d : Deed) :
    ((s.apply d).services svc).contexts[ctx]? = some c ∨
      d = .stop svc ∧ (s.services svc).cancel = some ctx ∧
        ((s.apply d).services svc).contexts[ctx]? = some (c.1,true) := by
  by_cases hstop : d = .stop svc
  · subst hstop
    rw [Shared.apply,services_update_self,contexts_stop,h,Option.map_some]
    split_ifs with hcancel
    · exact .inr ⟨rfl,hcancel,rfl⟩
    · exact .inl rfl
  · refine .inl ?_
    cases d with
    | nothing => exact h
    | start n parent =>
      have hlt := (List.getElem?_eq_some_iff.mp h).1
      by_cases hn : svc = n
      · subst hn
        rw [Shared.apply,services_update_self,TickerService.start,List.getElem?_append_left hlt,h]
      · rw [Shared.apply,services_update_of_ne hn,h]
    | report n r =>
      by_cases hn : svc = n
      · subst hn
        rw [Shared.apply,services_update_self]
        cases r <;> exact h
      · rw [Shared.apply,services_update_of_ne hn,h]
    | stop n =>
      have hn : svc ≠ n := fun heq => hstop (heq ▸ rfl)
      rw [Shared.apply,services_update_of_ne hn,h]
    | cancel n => exact h

theorem done_eq {svc ctx : ℕ} {c : ℕ × Bool} (h : (s.services svc).contexts[ctx]? = some c) :
    s.done svc ctx = (c.2 || s.contexts c.1) := by
  rw [Shared.done,h]

theorem contexts_apply {parent : ℕ} (h : s.contexts parent = true) (d : Deed) :
    (s.apply d).contexts parent = true := by
  cases d with
  | cancel n =>
    by_cases hn : parent = n
    · simp [Shared.apply,hn]
    · simpa [Shared.apply,hn] using h
  | nothing | start | report | stop => exact h

theorem done_apply {svc ctx : ℕ} (h : s.done svc ctx = true) (d : Deed) :
    (s.apply d).done svc ctx = true := by
  cases hc : (s.services svc).contexts[ctx]? with
  | none => simp [Shared.done,hc] at h
  | some c =>
    rw [done_eq hc] at h
    rcases context_apply hc d with hsame | ⟨_,_,hcancelled⟩
    · rw [done_eq hsame,Bool.or_eq_true]
      exact (Bool.or_eq_true_iff.mp h).imp id fun h => contexts_apply h d
    · rw [done_eq hcancelled,Bool.true_or]

theorem length_contexts_apply (s : Shared) (svc : ℕ) (d : Deed) :
    (s.services svc).contexts.length ≤ ((s.apply d).services svc).contexts.length := by
  by_contra hlt
  rw [Nat.not_le] at hlt
  have hget := List.getElem?_eq_getElem hlt
  rcases context_apply hget d with hsome | ⟨_,_,hsome⟩
  all_goals
    have hlen := (List.getElem?_eq_some_iff.mp hsome).1
    omega

end Contexts

section Loops

/-- A goroutine works for a context that is there, and its loop has ended only if it was told to. -/
def Belongs (s : Shared) : Point → Prop
  | .first svc ctx => ctx < (s.services svc).contexts.length
  | .loop svc ctx phase => ctx < (s.services svc).contexts.length ∧
    (phase = .ended → s.done svc ctx = true)
  | _ => True

theorem Belongs.apply (h : Belongs s l) (d : Deed) : Belongs (s.apply d) l := by
  cases l with
  | first svc ctx => exact h.trans_le (length_contexts_apply s svc d)
  | loop svc ctx phase =>
    exact ⟨h.1.trans_le (length_contexts_apply s svc d),fun hended => done_apply (h.2 hended) d⟩
  | _ => trivial

def Answer.move : Answer → Option Move
  | .go => some .take
  | .tick => some .tick
  | .quit => some .quit
  | .report _ => some .finish
  | .checked _ => none

theorem loop_of_prog {svc ctx : ℕ} {phase : Phase}
    (h : prog text s (.loop svc ctx phase) a = some (s',l')) :
    ∃ m phase', a.move = some m ∧ TickLoop.step (s.done svc ctx) phase m = some phase' ∧
      l' = .loop svc ctx phase' := by
  cases a with
  | checked err => cases h
  | _ =>
    obtain ⟨phase',hphase,hpair⟩ := Option.map_eq_some_iff.mp h
    cases hpair
    exact ⟨_,phase',rfl,hphase,rfl⟩

def Point.works : Point → Bool
  | .first _ _ | .loop _ _ _ => true
  | _ => false

theorem works_of_prog (h : prog text s l a = some (s',l')) (hl : l.works = false)
    (hstart : ∀ svc parent, l ≠ .start svc parent) : l'.works = false := by
  cases l with
  | start svc parent => exact absurd rfl (hstart svc parent)
  | first | loop => cases hl
  | readyz passed checks =>
    rcases checks with _ | ⟨_ | _,checks⟩
    · cases a <;> cases h
      rfl
    · cases a <;> simp only [prog,reduceCtorEq] at h
      split_ifs at h
      all_goals
        cases h
        rfl
    · rcases a with _ | _ | _ | _ | ⟨_ | _⟩ <;> cases h
      all_goals rfl
  | stop | cancel | explain =>
    cases a <;> cases h
    rfl
  | responded | returned => cases a <;> cases h

theorem Belongs.prog (h : Belongs s l) (hprog : prog text s l a = some (s',l')) :
    Belongs s' l' := by
  have happly := shared_of_prog hprog
  cases l with
  | loop svc ctx phase =>
    obtain ⟨m,phase',_,hphase,rfl⟩ := loop_of_prog hprog
    have hlt := h.1.trans_le (length_contexts_apply s svc (deed (.loop svc ctx phase) a))
    rw [← happly] at hlt
    refine ⟨hlt,?_⟩
    rintro rfl
    rw [happly]
    exact done_apply (done_of_ended hphase) _
  | start svc parent =>
    cases a <;> cases hprog
    simp [Belongs,TickerService.start]
  | first svc ctx =>
    cases a <;> cases hprog
    have hlt := h.trans_le (length_contexts_apply s svc (.report svc ‹_›))
    refine ⟨hlt,?_⟩
    intro hended
    cases hended
  | _ =>
    have hidle := works_of_prog hprog rfl (by simp)
    cases l' with
    | first | loop => cases hidle
    | _ => trivial

theorem belongs_run {sys : System Shared Point} (hsys : ∀ l ∈ sys.threads, Belongs sys.shared l)
    {es : List (Event Point Answer)} (hes : ∀ e ∈ es, Begins e) :
    ∀ l ∈ (run (prog text) sys es).threads, Belongs (run (prog text) sys es).shared l := by
  have hkeep : ∀ (sys : System Shared Point) (e : Event Point Answer),
      (∀ l ∈ sys.threads, Belongs sys.shared l) → Begins e →
      ∀ l ∈ (Interleaving.step (prog text) sys e).threads,
        Belongs (Interleaving.step (prog text) sys e).shared l := by
    intro sys e h he
    apply forall_threads_step h
    · rintro l rfl
      cases l with
      | first | loop => exact False.elim he
      | _ => trivial
    · exact fun _ hi hprog => (h _ (List.mem_of_getElem? hi)).prog hprog
    · intro l a s' l' hprog m hm
      rw [shared_of_prog hprog]
      exact hm.apply _
  exact invariant_run hkeep hsys hes

theorem latest_run (names : ℕ → String) (es : List (Event Point Answer)) :
    ∀ n, Latest ((run (prog text) (fresh names) es).shared.services n) := by
  have hfresh : ∀ n, Latest ((fresh names).shared.services n) := by
    intro n ctx
    simp [fresh,newTickerService]
  exact shared_run (P := fun s => ∀ n, Latest (s.services n)) (fun _ d h => latest_apply h d)
    hfresh es

theorem superseded_run {sys : System Shared Point} {svc ctx : ℕ} {c : ℕ × Bool}
    (hlatest : ∀ n, Latest (sys.shared.services n))
    (hctx : (sys.shared.services svc).contexts[ctx]? = some c)
    (hlater : ctx + 1 < (sys.shared.services svc).contexts.length)
    (es : List (Event Point Answer)) :
    ((run (prog text) sys es).shared.services svc).contexts[ctx]? = some c := by
  refine (shared_run (P := fun s => (∀ n, Latest (s.services n)) ∧
    ctx + 1 < (s.services svc).contexts.length ∧ (s.services svc).contexts[ctx]? = some c) ?_
    ⟨hlatest,hlater,hctx⟩ es).2.2
  rintro s d ⟨hlatest,hlater,hctx⟩
  refine ⟨latest_apply hlatest d,hlater.trans_le (length_contexts_apply s svc d),?_⟩
  rcases context_apply hctx d with hsame | ⟨_,hcancel,_⟩
  · exact hsame
  · have hlast := (hlatest svc ctx).mp hcancel
    omega

/-- `Stop` reaches the loop of the latest `Start` and no other. In every run the next `Stop` of a
service makes the context of its latest `Start` done. The loop of an earlier `Start` that was not
stopped in time goes on, whatever is called then, as long as the caller's context is not done. -/
theorem stop_reaches_latest_only (names : ℕ → String) {es : List (Event Point Answer)}
    (hes : ∀ e ∈ es, Begins e) {svc ctx parent : ℕ} {cancelled : Bool} :
    let sys := run (prog text) (fresh names) es
    (sys.shared.services svc).contexts[ctx]? = some (parent,cancelled) →
      (ctx + 1 = (sys.shared.services svc).contexts.length → ∀ i,
        sys.threads[i]? = some (.stop svc) →
        (Interleaving.step (prog text) sys (.advance i .go)).shared.done svc ctx = true) ∧
      (ctx + 1 < (sys.shared.services svc).contexts.length → cancelled = false →
        ∀ es', (∀ e ∈ es', Begins e) → let later := run (prog text) sys es'
        later.shared.contexts parent = false →
          later.shared.done svc ctx = false ∧ .loop svc ctx .ended ∉ later.threads) := by
  intro sys hctx
  have hlatest : ∀ n, Latest (sys.shared.services n) := latest_run names es
  constructor
  · intro hlast i hi
    have hstep : Interleaving.step (prog text) sys (.advance i .go) =
        ⟨sys.shared.apply (.stop svc),sys.threads.set i .returned⟩ := by
      simp only [Interleaving.step,hi,prog]
      rfl
    have hcancel := (hlatest svc ctx).mpr hlast
    have hstopped : ((sys.shared.apply (.stop svc)).services svc).contexts[ctx]? =
        some (parent,true) := by
      rw [Shared.apply,services_update_self,contexts_stop,hctx,Option.map_some,if_pos hcancel]
    rw [hstep,done_eq hstopped,Bool.true_or]
  · intro hlater hopen es' hes' later hparent
    have hkept : (later.shared.services svc).contexts[ctx]? = some (parent,cancelled) :=
      superseded_run hlatest hctx hlater es'
    have hdone : later.shared.done svc ctx = false := by
      rw [done_eq hkept,hopen,Bool.false_or]
      exact hparent
    refine ⟨hdone,fun hended => ?_⟩
    have hfresh : ∀ l ∈ (fresh names).threads, Belongs (fresh names).shared l := by simp [fresh]
    have hbelongs : Belongs later.shared (.loop svc ctx .ended) :=
      belongs_run (belongs_run hfresh hes) hes' _ hended
    have htold := hbelongs.2 rfl
    rw [hdone] at htold
    cases htold

def startsTwice : List (Event Point Answer) :=
  [.spawn (.start 0 0),.advance 0 .go,.spawn (.start 0 0),.advance 1 .go,
    .advance 0 (.report (.returned none Time.start)),
    .advance 1 (.report (.returned none Time.start))]

theorem begins_startsTwice : ∀ e ∈ startsTwice, Begins e := by
  simp [startsTwice,Begins]

/-- After two starts and one `Stop` the first loop is still not told to end. -/
theorem stop_reaches_latest_only_startsTwice :
    let sys := run (prog fun _ => "") (fresh fun _ => "announcer") startsTwice
    let stopped := run (prog fun _ => "") sys [.spawn (.stop 0),.advance 2 .go]
    stopped.shared.done 0 1 = true ∧ stopped.shared.done 0 0 = false ∧
      .loop 0 0 .ended ∉ stopped.threads := by
  intro sys stopped
  refine ⟨rfl,?_⟩
  exact (stop_reaches_latest_only (fun _ => "announcer") begins_startsTwice rfl).2 (by decide) rfl
    [.spawn (.stop 0),.advance 2 .go] (by simp [Begins]) rfl

end Loops

section Calls

def fired (_ : Shared) : Point → Answer → List ℕ
  | .loop svc _ phase,.tick => if phase = .ended then [] else [svc]
  | _,_ => []

theorem fired_of_blocked (h : prog text s l a = none) : fired s l a = [] := by
  cases l with
  | loop svc ctx phase =>
    cases a with
    | tick =>
      cases phase with
      | ended => rfl
      | _ => cases h
    | _ => rfl
  | _ => rfl

/-- The calls of a service's work that a goroutine has begun or is bound to make. -/
def Point.owed (svc : ℕ) : Point → ℕ
  | .first n _ => if n = svc then 1 else 0
  | .loop n _ phase => if n = svc then phase.owed else 0
  | _ => 0

/-- The calls of the work that a deed puts on record, and the calls of `Start`. -/
def Deed.works (svc : ℕ) : Deed → ℕ
  | .report n _ => if n = svc then 1 else 0
  | _ => 0

def Deed.starts (svc : ℕ) : Deed → ℕ
  | .start n _ => if n = svc then 1 else 0
  | _ => 0

theorem length_apply (s : Shared) (svc : ℕ) (d : Deed) :
    ((s.apply d).services svc).reports.length = (s.services svc).reports.length + d.works svc ∧
      ((s.apply d).services svc).contexts.length =
        (s.services svc).contexts.length + d.starts svc := by
  have hother : ∀ {n : ℕ} (f : TickerService → TickerService), n ≠ svc →
      (s.update n f).services svc = s.services svc := fun f hn => services_update_of_ne hn.symm f
  cases d with
  | nothing => exact ⟨rfl,rfl⟩
  | cancel parent => exact ⟨rfl,rfl⟩
  | start n parent =>
    by_cases hn : n = svc
    · subst hn
      simp [Shared.apply,TickerService.start,Deed.works,Deed.starts]
    · simp [Shared.apply,hother _ hn,Deed.works,Deed.starts,hn]
  | report n r =>
    by_cases hn : n = svc
    · subst hn
      cases r <;> simp [Shared.apply,TickerService.runOnce,Deed.works,Deed.starts]
    · simp [Shared.apply,hother _ hn,Deed.works,Deed.starts,hn]
  | stop n =>
    by_cases hn : n = svc
    · subst hn
      rw [Shared.apply,services_update_self,TickerService.stop]
      cases (s.services n).cancel <;> simp [Deed.works,Deed.starts]
    · simp [Shared.apply,hother _ hn,Deed.works,Deed.starts]

/-- A call of the work is paid for by a `Start` or by a tick. -/
theorem owed_of_prog (svc : ℕ) (h : prog text s l a = some (s',l')) :
    l'.owed svc + (deed l a).works svc ≤
      l.owed svc + (deed l a).starts svc + (fired s l a).count svc := by
  cases l with
  | start n parent =>
    cases a <;> cases h
    simp [Point.owed,deed,Deed.works,Deed.starts]
  | first n ctx =>
    cases a <;> cases h
    simp [Point.owed,deed,Deed.works,Deed.starts,fired,Phase.owed]
  | loop n ctx phase =>
    obtain ⟨m,phase',hm,hphase,rfl⟩ := loop_of_prog h
    have howed := owed_step hphase
    by_cases hn : n = svc
    · subst hn
      cases a with
      | tick =>
        cases hm
        have hphase' : phase ≠ .ended := by
          rintro rfl
          cases hphase
        simpa [Point.owed,deed,Deed.works,Deed.starts,fired,hphase'] using howed
      | checked err => cases hm
      | _ =>
        cases hm
        simpa [Point.owed,deed,Deed.works,Deed.starts,fired] using howed
    · cases a <;> simp [Point.owed,deed,Deed.works,hn]
  | _ =>
    have hidle := works_of_prog h rfl (by simp)
    have hquiet : l'.owed svc = 0 := by
      cases l' with
      | first | loop => cases hidle
      | _ => rfl
    rw [hquiet]
    cases a <;> simp [deed,Deed.works]

/-- The work of a service is never called without a reason: in every run there are no more of its
reports than there were calls of `Start` and ticks of its tickers together. -/
theorem work_called_le (names : ℕ → String) {es : List (Event Point Answer)}
    (hes : ∀ e ∈ es, Begins e) (svc : ℕ) :
    ((run (prog text) (fresh names) es).shared.services svc).reports.length ≤
      ((run (prog text) (fresh names) es).shared.services svc).contexts.length +
        (trace (prog text) fired (fresh names) es).count svc := by
  have hkeep : ∀ (seen : List ℕ) (sys : System Shared Point) (e : Event Point Answer),
      (sys.shared.services svc).reports.length + (sys.threads.map (Point.owed svc)).sum ≤
        (sys.shared.services svc).contexts.length + seen.count svc → Begins e →
      ((Interleaving.step (prog text) sys e).shared.services svc).reports.length +
          ((Interleaving.step (prog text) sys e).threads.map (Point.owed svc)).sum ≤
        ((Interleaving.step (prog text) sys e).shared.services svc).contexts.length +
          (seen ++ observed fired sys e).count svc := by
    intro seen sys e h he
    rcases observed_cases fired_of_blocked sys e with
      ⟨hstep,hseen⟩ | ⟨l,rfl,hstep,hseen⟩ | ⟨i,a,l,s',l',rfl,hi,hprog,hstep,hseen⟩
    · rw [hstep,hseen,List.append_nil]
      exact h
    · have hnew : l.owed svc = 0 := by
        cases l with
        | first | loop => exact False.elim he
        | _ => rfl
      rw [hstep,hseen,List.append_nil]
      simpa [hnew] using h
    · have hsum := sum_map_set (Point.owed svc) hi l'
      have howed := owed_of_prog svc hprog
      obtain ⟨hreports,hcontexts⟩ := length_apply sys.shared svc (deed l a)
      rw [hstep,hseen,shared_of_prog hprog,hreports,hcontexts,List.count_append]
      dsimp only
      omega
  have hfresh : ((fresh names).shared.services svc).reports.length +
        ((fresh names).threads.map (Point.owed svc)).sum ≤
      ((fresh names).shared.services svc).contexts.length + ([] : List ℕ).count svc := le_rfl
  have hrun := invariant_trace hkeep hfresh hes
  rw [List.nil_append] at hrun
  omega

/-- Both start, and the first loop is given a tick and works once more, which meets the bound. -/
def ticksOnce : List (Event Point Answer) :=
  startsTwice ++ [.advance 0 .tick,.advance 0 .go,.advance 0 (.report (.panicked "nil map"))]

theorem work_called_le_ticksOnce :
    let sys := run (prog fun _ => "") (fresh fun _ => "announcer") ticksOnce
    let ticks := (trace (prog fun _ => "") fired (fresh fun _ => "announcer") ticksOnce).count 0
    (∀ e ∈ ticksOnce, Begins e) ∧ (sys.shared.services 0).reports.length = 3 ∧
      (sys.shared.services 0).contexts.length = 2 ∧ ticks = 1 ∧
      (sys.shared.services 0).reports.length ≤
        (sys.shared.services 0).contexts.length + ticks := by
  have hes : ∀ e ∈ ticksOnce, Begins e := by
    simp [ticksOnce,startsTwice,Begins]
  exact ⟨hes,rfl,rfl,rfl,work_called_le (fun _ => "announcer") hes 0⟩

end Calls

end P2PForge.Ticker
