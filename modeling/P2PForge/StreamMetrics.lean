import P2PForge.HandleStream

/-! Metrics of streams.
`MetricsMiddleware` tells the collector that a stream has started, calls `next` and tells it
that the stream is completed. The second call is not deferred: a panic that unwinds to the
`Recovery` outside passes it by. -/
namespace P2PForge

/-- What a `MetricsCollector` is told of streams; float64 milliseconds are read as
rationals. -/
inductive MetricCall
  | streamStarted (protocol peerID : String)
  | streamCompleted (protocol peerID : String) (durationMs : ℚ) (err : Option GoErr)

def Duration.milliseconds (d : Duration) : ℚ := (d / 1000 : Int64).toInt / 1000

variable {ρ V W : Type}

abbrev Measured (ρ V W : Type) := State ρ V (W × List MetricCall)

def collect (call : MetricCall) (s : Measured ρ V W) : Measured ρ V W :=
  { s with world := (s.world.1,s.world.2 ++ [call]) }

/-- `MetricsMiddleware`, where `now` reads the clock. -/
def metricsMiddleware (env : Env String) (now : Measured ρ V W → Time) :
    Middleware ρ V (W × List MetricCall) :=
  .act (fun s => collect (.streamStarted s.stream.protocol (env.peerString s.sc.peerID)) s)
    fun s₀ =>
    .act id fun s₁ =>
      .call () fun
        | some v => .panic v
        | none =>
          .act (fun s => collect (.streamCompleted s₀.stream.protocol (env.peerString s₀.sc.peerID)
            ((now s).sub (now s₁)).milliseconds s.sc.err) s) fun _ => .ret

def unmetered (ms : List (Middleware ρ V W)) : List (Middleware ρ V (W × List MetricCall)) :=
  ms.map beside

/-- A pipeline with `Recovery` outside, `MetricsMiddleware` next, and then any middlewares. -/
def measured (p : Pipeline ρ V W) (env : Env String) (now : Measured ρ V W → Time) :
    Pipeline ρ V (W × List MetricCall) :=
  ⟨recovery :: metricsMiddleware env now :: unmetered p.middleware,p.tracked,p.idleTimeout,
    p.requestTimeout⟩

/-- What came of a stream: the calls made of the collector meanwhile, the `sc.Err` it ended
with, and what was seen of its middlewares. -/
structure Handled (ρ V W : Type) where
  calls : List MetricCall
  err : Option GoErr
  trace : List (Mark (Timed ρ V (W × List MetricCall)))

def handleStreams (p : Pipeline ρ V (W × List MetricCall)) :
    Measured ρ V W → ℤ → List (Stream ρ × List (List Tick)) → List (Handled ρ V W)
  | _,_,[] => []
  | s,active,(stream,ahead) :: streams =>
    let out := p.handleStream { s with stream := stream } active ahead
    ⟨out.1.world.1.2.drop s.world.2.length,out.1.sc.err,
        p.timed.trace 0 (p.enter (Pipeline.arrive { s with stream := stream } active ahead))⟩ ::
      handleStreams p out.1.inner (State.runtime out.1).active streams

/-- The stream was started and then completed, once, with an error if it ended with one. -/
def Handled.Completed (h : Handled ρ V W) : Prop :=
  ∃ protocol peerID durationMs err,
    h.calls = [.streamStarted protocol peerID,.streamCompleted protocol peerID durationMs err] ∧
      (h.err ≠ none → err ≠ none)

namespace Pipeline

open State Timed

variable (env : Env String) (now : Measured ρ V W → Time)

def SameCalls (t t' : Timed ρ V (W × List MetricCall)) : Prop := t'.world.1.2 = t.world.1.2

theorem SameCalls.trans {t t' t'' : Timed ρ V (W × List MetricCall)} (h : SameCalls t t')
    (h' : SameCalls t' t'') : SameCalls t t'' := Eq.trans h' h

theorem calls_run (ms : List (Middleware ρ V W)) (t : Timed ρ V (W × List MetricCall)) :
    SameCalls t (Onion.run failed Onion.stop ((unmetered ms).map P2PForge.timed) t).1 := by
  have hrel : ∀ m ∈ (unmetered ms).map P2PForge.timed, m.Each SameCalls := by
    intro m hm
    obtain ⟨mw,hmw,rfl⟩ := List.mem_map.mp hm
    obtain ⟨mw,_,rfl⟩ := List.mem_map.mp hmw
    have hinner : (beside mw).Each fun s s' : Measured ρ V W => s'.world.2 = s.world.2 := by
      apply Code.each_lift _ mw.each_true
      exact fun _ _ _ => rfl
    apply Code.each_lift _ hinner
    exact fun f t hf => hf.trans (congrArg Prod.snd (passes_pass t).world)
  refine Onion.run_rel (R := SameCalls) (fun _ => rfl) SameCalls.trans ?_ hrel t
  exact fun _ => rfl

def started (t : Timed ρ V (W × List MetricCall)) : Timed ρ V (W × List MetricCall) :=
  step .work (onInner fun s =>
    collect (.streamStarted s.stream.protocol (env.peerString s.sc.peerID)) s) t

def afterStart (t : Timed ρ V (W × List MetricCall)) : Timed ρ V (W × List MetricCall) :=
  step .work (onInner id) (started env t)

theorem calls_afterStart (t : Timed ρ V (W × List MetricCall)) :
    (afterStart env t).world.1.2 =
      t.world.1.2 ++ [.streamStarted t.stream.protocol (env.peerString t.sc.peerID)] ∧
      (afterStart env t).sc = t.sc := by
  have hfirst := passes_pass t
  have hsecond := passes_pass (started env t)
  constructor
  · rw [← hfirst.sc,← hfirst.protocol,← congrArg Prod.snd hfirst.world]
    exact congrArg Prod.snd hsecond.world
  · exact hsecond.sc.trans hfirst.sc

theorem run_metrics {next : Effect (Timed ρ V (W × List MetricCall)) (Panic V)}
    (hnext : ∀ t, SameCalls t (next t).1) (t : Timed ρ V (W × List MetricCall)) :
    ((P2PForge.timed (metricsMiddleware env now)).run (fun _ => next) t).2 =
        (next (afterStart env t)).2 ∧
      ((P2PForge.timed (metricsMiddleware env now)).run (fun _ => next) t).1.sc.err =
        (next (afterStart env t)).1.sc.err ∧
      ∃ durationMs,
        ((P2PForge.timed (metricsMiddleware env now)).run (fun _ => next) t).1.world.1.2 =
          t.world.1.2 ++ .streamStarted t.stream.protocol (env.peerString t.sc.peerID) ::
            if (next (afterStart env t)).2.isSome then []
            else [.streamCompleted t.stream.protocol (env.peerString t.sc.peerID) durationMs
              (next (afterStart env t)).1.sc.err] := by
  have hstart := (calls_afterStart env t).1
  have hcalls := Eq.trans (hnext (afterStart env t)) hstart
  have hfirst := passes_pass t
  cases hpanic : (next (afterStart env t)).2 with
  | some v =>
    have hrun : (P2PForge.timed (metricsMiddleware env now)).run (fun _ => next) t =
        ((next (afterStart env t)).1,some v) := by
      simp only [afterStart,started] at hpanic
      simp [P2PForge.timed,metricsMiddleware,Code.lift,hpanic,afterStart,started]
    rw [hrun]
    refine ⟨rfl,rfl,0,?_⟩
    simpa using hcalls
  | none =>
    have hrun : ∃ durationMs : Measured ρ V W → ℚ,
        (P2PForge.timed (metricsMiddleware env now)).run (fun _ => next) t =
          (step .work (onInner fun s => collect (.streamCompleted t.stream.protocol
            (env.peerString t.sc.peerID) (durationMs s) s.sc.err) s) (next (afterStart env t)).1,
              none) := by
      simp only [afterStart,started] at hpanic
      refine ⟨fun s => ((now s).sub (now (pass (started env t)).inner)).milliseconds,?_⟩
      rw [← hfirst.protocol,← hfirst.sc]
      simp [P2PForge.timed,metricsMiddleware,Code.lift,hpanic,afterStart,started,State.inner]
    obtain ⟨durationMs,hrun⟩ := hrun
    have hend := passes_pass (next (afterStart env t)).1
    rw [hrun]
    refine ⟨rfl,congrArg (·.err) hend.sc,durationMs (pass (next (afterStart env t)).1).inner,?_⟩
    have hlast := Eq.trans (congrArg Prod.snd hend.world) hcalls
    simp only [Option.isSome_none,Bool.false_eq_true,if_false]
    rw [← hend.sc,List.append_cons,← hlast]
    rfl

/-- The rest of the list is seen to be left by a panic exactly if it panics after the
collector was told of the start. -/
theorem exit_mem_trace (p : Pipeline ρ V W) {t : Timed ρ V (W × List MetricCall)}
    (ht : failed t = false) :
    .exit 2 true ∈ (measured p env now).timed.trace 0 t ↔
      (Onion.run failed Onion.stop ((unmetered p.middleware).map P2PForge.timed)
        (afterStart env t)).2.isSome = true := by
  have hhalted : ¬ failed t = true := by simp [ht]
  rw [trace_eq_seen,List.drop_zero,timed_recovery _ rfl,List.map_cons,Onion.seen_cons hhalted,
    ← Onion.exit_true_mem_seen (i := 2)]
  generalize Onion.run failed Onion.stop (P2PForge.timed (metricsMiddleware env now) ::
    (unmetered p.middleware).map P2PForge.timed) = next
  have hinner : .exit 2 true ∈ Onion.seen failed 1 (P2PForge.timed (metricsMiddleware env now) ::
      (unmetered p.middleware).map P2PForge.timed) t ↔
      .exit 2 true ∈ Onion.seen failed 2 ((unmetered p.middleware).map P2PForge.timed)
        (afterStart env t) := by
    rw [Onion.seen_cons hhalted]
    generalize Onion.run failed Onion.stop ((unmetered p.middleware).map P2PForge.timed) = rest
    cases hpanic : (rest (afterStart env t)).2 <;>
      simp only [afterStart,started] at hpanic <;>
      simp [Onion.during,P2PForge.timed,metricsMiddleware,Code.lift,Code.seen,hpanic,afterStart,
        started]
  rw [← hinner]
  cases hpanic : (next t).2 <;>
    simp [Onion.during,P2PForge.timed,recovery,Code.lift,Code.seen,hpanic]

theorem calls_handleStream (p : Pipeline ρ V W) (s : Measured ρ V W) (active : ℤ)
    (ahead : List (List Tick)) {out : Timed ρ V (W × List MetricCall)}
    (hout : ((measured p env now).handleStream s active ahead).1 = out) :
    (.exit 2 true ∈ (measured p env now).timed.trace 0
        ((measured p env now).enter (arrive s active ahead)) ∧
      out.world.1.2 = s.world.2 ++ [.streamStarted s.stream.protocol
        (env.peerString s.stream.remotePeer)]) ∨
    (.exit 2 true ∉ (measured p env now).timed.trace 0
        ((measured p env now).enter (arrive s active ahead)) ∧
      ∃ durationMs, out.world.1.2 = s.world.2 ++ [.streamStarted s.stream.protocol
        (env.peerString s.stream.remotePeer),.streamCompleted s.stream.protocol
        (env.peerString s.stream.remotePeer) durationMs out.sc.err]) := by
  obtain ⟨hsince,_,hworld⟩ := (measured p env now).enter_keeps (arrive s active ahead)
  have hpeer : ((measured p env now).enter (arrive s active ahead)).sc.peerID =
      ((measured p env now).enter (arrive s active ahead)).stream.remotePeer := rfl
  have hok : failed ((measured p env now).enter (arrive s active ahead)) = false := rfl
  have hprotocol := hsince.protocol
  rw [hsince.remotePeer] at hpeer
  rw [exit_mem_trace env now p hok,← hout,handleStream]
  generalize (measured p env now).enter (arrive s active ahead) = start at *
  have hhalted : ¬ failed start = true := by simp [hok]
  obtain ⟨hpanic,herr,durationMs,hcalls⟩ := run_metrics env now (calls_run p.middleware) start
  rw [hprotocol,hpeer,hworld] at hcalls
  -- the deferred functions keep both the context and the calls
  obtain ⟨_,hsc,hkept⟩ :=
    (measured p env now).leave_since ((measured p env now).timed.run 0 start).1
  rw [hsc,hkept,run_eq_onion,List.drop_zero,timed_recovery _ rfl,List.map_cons,
    Onion.run,if_neg hhalted,run_timed_recovery,Onion.run,if_neg hhalted,hpanic]
  generalize (P2PForge.timed (metricsMiddleware env now)).run _ start = ran at *
  cases hrest : (Onion.run failed Onion.stop ((unmetered p.middleware).map P2PForge.timed)
      (afterStart env start)).2 with
  | some v =>
    rw [hrest] at hcalls
    exact .inl ⟨rfl,Eq.trans (congrArg Prod.snd (passes_pass ran.1).world) hcalls⟩
  | none =>
    rw [hrest] at hcalls
    refine .inr ⟨by simp,durationMs,?_⟩
    rw [herr]
    exact hcalls

/-- Every stream is completed exactly if no panic comes out of the middlewares after
`MetricsMiddleware`. -/
theorem handleStreams_completed_iff (p : Pipeline ρ V W) (s : Measured ρ V W) (active : ℤ)
    (streams : List (Stream ρ × List (List Tick))) :
    (∀ h ∈ handleStreams (measured p env now) s active streams, h.Completed) ↔
      ∀ h ∈ handleStreams (measured p env now) s active streams, .exit 2 true ∉ h.trace := by
  induction streams generalizing s active with
  | nil => simp [handleStreams]
  | cons stream streams ih =>
    rw [handleStreams,List.forall_mem_cons,List.forall_mem_cons,ih]
    apply and_congr_left'
    rcases calls_handleStream env now p { s with stream := stream.1 } active stream.2 rfl with
      ⟨hexit,hcalls⟩ | ⟨hexit,durationMs,hcalls⟩
    · simp [Handled.Completed,hcalls,hexit]
    · refine iff_of_true ?_ hexit
      refine ⟨stream.1.protocol,env.peerString stream.1.remotePeer,durationMs,_,?_,id⟩
      rw [hcalls,List.drop_left]

def panicking : Pipeline Unit Unit Unit := newPipeline [.panic (.value ())]

/-- The collector hears that the stream of the panicking handler started, and no more. -/
theorem panicking_not_completed :
    ∃ h, handleStreams (measured panicking textEnv fun _ => ⟨0,by decide,by decide⟩)
        ⟨State.blank.sc,State.blank.stream,false,State.blank.pools,((),[])⟩ 0
        [(⟨"/echo/1.0.0","alice",(),id⟩,[])] = [h] ∧
      h.calls = [.streamStarted "/echo/1.0.0" "alice"] ∧
      h.err = some (.sentinel .errPanic) ∧ ¬ h.Completed := by
  simp only [handleStreams,handleStream,run_eq_onion]
  refine ⟨_,rfl,rfl,rfl,?_⟩
  rintro ⟨_,_,_,_,hcalls,_⟩
  cases hcalls

end Pipeline
end P2PForge
