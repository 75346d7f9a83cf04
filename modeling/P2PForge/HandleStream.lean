import P2PForge.Pipeline

/-! The handler of a stream, from its entry to its return.
`HandleStream` runs the pipeline between a request context that may run out of time and the
deferred actions that undo it. What the runtime does meanwhile, the deadline passing and the
reset hook running in its own goroutine, may come before any action of the handler, and the
hook may also come late, after the handler has returned. -/
namespace P2PForge

variable {ρ V W : Type}

def setErr (e : GoErr) (s : State ρ V W) : State ρ V W :=
  { s with sc := { s.sc with err := some e } }

/-- `Recovery`: the deferred function runs however `next` ended and takes a panic for an
error. -/
def recovery : Middleware ρ V W :=
  .call () fun
    | none => .ret
    | some _ => .act (setErr (.sentinel .errPanic)) fun _ => .ret

/-- What `HandleStream` does, and what the runtime around it does: the request deadline passes,
the hook resets the stream. -/
inductive Action
  | add
  | requestContext
  | afterFunc
  | work
  | release (b : PoolRef)
  | stop
  | close
  | cancel
  | done
  | deadline
  | reset
  deriving DecidableEq

def Action.own : Action → Bool
  | .deadline | .reset => false
  | _ => true

inductive Tick
  | deadline
  | hook

/-- The runtime of a stream: whether the request context has a deadline still to come, whether
its hook is armed, whether the hook's goroutine has started and not yet reset the stream, the
count of the wait group, what is going to happen before each of the coming actions, and what
has been done so far. -/
structure Runtime where
  timer : Bool
  armed : Bool
  resetting : Bool
  active : ℤ
  ahead : List (List Tick)
  log : List Action

abbrev Timed (ρ V W : Type) := State ρ V (W × Runtime)

namespace State

def runtime (t : Timed ρ V W) : Runtime := t.world.2

def setRuntime (t : Timed ρ V W) (rt : Runtime) : Timed ρ V W :=
  { t with world := (t.world.1,rt) }

end State

namespace Timed

open State

def note (t : Timed ρ V W) (a : Action) : Timed ρ V W :=
  setRuntime t { runtime t with log := (runtime t).log ++ [a] }

def tick (t : Timed ρ V W) : Tick → Timed ρ V W
  | .deadline =>
    if (runtime t).timer then
      -- the context is done, and a hook that is armed starts
      note { setRuntime t { runtime t with
        timer := false
        armed := false
        resetting := (runtime t).resetting || (runtime t).armed } with ctxDone := true } .deadline
    else t
  | .hook =>
    if (runtime t).resetting then
      note { setRuntime t { runtime t with resetting := false } with
        stream := { t.stream with data := t.stream.reset t.stream.data } } .reset
    else t

/-- What the runtime does before the next action. -/
def pass (t : Timed ρ V W) : Timed ρ V W :=
  match (runtime t).ahead with
  | [] => t
  | ticks :: ahead => ticks.foldl tick (setRuntime t { runtime t with ahead := ahead })

def step (a : Action) (f : Timed ρ V W → Timed ρ V W) (t : Timed ρ V W) : Timed ρ V W :=
  note (f (pass t)) a

def settle (t : Timed ρ V W) : Timed ρ V W :=
  (runtime t).ahead.flatten.foldl tick (setRuntime t { runtime t with ahead := [] })

end Timed

/-- A middleware whose actions leave room for the runtime. -/
def timed (mw : Middleware ρ V W) : Middleware ρ V (W × Runtime) :=
  mw.lift (fun t => (Timed.pass t).inner) fun f => Timed.step .work (State.onInner f)

namespace Pipeline

open State Timed

variable (p : Pipeline ρ V W)

def timed : Pipeline ρ V (W × Runtime) :=
  ⟨p.middleware.map P2PForge.timed,p.tracked,p.idleTimeout,p.requestTimeout⟩

def addActive (n : ℤ) (t : Timed ρ V W) : Timed ρ V W :=
  setRuntime t { runtime t with active := (runtime t).active + n }

/-- What `HandleStream` does to the wait group if the pipeline was given one. -/
def counting (n : ℤ) (a : Action) (t : Timed ρ V W) : Timed ρ V W :=
  if p.tracked then step a (addActive n) t else t

/-- `requestContext`, with a deadline if there is a request timeout. -/
def requestContext (t : Timed ρ V W) : Timed ρ V W :=
  { setRuntime t { runtime t with timer := p.requestTimeout > 0 } with ctxDone := false }

/-- `context.AfterFunc`: a hook on a context that is done starts at once. -/
def afterFunc (t : Timed ρ V W) : Timed ρ V W :=
  if t.ctxDone then setRuntime t { runtime t with resetting := true }
  else setRuntime t { runtime t with armed := true }

def newContext (t : Timed ρ V W) : Timed ρ V W :=
  { t with sc := ⟨t.stream.remotePeer,[],none,none,none,none,p.idleTimeout,none⟩ }

def release (t : Timed ρ V W) : Timed ρ V W :=
  match t.sc.poolBuf with
  | none => t
  | some b =>
    step (.release b) (fun t => { t with
      pools := Function.update t.pools b.pool ((t.pools b.pool).release b.handle) }) t

def stop (t : Timed ρ V W) : Timed ρ V W :=
  setRuntime t { runtime t with armed := false }

/-- The cancel function of the context, which starts a hook that is still armed. -/
def cancel (t : Timed ρ V W) : Timed ρ V W :=
  { setRuntime t { runtime t with
    timer := false
    armed := false
    resetting := (runtime t).resetting || (runtime t).armed } with ctxDone := true }

/-- `HandleStream` up to the call of `run`. -/
def enter (t : Timed ρ V W) : Timed ρ V W :=
  p.newContext (step .afterFunc afterFunc
    (step .requestContext p.requestContext (p.counting 1 .add t)))

/-- The deferred functions of `HandleStream`, last one first. -/
def leave (t : Timed ρ V W) : Timed ρ V W :=
  p.counting (-1) .done (step .cancel cancel (step .close id (step .stop stop (release t))))

def arrive (s : State ρ V W) (active : ℤ) (ahead : List (List Tick)) : Timed ρ V W :=
  ⟨s.sc,s.stream,s.ctxDone,s.pools,(s.world,⟨false,false,false,active,ahead,[]⟩)⟩

/-- `HandleStream`: the state when it returns, and the panic it passes on if there is one. -/
def handleStream (s : State ρ V W) (active : ℤ) (ahead : List (List Tick)) :
    Timed ρ V W × Option (Panic V) :=
  let out := p.timed.run 0 (p.enter (arrive s active ahead))
  (p.leave out.1,out.2)

end Pipeline

def Early (log : List Action) : Prop := Action.deadline ∈ log.takeWhile (· ≠ .stop)

theorem early_of_mem {log : List Action} (h : Action.deadline ∈ log) (hstop : Action.stop ∉ log) :
    Early log := by
  rw [Early,List.takeWhile_eq_self_iff.mpr]
  · exact h
  · intro a ha
    have hne : a ≠ .stop := fun heq => hstop (heq ▸ ha)
    simpa using hne

theorem Early.append {log : List Action} (h : Early log) (l : List Action) : Early (log ++ l) := by
  rw [Early,List.takeWhile_append]
  split_ifs
  · exact List.mem_append_left _ ((List.takeWhile_sublist _).subset h)
  · exact h

/-- What holds of the runtime of a stream at every moment: a reset comes only of a deadline that
passed in time, an armed hook was not stopped yet, and without a request timeout there is no
deadline. -/
structure Runtime.Sound (limited : Bool) (rt : Runtime) : Prop where
  reset : rt.resetting = true ∨ .reset ∈ rt.log → Early rt.log
  armed : rt.armed = true → .stop ∉ rt.log
  unlimited : limited = false → rt.timer = false ∧ .deadline ∉ rt.log

theorem Runtime.Sound.unreset {limited : Bool} {rt : Runtime} (h : rt.Sound limited)
    (hlimited : limited = false) : Action.reset ∉ rt.log := by
  intro hreset
  exact (h.unlimited hlimited).2 ((List.takeWhile_sublist _).subset (h.reset (.inr hreset)))

namespace Timed

open State

def own (t : Timed ρ V W) : List Action := (runtime t).log.filter Action.own

def Unreset (t : Timed ρ V W) : Prop := Action.reset ∉ (runtime t).log

/-- What becomes of the contents of a stream without the handler, given the whole log. -/
def Meanwhile (reset : ρ → ρ) (log : List Action) (x y : ρ) : Prop :=
  ∃ n, y = reset^[n] x ∧ (n ≠ 0 → Action.reset ∈ log)

/-- The log has gone on, and the stream has at most been reset. -/
structure Since (t t' : Timed ρ V W) : Prop where
  protocol : t'.stream.protocol = t.stream.protocol
  remotePeer : t'.stream.remotePeer = t.stream.remotePeer
  reset : t'.stream.reset = t.stream.reset
  data : Meanwhile t.stream.reset (runtime t').log t.stream.data t'.stream.data
  grows : (runtime t).log <+: (runtime t').log

/-- What passes in the runtime without the handler: it leaves the handler's part of the state
and its log alone, but for a reset of the stream, and only a deadline makes the context done. -/
structure Passes (t t' : Timed ρ V W) : Prop extends Since t t' where
  sc : t'.sc = t.sc
  pools : t'.pools = t.pools
  world : t'.world.1 = t.world.1
  active : (runtime t').active = (runtime t).active
  log : ∃ extra, (runtime t').log = (runtime t).log ++ extra ∧ ∀ a ∈ extra, a.own = false
  done : t'.ctxDone = true → t.ctxDone = true ∨ .deadline ∈ (runtime t').log
  sound : ∀ {limited}, (runtime t).Sound limited → (runtime t').Sound limited

variable {t t' t'' : Timed ρ V W} {limited : Bool}

theorem Meanwhile.refl (reset : ρ → ρ) (log : List Action) (x : ρ) : Meanwhile reset log x x :=
  ⟨0,rfl,fun hne => absurd rfl hne⟩

theorem Meanwhile.trans {reset : ρ → ρ} {log log' : List Action} {x y z : ρ}
    (h : Meanwhile reset log x y) (hlog : log <+: log') (h' : Meanwhile reset log' y z) :
    Meanwhile reset log' x z := by
  obtain ⟨n,rfl,hn⟩ := h
  obtain ⟨m,rfl,hm⟩ := h'
  refine ⟨m + n,(Function.iterate_add_apply reset m n x).symm,fun hne => ?_⟩
  by_cases hzero : m = 0
  · exact hlog.subset (hn (by omega))
  · exact hm hzero

theorem Meanwhile.mono {reset : ρ → ρ} {log log' : List Action} {x y : ρ}
    (h : Meanwhile reset log x y) (hlog : log <+: log') : Meanwhile reset log' x y :=
  h.trans hlog (.refl reset log' y)

theorem Since.of_eq (hstream : t'.stream = t.stream)
    (hgrows : (runtime t).log <+: (runtime t').log) : Since t t' :=
  ⟨by rw [hstream],by rw [hstream],by rw [hstream],by rw [hstream]; exact .refl _ _ _,hgrows⟩

theorem Meanwhile.eq_of_unreset {reset : ρ → ρ} {log : List Action} {x y : ρ}
    (h : Meanwhile reset log x y) (hno : Action.reset ∉ log) : y = x := by
  obtain ⟨n,hy,hn⟩ := h
  obtain rfl : n = 0 := by
    by_contra hne
    exact hno (hn hne)
  exact hy

theorem Since.stream_of_unreset (h : Since t t') (hno : Unreset t') : t'.stream = t.stream :=
  Stream.ext h.protocol h.remotePeer (h.data.eq_of_unreset hno) h.reset

theorem Since.trans (h : Since t t') (h' : Since t' t'') : Since t t'' :=
  ⟨h'.protocol.trans h.protocol,h'.remotePeer.trans h.remotePeer,h'.reset.trans h.reset,
    h.data.trans h'.grows (h.reset ▸ h'.data),h.grows.trans h'.grows⟩

theorem Passes.refl (t : Timed ρ V W) : Passes t t :=
  ⟨.of_eq rfl List.prefix_rfl,rfl,rfl,rfl,rfl,⟨[],by simp⟩,.inl,id⟩

theorem Passes.trans (h : Passes t t') (h' : Passes t' t'') : Passes t t'' := by
  obtain ⟨l,hl,hown⟩ := h.log
  obtain ⟨l',hl',hown'⟩ := h'.log
  refine ⟨h.toSince.trans h'.toSince,h'.sc.trans h.sc,h'.pools.trans h.pools,
    h'.world.trans h.world,h'.active.trans h.active,⟨l ++ l',?_,?_⟩,?_,
    fun hs => h'.sound (h.sound hs)⟩
  · rw [hl',hl,List.append_assoc]
  · intro a ha
    rcases List.mem_append.mp ha with ha | ha
    · exact hown a ha
    · exact hown' a ha
  · intro hdone
    rcases h'.done hdone with hdone | hmem
    · rcases h.done hdone with hdone | hmem
      · exact .inl hdone
      · exact .inr (hl' ▸ List.mem_append_left _ hmem)
    · exact .inr hmem

theorem Passes.own (h : Passes t t') : own t' = own t := by
  obtain ⟨l,hl,hown⟩ := h.log
  have hnone : l.filter Action.own = [] := by
    rw [List.filter_eq_nil_iff]
    exact fun a ha => by simp [hown a ha]
  rw [Timed.own,hl,List.filter_append,hnone,List.append_nil]
  rfl

theorem passes_tick (t : Timed ρ V W) (k : Tick) : Passes t (tick t k) := by
  cases k with
  | deadline =>
    rw [tick]
    split_ifs with htimer
    · refine ⟨.of_eq rfl (List.prefix_append _ _),rfl,rfl,rfl,rfl,
        ⟨[.deadline],rfl,by simp [Action.own]⟩,fun _ => .inr ?_,?_⟩
      · simp [note,setRuntime,runtime]
      · intro limited hs
        have hlimited : limited = true := by
          by_contra hfalse
          have htimer' := (hs.unlimited (by simpa using hfalse)).1
          rw [htimer] at htimer'
          cases htimer'
        refine ⟨fun h => ?_,by simp [note,setRuntime,runtime],by simp [hlimited]⟩
        change Early ((runtime t).log ++ [.deadline])
        by_cases harmed : (runtime t).armed = true
        · have hstop := hs.armed harmed
          exact early_of_mem (by simp) (by simp [hstop])
        · apply (hs.reset _).append
          simp only [runtime] at harmed
          simpa [note,setRuntime,runtime,harmed] using h
    · exact .refl t
  | hook =>
    rw [tick]
    split_ifs with hresetting
    · refine ⟨⟨rfl,rfl,rfl,⟨1,rfl,fun _ => ?_⟩,List.prefix_append _ _⟩,rfl,rfl,rfl,rfl,
        ⟨[.reset],rfl,by simp [Action.own]⟩,.inl,?_⟩
      · simp [note,setRuntime,runtime]
      intro limited hs
      refine ⟨fun _ => (hs.reset (.inl hresetting)).append _,?_,?_⟩
      · intro harmed
        have hstop := hs.armed harmed
        simpa [note,setRuntime,runtime] using hstop
      · intro hlimited
        have hnone := hs.unlimited hlimited
        simpa [note,setRuntime,runtime] using hnone
    · exact .refl t

theorem passes_foldl (ticks : List Tick) (t : Timed ρ V W) : Passes t (ticks.foldl tick t) := by
  induction ticks generalizing t with
  | nil => exact .refl t
  | cons k ticks ih => exact (passes_tick t k).trans (ih _)

theorem passes_ahead (t : Timed ρ V W) (ahead : List (List Tick)) :
    Passes t (setRuntime t { runtime t with ahead := ahead }) :=
  ⟨.of_eq rfl List.prefix_rfl,rfl,rfl,rfl,rfl,⟨[],by simp [setRuntime,runtime]⟩,.inl,
    fun hs => ⟨hs.reset,hs.armed,hs.unlimited⟩⟩

theorem passes_pass (t : Timed ρ V W) : Passes t (pass t) := by
  unfold pass
  split
  · exact .refl t
  · exact (passes_ahead t _).trans (passes_foldl _ _)

theorem pass_of_ahead (h : (runtime t).ahead = []) : pass t = t := by
  rw [pass,h]

theorem passes_settle (t : Timed ρ V W) : Passes t (settle t) :=
  (passes_ahead t _).trans (passes_foldl _ _)

theorem own_step {a : Action} (ha : a.own = true) {f : Timed ρ V W → Timed ρ V W}
    (hf : (runtime (f (pass t))).log = (runtime (pass t)).log) :
    own (step a f t) = own t ++ [a] := by
  have hlog : (runtime (step a f t)).log = (runtime (pass t)).log ++ [a] := by
    rw [← hf]
    rfl
  rw [← (passes_pass t).own,own,hlog,List.filter_append,List.filter_singleton,ha]
  rfl

theorem active_step {a : Action} {f : Timed ρ V W → Timed ρ V W}
    (hf : ∀ t, (runtime (f t)).active = (runtime t).active) (t : Timed ρ V W) :
    (runtime (step a f t)).active = (runtime t).active :=
  (hf (pass t)).trans (passes_pass t).active

/-- The handler's part of the state is the same, but for a reset of the stream. -/
structure Same (t t' : Timed ρ V W) : Prop extends Since t t' where
  sc : t'.sc = t.sc
  pools : t'.pools = t.pools
  world : t'.world.1 = t.world.1

theorem Same.of_eq (hsc : t'.sc = t.sc) (hstream : t'.stream = t.stream)
    (hpools : t'.pools = t.pools) (hworld : t'.world.1 = t.world.1)
    (hgrows : (runtime t).log <+: (runtime t').log) : Same t t' :=
  ⟨.of_eq hstream hgrows,hsc,hpools,hworld⟩

theorem Same.refl (t : Timed ρ V W) : Same t t := .of_eq rfl rfl rfl rfl List.prefix_rfl

theorem Same.trans (h : Same t t') (h' : Same t' t'') : Same t t'' :=
  ⟨h.toSince.trans h'.toSince,h'.sc.trans h.sc,h'.pools.trans h.pools,h'.world.trans h.world⟩

theorem Passes.same (h : Passes t t') : Same t t' := ⟨h.toSince,h.sc,h.pools,h.world⟩

theorem same_step {a : Action} {f : Timed ρ V W → Timed ρ V W} (hf : ∀ t, Same t (f t))
    (t : Timed ρ V W) : Same t (step a f t) :=
  ((passes_pass t).same.trans (hf (pass t))).trans
    (.of_eq rfl rfl rfl rfl (List.prefix_append _ _))

theorem sound_note {a : Action} (ha : a.own = true) (hstop : a ≠ .stop)
    (hs : (runtime t).Sound limited) : (runtime (note t a)).Sound limited := by
  have hreset : Action.reset ≠ a := by
    rintro rfl
    cases ha
  have hdeadline : Action.deadline ≠ a := by
    rintro rfl
    cases ha
  refine ⟨fun h => (hs.reset ?_).append [a],fun harmed => ?_,fun hlimited => ?_⟩
  · simpa [note,setRuntime,runtime,hreset] using h
  · have hno := hs.armed harmed
    simpa [note,setRuntime,runtime,Ne.symm hstop] using hno
  · have hno := hs.unlimited hlimited
    simpa [note,setRuntime,runtime,hdeadline] using hno

theorem sound_step {a : Action} (ha : a.own = true) (hstop : a ≠ .stop)
    {f : Timed ρ V W → Timed ρ V W}
    (hf : (runtime (pass t)).Sound limited → (runtime (f (pass t))).Sound limited)
    (hs : (runtime t).Sound limited) : (runtime (step a f t)).Sound limited :=
  sound_note ha hstop (hf ((passes_pass t).sound hs))

theorem stop_mem_own : Action.stop ∈ own t ↔ Action.stop ∈ (runtime t).log := by
  simp [own,Action.own]

structure Works (t t' : Timed ρ V W) : Prop where
  own : ∃ k, own t' = own t ++ List.replicate k Action.work
  active : (runtime t').active = (runtime t).active
  sound : ∀ {limited}, (runtime t).Sound limited → (runtime t').Sound limited

theorem Works.refl (t : Timed ρ V W) : Works t t := ⟨⟨0,by simp⟩,rfl,id⟩

theorem Works.trans (h : Works t t') (h' : Works t' t'') : Works t t'' := by
  obtain ⟨k,hk⟩ := h.own
  obtain ⟨k',hk'⟩ := h'.own
  refine ⟨⟨k + k',?_⟩,h'.active.trans h.active,fun hs => h'.sound (h.sound hs)⟩
  rw [hk',hk,List.append_assoc,List.replicate_append_replicate]

theorem works_step (f : State ρ V W → State ρ V W) (t : Timed ρ V W) :
    Works t (step .work (onInner f) t) :=
  ⟨⟨1,own_step rfl rfl⟩,(passes_pass t).active,
    fun hs => sound_step rfl (by simp) (fun hs => hs) hs⟩

end Timed

namespace Pipeline

open State Timed

variable (p : Pipeline ρ V W) {t : Timed ρ V W} {limited : Bool}

theorem works_run (t : Timed ρ V W) : Works t (p.timed.run 0 t).1 := by
  rw [run_eq_onion,List.drop_zero]
  apply Onion.run_rel Works.refl Works.trans Works.refl
  intro m hm
  obtain ⟨mw,_,rfl⟩ := List.mem_map.mp hm
  exact Code.each_lift (fun f t _ => works_step f t) mw.each_true

def counted (a : Action) : List Action := if p.tracked then [a] else []

theorem log_afterFunc (t : Timed ρ V W) :
    (runtime (afterFunc t)).log = (runtime t).log ∧
      (runtime (afterFunc t)).active = (runtime t).active := by
  unfold afterFunc
  split_ifs <;> exact ⟨rfl,rfl⟩

theorem own_counting (n : ℤ) {a : Action} (ha : a.own = true) (t : Timed ρ V W) :
    own (p.counting n a t) = own t ++ p.counted a := by
  unfold counting counted
  split_ifs
  · exact own_step ha rfl
  · rw [List.append_nil]

theorem active_counting (n : ℤ) (a : Action) (t : Timed ρ V W) :
    (runtime (p.counting n a t)).active =
      (runtime t).active + if p.tracked then n else 0 := by
  unfold counting
  split_ifs
  · exact congrArg (· + n) (passes_pass t).active
  · rw [add_zero]

theorem sound_counting (n : ℤ) {a : Action} (ha : a.own = true) (hstop : a ≠ .stop)
    (hs : (runtime t).Sound limited) : (runtime (p.counting n a t)).Sound limited := by
  unfold counting
  split_ifs
  · exact sound_step ha hstop (fun hs => ⟨hs.reset,hs.armed,hs.unlimited⟩) hs
  · exact hs

theorem own_enter (t : Timed ρ V W) :
    own (p.enter t) = own t ++ p.counted .add ++ [Action.requestContext,Action.afterFunc] := by
  calc
    own (p.enter t) = own (step .afterFunc afterFunc
        (step .requestContext p.requestContext (p.counting 1 .add t))) := rfl
    _ = own (step .requestContext p.requestContext (p.counting 1 .add t)) ++ [Action.afterFunc] :=
      own_step rfl (log_afterFunc _).1
    _ = own (p.counting 1 .add t) ++ [Action.requestContext] ++ [Action.afterFunc] := by
      rw [own_step rfl rfl]
    _ = own t ++ p.counted .add ++ [Action.requestContext,Action.afterFunc] := by
      rw [own_counting p 1 rfl,List.append_assoc]
      rfl

theorem active_enter (t : Timed ρ V W) :
    (runtime (p.enter t)).active = (runtime t).active + if p.tracked then 1 else 0 := by
  calc
    (runtime (p.enter t)).active = (runtime (step .afterFunc afterFunc
        (step .requestContext p.requestContext (p.counting 1 .add t)))).active := rfl
    _ = (runtime (step .requestContext p.requestContext (p.counting 1 .add t))).active :=
      active_step (fun t => (log_afterFunc t).2) _
    _ = (runtime (p.counting 1 .add t)).active :=
      active_step (f := p.requestContext) (fun _ => rfl) _
    _ = (runtime t).active + if p.tracked then 1 else 0 := p.active_counting 1 .add t

theorem same_counting (n : ℤ) (a : Action) (t : Timed ρ V W) : Same t (p.counting n a t) := by
  unfold counting
  split_ifs
  · exact same_step (f := addActive n) (fun _ => .of_eq rfl rfl rfl rfl List.prefix_rfl) t
  · exact .refl t

theorem enter_keeps (t : Timed ρ V W) :
    Since t (p.enter t) ∧ (p.enter t).pools = t.pools ∧ (p.enter t).world.1 = t.world.1 := by
  have hcontext : ∀ t, Same t (p.requestContext t) :=
    fun _ => .of_eq rfl rfl rfl rfl List.prefix_rfl
  have hhook : ∀ t : Timed ρ V W, Same t (afterFunc t) := by
    intro t
    unfold afterFunc
    split_ifs <;> exact .of_eq rfl rfl rfl rfl List.prefix_rfl
  have hadd := p.same_counting 1 .add t
  have hsame := (hadd.trans (same_step (a := .requestContext) hcontext _)).trans
    (same_step (a := .afterFunc) hhook _)
  obtain ⟨⟨hprotocol,hpeer,hreset,hdata,hgrows⟩,_,hpools,hworld⟩ := hsame
  exact ⟨⟨hprotocol,hpeer,hreset,hdata,hgrows⟩,hpools,hworld⟩

theorem sound_afterFunc (hdone : t.ctxDone = true → .deadline ∈ (runtime t).log)
    (hstop : .stop ∉ (runtime t).log) (hs : (runtime t).Sound limited) :
    (runtime (afterFunc t)).Sound limited := by
  unfold afterFunc
  split_ifs with hctx
  · exact ⟨fun _ => early_of_mem (hdone hctx) hstop,hs.armed,hs.unlimited⟩
  · exact ⟨hs.reset,fun _ => hstop,hs.unlimited⟩

theorem sound_enter (s : State ρ V W) (active : ℤ) (ahead : List (List Tick)) :
    (runtime (p.enter (arrive s active ahead))).Sound (p.requestTimeout > 0) := by
  have harrive : (runtime (arrive s active ahead)).Sound (p.requestTimeout > 0) := by
    constructor <;> simp [arrive,runtime]
  have hadd := p.sound_counting 1 (a := .add) rfl (by simp) harrive
  have hcontext : (runtime (step .requestContext p.requestContext
      (p.counting 1 .add (arrive s active ahead)))).Sound (p.requestTimeout > 0) := by
    apply sound_step rfl (by simp) _ hadd
    intro hs
    exact ⟨hs.reset,hs.armed,fun hlimited => ⟨hlimited,(hs.unlimited hlimited).2⟩⟩
  have hpass := passes_pass (step .requestContext p.requestContext
    (p.counting 1 .add (arrive s active ahead)))
  apply sound_step rfl (by simp) _ hcontext
  apply sound_afterFunc
  · intro hdone
    rcases hpass.done hdone with hbefore | hmem
    · cases hbefore
    · exact hmem
  · rw [← stop_mem_own,hpass.own,own_step rfl rfl,own_counting p 1 rfl,counted]
    split_ifs <;> simp [own,arrive,runtime]

theorem own_leave (t : Timed ρ V W) :
    own (p.leave t) = own t ++ (t.sc.poolBuf.map Action.release).toList ++
      [Action.stop,Action.close,Action.cancel] ++ p.counted .done := by
  have hrelease : own (release t) = own t ++ (t.sc.poolBuf.map Action.release).toList := by
    unfold release
    cases t.sc.poolBuf with
    | none => simp
    | some b => exact own_step rfl rfl
  calc
    own (p.leave t) =
        own (step .cancel cancel (step .close id (step .stop stop (release t)))) ++
          p.counted .done := own_counting p (-1) rfl _
    _ = own (release t) ++ [Action.stop] ++ [Action.close] ++ [Action.cancel] ++
        p.counted .done := by
      rw [own_step rfl rfl,own_step rfl rfl,own_step rfl rfl]
    _ = own t ++ (t.sc.poolBuf.map Action.release).toList ++
        [Action.stop,Action.close,Action.cancel] ++ p.counted .done := by
      rw [hrelease]
      simp

theorem active_leave (t : Timed ρ V W) :
    (runtime (p.leave t)).active = (runtime t).active + if p.tracked then -1 else 0 := by
  have hrelease : (runtime (release t)).active = (runtime t).active := by
    unfold release
    cases t.sc.poolBuf with
    | none => rfl
    | some b => exact (passes_pass t).active
  rw [leave,active_counting,active_step (f := cancel) fun _ => rfl,
    active_step (f := id) fun _ => rfl,active_step (f := stop) fun _ => rfl,hrelease]

theorem sound_stop (hs : (runtime t).Sound limited) :
    (runtime (step .stop stop t)).Sound limited := by
  have hpass := (passes_pass t).sound hs
  refine ⟨fun h => (hpass.reset ?_).append [.stop],nofun,fun hlimited => ?_⟩
  · simpa [step,stop,note,setRuntime,runtime] using h
  · have hno := hpass.unlimited hlimited
    simpa [step,stop,note,setRuntime,runtime] using hno

theorem sound_cancel (hstop : .stop ∈ (runtime t).log) (hs : (runtime t).Sound limited) :
    (runtime (cancel t)).Sound limited := by
  have harmed : (runtime t).armed = false := by
    by_contra harmed
    exact hs.armed (by simpa using harmed) hstop
  refine ⟨fun h => hs.reset ?_,nofun,fun hlimited => ⟨rfl,(hs.unlimited hlimited).2⟩⟩
  simp only [runtime] at harmed
  simpa [cancel,setRuntime,runtime,harmed] using h

theorem sound_leave (hs : (runtime t).Sound limited) : (runtime (p.leave t)).Sound limited := by
  have hrelease : (runtime (release t)).Sound limited := by
    unfold release
    cases t.sc.poolBuf with
    | none => exact hs
    | some b => exact sound_step rfl (by simp) (fun hs => hs) hs
  have hclose : (runtime (step .close id (step .stop stop (release t)))).Sound limited :=
    sound_step rfl (by simp) (fun hs => hs) (sound_stop hrelease)
  have hcancel : (runtime (step .cancel cancel
      (step .close id (step .stop stop (release t))))).Sound limited := by
    apply sound_step rfl (by simp) _ hclose
    apply sound_cancel
    rw [← stop_mem_own,(passes_pass _).own,own_step rfl rfl,own_step rfl rfl]
    simp
  exact p.sound_counting (-1) rfl (by simp) hcancel

/-- After the buffer has been released the deferred functions leave the handler's part of the
state alone. -/
theorem leave_keeps (t : Timed ρ V W) : Same (release t) (p.leave t) := by
  have hstop : Same (release t) (step .stop stop (release t)) :=
    same_step (f := stop) (fun _ => .of_eq rfl rfl rfl rfl List.prefix_rfl) _
  have hclose := hstop.trans (same_step (a := .close) Same.refl _)
  have hcancel := hclose.trans
    (same_step (a := .cancel) (f := cancel) (fun _ => .of_eq rfl rfl rfl rfl List.prefix_rfl) _)
  exact hcancel.trans (p.same_counting (-1) .done _)

theorem release_keeps (t : Timed ρ V W) :
    Since t (release t) ∧ (release t).sc = t.sc ∧ (release t).world.1 = t.world.1 := by
  unfold release
  cases t.sc.poolBuf with
  | none => exact ⟨(Same.refl t).toSince,rfl,rfl⟩
  | some b =>
    have hpass := passes_pass t
    exact ⟨hpass.toSince.trans (.of_eq rfl (List.prefix_append _ _)),hpass.sc,hpass.world⟩

theorem leave_since (t : Timed ρ V W) :
    Since t (p.leave t) ∧ (p.leave t).sc = t.sc ∧ (p.leave t).world.1 = t.world.1 := by
  obtain ⟨hsince,hsc,hworld⟩ := release_keeps t
  have hkeeps := p.leave_keeps t
  exact ⟨hsince.trans hkeeps.toSince,hkeeps.sc.trans hsc,hkeeps.world.trans hworld⟩

theorem pools_release {b : PoolRef} (hb : t.sc.poolBuf = some b) :
    (release t).pools = Function.update t.pools b.pool ((t.pools b.pool).release b.handle) := by
  simp only [release,hb]
  rw [← (passes_pass t).pools]
  rfl

theorem run_timed_recovery (next : Effect (Timed ρ V W) (Panic V)) (t : Timed ρ V W) :
    (P2PForge.timed recovery).run (fun _ => next) t =
      (match (next t).2 with
        | none => (next t).1
        | some _ => step .work (onInner (setErr (.sentinel .errPanic))) (next t).1,none) := by
  cases hnext : (next t).2 with
  | none => simp [P2PForge.timed,recovery,Code.lift,hnext]
  | some v => simp [P2PForge.timed,recovery,Code.lift,hnext]

theorem timed_recovery {rest : List (Middleware ρ V W)} (hp : p.middleware = recovery :: rest) :
    p.timed.middleware = P2PForge.timed recovery :: rest.map P2PForge.timed := by
  simp [timed,hp]

theorem run_recovery {rest : List (Middleware ρ V W)} (hp : p.middleware = recovery :: rest)
    (ht : failed t = false) :
    (p.timed.run 0 t).2 = none ∧
      (.exit 1 true ∈ p.timed.trace 0 t →
        (p.timed.run 0 t).1.sc.err = some (.sentinel .errPanic)) := by
  have hhalted : ¬ failed t = true := by simp [ht]
  rw [run_eq_onion,trace_eq_seen,List.drop_zero,p.timed_recovery hp,Onion.run,if_neg hhalted,
    Onion.seen_cons hhalted,run_timed_recovery]
  refine ⟨rfl,fun hexit => ?_⟩
  generalize hnext : Onion.run failed Onion.stop (rest.map P2PForge.timed) = next at hexit ⊢
  -- of all that is seen, only the run of the rest has exits of the middleware after `Recovery`
  have hmem : .exit 1 true ∈ Onion.seen failed 1 (rest.map P2PForge.timed) t := by
    cases hpanic : (next t).2 <;>
      simpa [Onion.during,P2PForge.timed,recovery,Code.lift,Code.seen,hpanic] using hexit
  have hpanicked := Onion.exit_true_mem_seen.mp hmem
  rw [hnext] at hpanicked
  obtain ⟨v,hv⟩ := Option.isSome_iff_exists.mp hpanicked
  rw [hv]
  rfl

/-- The handler's own actions from its entry to its return, whatever the middlewares do. -/
theorem own_handleStream (s : State ρ V W) (active : ℤ) (ahead : List (List Tick)) :
    ∃ k, own (settle (p.handleStream s active ahead).1) =
      p.counted .add ++ [Action.requestContext,Action.afterFunc] ++ List.replicate k Action.work ++
        ((p.handleStream s active ahead).1.sc.poolBuf.map Action.release).toList ++
        [Action.stop,Action.close,Action.cancel] ++ p.counted .done := by
  obtain ⟨k,hk⟩ := (p.works_run (p.enter (arrive s active ahead))).own
  generalize hran : (p.timed.run 0 (p.enter (arrive s active ahead))).1 = ran at hk
  have hout : (p.handleStream s active ahead).1 = p.leave ran := by
    rw [handleStream,hran]
  have hsc : (p.leave ran).sc = ran.sc := (p.leave_since ran).2.1
  refine ⟨k,?_⟩
  rw [hout,(passes_settle (p.leave ran)).own,own_leave,hk,own_enter,hsc]
  simp [own,arrive,runtime]

theorem sound_handleStream (s : State ρ V W) (active : ℤ) (ahead : List (List Tick)) :
    (runtime (p.handleStream s active ahead).1).Sound (p.requestTimeout > 0) :=
  p.sound_leave ((p.works_run _).sound (p.sound_enter s active ahead))

/-- What a handler that was entered in `start` with `active` streams counted has done when it
is through. -/
structure CleanedUp (start : Timed ρ V W) (active : ℤ) (out : Timed ρ V W × Option (Panic V)) :
    Prop where
  /-- Its own actions, then and later: `Add` if streams are counted, the request context and
  its hook, work of the middlewares, then the release of the buffer in `sc.PoolBuf`, the stop
  of the hook, one `Close`, the cancellation of the context, and `Done` if there was an `Add`. -/
  order : ∃ k, own (settle out.1) = p.counted .add ++ [Action.requestContext,Action.afterFunc] ++
    List.replicate k Action.work ++ (out.1.sc.poolBuf.map Action.release).toList ++
    [Action.stop,Action.close,Action.cancel] ++ p.counted .done
  active : (runtime out.1).active = active
  /-- The buffer in `sc.PoolBuf` is released, and a further release would have no effect. -/
  released : ∀ b, out.1.sc.poolBuf = some b →
    (∀ h, (out.1.pools b.pool).handles[b.handle]? = some h → h.released = true) ∧
      (out.1.pools b.pool).release b.handle = out.1.pools b.pool
  /-- The stream is reset, then or later, only if the deadline passed before the hook was
  stopped, and not at all without a request timeout. -/
  reset : .reset ∈ (runtime (settle out.1)).log →
    .deadline ∈ (runtime (settle out.1)).log.takeWhile (· ≠ .stop)
  unlimited : p.requestTimeout ≤ 0 → .reset ∉ (runtime (settle out.1)).log
  /-- With `Recovery` first the handler returns normally, and with an error if a panic left
  the middlewares after it. -/
  recovered : ∀ rest, p.middleware = recovery :: rest → out.2 = none ∧
    (.exit 1 true ∈ p.timed.trace 0 start → out.1.sc.err = some (.sentinel .errPanic))

/-- `HandleStream` cleans up, in order, whatever the middlewares do, at whatever depth they
panic, and whenever the deadline passes. -/
theorem handleStream_cleans_up (s : State ρ V W) (active : ℤ) (ahead : List (List Tick)) :
    p.CleanedUp (p.enter (arrive s active ahead)) active (p.handleStream s active ahead) := by
  have horder := p.own_handleStream s active ahead
  generalize hstart : p.enter (arrive s active ahead) = start
  have hout : p.handleStream s active ahead =
      (p.leave (p.timed.run 0 start).1,(p.timed.run 0 start).2) := by
    rw [handleStream,hstart]
  have hworks := p.works_run start
  generalize hran : (p.timed.run 0 start).1 = ran at hout hworks
  have hsc : (p.leave ran).sc = ran.sc := (p.leave_since ran).2.1
  have hsound := (passes_settle _).sound (p.sound_handleStream s active ahead)
  rw [hout] at horder hsound ⊢
  refine ⟨horder,?_,?_,fun hreset => hsound.reset (.inr hreset),?_,?_⟩
  · rw [active_leave,hworks.active,← hstart,active_enter]
    split_ifs <;> simp [arrive,runtime]
  · intro b hb
    have hpools : (p.leave ran).pools b.pool = (ran.pools b.pool).release b.handle := by
      rw [(p.leave_keeps ran).pools,pools_release (hsc ▸ hb),Function.update_self]
    rw [hpools]
    exact ⟨fun h hh => Codec.BufferPool.released_release hh,Codec.BufferPool.release_release _ _⟩
  · intro htimeout hreset
    exact hsound.unreset (by simpa using htimeout) hreset
  · intro rest hp
    have hfailed : failed start = false := by
      rw [← hstart]
      rfl
    obtain ⟨hnormal,herr⟩ := p.run_recovery hp hfailed
    rw [hran] at herr
    exact ⟨hnormal,fun hexit => hsc ▸ herr hexit⟩

def forgiving : Middleware Unit Unit Unit :=
  .call () fun o =>
    .act (fun s => { s with sc := { s.sc with err := none } }) fun _ => Code.finish o

/-- A panic below a second `Recovery`, whose error is taken back on the way out. -/
def forgiven : Pipeline Unit Unit Unit :=
  newPipeline [recovery,forgiving,recovery,.panic (.value ())]

/-- The last middleware has panicked, and `sc.Err` is nil all the same. -/
theorem forgiven_err_eq_none :
    .exit 3 true ∈ forgiven.timed.trace 0 (forgiven.enter (arrive State.blank 0 [])) ∧
      (forgiven.handleStream State.blank 0 []).2 = none ∧
      (forgiven.handleStream State.blank 0 []).1.sc.err = none := by
  rw [trace_eq_seen,handleStream,run_eq_onion]
  -- each of the four middlewares is entered, by a call from the second one on
  have hexit : (Onion.seen failed 0 (forgiven.timed.middleware.drop 0)
      (forgiven.enter (arrive State.blank 0 [])))[7]? = some (.exit 3 true) := rfl
  exact ⟨List.mem_of_getElem? hexit,rfl,rfl⟩

end Pipeline
end P2PForge
