import P2PForge.Onion
import P2PForge.FramePooled

/-! The middleware pipeline.
A middleware is any computation that acts on what a stream's handlers share and calls `next`
as often as it likes. The pipeline runs its list by index, `Chain` builds the same nest of
closures from the inside out. Both are chains of wrappers that are halted by `sc.Err`. -/
namespace P2PForge

open Codec

/-- The error variables of the packages, which callers compare with. Two of them are called
`ErrPanic`, one of the root package and one of package middleware. -/
inductive Sentinel
  | forgeErrPanic
  | errRateLimited
  | errServerNotStarted
  | errPanic
  | errUnknownOperation
  | errMissingOperation
  deriving DecidableEq

/-- Error values as far as the framework makes or tells them apart; `wrap` is a
`fmt.Errorf` with `%w` after the given text. -/
inductive GoErr
  | sentinel (s : Sentinel)
  | rateLimited (retryAfter : Duration)
  | frame (e : FrameErr)
  | stream (e : StreamErr)
  | wrap (text : String) (cause : GoErr)
  | other (text : String)
  deriving DecidableEq

/-- A `PoolBuffer`, by the pool it belongs to and its position among that pool's handles. -/
@[ext] structure PoolRef where
  pool : ℕ
  handle : ℕ
  deriving DecidableEq

/-- A `StreamContext`. `V` is the type of the values that Go passes around as `any`;
`operation` is what `values` holds under its private key. -/
structure StreamContext (V : Type) where
  peerID : String
  rawBytes : List UInt8
  request : Option V
  response : Option V
  err : Option GoErr
  poolBuf : Option PoolRef
  idleTimeout : Duration
  operation : Option String

/-- A libp2p stream: what it says of itself, its contents, and what `Reset` makes of them. -/
@[ext] structure Stream (ρ : Type) where
  protocol : String
  remotePeer : String
  data : ρ
  reset : ρ → ρ

/-- All that the handlers of a stream can reach: the context they are passed, the stream,
whether the request context is done, the buffer pools, and a world of their own. -/
structure State (ρ V W : Type) where
  sc : StreamContext V
  stream : Stream ρ
  ctxDone : Bool
  pools : ℕ → BufferPool
  world : W

def State.blank : State Unit Unit Unit :=
  ⟨⟨"",[],none,none,none,none,0,none⟩,⟨"","",(),id⟩,false,fun _ => BufferPool.newBufferPool,()⟩

inductive Panic (V : Type)
  | value (v : V)
  | runtime (text : String)

abbrev Middleware (ρ V W : Type) := Wrapper (State ρ V W) (Panic V)

variable {ρ V W Label : Type}

def failed (s : State ρ V W) : Bool := s.sc.err.isSome

def callNext : Middleware ρ V W := .call () Code.finish

/-- A `Pipeline`; it is tracked if it was given a wait group. -/
structure Pipeline (ρ V W : Type) where
  middleware : List (Middleware ρ V W)
  tracked : Bool
  idleTimeout : Duration
  requestTimeout : Duration

namespace Pipeline

def defaultIdleTimeout : Duration := 30*Duration.second
def defaultRequestTimeout : Duration := 5*Duration.minute

def newPipeline (mw : List (Middleware ρ V W)) : Pipeline ρ V W :=
  ⟨mw,false,defaultIdleTimeout,defaultRequestTimeout⟩

def withIdleTimeout (p : Pipeline ρ V W) (d : Duration) : Pipeline ρ V W :=
  { p with idleTimeout := d }

def withRequestTimeout (p : Pipeline ρ V W) (d : Duration) : Pipeline ρ V W :=
  { p with requestTimeout := d }

def withActiveStreams (p : Pipeline ρ V W) : Pipeline ρ V W := { p with tracked := true }

def use (p : Pipeline ρ V W) (mw : List (Middleware ρ V W)) : Pipeline ρ V W :=
  { p with middleware := p.middleware ++ mw }

def run (p : Pipeline ρ V W) (idx : ℕ) (s : State ρ V W) : State ρ V W × Option (Panic V) :=
  if h : failed s = true ∨ idx ≥ p.middleware.length then (s,none)
  else
    (p.middleware.get ⟨idx,not_le.mp fun hle => h (.inr hle)⟩).run (fun _ => p.run (idx + 1)) s
termination_by p.middleware.length - idx

def trace (p : Pipeline ρ V W) (idx : ℕ) (s : State ρ V W) : List (Mark (State ρ V W)) :=
  if h : failed s = true ∨ idx ≥ p.middleware.length then []
  else
    let mw := p.middleware.get ⟨idx,not_le.mp fun hle => h (.inr hle)⟩
    Mark.enter idx :: Onion.during failed idx mw (p.run (idx + 1)) (p.trace (idx + 1)) s ++
      [Mark.exit idx (mw.run (fun _ => p.run (idx + 1)) s).2.isSome]
termination_by p.middleware.length - idx

theorem drop_eq_cons {p : Pipeline ρ V W} {idx : ℕ} (h : idx < p.middleware.length) :
    p.middleware.drop idx = p.middleware.get ⟨idx,h⟩ :: p.middleware.drop (idx + 1) :=
  List.drop_eq_getElem_cons h

/-- Running by index is running the rest of the list. -/
theorem run_eq_onion (p : Pipeline ρ V W) (idx : ℕ) :
    p.run idx = Onion.run failed Onion.stop (p.middleware.drop idx) := by
  funext s
  fun_induction run p idx s with
  | case1 idx s h =>
    rcases h with hfailed | hend
    · exact (Onion.respects_run Onion.respects_stop _ s hfailed).symm
    · rw [List.drop_of_length_le hend]
      rfl
  | case2 idx s h ih =>
    have hlt : idx < p.middleware.length := not_le.mp fun hle => h (.inr hle)
    have hnext : p.run (idx + 1) = Onion.run failed Onion.stop (p.middleware.drop (idx + 1)) :=
      funext ih
    rw [drop_eq_cons hlt,Onion.run,if_neg fun hfailed => h (.inl hfailed),hnext]

theorem trace_eq_seen (p : Pipeline ρ V W) (idx : ℕ) :
    p.trace idx = Onion.seen failed idx (p.middleware.drop idx) := by
  funext s
  fun_induction trace p idx s with
  | case1 idx s h =>
    rcases h with hfailed | hend
    · cases p.middleware.drop idx <;> simp [Onion.seen,hfailed]
    · rw [List.drop_of_length_le hend]
      rfl
  | case2 idx s h mw ih =>
    have hlt : idx < p.middleware.length := not_le.mp fun hle => h (.inr hle)
    have hnext : p.trace (idx + 1) = Onion.seen failed (idx + 1) (p.middleware.drop (idx + 1)) :=
      funext ih
    rw [drop_eq_cons hlt,Onion.seen,if_neg fun hfailed => h (.inl hfailed),hnext,
      run_eq_onion p (idx + 1)]

end Pipeline

/-- The closure that `Chain` builds around a middleware. -/
def unlessFailed (mw : Middleware ρ V W) : Middleware ρ V W :=
  .act id fun s => if failed s then .ret else mw

/-- `Chain`: the loop over the list from its end, starting from `next`. -/
def chain (mws : List (Middleware ρ V W)) : Middleware ρ V W :=
  mws.foldr (fun mw prevNext => unlessFailed (mw.inline fun _ => prevNext)) callNext

theorem run_chain (mws : List (Middleware ρ V W)) (next : Effect (State ρ V W) (Panic V)) :
    (chain mws).run (fun _ => next) = Onion.run failed next mws := by
  induction mws with
  | nil =>
    funext s
    simp [chain,callNext,Onion.run]
  | cons mw mws ih =>
    funext s
    change (unlessFailed (mw.inline fun _ => chain mws)).run (fun _ => next) s = _
    rw [unlessFailed,Code.run_act,id_eq,Onion.run]
    split_ifs with hs
    · rfl
    · rw [Code.run_inline,ih]

theorem each_chain {R : State ρ V W → State ρ V W → Prop} (hid : ∀ s, R s s)
    {mws : List (Middleware ρ V W)} (hmws : ∀ mw ∈ mws, mw.Each R) : (chain mws).Each R := by
  induction mws with
  | nil => exact Code.each_finish R
  | cons mw mws ih =>
    obtain ⟨hmw,htail⟩ := List.forall_mem_cons.mp hmws
    intro s
    refine ⟨hid s,?_⟩
    beta_reduce
    split_ifs
    · trivial
    · exact Code.each_inline hmw fun _ => ih htail

/-- The first list is the second one with stretches of it put into `Chain`s, nested in any
way. -/
inductive Grouped : List (Middleware ρ V W) → List (Middleware ρ V W) → Prop
  | nil : Grouped [] []
  | cons (mw) {gs ms} : Grouped gs ms → Grouped (mw :: gs) (mw :: ms)
  | group {gs ms gs' ms'} : Grouped gs ms → Grouped gs' ms' →
    Grouped (chain gs :: gs') (ms ++ ms')

theorem Grouped.refl (ms : List (Middleware ρ V W)) : Grouped ms ms := by
  induction ms with
  | nil => exact .nil
  | cons mw ms ih => exact .cons mw ih

theorem Grouped.append_left (pre : List (Middleware ρ V W)) {gs ms : List (Middleware ρ V W)}
    (h : Grouped gs ms) : Grouped (pre ++ gs) (pre ++ ms) := by
  induction pre with
  | nil => exact h
  | cons mw pre ih => exact .cons mw ih

theorem Grouped.run_eq {gs ms : List (Middleware ρ V W)} (h : Grouped gs ms)
    {next : Effect (State ρ V W) (Panic V)} (hnext : Onion.Respects failed next) :
    Onion.run failed next gs = Onion.run failed next ms := by
  induction h generalizing next with
  | nil => rfl
  | cons mw _ ih =>
    funext s
    simp only [Onion.run,ih hnext]
  | @group gs ms gs' ms' _ _ ih ih' =>
    have hrest := Onion.respects_run hnext gs'
    calc
      Onion.run failed next (chain gs :: gs') = Onion.run failed next (gs ++ gs') :=
        Onion.run_cons_chain hnext (fun rest => run_chain gs rest) gs'
      _ = Onion.run failed (Onion.run failed next gs') gs := Onion.run_append next gs gs'
      _ = Onion.run failed (Onion.run failed next gs') ms := ih hrest
      _ = Onion.run failed (Onion.run failed next ms') ms := by rw [ih' hnext]
      _ = Onion.run failed next (ms ++ ms') := (Onion.run_append next ms ms').symm

namespace State

def inner (t : State ρ V (W × Label)) : State ρ V W :=
  ⟨t.sc,t.stream,t.ctxDone,t.pools,t.world.1⟩

def onInner (f : State ρ V W → State ρ V W) (t : State ρ V (W × Label)) :
    State ρ V (W × Label) :=
  ⟨(f t.inner).sc,(f t.inner).stream,(f t.inner).ctxDone,(f t.inner).pools,
    ((f t.inner).world,t.world.2)⟩

def withNotes {O : Type} (s : State ρ V W) (notes : List O) : State ρ V (W × List O) :=
  ⟨s.sc,s.stream,s.ctxDone,s.pools,(s.world,notes)⟩

def notebook {O : Type} : Onion.Notebook (State ρ V (W × List O)) (State ρ V W) O where
  look := inner
  notes t := t.world.2
  join := withNotes
  look_join _ _ := rfl
  notes_join _ _ := rfl

end State

/-- A middleware in a world that also holds what it cannot reach. -/
def beside (mw : Middleware ρ V W) : Middleware ρ V (W × Label) :=
  mw.lift State.inner State.onInner

/-- A middleware that writes its label into a list of entries before it does anything. -/
def entering (mw : Label × Middleware ρ V W) : Middleware ρ V (W × List Label) :=
  .act (fun t => { t with world := (t.world.1,t.world.2 ++ [mw.1]) }) fun _ => beside mw.2

namespace Pipeline

/-- The pipeline with middlewares that note in the world when they are entered and left, their calls
of `next` and their actions. -/
def noting (p : Pipeline ρ V W) : Pipeline ρ V (W × List (Mark (State ρ V W))) :=
  ⟨Onion.noteAll failed State.notebook 0 p.middleware,p.tracked,p.idleTimeout,p.requestTimeout⟩

theorem run_noting (p : Pipeline ρ V W) (s : State ρ V W) (notes : List (Mark (State ρ V W))) :
    p.noting.run 0 (s.withNotes notes) =
      ((p.run 0 s).1.withNotes (notes ++ p.trace 0 s),(p.run 0 s).2) := by
  have hfailed : ∀ t : State ρ V (W × List (Mark (State ρ V W))),
      failed t = failed (State.notebook.look t) := fun _ => rfl
  rw [run_eq_onion,run_eq_onion,trace_eq_seen]
  exact Onion.run_noteAll hfailed 0 p.middleware s notes

/-- Onion order, in what is seen of a run from a state. -/
structure InOrder (p : Pipeline ρ V W) (s : State ρ V W) : Prop where
  /-- What is seen is what the middlewares note in the world while `run` runs them. -/
  noted : p.noting.run 0 (s.withNotes []) = ((p.run 0 s).1.withNotes (p.trace 0 s),(p.run 0 s).2)
  /-- The middleware after `i` is entered only right from a `next` call that `i` makes while
  `sc.Err` is nil, and left before that call returns and before `i` is left. -/
  nested : ∀ i pre post, p.trace 0 s = pre ++ .enter (i + 1) :: post → Onion.Nested i pre post
  /-- If no middleware calls `next` twice, those up to some `k` are entered in ascending order,
  each once, and left in descending order; those before `k` have called `next` with `sc.Err`
  nil, and `k` is the last one, did not call `next` or called it with `sc.Err` set. -/
  once : (∀ i, (p.trace 0 s).countP (Mark.isCall i) ≤ 1) →
    (p.middleware = [] ∧ p.trace 0 s = []) ∨
    ∃ k < p.middleware.length, Onion.borders (p.trace 0 s) = Onion.through 0 k ∧
      (∀ j < k, .call j false ∈ p.trace 0 s) ∧
      (k + 1 = p.middleware.length ∨ (∀ err, .call k err ∉ p.trace 0 s) ∨
        .call k true ∈ p.trace 0 s)

/-- A pipeline runs its middlewares in onion order, whatever they do. -/
theorem run_inOrder (p : Pipeline ρ V W) (s : State ρ V W) (hs : s.sc.err = none) :
    p.InOrder s := by
  have htrace : p.trace 0 = Onion.seen failed 0 p.middleware := by
    rw [trace_eq_seen,List.drop_zero]
  refine ⟨?_,?_,?_⟩
  · rw [run_noting,List.nil_append]
  · intro i pre post h
    rw [htrace] at h
    exact (Onion.shape_seen 0 p.middleware s).nested (Nat.zero_le i) h
  · rw [htrace]
    intro honce
    by_cases hnil : p.middleware = []
    · rw [hnil]
      exact .inl ⟨rfl,rfl⟩
    · have hok : failed s = false := by
        rw [failed,hs]
        rfl
      obtain ⟨k,_,hk,hborders,hbefore,hend⟩ := Onion.borders_seen hnil hok honce
      rw [Nat.zero_add] at hk hend
      exact .inr ⟨k,hk,hborders,fun j hj => hbefore j (Nat.zero_le j) hj,hend⟩

theorem inOrder_pair :
    let p : Pipeline Unit Unit Unit := newPipeline [callNext,.ret]
    p.InOrder State.blank ∧ (p.noting.run 0 (State.blank.withNotes [])).1.world.2 =
      [.enter 0,.call 0 false,.enter 1,.exit 1 false,.back 0,.exit 0 false] := by
  intro p
  have horder := run_inOrder p State.blank rfl
  refine ⟨horder,?_⟩
  rw [horder.noted,trace_eq_seen]
  rfl

theorem run_grouped {gs ms : List (Middleware ρ V W)} (h : Grouped gs ms) :
    (newPipeline gs).run 0 = (newPipeline ms).run 0 := by
  rw [run_eq_onion,run_eq_onion]
  exact h.run_eq Onion.respects_stop

/-- `Chain` is inlining. Whatever the middlewares do, a pipeline that has a `Chain` of `seg` in
its list leaves the same state, including what was written and which middlewares were entered
in which order, and ends in the same way, as the pipeline that has `seg` itself there; and so
does any other nesting of `Chain`s over a list. -/
theorem run_chain_inlined (pre seg post : List (Label × Middleware ρ V W))
    (s : State ρ V (W × List Label)) :
    (newPipeline (pre.map entering ++ [chain (seg.map entering)] ++ post.map entering)).run 0 s =
        (newPipeline (pre.map entering ++ seg.map entering ++ post.map entering)).run 0 s ∧
      ∀ nested flat : List (Middleware ρ V (W × List Label)), Grouped nested flat →
        (newPipeline nested).run 0 s = (newPipeline flat).run 0 s := by
  constructor
  · have hgrouped : Grouped ([chain (seg.map entering)] ++ post.map entering)
        (seg.map entering ++ post.map entering) := .group (.refl _) (.refl _)
    rw [List.append_assoc,List.append_assoc]
    exact congrFun (run_grouped (hgrouped.append_left (pre.map entering))) s
  · intro nested flat h
    exact congrFun (run_grouped h) s

end Pipeline
end P2PForge
