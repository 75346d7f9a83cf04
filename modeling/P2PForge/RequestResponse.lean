import P2PForge.DuplexStream
import P2PForge.ResponseWriter
import P2PForge.StreamBuffers
import P2PForge.Rejection

/-! A request and the response to it.
The pipeline that the user guide builds reads one frame, charges the peer for it, decodes it, hands
the request to the handler and writes the handler's response. What goes out is told from what came
in, however the bytes arrive, whatever the pool recycles, whatever the handler does, wherever reads
and writes fail and whenever the deadline passes and the stream is reset. -/
namespace P2PForge

open Codec

variable {ρ V W : Type}

namespace Codec

variable {σ β : Type} {r : Reader σ}

section Keeps

variable {f : σ → β} (h : r.Keeps f) (idle : Duration)

include h

theorem armRead_keeps (s : σ) : f (armRead r idle s) = f s := by
  unfold armRead
  split_ifs
  · rfl
  · cases hset : r.setReadDeadline with
    | none => rfl
    | some set => exact h.deadline set hset idle s

theorem readEach_keeps (sizes : List ℕ) (s : σ) : f (readEach r idle sizes s).2 = f s := by
  induction sizes generalizing s with
  | nil => rfl
  | cons k ks ih =>
    have hread := (h.readFull k (armRead r idle s)).trans (armRead_keeps h idle s)
    cases herr : (r.readFull k (armRead r idle s)).err with
    | some e =>
      rw [readEach_cons_error herr]
      exact hread
    | none =>
      rw [(readEach_cons_ok herr).2]
      exact (ih _).trans hread

theorem readFrameWithTimeout_keeps (s : σ) : f (readFrameWithTimeout r idle s).2 = f s := by
  have hlength : f (readFrameLength r idle s).2 = f s := by
    have hread := (h.readFull lengthPrefixSize (armRead r idle s)).trans (armRead_keeps h idle s)
    simp only [readFrameLength]
    split
    · exact hread
    · split_ifs <;> exact hread
  rw [readFrameWithTimeout_eq]
  cases (readFrameLength r idle s).1 with
  | error e => exact hlength
  | ok n => exact (readEach_keeps h idle _ _).trans hlength

end Keeps

end Codec

/-- A `Codec` with both directions. `unmarshal` decodes into a new value of the request's type. -/
structure RequestCodec (V : Type) extends Codec V where
  unmarshal : List UInt8 → Except GoErr V
  contentType : String

def RequestCodec.undecoded (c : RequestCodec V) (e : GoErr) : GoErr :=
  .wrap ("unmarshal " ++ c.contentType ++ " request: ") e

def deserializeMiddleware (c : RequestCodec V) : Middleware ρ V W :=
  .act id fun s =>
    match c.unmarshal s.sc.rawBytes with
    | .error e => .act (setErr (c.undecoded e)) fun _ => .ret
    | .ok req =>
      .act (fun s => { s with sc := { s.sc with request := some req } }) fun _ => callNext

/-- The middlewares that the user guide puts before a handler. -/
def serving (d : Duplex ρ) (pool : ℕ) (pick : Decoding ρ V W → ℕ)
    (iterator : V → Option (FrameIterator (W × List PoolRef))) (c : RequestCodec V)
    (limiter : Limiter W) : List (Middleware ρ V (W × List PoolRef)) :=
  [recovery,responseWriterMiddleware d.writer iterator c.toCodec,
    frameDecodeMiddleware d.reader pool pick,beside (rateLimitMiddleware limiter),
    deserializeMiddleware c]

section Exchange

def produced (iterator : V → Option (FrameIterator W)) (c : Codec V) (response : Option V) (u : W) :
    List (List UInt8) :=
  match response with
  | none => []
  | some v =>
    match iterator v with
    | some it => it.frames u
    | none =>
      match c.marshal v with
      | .error _ => []
      | .ok data => [data]

/-- What becomes of a stream to which frames are written one after the other: it takes all of them,
or those before one that is too large, or it breaks off in one of them. -/
inductive Writes (w : Writer ρ) (x : ρ) : List (List UInt8) → ρ → Prop
  | all {ps y} : (∀ p ∈ ps, p.length ≤ maxFrameSize) → w.Takes x (wire ps) y → Writes w x ps y
  | tooLarge {ps p rest y} : (∀ p ∈ ps, p.length ≤ maxFrameSize) → w.Takes x (wire ps) y →
    maxFrameSize < p.length → Writes w x (ps ++ p :: rest) y
  | broken {ps p rest part cause y} : (∀ p ∈ ps, p.length ≤ maxFrameSize) →
    w.Breaks x (wire ps) (putUint32 p.length ++ p) part cause y → Writes w x (ps ++ p :: rest) y

variable (d : Duplex ρ) (iterator : V → Option (FrameIterator (W × List PoolRef)))
  (c : RequestCodec V) (limiter : Limiter W)
  (idle : Duration) (log : List Action)
  (handler : Effect (Timed ρ V (W × List PoolRef)) (Panic V)) (s : Decoding ρ V W)

/-- The frame that the stream begins with, or why there is none. The stream may have been reset
before it is read, if the log has a reset. -/
def Incoming (result : Except FrameErr (List UInt8)) : Prop :=
  ∃ x, Timed.Meanwhile s.stream.reset log s.stream.data x ∧
    (readFrameWithTimeout d.reader idle x).1 = result

def verdict : W × Bool × Duration := Limiter.allowN limiter s.stream.remotePeer 1 s.world.1

structure Entered (payload : List UInt8) (request : V) (t : Timed ρ V (W × List PoolRef)) :
    Prop where
  peerID : t.sc.peerID = s.stream.remotePeer
  rawBytes : t.sc.rawBytes = payload
  request : t.sc.request = some request
  response : t.sc.response = none
  err : t.sc.err = none
  world : t.world.1.1 = (verdict limiter s).1
  reset : t.stream.reset = s.stream.reset
  written : d.records.written t.stream.data = d.records.written s.stream.data

/-- The reasons not to hand a request to the handler, as they stand in `sc.Err`, each with the
world that is then left. -/
inductive Refused : GoErr → W → Prop
  | unread {e} : Incoming d idle log s (.error e) → Refused (.frame e) s.world.1
  | limited {payload} : Incoming d idle log s (.ok payload) → (verdict limiter s).2.1 = false →
    Refused (rateLimited (verdict limiter s).2.2) (verdict limiter s).1
  | undecoded {payload e} : Incoming d idle log s (.ok payload) →
    (verdict limiter s).2.1 = true → c.unmarshal payload = .error e →
    Refused (c.undecoded e) (verdict limiter s).1

structure Accepted (payload : List UInt8) (request : V) : Prop where
  incoming : Incoming d idle log s (.ok payload)
  admitted : (verdict limiter s).2.1 = true
  decoded : c.unmarshal payload = .ok request

/-- The ways a stream can end: its contents, `sc.Err`, and the world that is left. A response of
many frames may leave an error of its own, and a world that its iterator has changed. -/
inductive Exchange : ρ → Option GoErr → W → Prop
  | refused {e z w} : Refused d c limiter idle log s e w →
    d.records.written z = d.records.written s.stream.data → Exchange z (some e) w
  | panicked {payload request t u v z} : Accepted d c limiter idle log s payload request →
    Entered d limiter s payload request t → handler t = (u,some v) →
    Timed.Meanwhile u.stream.reset log u.stream.data z →
    Exchange z (some (.sentinel .errPanic)) u.world.1.1
  | answered {payload request t u err w x y z} : Accepted d c limiter idle log s payload request →
    Entered d limiter s payload request t → handler t = (u,none) →
    Timed.Meanwhile u.stream.reset log u.stream.data x →
    Writes d.writer x (produced iterator c.toCodec u.sc.response u.world.1) y →
    Timed.Meanwhile u.stream.reset log y z →
    (err = none → u.sc.err = none) →
    (u.sc.response.bind iterator = none → err = u.sc.err ∧ w = u.world.1.1) →
    Exchange z err w

inductive Served : Timed ρ V (W × List PoolRef) × Option (Panic V) → Prop
  | refused {e u} : Refused d c limiter idle log s e u.world.1.1 → u.sc.err = some e →
    u.sc.response = none → u.stream.reset = s.stream.reset →
    d.records.written u.stream.data = d.records.written s.stream.data → Served (u,none)
  | handled {payload request t} : Accepted d c limiter idle log s payload request →
    Entered d limiter s payload request t → Served (handler t)

end Exchange

section Writing

variable {w : Writer ρ}

theorem Writes.cons {x y z : ρ} {p : List UInt8} {ps : List (List UInt8)}
    (hp : p.length ≤ maxFrameSize) (htakes : w.Takes x (putUint32 p.length ++ p) y)
    (h : Writes w y ps z) : Writes w x (p :: ps) z := by
  have hwire : ∀ ps, wire (p :: ps) = putUint32 p.length ++ p ++ wire ps := fun _ => rfl
  cases h with
  | all hps hrest =>
    refine .all (List.forall_mem_cons.mpr ⟨hp,hps⟩) ?_
    rw [hwire]
    exact htakes.trans hrest
  | @tooLarge ps q rest z hps hrest hlarge =>
    rw [← List.cons_append]
    refine .tooLarge (List.forall_mem_cons.mpr ⟨hp,hps⟩) ?_ hlarge
    rw [hwire]
    exact htakes.trans hrest
  | @broken ps q rest part cause z hps hbreaks =>
    rw [← List.cons_append]
    have hafter := hbreaks.after htakes
    rw [← hwire] at hafter
    exact .broken (List.forall_mem_cons.mpr ⟨hp,hps⟩) hafter

theorem Writes.nil (w : Writer ρ) (x : ρ) : Writes w x [] x := .all (by simp) .refl

theorem writeFrame_writes (w : Writer ρ) (data : List UInt8) (s : State ρ V W) :
    (s.writeFrame w data).1 = none ∧ data.length ≤ maxFrameSize ∧
        w.Takes s.stream.data (putUint32 data.length ++ data)
          (s.writeFrame w data).2.stream.data ∨
      (s.writeFrame w data).1 ≠ none ∧ ∀ rest,
        Writes w s.stream.data (data :: rest) (s.writeFrame w data).2.stream.data := by
  have hnone : ∀ p ∈ ([] : List (List UInt8)), p.length ≤ maxFrameSize := by simp
  rcases takes_writeFrameWithTimeout w data s.sc.idleTimeout s.stream.data with
    htakes | ⟨hlarge,hmax,hsame⟩ | ⟨cause,part,e,he,_,_,hbreaks⟩
  · exact .inl htakes
  · refine .inr ⟨Option.ne_none_iff_exists'.mpr ⟨_,hlarge⟩,fun rest => ?_⟩
    have htakes : w.Takes s.stream.data (wire []) (s.writeFrame w data).2.stream.data :=
      hsame.symm ▸ .refl
    exact .tooLarge hnone htakes hmax
  · exact .inr ⟨Option.ne_none_iff_exists'.mpr ⟨_,he⟩,fun rest => .broken hnone hbreaks⟩

theorem FrameIterator.writes_writeFrames (it : FrameIterator W) (w : Writer ρ)
    (s : State ρ V W) :
    Writes w s.stream.data (it.frames s.world) (it.writeFrames w s).stream.data ∧
      (it.writeFrames w s).stream.reset = s.stream.reset ∧
      ((it.writeFrames w s).sc.err = none → s.sc.err = none) := by
  fun_induction writeFrames it w s with
  | case1 s heof =>
    rw [(it.ended heof).1]
    exact ⟨.nil w _,rfl,id⟩
  | case2 s e he hne =>
    rw [(it.ended he).1]
    exact ⟨.nil w _,rfl,by simp [setErr]⟩
  | case3 s data hdata e he =>
    rw [(it.continued hdata).1]
    rcases writeFrame_writes w data (it.advance s) with ⟨hnone,_⟩ | ⟨_,hlast⟩
    · cases hnone.symm.trans he
    · exact ⟨hlast _,rfl,by simp [setErr]⟩
  | case4 s data hdata hnil ih =>
    rw [(it.continued hdata).1]
    rcases writeFrame_writes w data (it.advance s) with ⟨_,hmax,htakes⟩ | ⟨hsome,_⟩
    · exact ⟨ih.1.cons hmax htakes,ih.2⟩
    · exact absurd hnil hsome

theorem writes_writeResponse (w : Writer ρ) {iterator : V → Option (FrameIterator W)}
    {response : V} (hsingle : iterator response = none) (c : Codec V) (s : State ρ V W) :
    Writes w s.stream.data (produced iterator c (some response) s.world)
        (writeResponse w c response s).stream.data ∧
      (writeResponse w c response s).stream.reset = s.stream.reset ∧
      (writeResponse w c response s).sc.err = s.sc.err ∧
      (writeResponse w c response s).world = s.world := by
  simp only [writeResponse,produced,hsingle]
  cases c.marshal response with
  | error e => exact ⟨.nil w _,rfl,rfl,rfl⟩
  | ok data =>
    refine ⟨?_,rfl,rfl,rfl⟩
    rcases writeFrame_writes w data s with ⟨_,hmax,htakes⟩ | ⟨_,hlast⟩
    · exact (Writes.nil w _).cons hmax htakes
    · exact hlast []

theorem Writes.takes_nil {x y : ρ} (h : Writes w x [] y) : w.Takes x [] y := by
  generalize hps : ([] : List (List UInt8)) = ps at h
  cases h with
  | all _ htakes =>
    subst hps
    exact htakes
  | tooLarge => simp at hps
  | broken => simp at hps

theorem Writes.takes (h : w.NeverFails) {x y : ρ} {ps : List (List UInt8)}
    (hps : ∀ p ∈ ps, p.length ≤ maxFrameSize) (hwrites : Writes w x ps y) :
    w.Takes x (wire ps) y := by
  cases hwrites with
  | all _ htakes => exact htakes
  | tooLarge _ _ hlarge => exact absurd (hps _ (by simp)) (Nat.not_le.mpr hlarge)
  | broken _ hbreaks => exact absurd hbreaks h.not_breaks

end Writing

section Middlewares

open State Timed

@[simp] theorem timed_ret : P2PForge.timed (.ret : Middleware ρ V W) = .ret := rfl

@[simp] theorem timed_act (f : State ρ V W → State ρ V W) (k : State ρ V W → Middleware ρ V W) :
    P2PForge.timed (.act f k) =
      .act (step .work (onInner f)) fun t => P2PForge.timed (k (pass t).inner) := rfl

@[simp] theorem timed_call (k : Option (Panic V) → Middleware ρ V W) :
    P2PForge.timed (.call () k) = .call () fun o => P2PForge.timed (k o) := rfl

@[simp] theorem run_timed_callNext (next : Effect (Timed ρ V W) (Panic V)) (t : Timed ρ V W) :
    (P2PForge.timed callNext).run (fun _ => next) t = next t := by
  simp [P2PForge.timed,callNext,Code.lift]

@[simp] theorem beside_act {Label : Type} (f : State ρ V W → State ρ V W)
    (k : State ρ V W → Middleware ρ V W) :
    (beside (.act f k) : Middleware ρ V (W × Label)) =
      .act (onInner f) fun t => beside (k t.inner) := rfl

@[simp] theorem beside_callNext {Label : Type} :
    (beside callNext : Middleware ρ V (W × Label)) = callNext := by
  simp [beside,callNext,Code.lift]

/-- What a middleware sees when it acts: of what passes meanwhile, only a reset of the stream and
the end of the context. -/
theorem pass_inner (t : Timed ρ V W) :
    (pass t).inner = ⟨t.sc,(pass t).stream,(pass t).ctxDone,t.pools,t.world.1⟩ := by
  have hpass := passes_pass t
  rw [State.inner,hpass.sc,hpass.pools,hpass.world]

theorem since_work {f : State ρ V W → State ρ V W} (hf : ∀ s, (f s).stream = s.stream)
    (t : Timed ρ V W) : Since t (step .work (onInner f) t) :=
  (passes_pass t).toSince.trans (.of_eq (hf (pass t).inner) (List.prefix_append _ _))

theorem run_timed_cons (mw : Middleware ρ V W) (rest : List (Middleware ρ V W)) {t : Timed ρ V W}
    (ht : t.sc.err = none) :
    Onion.run failed Onion.stop ((mw :: rest).map P2PForge.timed) t =
      (P2PForge.timed mw).run
        (fun _ => Onion.run failed Onion.stop (rest.map P2PForge.timed)) t := by
  rw [List.map_cons,Onion.run,if_neg (by simp [failed,ht])]

theorem each_grows (mw : Middleware ρ V W) :
    (P2PForge.timed mw).Each fun t t' => (runtime t).log <+: (runtime t').log := by
  refine Code.each_lift (fun f t _ => ?_) mw.each_true
  exact (passes_pass t).grows.trans (List.prefix_append _ _)

theorem grows_run (mws : List (Middleware ρ V W)) (t : Timed ρ V W) :
    (runtime t).log <+:
      (runtime (Onion.run failed Onion.stop (mws.map P2PForge.timed) t).1).log := by
  refine Onion.run_rel (R := fun t t' => (runtime t).log <+: (runtime t').log)
    (fun _ => List.prefix_rfl) List.IsPrefix.trans (fun _ => List.prefix_rfl) ?_ t
  intro m hm
  obtain ⟨mw,_,rfl⟩ := List.mem_map.mp hm
  exact each_grows mw

variable (next : Effect (Timed ρ V W) (Panic V)) (t : Timed ρ V W)

theorem run_timed_responseWriter (w : Writer ρ) (iterator : V → Option (FrameIterator W))
    (c : Codec V) {u : Timed ρ V W} (hnext : next t = (u,none)) :
    ∃ out x, (P2PForge.timed (responseWriterMiddleware w iterator c)).run (fun _ => next) t =
        (out,none) ∧ (runtime u).log <+: (runtime out).log ∧
      Meanwhile u.stream.reset (runtime out).log u.stream.data x ∧
      Writes w x (produced iterator c u.sc.response u.world.1) out.stream.data ∧
      out.stream.reset = u.stream.reset ∧
      (out.sc.err = none → u.sc.err = none) ∧
      (u.sc.response.bind iterator = none → out.sc.err = u.sc.err ∧ out.world.1 = u.world.1) := by
  simp only [responseWriterMiddleware,timed_call,timed_act,Code.run_call,Code.run_act,hnext]
  rw [pass_inner]
  have hlooked : Same u (step .work (onInner id) u) :=
    same_step (fun _ => .of_eq rfl rfl rfl rfl List.prefix_rfl) u
  generalize step .work (onInner id) u = looked at hlooked
  cases hresponse : u.sc.response with
  | none =>
    exact ⟨looked,looked.stream.data,rfl,hlooked.grows,hlooked.data,.nil w _,hlooked.reset,
      fun h => hlooked.sc ▸ h,fun _ => ⟨congrArg StreamContext.err hlooked.sc,hlooked.world⟩⟩
  | some response =>
    -- the response is written to the stream as it is found then
    have hfound := hlooked.trans (passes_pass looked).same
    have hworld : (pass looked).inner.world = u.world.1 := hfound.world
    have hsc : (pass looked).inner.sc = u.sc := hfound.sc
    have hlog : ∀ f : State ρ V W → State ρ V W,
        (runtime (pass looked)).log <+: (runtime (step .work (onInner f) looked)).log :=
      fun f => List.prefix_append _ _
    cases hiterator : iterator response with
    | some it =>
      obtain ⟨hwrites,hreset,herr⟩ := it.writes_writeFrames w (pass looked).inner
      rw [hworld] at hwrites
      rw [hsc] at herr
      refine ⟨step .work (onInner (it.writeFrames w)) looked,_,by simp [hiterator],
        hfound.grows.trans (hlog _),hfound.data.mono (hlog _),?_,hreset.trans hfound.reset,herr,
        by simp [hiterator]⟩
      simp only [produced,hiterator]
      exact hwrites
    | none =>
      obtain ⟨hwrites,hreset,herr,hkept⟩ :=
        writes_writeResponse w hiterator c (pass looked).inner
      rw [hworld] at hwrites hkept
      rw [hsc] at herr
      exact ⟨step .work (onInner (writeResponse w c response)) looked,_,by simp [hiterator],
        hfound.grows.trans (hlog _),hfound.data.mono (hlog _),hwrites,hreset.trans hfound.reset,
        fun h => herr.symm.trans h,fun _ => ⟨herr,hkept⟩⟩

theorem run_timed_rateLimit (limiter : Limiter W)
    (next : Effect (Timed ρ V (W × List PoolRef)) (Panic V))
    (t : Timed ρ V (W × List PoolRef)) :
    let verdict := Limiter.allowN limiter t.sc.peerID 1 t.world.1.1
    ∃ t', (P2PForge.timed (beside (rateLimitMiddleware limiter))).run (fun _ => next) t =
        (if verdict.2.1 then next t' else (t',none)) ∧
      Since t t' ∧ t'.world.1.1 = verdict.1 ∧
      (verdict.2.1 = true → t'.sc = t.sc) ∧
      (verdict.2.1 = false →
        t'.sc = { t.sc with err := some (rateLimited verdict.2.2) }) := by
  intro verdict
  have hverdict : Limiter.allowN limiter (pass t).inner.inner.sc.peerID 1
      (pass t).inner.inner.world = verdict := by
    rw [pass_inner]
    rfl
  simp only [rateLimitMiddleware,limiting,beside_act,timed_act,Code.run_act,hverdict]
  let charge : State ρ V W → State ρ V W := fun s =>
    { s with world := (Limiter.allowN limiter s.sc.peerID 1 s.world).1 }
  obtain ⟨charged,hcharged⟩ : ∃ charged, charged = step .work (onInner (onInner charge)) t :=
    ⟨_,rfl⟩
  have hsince : Since t charged := by
    rw [hcharged]
    apply since_work
    exact fun _ => rfl
  have hworld : charged.world.1.1 = verdict.1 := by
    rw [hcharged]
    exact congrArg Prod.fst hverdict
  have hsc : charged.sc = t.sc := by
    rw [hcharged]
    exact (passes_pass t).sc
  rw [← hcharged]
  cases hadmits : verdict.2.1 with
  | true => exact ⟨charged,by simp,hsince,hworld,fun _ => hsc,by simp⟩
  | false =>
    have hpass := passes_pass charged
    refine ⟨step .work (onInner (onInner (setErr (rateLimited verdict.2.2)))) charged,rfl,
      hsince.trans (since_work ?_ charged),?_,by simp,fun _ => ?_⟩
    · exact fun _ => rfl
    · exact (congrArg Prod.fst hpass.world).trans hworld
    · rw [← hsc,← hpass.sc]
      rfl

theorem run_timed_deserialize (c : RequestCodec V) :
    ∃ t', Since t t' ∧ t'.world.1 = t.world.1 ∧
      match c.unmarshal t.sc.rawBytes with
      | .error e => (P2PForge.timed (deserializeMiddleware c)).run (fun _ => next) t = (t',none) ∧
          t'.sc = { t.sc with err := some (c.undecoded e) }
      | .ok request => (P2PForge.timed (deserializeMiddleware c)).run (fun _ => next) t = next t' ∧
          t'.sc = { t.sc with request := some request } := by
  simp only [deserializeMiddleware,timed_act,Code.run_act]
  rw [pass_inner]
  have hlooked : Same t (step .work (onInner id) t) :=
    same_step (fun _ => .of_eq rfl rfl rfl rfl List.prefix_rfl) t
  generalize step .work (onInner id) t = looked at hlooked
  have hfound := hlooked.trans (passes_pass looked).same
  cases c.unmarshal t.sc.rawBytes with
  | error e =>
    refine ⟨step .work (onInner (setErr (c.undecoded e))) looked,
      hlooked.toSince.trans (since_work ?_ looked),hfound.world,rfl,?_⟩
    · exact fun _ => rfl
    · rw [← hfound.sc]
      rfl
  | ok request =>
    refine ⟨step .work (onInner fun s => { s with sc := { s.sc with request := some request } })
      looked,hlooked.toSince.trans (since_work ?_ looked),hfound.world,by simp,?_⟩
    · exact fun _ => rfl
    · rw [← hfound.sc]
      rfl

theorem run_timed_decode (d : Duplex ρ) (pool : ℕ) (pick : Decoding ρ V W → ℕ)
    (next : Effect (Timed ρ V (W × List PoolRef)) (Panic V)) {t : Timed ρ V (W × List PoolRef)}
    (v : (t.pools pool).Valid) :
    ∃ t' x, Meanwhile t.stream.reset (runtime t').log t.stream.data x ∧
      t'.stream.reset = t.stream.reset ∧
      d.records.written t'.stream.data = d.records.written x ∧ t'.world.1.1 = t.world.1.1 ∧
      match (readFrameWithTimeout d.reader t.sc.idleTimeout x).1 with
      | .error e =>
          (P2PForge.timed (frameDecodeMiddleware d.reader pool pick)).run (fun _ => next) t =
            (t',none) ∧ t'.sc = { t.sc with err := some (.frame e) }
      | .ok payload =>
          (P2PForge.timed (frameDecodeMiddleware d.reader pool pick)).run (fun _ => next) t =
            next t' ∧ ∃ b, t'.sc = { t.sc with rawBytes := payload,poolBuf := some b } := by
  have hpass := passes_pass t
  obtain ⟨out,hread,hfollows⟩ :=
    v.readFramePooled d.reader t.sc.idleTimeout (pass t).stream.data (pick (pass t).inner)
  have hrequest : readRequest d.reader pool pick (pass t).inner = some out := by
    rw [← hread,readRequest,pass_inner]
  have hwritten : d.records.written out.next = d.records.written (pass t).stream.data := by
    rw [hfollows.next]
    exact readFrameWithTimeout_keeps d.keeps _ _
  let decode : Decoding ρ V W → Decoding ρ V W := fun s =>
    (readRequest d.reader pool pick s).elim s fun out => afterRead pool out s
  have hact : decode (pass t).inner = afterRead pool out (pass t).inner := by
    simp only [decode,hrequest,Option.elim_some]
  have hlog : Meanwhile t.stream.reset (runtime (step .work (onInner decode) t)).log
      t.stream.data (pass t).stream.data :=
    hpass.data.mono (List.prefix_append _ _)
  have hstream : (step .work (onInner decode) t).stream =
      { (pass t).stream with data := out.next } := by
    refine (congrArg State.stream hact).trans ?_
    rw [afterRead]
    cases out.result <;> rfl
  have hworld : (step .work (onInner decode) t).world.1.1 = t.world.1.1 := by
    refine (congrArg (fun s : Decoding ρ V W => s.world.1) hact).trans ?_
    rw [afterRead,pass_inner]
    cases out.result <;> rfl
  refine ⟨step .work (onInner decode) t,(pass t).stream.data,hlog,?_,?_,hworld,?_⟩
  · rw [hstream]
    exact hpass.reset
  · rw [hstream]
    exact hwritten
  · have hsc := congrArg State.sc hact
    rw [← hfollows.result]
    simp only [frameDecodeMiddleware,timed_act,Code.run_act,hrequest]
    cases hout : out.result with
    | error e =>
      refine ⟨rfl,hsc.trans ?_⟩
      simp only [afterRead,hout,pass_inner]
      rfl
    | ok b =>
      refine ⟨by simp [decode],⟨pool,b⟩,hsc.trans ?_⟩
      simp only [afterRead,hout,pass_inner]

end Middlewares

namespace Pipeline

open State Timed

/-- What `Recovery` and `ResponseWriterMiddleware` make of how the rest of the pipeline ends. -/
theorem handleStream_outer {p : Pipeline ρ V W} {w : Writer ρ}
    {iterator : V → Option (FrameIterator W)} {c : Codec V} {rest : List (Middleware ρ V W)}
    (hp : p.middleware = recovery :: responseWriterMiddleware w iterator c :: rest)
    {s : State ρ V W} {active : ℤ} {ahead : List (List Tick)} {u : Timed ρ V W}
    {o : Option (Panic V)} (hrest : Onion.run failed Onion.stop (rest.map P2PForge.timed)
      (p.enter (arrive s active ahead)) = (u,o)) :
    let out := p.handleStream s active ahead
    out.2 = none ∧ (runtime u).log <+: (runtime out.1).log ∧
      (o ≠ none →
        Meanwhile u.stream.reset (runtime out.1).log u.stream.data out.1.stream.data ∧
        out.1.sc.err = some (.sentinel .errPanic) ∧ out.1.world.1 = u.world.1) ∧
      (o = none →
        (∃ x y, Meanwhile u.stream.reset (runtime out.1).log u.stream.data x ∧
          Writes w x (produced iterator c u.sc.response u.world.1) y ∧
          Meanwhile u.stream.reset (runtime out.1).log y out.1.stream.data) ∧
        (out.1.sc.err = none → u.sc.err = none) ∧
        (u.sc.response.bind iterator = none →
          out.1.sc.err = u.sc.err ∧ out.1.world.1 = u.world.1)) := by
  intro out
  have hout : out = p.handleStream s active ahead := rfl
  rw [handleStream,run_eq_onion,List.drop_zero,p.timed_recovery hp] at hout
  have hok : (p.enter (arrive s active ahead)).sc.err = none := rfl
  generalize p.enter (arrive s active ahead) = start at hok hrest hout
  rw [← List.map_cons,run_timed_cons _ _ hok,run_timed_recovery,run_timed_cons _ _ hok] at hout
  cases o with
  | some v =>
    have hthrough : (P2PForge.timed (responseWriterMiddleware w iterator c)).run
        (fun _ => Onion.run failed Onion.stop (rest.map P2PForge.timed)) start = (u,some v) := by
      simp only [responseWriterMiddleware,timed_call,Code.run_call,hrest]
      rfl
    rw [hthrough] at hout
    obtain ⟨hsince,hsc,hworld⟩ :=
      p.leave_since (step .work (onInner (setErr (.sentinel .errPanic))) u)
    have hall := (since_work (f := setErr (.sentinel .errPanic)) (fun _ => rfl) u).trans hsince
    rw [hout]
    refine ⟨rfl,hall.grows,fun _ => ⟨hall.data,?_,?_⟩,fun h => absurd h (Option.some_ne_none v)⟩
    · exact congrArg StreamContext.err hsc
    · exact hworld.trans (passes_pass u).world
  | none =>
    obtain ⟨u',x,hu',hgrows,hx,hwrites,hreset,herr,hsilent⟩ := run_timed_responseWriter
      (Onion.run failed Onion.stop (rest.map P2PForge.timed)) start w iterator c hrest
    rw [hu'] at hout
    obtain ⟨hsince,hsc,hworld⟩ := p.leave_since u'
    have hleft := hsince.data
    rw [hreset] at hleft
    rw [hout]
    refine ⟨rfl,hgrows.trans hsince.grows,fun h => absurd rfl h,fun _ => ⟨⟨x,u'.stream.data,
      hx.mono hsince.grows,hwrites,hleft⟩,?_,?_⟩⟩
    · rw [hsc]
      exact herr
    · rw [hsc,hworld]
      exact hsilent

theorem grows_first {f : State ρ V W → State ρ V W} {k : State ρ V W → Middleware ρ V W}
    {rest : List (Middleware ρ V W)} {t : Timed ρ V W} (ht : t.sc.err = none) :
    (runtime (pass t)).log <+: (runtime (Onion.run failed Onion.stop
      (((.act f k : Middleware ρ V W) :: rest).map P2PForge.timed) t).1).log := by
  rw [run_timed_cons _ _ ht,timed_act,Code.run_act]
  have hstep : (runtime (pass t)).log <+: (runtime (step .work (onInner f) t)).log :=
    List.prefix_append _ _
  exact hstep.trans (Code.run_rel (R := fun t t' => (runtime t).log <+: (runtime t').log)
    (fun _ => List.prefix_rfl) List.IsPrefix.trans (fun _ => grows_run rest) (each_grows _) _)

section Serving

variable {d : Duplex ρ} {pool : ℕ} {pick : Decoding ρ V W → ℕ}
  {iterator : V → Option (FrameIterator (W × List PoolRef))} {c : RequestCodec V}
  {limiter : Limiter W} {handlers : List (Middleware ρ V (W × List PoolRef))}
  {s : Decoding ρ V W} {t t' : Timed ρ V (W × List PoolRef)}

/-- A stream to which nothing has been written yet, though it may have been reset. -/
structure Untouched (d : Duplex ρ) (s : Decoding ρ V W) (t : Timed ρ V (W × List PoolRef)) :
    Prop where
  reset : t.stream.reset = s.stream.reset
  written : d.records.written t.stream.data = d.records.written s.stream.data

theorem written_meanwhile {reset : ρ → ρ} (hresets : d.Resets reset) {log : List Action} {x y : ρ}
    (h : Meanwhile reset log x y) : d.records.written y = d.records.written x := by
  obtain ⟨n,rfl,_⟩ := h
  exact hresets.iterate n x

theorem Untouched.since (h : Untouched d s t) (hresets : d.Resets s.stream.reset)
    (hsince : Since t t') : Untouched d s t' :=
  ⟨hsince.reset.trans h.reset,
    (written_meanwhile (h.reset.symm ▸ hresets) hsince.data).trans h.written⟩

section Served

variable {idle : Duration} {log : List Action} {payload : List UInt8} {b : PoolRef}

theorem served_admitted (hincoming : Incoming d idle log s (.ok payload))
    (hallowed : (verdict limiter s).2.1 = true)
    (hsc : t.sc = ⟨s.stream.remotePeer,payload,none,none,none,some b,idle,none⟩)
    (hworld : t.world.1.1 = (verdict limiter s).1) (huntouched : Untouched d s t)
    (hresets : d.Resets s.stream.reset) :
    Served d c limiter idle log (Onion.run failed Onion.stop (handlers.map P2PForge.timed)) s
      (Onion.run failed Onion.stop
        ((deserializeMiddleware c :: handlers).map P2PForge.timed) t) := by
  obtain ⟨t',hsince,hworld',hdeserialize⟩ := run_timed_deserialize
    (Onion.run failed Onion.stop (handlers.map P2PForge.timed)) t c
  obtain ⟨hreset,hwritten⟩ := huntouched.since hresets hsince
  have hraw : t.sc.rawBytes = payload := by rw [hsc]
  rw [hraw] at hdeserialize
  rw [run_timed_cons _ _ (by rw [hsc])]
  cases hrequest : c.unmarshal payload with
  | error e =>
    rw [hrequest] at hdeserialize
    obtain ⟨hrun,hsc'⟩ := hdeserialize
    rw [hrun]
    refine .refused ?_ (by rw [hsc']) (by rw [hsc',hsc]) hreset hwritten
    rw [hworld',hworld]
    exact .undecoded hincoming hallowed hrequest
  | ok request =>
    rw [hrequest] at hdeserialize
    obtain ⟨hrun,hsc'⟩ := hdeserialize
    rw [hrun]
    refine .handled ⟨hincoming,hallowed,hrequest⟩ ⟨?_,?_,?_,?_,?_,?_,hreset,hwritten⟩
    any_goals rw [hsc',hsc]
    rw [hworld',hworld]

theorem served_read (hincoming : Incoming d idle log s (.ok payload))
    (hsc : t.sc = ⟨s.stream.remotePeer,payload,none,none,none,some b,idle,none⟩)
    (hworld : t.world.1.1 = s.world.1) (huntouched : Untouched d s t)
    (hresets : d.Resets s.stream.reset) :
    Served d c limiter idle log (Onion.run failed Onion.stop (handlers.map P2PForge.timed)) s
      (Onion.run failed Onion.stop ((beside (rateLimitMiddleware limiter) ::
        deserializeMiddleware c :: handlers).map P2PForge.timed) t) := by
  obtain ⟨t',hlimit,hsince,hworld',hadmits,hrejects⟩ := run_timed_rateLimit limiter
    (Onion.run failed Onion.stop ((deserializeMiddleware c :: handlers).map P2PForge.timed)) t
  have hverdict : Limiter.allowN limiter t.sc.peerID 1 t.world.1.1 = verdict limiter s := by
    rw [hsc,hworld]
    rfl
  rw [hverdict] at hlimit hworld' hadmits hrejects
  have huntouched' := huntouched.since hresets hsince
  rw [run_timed_cons _ _ (by rw [hsc]),hlimit]
  cases hallowed : (verdict limiter s).2.1 with
  | false =>
    have hsc' := hrejects hallowed
    refine .refused ?_ (by rw [hsc']) (by rw [hsc',hsc]) huntouched'.reset huntouched'.written
    rw [hworld']
    exact .limited hincoming hallowed
  | true =>
    rw [if_pos rfl]
    exact served_admitted hincoming hallowed ((hadmits hallowed).trans hsc) hworld' huntouched'
      hresets

theorem served (hsc : t.sc = ⟨s.stream.remotePeer,[],none,none,none,none,idle,none⟩)
    (hworld : t.world.1 = s.world) (hpool : (t.pools pool).Valid)
    (hreset : t.stream.reset = s.stream.reset) (hresets : d.Resets s.stream.reset)
    (hdata : Meanwhile s.stream.reset (runtime t).log s.stream.data t.stream.data)
    (hlog : (runtime (Onion.run failed Onion.stop
      ((frameDecodeMiddleware d.reader pool pick :: beside (rateLimitMiddleware limiter) ::
        deserializeMiddleware c :: handlers).map P2PForge.timed) t).1).log <+: log) :
    Served d c limiter idle log (Onion.run failed Onion.stop (handlers.map P2PForge.timed)) s
      (Onion.run failed Onion.stop
        ((frameDecodeMiddleware d.reader pool pick :: beside (rateLimitMiddleware limiter) ::
          deserializeMiddleware c :: handlers).map P2PForge.timed) t) := by
  have hidle : t.sc.idleTimeout = idle := by rw [hsc]
  have hbefore := (grows_run _ t).trans hlog
  obtain ⟨t',x,hx,hreset',hwritten,hworld',hdecode⟩ := run_timed_decode d pool pick
    (Onion.run failed Onion.stop ((beside (rateLimitMiddleware limiter) ::
      deserializeMiddleware c :: handlers).map P2PForge.timed)) hpool
  rw [run_timed_cons _ _ (by rw [hsc])] at hlog ⊢
  rw [hreset] at hx
  rw [hidle] at hdecode
  rw [hworld] at hworld'
  have hfound : (runtime t').log <+: log → Meanwhile s.stream.reset log s.stream.data x :=
    fun h => (hdata.mono hbefore).trans List.prefix_rfl (hx.mono h)
  have huntouched : (runtime t').log <+: log → Untouched d s t' := fun h =>
    ⟨hreset'.trans hreset,hwritten.trans (written_meanwhile hresets (hfound h))⟩
  cases hresult : (readFrameWithTimeout d.reader idle x).1 with
  | error e =>
    rw [hresult] at hdecode
    obtain ⟨hrun,hsc'⟩ := hdecode
    rw [hrun] at hlog ⊢
    obtain ⟨hkept,hunwritten⟩ := huntouched hlog
    refine .refused ?_ (by rw [hsc']) (by rw [hsc',hsc]) hkept hunwritten
    rw [hworld']
    exact .unread ⟨x,hfound hlog,hresult⟩
  | ok payload =>
    rw [hresult] at hdecode
    obtain ⟨hrun,b,hsc'⟩ := hdecode
    rw [hsc] at hsc'
    rw [hrun] at hlog ⊢
    have hlog' := (grows_run _ t').trans hlog
    exact served_read ⟨x,hfound hlog',hresult⟩ hsc' hworld' (huntouched hlog') hresets

end Served

/-- A stream ends in one of the ways of `Exchange`. -/
theorem exchange_handleStream {p : Pipeline ρ V (W × List PoolRef)}
    (hp : p.middleware = serving d pool pick iterator c limiter ++ handlers)
    (s : Decoding ρ V W) (hs : (s.pools pool).Valid) (hresets : d.Resets s.stream.reset)
    (active : ℤ) (ahead : List (List Tick)) :
    let out := p.handleStream s active ahead
    out.2 = none ∧ Exchange d iterator c limiter p.idleTimeout (runtime out.1).log
      (Onion.run failed Onion.stop (handlers.map P2PForge.timed)) s
      out.1.stream.data out.1.sc.err out.1.world.1.1 := by
  intro out
  obtain ⟨hsince,hpools,hworld⟩ := p.enter_keeps (arrive s active ahead)
  have hsc : (p.enter (arrive s active ahead)).sc =
      ⟨s.stream.remotePeer,[],none,none,none,none,p.idleTimeout,none⟩ :=
    congrArg (fun peer => StreamContext.mk peer [] none none none none p.idleTimeout none)
      hsince.remotePeer
  have hpool : ((p.enter (arrive s active ahead)).pools pool).Valid := by
    rw [hpools]
    exact hs
  generalize hinner : Onion.run failed Onion.stop ((frameDecodeMiddleware d.reader pool pick ::
    beside (rateLimitMiddleware limiter) :: deserializeMiddleware c :: handlers).map P2PForge.timed)
      (p.enter (arrive s active ahead)) = inner
  obtain ⟨hreturns,hgrows,hpanicked,hreturned⟩ := handleStream_outer hp hinner
  have hserved := served (s := s) (c := c) (d := d) hsc hworld hpool hsince.reset hresets
    hsince.data (hinner ▸ hgrows)
  rw [hinner] at hserved
  refine ⟨hreturns,?_⟩
  cases hserved with
  | refused hrefused herr hresponse hreset hwritten =>
    obtain ⟨⟨x,y,hx,hwrites,hy⟩,_,hsilent⟩ := hreturned rfl
    obtain ⟨herr',hworld'⟩ := hsilent (by rw [hresponse]; rfl)
    rw [hreset] at hx hy
    rw [herr',hworld',herr]
    rw [hresponse] at hwrites
    refine .refused hrefused ?_
    calc
      d.records.written out.1.stream.data = d.records.written y := written_meanwhile hresets hy
      _ = d.records.written x := by rw [hwrites.takes_nil.written d.records,List.append_nil]
      _ = _ := written_meanwhile hresets hx
      _ = d.records.written s.stream.data := hwritten
  | @handled payload request t haccepted hentered =>
    cases hend : (Onion.run failed Onion.stop (handlers.map P2PForge.timed) t).2 with
    | some v =>
      obtain ⟨hleft,herr,hworld'⟩ := hpanicked (by simp [hend])
      rw [herr,hworld']
      exact .panicked haccepted hentered (Prod.ext rfl hend) hleft
    | none =>
      obtain ⟨⟨x,y,hx,hwrites,hy⟩,herr,hsilent⟩ := hreturned hend
      refine .answered haccepted hentered (Prod.ext rfl hend) hx hwrites hy herr fun hsingle => ?_
      exact ⟨(hsilent hsingle).1,congrArg Prod.fst (hsilent hsingle).2⟩

theorem log_before_read {p : Pipeline ρ V (W × List PoolRef)}
    (hp : p.middleware = serving d pool pick iterator c limiter ++ handlers)
    (s : Decoding ρ V W) (active : ℤ) (ahead : List (List Tick)) :
    (runtime (pass (p.enter (arrive s active ahead)))).log <+:
      (runtime (p.handleStream s active ahead).1).log := by
  have hgrows := (handleStream_outer hp (Prod.mk.eta (p := Onion.run failed Onion.stop
    ((frameDecodeMiddleware d.reader pool pick :: beside (rateLimitMiddleware limiter) ::
      deserializeMiddleware c :: handlers).map P2PForge.timed)
        (p.enter (arrive s active ahead)))).symm).2.1
  exact (grows_first rfl).trans hgrows

end Serving

end Pipeline

end P2PForge
