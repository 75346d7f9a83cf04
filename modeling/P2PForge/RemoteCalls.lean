import P2PForge.RequestResponse

/-! Streams that one server handles, one after the other.
The streams share the pools and the world, and with the world the limiter's books and whatever the
handlers keep. Every stream is answered from its own bytes and from what the streams before it
left. A handler that computes its response makes the server a remote service: its clients read the
results that the service would give them locally, except for those that the limiter turns away. -/
namespace P2PForge

open Codec State Timed

variable {ρ V W : Type}

namespace Codec

section Prompt

variable {σ : Type} {r : Reader σ} {c : r.Carries}

theorem armRead_agrees (hc : c.Prompt) (idle : Duration) (s : σ) :
    c.Agrees c (armRead r idle s) s := by
  unfold armRead
  split_ifs
  · exact ⟨rfl,rfl⟩
  · cases hset : r.setReadDeadline with
    | none => exact ⟨rfl,rfl⟩
    | some set => exact hc set hset idle s

theorem armRead_agrees_trans (hc : c.Prompt) (idle : Duration) {s s' : σ}
    (h : c.Agrees c s s') : c.Agrees c (armRead r idle s) s' :=
  ⟨(armRead_agrees hc idle s).1.trans h.1,(armRead_agrees hc idle s).2.trans h.2⟩

theorem readEach_prompt (hc : c.Prompt) (idle : Duration) (sizes : List ℕ) {s s' : σ}
    (h : c.Agrees c s s') : (readEach r idle sizes s).1 = (readEach r 0 sizes s').1 := by
  induction sizes generalizing s s' with
  | nil => rfl
  | cons k ks ih =>
    obtain ⟨herr,hbytes,hnext⟩ := c.readFull_agrees (armRead_agrees_trans hc idle h) k
    simp only [readEach,armRead_zero,← herr]
    cases he : (r.readFull k (armRead r idle s)).err with
    | some e => rfl
    | none => simp only [ih hnext,hbytes he]

theorem readFrameWithTimeout_prompt (hc : c.Prompt) (idle : Duration) (s : σ) :
    (readFrameWithTimeout r idle s).1 = (readFrame r s).1 := by
  obtain ⟨herr,hbytes,hnext⟩ :=
    c.readFull_agrees (armRead_agrees hc idle s) lengthPrefixSize
  have hlength : (readFrameLength r idle s).1 = (readFrameLength r 0 s).1 ∧
      c.Agrees c (readFrameLength r idle s).2 (readFrameLength r 0 s).2 := by
    simp only [readFrameLength,armRead_zero,← herr]
    cases he : (r.readFull lengthPrefixSize (armRead r idle s)).err with
    | some e => exact ⟨rfl,hnext⟩
    | none =>
      rw [hbytes he]
      split_ifs <;> exact ⟨rfl,hnext⟩
  simp only [readFrame,readFrameWithTimeout_eq,hlength.1]
  cases (readFrameLength r 0 s).1 with
  | error e => rfl
  | ok n => exact readEach_prompt hc idle (chunkSizes n) hlength.2

end Prompt

end Codec

section Pools

def KeepsPools (s s' : State ρ V W) : Prop :=
  (∀ i, (s.pools i).Valid) → ∀ i, (s'.pools i).Valid

theorem keepsPools_of_eq {s s' : State ρ V W} (h : s'.pools = s.pools) : KeepsPools s s' := by
  intro hs
  rw [h]
  exact hs

theorem keepsPools_beside {Label : Type} {mw : Middleware ρ V W} (h : mw.Each KeepsPools) :
    (beside mw : Middleware ρ V (W × Label)).Each KeepsPools := by
  have hstep : ∀ (f : State ρ V W → State ρ V W) (t : State ρ V (W × Label)),
      KeepsPools t.inner (f t.inner) → KeepsPools t (onInner f t) := fun _ _ hf => hf
  exact Code.each_lift hstep h

theorem FrameIterator.pools_writeFrames (it : FrameIterator W) (w : Writer ρ) (s : State ρ V W) :
    (it.writeFrames w s).pools = s.pools := by
  fun_induction writeFrames it w s with
  | case1 => rfl
  | case2 => rfl
  | case3 => rfl
  | case4 s data hdata hnil ih => exact ih

theorem each_responseWriter (w : Writer ρ) (iterator : V → Option (FrameIterator W)) (c : Codec V) :
    (responseWriterMiddleware w iterator c).Each KeepsPools := by
  rintro (_ | v)
  · intro s
    refine ⟨keepsPools_of_eq rfl,?_⟩
    beta_reduce
    cases s.sc.response with
    | none => trivial
    | some response =>
      dsimp only
      cases iterator response with
      | some it => exact fun s => ⟨keepsPools_of_eq (it.pools_writeFrames w s),trivial⟩
      | none =>
        intro s
        refine ⟨keepsPools_of_eq ?_,trivial⟩
        unfold writeResponse
        cases c.marshal response <;> rfl
  · trivial

theorem each_frameDecode (r : Reader ρ) (pool : ℕ) (pick : Decoding ρ V W → ℕ) :
    (frameDecodeMiddleware r pool pick).Each KeepsPools := by
  intro s
  constructor
  · intro hs
    obtain ⟨out,hread,hfollows⟩ :=
      (hs pool).readFramePooled r s.sc.idleTimeout s.stream.data (pick s)
    have hrequest : readRequest r pool pick s = some out := hread
    have hupdate : ∀ i, (Function.update s.pools pool out.pool i).Valid := by
      intro i
      by_cases hi : i = pool
      · subst hi
        rw [Function.update_self]
        exact hfollows.valid
      · rw [Function.update_of_ne hi]
        exact hs i
    beta_reduce
    rw [hrequest,Option.elim_some,afterRead]
    cases out.result <;> exact hupdate
  · beta_reduce
    cases readRequest r pool pick s with
    | none => trivial
    | some out =>
      dsimp only
      cases out.result with
      | error e => trivial
      | ok b => exact Code.each_finish KeepsPools

theorem each_rateLimit (limiter : Limiter W) :
    (beside (rateLimitMiddleware limiter) : Middleware ρ V (W × List PoolRef)).Each
      KeepsPools := by
  apply keepsPools_beside
  intro s
  refine ⟨keepsPools_of_eq rfl,?_⟩
  beta_reduce
  split_ifs
  · exact Code.each_finish KeepsPools
  · exact fun s => ⟨keepsPools_of_eq rfl,trivial⟩

theorem each_deserialize (c : RequestCodec V) :
    (deserializeMiddleware c : Middleware ρ V W).Each KeepsPools := by
  intro s
  refine ⟨keepsPools_of_eq rfl,?_⟩
  beta_reduce
  cases c.unmarshal s.sc.rawBytes with
  | error e => exact fun s => ⟨keepsPools_of_eq rfl,trivial⟩
  | ok request => exact fun s => ⟨keepsPools_of_eq rfl,Code.each_finish KeepsPools⟩

theorem each_serving (d : Duplex ρ) (pool : ℕ) (pick : Decoding ρ V W → ℕ)
    (iterator : V → Option (FrameIterator (W × List PoolRef))) (c : RequestCodec V)
    (limiter : Limiter W) : ∀ mw ∈ serving d pool pick iterator c limiter, mw.Each KeepsPools := by
  intro mw hmw
  simp only [serving,List.mem_cons,List.not_mem_nil,or_false] at hmw
  rcases hmw with rfl | rfl | rfl | rfl | rfl
  · rintro (_ | v)
    · trivial
    · exact fun s => ⟨keepsPools_of_eq rfl,trivial⟩
  · exact each_responseWriter d.writer iterator c.toCodec
  · exact each_frameDecode d.reader pool pick
  · exact each_rateLimit limiter
  · exact each_deserialize c

end Pools

namespace Pipeline

theorem handleStream_keepsPools {p : Pipeline ρ V W} (hp : ∀ mw ∈ p.middleware, mw.Each KeepsPools)
    (s : State ρ V W) (active : ℤ) (ahead : List (List Tick)) :
    KeepsPools s (p.handleStream s active ahead).1.inner := by
  intro hs
  have henter : ∀ i, ((p.enter (arrive s active ahead)).pools i).Valid := by
    rw [(p.enter_keeps _).2.1]
    exact hs
  have hran : ∀ i, ((p.timed.run 0 (p.enter (arrive s active ahead))).1.pools i).Valid := by
    rw [run_eq_onion,List.drop_zero]
    refine Onion.run_rel (R := KeepsPools) (fun _ => id) (fun h h' => h' ∘ h) (fun _ => id) ?_ _
      henter
    intro m hm
    obtain ⟨mw,hmw,rfl⟩ := List.mem_map.mp hm
    apply Code.each_lift _ (hp mw hmw)
    intro f t hf ht
    apply hf
    rw [State.inner,(passes_pass t).pools]
    exact ht
  intro i
  change ((p.leave _).pools i).Valid
  rw [pools_leave]
  cases (p.timed.run 0 (p.enter (arrive s active ahead))).1.sc.poolBuf with
  | none => exact hran i
  | some b =>
    rw [Option.elim_some]
    by_cases hi : i = b.pool
    · subst hi
      rw [Function.update_self]
      exact (hran b.pool).release b.handle
    · rw [Function.update_of_ne hi]
      exact hran i

end Pipeline

/-- A stream that a peer opens, with what becomes of the world before, the count of streams and
the runtime's plans for it. -/
structure Arrival (ρ W : Type) where
  meanwhile : W → W
  stream : Stream ρ
  active : ℤ
  ahead : List (List Tick)

def State.receive (s : State ρ V W) (a : Arrival ρ W) : State ρ V W :=
  { s with stream := a.stream,world := a.meanwhile s.world }

namespace Pipeline

/-- Handles the streams in turn. Each comes with the state it was handled from and what came of
it; pools and world go on to the next. -/
def serveEach (p : Pipeline ρ V W) :
    State ρ V W → List (Arrival ρ W) → List (State ρ V W × Timed ρ V W × Option (Panic V))
  | _,[] => []
  | s,a :: arrivals =>
    (s.receive a,p.handleStream (s.receive a) a.active a.ahead) ::
      p.serveEach (p.handleStream (s.receive a) a.active a.ahead).1.inner arrivals

theorem unreset_serveEach {p : Pipeline ρ V W} (hp : p.requestTimeout ≤ 0) (s : State ρ V W)
    (arrivals : List (Arrival ρ W)) : ∀ x ∈ p.serveEach s arrivals, Unreset x.2.1 := by
  induction arrivals generalizing s with
  | nil => simp [serveEach]
  | cons a arrivals ih =>
    rw [serveEach,List.forall_mem_cons]
    exact ⟨(p.sound_handleStream _ _ _).unreset (by simpa using hp),ih _⟩

section Serving

variable {p : Pipeline ρ V (W × List PoolRef)} {d : Duplex ρ} {pool : ℕ}
  {pick : Decoding ρ V W → ℕ} {iterator : V → Option (FrameIterator (W × List PoolRef))}
  {c : RequestCodec V} {limiter : Limiter W}
  {handlers : List (Middleware ρ V (W × List PoolRef))}

theorem keepsPools_serving (hp : p.middleware = serving d pool pick iterator c limiter ++ handlers)
    (hhandlers : ∀ mw ∈ handlers, mw.Each KeepsPools) (s : Decoding ρ V W) (active : ℤ)
    (ahead : List (List Tick)) : KeepsPools s (p.handleStream s active ahead).1.inner := by
  apply handleStream_keepsPools
  rw [hp]
  intro mw hmw
  rcases List.mem_append.mp hmw with hmw | hmw
  · exact each_serving d pool pick iterator c limiter mw hmw
  · exact hhandlers mw hmw

/-- Of all the streams that a server handles each one ends in one of the ways of `Exchange`: its
request is refused, or the handlers are entered with it, and what they leave as the response is
all that is sent besides what they have written themselves. -/
theorem serveEach_exchanges
    (hp : p.middleware = serving d pool pick iterator c limiter ++ handlers)
    (hhandlers : ∀ mw ∈ handlers, mw.Each KeepsPools) {s : Decoding ρ V W}
    (hs : ∀ i, (s.pools i).Valid) {arrivals : List (Arrival ρ (W × List PoolRef))}
    (hresets : ∀ a ∈ arrivals, d.Resets a.stream.reset) :
    ∀ x ∈ p.serveEach s arrivals, x.2.2 = none ∧
      Exchange d iterator c limiter p.idleTimeout (runtime x.2.1).log
        (Onion.run failed Onion.stop (handlers.map P2PForge.timed)) x.1 x.2.1.stream.data
        x.2.1.sc.err x.2.1.world.1.1 := by
  induction arrivals generalizing s with
  | nil => simp [serveEach]
  | cons a arrivals ih =>
    obtain ⟨hreset,hresets⟩ := List.forall_mem_cons.mp hresets
    rw [serveEach,List.forall_mem_cons]
    constructor
    · exact exchange_handleStream hp (s.receive a) (hs pool) hreset a.active a.ahead
    · exact ih (keepsPools_serving hp hhandlers (s.receive a) a.active a.ahead hs) hresets

end Serving

end Pipeline

def fragmentsStream : Duplex (Fragments × List UInt8) :=
  Duplex.join Fragments.reader bufferWriter.records

def byteCodec : RequestCodec UInt8 where
  marshal v := .ok [v]
  unmarshal
    | [v] => .ok v
    | _ => .error (.other "not a byte")
  contentType := "byte"

def twoRequests : Limiter ℕ := ⟨fun _ w => (w + 1,decide (w < 2)),none⟩

def cutOff (x : Fragments × List UInt8) : Fragments × List UInt8 :=
  (⟨[],.other "stream reset",false⟩,x.2)

def byteArrival (meanwhile : W → W) (peerID : String) (v : UInt8) (ahead : List (List Tick)) :
    Arrival (Fragments × List UInt8) W :=
  ⟨meanwhile,⟨"/byte",peerID,(⟨[[0,0],[0,1,v]],.eof,false⟩,[]),cutOff⟩,0,ahead⟩

def freshServer (w : W) : Decoding (Fragments × List UInt8) UInt8 W :=
  ⟨⟨"",[],none,none,none,none,0,none⟩,⟨"","",(⟨[],.eof,false⟩,[]),cutOff⟩,false,
    fun _ => BufferPool.newBufferPool,(w,[])⟩

def sevens : List (Middleware (Fragments × List UInt8) UInt8 (ℕ × List PoolRef)) :=
  [.act (respond 7) fun _ => .ret]

/-- Two streams, of which the second one is reset before it is read. -/
theorem serveEach_exchanges_sevens :
    let p := Pipeline.newPipeline (serving fragmentsStream 0 (fun _ => 0) (fun _ => none) byteCodec
      twoRequests ++ sevens)
    let exchanges := p.serveEach (freshServer 0)
      [byteArrival id "peer" 1 [],byteArrival id "peer" 2 [[],[],[.deadline,.hook]]]
    (∃ a b, exchanges = [a,b] ∧ Action.reset ∈ (runtime b.2.1).log) ∧ ∀ x ∈ exchanges,
      x.2.2 = none ∧ Exchange fragmentsStream (fun _ => none) byteCodec twoRequests p.idleTimeout
        (runtime x.2.1).log (Onion.run failed Onion.stop (sevens.map P2PForge.timed)) x.1
        x.2.1.stream.data x.2.1.sc.err x.2.1.world.1.1 := by
  intro p exchanges
  have hp : p.middleware = serving fragmentsStream 0 (fun _ => 0) (fun _ => none) byteCodec
    twoRequests ++ sevens := rfl
  have hreset : ∀ s : Decoding (Fragments × List UInt8) UInt8 ℕ, Action.reset ∈
      (runtime (p.handleStream s 0 [[],[],[.deadline,.hook]]).1).log := by
    intro s
    apply (Pipeline.log_before_read hp s 0 _).subset
    exact List.mem_of_getElem? (show _[3]? = some Action.reset from rfl)
  refine ⟨⟨_,_,rfl,hreset _⟩,Pipeline.serveEach_exchanges hp
    (List.forall_mem_singleton.mpr fun _ => ⟨keepsPools_of_eq rfl,trivial⟩)
    (fun _ => BufferPool.valid_newBufferPool) ?_⟩
  simp only [List.forall_mem_cons]
  exact ⟨fun _ => rfl,fun _ => rfl,by simp⟩

def handling (service : V → W → V × W) : Middleware ρ V (W × List PoolRef) :=
  beside (.act (fun s => s.sc.request.elim s fun request =>
    { respond (service request s.world).1 s with world := (service request s.world).2 }) fun _ =>
      .ret)

theorem each_handling (service : V → W → V × W) :
    (handling service : Middleware ρ V (W × List PoolRef)).Each KeepsPools := by
  apply keepsPools_beside
  intro s
  refine ⟨keepsPools_of_eq ?_,trivial⟩
  beta_reduce
  cases s.sc.request <;> rfl

structure Request (V W : Type) where
  meanwhile : W → W
  peerID : String
  request : V

/-- What the service and the limiter make of the requests, one after the other. -/
def localCalls (limiter : Limiter W) (service : V → W → V × W) :
    W → List (Request V W) → List (Option V)
  | _,[] => []
  | w,call :: calls =>
    let verdict := Limiter.allowN limiter call.peerID 1 (call.meanwhile w)
    if verdict.2.1 then
      some (service call.request verdict.1).1 ::
        localCalls limiter service (service call.request verdict.1).2 calls
    else none :: localCalls limiter service verdict.1 calls

/-- A value that survives the wire. -/
def RequestCodec.Faithful (c : RequestCodec V) (v : V) : Prop :=
  ∃ data, c.marshal v = .ok data ∧ c.unmarshal data = .ok v ∧ data ≠ [] ∧
    data.length ≤ maxFrameSize

/-- A peer opens a stream and sends a request on it, perhaps with more behind it. -/
structure Sends {d : Duplex ρ} (steady : d.Steady) (c : RequestCodec V)
    (a : Arrival ρ (W × List PoolRef)) (call : Request V W) : Prop where
  meanwhile : ∀ u, (a.meanwhile u).1 = call.meanwhile u.1
  peer : a.stream.remotePeer = call.peerID
  unwritten : d.records.written a.stream.data = []
  resets : d.Resets a.stream.reset
  sent : ∃ payload rest, Framed payload rest (steady.carries.pending a.stream.data) ∧
    c.unmarshal payload = .ok call.request

/-- What a client gets that reads the bytes, however they reach it: the result and then the end
of the stream, or the end at once. -/
def Receives (c : RequestCodec V) (sent : List UInt8) (result : Option V) : Prop :=
  ∀ ⦃σ : Type⦄ ⦃r : Reader σ⦄ (cr : r.Carries) ⦃q : σ⦄, cr.pending q = sent →
    match result with
    | none => (readFrame r q).1 = .error (.readLength (cr.fault q))
    | some v => (∃ data, (readFrame r q).1 = .ok data ∧ c.unmarshal data = .ok v) ∧
      (readFrame r (readFrame r q).2).1 = .error (.readLength (cr.fault q))

theorem receives_none (c : RequestCodec V) : Receives c [] none := by
  intro σ r cr q hq
  exact readFrame_at_end cr hq

theorem receives_some {c : RequestCodec V} {v : V} {data : List UInt8}
    (hdata : c.unmarshal data = .ok v) (hne : data ≠ []) (hmax : data.length ≤ maxFrameSize) :
    Receives c (wire [data]) (some v) := by
  intro σ r cr q hq
  have hframed : Framed data [] (cr.pending q) :=
    ⟨by simpa [wire] using hq,List.length_pos_iff.mpr hne,hmax⟩
  obtain ⟨hok,hrest,hfault⟩ := readFrame_of_framed cr hframed
  refine ⟨⟨data,hok,hdata⟩,?_⟩
  rw [readFrame_at_end cr hrest,hfault]

theorem receives_written {d : Duplex ρ} (steady : d.Steady) {c : RequestCodec V}
    {iterator : V → Option (FrameIterator (W × List PoolRef))} {v : V} (hcodec : c.Faithful v)
    (hsingle : iterator v = none) {reset : ρ → ρ} (hresets : d.Resets reset) {log : List Action}
    {x y z : ρ} {w : W × List PoolRef} (hfresh : d.records.written x = [])
    (hwrites : Writes d.writer x (produced iterator c.toCodec (some v) w) y)
    (hz : Meanwhile reset log y z) : Receives c (d.records.written z) (some v) := by
  obtain ⟨data,hmarshal,hunmarshal,hne,hmax⟩ := hcodec
  have hproduced : produced iterator c.toCodec (some v) w = [data] := by
    simp [produced,hsingle,hmarshal]
  rw [hproduced] at hwrites
  have htakes := hwrites.takes steady.neverFails (by simpa using hmax)
  have hsent : d.records.written z = wire [data] := by
    rw [Pipeline.written_meanwhile hresets hz,htakes.written d.records,hfresh,List.nil_append]
  rw [hsent]
  exact receives_some hunmarshal hne hmax

theorem run_handling {d : Duplex ρ} {limiter : Limiter W} {s : Decoding ρ V W}
    {payload : List UInt8} {request : V} {t : Timed ρ V (W × List PoolRef)}
    (h : Entered d limiter s payload request t) (service : V → W → V × W) :
    ∃ u, Onion.run failed Onion.stop ([handling service].map P2PForge.timed) t = (u,none) ∧
      Since t u ∧ u.sc.err = none ∧
      u.sc.response = some (service request (verdict limiter s).1).1 ∧
      u.world.1.1 = (service request (verdict limiter s).1).2 := by
  have hsc : (pass t).inner.inner.sc = t.sc := (passes_pass t).sc
  have hrequest : (pass t).inner.inner.sc.request = some request := by
    rw [hsc,h.request]
  have hworld : (pass t).inner.inner.world = (verdict limiter s).1 :=
    (congrArg Prod.fst (passes_pass t).world).trans h.world
  have hrun : Onion.run failed Onion.stop ([handling service].map P2PForge.timed) t =
      (step .work (onInner (onInner fun s => s.sc.request.elim s fun request =>
        { respond (service request s.world).1 s with
          world := (service request s.world).2 })) t,none) := by
    rw [run_timed_cons _ _ h.err]
    rfl
  have hanswer : (fun s : State ρ V W => s.sc.request.elim s fun request =>
      { respond (service request s.world).1 s with world := (service request s.world).2 })
        (pass t).inner.inner =
      { respond (service request (verdict limiter s).1).1 (pass t).inner.inner with
        world := (service request (verdict limiter s).1).2 } := by
    beta_reduce
    rw [hrequest,Option.elim_some,hworld]
  refine ⟨_,hrun,?_,?_,?_,?_⟩
  · have hstream := congrArg State.stream hanswer
    exact (passes_pass t).toSince.trans (.of_eq hstream (List.prefix_append _ _))
  · exact (congrArg (·.sc.err) hanswer).trans ((congrArg StreamContext.err hsc).trans h.err)
  · exact congrArg (·.sc.response) hanswer
  · exact congrArg State.world hanswer

namespace Pipeline

section Calls

variable {p : Pipeline ρ V (W × List PoolRef)} {d : Duplex ρ} (steady : d.Steady) {pool : ℕ}
  {pick : Decoding ρ V W → ℕ} {iterator : V → Option (FrameIterator (W × List PoolRef))}
  {c : RequestCodec V} {limiter : Limiter W} {service : V → W → V × W}
  (hp : p.middleware = serving d pool pick iterator c limiter ++ [handling service])
  (hsingle : ∀ request w, iterator (service request w).1 = none)
  (hcodec : ∀ request w, c.Faithful (service request w).1)

include hp hsingle hcodec

theorem handleStream_call {s : Decoding ρ V W} (hs : ∀ i, (s.pools i).Valid)
    {a : Arrival ρ (W × List PoolRef)} {call : Request V W} (hsends : Sends steady c a call)
    (hunreset : Unreset (p.handleStream (s.receive a) a.active a.ahead).1) :
    let out := p.handleStream (s.receive a) a.active a.ahead
    let verdict := Limiter.allowN limiter call.peerID 1 (call.meanwhile s.world.1)
    out.2 = none ∧
      (verdict.2.1 = true → out.1.world.1.1 = (service call.request verdict.1).2 ∧
        Receives c (d.records.written out.1.stream.data)
          (some (service call.request verdict.1).1)) ∧
      (verdict.2.1 = false → out.1.world.1.1 = verdict.1 ∧
        Receives c (d.records.written out.1.stream.data) none) := by
  intro out verdict
  obtain ⟨hmeanwhile,hpeer,hfresh,hresets,payload,rest,hframed,hdecoded⟩ := hsends
  obtain ⟨hreturns,hexchange⟩ :=
    exchange_handleStream hp (s.receive a) (hs pool) hresets a.active a.ahead
  have hverdict : P2PForge.verdict limiter (s.receive a) = verdict := by
    simp only [P2PForge.verdict,State.receive,hpeer,hmeanwhile,verdict]
  refine ⟨hreturns,?_⟩
  change Exchange d iterator c limiter p.idleTimeout (runtime out.1).log _ _ out.1.stream.data
    out.1.sc.err out.1.world.1.1 at hexchange
  change Action.reset ∉ (runtime out.1).log at hunreset
  generalize (runtime out.1).log = log at hexchange hunreset
  have hincoming : ∀ {result}, Incoming d p.idleTimeout log (s.receive a) result →
      result = .ok payload := by
    rintro _ ⟨x,hx,rfl⟩
    obtain rfl := hx.eq_of_unreset hunreset
    rw [readFrameWithTimeout_prompt steady.prompt]
    exact (readFrame_of_framed steady.carries hframed).1
  generalize out.1.stream.data = z at hexchange ⊢
  generalize out.1.world.1.1 = world at hexchange ⊢
  generalize out.1.sc.err = err at hexchange
  cases hexchange with
  | refused hrefused hunwritten =>
    cases hrefused with
    | unread hunread => cases hincoming hunread
    | limited _ hlimited =>
      rw [hverdict] at hlimited ⊢
      refine ⟨fun hadmitted => ?_,fun _ => ⟨rfl,?_⟩⟩
      · rw [hlimited] at hadmitted
        cases hadmitted
      · rw [hunwritten,State.receive,hfresh]
        exact receives_none c
    | undecoded hok _ hundecoded =>
      cases hincoming hok
      rw [hdecoded] at hundecoded
      cases hundecoded
  | panicked _ hentered hrun =>
    obtain ⟨u,hu,_⟩ := run_handling hentered service
    rw [hu] at hrun
    cases hrun
  | @answered _ _ t u _ _ x y z haccepted hentered hrun hx hwrites hz _ hworld =>
    obtain ⟨u,hu,hsince,herr,hresponse,hservice⟩ := run_handling hentered service
    obtain rfl : _ = u := congrArg Prod.fst (hrun.symm.trans hu)
    cases hincoming haccepted.incoming
    cases hdecoded.symm.trans haccepted.decoded
    have hadmitted := haccepted.admitted
    rw [hverdict] at hadmitted hresponse hservice
    refine ⟨fun _ => ⟨?_,?_⟩,fun hrejected => ?_⟩
    · rw [(hworld (by rw [hresponse,Option.bind_some,hsingle])).2,hservice]
    · have hentry : d.Resets t.stream.reset := hentered.reset ▸ hresets
      have hexit : d.Resets u.stream.reset := hsince.reset ▸ hentry
      have hunwritten : d.records.written x = [] := by
        rw [written_meanwhile hexit hx,written_meanwhile hentry hsince.data,hentered.written,
          State.receive,hfresh]
      rw [hresponse] at hwrites
      exact receives_written steady (hcodec _ _) (hsingle _ _) hexit hunwritten hwrites hz
    · rw [hadmitted] at hrejected
      cases hrejected

/-- Remote calls refine local ones. Peers open streams and send one request on each, and no stream
is reset. Every client reads, and then finds the stream at its end, the result that the service
would have given to its request, had it been called locally after those before it; or the end of
the stream at once, if the limiter turned it away. No stream panics. -/
theorem serveEach_localCalls {s : Decoding ρ V W} (hs : ∀ i, (s.pools i).Valid)
    {arrivals : List (Arrival ρ (W × List PoolRef))} {calls : List (Request V W)}
    (hsends : List.Forall₂ (Sends steady c) arrivals calls)
    (hunreset : ∀ x ∈ p.serveEach s arrivals, Unreset x.2.1) :
    List.Forall₂ (fun x result => x.2.2 = none ∧
        Receives c (d.records.written x.2.1.stream.data) result)
      (p.serveEach s arrivals) (localCalls limiter service s.world.1 calls) := by
  induction hsends generalizing s with
  | nil => exact .nil
  | @cons a call arrivals calls hcall _ ih =>
    rw [serveEach,List.forall_mem_cons] at hunreset
    obtain ⟨hreturns,hadmitted,hrejected⟩ :=
      handleStream_call steady hp hsingle hcodec hs hcall hunreset.1
    have hrest := ih (keepsPools_serving hp (by simpa using each_handling service)
      (s.receive a) a.active a.ahead hs) hunreset.2
    rw [State.inner] at hrest
    rw [serveEach,localCalls]
    cases hverdict : (Limiter.allowN limiter call.peerID 1 (call.meanwhile s.world.1)).2.1 with
    | true =>
      obtain ⟨hworld,hreads⟩ := hadmitted hverdict
      rw [hworld] at hrest
      exact .cons ⟨hreturns,hreads⟩ hrest
    | false =>
      obtain ⟨hworld,hreads⟩ := hrejected hverdict
      rw [hworld] at hrest
      exact .cons ⟨hreturns,hreads⟩ hrest

end Calls

end Pipeline
end P2PForge
