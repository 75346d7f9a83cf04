import P2PForge.RemoteCalls
import P2PForge.TokenConformance

/-! Remote calls under a token bucket.
The limiter of the serving pipeline is a `TokenBucket`, which other streams may use meanwhile and
whose background passes go on. What clients get is then bounded by the bucket's allowance, and a
peer that keeps to it is never turned away. -/
namespace P2PForge

open TokenBucket

variable {ρ V U : Type}

/-- A world with a token bucket, its running passes, a clock and the data of the service. -/
structure Limited (U : Type) where
  books : KeyedSweep.State TokenBucket Unit Time
  now : Time
  user : U

abbrev BucketEvent := KeyedSweep.Event String Int64 Unit Time

def tokenLimiter (env : Env String) : Limiter (Limited U) where
  allowN x w :=
    let r := w.books.store.allowN env x.1 x.2 w.now
    ({ w with books := { w.books with store := r.1 } },r.2)
  allowNWithRetry := some fun x w =>
    let r := w.books.store.allowNWithRetry env x.1 x.2 w.now
    ({ w with books := { w.books with store := r.1 } },r.2)

def onUser (service : V → U → V × U) (request : V) (w : Limited U) : V × Limited U :=
  ((service request w.user).1,{ w with user := (service request w.user).2 })

/-- A request at a time, with what else the bucket does before it: other calls, passes that begin,
and passes that go on to a further shard. -/
structure TimedCall (V : Type) where
  before : List BucketEvent
  now : Time
  peerID : String
  request : V

namespace TimedCall

def events (call : TimedCall V) : List BucketEvent :=
  call.before ++ [.call call.peerID 1 call.now]

def toRequest (env : Env String) (call : TimedCall V) : Request V (Limited U) where
  meanwhile w := { w with books := (machine env).run w.books call.before,now := call.now }
  peerID := call.peerID
  request := call.request

end TimedCall

def answeredAt (p : String) (calls : List (TimedCall V)) (results : List (Option V)) : List Time :=
  (calls.zip results).filterMap fun x => if x.1.peerID = p ∧ x.2.isSome then some x.1.now else none

theorem answeredAt_cons (p : String) (call : TimedCall V) (calls : List (TimedCall V))
    (result : Option V) (results : List (Option V)) :
    answeredAt p (call :: calls) (result :: results) =
      (if call.peerID = p ∧ result.isSome then [call.now] else []) ++
        answeredAt p calls results := by
  rw [answeredAt,List.zip_cons_cons,List.filterMap_cons]
  split_ifs <;> rfl

section Replies

variable (env : Env String) (service : V → U → V × U)

theorem allowN_tokenLimiter (call : TimedCall V) (w : Limited U) :
    let charged := (machine env).run w.books call.before
    Limiter.allowN (tokenLimiter env) call.peerID 1
        ((call.toRequest env : Request V (Limited U)).meanwhile w) =
      (⟨(machine env).run w.books call.events,call.now,w.user⟩,
        ((machine env).call charged.store call.peerID 1 call.now).2) := by
  rw [TimedCall.events,KeyedSweep.Machine.run_append]
  rfl

theorem localCalls_cons (call : TimedCall V) (calls : List (TimedCall V)) (w : Limited U) :
    ∃ result w', w'.books = (machine env).run w.books call.events ∧
      result.isSome = ((machine env).call ((machine env).run w.books call.before).store call.peerID
        1 call.now).2.1 ∧
      localCalls (tokenLimiter env) (onUser service) w ((call :: calls).map (·.toRequest env)) =
        result :: localCalls (tokenLimiter env) (onUser service) w'
          (calls.map (·.toRequest env)) := by
  have hcharge := allowN_tokenLimiter env call w
  rw [List.map_cons,localCalls]
  change Limiter.allowN (tokenLimiter env) (call.toRequest env : Request V (Limited U)).peerID 1 _ =
    _ at hcharge
  rw [hcharge]
  cases hreply : ((machine env).call ((machine env).run w.books call.before).store call.peerID 1
      call.now).2.1 with
  | true => exact ⟨_,_,rfl,rfl,if_pos rfl⟩
  | false => exact ⟨_,_,rfl,rfl,if_neg Bool.false_ne_true⟩

theorem trace_events (call : TimedCall V) (books : KeyedSweep.State TokenBucket Unit Time) :
    (machine env).trace books call.events = (machine env).trace books call.before ++
      [⟨call.peerID,1,call.now,((machine env).call ((machine env).run books call.before).store
        call.peerID 1 call.now).2⟩] := by
  rw [TimedCall.events,KeyedSweep.Machine.trace_append]
  rfl

theorem answeredAt_sublist (p : String) (calls : List (TimedCall V)) (w : Limited U) :
    List.Sublist ((answeredAt p calls (localCalls (tokenLimiter env) (onUser service) w
        (calls.map (·.toRequest env)))).map fun t => (t,1))
      (admitted p ((machine env).trace w.books (calls.flatMap TimedCall.events))) := by
  have happend : ∀ rs rs', admitted p (rs ++ rs') = admitted p rs ++ admitted p rs' := by
    simp [admitted]
  induction calls generalizing w with
  | nil => exact List.nil_sublist _
  | cons call calls ih =>
    obtain ⟨result,w',hbooks,hresult,hcalls⟩ := localCalls_cons env service call calls w
    have hrest := ih w'
    rw [hbooks] at hrest
    rw [hcalls,answeredAt_cons,List.map_append,List.flatMap_cons,KeyedSweep.Machine.trace_append,
      trace_events,happend,happend]
    refine .append (.trans ?_ (List.sublist_append_right _ _)) hrest
    split_ifs with hanswered
    · obtain ⟨rfl,hsome⟩ := hanswered
      rw [hresult] at hsome
      simp [admitted,hsome]
    · exact List.nil_sublist _

theorem reply_of_mem_zip {calls : List (TimedCall V)} {w : Limited U} {x : TimedCall V × Option V}
    (hx : x ∈ calls.zip (localCalls (tokenLimiter env) (onUser service) w
      (calls.map (·.toRequest env)))) :
    ∃ r ∈ (machine env).trace w.books (calls.flatMap TimedCall.events),
      r.key = x.1.peerID ∧ r.result.1 = x.2.isSome := by
  induction calls generalizing w with
  | nil => cases hx
  | cons call calls ih =>
    obtain ⟨result,w',hbooks,hresult,hcalls⟩ := localCalls_cons env service call calls w
    rw [hcalls,List.zip_cons_cons,List.mem_cons] at hx
    rw [List.flatMap_cons,KeyedSweep.Machine.trace_append,trace_events]
    rcases hx with rfl | hx
    · exact ⟨_,List.mem_append_left _ (List.mem_append_right _ List.mem_cons_self),rfl,
        hresult.symm⟩
    · obtain ⟨r,hr,hkey⟩ := ih hx
      rw [hbooks] at hr
      exact ⟨r,List.mem_append_right _ hr,hkey⟩

end Replies

def timeline (calls : List (TimedCall V)) : List BucketEvent := calls.flatMap TimedCall.events

/-- Remote calls under a token bucket, on streams that hold and are not reset. Every client gets the
result of the service, or the end of the stream if the bucket turned it away. In every interval a
peer gets no more answers than the bucket's allowance, whatever the other peers, the other streams
and the passes do; and a peer whose calls fit the allowance is always answered. -/
theorem serveEach_conforms (env : Env String) {p : Pipeline ρ V (Limited U × List PoolRef)}
    {d : Duplex ρ} (steady : d.Steady) {pool : ℕ} {pick : Decoding ρ V (Limited U) → ℕ}
    {iterator : V → Option (FrameIterator (Limited U × List PoolRef))} {c : RequestCodec V}
    {service : V → U → V × U}
    (hp : p.middleware =
      serving d pool pick iterator c (tokenLimiter env) ++ [handling (onUser service)])
    (hsingle : ∀ request u, iterator (service request u).1 = none)
    (hcodec : ∀ request u, c.Faithful (service request u).1) {window : Duration}
    {rate burst : Int64} (hrate : 0 < rate) {s : Decoding ρ V (Limited U)}
    (hs : ∀ i, (s.pools i).Valid)
    (hbooks : s.world.1.books = KeyedSweep.start (newTokenBucket window rate burst))
    {arrivals : List (Arrival ρ (Limited U × List PoolRef))} {calls : List (TimedCall V)}
    (hsends : List.Forall₂ (Sends steady c) arrivals (calls.map (·.toRequest env)))
    (hunreset : ∀ x ∈ p.serveEach s arrivals, Timed.Unreset x.2.1)
    (hclock : KeyedSweep.Clocked (timeline calls)) :
    let results := localCalls (tokenLimiter env) (onUser service) s.world.1
      (calls.map (·.toRequest env))
    List.Forall₂ (fun x result => x.2.2 = none ∧
        Receives c (d.records.written x.2.1.stream.data) result) (p.serveEach s arrivals) results ∧
      ∀ peerID,
        (∀ x y : ℤ, x ≤ y →
          (((answeredAt peerID calls results).filter fun t => x ≤ t.ns ∧ t.ns ≤ y).length : ℚ) ≤
            allowance window rate burst (y - x)) ∧
        ((∀ a ∈ KeyedSweep.callsOf peerID (timeline calls),
            (a.1.toNatClampNeg : ℤ) ≤ (effectiveBurst rate burst).toInt) →
          (∀ s c g t d, (s,c) :: (g ++ [(t,d)]) <:+:
              (KeyedSweep.callsOf peerID (timeline calls)).map (fun a => (a.2,a.1.toNatClampNeg)) →
            ((c + spent g + d : ℕ) : ℚ) ≤ allowance window rate burst (t.ns - s.ns)) →
          ∀ x ∈ calls.zip results, x.1.peerID = peerID → x.2.isSome = true) := by
  intro results
  refine ⟨Pipeline.serveEach_localCalls steady hp (fun request w => hsingle request w.user)
    (fun request w => hcodec request w.user) hs hsends hunreset,fun peerID => ⟨?_,?_⟩⟩
  · intro x y hxy
    have hsub := answeredAt_sublist env service peerID calls s.world.1
    rw [hbooks] at hsub
    have hwithin := (hsub.filter fun a => decide (x ≤ a.1.ns ∧ a.1.ns ≤ y)).map Prod.snd
    have hcount := hwithin.sum_le_sum fun _ _ => Nat.zero_le _
    rw [List.filter_map,List.map_map,Function.comp_def,List.map_const',List.sum_replicate,
      smul_eq_mul,mul_one] at hcount
    calc
      _ ≤ (spent ((admitted peerID ((machine env).trace (KeyedSweep.start
          (newTokenBucket window rate burst)) (timeline calls))).filter
            fun a => x ≤ a.1.ns ∧ a.1.ns ≤ y) : ℚ) := Nat.cast_le.mpr hcount
      _ ≤ allowance window rate burst (y - x) := spent_interval_le env hrate hclock peerID hxy
  · intro hcap hspan x hx hpeer
    obtain ⟨r,hr,hkey,hreply⟩ := reply_of_mem_zip env service hx
    rw [hbooks] at hr
    rw [← hreply]
    exact admitted_of_within env hrate hclock peerID hcap hspan r hr (hkey.trans hpeer)

def nextByte (peerID : String) (v : UInt8) : TimedCall UInt8 :=
  ⟨[.sample () Time.start,.visit 0],Time.start,peerID,v⟩

def steady_fragmentsStream : fragmentsStream.Steady :=
  Duplex.steady_join Fragments.carries (fun _ h => nomatch h) bufferWriter.records
    bufferWriter.neverFails

theorem sends_nextByte (peerID : String) (v : UInt8) :
    let request : Request UInt8 (Limited Unit) := (nextByte peerID v).toRequest textEnv
    Sends steady_fragmentsStream byteCodec
      (byteArrival (Prod.map request.meanwhile id) peerID v []) request := by
  intro request
  have hlength : Codec.putUint32 1 = [0,0,0,1] := by decide
  refine ⟨fun _ => rfl,rfl,rfl,fun _ => rfl,[v],[],⟨?_,by simp,by simp [Codec.maxFrameSize]⟩,rfl⟩
  rw [List.length_singleton,hlength]
  rfl

/-- Three requests at once, of buckets for one: a peer gets one answer at most, the other peer gets
its answer. -/
theorem serveEach_conforms_nextByte :
    let p : Pipeline (Fragments × List UInt8) UInt8 (Limited Unit × List PoolRef) :=
      (Pipeline.newPipeline (serving fragmentsStream 0 (fun _ => 0) (fun _ => none) byteCodec
        (tokenLimiter textEnv) ++ [handling (onUser fun v u => (v + 1,u))])).withRequestTimeout 0
    let s : Decoding (Fragments × List UInt8) UInt8 (Limited Unit) :=
      freshServer ⟨KeyedSweep.start (newTokenBucket Duration.minute 1 1),Time.start,()⟩
    let calls := [nextByte "peer" 4,nextByte "peer" 6,nextByte "other" 8]
    let arrivals := calls.map fun call => byteArrival (Prod.map
      (call.toRequest textEnv : Request UInt8 (Limited Unit)).meanwhile id) call.peerID
        call.request []
    let results := localCalls (tokenLimiter textEnv) (onUser fun v u => (v + 1,u)) s.world.1
      (calls.map (·.toRequest textEnv))
    List.Forall₂ (fun x result => x.2.2 = none ∧
        Receives byteCodec (fragmentsStream.records.written x.2.1.stream.data) result)
        (p.serveEach s arrivals) results ∧
      (((answeredAt "peer" calls results).filter fun t => 0 ≤ t.ns ∧ t.ns ≤ 0).length : ℚ) ≤ 1 ∧
      ∀ x ∈ calls.zip results, x.1.peerID = "other" → x.2.isSome = true := by
  intro p s calls arrivals results
  have hclock : KeyedSweep.Clocked (timeline calls) := by
    simp [calls,timeline,TimedCall.events,nextByte,KeyedSweep.Clocked,KeyedSweep.Event.now?,
      List.filterMap_cons]
  have hother : KeyedSweep.callsOf "other" (timeline calls) = [(1,Time.start)] := rfl
  have hburst : allowance Duration.minute 1 1 (0 - 0) = 1 := by
    have hone : (effectiveBurst 1 1).toInt = 1 := by decide
    rw [allowance,hone]
    simp
  obtain ⟨hreads,hpeers⟩ := serveEach_conforms textEnv steady_fragmentsStream (p := p) (s := s)
    rfl (fun _ _ => rfl)
    (fun request _ => ⟨[request + 1],rfl,rfl,by simp,by simp [Codec.maxFrameSize]⟩)
    (show (0 : Int64) < 1 by decide) (fun _ => Codec.BufferPool.valid_newBufferPool) rfl
    (.cons (sends_nextByte "peer" 4) (.cons (sends_nextByte "peer" 6)
      (.cons (sends_nextByte "other" 8) .nil)))
    (Pipeline.unreset_serveEach (show (0 : Duration) ≤ 0 by decide) s arrivals) hclock
  refine ⟨hreads,?_,(hpeers "other").2 ?_ ?_⟩
  · rw [← hburst]
    exact (hpeers "peer").1 0 0 le_rfl
  · rw [hother]
    decide
  · -- with a single call there is no pair of calls that could be too much
    intro s c g t d hinfix
    rw [hother] at hinfix
    have hlength := hinfix.length_le
    simp at hlength

end P2PForge
