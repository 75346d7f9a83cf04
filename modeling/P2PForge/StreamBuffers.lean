import P2PForge.Router

/-! Pooled buffers of a stream.
`FrameDecodeMiddleware` leaves the buffer of the frame it read in `sc.PoolBuf`, and
`HandleStream` releases the buffer it finds there when the middlewares are through. A record
beside the world holds every buffer that was obtained for the stream, so that what becomes of
the others can be told. -/
namespace P2PForge

open Codec

variable {ρ V W : Type}

/-- A state whose world also holds the buffers that `FrameDecodeMiddleware` has obtained. -/
abbrev Decoding (ρ V W : Type) := State ρ V (W × List PoolRef)

namespace State

def decoded (s : Decoding ρ V W) : List PoolRef := s.world.2

def Live (s : State ρ V W) (b : PoolRef) : Prop :=
  ∃ h, (s.pools b.pool).handles[b.handle]? = some h ∧ h.released = false

end State

open State

/-- `ReadFramePooledWithTimeout` on the stream; `pick` is the item the pool will give. -/
def readRequest (r : Reader ρ) (pool : ℕ) (pick : Decoding ρ V W → ℕ) (s : Decoding ρ V W) :
    Option (PooledRead ρ) :=
  readFramePooledWithTimeout r s.sc.idleTimeout s.stream.data (s.pools pool) (pick s)

/-- The state after the read: an error in `sc.Err`, or the frame and its buffer in `sc`, and the
buffer on record. -/
def afterRead (pool : ℕ) (out : PooledRead ρ) (s : Decoding ρ V W) : Decoding ρ V W :=
  let s := { s with
    stream := { s.stream with data := out.next }
    pools := Function.update s.pools pool out.pool }
  match out.result with
  | .error e => setErr (.frame e) s
  | .ok b => { s with
    sc := { s.sc with rawBytes := out.pool.bytes b,poolBuf := some ⟨pool,b⟩ }
    world := (s.world.1,s.world.2 ++ [⟨pool,b⟩]) }

def frameDecodeMiddleware (r : Reader ρ) (pool : ℕ) (pick : Decoding ρ V W → ℕ) :
    Middleware ρ V (W × List PoolRef) :=
  .act (fun s => (readRequest r pool pick s).elim s fun out => afterRead pool out s) fun s =>
    match readRequest r pool pick s with
    | none => .panic (.runtime "slice bounds out of range")
    | some out =>
      match out.result with
      | .error _ => .ret
      | .ok _ => callNext

/-- An action of other code. It does not touch `sc.PoolBuf`, so it cannot get hold of the
buffers that were decoded; it may use the pools in any other way, which never takes a handle
out of them. -/
structure Untouched (s s' : Decoding ρ V W) : Prop where
  poolBuf : s'.sc.poolBuf = s.sc.poolBuf
  decoded : s'.decoded = s.decoded
  grows : ∀ i, (s.pools i).handles.length ≤ (s'.pools i).handles.length
  live : ∀ b ∈ s.decoded, s.Live b → s'.Live b

/-- A middleware in which only `FrameDecodeMiddleware` touches `sc.PoolBuf`. -/
inductive Decodes (r : Reader ρ) : Middleware ρ V (W × List PoolRef) → Prop
  | decode (pool pick) : Decodes r (frameDecodeMiddleware r pool pick)
  | chain {mws} : (∀ mw ∈ mws, Decodes r mw) → Decodes r (P2PForge.chain mws)
  | route {json fieldName routes} :
    (∀ op handler, routes op = some handler → Decodes r handler) →
      Decodes r (operationRouter json fieldName routes)
  | other {mw} : mw.Each Untouched → Decodes r mw

/-- What can have happened to the buffers between two states: `more` were obtained, the last of
which is in `sc.PoolBuf`, and none was released. -/
structure Obtains (s s' : Decoding ρ V W) (more : List PoolRef) : Prop where
  decoded : s'.decoded = s.decoded ++ more
  poolBuf : s'.sc.poolBuf = more.getLast?.or s.sc.poolBuf
  grows : ∀ i, (s.pools i).handles.length ≤ (s'.pools i).handles.length
  live : ∀ b ∈ s.decoded, s.Live b → s'.Live b
  fresh : ∀ b ∈ more, (s.pools b.pool).handles.length ≤ b.handle ∧ s'.Live b
  nodup : more.Nodup

def Reads (s s' : Decoding ρ V W) : Prop := ∃ more, Obtains s s' more

variable {s s' s'' : Decoding ρ V W} {more more' : List PoolRef}

theorem State.Live.lt {s : State ρ V W} {b : PoolRef} (h : s.Live b) :
    b.handle < (s.pools b.pool).handles.length := by
  obtain ⟨buf,hbuf,_⟩ := h
  obtain ⟨hlt,_⟩ := List.getElem?_eq_some_iff.mp hbuf
  exact hlt

theorem Untouched.obtains (h : Untouched s s') : Obtains s s' [] :=
  ⟨by simp [h.decoded],by simp [h.poolBuf],h.grows,h.live,by simp,List.nodup_nil⟩

theorem Reads.refl (s : Decoding ρ V W) : Reads s s :=
  ⟨[],Untouched.obtains ⟨rfl,rfl,fun _ => le_rfl,fun _ _ => id⟩⟩

theorem Obtains.trans (h : Obtains s s' more) (h' : Obtains s' s'' more') :
    Obtains s s'' (more ++ more') := by
  have hmem : ∀ {b}, b ∈ more → b ∈ s'.decoded := by
    intro b hb
    rw [h.decoded]
    exact List.mem_append_right _ hb
  refine ⟨?_,?_,fun i => (h.grows i).trans (h'.grows i),?_,?_,?_⟩
  · rw [h'.decoded,h.decoded,List.append_assoc]
  · rw [h'.poolBuf,h.poolBuf,List.getLast?_append,Option.or_assoc]
  · intro b hb hlive
    exact h'.live b (h.decoded ▸ List.mem_append_left _ hb) (h.live b hb hlive)
  · intro b hb
    rcases List.mem_append.mp hb with hb | hb
    · exact ⟨(h.fresh b hb).1,h'.live b (hmem hb) (h.fresh b hb).2⟩
    · exact ⟨(h.grows b.pool).trans (h'.fresh b hb).1,(h'.fresh b hb).2⟩
  · refine List.nodup_append.mpr ⟨h.nodup,h'.nodup,?_⟩
    rintro b hb _ hb' rfl
    have hlt := (h.fresh b hb).2.lt
    have hle := (h'.fresh b hb').1
    omega

theorem Reads.trans (h : Reads s s') (h' : Reads s' s'') : Reads s s'' := by
  obtain ⟨more,h⟩ := h
  obtain ⟨more',h'⟩ := h'
  exact ⟨more ++ more',h.trans h'⟩

theorem State.Live.append {s : State ρ V W} {b : PoolRef} (h : s.Live b) {pool : ℕ}
    {bp : BufferPool} {made : List PoolBuffer}
    (hhandles : bp.handles = (s.pools pool).handles ++ made) :
    ∃ buf, (Function.update s.pools pool bp b.pool).handles[b.handle]? = some buf ∧
      buf.released = false := by
  obtain ⟨buf,hbuf,hlive⟩ := h
  refine ⟨buf,?_,hlive⟩
  by_cases hb : b.pool = pool
  · subst hb
    obtain ⟨hlt,_⟩ := List.getElem?_eq_some_iff.mp hbuf
    rw [Function.update_self,hhandles,List.getElem?_append_left hlt,hbuf]
  · rw [Function.update_of_ne hb,hbuf]

theorem reads_afterRead {r : Reader ρ} {pool : ℕ} {pick : Decoding ρ V W → ℕ} {out : PooledRead ρ}
    (hread : readRequest r pool pick s = some out) : Reads s (afterRead pool out s) := by
  have hgrows : ∀ {made}, out.pool.handles = (s.pools pool).handles ++ made →
      ∀ i, (s.pools i).handles.length ≤
        (Function.update s.pools pool out.pool i).handles.length := by
    intro made hhandles i
    by_cases hi : i = pool
    · subst hi
      rw [Function.update_self,hhandles]
      simp
    · rw [Function.update_of_ne hi]
  rcases handles_readFramePooled hread with
    ⟨e,hresult,made,hhandles⟩ | ⟨hresult,buf,hhandles,hlive⟩
  · refine ⟨[],Untouched.obtains ?_⟩
    rw [afterRead,hresult]
    exact ⟨rfl,rfl,hgrows hhandles,fun b _ hb => hb.append hhandles⟩
  · refine ⟨[⟨pool,(s.pools pool).handles.length⟩],?_⟩
    rw [afterRead,hresult]
    refine ⟨rfl,rfl,hgrows hhandles,fun b _ hb => hb.append hhandles,?_,List.nodup_singleton _⟩
    intro b hb
    obtain rfl := List.mem_singleton.mp hb
    refine ⟨le_rfl,buf,?_,hlive⟩
    simp [hhandles]

theorem each_frameDecodeMiddleware (r : Reader ρ) (pool : ℕ) (pick : Decoding ρ V W → ℕ) :
    (frameDecodeMiddleware r pool pick).Each Reads := by
  intro s
  beta_reduce
  cases hread : readRequest r pool pick s with
  | none => exact ⟨.refl s,trivial⟩
  | some out =>
    refine ⟨reads_afterRead hread,?_⟩
    dsimp only
    cases out.result with
    | error e => trivial
    | ok b => exact Code.each_finish Reads

theorem Decodes.each {r : Reader ρ} {mw : Middleware ρ V (W × List PoolRef)} (h : Decodes r mw) :
    mw.Each Reads := by
  have hsame : ∀ {s s' : Decoding ρ V W}, s'.sc.poolBuf = s.sc.poolBuf → s'.world = s.world →
      s'.pools = s.pools → Reads s s' := by
    intro s s' hbuf hworld hpools
    refine ⟨[],Untouched.obtains ⟨hbuf,congrArg Prod.snd hworld,by simp [hpools],?_⟩⟩
    intro b _ hb
    rwa [State.Live,hpools]
  induction h with
  | decode pool pick => exact each_frameDecodeMiddleware r pool pick
  | chain _ ih => exact each_chain Reads.refl ih
  | route _ ih =>
    exact each_operationRouter Reads.refl (fun _ _ => hsame rfl rfl rfl)
      (fun _ _ => hsame rfl rfl rfl) ih
  | other hmw => exact hmw.mono fun _ _ h => ⟨[],h.obtains⟩

namespace Pipeline

open Timed

variable (p : Pipeline ρ V (W × List PoolRef)) {r : Reader ρ}

def TimedReads (t t' : Timed ρ V (W × List PoolRef)) : Prop := Reads t.inner t'.inner

theorem TimedReads.refl (t : Timed ρ V (W × List PoolRef)) : TimedReads t t := Reads.refl t.inner

theorem TimedReads.trans {t t' t'' : Timed ρ V (W × List PoolRef)} (h : TimedReads t t')
    (h' : TimedReads t' t'') : TimedReads t t'' := Reads.trans h h'

theorem each_timed {mw : Middleware ρ V (W × List PoolRef)} (h : Decodes r mw) :
    (P2PForge.timed mw).Each TimedReads := by
  apply Code.each_lift _ h.each
  intro f t hf
  have hpass := passes_pass t
  have hsame : Reads t.inner (pass t).inner := by
    refine ⟨[],Untouched.obtains ⟨?_,?_,?_,?_⟩⟩
    · exact congrArg (·.poolBuf) hpass.sc
    · exact congrArg Prod.snd hpass.world
    · intro i
      exact (congrArg (fun pools => (pools i).handles.length) hpass.pools).ge
    · intro b _ hb
      rw [State.Live] at hb ⊢
      rwa [State.inner,hpass.pools]
  exact hsame.trans hf

variable {p} in
theorem each_timed_middleware (hp : ∀ mw ∈ p.middleware, Decodes r mw) :
    ∀ m ∈ p.timed.middleware.drop 0, m.Each TimedReads := by
  intro m hm
  obtain ⟨mw,hmw,rfl⟩ := List.mem_map.mp hm
  exact each_timed (hp mw hmw)

theorem reads_run (hp : ∀ mw ∈ p.middleware, Decodes r mw) (t : Timed ρ V (W × List PoolRef)) :
    TimedReads t (p.timed.run 0 t).1 := by
  rw [run_eq_onion]
  exact Onion.run_rel (R := TimedReads) TimedReads.refl TimedReads.trans TimedReads.refl
    (each_timed_middleware hp) t

theorem reads_act (hp : ∀ mw ∈ p.middleware, Decodes r mw) {t u : Timed ρ V (W × List PoolRef)}
    {i : ℕ} (hu : .act i u ∈ p.timed.trace 0 t) : TimedReads t u := by
  rw [trace_eq_seen] at hu
  exact Onion.rel_of_act_mem_seen (R := TimedReads) TimedReads.refl TimedReads.trans
    (each_timed_middleware hp) hu

theorem pools_leave (t : Timed ρ V W) (q : Pipeline ρ V W) :
    (q.leave t).pools = t.sc.poolBuf.elim t.pools fun b =>
      Function.update t.pools b.pool ((t.pools b.pool).release b.handle) := by
  rw [(q.leave_keeps t).pools]
  cases hb : t.sc.poolBuf with
  | none => simp [release,hb]
  | some b => exact pools_release hb

theorem released_leave {t : Timed ρ V (W × List PoolRef)} {b : PoolRef} (hlive : t.Live b)
    (hb : t.sc.poolBuf = some b) :
    ∃ h, ((p.leave t).pools b.pool).handles[b.handle]? = some h ∧ h.released = true := by
  have hlt := hlive.lt
  rw [pools_leave,hb,Option.elim_some,Function.update_self]
  rw [← Codec.BufferPool.length_handles_release _ b.handle] at hlt
  have hh := List.getElem?_eq_getElem hlt
  exact ⟨_,hh,Codec.BufferPool.released_release hh⟩

theorem live_leave {t : Timed ρ V (W × List PoolRef)} {b : PoolRef} (hlive : t.Live b)
    (hb : t.sc.poolBuf ≠ some b) : (p.leave t).Live b := by
  obtain ⟨h,hh,hreleased⟩ := hlive
  refine ⟨h,?_,hreleased⟩
  rw [pools_leave,← hh]
  cases hother : t.sc.poolBuf with
  | none => rfl
  | some b' =>
    by_cases hpool : b.pool = b'.pool
    · have hne : b'.handle ≠ b.handle := by
        intro hhandle
        apply hb
        rw [hother]
        exact congrArg some (PoolRef.ext hpool.symm hhandle)
      rw [Option.elim_some,← hpool,Function.update_self,
        Codec.BufferPool.handles_release_of_ne _ hne]
    · rw [Option.elim_some,Function.update_of_ne hpool]

theorem decoded_leave (t : Timed ρ V (W × List PoolRef)) :
    (p.leave t).inner.decoded = t.inner.decoded :=
  congrArg Prod.snd (p.leave_since t).2.2

section Left

variable {t : Timed ρ V (W × List PoolRef)} (hbuf : t.sc.poolBuf = t.inner.decoded.getLast?)
  (hlive : ∀ b ∈ t.inner.decoded, t.Live b) (hnodup : t.inner.decoded.Nodup)

include hbuf hlive hnodup

/-- Of two buffers the first one is no longer in `sc.PoolBuf`, and stays unreleased. -/
theorem exists_live_leave (hlen : 1 < t.inner.decoded.length) :
    ∃ b ∈ t.inner.decoded, (p.leave t).Live b := by
  generalize t.inner.decoded = l at *
  match l with
  | [] => cases hlen
  | [b] => simp at hlen
  | b :: b' :: rest =>
    have hne : t.sc.poolBuf ≠ some b := by
      rw [hbuf,List.getLast?_cons_cons]
      exact fun hlast => (List.nodup_cons.mp hnodup).1 (List.mem_of_getLast? hlast)
    exact ⟨b,List.mem_cons_self,p.live_leave (hlive b List.mem_cons_self) hne⟩

theorem released_leave_iff :
    (∀ b ∈ t.inner.decoded, ∃ h, ((p.leave t).pools b.pool).handles[b.handle]? = some h ∧
      h.released = true) ↔ t.inner.decoded.length ≤ 1 := by
  constructor
  · intro hall
    by_contra hlen
    obtain ⟨b,hb,h,hh,hfalse⟩ := p.exists_live_leave hbuf hlive hnodup (by omega)
    obtain ⟨h',hh',htrue⟩ := hall b hb
    obtain rfl : h = h' := Option.some.inj (hh.symm.trans hh')
    rw [hfalse] at htrue
    cases htrue
  · intro hlen b hb
    obtain ⟨b',hb'⟩ := List.length_eq_one_iff.mp (le_antisymm hlen (List.length_pos_of_mem hb))
    rw [hb'] at hb hbuf
    obtain rfl := List.mem_singleton.mp hb
    exact p.released_leave (hlive b (hb' ▸ hb)) hbuf

end Left

/-- What should have become of the buffers of a stream when `HandleStream` returns: each one is
released, and none was while a middleware was running. -/
structure Reclaims (s : Decoding ρ V W) (active : ℤ) (ahead : List (List Tick)) : Prop where
  released : ∀ b ∈ (p.handleStream s active ahead).1.inner.decoded,
    ∃ h, ((p.handleStream s active ahead).1.pools b.pool).handles[b.handle]? = some h ∧
      h.released = true
  running : ∀ i t, .act i t ∈ p.timed.trace 0 (p.enter (arrive s active ahead)) →
    ∀ b ∈ t.inner.decoded, t.Live b
  ended : ∀ b ∈ (p.timed.run 0 (p.enter (arrive s active ahead))).1.inner.decoded,
    (p.timed.run 0 (p.enter (arrive s active ahead))).1.Live b

variable {p} in
theorem obtains_of_reads {s : Decoding ρ V W} (hs : s.decoded = []) {active : ℤ}
    {ahead : List (List Tick)} {t : Timed ρ V (W × List PoolRef)}
    (h : TimedReads (p.enter (arrive s active ahead)) t) :
    t.sc.poolBuf = t.inner.decoded.getLast? ∧ (∀ b ∈ t.inner.decoded, t.Live b) ∧
      t.inner.decoded.Nodup := by
  obtain ⟨more,h⟩ := h
  have hstart : (p.enter (arrive s active ahead)).inner.decoded = [] :=
    Eq.trans (congrArg Prod.snd (p.enter_keeps (arrive s active ahead)).2.2) hs
  have hdecoded := h.decoded
  rw [hstart,List.nil_append] at hdecoded
  rw [hdecoded]
  refine ⟨?_,fun b hb => (h.fresh b hb).2,h.nodup⟩
  have hbuf := h.poolBuf
  rwa [show (p.enter (arrive s active ahead)).inner.sc.poolBuf = none from rfl,Option.or_none]
    at hbuf

theorem run_timed_frameDecode (c : r.Carries) (pool : ℕ) (pick : Decoding ρ V W → ℕ)
    (next : Effect (Timed ρ V (W × List PoolRef)) (Panic V)) {t : Timed ρ V (W × List PoolRef)}
    (v : (t.pools pool).Valid) (hidle : t.sc.idleTimeout = 0) (hahead : (runtime t).ahead = [])
    {content rest : List UInt8} (hframed : Framed content rest (c.pending t.stream.data)) :
    ∃ t', (P2PForge.timed (frameDecodeMiddleware r pool pick)).run (fun _ => next) t = next t' ∧
      (runtime t').ahead = [] ∧ t'.inner.decoded.length = t.inner.decoded.length + 1 ∧
      failed t' = failed t ∧ t'.sc.idleTimeout = 0 ∧ (t'.pools pool).Valid ∧
      c.pending t'.stream.data = rest := by
  have hpass := passes_pass t
  have hsame := pass_of_ahead hahead
  obtain ⟨out,hread,hfollows⟩ :=
    v.readFramePooled r t.sc.idleTimeout t.stream.data (pick (pass t).inner)
  have hplain := readFrame_of_framed c hframed
  rw [readFrame,← hidle] at hplain
  have hresult := hfollows.result.trans hplain.1
  obtain ⟨b,hb⟩ : ∃ b, out.result = .ok b := by
    cases hout : out.result with
    | error e => simp [hout,Except.map] at hresult
    | ok b => exact ⟨b,rfl⟩
  have hrequest : readRequest r pool pick (pass t).inner = some out := by
    rw [hsame] at hread ⊢
    exact hread
  have hstate : afterRead pool out (pass t).inner = { (pass t).inner with
      stream := { (pass t).stream with data := out.next }
      pools := Function.update (pass t).pools pool out.pool
      sc := { (pass t).sc with rawBytes := out.pool.bytes b,poolBuf := some ⟨pool,b⟩ }
      world := ((pass t).world.1.1,(pass t).world.1.2 ++ [⟨pool,b⟩]) } := by
    rw [afterRead,hb]
    rfl
  refine ⟨step .work (onInner (afterRead pool out)) t,?_,?_,?_,?_,?_,?_,?_⟩
  · have hact : step .work (onInner fun s => (readRequest r pool pick s).elim s fun out =>
        afterRead pool out s) t = step .work (onInner (afterRead pool out)) t := by
      simp only [step,onInner,hrequest,Option.elim_some]
    simp [P2PForge.timed,frameDecodeMiddleware,Code.lift,callNext,hrequest,hb,hact]
  all_goals simp only [step,note,setRuntime,onInner,hstate]
  · rw [hsame]
    exact hahead
  · simp [decoded,State.inner,congrArg Prod.snd hpass.world]
  · simp [failed,hpass.sc]
  · simp [hpass.sc,hidle]
  · simp [hfollows.valid]
  · rw [hfollows.next]
    exact hplain.2.1

def twoFramesStream : Decoding Fragments Unit Unit :=
  ⟨State.blank.sc,⟨"/echo/1.0.0","alice",⟨[[0,0,0,1,7],[0,0,0,1,8]],.eof,false⟩,id⟩,false,
    State.blank.pools,((),[])⟩

def decodeFrame : Middleware Fragments Unit (Unit × List PoolRef) :=
  frameDecodeMiddleware Fragments.reader 0 fun _ => 0

def oneFrame : Pipeline Fragments Unit (Unit × List PoolRef) :=
  (newPipeline [decodeFrame]).withIdleTimeout 0

def twoFrames : Pipeline Fragments Unit (Unit × List PoolRef) :=
  (newPipeline [decodeFrame,decodeFrame]).withIdleTimeout 0

theorem enter_unplanned (q : Pipeline ρ V W) (s : State ρ V W) (active : ℤ) :
    Unreset (q.enter (arrive s active [])) ∧
      (runtime (q.enter (arrive s active []))).ahead = [] := by
  unfold enter counting
  split_ifs
  · have hlog : (runtime (q.newContext (step .afterFunc afterFunc (step .requestContext
        q.requestContext (step .add (addActive 1) (arrive s active [])))))).log =
      [.add,.requestContext,.afterFunc] := rfl
    exact ⟨by simp [Unreset,hlog],rfl⟩
  · have hlog : (runtime (q.newContext (step .afterFunc afterFunc (step .requestContext
        q.requestContext (arrive s active []))))).log = [.requestContext,.afterFunc] := rfl
    exact ⟨by simp [Unreset,hlog],rfl⟩

theorem run_firstFrame {q : Pipeline Fragments Unit (Unit × List PoolRef)}
    {rest : List (Middleware Fragments Unit (Unit × List PoolRef))}
    (hq : q.middleware = decodeFrame :: rest) (hidle : q.idleTimeout = 0) :
    ∃ t, q.timed.run 0 (q.enter (arrive twoFramesStream 0 [])) =
        Onion.run failed Onion.stop (rest.map P2PForge.timed) t ∧
      (runtime t).ahead = [] ∧ t.inner.decoded.length = 1 ∧ failed t = false ∧
      t.sc.idleTimeout = 0 ∧ (t.pools 0).Valid ∧
      Fragments.carries.pending t.stream.data = [0,0,0,1,8] := by
  obtain ⟨hsince,hpools,hworld⟩ := q.enter_keeps (arrive twoFramesStream 0 [])
  obtain ⟨hunreset,hahead⟩ := q.enter_unplanned twoFramesStream 0
  have hframed : Framed [7] [0,0,0,1,8] (Fragments.carries.pending
      (q.enter (arrive twoFramesStream 0 [])).stream.data) := by
    rw [hsince.stream_of_unreset hunreset]
    exact ⟨rfl,by decide,by decide⟩
  have hvalid : ((q.enter (arrive twoFramesStream 0 [])).pools 0).Valid := by
    rw [hpools]
    exact Codec.BufferPool.valid_newBufferPool
  obtain ⟨t,hrun,hnothing,hlen,hok,hkept⟩ := run_timed_frameDecode Fragments.carries 0 (fun _ => 0)
    (Onion.run failed Onion.stop (rest.map P2PForge.timed)) hvalid hidle hahead hframed
  refine ⟨t,?_,hnothing,?_,hok,hkept⟩
  · rw [run_eq_onion,← hrun]
    simp only [timed,hq,List.map_cons,List.drop_zero]
    exact if_neg Bool.false_ne_true
  · rw [hlen,decoded,State.inner,hworld]
    rfl

theorem decoded_twoFrames : (twoFrames.timed.run 0
    (twoFrames.enter (arrive twoFramesStream 0 []))).1.inner.decoded.length = 2 := by
  obtain ⟨t,hrun,hahead,hlen,hok,hidle,hvalid,hpending⟩ := run_firstFrame (q := twoFrames) rfl rfl
  have hframed : Framed [8] [] (Fragments.carries.pending t.stream.data) := by
    rw [hpending]
    exact ⟨rfl,by decide,by decide⟩
  obtain ⟨t',hrun',_,hlen',_⟩ :=
    run_timed_frameDecode Fragments.carries 0 (fun _ => 0) Onion.stop hvalid hidle hahead hframed
  have hgo : ¬ failed t = true := by simp [hok]
  have hrest : Onion.run failed Onion.stop [P2PForge.timed decodeFrame] t = (t',none) :=
    (if_neg hgo).trans hrun'
  rw [hrun]
  simp only [List.map_cons,List.map_nil,hrest,hlen',hlen]

/-- The buffers of a stream are reclaimed exactly if no more than one was obtained. -/
theorem handleStream_reclaims_iff (hp : ∀ mw ∈ p.middleware, Decodes r mw) (s : Decoding ρ V W)
    (hs : s.decoded = []) (active : ℤ) (ahead : List (List Tick)) :
    p.Reclaims s active ahead ↔ (p.handleStream s active ahead).1.inner.decoded.length ≤ 1 := by
  have hrun := p.reads_run hp (p.enter (arrive s active ahead))
  obtain ⟨hbuf,hlive,hnodup⟩ := obtains_of_reads hs hrun
  have hdecoded := p.decoded_leave (p.timed.run 0 (p.enter (arrive s active ahead))).1
  have hiff := p.released_leave_iff hbuf hlive hnodup
  constructor
  · intro h
    have hreleased := h.released
    simp only [handleStream,hdecoded] at hreleased ⊢
    exact hiff.mp hreleased
  · intro hle
    simp only [handleStream,hdecoded] at hle
    refine ⟨?_,fun i t ht => (obtains_of_reads hs (p.reads_act hp ht)).2.1,hlive⟩
    simp only [handleStream,hdecoded]
    exact hiff.mpr hle

/-- When the handler of two frames returns, a buffer it obtained is still not released. -/
theorem twoFrames_not_released :
    ∃ b ∈ (twoFrames.handleStream twoFramesStream 0 []).1.inner.decoded,
      (twoFrames.handleStream twoFramesStream 0 []).1.Live b := by
  have hdecodes : ∀ mw ∈ twoFrames.middleware, Decodes Fragments.reader mw := by
    intro mw hmw
    obtain rfl : mw = decodeFrame := by
      simpa [twoFrames,withIdleTimeout,newPipeline] using hmw
    exact .decode 0 _
  have hrun := twoFrames.reads_run hdecodes (twoFrames.enter (arrive twoFramesStream 0 []))
  obtain ⟨hbuf,hlive,hnodup⟩ := obtains_of_reads rfl hrun
  have hlen := decoded_twoFrames
  simp only [handleStream,decoded_leave]
  exact twoFrames.exists_live_leave hbuf hlive hnodup (by omega)

theorem oneFrame_reclaims : oneFrame.Reclaims twoFramesStream 0 [] := by
  have hdecodes : ∀ mw ∈ oneFrame.middleware, Decodes Fragments.reader mw := by
    intro mw hmw
    obtain rfl := List.mem_singleton.mp hmw
    exact .decode 0 _
  apply (handleStream_reclaims_iff oneFrame hdecodes twoFramesStream rfl 0 []).mpr
  obtain ⟨t,hrun,_,hlen,_⟩ := run_firstFrame (q := oneFrame) rfl rfl
  simp only [handleStream,decoded_leave,hrun]
  exact hlen.le

end Pipeline

end P2PForge
