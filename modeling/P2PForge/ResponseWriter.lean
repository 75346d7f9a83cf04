import P2PForge.StreamMetrics
import P2PForge.FrameGrammar

/-! Writing the response.
`ResponseWriterMiddleware` writes what the handler left in `sc.Response`: all frames of an
iterator, or else the value itself as one frame. The two ways write the same bytes, but only
the first one reports in `sc.Err` that it could not. -/
namespace P2PForge

open Codec

variable {ρ V W : Type}

structure Codec (V : Type) where
  marshal : V → Except GoErr (List UInt8)

/-- A `FrameIterator`, whose own state is in the world. `Next` gives a frame finitely often
only; `left` bounds how often it still does. -/
structure FrameIterator (W : Type) where
  next : W → Except GoErr (List UInt8) × W
  left : W → ℕ
  left_lt : ∀ u data, (next u).1 = .ok data → left (next u).2 < left u

def ioEOF : GoErr := .stream .eof

namespace FrameIterator

variable (it : FrameIterator W)

def after (u : W) : W := (it.next u).2

def frames (u : W) : List (List UInt8) :=
  match _h : (it.next u).1 with
  | .error _ => []
  | .ok data => data :: frames (it.after u)
termination_by it.left u
decreasing_by exact it.left_lt u data _h

def fault (u : W) : GoErr :=
  match _h : (it.next u).1 with
  | .error e => e
  | .ok _ => fault (it.after u)
termination_by it.left u
decreasing_by exact it.left_lt u _ _h

theorem ended {u : W} {e : GoErr} (h : (it.next u).1 = .error e) :
    it.frames u = [] ∧ it.fault u = e := by
  rw [frames,fault]
  split <;> simp_all

theorem continued {u : W} {data : List UInt8} (h : (it.next u).1 = .ok data) :
    it.frames u = data :: it.frames (it.after u) ∧ it.fault u = it.fault (it.after u) := by
  rw [frames,fault]
  split <;> simp_all

end FrameIterator

def State.writeFrame (s : State ρ V W) (w : Writer ρ) (data : List UInt8) :
    Option FrameErr × State ρ V W :=
  let out := writeFrameWithTimeout w data s.sc.idleTimeout s.stream.data
  (out.1,{ s with stream := { s.stream with data := out.2 } })

namespace FrameIterator

variable (it : FrameIterator W) (w : Writer ρ)

def advance (s : State ρ V W) : State ρ V W := { s with world := it.after s.world }

/-- The loop over the frames of the response. -/
def writeFrames (s : State ρ V W) : State ρ V W :=
  match _h : (it.next s.world).1 with
  | .error e =>
    if e = ioEOF then it.advance s else setErr (.wrap "produce frame: " e) (it.advance s)
  | .ok data =>
    match ((it.advance s).writeFrame w data).1 with
    | some e => setErr (.wrap "write frame: " (.frame e)) ((it.advance s).writeFrame w data).2
    | none => writeFrames ((it.advance s).writeFrame w data).2
termination_by it.left s.world
decreasing_by exact it.left_lt s.world data _h

variable {it w} {s : State ρ V W}

theorem writeFrames_error {e : GoErr} (h : (it.next s.world).1 = .error e) :
    it.writeFrames w s =
      if e = ioEOF then it.advance s else setErr (.wrap "produce frame: " e) (it.advance s) := by
  rw [writeFrames]
  split <;> simp_all

theorem writeFrames_ok {data : List UInt8} (h : (it.next s.world).1 = .ok data) :
    it.writeFrames w s =
      match ((it.advance s).writeFrame w data).1 with
      | some e => setErr (.wrap "write frame: " (.frame e)) ((it.advance s).writeFrame w data).2
      | none => it.writeFrames w ((it.advance s).writeFrame w data).2 := by
  rw [writeFrames]
  split <;> simp_all

end FrameIterator

/-- The response as a single frame; errors are only logged. -/
def writeResponse (w : Writer ρ) (c : Codec V) (response : V) (s : State ρ V W) : State ρ V W :=
  match c.marshal response with
  | .error _ => s
  | .ok data => (s.writeFrame w data).2

/-- `ResponseWriterMiddleware` on a stream with writer `w`; `iterator` is the type assertion
`sc.Response.(FrameIterator)`. -/
def responseWriterMiddleware (w : Writer ρ) (iterator : V → Option (FrameIterator W))
    (c : Codec V) : Middleware ρ V W :=
  .call () fun
    | some v => .panic v
    | none =>
      .act id fun s =>
        match s.sc.response with
        | none => .ret
        | some response =>
          match iterator response with
          | some iter => .act (iter.writeFrames w) fun _ => .ret
          | none => .act (writeResponse w c response) fun _ => .ret

namespace FrameIterator

variable {w : Writer ρ} (d : w.Records) (it : FrameIterator W)

/-- What the loop leaves behind if it starts in `s`: `k` whole frames and a part of the next. -/
structure Leaves (s out : State ρ V W) (k : ℕ) (part : List UInt8) : Prop where
  le : k ≤ (it.frames s.world).length
  written : d.written out.stream.data =
    d.written s.stream.data ++ wire ((it.frames s.world).take k) ++ part
  /-- The part is a beginning of frame `k`, if there is one. -/
  part_of : part <+: wire (((it.frames s.world).drop k).take 1)
  /-- There is a part only if a write of the stream failed in frame `k`, and it is what was written
  of this frame. -/
  part_nil : part ≠ [] → ∃ p cause, (it.frames s.world)[k]? = some p ∧
    w.Breaks s.stream.data (wire ((it.frames s.world).take k)) (putUint32 p.length ++ p) part cause
      out.stream.data
  /-- Frames that are too large are among neither. -/
  small : (∀ p ∈ (it.frames s.world).take k, p.length ≤ maxFrameSize) ∧
    ∀ p, (it.frames s.world)[k]? = some p → maxFrameSize < p.length → part = []
  err : out.sc.err = none ↔ k = (it.frames s.world).length ∧ it.fault s.world = ioEOF
  /-- Frame `k`, if there is one, is too large, or a write of the stream failed in it. -/
  failed : ∀ p, (it.frames s.world)[k]? = some p →
    ∃ e, out.sc.err = some (.wrap "write frame: " (.frame e)) ∧
      (e = .tooLarge p.length ∧ maxFrameSize < p.length ∨
        ∃ cause, (e = .writeLength cause ∨ e = .writeData cause) ∧
          w.Breaks s.stream.data (wire ((it.frames s.world).take k)) (putUint32 p.length ++ p) part
            cause out.stream.data)
  /-- `Next` was called for the `k` frames and once more: it gave its error, or the frame that
  could not be written. -/
  calls : out.world = it.after^[k + 1] s.world

variable {d it} {s : State ρ V W}

theorem leaves_eof (herr : s.sc.err = none) (h : (it.next s.world).1 = .error ioEOF) :
    it.Leaves d s (it.advance s) 0 [] := by
  obtain ⟨hframes,hfault⟩ := it.ended h
  constructor <;> simp [hframes,hfault,advance,wire,herr]

theorem leaves_fault {e : GoErr} (h : (it.next s.world).1 = .error e) (he : e ≠ ioEOF) :
    it.Leaves d s (setErr (.wrap "produce frame: " e) (it.advance s)) 0 [] := by
  obtain ⟨hframes,hfault⟩ := it.ended h
  constructor <;> simp [hframes,hfault,he,advance,wire,setErr]

theorem leaves_failed {data : List UInt8} {e : FrameErr} (h : (it.next s.world).1 = .ok data)
    (he : ((it.advance s).writeFrame w data).1 = some e) :
    ∃ part, it.Leaves d s
      (setErr (.wrap "write frame: " (.frame e)) ((it.advance s).writeFrame w data).2) 0 part := by
  obtain ⟨hframes,_⟩ := it.continued h
  have hfirst : ∀ {p}, (it.frames s.world)[0]? = some p ↔ p = data := by simp [hframes,eq_comm]
  rcases takes_writeFrameWithTimeout w data s.sc.idleTimeout s.stream.data with
    ⟨hnone,_⟩ | ⟨hlarge,hmax,hsame⟩ | ⟨cause,part,e',he',hcause,hmax,hbreaks⟩
  · cases hnone.symm.trans he
  · obtain rfl := Option.some.inj (hlarge.symm.trans he)
    refine ⟨[],?_⟩
    constructor
    case failed =>
      intro p hp
      obtain rfl := hfirst.mp hp
      exact ⟨_,rfl,.inl ⟨rfl,hmax⟩⟩
    case written =>
      rw [List.take_zero,wire,List.flatMap_nil,List.append_nil,List.append_nil]
      exact congrArg d.written hsame
    all_goals simp [hframes,advance,setErr,State.writeFrame]
  · obtain rfl := Option.some.inj (he'.symm.trans he)
    refine ⟨part,?_⟩
    constructor
    case failed =>
      intro p hp
      obtain rfl := hfirst.mp hp
      exact ⟨_,rfl,.inr ⟨cause,hcause,hbreaks⟩⟩
    case written =>
      rw [List.take_zero,wire,List.flatMap_nil]
      exact hbreaks.written d
    case part_of => simpa [hframes,wire] using hbreaks.isPrefix
    case part_nil => exact fun _ => ⟨data,cause,hfirst.mpr rfl,hbreaks⟩
    case small =>
      refine ⟨by simp,?_⟩
      intro p hp hlarge
      obtain rfl := hfirst.mp hp
      omega
    all_goals simp [hframes,advance,setErr,State.writeFrame]

theorem Leaves.cons {data part : List UInt8} {out : State ρ V W} {k : ℕ}
    (h : (it.next s.world).1 = .ok data) (hnil : ((it.advance s).writeFrame w data).1 = none)
    (hrest : it.Leaves d ((it.advance s).writeFrame w data).2 out k part) :
    it.Leaves d s out (k + 1) part := by
  obtain ⟨hframes,hfault⟩ := it.continued h
  obtain ⟨hmax,htakes⟩ : data.length ≤ maxFrameSize ∧
      w.Takes s.stream.data (putUint32 data.length ++ data)
        ((it.advance s).writeFrame w data).2.stream.data := by
    rcases takes_writeFrameWithTimeout w data s.sc.idleTimeout s.stream.data with
      ⟨_,hmax,htakes⟩ | ⟨hlarge,_⟩ | ⟨_,_,e,he,_⟩
    · exact ⟨hmax,htakes⟩
    · cases hlarge.symm.trans hnil
    · cases he.symm.trans hnil
  have hworld : ((it.advance s).writeFrame w data).2.world = it.after s.world := rfl
  obtain ⟨hle,hbytes,hbeginning,hpart,hsmall,herr,hfailed,hcalls⟩ := hrest
  rw [hworld] at hle hbytes hbeginning hpart hsmall herr hfailed hcalls
  have hwire : ∀ ps, wire (data :: ps) = putUint32 data.length ++ data ++ wire ps := fun _ => rfl
  constructor
  case written =>
    rw [hbytes,hframes,List.take_succ_cons,hwire,htakes.written d]
    simp only [List.append_assoc]
  case part_nil =>
    intro hne
    obtain ⟨p,cause,hp,hbreaks⟩ := hpart hne
    rw [hframes,List.take_succ_cons,hwire]
    exact ⟨p,cause,hp,hbreaks.after htakes⟩
  case failed =>
    intro p hp
    rw [hframes,List.take_succ_cons,hwire]
    rw [hframes] at hp
    obtain ⟨e,he,hwhy⟩ := hfailed p hp
    refine ⟨e,he,hwhy.imp_right ?_⟩
    rintro ⟨cause,hcause,hbreaks⟩
    exact ⟨cause,hcause,hbreaks.after htakes⟩
  case calls => exact hcalls
  all_goals simp_all

theorem leaves_writeFrames (s : State ρ V W) (herr : s.sc.err = none) :
    ∃ k part, it.Leaves d s (it.writeFrames w s) k part := by
  fun_induction writeFrames it w s with
  | case1 s heof => exact ⟨0,[],leaves_eof herr heof⟩
  | case2 s e he hne => exact ⟨0,[],leaves_fault he hne⟩
  | case3 s data hdata e he => exact ⟨0,leaves_failed hdata he⟩
  | case4 s data hdata hnil ih =>
    obtain ⟨k,part,hrest⟩ := ih herr
    exact ⟨k + 1,part,hrest.cons hdata hnil⟩

end FrameIterator

/-- What a multi-frame response leaves on the wire, if downstream left `sc.Err` nil. -/
theorem responseWriterMiddleware_leaves (w : Writer ρ) (d : w.Records)
    (iterator : V → Option (FrameIterator W)) (c : Codec V)
    {next : Effect (State ρ V W) (Panic V)} {s t : State ρ V W} {response : V}
    {it : FrameIterator W} (hnext : next s = (t,none)) (herr : t.sc.err = none)
    (hresponse : t.sc.response = some response) (hit : iterator response = some it) :
    ((responseWriterMiddleware w iterator c).run (fun _ => next) s).2 = none ∧
      ∃ k part, it.Leaves d t
        ((responseWriterMiddleware w iterator c).run (fun _ => next) s).1 k part := by
  have hrun : (responseWriterMiddleware w iterator c).run (fun _ => next) s =
      (it.writeFrames w t,none) := by
    simp [responseWriterMiddleware,hnext,hresponse,hit]
  rw [hrun]
  exact ⟨rfl,FrameIterator.leaves_writeFrames t herr⟩

def FrameIterator.queue : FrameIterator (List (List UInt8)) where
  next
    | [] => (.error ioEOF,[])
    | data :: rest => (.ok data,rest)
  left := List.length
  left_lt
    | [],_,h => nomatch h
    | _ :: rest,_,_ => Nat.lt_succ_self rest.length

def State.queued : State (List UInt8) Unit (List (List UInt8)) :=
  { State.blank with
    sc := { State.blank.sc with response := some () }
    stream := ⟨"","",[],id⟩
    world := [[7],[8,9]] }

theorem frames_queue (ps : List (List UInt8)) : FrameIterator.queue.frames ps = ps := by
  induction ps with
  | nil => exact (FrameIterator.queue.ended rfl).1
  | cons p ps ih =>
    have hnext : (FrameIterator.queue.next (p :: ps)).1 = .ok p := rfl
    rw [(FrameIterator.queue.continued hnext).1]
    exact congrArg (p :: ·) ih

/-- Both frames are written, and nothing after them. -/
theorem responseWriterMiddleware_leaves_queued :
    let mw := responseWriterMiddleware bufferWriter (fun _ => some .queue) ⟨fun _ => .ok []⟩
    let out := mw.run (fun _ => Onion.stop) State.queued
    out.2 = none ∧ FrameIterator.queue.Leaves bufferWriter.records State.queued out.1 2 [] ∧
      out.1.stream.data = [0,0,0,1,7,0,0,0,2,8,9] := by
  intro mw out
  have hnext : (Onion.stop : Effect (State (List UInt8) Unit (List (List UInt8))) (Panic Unit))
      State.queued = (State.queued,none) := rfl
  obtain ⟨hnone,k,part,hleaves⟩ := responseWriterMiddleware_leaves bufferWriter
    bufferWriter.records (fun _ => some .queue) ⟨fun _ => .ok []⟩ hnext rfl rfl rfl
  have hframes : FrameIterator.queue.frames State.queued.world = [[7],[8,9]] := frames_queue _
  have hfull : bufferWriter.NeverFails := bufferWriter.neverFails
  obtain rfl : part = [] := by
    by_contra hne
    obtain ⟨_,_,_,hbreaks⟩ := hleaves.part_nil hne
    exact hfull.not_breaks hbreaks
  have hk : k = 2 := by
    have hle := hleaves.le
    rw [hframes] at hle
    refine le_antisymm hle (not_lt.mp fun hlt => ?_)
    obtain ⟨e,_,⟨_,hlarge⟩ | ⟨_,_,hbreaks⟩⟩ :=
      hleaves.failed _ (List.getElem?_eq_getElem (by rw [hframes]; exact hlt))
    · have hsmall : ∀ p ∈ FrameIterator.queue.frames State.queued.world,
          p.length ≤ maxFrameSize := by
        rw [hframes]
        decide
      exact absurd hlarge (not_lt.mpr (hsmall _ (List.getElem_mem _)))
    · exact hfull.not_breaks hbreaks
  subst hk
  refine ⟨hnone,hleaves,hleaves.written.trans ?_⟩
  rw [hframes]
  rfl

structure SliceIterator (V : Type) where
  codec : Codec V
  items : List V
  idx : ℕ

def newSliceIterator (c : Codec V) (items : List V) : SliceIterator V := ⟨c,items,0⟩

namespace SliceIterator

def next (si : SliceIterator V) : Except GoErr (List UInt8) × SliceIterator V :=
  if h : si.idx ≥ si.items.length then (.error ioEOF,si)
  else (si.codec.marshal (si.items.get ⟨si.idx,not_le.mp h⟩),{ si with idx := si.idx + 1 })

/-- A slice iterator that is held in the world. -/
def frameIterator : FrameIterator (W × SliceIterator V) where
  next u := (u.2.next.1,(u.1,u.2.next.2))
  left u := u.2.items.length - u.2.idx
  left_lt := by
    rintro ⟨_,si⟩ data h
    simp only [next] at h ⊢
    split_ifs at h ⊢ with hend
    change si.items.length - (si.idx + 1) < si.items.length - si.idx
    omega

end SliceIterator

def respond (response : V) (t : State ρ V W) : State ρ V W :=
  { t with sc := { t.sc with response := some response } }

/-- The response was encoded, and its frame was written completely. -/
def Delivered (w : Writer ρ) (c : Codec V) (response : V) (t : State ρ V W) : Prop :=
  ∃ data, c.marshal response = .ok data ∧ (t.writeFrame w data).1 = none

/-- The iterator of a single value writes what the value itself would, but reports it if the value
could not be encoded or written. -/
theorem writeFrames_newSliceIterator (w : Writer ρ) (c : Codec V) (v : V)
    {s : State ρ V (W × SliceIterator V)} (hs : s.world.2 = newSliceIterator c [v])
    (herr : s.sc.err = none) :
    (SliceIterator.frameIterator.writeFrames w s).stream = (writeResponse w c v s).stream ∧
      ((SliceIterator.frameIterator.writeFrames w s).sc.err = none ↔
        Delivered w c v s ∨ c.marshal v = .error ioEOF) := by
  have hfirst : (SliceIterator.frameIterator.next s.world).1 = c.marshal v := by
    simp [SliceIterator.frameIterator,hs,SliceIterator.next,newSliceIterator]
  have hsecond : (SliceIterator.frameIterator.next
      (SliceIterator.frameIterator.after s.world)).1 = .error ioEOF := by
    simp [SliceIterator.frameIterator,FrameIterator.after,hs,SliceIterator.next,newSliceIterator]
  cases hmarshal : c.marshal v with
  | error e =>
    rw [FrameIterator.writeFrames_error (hfirst.trans hmarshal)]
    simp only [writeResponse,Delivered,hmarshal]
    split_ifs with heof
    · simp [FrameIterator.advance,herr,heof]
    · simp [FrameIterator.advance,setErr,heof]
  | ok data =>
    rw [FrameIterator.writeFrames_ok (hfirst.trans hmarshal)]
    -- the call of `Next` has changed nothing that `WriteFrame` uses
    have hwrite : ((SliceIterator.frameIterator.advance s).writeFrame w data).1 =
      (s.writeFrame w data).1 := rfl
    rw [hwrite]
    cases hresult : (s.writeFrame w data).1 with
    | some e =>
      simp only [writeResponse,Delivered,hmarshal]
      refine ⟨rfl,?_⟩
      simp [setErr,hresult]
    | none =>
      simp only [writeResponse,Delivered,hmarshal]
      have hend : SliceIterator.frameIterator.writeFrames w
          ((SliceIterator.frameIterator.advance s).writeFrame w data).2 = _ :=
        FrameIterator.writeFrames_error hsecond
      rw [hend,if_pos rfl]
      exact ⟨rfl,iff_of_true herr (.inl ⟨data,rfl,hresult⟩)⟩

/-- The two ways to write a response put the same on the stream. They agree on `sc.Err` exactly
if the response was delivered or its encoding failed with `io.EOF`, and an undelivered response
is an error both ways only if there is none. -/
theorem responseWriterMiddleware_single_iff (w : Writer ρ)
    (iterator : V → Option (FrameIterator (W × SliceIterator V))) (c : Codec V) {v many : V}
    (hv : iterator v = none) (hmany : iterator many = some SliceIterator.frameIterator)
    {next₁ next₂ : Effect (State ρ V (W × SliceIterator V)) (Panic V)}
    {s₁ s₂ t : State ρ V (W × SliceIterator V)} (ht : t.sc.err = none)
    (hcell : t.world.2 = newSliceIterator c [v]) (h₁ : next₁ s₁ = (respond v t,none))
    (h₂ : next₂ s₂ = (respond many t,none)) :
    let out₁ := ((responseWriterMiddleware w iterator c).run (fun _ => next₁) s₁).1
    let out₂ := ((responseWriterMiddleware w iterator c).run (fun _ => next₂) s₂).1
    out₁.stream = out₂.stream ∧
      ((out₁.sc.err = none ↔ out₂.sc.err = none) ↔
        Delivered w c v t ∨ c.marshal v = .error ioEOF) ∧
      ((¬ Delivered w c v t → out₁.sc.err ≠ none ∧ out₂.sc.err ≠ none) ↔ Delivered w c v t) := by
  intro out₁ out₂
  have hout₁ : out₁ = writeResponse w c v (respond v t) := by
    simp [out₁,responseWriterMiddleware,h₁,respond,hv]
  have hout₂ : out₂ = SliceIterator.frameIterator.writeFrames w (respond many t) := by
    simp [out₂,responseWriterMiddleware,h₂,respond,hmany]
  obtain ⟨hstream,herr⟩ := writeFrames_newSliceIterator w c v (s := respond many t) hcell ht
  have hsilent : out₁.sc.err = none := by
    rw [hout₁,writeResponse]
    split <;> exact ht
  rw [← hout₂] at hstream herr
  refine ⟨?_,?_,?_⟩
  · rw [hstream,hout₁]
    simp only [writeResponse]
    split <;> rfl
  · exact (iff_true_left hsilent).trans herr
  · simp [hsilent]

/-- A handler may respond with `true`, which is a value, or with the iterator over it. -/
def boolIterator : Bool → Option (FrameIterator (Unit × SliceIterator Bool))
  | true => none
  | false => some SliceIterator.frameIterator

def boolCodec : Codec Bool := ⟨fun _ => .ok [7]⟩

def State.undecided : State (List UInt8) Bool (Unit × SliceIterator Bool) :=
  ⟨⟨"",[],none,none,none,none,0,none⟩,⟨"","",[],id⟩,false,fun _ => BufferPool.newBufferPool,
    ((),newSliceIterator boolCodec [true])⟩

theorem responseWriterMiddleware_single_delivered :
    let mw := responseWriterMiddleware bufferWriter boolIterator boolCodec
    let out₁ := (mw.run (fun _ s => (respond true s,none)) State.undecided).1
    let out₂ := (mw.run (fun _ s => (respond false s,none)) State.undecided).1
    out₁.stream = out₂.stream ∧
      ((out₁.sc.err = none ↔ out₂.sc.err = none) ↔
        Delivered bufferWriter boolCodec true State.undecided ∨
          boolCodec.marshal true = .error ioEOF) ∧
      ((¬ Delivered bufferWriter boolCodec true State.undecided →
        out₁.sc.err ≠ none ∧ out₂.sc.err ≠ none) ↔
        Delivered bufferWriter boolCodec true State.undecided) :=
  responseWriterMiddleware_single_iff bufferWriter boolIterator boolCodec rfl rfl rfl rfl rfl rfl

def brokenWriter : Writer (List UInt8) where
  write t _ := ⟨0,some (.other "broken pipe"),t⟩
  setWriteDeadline := none
  write_le _ _ := Nat.zero_le _
  write_short _ _ _ := Option.some_ne_none _

/-- On a broken stream the iterator's response is an error and the value's response is none:
`MetricsMiddleware` reports a stream that was completed without one. -/
theorem responseWriterMiddleware_single_lost :
    let mw := responseWriterMiddleware brokenWriter boolIterator boolCodec
    (mw.run (fun _ s => (respond true s,none)) State.undecided).1.sc.err = none ∧
      (mw.run (fun _ s => (respond false s,none)) State.undecided).1.sc.err =
        some (.wrap "write frame: " (.frame (.writeLength (.other "broken pipe")))) ∧
      ((Pipeline.newPipeline [metricsMiddleware textEnv fun _ => Time.start,
        beside mw,.act (respond true) fun _ => .ret]).run 0
          { State.undecided with world := (State.undecided.world,[]) }).1.world.2 =
        [.streamStarted "" "",
          .streamCompleted "" "" (Time.start.sub Time.start).milliseconds none] := by
  intro mw
  refine ⟨rfl,?_,?_⟩
  · have hrun : (mw.run (fun _ s => (respond false s,none)) State.undecided).1 =
        SliceIterator.frameIterator.writeFrames brokenWriter (respond false State.undecided) := rfl
    have hfirst : (SliceIterator.frameIterator.next
        (respond false State.undecided).world).1 = .ok [7] := rfl
    rw [hrun,FrameIterator.writeFrames_ok hfirst]
    rfl
  · rw [Pipeline.run_eq_onion]
    rfl

end P2PForge
