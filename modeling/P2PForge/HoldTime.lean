import P2PForge.SlowPeer
import P2PForge.FrameGrammar
import P2PForge.PunctualStream

/-! How long a peer can hold a frame.
The deadline is armed for the prefix of a frame and for each of its chunks, so that a frame that is
read or written takes at most the idle timeout for every one of these, however little the peer does.
On the side of the writer as on that of the reader, it is the peers that take longer than that over
a prefix or a chunk which are cut off. -/
namespace P2PForge.Codec

variable {σ τ : Type} {r : Reader σ} {w : Writer τ} {idle : Duration}

theorem chunkSizes_of_pos {n : ℕ} (h : 0 < n) :
    chunkSizes n = min chunkSize n :: chunkSizes (n - min chunkSize n) := by
  rw [chunkSizes,if_pos h]

/-- The reads or writes of a frame with a payload of `n` bytes. -/
def turns (n : ℕ) : ℕ := 1 + (n + chunkSize - 1) / chunkSize

theorem turns_le {n : ℕ} (h : n ≤ maxFrameSize) : turns n ≤ turns maxFrameSize :=
  Nat.add_le_add_left (Nat.div_le_div_right (by omega)) 1

theorem turns_eq (n : ℕ) : turns n = 1 + (chunkSizes n).length := by
  rw [turns,length_chunkSizes]

example : turns maxFrameSize = 161 := by decide

variable (r idle) in
/-- The length that the prefix of the next frame declares, or none if it is not to be had. -/
def declared (s : σ) : ℕ :=
  match (readFrameLength r idle s).1 with
  | .error _ => 0
  | .ok length => length

theorem declared_le (s : σ) : declared r idle s ≤ maxFrameSize := by
  simp only [declared,readFrameLength]
  split
  · exact Nat.zero_le _
  · next length hlength =>
    split at hlength
    · cases hlength
    · split_ifs at hlength with hzero hlarge
      cases hlength
      exact Nat.not_lt.mp hlarge

theorem declared_of_readFrame {s : σ} {p : List UInt8}
    (h : (readFrameWithTimeout r idle s).1 = .ok p) : declared r idle s = p.length := by
  rw [readFrameWithTimeout_eq] at h
  unfold declared
  cases hlength : (readFrameLength r idle s).1 with
  | error e =>
    rw [hlength] at h
    cases h
  | ok length =>
    rw [hlength] at h
    rw [length_of_readEach h,sum_chunkSizes]

section Reading

variable (c : r.Punctual) (hidle : 0 < idle)
include hidle

theorem idle_pos : 0 < idle.toInt := by simpa using Int64.lt_iff_toInt_lt.mp hidle

theorem now_readFull (k : ℕ) (s : σ) :
    c.now (r.readFull k (armRead r idle s)).next ≤ c.now s + idle.toInt := by
  have harm : armRead r idle s = c.set idle s := by
    simp only [armRead,if_neg (Int64.not_le.mpr hidle),c.set_eq]
  have hby := c.now_readAtLeast [] k (c.set idle s) (c.deadline_set idle s)
  rw [c.now_set] at hby
  rw [harm]
  exact hby.trans (max_le (by linarith [idle_pos hidle]) le_rfl)

theorem now_readEach (sizes : List ℕ) (s : σ) :
    c.now (readEach r idle sizes s).2 ≤ c.now s + sizes.length * idle.toInt := by
  induction sizes generalizing s with
  | nil => simp [readEach]
  | cons k ks ih =>
    have hfirst := now_readFull c hidle k s
    have hpos := idle_pos hidle
    have hrest : (0 : ℤ) ≤ ks.length * idle.toInt := by positivity
    rw [List.length_cons,Nat.cast_succ,add_one_mul]
    cases herr : (r.readFull k (armRead r idle s)).err with
    | some e =>
      rw [readEach_cons_error herr]
      linarith
    | none =>
      rw [(readEach_cons_ok herr).2]
      linarith [ih (r.readFull k (armRead r idle s)).next]

theorem now_readFrameLength (s : σ) :
    c.now (readFrameLength r idle s).2 ≤ c.now s + idle.toInt := by
  have hfirst := now_readFull c hidle lengthPrefixSize s
  have hnext : (readFrameLength r idle s).2 =
      (r.readFull lengthPrefixSize (armRead r idle s)).next := by
    unfold readFrameLength
    dsimp only
    split
    · rfl
    · split_ifs <;> rfl
  rwa [hnext]

theorem now_readFrame (s : σ) : c.now (readFrameWithTimeout r idle s).2 ≤
    c.now s + turns (declared r idle s) * idle.toInt := by
  have hheader := now_readFrameLength c hidle s
  rw [readFrameWithTimeout_eq,declared,turns_eq,Nat.cast_add,Nat.cast_one,add_mul,one_mul]
  cases (readFrameLength r idle s).1 with
  | error e =>
    have hnone : (chunkSizes 0).length = 0 := by rw [length_chunkSizes]; rfl
    simpa [hnone] using hheader
  | ok length =>
    have hbody := now_readEach c hidle (chunkSizes length) (readFrameLength r idle s).2
    dsimp only
    linarith

end Reading

section Writing

variable (d : w.Punctual) (hidle : 0 < idle)
include hidle

theorem now_write (b : List UInt8) (t : τ) :
    d.now (w.write (armWrite w idle t) b).next ≤ d.now t + idle.toInt := by
  have harm : armWrite w idle t = d.set idle t := by
    simp only [armWrite,if_neg (Int64.not_le.mpr hidle),d.set_eq]
  have hby := d.now_write (d.set idle t) b _ (d.deadline_set idle t)
  rw [d.now_set] at hby
  rw [harm]
  exact hby.trans (max_le (by linarith [idle_pos hidle]) le_rfl)

theorem now_writeChunks (data : List UInt8) (off : ℕ) (t : τ) :
    d.now (writeChunks w data idle off t).2 ≤
      d.now t + (chunkSizes (data.length - off)).length * idle.toInt := by
  have hpos := idle_pos hidle
  fun_induction writeChunks w data idle off t with
  | case1 off t hlt out e herr =>
    have hchunk := now_write d hidle (data.extract off (min (off + chunkSize) data.length)) t
    rw [chunkSizes_of_pos (by omega),List.length_cons,Nat.cast_succ,add_one_mul]
    generalize (chunkSizes (data.length - off - min chunkSize (data.length - off))).length = n
    have hrest : (0 : ℤ) ≤ n * idle.toInt := by positivity
    linarith
  | case2 off t hlt out herr ih =>
    have hchunk := now_write d hidle (data.extract off (min (off + chunkSize) data.length)) t
    have hleft : data.length - off - min chunkSize (data.length - off) =
        data.length - (off + chunkSize) := by
      omega
    rw [chunkSizes_of_pos (by omega),List.length_cons,Nat.cast_succ,add_one_mul,hleft]
    linarith
  | case3 off t hge =>
    rw [chunkSizes,if_neg (by omega)]
    simp

theorem now_writeFrame (data : List UInt8) (t : τ) :
    d.now (writeFrameWithTimeout w data idle t).2 ≤ d.now t + turns data.length * idle.toInt := by
  have hpos := idle_pos hidle
  have hheader := now_write d hidle (putUint32 data.length) t
  have hrest : (0 : ℤ) ≤ (chunkSizes data.length).length * idle.toInt := by positivity
  rw [turns_eq,Nat.cast_add,Nat.cast_one,add_mul,one_mul]
  simp only [writeFrameWithTimeout]
  split_ifs with hlarge
  · dsimp only
    linarith
  · cases herr : (w.write (armWrite w idle t) (putUint32 data.length)).err with
    | some e =>
      dsimp only
      linarith
    | none =>
      have hbody := now_writeChunks d hidle data 0
        (w.write (armWrite w idle t) (putUint32 data.length)).next
      rw [Nat.sub_zero] at hbody
      dsimp only
      linarith

end Writing

/-- A stream that receives bytes over time keeps its deadlines. -/
def Schedule.punctual : Schedule.reader.Punctual where
  now := Schedule.now
  deadline := Schedule.deadline
  set d s := s.arm d
  set_eq := rfl
  now_set _ _ := rfl
  deadline_set _ _ := rfl
  deadline_read s k := by
    rw [Schedule.reader_read]
    fun_cases Schedule.read s k <;> rfl
  now_read s k t ht := by
    rw [Schedule.reader_read]
    fun_cases Schedule.read s k with
    | case1 => exact le_max_left _ _
    | case2 =>
      rw [ht]
      exact le_max_right _ _
    | case3 first rest hs hit =>
      refine max_le (le_max_left _ _) ?_
      by_contra hlt
      rw [not_le,max_lt_iff] at hlt
      exact hit ⟨hlt.1,t,ht,hlt.2.le⟩

/-- A stream that takes bytes as the peer makes room for them, byte by byte, at the times given.
The peer resets it after the last one. -/
structure Outlet where
  now : ℤ
  deadline : Option ℤ
  room : List ℤ
  written : List UInt8

namespace Outlet

open Schedule

def ready (t : Outlet) (k : ℕ) : List ℤ :=
  (t.room.take k).takeWhile fun u => u ≤ t.now ∨ ∀ d ∈ t.deadline, u < d

def advance (t : Outlet) (b : List UInt8) (n : ℕ) : Outlet :=
  { t with
    now := allThere t.now (t.room.take n)
    room := t.room.drop n
    written := t.written ++ b.take n }

/-- `Write`: waits for room for each byte, or until the deadline. -/
def write (t : Outlet) (b : List UInt8) : Receipt Outlet :=
  let n := (t.ready b.length).length
  if n = b.length then ⟨n,none,t.advance b n⟩
  else if n = t.room.length then ⟨n,some (.other "stream reset"),t.advance b n⟩
  else ⟨n,some (.other "i/o deadline reached"),
    { t.advance b n with now := t.deadline.getD t.now }⟩

def arm (t : Outlet) (d : Duration) : Outlet := { t with deadline := some (t.now + d.toInt) }

theorem length_ready_le (t : Outlet) (k : ℕ) : (t.ready k).length ≤ k :=
  (List.takeWhile_prefix _).length_le.trans (List.length_take_le _ _)

def writer : Writer Outlet where
  write := write
  setWriteDeadline := some fun d t => t.arm d
  write_le t b := by
    fun_cases write t b <;> exact t.length_ready_le b.length
  write_short t b h := by
    revert h
    fun_cases write t b with
    | case1 n hn => exact fun h => absurd hn h.ne
    | case2 | case3 => simp

theorem writer_write (t : Outlet) (b : List UInt8) : writer.write t b = t.write b := rfl

theorem take_length_ready (t : Outlet) (k : ℕ) : t.room.take (t.ready k).length = t.ready k := by
  have hpre : t.ready k <+: t.room := (List.takeWhile_prefix _).trans (List.take_prefix _ _)
  exact (List.prefix_iff_eq_take.mp hpre).symm

theorem allThere_le {now u : ℤ} {times : List ℤ} (hnow : now ≤ u) (h : ∀ t ∈ times, t ≤ u) :
    allThere now times ≤ u := by
  induction times generalizing now with
  | nil => exact hnow
  | cons t times ih =>
    obtain ⟨ht,htimes⟩ := List.forall_mem_cons.mp h
    exact ih (max_le hnow ht) htimes

theorem now_advance_le {t : Outlet} {u : ℤ} (hu : t.deadline = some u) (b : List UInt8) (k : ℕ) :
    (t.advance b (t.ready k).length).now ≤ max t.now u := by
  rw [advance,take_length_ready]
  apply allThere_le (le_max_left _ _)
  intro v hv
  have hready := List.mem_takeWhile_imp hv
  rw [hu] at hready
  simp only [Option.mem_def,Option.some.injEq,forall_eq',decide_eq_true_eq] at hready
  rcases hready with hle | hlt
  · exact hle.trans (le_max_left _ _)
  · exact hlt.le.trans (le_max_right _ _)

def punctual : writer.Punctual where
  now := Outlet.now
  deadline := Outlet.deadline
  set d t := t.arm d
  set_eq := rfl
  now_set _ _ := rfl
  deadline_set _ _ := rfl
  now_write t b u hu := by
    rw [writer_write]
    fun_cases write t b with
    | case1 | case2 => exact now_advance_le hu b b.length
    | case3 =>
      rw [hu]
      exact le_max_right _ _

def records : writer.Records where
  written := Outlet.written
  write_written t b := by
    rw [writer_write]
    fun_cases write t b <;> rfl
  deadline_written := by
    rintro set ⟨⟩ d t
    rfl

theorem length_ready_arm {idle : Duration} (hidle : 0 < idle) (t : Outlet) (k : ℕ) :
    ((t.arm idle).ready k).length = k ↔
      k ≤ t.room.length ∧ ∀ u ∈ t.room.take k, u < t.now + idle.toInt := by
  have hpos := idle_pos hidle
  have hin : ∀ u, (decide (u ≤ t.now ∨ ∀ d ∈ (t.arm idle).deadline, u < d) = true) ↔
      u < t.now + idle.toInt := by
    intro u
    simp only [arm,Option.mem_def,Option.some.injEq,forall_eq',decide_eq_true_eq]
    omega
  by_cases hk : k ≤ t.room.length
  · have hlen : (t.room.take k).length = k := List.length_take_of_le hk
    rw [and_iff_right hk,← forall₂_congr fun u _ => hin u,← List.takeWhile_eq_self_iff]
    constructor
    · intro h
      exact (List.takeWhile_prefix _).eq_of_length (h.trans hlen.symm)
    · intro h
      rw [ready]
      exact (congrArg List.length h).trans hlen
  · refine iff_of_false (fun h => ?_) fun h => hk h.1
    have hle : ((t.arm idle).ready k).length ≤ (t.room.take k).length :=
      (List.takeWhile_prefix _).length_le
    rw [List.length_take] at hle
    omega

/-- A write with the deadline armed succeeds exactly if the peer makes room for all its bytes in
time, and then it is the time at which it has done so. -/
theorem write_arm {idle : Duration} (hidle : 0 < idle) (t : Outlet) (b : List UInt8) :
    ((writer.write (armWrite writer idle t) b).err = none ↔
      b.length ≤ t.room.length ∧ ∀ u ∈ t.room.take b.length, u < t.now + idle.toInt) ∧
    ((writer.write (armWrite writer idle t) b).err = none →
      (writer.write (armWrite writer idle t) b).next.now =
          allThere t.now (t.room.take b.length) ∧
        (writer.write (armWrite writer idle t) b).next.room = t.room.drop b.length) := by
  have hpos := idle_pos hidle
  have harm : armWrite writer idle t = t.arm idle := by
    simp only [armWrite,if_neg (Int64.not_le.mpr hidle),writer]
  have hready := length_ready_arm hidle t b.length
  rw [harm,writer_write]
  fun_cases write (t.arm idle) b with
  | case1 n hn =>
    refine ⟨iff_of_true rfl (hready.mp hn),fun _ => ⟨?_,?_⟩⟩
    · exact congrArg (fun k => allThere t.now (t.room.take k)) hn
    · exact congrArg (fun k => t.room.drop k) hn
  | case2 n hn hall =>
    refine ⟨iff_of_false (Option.some_ne_none _) fun h => hn (hready.mpr h),fun h => ?_⟩
    cases h
  | case3 n hn hall =>
    refine ⟨iff_of_false (Option.some_ne_none _) fun h => hn (hready.mpr h),fun h => ?_⟩
    cases h

theorem length_chunk (data : List UInt8) (off : ℕ) :
    (data.extract off (min (off + chunkSize) data.length)).length =
      min chunkSize (data.length - off) := by
  rw [List.extract_eq_take_drop,List.length_take,List.length_drop]
  omega

theorem writeChunks_prompt_iff {idle : Duration} (hidle : 0 < idle) (data : List UInt8) (off : ℕ)
    (t : Outlet) : (writeChunks writer data idle off t).1 = none ↔
      data.length - off ≤ t.room.length ∧
        Prompt idle.toInt t.now (chunkSizes (data.length - off)) t.room := by
  fun_induction writeChunks writer data idle off t with
  | case1 off t hlt out e herr =>
    obtain ⟨hchunk,_⟩ := write_arm hidle t (data.extract off (min (off + chunkSize) data.length))
    rw [length_chunk] at hchunk
    rw [chunkSizes_of_pos (by omega : 0 < data.length - off)]
    refine iff_of_false (Option.some_ne_none _) ?_
    rintro ⟨hroom,hfirst,_⟩
    have hnone := hchunk.mpr ⟨by omega,hfirst⟩
    cases hnone.symm.trans herr
  | case2 off t hlt out herr ih =>
    obtain ⟨hchunk,hnext⟩ :=
      write_arm hidle t (data.extract off (min (off + chunkSize) data.length))
    rw [length_chunk] at hchunk hnext
    obtain ⟨hroom,hfirst⟩ := hchunk.mp herr
    obtain ⟨hnow,hrest⟩ := hnext herr
    have hleft : data.length - (off + chunkSize) =
        data.length - off - min chunkSize (data.length - off) := by
      omega
    rw [hnow,hrest,List.length_drop,hleft] at ih
    rw [ih,chunkSizes_of_pos (by omega : 0 < data.length - off),Prompt,and_iff_right hfirst]
    refine and_congr_left fun _ => ?_
    omega
  | case3 off t hge =>
    rw [chunkSizes,if_neg (by omega)]
    exact iff_of_true rfl ⟨by omega,trivial⟩

end Outlet

/-- The idle timeout cuts off a receiver exactly if it makes room for a byte of the prefix, or of
one of the chunks, `idle` or more after the writing of the prefix, or of that chunk, began; a
receiver that is not cut off and does not reset the stream has all of the frame. -/
theorem writeFrameWithTimeout_iff_prompt (hidle : 0 < idle) (data : List UInt8) (t : Outlet) :
    ((writeFrameWithTimeout Outlet.writer data idle t).1 = none ↔
      data.length ≤ maxFrameSize ∧ lengthPrefixSize + data.length ≤ t.room.length ∧
        Prompt idle.toInt t.now (lengthPrefixSize :: chunkSizes data.length) t.room) ∧
    ((writeFrameWithTimeout Outlet.writer data idle t).1 = none →
      (writeFrameWithTimeout Outlet.writer data idle t).2.written =
        t.written ++ (putUint32 data.length ++ data)) := by
  refine ⟨?_,fun h => (written_writeFrameWithTimeout Outlet.records h).2⟩
  obtain ⟨hheader,hnext⟩ := Outlet.write_arm hidle t (putUint32 data.length)
  rw [length_putUint32] at hheader hnext
  by_cases hlarge : data.length > maxFrameSize
  · rw [writeFrameWithTimeout,if_pos hlarge]
    refine iff_of_false ?_ fun h => absurd h.1 (Nat.not_le.mpr hlarge)
    intro h
    cases h
  rw [and_iff_right (Nat.not_lt.mp hlarge),Prompt]
  generalize hout : Outlet.writer.write (armWrite Outlet.writer idle t)
    (putUint32 data.length) = out at hheader hnext
  cases herr : out.err with
  | some e =>
    have hframe : (writeFrameWithTimeout Outlet.writer data idle t).1 = some (.writeLength e) := by
      simp only [writeFrameWithTimeout,if_neg hlarge,hout,herr]
    rw [hframe]
    refine iff_of_false (Option.some_ne_none _) ?_
    rintro ⟨hroom,hfirst,_⟩
    have hnone := hheader.mpr ⟨by omega,hfirst⟩
    cases hnone.symm.trans herr
  | none =>
    obtain ⟨hroom,hfirst⟩ := hheader.mp herr
    obtain ⟨hnow,hrest⟩ := hnext herr
    have hframe : writeFrameWithTimeout Outlet.writer data idle t =
        writeChunks Outlet.writer data idle 0 out.next := by
      simp only [writeFrameWithTimeout,if_neg hlarge,hout,herr]
    rw [hframe,Outlet.writeChunks_prompt_iff hidle,hnow,hrest,Nat.sub_zero,List.length_drop,
      and_iff_right hfirst]
    refine and_congr_left fun _ => ?_
    omega

def slowReceiver (gap : ℕ) : Outlet := ⟨0,none,[gap,2*gap,3*gap,4*gap,5*gap],[]⟩

/-- A second between the bytes is in time for thirty, and twenty seconds are not. -/
theorem writeFrameWithTimeout_iff_prompt_slowReceiver :
    let idle := 30*Duration.second
    let write := fun gap => writeFrameWithTimeout Outlet.writer [7] idle (slowReceiver gap)
    0 < idle ∧ (write 1000000000).1 = none ∧ (write 1000000000).2.written = [0,0,0,1,7] ∧
      (write 20000000000).1 ≠ none := by
  intro idle write
  have hidle : 0 < idle := by decide
  have hprompt := fun gap => writeFrameWithTimeout_iff_prompt hidle [7] (slowReceiver gap)
  rw [List.length_singleton,chunkSizes_one] at hprompt
  have hfast : (write 1000000000).1 = none := (hprompt 1000000000).1.mpr (by decide)
  refine ⟨hidle,hfast,(hprompt 1000000000).2 hfast,?_⟩
  intro hnone
  exact absurd ((hprompt 20000000000).1.mp hnone) (by decide)

/-- However little a peer does, a frame is held for no longer than the idle timeout for its prefix
and for each chunk of the length that it declares, in reading it, with and without a pool, and in
writing it: on streams that keep their deadlines, and whether the call returns an error or not. -/
theorem frame_held_at_most (c : r.Punctual) (d : w.Punctual) (hidle : 0 < idle) :
    (∀ s, c.now (readFrameWithTimeout r idle s).2 ≤
        c.now s + turns (declared r idle s) * idle.toInt ∧
      turns (declared r idle s) ≤ 161 ∧
      ∀ p, (readFrameWithTimeout r idle s).1 = .ok p → declared r idle s = p.length) ∧
    (∀ s {bp : BufferPool}, bp.Valid → ∀ pick,
      ∃ out, readFramePooledWithTimeout r idle s bp pick = some out ∧
        c.now out.next ≤ c.now s + turns (declared r idle s) * idle.toInt) ∧
    ∀ t data, d.now (writeFrameWithTimeout w data idle t).2 ≤
      d.now t + turns data.length * idle.toInt := by
  refine ⟨fun s => ⟨now_readFrame c hidle s,turns_le (declared_le s),
    fun _ => declared_of_readFrame⟩,?_,fun t data => now_writeFrame d hidle data t⟩
  intro s bp v pick
  obtain ⟨out,hout,hfollows⟩ := v.readFramePooled r idle s pick
  refine ⟨out,hout,?_⟩
  rw [hfollows.next]
  exact now_readFrame c hidle s

/-- The bounds are the same however slowly a peer trickles the bytes of its frame, or makes room for
those of another one. -/
theorem frame_held_at_most_trickle :
    let idle := 30*Duration.second
    0 < idle ∧ ∀ gap,
      (readFrameWithTimeout Schedule.reader idle (trickle gap)).2.now ≤ 161 * idle.toInt ∧
      (writeFrameWithTimeout Outlet.writer [7] idle (slowReceiver gap)).2.now ≤ 2 * idle.toInt := by
  intro idle
  have hidle : 0 < idle := by decide
  obtain ⟨hread,_,hwrite⟩ := frame_held_at_most Schedule.punctual Outlet.punctual hidle
  refine ⟨hidle,fun gap => ⟨?_,?_⟩⟩
  · obtain ⟨hheld,hmost,_⟩ := hread (trickle gap)
    have hturns : (turns (declared Schedule.reader idle (trickle gap)) : ℤ) ≤ 161 := by
      exact_mod_cast hmost
    calc
      _ ≤ 0 + (turns (declared Schedule.reader idle (trickle gap)) : ℤ) * idle.toInt := hheld
      _ ≤ 161 * idle.toInt := by
        rw [zero_add]
        exact mul_le_mul_of_nonneg_right hturns (idle_pos hidle).le
  · exact (hwrite (slowReceiver gap) [7]).trans_eq (zero_add _)

end P2PForge.Codec
