import P2PForge.FramePooled

/-! How a reader of frames learns that its stream has ended.
Each `io.ReadFull` of a frame reports the end of the stream by its own count: `io.EOF` if it
got no byte at all, `io.ErrUnexpectedEOF` if it got some. A frame takes one such call for its
prefix and one for every chunk, so a frame cut exactly between two of them ends like a stream
that ends before the frame. -/
namespace P2PForge.Codec

variable {σ : Type}

def FrameErr.unwrap : FrameErr → Option StreamErr
  | .readLength e | .readData e | .writeLength e | .writeData e => some e
  | .empty | .tooLarge _ => none

theorem shortfall_eof (got : List UInt8) : shortfall got .eof = .eof ↔ got = [] := by
  unfold shortfall
  by_cases hgot : got = [] <;> simp [hgot]

/-- A stream that ends in the middle of a frame, where one read of it is over and the next has
not begun: behind the prefix, or behind some of the chunks. -/
def CutBetweenReads (stream : List UInt8) : Prop :=
  ∃ length body, stream = putUint32 length ++ body ∧ 1 ≤ length ∧ length ≤ maxFrameSize ∧
    body.length < length ∧ chunkSize ∣ body.length

/-- If a frame cannot be read because the stream has ended, the error is `io.EOF` underneath
exactly if the stream ended before the frame. -/
def EndsDistinctly {α : Type} (result : Except FrameErr α) (stream : List UInt8) : Prop :=
  ∀ e, result = .error e → e.unwrap ≠ none → (e.unwrap = some .eof ↔ stream = [])

section Ending

variable {r : Reader σ} (c : r.Carries)

theorem readEach_short {n : ℕ} {s : σ} (h : (c.pending s).length < n) :
    ∃ tail : List UInt8, tail.length = (c.pending s).length % chunkSize ∧
      (readEach r 0 (chunkSizes n) s).1 = .error (.readData (shortfall tail (c.fault s))) := by
  fun_induction chunkSizes n generalizing s with
  | case1 n hpos ih =>
    by_cases hshort : (c.pending s).length < min chunkSize n
    · have herr := c.readFull_short hshort
      rw [← armRead_zero r s] at herr
      refine ⟨c.pending s,?_,?_⟩
      · rw [Nat.mod_eq_of_lt (lt_of_lt_of_le hshort (min_le_left _ _))]
      · rw [readEach_cons_error herr,armRead_zero]
    · -- a whole chunk arrives; were it the last one, the body would be complete
      have hfull : min chunkSize n = chunkSize := by omega
      rw [hfull] at hshort ih ⊢
      have hsplit : c.pending s = (c.pending s).take chunkSize ++ (c.pending s).drop chunkSize :=
        (List.take_append_drop _ _).symm
      obtain ⟨_,herr,hpending,hfault⟩ := c.readFull_of_pending hsplit
      have hlen : ((c.pending s).take chunkSize).length = chunkSize := by
        rw [List.length_take]
        omega
      rw [hlen] at herr hpending hfault
      have hrest : (c.pending (r.readFull chunkSize s).next).length < n - chunkSize := by
        rw [hpending,List.length_drop]
        omega
      obtain ⟨tail,htail,hresult⟩ := ih hrest
      refine ⟨tail,?_,?_⟩
      · rw [htail,hpending,List.length_drop,← Nat.mod_eq_sub_mod (by omega)]
      · rw [← armRead_zero r s] at herr hresult hfault
        rw [(readEach_cons_ok herr).1,hresult,hfault,armRead_zero]
        rfl
  | case2 n hpos => omega

theorem readFrame_short_header {s : σ} (h : (c.pending s).length < lengthPrefixSize) :
    (readFrame r s).1 = .error (.readLength (shortfall (c.pending s) (c.fault s))) := by
  have herr := c.readFull_short h
  simp [readFrame,readFrameWithTimeout_eq,readFrameLength,herr]

theorem endsDistinctly_short_header {s : σ} (hend : c.fault s = .eof)
    (h : (c.pending s).length < lengthPrefixSize) :
    EndsDistinctly (readFrame r s).1 (c.pending s) := by
  rw [readFrame_short_header c h,hend]
  rintro e ⟨⟩ _
  simp [FrameErr.unwrap,shortfall_eof]

/-- The error of a body that breaks off is `io.EOF` underneath exactly if all its chunks so far
are complete. -/
theorem readFrame_short_body {length : ℕ} {body : List UInt8} {s : σ} (hend : c.fault s = .eof)
    (hpos : 1 ≤ length) (hmax : length ≤ maxFrameSize)
    (hstream : c.pending s = putUint32 length ++ body) (hshort : body.length < length) :
    ∃ e, (readFrame r s).1 = .error (.readData e) ∧ (e = .eof ↔ chunkSize ∣ body.length) := by
  have hmax' : maxFrameSize < 2^32 := by decide
  obtain ⟨hlength,hpending,hfault⟩ := readFrameLength_of_pending c (by omega) hstream
  rw [if_neg (by omega),if_neg (by omega)] at hlength
  obtain ⟨tail,htail,hresult⟩ := readEach_short c (hpending.symm ▸ hshort)
  rw [hpending] at htail
  refine ⟨shortfall tail .eof,?_,?_⟩
  · rw [readFrame,readFrameWithTimeout_eq,hlength,← hend,← hfault]
    exact hresult
  · rw [shortfall_eof,← List.length_eq_zero_iff,htail,Nat.dvd_iff_mod_eq_zero]

end Ending

theorem uint32_lt {bytes : List UInt8} (h : bytes.length = lengthPrefixSize) :
    uint32 bytes < 2^32 := by
  match bytes,h with
  | [a,b,c,d],_ =>
    have ha := a.toNat_lt
    have hb := b.toNat_lt
    have hc := c.toNat_lt
    have hd := d.toNat_lt
    simp only [uint32,List.foldl_cons,List.foldl_nil]
    omega

theorem eq_putUint32_append {stream : List UInt8} (h : lengthPrefixSize ≤ stream.length) :
    ∃ length body, length < 2^32 ∧ stream = putUint32 length ++ body := by
  have hlen : (stream.take lengthPrefixSize).length = lengthPrefixSize := by
    rw [List.length_take]
    omega
  refine ⟨uint32 (stream.take lengthPrefixSize),stream.drop lengthPrefixSize,uint32_lt hlen,?_⟩
  rw [putUint32_uint32 hlen,List.take_append_drop]

theorem cutBetweenReads_iff {length : ℕ} {body : List UInt8} (h : length < 2^32) :
    CutBetweenReads (putUint32 length ++ body) ↔
      1 ≤ length ∧ length ≤ maxFrameSize ∧ body.length < length ∧ chunkSize ∣ body.length := by
  constructor
  · rintro ⟨length',body',heq,hpos,hmax,hcut⟩
    obtain ⟨hstart,rfl⟩ := List.append_inj heq (by rw [length_putUint32,length_putUint32])
    have hmax' : maxFrameSize < 2^32 := by decide
    have hlength := congrArg uint32 hstart
    rw [uint32_putUint32 h,uint32_putUint32 (by omega)] at hlength
    subst hlength
    exact ⟨hpos,hmax,hcut⟩
  · rintro ⟨hpos,hmax,hcut⟩
    exact ⟨length,body,rfl,hpos,hmax,hcut⟩

theorem length_of_cutBetweenReads {stream : List UInt8} (h : CutBetweenReads stream) :
    lengthPrefixSize ≤ stream.length := by
  obtain ⟨length,body,rfl,_⟩ := h
  rw [List.length_append,length_putUint32]
  omega

theorem endsDistinctly_map {α β : Type} (f : α → β) (result : Except FrameErr α)
    (stream : List UInt8) :
    EndsDistinctly (result.map f) stream ↔ EndsDistinctly result stream := by
  cases result <;> simp [EndsDistinctly,Except.map]

theorem endsDistinctly_readFrame {r : Reader σ} (c : r.Carries) {s : σ} (hend : c.fault s = .eof) :
    EndsDistinctly (readFrame r s).1 (c.pending s) ↔ ¬ CutBetweenReads (c.pending s) := by
  by_cases hheader : (c.pending s).length < lengthPrefixSize
  · refine iff_of_true (endsDistinctly_short_header c hend hheader) fun hcut => ?_
    exact Nat.not_le.mpr hheader (length_of_cutBetweenReads hcut)
  · obtain ⟨length,body,hlt,hstream⟩ := eq_putUint32_append (Nat.not_lt.mp hheader)
    by_cases hadmitted : 1 ≤ length ∧ length ≤ maxFrameSize
    · obtain ⟨hpos,hmax⟩ := hadmitted
      by_cases hshort : body.length < length
      · obtain ⟨e,hresult,he⟩ := readFrame_short_body c hend hpos hmax hstream hshort
        rw [hresult,hstream,cutBetweenReads_iff hlt,← he]
        simp [EndsDistinctly,FrameErr.unwrap,hpos,hmax,hshort,← List.length_eq_zero_iff,
          lengthPrefixSize]
      · -- the frame is all there, and the read does not fail
        have htake : (body.take length).length = length := by
          rw [List.length_take]
          omega
        have hframed : Framed (body.take length) (body.drop length) (c.pending s) := by
          refine ⟨?_,by omega,by omega⟩
          rw [hstream,htake,List.append_assoc,List.take_append_drop]
        rw [(readFrame_of_framed c hframed).1,hstream,cutBetweenReads_iff hlt]
        simp [EndsDistinctly,hshort]
    · have hlength := (readFrameLength_of_pending c hlt hstream).1
      rw [hstream,cutBetweenReads_iff hlt,readFrame,readFrameWithTimeout_eq,hlength]
      refine iff_of_true ?_ fun hcut => hadmitted ⟨hcut.1,hcut.2.1⟩
      split_ifs with hzero hlarge
      · simp [EndsDistinctly,FrameErr.unwrap]
      · simp [EndsDistinctly,FrameErr.unwrap]
      · omega

/-- The end of a stream can be told from a frame that was cut off, whatever way the reader splits
the stream, exactly if the frame was not cut between two of its reads. -/
theorem endsDistinctly_iff {r : Reader σ} (c : r.Carries) {s : σ} (hend : c.fault s = .eof) :
    (EndsDistinctly (readFrame r s).1 (c.pending s) ↔ ¬ CutBetweenReads (c.pending s)) ∧
    ∀ {bp : BufferPool}, bp.Valid → ∀ pick out, readFramePooled r s bp pick = some out →
      (EndsDistinctly out.result (c.pending s) ↔ ¬ CutBetweenReads (c.pending s)) := by
  refine ⟨endsDistinctly_readFrame c hend,?_⟩
  intro bp v pick out hout
  obtain ⟨out',hout',hfollows⟩ := v.readFramePooled r 0 s pick
  obtain rfl : out = out' := Option.some.inj (hout.symm.trans hout')
  rw [← endsDistinctly_map out.pool.bytes,hfollows.result]
  exact endsDistinctly_readFrame c hend

/-- A stream cut inside the prefix, and one cut inside the payload. -/
theorem endsDistinctly_iff_cut :
    EndsDistinctly (readFrame Fragments.reader ⟨[[0,0]],.eof,false⟩).1 [0,0] ∧
      EndsDistinctly (readFrame Fragments.reader ⟨[[0,0],[0,2,7]],.eof,false⟩).1 [0,0,0,2,7] := by
  constructor
  · refine (endsDistinctly_iff Fragments.carries (s := ⟨[[0,0]],.eof,false⟩) rfl).1.mpr ?_
    exact fun hcut => absurd (length_of_cutBetweenReads hcut) (by decide)
  · refine (endsDistinctly_iff Fragments.carries (s := ⟨[[0,0],[0,2,7]],.eof,false⟩) rfl).1.mpr ?_
    rw [show Fragments.carries.pending ⟨[[0,0],[0,2,7]],.eof,false⟩ = putUint32 2 ++ [7] from rfl,
      cutBetweenReads_iff (by norm_num)]
    decide

/-- A frame of one byte that is cut right behind its prefix ends like a stream without it. -/
theorem readFrame_cut_eof :
    (readFrame Fragments.reader ⟨[[0,0,0,1]],.eof,false⟩).1 = .error (.readData .eof) ∧
      (FrameErr.readData .eof).unwrap = some .eof ∧
      ¬ EndsDistinctly (readFrame Fragments.reader ⟨[[0,0,0,1]],.eof,false⟩).1 [0,0,0,1] := by
  have hstream : Fragments.carries.pending ⟨[[0,0,0,1]],.eof,false⟩ = putUint32 1 ++ [] := rfl
  obtain ⟨e,hresult,he⟩ :=
    readFrame_short_body Fragments.carries rfl le_rfl (by decide) hstream (by decide)
  obtain rfl := he.mpr (by simp)
  refine ⟨hresult,rfl,?_⟩
  rw [hresult]
  intro hdistinct
  exact absurd ((hdistinct _ rfl (by simp [FrameErr.unwrap])).mp rfl) (by simp)

end P2PForge.Codec
