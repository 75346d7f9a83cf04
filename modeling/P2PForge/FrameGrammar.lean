import P2PForge.Frame

/-! What the frame writer puts on the wire and what the frame reader accepts from it.
The writer's output is the length prefix and the payload, whatever the chunking. The reader
accepts exactly those outputs for payloads that are not empty, and the writer accepts the
empty payload as well: this is where the two directions part. -/
namespace P2PForge.Codec

variable {σ τ : Type}

section Writing

variable {w : Writer τ} (d : w.Records)

theorem takes_armWrite (w : Writer τ) (idle : Duration) (t : τ) :
    w.Takes t [] (armWrite w idle t) := by
  unfold armWrite
  split_ifs
  · exact .refl
  · cases hset : w.setWriteDeadline with
    | none => exact .refl
    | some set => exact .deadline idle .refl hset

theorem takes_write {idle : Duration} {b : List UInt8} {t : τ}
    (h : (w.write (armWrite w idle t) b).err = none) :
    w.Takes t b (w.write (armWrite w idle t) b).next :=
  .write (takes_armWrite w idle t) h

theorem breaks_write {idle : Duration} {b whole : List UInt8} {t : τ} {cause : StreamErr}
    (h : (w.write (armWrite w idle t) b).err = some cause) (hb : b <+: whole) :
    w.Breaks t [] whole (b.take (w.write (armWrite w idle t) b).taken) cause
      (w.write (armWrite w idle t) b).next :=
  ⟨[],b,_,takes_armWrite w idle t,hb,h,rfl,rfl⟩

theorem extract_append_drop (data : List UInt8) (off k : ℕ) :
    data.extract off (min (off + k) data.length) ++ data.drop (off + k) = data.drop off := by
  have htake : data.extract off (min (off + k) data.length) = (data.drop off).take k := by
    rw [List.extract_eq_take_drop,List.take_eq_take_iff,List.length_drop]
    omega
  rw [htake,← List.drop_drop,List.take_append_drop]

theorem takes_writeChunks (w : Writer τ) (data : List UInt8) (idle : Duration) (off : ℕ) (t : τ) :
    ((writeChunks w data idle off t).1 = none ∧
        w.Takes t (data.drop off) (writeChunks w data idle off t).2) ∨
      ∃ cause part, (writeChunks w data idle off t).1 = some (.writeData cause) ∧
        w.Breaks t [] (data.drop off) part cause (writeChunks w data idle off t).2 := by
  have hwhole := extract_append_drop data
  fun_induction writeChunks w data idle off t with
  | case1 off t hlt out cause herr =>
    exact .inr ⟨cause,_,rfl,breaks_write herr ⟨_,hwhole off chunkSize⟩⟩
  | case2 off t hlt out herr ih =>
    rw [← hwhole off chunkSize]
    rcases ih with ⟨hnone,htakes⟩ | ⟨cause,part,he,hbreaks⟩
    · exact .inl ⟨hnone,(takes_write herr).trans htakes⟩
    · have hafter := hbreaks.after (takes_write herr)
      rw [List.append_nil] at hafter
      exact .inr ⟨cause,_,he,hafter.within⟩
  | case3 off t hge =>
    refine .inl ⟨rfl,?_⟩
    rw [List.drop_of_length_le (Nat.not_lt.mp hge)]
    exact .refl

/-- A `WriteFrame` writes the prefix and the whole payload, or refuses a payload that is too large
and writes nothing, or breaks off in the frame with an error of the stream. -/
theorem takes_writeFrameWithTimeout (w : Writer τ) (data : List UInt8) (idle : Duration) (t : τ) :
    ((writeFrameWithTimeout w data idle t).1 = none ∧ data.length ≤ maxFrameSize ∧
        w.Takes t (putUint32 data.length ++ data) (writeFrameWithTimeout w data idle t).2) ∨
      ((writeFrameWithTimeout w data idle t).1 = some (.tooLarge data.length) ∧
        maxFrameSize < data.length ∧ (writeFrameWithTimeout w data idle t).2 = t) ∨
      ∃ cause part e, (writeFrameWithTimeout w data idle t).1 = some e ∧
        (e = .writeLength cause ∨ e = .writeData cause) ∧ data.length ≤ maxFrameSize ∧
        w.Breaks t [] (putUint32 data.length ++ data) part cause
          (writeFrameWithTimeout w data idle t).2 := by
  simp only [writeFrameWithTimeout]
  split_ifs with hlarge
  · exact .inr (.inl ⟨rfl,hlarge,rfl⟩)
  · have hmax := Nat.not_lt.mp hlarge
    cases herr : (w.write (armWrite w idle t) (putUint32 data.length)).err with
    | some cause =>
      exact .inr (.inr ⟨cause,_,_,rfl,.inl rfl,hmax,breaks_write herr (List.prefix_append _ _)⟩)
    | none =>
      rcases takes_writeChunks w data idle 0
          (w.write (armWrite w idle t) (putUint32 data.length)).next with
        ⟨hnone,htakes⟩ | ⟨cause,part,he,hbreaks⟩
      · exact .inl ⟨hnone,hmax,(takes_write herr).trans htakes⟩
      · have hafter := hbreaks.after (takes_write herr)
        rw [List.append_nil] at hafter
        exact .inr (.inr ⟨cause,_,_,he,.inr rfl,hmax,hafter.within⟩)

theorem written_writeFrameWithTimeout {data : List UInt8} {idle : Duration} {t : τ}
    (h : (writeFrameWithTimeout w data idle t).1 = none) :
    data.length ≤ maxFrameSize ∧
      d.written (writeFrameWithTimeout w data idle t).2 =
        d.written t ++ (putUint32 data.length ++ data) := by
  rcases takes_writeFrameWithTimeout w data idle t with
    ⟨_,hmax,htakes⟩ | ⟨hlarge,_⟩ | ⟨_,_,e,he,_⟩
  · exact ⟨hmax,htakes.written d⟩
  · cases hlarge.symm.trans h
  · cases he.symm.trans h

theorem writeChunks_of_neverFails (hw : w.NeverFails) (data : List UInt8) (idle : Duration)
    (off : ℕ) (t : τ) : (writeChunks w data idle off t).1 = none := by
  fun_induction writeChunks w data idle off t with
  | case1 off t hlt out e herr => exact absurd ((hw _ _).symm.trans herr) (by simp)
  | case2 off t hlt out herr ih => exact ih
  | case3 off t hge => rfl

theorem writeFrameWithTimeout_of_neverFails (hw : w.NeverFails) {data : List UInt8}
    (h : data.length ≤ maxFrameSize) (idle : Duration) (t : τ) :
    (writeFrameWithTimeout w data idle t).1 = none := by
  simp only [writeFrameWithTimeout,if_neg (Nat.not_lt.mpr h),hw _ _]
  exact writeChunks_of_neverFails hw data idle 0 _

end Writing

/-- Frame decoding accepts exactly the wire grammar. Whatever way the reader splits its
stream, `ReadFrame` returns `p` and leaves `rest` exactly when the stream is the frame of `p`
and then `rest`, that is when it is what `WriteFrame` writes for `p` and then `rest`; the
result and the bytes left over depend on the stream only; every other stream gives an error;
and the body loop is one pass over the finitely many chunk lengths of the declared length. -/
theorem readFrame_accepts_iff (r : Reader σ) (c : r.Carries) (s : σ) :
    (∀ p rest, (readFrame r s).1 = .ok p ∧ c.pending (readFrame r s).2 = rest ↔
      c.pending s = putUint32 p.length ++ p ++ rest ∧ 1 ≤ p.length ∧
        p.length ≤ maxFrameSize) ∧
    (∀ (τ : Type) (w : Writer τ) (d : w.Records) (t : τ) (p rest : List UInt8), w.NeverFails →
      ((readFrame r s).1 = .ok p ∧ c.pending (readFrame r s).2 = rest ↔
        1 ≤ p.length ∧ (writeFrame w p t).1 = none ∧
          d.written (writeFrame w p t).2 ++ rest = d.written t ++ c.pending s)) ∧
    (∀ (σ' : Type) (r' : Reader σ') (c' : r'.Carries) (s' : σ'),
      c'.pending s' = c.pending s → c'.fault s' = c.fault s →
        (readFrame r' s').1 = (readFrame r s).1 ∧
          c'.pending (readFrame r' s').2 = c.pending (readFrame r s).2) ∧
    ((¬ ∃ p rest, c.pending s = putUint32 p.length ++ p ++ rest ∧ 1 ≤ p.length ∧
      p.length ≤ maxFrameSize) → ∃ e, (readFrame r s).1 = .error e) ∧
    (∀ length idle (s₁ : σ),
      readLargeBody r length idle [] s₁ = readEach r idle (chunkSizes length) s₁ ∧
        (chunkSizes length).length = (length + chunkSize - 1) / chunkSize) := by
  have hiff : ∀ p rest, (readFrame r s).1 = .ok p ∧ c.pending (readFrame r s).2 = rest ↔
      Framed p rest (c.pending s) := by
    intro p rest
    constructor
    · rintro ⟨hok,rfl⟩
      exact framed_of_readFrame c hok
    · intro hframed
      obtain ⟨hok,hrest,_⟩ := readFrame_of_framed c hframed
      exact ⟨hok,hrest⟩
  refine ⟨hiff,?_,?_,?_,?_⟩
  · intro τ w d t p rest hw
    rw [hiff]
    constructor
    · rintro ⟨hstream,hpos,hmax⟩
      have hnil := writeFrameWithTimeout_of_neverFails hw hmax 0 t
      refine ⟨hpos,hnil,?_⟩
      rw [writeFrame,(written_writeFrameWithTimeout d hnil).2,hstream,List.append_assoc]
    · rintro ⟨hpos,hnil,hwritten⟩
      obtain ⟨hmax,hout⟩ := written_writeFrameWithTimeout d hnil
      rw [writeFrame,hout,List.append_assoc,List.append_cancel_left_eq] at hwritten
      exact ⟨hwritten.symm,hpos,hmax⟩
  · intro σ' r' c' s' hpending hfault
    obtain ⟨hresult,hnext⟩ := readFrame_agrees c' ⟨hpending,hfault⟩
    exact ⟨hresult,hnext.1⟩
  · intro hnone
    cases hresult : (readFrame r s).1 with
    | error e => exact ⟨e,rfl⟩
    | ok p => exact absurd ⟨p,_,framed_of_readFrame c hresult⟩ hnone
  · intro length idle s₁
    exact ⟨readLargeBody_nil r length idle s₁,length_chunkSizes length⟩

/-- What `n` calls of `ReadFrame` in a row return. -/
def readFrames (r : Reader σ) : ℕ → σ → List (Except FrameErr (List UInt8))
  | 0,_ => []
  | n + 1,s => (readFrame r s).1 :: readFrames r n (readFrame r s).2

def writeFrames (w : Writer τ) : List (List UInt8) → τ → List (Option FrameErr) × τ
  | [],t => ([],t)
  | p :: ps,t =>
    ((writeFrame w p t).1 :: (writeFrames w ps (writeFrame w p t).2).1,
      (writeFrames w ps (writeFrame w p t).2).2)

def wire (ps : List (List UInt8)) : List UInt8 :=
  ps.flatMap fun p => putUint32 p.length ++ p

theorem written_writeFrames {w : Writer τ} (d : w.Records) {ps : List (List UInt8)} {t : τ}
    (h : ∀ e ∈ (writeFrames w ps t).1, e = none) :
    (∀ p ∈ ps, p.length ≤ maxFrameSize) ∧
      d.written (writeFrames w ps t).2 = d.written t ++ wire ps := by
  induction ps generalizing t with
  | nil => simp [writeFrames,wire]
  | cons p ps ih =>
    simp only [writeFrames,List.forall_mem_cons] at h ⊢
    obtain ⟨hmax,hframe⟩ := written_writeFrameWithTimeout d h.1
    obtain ⟨hrest,hwritten⟩ := ih h.2
    rw [hwritten]
    refine ⟨⟨hmax,hrest⟩,?_⟩
    rw [writeFrame,hframe]
    simp [wire]

theorem writeFrames_of_neverFails {w : Writer τ} (hw : w.NeverFails) {ps : List (List UInt8)}
    (h : ∀ p ∈ ps, p.length ≤ maxFrameSize) (t : τ) :
    ∀ e ∈ (writeFrames w ps t).1, e = none := by
  induction ps generalizing t with
  | nil => simp [writeFrames]
  | cons p ps ih =>
    obtain ⟨hp,hps⟩ := List.forall_mem_cons.mp h
    rw [writeFrames,List.forall_mem_cons]
    exact ⟨writeFrameWithTimeout_of_neverFails hw hp 0 t,ih hps _⟩

section Sequence

variable {r : Reader σ} (c : r.Carries)

theorem readFrame_at_end {s : σ} (h : c.pending s = []) :
    (readFrame r s).1 = .error (.readLength (c.fault s)) := by
  have hshort := c.readFull_short (k := lengthPrefixSize) (s := s) (by simp [h,lengthPrefixSize])
  simp [readFrame,readFrameWithTimeout_eq,readFrameLength,hshort,h,shortfall]

theorem readFrame_empty {rest : List UInt8} {s : σ} (h : c.pending s = putUint32 0 ++ rest) :
    (readFrame r s).1 = .error .empty := by
  have hlength := (readFrameLength_of_pending c (by norm_num) h).1
  simp only [if_true] at hlength
  simp [readFrame,readFrameWithTimeout_eq,hlength]

theorem readFrames_wire {ps : List (List UInt8)} {s : σ} (hmax : ∀ p ∈ ps, p.length ≤ maxFrameSize)
    (hne : ∀ p ∈ ps, p ≠ []) (h : c.pending s = wire ps) :
    readFrames r (ps.length + 1) s = ps.map .ok ++ [.error (.readLength (c.fault s))] := by
  induction ps generalizing s with
  | nil => simp [readFrames,readFrame_at_end c h]
  | cons p ps ih =>
    obtain ⟨hp,hps⟩ := List.forall_mem_cons.mp hmax
    obtain ⟨hnil,hnils⟩ := List.forall_mem_cons.mp hne
    have hframed : Framed p (wire ps) (c.pending s) :=
      ⟨by simpa [wire] using h,List.length_pos_iff.mpr hnil,hp⟩
    obtain ⟨hok,hrest,hfault⟩ := readFrame_of_framed c hframed
    rw [List.length_cons,readFrames,hok,ih hps hnils hrest,hfault]
    rfl

theorem readFrames_wire_of_empty {ps : List (List UInt8)} {s : σ} {e : FrameErr}
    (hmax : ∀ p ∈ ps, p.length ≤ maxFrameSize) (hmem : [] ∈ ps) (h : c.pending s = wire ps) :
    readFrames r (ps.length + 1) s ≠ ps.map .ok ++ [.error e] := by
  induction ps generalizing s with
  | nil => cases hmem
  | cons p ps ih =>
    rw [List.length_cons,readFrames,List.map_cons,List.cons_append]
    intro heq
    obtain ⟨hok,htail⟩ := List.cons.inj heq
    by_cases hp : p = []
    -- the decoder stops here; before it, every frame is read and the induction goes on
    · subst hp
      have hframe : c.pending s = putUint32 0 ++ wire ps := by simpa [wire] using h
      rw [readFrame_empty c hframe] at hok
      cases hok
    · have hframed : Framed p (wire ps) (c.pending s) :=
        ⟨by simpa [wire] using h,List.length_pos_iff.mpr hp,hmax p List.mem_cons_self⟩
      have hrest := (readFrame_of_framed c hframed).2.1
      have hmem' : [] ∈ ps := (List.mem_cons.mp hmem).resolve_left (Ne.symm hp)
      exact ih (fun q hq => hmax q (List.mem_cons_of_mem p hq)) hmem' hrest htail

end Sequence

/-- What the encoder accepted comes back in order, followed by the end of input, exactly when
no payload was empty: `WriteFrame` takes an empty payload and `ReadFrame` refuses its frame. -/
theorem readFrames_writeFrames_iff {w : Writer τ} (d : w.Records) (t : τ) {r : Reader σ}
    (c : r.Carries) (s : σ) (ps : List (List UInt8))
    (hnil : ∀ e ∈ (writeFrames w ps t).1, e = none)
    (hstream : d.written (writeFrames w ps t).2 = d.written t ++ c.pending s)
    (hend : c.fault s = .eof) :
    readFrames r (ps.length + 1) s = ps.map .ok ++ [.error (.readLength .eof)] ↔
      ∀ p ∈ ps, p ≠ [] := by
  obtain ⟨hmax,hwritten⟩ := written_writeFrames d hnil
  have hpending : c.pending s = wire ps := by
    rw [hwritten,List.append_cancel_left_eq] at hstream
    exact hstream.symm
  constructor
  · intro hread p hp hempty
    subst hempty
    exact readFrames_wire_of_empty c hmax hp hpending hread
  · intro hne
    rw [readFrames_wire c hmax hne hpending,hend]

/-- Two payloads written to a buffer and read back from a stream cut inside the first prefix
and inside the second payload. -/
theorem readFrames_writeFrames_pair :
    readFrames Fragments.reader 3 ⟨[[0,0],[0,1,7,0,0,0,2,8],[],[9]],.eof,false⟩ =
        [.ok [7],.ok [8,9],.error (.readLength .eof)] ↔
      ∀ p ∈ [[7],[8,9]], p ≠ ([] : List UInt8) := by
  have hnil : ∀ e ∈ (writeFrames bufferWriter [[7],[8,9]] []).1, e = none :=
    writeFrames_of_neverFails bufferWriter.neverFails (by decide) []
  have hwritten := (written_writeFrames bufferWriter.records hnil).2
  exact readFrames_writeFrames_iff bufferWriter.records [] Fragments.carries
    ⟨[[0,0],[0,1,7,0,0,0,2,8],[],[9]],.eof,false⟩ [[7],[8,9]] hnil hwritten rfl

/-- An empty payload is written without complaint and read back as an error. -/
theorem readFrames_refuses_empty :
    (∀ e ∈ (writeFrames bufferWriter [[]] []).1, e = none) ∧
      (writeFrames bufferWriter [[]] []).2 = [0,0,0,0] ∧
      readFrames Fragments.reader 2 ⟨[[0,0,0,0]],.eof,false⟩ ≠
        [.ok [],.error (.readLength .eof)] := by
  have hnil : ∀ e ∈ (writeFrames bufferWriter [[]] []).1, e = none :=
    writeFrames_of_neverFails bufferWriter.neverFails (by decide) []
  obtain ⟨hmax,hwritten⟩ := written_writeFrames bufferWriter.records hnil
  exact ⟨hnil,hwritten,readFrames_wire_of_empty Fragments.carries hmax List.mem_cons_self rfl⟩

end P2PForge.Codec
