import P2PForge.ByteStream

/-! Length-prefixed frames.
A frame is the big-endian length of its payload in four bytes and then the payload. Both
directions move the payload in chunks of 64 KiB and arm the stream's deadline before each
one. The reader's growing loop is compared with one pass over the list of chunk lengths;
from there the wire grammar follows for every reader that delivers the stream. -/
namespace P2PForge.Codec

variable {σ τ : Type}

def lengthPrefixSize : ℕ := 4
def maxFrameSize : ℕ := 10*1024*1024
def chunkSize : ℕ := 64*1024

theorem chunkSize_pos : 0 < chunkSize := by decide

inductive FrameErr
  | readLength (e : StreamErr)
  | empty
  | tooLarge (length : ℕ)
  | readData (e : StreamErr)
  | writeLength (e : StreamErr)
  | writeData (e : StreamErr)
  deriving DecidableEq

def FrameErr.error : FrameErr → String
  | .readLength e => "read frame length: " ++ e.error
  | .empty => "empty frame"
  | .tooLarge length => "frame too large: " ++ toString length ++ " > " ++ toString maxFrameSize
  | .readData e => "read frame data: " ++ e.error
  | .writeLength e => "write frame length: " ++ e.error
  | .writeData e => "write frame data: " ++ e.error

/-- `binary.BigEndian.PutUint32(lenBuf[:], uint32(n))`. -/
def putUint32 (n : ℕ) : List UInt8 :=
  [UInt8.ofNat (n / 2^24),UInt8.ofNat (n / 2^16),UInt8.ofNat (n / 2^8),UInt8.ofNat n]

/-- `binary.BigEndian.Uint32`. -/
def uint32 (bytes : List UInt8) : ℕ := bytes.foldl (fun n b => n*256 + b.toNat) 0

@[simp] theorem length_putUint32 (n : ℕ) : (putUint32 n).length = lengthPrefixSize := rfl

theorem uint32_putUint32 {n : ℕ} (h : n < 2^32) : uint32 (putUint32 n) = n := by
  simp only [uint32,putUint32,List.foldl_cons,List.foldl_nil,UInt8.toNat_ofNat']
  omega

theorem putUint32_uint32 {bytes : List UInt8} (h : bytes.length = lengthPrefixSize) :
    putUint32 (uint32 bytes) = bytes := by
  match bytes,h with
  | [a,b,c,d],_ =>
    have ha := a.toNat_lt
    have hb := b.toNat_lt
    have hc := c.toNat_lt
    have hd := d.toNat_lt
    simp only [putUint32,uint32,List.foldl_cons,List.foldl_nil,List.cons.injEq,and_true,
      ← UInt8.toNat_inj,UInt8.toNat_ofNat']
    omega

example : putUint32 65538 = [0,1,0,2] := by decide

def armRead (r : Reader σ) (idle : Duration) (s : σ) : σ :=
  if idle ≤ 0 then s
  else
    match r.setReadDeadline with
    | none => s
    | some set => set idle s

@[simp] theorem armRead_zero (r : Reader σ) (s : σ) : armRead r 0 s = s := by
  simp [armRead]

def armWrite (w : Writer τ) (idle : Duration) (t : τ) : τ :=
  if idle ≤ 0 then t
  else
    match w.setWriteDeadline with
    | none => t
    | some set => set idle t

def readFrameLength (r : Reader σ) (idle : Duration) (s : σ) : Except FrameErr ℕ × σ :=
  let out := r.readFull lengthPrefixSize (armRead r idle s)
  match out.err with
  | some e => (.error (.readLength e),out.next)
  | none =>
    let length := uint32 out.bytes
    if length = 0 then (.error .empty,out.next)
    else if length > maxFrameSize then (.error (.tooLarge length),out.next)
    else (.ok length,out.next)

/-- The loop of `readLargeBody` with `data` received so far. The capacity the source gives
the growing slice is not modelled. -/
def readLargeBody (r : Reader σ) (length : ℕ) (idle : Duration) (data : List UInt8) (s : σ) :
    Except FrameErr (List UInt8) × σ :=
  if _ : data.length < length then
    match _ : (r.readFull (min chunkSize (length - data.length)) (armRead r idle s)).err with
    | some e =>
      (.error (.readData e),
        (r.readFull (min chunkSize (length - data.length)) (armRead r idle s)).next)
    | none =>
      readLargeBody r length idle
        (data ++ (r.readFull (min chunkSize (length - data.length)) (armRead r idle s)).bytes)
        (r.readFull (min chunkSize (length - data.length)) (armRead r idle s)).next
  else (.ok data,s)
termination_by length - data.length
decreasing_by
  rename_i hlt herr
  have hlen := (r.readFull_err_eq_none _ _).mp herr
  have hchunk := chunkSize_pos
  simp only [List.length_append,hlen]
  omega

def readFrameWithTimeout (r : Reader σ) (idle : Duration) (s : σ) :
    Except FrameErr (List UInt8) × σ :=
  match readFrameLength r idle s with
  | (.error e,s₁) => (.error e,s₁)
  | (.ok length,s₁) => readLargeBody r length idle [] s₁

def readFrame (r : Reader σ) (s : σ) : Except FrameErr (List UInt8) × σ :=
  readFrameWithTimeout r 0 s

/-- The loop of `WriteFrameWithTimeout` over the payload, from offset `off`. -/
def writeChunks (w : Writer τ) (data : List UInt8) (idle : Duration) (off : ℕ) (t : τ) :
    Option FrameErr × τ :=
  if off < data.length then
    let out := w.write (armWrite w idle t) (data.extract off (min (off + chunkSize) data.length))
    match out.err with
    | some e => (some (.writeData e),out.next)
    | none => writeChunks w data idle (off + chunkSize) out.next
  else (none,t)
termination_by data.length - off
decreasing_by
  have hchunk := chunkSize_pos
  omega

def writeFrameWithTimeout (w : Writer τ) (data : List UInt8) (idle : Duration) (t : τ) :
    Option FrameErr × τ :=
  if data.length > maxFrameSize then (some (.tooLarge data.length),t)
  else
    let out := w.write (armWrite w idle t) (putUint32 data.length)
    match out.err with
    | some e => (some (.writeLength e),out.next)
    | none => writeChunks w data idle 0 out.next

def writeFrame (w : Writer τ) (data : List UInt8) (t : τ) : Option FrameErr × τ :=
  writeFrameWithTimeout w data 0 t

def chunkSizes (n : ℕ) : List ℕ :=
  if 0 < n then min chunkSize n :: chunkSizes (n - min chunkSize n) else []
termination_by n
decreasing_by
  have hchunk := chunkSize_pos
  omega

theorem sum_chunkSizes (n : ℕ) : (chunkSizes n).sum = n := by
  fun_induction chunkSizes n with
  | case1 n hpos ih =>
    rw [List.sum_cons,ih]
    omega
  | case2 n hpos =>
    rw [List.sum_nil]
    omega

theorem length_chunkSizes (n : ℕ) :
    (chunkSizes n).length = (n + chunkSize - 1) / chunkSize := by
  have hchunk := chunkSize_pos
  fun_induction chunkSizes n with
  | case1 n hpos ih =>
    rw [List.length_cons,ih]
    by_cases hle : chunkSize ≤ n
    · have hsplit : n + chunkSize - 1 = n - chunkSize + chunkSize - 1 + chunkSize := by omega
      rw [min_eq_left hle,hsplit,Nat.add_div_right _ hchunk]
    · rw [min_eq_right (by omega),Nat.sub_self,Nat.div_eq_of_lt (by omega)]
      symm
      apply Nat.div_eq_of_lt_le <;> omega
  | case2 n hpos =>
    rw [List.length_nil,Nat.div_eq_of_lt (by omega)]

def readEach (r : Reader σ) (idle : Duration) : List ℕ → σ → Except FrameErr (List UInt8) × σ
  | [],s => (.ok [],s)
  | k :: ks,s =>
    match (r.readFull k (armRead r idle s)).err with
    | some e => (.error (.readData e),(r.readFull k (armRead r idle s)).next)
    | none =>
      let tail := readEach r idle ks (r.readFull k (armRead r idle s)).next
      (tail.1.map ((r.readFull k (armRead r idle s)).bytes ++ ·),tail.2)

section Each

variable {r : Reader σ} {idle : Duration} {k : ℕ} {ks : List ℕ} {s : σ}

theorem readEach_cons_error {e : StreamErr} (h : (r.readFull k (armRead r idle s)).err = some e) :
    readEach r idle (k :: ks) s =
      (.error (.readData e),(r.readFull k (armRead r idle s)).next) := by
  simp only [readEach,h]

theorem readEach_cons_ok (h : (r.readFull k (armRead r idle s)).err = none) :
    (readEach r idle (k :: ks) s).1 =
        (readEach r idle ks (r.readFull k (armRead r idle s)).next).1.map
          ((r.readFull k (armRead r idle s)).bytes ++ ·) ∧
      (readEach r idle (k :: ks) s).2 =
        (readEach r idle ks (r.readFull k (armRead r idle s)).next).2 := by
  simp only [readEach,h]
  exact ⟨trivial,trivial⟩

end Each

/-- The growing loop makes one full read for each chunk length. -/
theorem readLargeBody_eq_readEach (r : Reader σ) (length : ℕ) (idle : Duration)
    (data : List UInt8) (s : σ) :
    readLargeBody r length idle data s =
      ((readEach r idle (chunkSizes (length - data.length)) s).1.map (data ++ ·),
        (readEach r idle (chunkSizes (length - data.length)) s).2) := by
  fun_induction readLargeBody r length idle data s with
  | case1 data s hlt e herr =>
    rw [chunkSizes,if_pos (by omega),readEach_cons_error herr]
    rfl
  | case2 data s hlt herr ih =>
    have hlen := (r.readFull_err_eq_none _ _).mp herr
    rw [ih,List.length_append,hlen,← Nat.sub_sub]
    conv =>
      rhs
      rw [chunkSizes,if_pos (by omega),(readEach_cons_ok herr).1,(readEach_cons_ok herr).2]
    cases (readEach r idle _ _).1 <;> simp [Except.map]
  | case3 data s hge =>
    rw [chunkSizes,if_neg (by omega)]
    simp [readEach,Except.map]

theorem readLargeBody_nil (r : Reader σ) (length : ℕ) (idle : Duration) (s : σ) :
    readLargeBody r length idle [] s = readEach r idle (chunkSizes length) s := by
  rw [readLargeBody_eq_readEach]
  cases readEach r idle (chunkSizes length) s with
  | mk result s₁ => cases result <;> simp [Except.map]

theorem readFrameWithTimeout_eq (r : Reader σ) (idle : Duration) (s : σ) :
    readFrameWithTimeout r idle s =
      match (readFrameLength r idle s).1 with
      | .error e => (.error e,(readFrameLength r idle s).2)
      | .ok length => readEach r idle (chunkSizes length) (readFrameLength r idle s).2 := by
  rw [readFrameWithTimeout]
  rcases readFrameLength r idle s with ⟨_ | length,s₁⟩
  · rfl
  · exact readLargeBody_nil r length idle s₁

theorem length_of_readEach {r : Reader σ} {idle : Duration} {sizes : List ℕ} {p : List UInt8}
    {s : σ} (h : (readEach r idle sizes s).1 = .ok p) : p.length = sizes.sum := by
  induction sizes generalizing s p with
  | nil =>
    obtain rfl : [] = p := by simpa [readEach] using h
    rfl
  | cons k ks ih =>
    simp only [readEach] at h
    cases herr : (r.readFull k (armRead r idle s)).err with
    | some e => simp [herr] at h
    | none =>
      have hlen := (r.readFull_err_eq_none k _).mp herr
      simp only [herr] at h
      cases htail : (readEach r idle ks (r.readFull k (armRead r idle s)).next).1 with
      | error e => simp [htail,Except.map] at h
      | ok q =>
        obtain rfl : (r.readFull k (armRead r idle s)).bytes ++ q = p := by
          simpa [htail,Except.map] using h
        rw [List.length_append,hlen,ih htail,List.sum_cons]

/-- The wire grammar: `stream` is the frame of `p` followed by `rest`. -/
def Framed (p rest stream : List UInt8) : Prop :=
  stream = putUint32 p.length ++ p ++ rest ∧ 1 ≤ p.length ∧ p.length ≤ maxFrameSize

section Delivered

variable {r : Reader σ} (c : r.Carries)

theorem pending_of_readEach {sizes : List ℕ} {p : List UInt8} {s : σ}
    (h : (readEach r 0 sizes s).1 = .ok p) :
    c.pending s = p ++ c.pending (readEach r 0 sizes s).2 := by
  induction sizes generalizing s p with
  | nil =>
    obtain rfl : [] = p := by simpa [readEach] using h
    simp [readEach]
  | cons k ks ih =>
    simp only [readEach,armRead_zero] at h ⊢
    cases herr : (r.readFull k s).err with
    | some e => simp [herr] at h
    | none =>
      simp only [herr] at h ⊢
      cases htail : (readEach r 0 ks (r.readFull k s).next).1 with
      | error e => simp [htail,Except.map] at h
      | ok q =>
        obtain rfl : (r.readFull k s).bytes ++ q = p := by simpa [htail,Except.map] using h
        rw [(c.pending_of_readFull herr).1,ih htail,List.append_assoc]

theorem readEach_of_pending {sizes : List ℕ} {p rest : List UInt8} {s : σ}
    (hlen : p.length = sizes.sum) (h : c.pending s = p ++ rest) :
    (readEach r 0 sizes s).1 = .ok p ∧ c.pending (readEach r 0 sizes s).2 = rest ∧
      c.fault (readEach r 0 sizes s).2 = c.fault s := by
  induction sizes generalizing s p with
  | nil =>
    obtain rfl := List.length_eq_zero_iff.mp hlen
    exact ⟨rfl,h,rfl⟩
  | cons k ks ih =>
    rw [List.sum_cons] at hlen
    have htake : (p.take k).length = k := by
      rw [List.length_take]
      omega
    have hsplit : c.pending s = p.take k ++ (p.drop k ++ rest) := by
      rw [h,← List.append_assoc,List.take_append_drop]
    obtain ⟨hbytes,herr,hpending,hfault⟩ := c.readFull_of_pending hsplit
    rw [htake] at hbytes herr hpending hfault
    obtain ⟨hok,hrest,hfault'⟩ := ih (by rw [List.length_drop]; omega) hpending
    simp only [readEach,armRead_zero,herr,hbytes,hok]
    exact ⟨by simp [Except.map],hrest,hfault'.trans hfault⟩

theorem readEach_agrees {σ' : Type} {r' : Reader σ'} {c' : r'.Carries} (sizes : List ℕ)
    {s : σ} {s' : σ'} (h : c.Agrees c' s s') :
    (readEach r 0 sizes s).1 = (readEach r' 0 sizes s').1 ∧
      c.Agrees c' (readEach r 0 sizes s).2 (readEach r' 0 sizes s').2 := by
  induction sizes generalizing s s' with
  | nil => exact ⟨rfl,h⟩
  | cons k ks ih =>
    obtain ⟨herr,hbytes,hnext⟩ := c.readFull_agrees h k
    simp only [readEach,armRead_zero,← herr]
    cases he : (r.readFull k s).err with
    | some e => exact ⟨rfl,hnext⟩
    | none =>
      obtain ⟨htail,hlast⟩ := ih hnext
      simp only [htail,hbytes he]
      exact ⟨trivial,hlast⟩

theorem pending_of_readFrameLength {n : ℕ} {s : σ} (h : (readFrameLength r 0 s).1 = .ok n) :
    c.pending s = putUint32 n ++ c.pending (readFrameLength r 0 s).2 ∧ 1 ≤ n ∧
      n ≤ maxFrameSize := by
  simp only [readFrameLength,armRead_zero] at h ⊢
  cases herr : (r.readFull lengthPrefixSize s).err with
  | some e => simp [herr] at h
  | none =>
    simp only [herr] at h ⊢
    have hlen := (r.readFull_err_eq_none lengthPrefixSize s).mp herr
    have hpending := (c.pending_of_readFull herr).1
    split_ifs at h ⊢ with hzero hlarge
    obtain rfl : uint32 (r.readFull lengthPrefixSize s).bytes = n := by simpa using h
    rw [putUint32_uint32 hlen]
    exact ⟨hpending,by omega,by omega⟩

theorem readFrameLength_of_pending {n : ℕ} {rest : List UInt8} {s : σ} (hn : n < 2^32)
    (h : c.pending s = putUint32 n ++ rest) :
    (readFrameLength r 0 s).1 =
        (if n = 0 then .error .empty else if n > maxFrameSize then .error (.tooLarge n)
          else .ok n) ∧
      c.pending (readFrameLength r 0 s).2 = rest ∧
      c.fault (readFrameLength r 0 s).2 = c.fault s := by
  obtain ⟨hbytes,herr,hpending,hfault⟩ := c.readFull_of_pending h
  rw [length_putUint32] at hbytes herr hpending hfault
  simp only [readFrameLength,armRead_zero,herr,hbytes,uint32_putUint32 hn]
  split_ifs <;> exact ⟨rfl,hpending,hfault⟩

theorem readFrameLength_agrees {σ' : Type} {r' : Reader σ'} {c' : r'.Carries}
    {s : σ} {s' : σ'} (h : c.Agrees c' s s') :
    (readFrameLength r 0 s).1 = (readFrameLength r' 0 s').1 ∧
      c.Agrees c' (readFrameLength r 0 s).2 (readFrameLength r' 0 s').2 := by
  obtain ⟨herr,hbytes,hnext⟩ := c.readFull_agrees h lengthPrefixSize
  simp only [readFrameLength,armRead_zero,← herr]
  cases he : (r.readFull lengthPrefixSize s).err with
  | some e => exact ⟨rfl,hnext⟩
  | none =>
    rw [hbytes he]
    split_ifs <;> exact ⟨rfl,hnext⟩

theorem framed_of_readFrame {p : List UInt8} {s : σ} (h : (readFrame r s).1 = .ok p) :
    Framed p (c.pending (readFrame r s).2) (c.pending s) := by
  simp only [readFrame,readFrameWithTimeout_eq] at h ⊢
  cases hlength : (readFrameLength r 0 s).1 with
  | error e => simp [hlength] at h
  | ok n =>
    simp only [hlength] at h ⊢
    obtain ⟨hheader,hpos,hmax⟩ := pending_of_readFrameLength c hlength
    have hbody := pending_of_readEach c h
    have hlen := length_of_readEach h
    rw [sum_chunkSizes] at hlen
    subst hlen
    exact ⟨by rw [hheader,hbody,List.append_assoc],hpos,hmax⟩

theorem readFrame_of_framed {p rest : List UInt8} {s : σ} (h : Framed p rest (c.pending s)) :
    (readFrame r s).1 = .ok p ∧ c.pending (readFrame r s).2 = rest ∧
      c.fault (readFrame r s).2 = c.fault s := by
  obtain ⟨hstream,hpos,hmax⟩ := h
  rw [List.append_assoc] at hstream
  have hmax' : maxFrameSize < 2^32 := by decide
  obtain ⟨hlength,hpending,hfault⟩ := readFrameLength_of_pending c (by omega) hstream
  rw [if_neg (by omega),if_neg (by omega)] at hlength
  have hbody := readEach_of_pending c (sum_chunkSizes p.length).symm hpending
  simp only [readFrame,readFrameWithTimeout_eq,hlength]
  exact ⟨hbody.1,hbody.2.1,hbody.2.2.trans hfault⟩

theorem readFrame_agrees {σ' : Type} {r' : Reader σ'} {c' : r'.Carries} {s : σ} {s' : σ'}
    (h : c.Agrees c' s s') :
    (readFrame r s).1 = (readFrame r' s').1 ∧
      c.Agrees c' (readFrame r s).2 (readFrame r' s').2 := by
  obtain ⟨hlength,hnext⟩ := readFrameLength_agrees c h
  simp only [readFrame,readFrameWithTimeout_eq,← hlength]
  cases (readFrameLength r 0 s).1 with
  | error e => exact ⟨rfl,hnext⟩
  | ok n => exact readEach_agrees c (chunkSizes n) hnext

end Delivered

end P2PForge.Codec
