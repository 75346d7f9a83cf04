import P2PForge.BufferPool

/-! Frames read into pooled buffers, and runs of the pool.
A frame up to the largest tier is read in place into a recycled buffer, a larger one into a
buffer that grows as the plain reader's does. The in-place loop is compared with the same
pass over the chunk lengths as the growing one, so both readers agree whatever a recycled
buffer held. A run interleaves requests, releases, frame reads, items lost by the pools and
writes of other code into any array. -/
namespace P2PForge.Codec

open BufferPool

variable {σ : Type}

def readBodyInto (r : Reader σ) (idle : Duration) (dst : List UInt8) (off : ℕ) (s : σ) :
    Option FrameErr × List UInt8 × σ :=
  if off < dst.length then
    let out := r.readFull (min (off + chunkSize) dst.length - off) (armRead r idle s)
    match out.err with
    | some e => (some (.readData e),overwrite dst off out.bytes,out.next)
    | none => readBodyInto r idle (overwrite dst off out.bytes) (off + chunkSize) out.next
  else (none,dst,s)
termination_by dst.length - off
decreasing_by
  have hchunk := chunkSize_pos
  rw [length_overwrite]
  omega

structure PooledRead (σ : Type) where
  result : Except FrameErr ℕ
  next : σ
  pool : BufferPool

/-- `ReadFramePooledWithTimeout`; nothing is returned where `Get` panics. -/
def readFramePooledWithTimeout (r : Reader σ) (idle : Duration) (s : σ) (bp : BufferPool)
    (pick : ℕ) : Option (PooledRead σ) :=
  match readFrameLength r idle s with
  | (.error e,s₁) => some ⟨.error e,s₁,bp⟩
  | (.ok length,s₁) =>
    if length > tierLarge then
      -- the length is the peer's claim: the buffer grows with what arrives
      match readLargeBody r length idle [] s₁ with
      | (.error e,s₂) => some ⟨.error e,s₂,bp⟩
      | (.ok data,s₂) =>
        let (b,bp) := (bp.alloc data).2.newHandle (bp.alloc data).1 none
        some ⟨.ok b,s₂,bp⟩
    else
      match bp.get length pick with
      | none => none
      | some (b,bp) =>
        match readBodyInto r idle (bp.bytes b) 0 s₁ with
        -- a failed read gives its buffer back, partly overwritten
        | (some e,content,s₂) => some ⟨.error e,s₂,(bp.fill b content).release b⟩
        | (none,content,s₂) => some ⟨.ok b,s₂,bp.fill b content⟩

def readFramePooled (r : Reader σ) (s : σ) (bp : BufferPool) (pick : ℕ) :
    Option (PooledRead σ) :=
  readFramePooledWithTimeout r 0 s bp pick

theorem take_overwrite {dst bytes : List UInt8} {off k : ℕ} (hoff : off < dst.length)
    (hlen : bytes.length = min (off + k) dst.length - off) :
    (overwrite dst off bytes).take (off + k) = dst.take off ++ bytes := by
  have hfront : (dst.take off ++ bytes).length = min (off + k) dst.length := by
    rw [List.length_append,List.length_take]
    omega
  have hbytes : bytes.take (dst.length - off) = bytes := List.take_of_length_le (by omega)
  rw [overwrite,hbytes]
  by_cases hk : off + k ≤ dst.length
  · have hfull : (dst.take off ++ bytes).length = off + k := by omega
    rw [List.take_append_of_le_length hfull.ge,List.take_of_length_le hfull.le]
  · rw [List.drop_of_length_le (by omega),List.append_nil,List.take_of_length_le (by omega)]

theorem chunkSizes_sub {n off : ℕ} (h : off < n) :
    chunkSizes (n - off) =
      (min (off + chunkSize) n - off) :: chunkSizes (n - (off + chunkSize)) := by
  have hwant : min chunkSize (n - off) = min (off + chunkSize) n - off := by omega
  have hrest : n - off - (min (off + chunkSize) n - off) = n - (off + chunkSize) := by omega
  rw [chunkSizes,if_pos (by omega),hwant,hrest]

/-- The in-place loop makes the same full reads as the growing loop, and what it leaves in
the buffer from `off` on is what they returned. -/
theorem readBodyInto_eq_readEach (r : Reader σ) (idle : Duration) (dst : List UInt8) (off : ℕ)
    (s : σ) :
    (readBodyInto r idle dst off s).2.2 =
        (readEach r idle (chunkSizes (dst.length - off)) s).2 ∧
      (readBodyInto r idle dst off s).2.1.length = dst.length ∧
      (readBodyInto r idle dst off s).1.elim (.ok (readBodyInto r idle dst off s).2.1) .error =
        (readEach r idle (chunkSizes (dst.length - off)) s).1.map (dst.take off ++ ·) := by
  fun_induction readBodyInto r idle dst off s with
  | case1 dst off s hlt out e herr =>
    rw [chunkSizes_sub hlt,readEach_cons_error herr]
    exact ⟨rfl,length_overwrite _ _ _,rfl⟩
  | case2 dst off s hlt out herr ih =>
    have hlen := (r.readFull_err_eq_none _ _).mp herr
    rw [length_overwrite,take_overwrite hlt hlen] at ih
    rw [chunkSizes_sub hlt,(readEach_cons_ok herr).1,(readEach_cons_ok herr).2]
    refine ⟨ih.1,ih.2.1,ih.2.2.trans ?_⟩
    cases (readEach r idle _ _).1 <;> simp [Except.map]
  | case3 dst off s hge =>
    rw [chunkSizes,if_neg (by omega)]
    simp [readEach,Except.map,List.take_of_length_le (Nat.not_lt.mp hge)]

/-- A pooled read from `bp` keeps the pool valid and follows the plain reader: same reader
state, same error, same payload in a handle of the declared length. After an error every
handle it made has been released. -/
structure PooledRead.Follows (r : Reader σ) (idle : Duration) (s : σ) (bp : BufferPool)
    (out : PooledRead σ) : Prop where
  valid : out.pool.Valid
  next : out.next = (readFrameWithTimeout r idle s).2
  result : out.result.map out.pool.bytes = (readFrameWithTimeout r idle s).1
  len : ∀ b, out.result = .ok b → (readFrameLength r idle s).1 = .ok (out.pool.len b)
  failed : ∀ e, out.result = .error e →
    ∃ made, out.pool.handles = bp.handles ++ made ∧ ∀ h ∈ made, h.released = true

theorem BufferPool.release_last {bp : BufferPool} {old : List PoolBuffer} {h : PoolBuffer}
    (hhandles : bp.handles = old ++ [h]) (hlive : h.released = false) :
    (bp.release old.length).handles = old ++ [{ h with released := true }] := by
  have hi : bp.handles[old.length]? = some h := by simp [hhandles]
  have hset : (bp.markReleased old.length h).handles = old ++ [{ h with released := true }] := by
    simp [markReleased,hhandles]
  cases htier : h.tier <;> simp [release,hi,hlive,htier,poolPut,hset]

theorem BufferPool.fill_handles (bp : BufferPool) (i : ℕ) (content : List UInt8) :
    (bp.fill i content).handles = bp.handles := by
  unfold fill
  split <;> rfl

theorem BufferPool.Valid.fill {bp : BufferPool} (v : bp.Valid) (i : ℕ) (content : List UInt8) :
    (bp.fill i content).Valid := by
  unfold BufferPool.fill
  split
  · exact v
  · exact v.write _ _ _

variable {bp : BufferPool} {r : Reader σ} {idle : Duration} {s s₁ : σ} {length : ℕ}

/-- A pooled read leaves the handles there are alone. Of those it makes only the one it returns
is not released. -/
theorem handles_readFramePooled {pick : ℕ} {out : PooledRead σ}
    (h : readFramePooledWithTimeout r idle s bp pick = some out) :
    (∃ e, out.result = .error e ∧ ∃ made, out.pool.handles = bp.handles ++ made) ∨
      (out.result = .ok bp.handles.length ∧
        ∃ buf, out.pool.handles = bp.handles ++ [buf] ∧ buf.released = false) := by
  revert h
  fun_cases readFramePooledWithTimeout r idle s bp pick with
  | case1 e s₁ hlength =>
    rintro ⟨⟩
    exact .inl ⟨e,rfl,[],by simp⟩
  | case2 length s₁ hlength hlarge e s₂ hbody =>
    rintro ⟨⟩
    exact .inl ⟨e,rfl,[],by simp⟩
  | case3 length s₁ hlength hlarge data s₂ hbody b bp' hnew =>
    cases hnew
    rintro ⟨⟩
    exact .inr ⟨rfl,_,rfl,rfl⟩
  | case4 => exact nofun
  | case5 length s₁ hlength hsmall b taken hget e content s₂ hbody =>
    rintro ⟨⟩
    obtain ⟨rfl,buf,hhandles,hlive⟩ := handles_get hget
    have hfilled := (fill_handles taken bp.handles.length content).trans hhandles
    exact .inl ⟨e,rfl,_,release_last hfilled hlive⟩
  | case6 length s₁ hlength hsmall b taken hget content s₂ hbody =>
    rintro ⟨⟩
    obtain ⟨rfl,buf,hhandles,hlive⟩ := handles_get hget
    exact .inr ⟨rfl,buf,(fill_handles taken _ content).trans hhandles,hlive⟩

theorem readFramePooled_large (v : bp.Valid) (hlength : readFrameLength r idle s = (.ok length,s₁))
    (hlarge : length > tierLarge) (pick : ℕ) :
    ∃ out, readFramePooledWithTimeout r idle s bp pick = some out ∧ out.Follows r idle s bp := by
  have hplain : readFrameWithTimeout r idle s = readLargeBody r length idle [] s₁ := by
    simp only [readFrameWithTimeout,hlength]
  rcases hbody : readLargeBody r length idle [] s₁ with ⟨e | data,s₂⟩
  · have hread : readFramePooledWithTimeout r idle s bp pick = some ⟨.error e,s₂,bp⟩ := by
      simp only [readFramePooledWithTimeout,hlength,if_pos hlarge,hbody]
    refine ⟨_,hread,v,?_,?_,?_,?_⟩
    · rw [hplain,hbody]
    · rw [hplain,hbody]
      rfl
    · simp
    · exact fun _ _ => ⟨[],by simp⟩
  · have hread : readFramePooledWithTimeout r idle s bp pick = some ⟨.ok bp.handles.length,s₂,
        ((bp.alloc data).2.newHandle (bp.alloc data).1 none).2⟩ := by
      simp only [readFramePooledWithTimeout,hlength,if_pos hlarge,hbody]
      rfl
    have hlen : data.length = length := by
      rw [readLargeBody_nil] at hbody
      have hsum := length_of_readEach (congrArg Prod.fst hbody)
      rwa [sum_chunkSizes] at hsum
    refine ⟨_,hread,v.alloc_newHandle data bp.hits bp.misses,?_,?_,?_,?_⟩
    · rw [hplain,hbody]
    · rw [hplain,hbody]
      simp [Except.map,newHandle,alloc,bytes]
    · rintro b ⟨⟩
      simp [hlength,newHandle,alloc,len,hlen]
    · simp

theorem readFramePooled_small (v : bp.Valid) (hlength : readFrameLength r idle s = (.ok length,s₁))
    (hsmall : ¬ length > tierLarge) (pick : ℕ) :
    ∃ out, readFramePooledWithTimeout r idle s bp pick = some out ∧ out.Follows r idle s bp := by
  obtain ⟨taken,data,hget,hvalid,hhandles,hlen⟩ := v.get length pick
  have hi : taken.handles[bp.handles.length]? = some ⟨data,tierFor length,false⟩ := by
    simp [hhandles]
  have hbytes : (taken.bytes bp.handles.length).length = length :=
    (hvalid.length_bytes hi).trans hlen
  have hplain : readFrameWithTimeout r idle s = readEach r idle (chunkSizes length) s₁ := by
    simp only [readFrameWithTimeout,hlength,readLargeBody_nil]
  obtain ⟨hnext,hcontent,hresult⟩ :=
    readBodyInto_eq_readEach r idle (taken.bytes bp.handles.length) 0 s₁
  rw [hbytes,Nat.sub_zero,← hplain] at hnext hresult
  rw [hbytes] at hcontent
  have hnil : (readFrameWithTimeout r idle s).1.map
      ((taken.bytes bp.handles.length).take 0 ++ ·) = (readFrameWithTimeout r idle s).1 := by
    cases (readFrameWithTimeout r idle s).1 <;> simp [Except.map]
  rw [hnil] at hresult
  rcases hbody : readBodyInto r idle (taken.bytes bp.handles.length) 0 s₁ with ⟨_ | e,content,s₂⟩
  · have hread : readFramePooledWithTimeout r idle s bp pick = some ⟨.ok bp.handles.length,s₂,
        taken.fill bp.handles.length content⟩ := by
      simp only [readFramePooledWithTimeout,hlength,if_neg hsmall,hget,hbody]
    simp only [hbody] at hnext hcontent hresult
    have hfill : (taken.fill bp.handles.length content).bytes bp.handles.length = content := by
      rw [fill,hi]
      exact hvalid.bytes_write hi (hcontent.trans hlen.symm)
    refine ⟨_,hread,hvalid.fill _ _,hnext,?_,?_,?_⟩
    · rw [← hresult,Except.map,hfill]
      rfl
    · rintro b ⟨⟩
      simp [hlength,len,fill_handles,hi,hlen]
    · simp
  · have hread : readFramePooledWithTimeout r idle s bp pick = some ⟨.error e,s₂,
        (taken.fill bp.handles.length content).release bp.handles.length⟩ := by
      simp only [readFramePooledWithTimeout,hlength,if_neg hsmall,hget,hbody]
    simp only [hbody] at hnext hcontent hresult
    have hfilled := (fill_handles taken bp.handles.length content).trans hhandles
    have hreleased := release_last hfilled rfl
    refine ⟨_,hread,(hvalid.fill _ _).release _,hnext,?_,?_,?_⟩
    · rw [← hresult]
      rfl
    · simp
    · exact fun _ _ => ⟨_,hreleased,by simp⟩

theorem BufferPool.Valid.readFramePooled (v : bp.Valid) (r : Reader σ) (idle : Duration) (s : σ)
    (pick : ℕ) :
    ∃ out, readFramePooledWithTimeout r idle s bp pick = some out ∧ out.Follows r idle s bp := by
  rcases hlength : readFrameLength r idle s with ⟨e | length,s₁⟩
  · have hread : readFramePooledWithTimeout r idle s bp pick = some ⟨.error e,s₁,bp⟩ := by
      simp only [readFramePooledWithTimeout,hlength]
    have hplain : readFrameWithTimeout r idle s = (.error e,s₁) := by
      simp only [readFrameWithTimeout,hlength]
    refine ⟨_,hread,v,?_,?_,?_,?_⟩
    · rw [hplain]
    · rw [hplain]
      rfl
    · simp
    · exact fun _ _ => ⟨[],by simp⟩
  · by_cases hlarge : length > tierLarge
    · exact readFramePooled_large v hlength hlarge pick
    · exact readFramePooled_small v hlength hlarge pick

/-- What may happen to a pool: a request of any size, a release of any handle, a frame read
from any reader in any state, an item lost by a tier's pool, a write into any array. -/
inductive PoolEvent : Type 1
  | get (size pick : ℕ)
  | release (i : ℕ)
  | readFramePooled {σ : Type} (r : Reader σ) (idle : Duration) (s : σ) (pick : ℕ)
  | lose (tier : Tier) (pick : ℕ)
  | write (array off : ℕ) (bytes : List UInt8)

namespace BufferPool

def step (bp : BufferPool) : PoolEvent → Option BufferPool
  | .get size pick => (bp.get size pick).map Prod.snd
  | .release i => some (bp.release i)
  | .readFramePooled r idle s pick =>
    (readFramePooledWithTimeout r idle s bp pick).map PooledRead.pool
  | .lose tier pick => some (bp.poolDrop tier pick)
  | .write array off bytes => some (bp.write array off bytes)

def run (bp : BufferPool) : List PoolEvent → Option BufferPool
  | [] => some bp
  | e :: es => (bp.step e).bind fun bp' => bp'.run es

theorem Valid.step {bp : BufferPool} (v : bp.Valid) (e : PoolEvent) :
    ∃ bp', bp.step e = some bp' ∧ bp'.Valid := by
  cases e with
  | get size pick =>
    obtain ⟨bp',_,hget,hvalid,_⟩ := v.get size pick
    exact ⟨bp',by simp [BufferPool.step,hget],hvalid⟩
  | release i => exact ⟨_,rfl,v.release i⟩
  | readFramePooled r idle s pick =>
    obtain ⟨out,hread,hfollows⟩ := v.readFramePooled r idle s pick
    exact ⟨out.pool,by simp [BufferPool.step,hread],hfollows.valid⟩
  | lose tier pick => exact ⟨_,rfl,v.poolDrop tier pick⟩
  | write array off bytes => exact ⟨_,rfl,v.write array off bytes⟩

theorem Valid.run {bp : BufferPool} (v : bp.Valid) (es : List PoolEvent) :
    ∃ bp', bp.run es = some bp' ∧ bp'.Valid := by
  induction es generalizing bp with
  | nil => exact ⟨bp,rfl,v⟩
  | cons e es ih =>
    obtain ⟨bp₁,hstep,hvalid⟩ := v.step e
    obtain ⟨bp',hrun,hvalid'⟩ := ih hvalid
    exact ⟨bp',by simp [BufferPool.run,hstep,hrun],hvalid'⟩

theorem Valid.pooled_nodup {bp : BufferPool} (v : bp.Valid) : (pooled bp.pools).Nodup :=
  (List.nodup_append.mp v.nodup).1

theorem Valid.not_mem_pooled {bp : BufferPool} (v : bp.Valid) {i : ℕ} {h : PoolBuffer}
    (hi : bp.handles[i]? = some h) (hlive : h.released = false) :
    h.data.array ∉ pooled bp.pools := by
  intro hpooled
  have hmem : h ∈ unreleased bp.handles :=
    List.mem_filter.mpr ⟨List.mem_of_getElem? hi,by simp [hlive]⟩
  exact (List.nodup_append.mp v.nodup).2.2 _ hpooled _ (List.mem_map_of_mem hmem) rfl

theorem Valid.array_ne {bp : BufferPool} (v : bp.Valid) {i j : ℕ} {h h' : PoolBuffer}
    (hi : bp.handles[i]? = some h) (hj : bp.handles[j]? = some h') (hij : i ≠ j)
    (hlive : h.released = false) (hlive' : h'.released = false) :
    h.data.array ≠ h'.data.array := by
  have hnodup := (List.nodup_append.mp v.nodup).2.1
  rw [List.Nodup,List.pairwise_map,unreleased,List.pairwise_filter,
    List.pairwise_iff_getElem] at hnodup
  obtain ⟨hlt,rfl⟩ := List.getElem?_eq_some_iff.mp hi
  obtain ⟨hlt',rfl⟩ := List.getElem?_eq_some_iff.mp hj
  rcases Nat.lt_or_gt_of_ne hij with hless | hmore
  · exact hnodup i j hlt hlt' hless (by simp [hlive]) (by simp [hlive'])
  · exact (hnodup j i hlt' hlt hmore (by simp [hlive']) (by simp [hlive])).symm

/-- Buffer pool ownership. No run of the pool panics, and at its end: every pooled slice has
the length and capacity of its tier, so that a further request gets a handle of exactly its
size; no backing array is in a pool twice, or in a pool and with an unreleased handle, or
with two unreleased handles; and a frame read that fails has released every handle it made
and left the others alone. -/
theorem run_owns_arrays_once (events : List PoolEvent) :
    ∃ bp, newBufferPool.run events = some bp ∧
      (∀ tier, ∀ b ∈ bp.pools tier, b.len = tier.size ∧ b.cap = tier.size) ∧
      (∀ size pick, ∃ i bp', bp.get size pick = some (i,bp') ∧ bp'.len i = size) ∧
      (pooled bp.pools).Nodup ∧
      (∀ (i : ℕ) h, bp.handles[i]? = some h → h.released = false →
        h.data.array ∉ pooled bp.pools) ∧
      (∀ (i j : ℕ) h h', bp.handles[i]? = some h → bp.handles[j]? = some h' → i ≠ j →
        h.released = false → h'.released = false → h.data.array ≠ h'.data.array) ∧
      (∀ (σ : Type) (r : Reader σ) idle s pick out e,
        readFramePooledWithTimeout r idle s bp pick = some out → out.result = .error e →
          ∃ made, out.pool.handles = bp.handles ++ made ∧ ∀ h ∈ made, h.released = true) := by
  obtain ⟨bp,hrun,v⟩ := valid_newBufferPool.run events
  refine ⟨bp,hrun,fun tier b hb => ⟨(v.pool tier b hb).len,(v.pool tier b hb).cap⟩,?_,
    v.pooled_nodup,fun i h => v.not_mem_pooled,fun i j h h' => v.array_ne,?_⟩
  · intro size pick
    obtain ⟨bp',data,hget,_,hhandles,hlen⟩ := v.get size pick
    exact ⟨_,bp',hget,by simp [len,hhandles,hlen]⟩
  · intro σ r idle s pick out e hread herror
    obtain ⟨out',hread',hfollows⟩ := v.readFramePooled r idle s pick
    obtain rfl : out' = out := Option.some.inj (hread'.symm.trans hread)
    exact hfollows.failed e herror

/-- The pooled and the plain reader agree. After any run of the pool, with whatever bytes the
recycled buffers hold, a pooled read of any reader does not panic, leaves the reader where the
plain read leaves it, and has the plain read's result: the same error, or the same payload in
a handle whose length is the declared one. -/
theorem readFramePooled_agrees_readFrame (events : List PoolEvent) :
    ∃ bp, newBufferPool.run events = some bp ∧
      ∀ (σ : Type) (r : Reader σ) idle s pick,
        ∃ out, readFramePooledWithTimeout r idle s bp pick = some out ∧
          out.next = (readFrameWithTimeout r idle s).2 ∧
          out.result.map out.pool.bytes = (readFrameWithTimeout r idle s).1 ∧
          ∀ b, out.result = .ok b → (readFrameLength r idle s).1 = .ok (out.pool.len b) := by
  obtain ⟨bp,hrun,v⟩ := valid_newBufferPool.run events
  refine ⟨bp,hrun,?_⟩
  intro σ r idle s pick
  obtain ⟨out,hread,hfollows⟩ := v.readFramePooled r idle s pick
  exact ⟨out,hread,hfollows.next,hfollows.result,hfollows.len⟩

end BufferPool
end P2PForge.Codec
